import Qtalk.Lib.Json

/-!
# Reflection in Go

Types as far as `reflect` tells them apart, when a value of one may be given to a variable of
another, and the call of a function with values whose types are known only at run time. And
`encoding/json` into a variable of a type: an `interface{}` gets null, a bool, a float64, a
string, a `[]interface{}` or a `map[string]interface{}`.
-/

namespace Qtalk.Lib.Reflect

/-- The predeclared types. -/
inductive Basic where
  | bool | int | int8 | int16 | int32 | int64 | uint | uint8 | uint16 | uint32 | uint64 | uintptr
  | float32 | float64 | complex64 | complex128 | string | unsafePointer
  deriving DecidableEq, Repr

inductive Kind where
  | basic (b : Basic)
  | array | chan | func | interface | map | ptr | slice | struct
  deriving DecidableEq, Repr

/-- A type. Functions and structs are known by a number, methods by their names. -/
inductive GoType where
  | basic (b : Basic)
  | array (len : Nat) (elem : GoType)
  | chan (elem : GoType)
  | func (id : Nat)
  | interface (methods : List String)
  | map (key elem : GoType)
  | ptr (elem : GoType)
  | slice (elem : GoType)
  /-- `methods` are those of embedded fields -/
  | struct (id : Nat) (methods : List String)
  /-- a defined type, with the methods on its values and those on pointers alone -/
  | named (name : String) (methods ptrMethods : List String) (underlying : GoType)
  deriving DecidableEq, Repr

namespace GoType

def underlying : GoType → GoType
  | .named _ _ _ u => u.underlying
  | t => t

def kind : GoType → Kind
  | .basic b => .basic b
  | .array _ _ => .array
  | .chan _ => .chan
  | .func _ => .func
  | .interface _ => .interface
  | .map _ _ => .map
  | .ptr _ => .ptr
  | .slice _ => .slice
  | .struct _ _ => .struct
  | .named _ _ _ u => u.kind

/-- The type a pointer points to, or of a slice's elements. -/
def elem : GoType → GoType
  | .ptr e => e
  | .slice e => e
  | .named _ _ _ u => u.elem
  | t => t

def hasName : GoType → Bool
  | .basic _ => true
  | .named _ _ _ _ => true
  | _ => false

def methodSet : GoType → List String
  | .interface ms => ms
  | .struct _ ms => ms
  | .named _ ms _ u => if u.kind = .interface then u.methodSet else ms
  | .ptr (.struct _ ms) => ms
  | .ptr (.named _ ms pms u) => if u.kind = .interface ∨ u.kind = .ptr then [] else ms ++ pms
  | _ => []

/-- `Implements`. -/
def Implements (v t : GoType) : Prop := t.kind = .interface ∧ ∀ m ∈ t.methodSet, m ∈ v.methodSet

instance (v t : GoType) : Decidable (v.Implements t) := inferInstanceAs (Decidable (_ ∧ _))

/-- `AssignableTo`; the rule for channels apart. -/
def AssignableTo (v t : GoType) : Prop :=
  v = t ∨ (¬(v.hasName = true ∧ t.hasName = true) ∧ v.underlying = t.underlying) ∨ v.Implements t

instance (v t : GoType) : Decidable (v.AssignableTo t) := inferInstanceAs (Decidable (_ ∨ _))

theorem assignable_refl (t : GoType) : t.AssignableTo t := .inl rfl

/-- `IsNil` is for these. -/
def Nillable (t : GoType) : Prop := t.kind ∈ [.chan, .func, .interface, .map, .ptr, .slice,
  .basic .unsafePointer]

instance (t : GoType) : Decidable t.Nillable := inferInstanceAs (Decidable (_ ∈ _))

end GoType

/-- A value, whose type is known from elsewhere; of an interface it is the value inside. -/
inductive GoValue (F : Type) where
  | nil
  | bool (b : Bool)
  | int (i : Int)
  | float64 (x : F)
  | string (s : List UInt8)
  | slice (elems : List (GoValue F))
  | map (entries : List (List UInt8 × GoValue F))
  /-- a pointer to a new variable -/
  | ptr (v : GoValue F)
  /-- a pointer that was there before -/
  | addr (a : Nat)
  /-- a value of another type, by number -/
  | other (n : Nat)

/-- A `reflect.Value`. -/
inductive RValue (F : Type) where
  | invalid
  | of (t : GoType) (v : GoValue F)

def anyType : GoType := .interface []

variable {F : Type}

namespace GoValue

def isNil : GoValue F → Bool
  | .nil => true
  | _ => false

/-- The type that an `interface{}` knows of the value in it. -/
def dynamicType : GoValue F → Option GoType
  | .bool _ => some (.basic .bool)
  | .int _ => some (.basic .int)
  | .float64 _ => some (.basic .float64)
  | .string _ => some (.basic .string)
  | .slice _ => some (.slice anyType)
  | .map _ => some (.map (.basic .string) anyType)
  | _ => none

/-- `reflect.ValueOf`. -/
def valueOf (v : GoValue F) : RValue F :=
  match v.dynamicType with
  | some t => .of t v
  | none => .invalid

/-- The elements of a slice. -/
def elems : GoValue F → List (GoValue F)
  | .slice vs => vs
  | _ => []

@[simp] theorem elems_nil : (nil : GoValue F).elems = [] := rfl
@[simp] theorem elems_slice (vs : List (GoValue F)) : (slice vs).elems = vs := rfl

end GoValue

/-! ## Calls -/

/-- A function of some type. -/
structure Func (F : Type) where
  ins : List GoType
  variadic : Bool
  outs : List GoType
  apply : List (GoValue F) → List (GoValue F)
  results : ∀ args, (apply args).length = outs.length
  rest : variadic = true → ∃ fixed elem, ins = fixed ++ [.slice elem]

/-- A value given to a parameter. -/
def assignOne (t : GoType) : RValue F → Except String (GoValue F)
  | .invalid => .error "reflect: Call using zero Value argument"
  | .of t' v =>
    if t'.AssignableTo t then .ok v else .error "reflect: Call using a value as another type"

def assign : List GoType → List (RValue F) → Except String (List (GoValue F))
  | t :: ts, p :: ps => (assignOne t p).bind fun v => (assign ts ps).map fun vs => v :: vs
  | _, _ => .ok []

/-- `Call`, up to the function: the arguments it gets. What goes to a variadic parameter is put
into a new slice. -/
def Func.Call (f : Func F) (params : List (RValue F)) : Except String (List (GoValue F)) :=
  let fixed := if f.variadic then f.ins.length - 1 else f.ins.length
  if params.length < fixed then .error "reflect: Call with too few input arguments"
  else if f.variadic = false ∧ fixed < params.length then
    .error "reflect: Call with too many input arguments"
  else
    (assign (f.ins.take fixed) (params.take fixed)).bind fun args =>
      match f.variadic, f.ins.drop fixed with
      | true, t :: _ =>
        let rest := params.drop fixed
        (assign (List.replicate rest.length t.elem) rest).map fun vs => args ++ [.slice vs]
      | _, _ => .ok args

/-! ## `encoding/json` -/

/-- What the rest of the standard library does: a number of a JSON text as a float64, a float64
as an int, the bytes of a string, and `Unmarshal` into a variable of any type that has no
rule below. -/
structure GoStd (F N : Type) where
  float64 : N → Option F
  toInt : F → Int
  unquote : List UInt16 → List UInt8
  plain : GoType → Json N → Option (GoValue F)

variable {N : Type} (std : GoStd F N)

mutual

/-- `Unmarshal` into an `interface{}`. -/
def GoStd.anyOf : Json N → Option (GoValue F)
  | .null => some .nil
  | .bool b => some (.bool b)
  | .number n => (std.float64 n).map .float64
  | .string s => some (.string (std.unquote s))
  | .array js => (GoStd.anyElems js).map .slice
  | .object ms => (GoStd.anyEntries ms).map .map

def GoStd.anyElems : List (Json N) → Option (List (GoValue F))
  | [] => some []
  | j :: js => (GoStd.anyOf j).bind fun v => (GoStd.anyElems js).map fun vs => v :: vs

def GoStd.anyEntries : List (List UInt16 × Json N) → Option (List (List UInt8 × GoValue F))
  | [] => some []
  | (k, j) :: ms => (GoStd.anyOf j).bind fun v => (GoStd.anyEntries ms).map fun vs => (std.unquote k, v) :: vs

end

/-- `Unmarshal` into a `[]interface{}`. -/
def GoStd.anySlice : Json N → Option (GoValue F)
  | .null => some .nil
  | .array js => (std.anyElems js).map .slice
  | _ => none

/-- `Unmarshal` into a variable of a type. -/
def GoStd.unmarshal : GoType → Json N → Option (GoValue F)
  | .interface [], j => std.anyOf j
  | .slice (.interface []), j => std.anySlice j
  | .ptr _, .null => some .nil
  | .ptr e, j => (unmarshal e j).map .ptr
  | .named name ms pms u, j =>
    if u.kind = .ptr then unmarshal u j else std.plain (.named name ms pms u) j
  | t, j => std.plain t j

/-! ## What a call accepts -/

theorem any_assignable (t : GoType) : t.AssignableTo anyType :=
  .inr (.inr ⟨rfl, fun m hm => by cases hm⟩)

theorem assignOne_ok {t : GoType} {p : RValue F} {v : GoValue F} :
    assignOne t p = .ok v ↔ ∃ t', p = .of t' v ∧ t'.AssignableTo t := by
  cases p with
  | invalid => simp [assignOne]
  | of t' w =>
    rw [assignOne]
    split
    · next h =>
      constructor
      · intro hw
        cases hw
        exact ⟨t', rfl, h⟩
      · rintro ⟨t', hw, -⟩
        cases hw
        rfl
    · next h =>
      refine iff_of_false (fun hw => by cases hw) ?_
      rintro ⟨t', hw, ht⟩
      cases hw
      exact h ht

theorem assignOne_valueOf {t : GoType} {v w : GoValue F} :
    assignOne t v.valueOf = .ok w ↔ v = w ∧ ∃ d, w.dynamicType = some d ∧ d.AssignableTo t := by
  rw [assignOne_ok, GoValue.valueOf]
  cases hd : v.dynamicType with
  | none =>
    refine iff_of_false ?_ ?_
    · rintro ⟨t', h, -⟩
      cases h
    · rintro ⟨rfl, d, hd', -⟩
      rw [hd] at hd'
      cases hd'
  | some d =>
    constructor
    · rintro ⟨t', h, ht⟩
      cases h
      exact ⟨rfl, d, hd, ht⟩
    · rintro ⟨rfl, d', hd', ht⟩
      rw [hd] at hd'
      cases hd'
      exact ⟨d, rfl, ht⟩

theorem assign_cons {t : GoType} {ts : List GoType} {p : RValue F} {ps : List (RValue F)}
    {vs : List (GoValue F)} :
    assign (t :: ts) (p :: ps) = .ok vs ↔
      ∃ v ws, assignOne t p = .ok v ∧ assign ts ps = .ok ws ∧ vs = v :: ws := by
  rw [assign]
  cases assignOne t p with
  | error e => simp [Except.bind]
  | ok v =>
    cases assign ts ps with
    | error e => simp [Except.bind, Except.map]
    | ok ws => simp [Except.bind, Except.map, eq_comm]

theorem assign_append {ts ts' : List GoType} {ps ps' : List (RValue F)} (hlen : ps.length = ts.length)
    {vs : List (GoValue F)} :
    assign (ts ++ ts') (ps ++ ps') = .ok vs ↔
      ∃ as bs, assign ts ps = .ok as ∧ assign ts' ps' = .ok bs ∧ vs = as ++ bs := by
  induction ts generalizing ps vs with
  | nil =>
    cases List.length_eq_zero_iff.mp hlen
    simp [assign]
  | cons t ts ih =>
    obtain ⟨p, ps, rfl⟩ := List.exists_cons_of_length_eq_add_one hlen
    rw [List.cons_append, List.cons_append, assign_cons]
    constructor
    · rintro ⟨v, ws, hv, hws, rfl⟩
      obtain ⟨as, bs, has, hbs, rfl⟩ := (ih (by simpa using hlen)).mp hws
      exact ⟨v :: as, bs, assign_cons.mpr ⟨v, as, hv, has, rfl⟩, hbs, rfl⟩
    · rintro ⟨as, bs, has, hbs, rfl⟩
      obtain ⟨v, ws, hv, hws, rfl⟩ := assign_cons.mp has
      exact ⟨v, ws ++ bs, hv, (ih (by simpa using hlen)).mpr ⟨ws, bs, hws, hbs, rfl⟩, rfl⟩

theorem Func.Call_fixed {f : Func F} (hv : f.variadic = false) {params : List (RValue F)}
    {args : List (GoValue F)} :
    f.Call params = .ok args ↔ params.length = f.ins.length ∧ assign f.ins params = .ok args := by
  rw [Func.Call]
  simp only [hv, Bool.false_eq_true, if_false, true_and]
  split
  · next h => exact iff_of_false (fun h' => by cases h') fun h' => by omega
  · split
    · next h => exact iff_of_false (fun h' => by cases h') fun h' => by omega
    · next h h' =>
      have hlen : params.length = f.ins.length := by omega
      rw [List.take_length, List.take_of_length_le (Nat.le_of_eq hlen)]
      cases assign f.ins params with
      | error e => simp [Except.bind]
      | ok vs => simp [Except.bind, hlen]

theorem Func.Call_variadic {f : Func F} (hv : f.variadic = true) {fixed : List GoType} {elem : GoType}
    (hins : f.ins = fixed ++ [.slice elem]) {params : List (RValue F)} {args : List (GoValue F)} :
    f.Call params = .ok args ↔ fixed.length ≤ params.length ∧
      ∃ as vs, assign fixed (params.take fixed.length) = .ok as ∧
        assign (List.replicate (params.drop fixed.length).length elem) (params.drop fixed.length)
          = .ok vs ∧ args = as ++ [.slice vs] := by
  have hlen : f.ins.length - 1 = fixed.length := by
    rw [hins, List.length_append, List.length_singleton, Nat.add_sub_cancel]
  rw [Func.Call]
  simp only [hv, if_true, hlen, Bool.true_eq_false, false_and, if_false]
  split
  · next h => exact iff_of_false (fun h' => by cases h') fun h' => by omega
  · next h =>
    have htake : f.ins.take fixed.length = fixed := by rw [hins, List.take_left]
    have hdrop : f.ins.drop fixed.length = [.slice elem] := by rw [hins, List.drop_left]
    rw [htake, hdrop]
    cases assign fixed (params.take fixed.length) with
    | error e => simp [Except.bind]
    | ok as =>
      dsimp only [Except.bind, GoType.elem]
      cases assign (List.replicate (params.drop fixed.length).length elem) (params.drop fixed.length) with
      | error e => simp [Except.map]
      | ok vs =>
        have hle : fixed.length ≤ params.length := Nat.le_of_not_lt h
        simp [Except.map, hle, eq_comm]

/-- What is in an `interface{}` that is not nil has a type. -/
theorem anyOf_dynamicType {j : Json N} {v : GoValue F} (h : std.anyOf j = some v) :
    v.isNil = false ↔ ∃ d, v.dynamicType = some d := by
  cases j with
  | null =>
    cases h
    simp [GoValue.isNil, GoValue.dynamicType]
  | bool b =>
    cases h
    simp [GoValue.isNil, GoValue.dynamicType]
  | number n =>
    obtain ⟨x, -, rfl⟩ := Option.map_eq_some_iff.mp h
    simp [GoValue.isNil, GoValue.dynamicType]
  | string s =>
    cases h
    simp [GoValue.isNil, GoValue.dynamicType]
  | array js =>
    rw [GoStd.anyOf] at h
    obtain ⟨vs, -, rfl⟩ := Option.map_eq_some_iff.mp h
    simp [GoValue.isNil, GoValue.dynamicType]
  | object ms =>
    rw [GoStd.anyOf] at h
    obtain ⟨vs, -, rfl⟩ := Option.map_eq_some_iff.mp h
    simp [GoValue.isNil, GoValue.dynamicType]

theorem anyElems_cons {j : Json N} {js : List (Json N)} {vs : List (GoValue F)} :
    std.anyElems (j :: js) = some vs ↔
      ∃ w ws, std.anyOf j = some w ∧ std.anyElems js = some ws ∧ vs = w :: ws := by
  rw [GoStd.anyElems, Option.bind_eq_some_iff]
  constructor
  · rintro ⟨w, hw, h⟩
    obtain ⟨ws, hws, rfl⟩ := Option.map_eq_some_iff.mp h
    exact ⟨w, ws, hw, hws, rfl⟩
  · rintro ⟨w, ws, hw, hws, rfl⟩
    exact ⟨w, hw, Option.map_eq_some_iff.mpr ⟨ws, hws, rfl⟩⟩

theorem anyElems_length {js : List (Json N)} :
    ∀ {vs : List (GoValue F)}, std.anyElems js = some vs → vs.length = js.length := by
  induction js with
  | nil =>
    intro vs h
    cases h
    rfl
  | cons j js ih =>
    intro vs h
    obtain ⟨v, ws, -, hws, rfl⟩ := (anyElems_cons std).mp h
    rw [List.length_cons, List.length_cons, ih hws]

theorem anySlice_first {j : Json N} {x : GoValue F} {more : List (GoValue F)}
    (h : std.anySlice j = some (.slice (x :: more))) : ∃ j', std.anyOf j' = some x := by
  cases j with
  | null => cases h
  | array js =>
    obtain ⟨vs, hvs, heq⟩ := Option.map_eq_some_iff.mp h
    cases heq
    cases js with
    | nil => cases hvs
    | cons j' js =>
      obtain ⟨w, ws, hw, -, heq⟩ := (anyElems_cons std).mp hvs
      cases heq
      exact ⟨j', hw⟩
  | _ => cases h

theorem unmarshal_ptr_null {t : GoType} (hk : t.kind = .ptr) : std.unmarshal t .null = some .nil := by
  induction t with
  | ptr e => rfl
  | named name ms pms u ih =>
    rw [GoStd.unmarshal]
    exact (if_pos hk).trans (ih hk)
  | _ => cases hk

/-- Into a pointer is into what it points to. -/
theorem unmarshal_ptr {t : GoType} (hk : t.kind = .ptr) {j : Json N} (hj : j ≠ .null) :
    std.unmarshal t j = (std.unmarshal t.elem j).map .ptr := by
  induction t with
  | ptr e =>
    rw [GoStd.unmarshal]
    · rfl
    · exact hj
  | named name ms pms u ih =>
    rw [GoStd.unmarshal]
    exact (if_pos hk).trans (ih hk)
  | _ => cases hk

theorem ptr_assignable {t : GoType} (hk : t.kind = .ptr) : (GoType.ptr t.elem).AssignableTo t := by
  have hunder : t.underlying = .ptr t.elem := by
    induction t with
    | ptr e => rfl
    | named name ms pms u ih => exact ih hk
    | _ => cases hk
  exact .inr (.inl ⟨fun h => (by cases h.1), hunder.symm⟩)

end Qtalk.Lib.Reflect
