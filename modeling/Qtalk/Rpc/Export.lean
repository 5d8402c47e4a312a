import Qtalk.Lib.Reflect

/-!
# Exported functions

`Export` of `golang/rpc/export.go` and the handlers it makes: one decodes a frame of
arguments, calls the function through `reflect` and returns what it returns. A single
parameter is decoded into a variable of its type, several into a `[]interface{}`, and then only
an int is converted. What that comes to for arguments of the declared types is said exactly in
`answered_iff`.
-/

namespace Qtalk.Rpc.Exporting
open Qtalk.Lib Reflect

variable {F N : Type}

/-- `*Call`; of its methods the names. -/
def callType : GoType := .ptr (.named "rpc.Call" [] ["Decode", "Parse"] (.struct 0 []))

/-- `[]interface{}` -/
def sliceType : GoType := .slice anyType

/-- `v.Type().Implements(errorInterface)` -/
def IsError (t : GoType) : Prop := "Error" ∈ t.methodSet

instance (t : GoType) : Decidable (IsError t) := inferInstanceAs (Decidable (_ ∈ _))

/-- What the handler of an exported function closes over: `rfn` with `rt`, and the receiver. -/
structure Handler (F : Type) where
  rfn : Func F
  rcvr : Option (GoType × GoValue F)

/-- `exportFunc`, which gets nothing but functions here. -/
def exportFunc (fn : Func F) (rcvr : Option (GoType × GoValue F)) : Except String (Handler F) :=
  if rcvr.isSome = true ∧ fn.ins.length = 0 then .error "expecting 1 receiver argument, got 0"
  else if 2 < fn.outs.length then .error "expecting 1 return value and optional error, got >2"
  else .ok { rfn := fn, rcvr }

/-- A method of a type, as a function of the receiver and its parameters; what is variadic is one
of the latter. -/
structure Method (F : Type) (t : GoType) where
  name : String
  func : Func F
  receiver : ∃ ins, func.ins = t :: ins ∧ (func.variadic = true → ins ≠ [])

/-- `exportStruct` -/
def exportStruct (t : GoType) (rcvr : GoValue F) :
    List (Method F t) → Except String (List (String × Handler F))
  | [] => .ok []
  | m :: methods =>
    match exportFunc m.func (some (t, rcvr)) with
    | .error e => .error ("unable to export method " ++ m.name ++ ": " ++ e)
    | .ok h => (exportStruct t rcvr methods).map fun handlers => (m.name, h) :: handlers

/-- What can be exported: a function, or a value of another type with its methods. -/
inductive Exportable (F : Type) where
  | func (fn : Func F)
  | value (t : GoType) (v : GoValue F) (methods : List (Method F t))

/-- `Export` -/
def Export : Exportable F → Except String (List (String × Handler F))
  | .func fn => (exportFunc fn none).map fun h => [("", h)]
  | .value t v methods => exportStruct t v methods

/-- What a handler does: calls of the function, and of `Responder.Return`. -/
inductive Event (F : Type) where
  | called (args : List (GoValue F))
  | returned (v : GoValue F)

structure Outcome (F : Type) where
  events : List (Event F)
  panic : Option String

/-- One element of the arguments, for a parameter of type `t`. -/
def argParam (std : GoStd F N) (t : GoType) (arg : GoValue F) : Except String (RValue F) :=
  if t.kind = .basic .int then
    match arg with
    | .float64 x => .ok (.of (.basic .int) (.int (std.toInt x)))
    | _ => .error "interface conversion: interface is not float64"
  else .ok arg.valueOf

/-- The loop over the arguments, which stops at the last parameter. -/
def argParams (std : GoStd F N) : List GoType → List (GoValue F) → Except String (List (RValue F))
  | t :: ts, arg :: args =>
    (argParam std t arg).bind fun p => (argParams std ts args).map fun ps => p :: ps
  | _, _ => .ok []

/-- The loop over what the function returned. -/
def reply (retVal : Option (GoValue F)) : List (GoType × GoValue F) → Except String (GoValue F)
  | [] => .ok (retVal.getD .nil)
  | (t, v) :: retVals =>
    if IsError t then
      if t.Nillable then if v.isNil then reply retVal retVals else .ok v
      else .error "reflect: call of reflect.Value.IsNil"
    else reply (some v) retVals

namespace Handler

/-- The receiver, if there is one. -/
def baseParams (h : Handler F) : List (RValue F) := h.rcvr.toList.map fun r => .of r.1 r.2

/-- The types behind the receiver. -/
def declared (h : Handler F) : List GoType := h.rfn.ins.drop h.rcvr.toList.length

/-- `pt`, what the arguments are decoded to. -/
def pt (h : Handler F) : Option GoType :=
  let base := h.baseParams.length
  if base + 1 < h.rfn.ins.length then some sliceType
  else if h.rfn.ins.length = base + 1 then h.rfn.ins[base]?
  else none

/-- What becomes of the decoded arguments: `v` is what `pv` points to, `c` the `*Call`. -/
def appended (std : GoStd F N) (h : Handler F) (c : Nat) (pt : GoType) (v : GoValue F) :
    Except String (List (RValue F)) :=
  match pt.kind with
  | .slice =>
    if pt = sliceType then
      let args := v.elems
      let startIdx := h.baseParams.length
      let expected := if h.rcvr.isSome then h.rfn.ins.length - 1 else h.rfn.ins.length
      (argParams std (h.rfn.ins.drop startIdx) args).map fun params =>
        if args.length < expected then params ++ [.of callType (.addr c)] else params
    else .error "interface conversion: interface is not []interface\x7b\x7d"
  | .ptr => .ok [.of (.ptr pt.elem) (.ptr v)]
  | _ => .ok [.of pt v]

/-- The parameters for `Call`. When the frame cannot be decoded, another is read to be printed, and
then comes `panic(err)`. -/
def params (std : GoStd F N) (h : Handler F) (c : Nat) (frame : Json N) :
    Except String (List (RValue F)) :=
  match h.pt with
  | none => .ok h.baseParams
  | some pt =>
    match std.unmarshal (if pt.kind = .ptr then pt.elem else pt) frame with
    | none => .error "json: cannot unmarshal"
    | some v => (h.appended std c pt v).map fun params => h.baseParams ++ params

/-- `RespondRPC` -/
def RespondRPC (std : GoStd F N) (h : Handler F) (c : Nat) (frame : Json N) : Outcome F :=
  match (h.params std c frame).bind h.rfn.Call with
  | .error e => { events := [], panic := some e }
  | .ok args =>
    match reply none (h.rfn.outs.zip (h.rfn.apply args)) with
    | .error e => { events := [.called args], panic := some e }
    | .ok v => { events := [.called args, .returned v], panic := none }

/-! ## What is asked of a handler -/

def TakesCall (h : Handler F) : Prop := h.declared.getLast? = some callType

instance (h : Handler F) : Decidable h.TakesCall := inferInstanceAs (Decidable (_ = _))

/-- The parameters that a frame has values for: all but the receiver and a trailing `*Call`. -/
def carried (h : Handler F) : List GoType :=
  if h.TakesCall then h.declared.dropLast else h.declared

/-- The arguments the function is to get for the values of a frame. -/
def args (h : Handler F) (c : Nat) (vs : List (GoValue F)) : List (GoValue F) :=
  h.rcvr.toList.map Prod.snd ++ (vs ++ if h.TakesCall then [.addr c] else [])

end Handler

/-- The values that JSON values stand for, each of its type. -/
def Decoded (std : GoStd F N) : List GoType → List (Json N) → List (GoValue F) → Prop
  | [], [], [] => True
  | t :: ts, j :: js, v :: vs => std.unmarshal t j = some v ∧ Decoded std ts js vs
  | _, _, _ => False

/-- A frame is the JSON encoding of the values for a handler: of a single value as it is, of several
as an array. One in front of a `*Call` may be taken either way. -/
def Handler.Encodes (std : GoStd F N) (h : Handler F) (frame : Json N) (vs : List (GoValue F)) : Prop :=
  match h.carried with
  | [] => vs = [] ∧ (frame = .null ∨ frame = .array [])
  | [t] => (∃ v, vs = [v] ∧ std.unmarshal t frame = some v) ∨
      h.TakesCall ∧ ∃ js, frame = .array js ∧ Decoded std [t] js vs
  | ts => ∃ js, frame = .array js ∧ Decoded std ts js vs

/-- The error is not nil. -/
def IsFailure (x : GoType × GoValue F) : Prop := IsError x.1 ∧ x.2.isNil = false

instance (x : GoType × GoValue F) : Decidable (IsFailure x) := inferInstanceAs (Decidable (_ ∧ _))

/-- The error if it is not nil, else the value, and `other` where there is none. -/
def AnswerOr (other : GoValue F) (retVals : List (GoType × GoValue F)) (r : GoValue F) : Prop :=
  match retVals.find? fun x => IsFailure x with
  | some e => r = e.2
  | none => (∃ x ∈ retVals, ¬IsError x.1 ∧ r = x.2) ∨ (∀ x ∈ retVals, IsError x.1) ∧ r = other

/-- What is to be returned. -/
def Answer (retVals : List (GoType × GoValue F)) (r : GoValue F) : Prop := AnswerOr .nil retVals r

/-- The handler calls the function with the values and returns once what is to be returned. -/
def Answered (std : GoStd F N) (h : Handler F) (c : Nat) (frame : Json N) (vs : List (GoValue F)) :
    Prop :=
  ∃ r, h.RespondRPC std c frame
      = { events := [.called (h.args c vs), .returned r], panic := none } ∧
    Answer (h.rfn.outs.zip (h.rfn.apply (h.args c vs))) r

/-! ## When it is met -/

/-- `IsNil` is asked of no result that cannot be nil. -/
def Reportable : List (GoType × GoValue F) → Prop
  | [] => True
  | (t, v) :: retVals =>
    if IsError t then t.Nillable ∧ (v.isNil = true → Reportable retVals) else Reportable retVals

instance decReportable : ∀ retVals : List (GoType × GoValue F), Decidable (Reportable retVals)
  | [] => isTrue trivial
  | (t, v) :: retVals =>
    have := decReportable retVals
    inferInstanceAs (Decidable (if IsError t then t.Nillable ∧ (v.isNil = true → Reportable retVals)
      else Reportable retVals))

/-- A value that its JSON gives as an `interface{}`, and that may be given to a parameter. -/
def Held (std : GoStd F N) (t : GoType) (j : Json N) (v : GoValue F) : Prop :=
  std.anyOf j = some v ∧ ∃ d, v.dynamicType = some d ∧ d.AssignableTo t

/-- A value for one of several parameters. An int goes through a float64. -/
def Fits (std : GoStd F N) (t : GoType) (j : Json N) (v : GoValue F) : Prop :=
  if t.kind = .basic .int then
    t = .basic .int ∧ ∃ n x, j = .number n ∧ std.float64 n = some x ∧ v = .int (std.toInt x)
  else Held std t j v

/-- The values for several parameters. What a variadic parameter gets is one element of its slice. -/
def FitAll (std : GoStd F N) (variadic : Bool) :
    List GoType → List (Json N) → List (GoValue F) → Prop
  | [], [], [] => True
  | t :: ts, j :: js, v :: vs =>
    (if variadic = true ∧ ts = [] then ∃ x, v = .slice [x] ∧ Held std t.elem j x
      else Fits std t j v) ∧ FitAll std variadic ts js vs
  | _, _, _ => False

/-- The values that the handler passes on as they are. -/
def Handler.Accepts (std : GoStd F N) (h : Handler F) (frame : Json N) (vs : List (GoValue F)) : Prop :=
  match h.declared with
  | [] => True
  | [t] =>
    if h.rfn.variadic then t = sliceType ∧ ∃ x, vs = [.slice [x]] ∧ x.isNil = false
    else t ≠ callType ∧ t.kind ≠ .slice ∧ (t.kind = .ptr → vs ≠ [.nil])
  | _ => ∃ js, frame = .array js ∧ FitAll std h.rfn.variadic h.carried js vs

/-! ## What is returned -/

theorem AnswerOr.skip {other r : GoValue F} {x : GoType × GoValue F} {retVals : List (GoType × GoValue F)}
    (he : IsError x.1) (hx : ¬IsFailure x) (h : AnswerOr other retVals r) :
    AnswerOr other (x :: retVals) r := by
  rw [AnswerOr] at h ⊢
  rw [List.find?_cons_of_neg (by simpa using hx)]
  split at h
  · exact h
  · rcases h with ⟨y, hy, hrest⟩ | ⟨hall, hr⟩
    · exact .inl ⟨y, List.mem_cons_of_mem _ hy, hrest⟩
    · refine .inr ⟨fun y hy => ?_, hr⟩
      rcases List.mem_cons.mp hy with rfl | hy
      · exact he
      · exact hall y hy

theorem AnswerOr.value {other r : GoValue F} {x : GoType × GoValue F} {retVals : List (GoType × GoValue F)}
    (he : ¬IsError x.1) (h : AnswerOr x.2 retVals r) : AnswerOr other (x :: retVals) r := by
  have hx : ¬IsFailure x := fun hf => he hf.1
  rw [AnswerOr] at h ⊢
  rw [List.find?_cons_of_neg (by simpa using hx)]
  split at h
  · exact h
  · rcases h with ⟨y, hy, hrest⟩ | ⟨-, hr⟩
    · exact .inl ⟨y, List.mem_cons_of_mem _ hy, hrest⟩
    · exact .inl ⟨x, List.mem_cons_self, he, hr⟩

/-- The loop over the results finds what is to be returned, or panics. -/
theorem reply_spec (retVals : List (GoType × GoValue F)) :
    ∀ retVal : Option (GoValue F),
      (Reportable retVals → ∃ r, reply retVal retVals = .ok r ∧ AnswerOr (retVal.getD .nil) retVals r) ∧
        (¬Reportable retVals → ∃ e, reply retVal retVals = .error e) := by
  induction retVals with
  | nil => exact fun retVal =>
      ⟨fun _ => ⟨_, rfl, .inr ⟨fun x hx => (by cases hx), rfl⟩⟩, fun h => absurd trivial h⟩
  | cons x retVals ih =>
    intro retVal
    obtain ⟨t, v⟩ := x
    rw [Reportable, reply]
    by_cases he : IsError t
    · rw [if_pos he, if_pos he]
      by_cases hn : t.Nillable
      · rw [if_pos hn]
        cases hv : v.isNil with
        | true =>
          obtain ⟨hok, herr⟩ := ih retVal
          refine ⟨fun h => ?_, fun h => herr fun hr => h ⟨hn, fun _ => hr⟩⟩
          obtain ⟨r, hr, hanswer⟩ := hok (h.2 rfl)
          exact ⟨r, hr, hanswer.skip he fun hf => absurd hf.2 (by rw [hv]; simp)⟩
        | false =>
          have hfailure : IsFailure (t, v) := ⟨he, hv⟩
          refine ⟨fun _ => ⟨v, rfl, ?_⟩, fun h => absurd ⟨hn, fun h' => (by cases h')⟩ h⟩
          rw [AnswerOr, List.find?_cons_of_pos (by simpa using hfailure)]
      · rw [if_neg hn]
        exact ⟨fun h => absurd h.1 hn, fun _ => ⟨_, rfl⟩⟩
    · rw [if_neg he, if_neg he]
      obtain ⟨hok, herr⟩ := ih (some v)
      refine ⟨fun h => ?_, herr⟩
      obtain ⟨r, hr, hanswer⟩ := hok h
      exact ⟨r, hr, AnswerOr.value he hanswer⟩

/-! ## What is passed on -/

theorem int_assignable {t : GoType} (hk : t.kind = .basic .int)
    (h : (GoType.basic .int).AssignableTo t) : t = .basic .int := by
  have hname : t.hasName = true := by cases t <;> first | rfl | cases hk
  rcases h with h | ⟨h, -⟩ | ⟨h, -⟩
  · exact h.symm
  · exact absurd ⟨rfl, hname⟩ h
  · rw [hk] at h
    cases h

theorem anyOf_float64 {std : GoStd F N} {j : Json N} {x : F} :
    std.anyOf j = some (.float64 x) ↔ ∃ n, j = .number n ∧ std.float64 n = some x := by
  cases j with
  | number n => simp [GoStd.anyOf]
  | null => simp [GoStd.anyOf]
  | bool b => simp [GoStd.anyOf]
  | string s => simp [GoStd.anyOf]
  | array js => simp [GoStd.anyOf]
  | object ms => simp [GoStd.anyOf]

/-- One of several arguments is passed on as it is exactly if it fits. -/
theorem argParam_fits {std : GoStd F N} {t : GoType} {j : Json N} {arg v : GoValue F}
    (hj : std.anyOf j = some arg) :
    (∃ p, argParam std t arg = .ok p ∧ assignOne t p = .ok v) ↔ Fits std t j v := by
  unfold argParam
  rw [Fits]
  split
  · next hk =>
    constructor
    · rintro ⟨p, hp, hv⟩
      split at hp
      · next x =>
        cases hp
        obtain ⟨t', hof, ht⟩ := assignOne_ok.mp hv
        cases hof
        obtain ⟨n, hn, hx⟩ := anyOf_float64.mp hj
        exact ⟨int_assignable hk ht, n, x, hn, hx, rfl⟩
      · cases hp
    · rintro ⟨rfl, n, x, rfl, hx, rfl⟩
      have harg := anyOf_float64.mpr ⟨n, rfl, hx⟩
      cases hj.symm.trans harg
      exact ⟨_, rfl, assignOne_ok.mpr ⟨_, rfl, GoType.assignable_refl _⟩⟩
  · constructor
    · rintro ⟨p, hp, hv⟩
      cases hp
      obtain ⟨rfl, hd⟩ := assignOne_valueOf.mp hv
      exact ⟨hj, hd⟩
    · rintro ⟨hv, hd⟩
      cases hj.symm.trans hv
      exact ⟨_, rfl, assignOne_valueOf.mpr ⟨rfl, hd⟩⟩

theorem argParams_cons {std : GoStd F N} {t : GoType} {ts : List GoType} {arg : GoValue F}
    {args : List (GoValue F)} {ps : List (RValue F)} :
    argParams std (t :: ts) (arg :: args) = .ok ps ↔
      ∃ p qs, argParam std t arg = .ok p ∧ argParams std ts args = .ok qs ∧ ps = p :: qs := by
  rw [argParams]
  cases argParam std t arg with
  | error e => simp [Except.bind]
  | ok p =>
    cases argParams std ts args with
    | error e => simp [Except.bind, Except.map]
    | ok qs => simp [Except.bind, Except.map, eq_comm]

theorem argParams_length {std : GoStd F N} {ts : List GoType} :
    ∀ {args : List (GoValue F)} {ps : List (RValue F)}, argParams std ts args = .ok ps →
      ps.length = min ts.length args.length := by
  induction ts with
  | nil =>
    intro args ps h
    cases args <;> (cases h; simp)
  | cons t ts ih =>
    intro args ps h
    cases args with
    | nil =>
      cases h
      simp
    | cons arg args =>
      obtain ⟨p, qs, -, hqs, rfl⟩ := argParams_cons.mp h
      rw [List.length_cons, ih hqs, List.length_cons, List.length_cons]
      omega

/-- The loop stops behind the last argument. -/
theorem argParams_append {std : GoStd F N} {ts : List GoType} (more : List GoType) :
    ∀ {args : List (GoValue F)}, args.length = ts.length →
      argParams std (ts ++ more) args = argParams std ts args := by
  induction ts with
  | nil =>
    intro args h
    cases List.length_eq_zero_iff.mp h
    cases more <;> rfl
  | cons t ts ih =>
    intro args h
    obtain ⟨arg, args, rfl⟩ := List.exists_cons_of_length_eq_add_one h
    rw [List.cons_append, argParams, argParams, ih (by simpa using h)]

/-- Several arguments for parameters none of which is variadic. -/
theorem argParams_fitAll {std : GoStd F N} {ts : List GoType} :
    ∀ {js : List (Json N)} {args vs : List (GoValue F)}, std.anyElems js = some args →
      js.length = ts.length →
      ((∃ ps, argParams std ts args = .ok ps ∧ assign ts ps = .ok vs) ↔ FitAll std false ts js vs) := by
  induction ts with
  | nil =>
    intro js args vs hj hlen
    cases List.length_eq_zero_iff.mp hlen
    cases hj
    cases vs <;> simp [argParams, assign, FitAll]
  | cons t ts ih =>
    intro js args vs hj hlen
    obtain ⟨j, js, rfl⟩ := List.exists_cons_of_length_eq_add_one hlen
    obtain ⟨arg, args, harg, hargs, rfl⟩ := (anyElems_cons std).mp hj
    have ih := fun ws => @ih js args ws hargs (by simpa using hlen)
    constructor
    · rintro ⟨ps, hps, hvs⟩
      obtain ⟨p, qs, hp, hqs, rfl⟩ := argParams_cons.mp hps
      obtain ⟨v, ws, hv, hws, rfl⟩ := assign_cons.mp hvs
      exact ⟨(argParam_fits harg).mp ⟨p, hp, hv⟩, (ih ws).mp ⟨qs, hqs, hws⟩⟩
    · cases vs with
      | nil => exact fun h => h.elim
      | cons v vs =>
        rintro ⟨hfits, hall⟩
        obtain ⟨p, hp, hv⟩ := (argParam_fits harg).mpr hfits
        obtain ⟨qs, hqs, hws⟩ := (ih vs).mpr hall
        exact ⟨p :: qs, argParams_cons.mpr ⟨p, qs, hp, hqs, rfl⟩,
          assign_cons.mpr ⟨v, vs, hv, hws, rfl⟩⟩

/-- One argument for a variadic parameter is the only element of its slice. -/
theorem variadic_fits {std : GoStd F N} {e : GoType} {j : Json N} {arg v : GoValue F}
    (hj : std.anyOf j = some arg) :
    (∃ xs, assign [e] [arg.valueOf] = .ok xs ∧ v = .slice xs) ↔ ∃ x, v = .slice [x] ∧ Held std e j x := by
  constructor
  · rintro ⟨xs, hxs, rfl⟩
    obtain ⟨x, ws, hx, hws, rfl⟩ := assign_cons.mp hxs
    cases hws
    obtain ⟨rfl, hd⟩ := assignOne_valueOf.mp hx
    exact ⟨_, rfl, hj, hd⟩
  · rintro ⟨x, rfl, hx, hd⟩
    cases hj.symm.trans hx
    exact ⟨[arg], assign_cons.mpr ⟨arg, [], assignOne_valueOf.mpr ⟨rfl, hd⟩, rfl, rfl⟩, rfl⟩

/-- Several arguments, the last one for a variadic parameter. -/
theorem argParams_fitAll_variadic {std : GoStd F N} {e : GoType} {ts : List GoType} :
    ∀ {js : List (Json N)} {args vs : List (GoValue F)}, std.anyElems js = some args →
      js.length = ts.length + 1 →
      ((∃ ps as xs, argParams std (ts ++ [.slice e]) args = .ok ps ∧
          assign ts (ps.take ts.length) = .ok as ∧
          assign (List.replicate (ps.drop ts.length).length e) (ps.drop ts.length) = .ok xs ∧
          vs = as ++ [.slice xs]) ↔ FitAll std true (ts ++ [.slice e]) js vs) := by
  induction ts with
  | nil =>
    intro js args vs hj hlen
    obtain ⟨j, js, rfl⟩ := List.exists_cons_of_length_eq_add_one hlen
    cases List.length_eq_zero_iff.mp (by simpa using hlen : js.length = 0)
    obtain ⟨arg, args, harg, hargs, rfl⟩ := (anyElems_cons std).mp hj
    cases hargs
    have hparams : argParams std [.slice e] [arg] = .ok [arg.valueOf] := rfl
    constructor
    · rintro ⟨ps, as, xs, hps, has, hxs, rfl⟩
      cases hparams.symm.trans hps
      cases has
      rw [List.nil_append, List.nil_append, FitAll, if_pos ⟨rfl, rfl⟩]
      exact ⟨(variadic_fits harg).mp ⟨xs, hxs, rfl⟩, trivial⟩
    · cases vs with
      | nil => exact fun h => h.elim
      | cons v vs =>
        rw [List.nil_append, FitAll, if_pos ⟨rfl, rfl⟩]
        rintro ⟨hheld, hrest⟩
        cases vs with
        | cons w ws => exact hrest.elim
        | nil =>
          obtain ⟨xs, hxs, rfl⟩ := (variadic_fits harg).mpr hheld
          exact ⟨_, [], xs, hparams, rfl, hxs, rfl⟩
  | cons t ts ih =>
    intro js args vs hj hlen
    obtain ⟨j, js, rfl⟩ := List.exists_cons_of_length_eq_add_one hlen
    obtain ⟨arg, args, harg, hargs, rfl⟩ := (anyElems_cons std).mp hj
    have ih := fun ws => @ih js args ws hargs (by simpa using hlen)
    have hmore : ¬(true = true ∧ ts ++ [GoType.slice e] = []) := by simp
    constructor
    · rintro ⟨ps, as, xs, hps, has, hxs, rfl⟩
      obtain ⟨p, qs, hp, hqs, rfl⟩ := argParams_cons.mp hps
      obtain ⟨v, ws, hv, hws, rfl⟩ := assign_cons.mp has
      rw [List.cons_append, List.cons_append, FitAll, if_neg hmore]
      exact ⟨(argParam_fits harg).mp ⟨p, hp, hv⟩, (ih _).mp ⟨qs, ws, xs, hqs, hws, hxs, rfl⟩⟩
    · cases vs with
      | nil => exact fun h => h.elim
      | cons v vs =>
        rw [List.cons_append, FitAll, if_neg hmore]
        rintro ⟨hfits, hall⟩
        obtain ⟨p, hp, hv⟩ := (argParam_fits harg).mpr hfits
        obtain ⟨qs, as, xs, hqs, has, hxs, rfl⟩ := (ih vs).mpr hall
        exact ⟨p :: qs, v :: as, xs, argParams_cons.mpr ⟨p, qs, hp, hqs, rfl⟩,
          assign_cons.mpr ⟨v, as, hv, has, rfl⟩, hxs, rfl⟩

/-- The values of the frame that fit are there for an `interface{}` too. -/
theorem FitAll.anyElems {std : GoStd F N} {variadic : Bool} {ts : List GoType} :
    ∀ {js : List (Json N)} {vs : List (GoValue F)}, FitAll std variadic ts js vs →
      js.length = ts.length ∧ ∃ args, std.anyElems js = some args := by
  induction ts with
  | nil =>
    intro js vs h
    cases js with
    | nil => exact ⟨rfl, [], rfl⟩
    | cons j js => cases vs <;> exact h.elim
  | cons t ts ih =>
    intro js vs h
    cases js with
    | nil => cases vs <;> exact h.elim
    | cons j js =>
      cases vs with
      | nil => exact h.elim
      | cons v vs =>
        obtain ⟨hfits, hall⟩ := h
        obtain ⟨hlen, args, hargs⟩ := ih hall
        have harg : ∃ arg, std.anyOf j = some arg := by
          split at hfits
          · obtain ⟨x, -, hx, -⟩ := hfits
            exact ⟨x, hx⟩
          · rw [Fits] at hfits
            split at hfits
            · obtain ⟨-, n, x, rfl, hx, -⟩ := hfits
              exact ⟨.float64 x, anyOf_float64.mpr ⟨n, rfl, hx⟩⟩
            · exact ⟨v, hfits.1⟩
        obtain ⟨arg, harg⟩ := harg
        exact ⟨by rw [List.length_cons, List.length_cons, hlen], arg :: args,
          (anyElems_cons std).mpr ⟨arg, args, harg, hargs, rfl⟩⟩

theorem Decoded.length {std : GoStd F N} {ts : List GoType} :
    ∀ {js : List (Json N)} {vs : List (GoValue F)}, Decoded std ts js vs → js.length = ts.length := by
  induction ts with
  | nil =>
    intro js vs h
    cases js with
    | nil => rfl
    | cons j js => cases vs <;> exact h.elim
  | cons t ts ih =>
    intro js vs h
    cases js with
    | nil => cases vs <;> exact h.elim
    | cons j js =>
      cases vs with
      | nil => exact h.elim
      | cons v vs => rw [List.length_cons, List.length_cons, ih h.2]

/-- An argument too many takes the place of the `*Call`; it is not the one of the request. -/
theorem argParams_last {std : GoStd F N} {ts : List GoType} :
    ∀ {args : List (GoValue F)} {ps : List (RValue F)} {vs : List (GoValue F)},
      ts.length < args.length → argParams std (ts ++ [callType]) args = .ok ps →
      assign (ts ++ [callType]) ps = .ok vs → ∃ as w d, vs = as ++ [w] ∧ w.dynamicType = some d := by
  induction ts with
  | nil =>
    intro args ps vs hlen hps hvs
    cases args with
    | nil => cases hlen
    | cons arg args =>
      obtain ⟨p, qs, hp, -, rfl⟩ := argParams_cons.mp hps
      obtain ⟨w, ws, hw, hws, rfl⟩ := assign_cons.mp hvs
      cases hp
      obtain ⟨rfl, d, hd, -⟩ := assignOne_valueOf.mp hw
      cases hws
      exact ⟨[], arg, d, rfl, hd⟩
  | cons t ts ih =>
    intro args ps vs hlen hps hvs
    cases args with
    | nil => cases hlen
    | cons arg args =>
      obtain ⟨p, qs, -, hqs, rfl⟩ := argParams_cons.mp hps
      obtain ⟨v, ws, -, hws, rfl⟩ := assign_cons.mp hvs
      obtain ⟨as, w, d, rfl, hd⟩ := ih (by simpa using hlen) hqs hws
      exact ⟨v :: as, w, d, rfl, hd⟩

namespace Handler

/-- What `exportFunc` makes: the function takes the receiver first, and what is variadic is behind
it. -/
structure WellFormed (h : Handler F) : Prop where
  ins : h.rfn.ins = h.rcvr.toList.map Prod.fst ++ h.declared
  rest : h.rfn.variadic = true → ∃ ts e, h.declared = ts ++ [.slice e]

section

variable {std : GoStd F N} {h : Handler F}

theorem baseParams_length (h : Handler F) : h.baseParams.length = h.rcvr.toList.length :=
  List.length_map _

theorem assign_base (h : Handler F) :
    assign (h.rcvr.toList.map Prod.fst) h.baseParams = .ok (h.rcvr.toList.map Prod.snd) := by
  rw [baseParams]
  cases h.rcvr with
  | none => rfl
  | some r =>
    exact assign_cons.mpr ⟨r.2, [], assignOne_ok.mpr ⟨r.1, rfl, GoType.assignable_refl _⟩, rfl, rfl⟩

theorem WellFormed.length (hw : h.WellFormed) :
    h.rfn.ins.length = h.baseParams.length + h.declared.length := by
  rw [hw.ins, List.length_append, List.length_map, baseParams_length]

/-- What the function gets behind the receiver. -/
theorem WellFormed.Call_fixed (hw : h.WellFormed) (hv : h.rfn.variadic = false)
    {ps : List (RValue F)} {rest : List (GoValue F)} :
    h.rfn.Call (h.baseParams ++ ps) = .ok (h.rcvr.toList.map Prod.snd ++ rest) ↔
      ps.length = h.declared.length ∧ assign h.declared ps = .ok rest := by
  rw [Func.Call_fixed hv, hw.length, List.length_append, Nat.add_left_cancel_iff, hw.ins,
    assign_append (by rw [baseParams_length, List.length_map])]
  refine and_congr_right fun _ => ⟨?_, fun hrest => ⟨_, rest, h.assign_base, hrest, rfl⟩⟩
  rintro ⟨as, bs, has, hbs, heq⟩
  cases h.assign_base.symm.trans has
  rw [List.append_cancel_left heq]
  exact hbs

theorem WellFormed.Call_variadic (hw : h.WellFormed) (hv : h.rfn.variadic = true) {ts : List GoType}
    {e : GoType} (hdeclared : h.declared = ts ++ [.slice e]) {ps : List (RValue F)}
    {rest : List (GoValue F)} :
    h.rfn.Call (h.baseParams ++ ps) = .ok (h.rcvr.toList.map Prod.snd ++ rest) ↔
      ts.length ≤ ps.length ∧ ∃ as xs, assign ts (ps.take ts.length) = .ok as ∧
        assign (List.replicate (ps.drop ts.length).length e) (ps.drop ts.length) = .ok xs ∧
        rest = as ++ [.slice xs] := by
  have hins : h.rfn.ins = (h.rcvr.toList.map Prod.fst ++ ts) ++ [.slice e] := by
    rw [hw.ins, hdeclared, List.append_assoc]
  have hlen : (h.rcvr.toList.map Prod.fst ++ ts).length = h.baseParams.length + ts.length := by
    rw [List.length_append, List.length_map, baseParams_length]
  rw [Func.Call_variadic hv hins, hlen, List.length_append, Nat.add_le_add_iff_left,
    List.take_length_add_append, List.drop_length_add_append]
  refine and_congr_right fun _ => ⟨?_, ?_⟩
  · rintro ⟨as, xs, has, hxs, heq⟩
    obtain ⟨as', bs, has', hbs, rfl⟩ :=
      (assign_append (by rw [baseParams_length, List.length_map])).mp has
    cases h.assign_base.symm.trans has'
    rw [List.append_assoc] at heq
    exact ⟨bs, xs, hbs, hxs, List.append_cancel_left heq⟩
  · rintro ⟨as, xs, has, hxs, rfl⟩
    exact ⟨h.rcvr.toList.map Prod.snd ++ as, xs,
      (assign_append (by rw [baseParams_length, List.length_map])).mpr ⟨_, as, h.assign_base, has, rfl⟩,
      hxs, by rw [List.append_assoc]⟩

theorem WellFormed.pt_none (hw : h.WellFormed) (hd : h.declared = []) : h.pt = none := by
  have hlen := hw.length
  rw [hd, List.length_nil] at hlen
  rw [pt]
  rw [if_neg (by omega), if_neg (by omega)]

theorem WellFormed.pt_one (hw : h.WellFormed) {t : GoType} (hd : h.declared = [t]) : h.pt = some t := by
  have hlen := hw.length
  rw [hd, List.length_singleton] at hlen
  rw [pt]
  rw [if_neg (by omega), if_pos hlen, hw.ins, hd, baseParams_length,
    List.getElem?_append_right (by rw [List.length_map]), List.length_map, Nat.sub_self]
  rfl

theorem WellFormed.pt_several (hw : h.WellFormed) {t t' : GoType} {ts : List GoType}
    (hd : h.declared = t :: t' :: ts) : h.pt = some sliceType := by
  have hlen := hw.length
  rw [hd, List.length_cons, List.length_cons] at hlen
  rw [pt]
  rw [if_pos (by omega)]

/-- How many arguments are expected, and for which parameters. -/
theorem WellFormed.expected (hw : h.WellFormed) :
    (if h.rcvr.isSome then h.rfn.ins.length - 1 else h.rfn.ins.length) = h.declared.length ∧
      h.rfn.ins.drop h.baseParams.length = h.declared := by
  constructor
  · rw [hw.length, baseParams_length]
    cases h.rcvr with
    | none => exact Nat.zero_add _
    | some r => exact Nat.add_sub_cancel_left _ _
  · rw [baseParams_length]
    rfl

theorem WellFormed.appended_slice (hw : h.WellFormed) (c : Nat) (v : GoValue F) {ps : List (RValue F)} :
    h.appended std c sliceType v = .ok ps ↔ ∃ qs, argParams std h.declared v.elems = .ok qs ∧
      ps = if v.elems.length < h.declared.length then qs ++ [.of callType (.addr c)] else qs := by
  have hkind : sliceType.kind = .slice := rfl
  rw [appended, hkind]
  dsimp only
  rw [if_pos rfl, hw.expected.1, hw.expected.2]
  cases argParams std h.declared v.elems with
  | error e => simp [Except.map]
  | ok qs => simp [Except.map, eq_comm]

theorem appended_other {t : GoType} (hk : t.kind = .slice) (ht : t ≠ sliceType) (c : Nat) (v : GoValue F)
    (ps : List (RValue F)) : h.appended std c t v ≠ .ok ps := by
  rw [appended, hk]
  dsimp only
  rw [if_neg ht]
  exact fun h => by cases h

theorem appended_ptr {t : GoType} (hk : t.kind = .ptr) (c : Nat) (v : GoValue F) :
    h.appended std c t v = .ok [.of (.ptr t.elem) (.ptr v)] := by
  rw [appended, hk]

theorem appended_plain {t : GoType} (hs : t.kind ≠ .slice) (hp : t.kind ≠ .ptr) (c : Nat)
    (v : GoValue F) : h.appended std c t v = .ok [.of t v] := by
  rw [appended]
  split
  · next hk => exact absurd hk hs
  · next hk => exact absurd hk hp
  · rfl

/-- The function is called when the frame is decoded, its values are passed on and `Call` accepts
them. -/
theorem called_some {t : GoType} (hpt : h.pt = some t) {c : Nat} {frame : Json N}
    {args : List (GoValue F)} :
    (h.params std c frame).bind h.rfn.Call = .ok args ↔
      ∃ v ps, std.unmarshal (if t.kind = .ptr then t.elem else t) frame = some v ∧
        h.appended std c t v = .ok ps ∧ h.rfn.Call (h.baseParams ++ ps) = .ok args := by
  rw [params, hpt]
  dsimp only
  cases std.unmarshal (if t.kind = .ptr then t.elem else t) frame with
  | none => simp [Except.bind]
  | some v =>
    simp only [Option.some.injEq, exists_and_left, exists_eq_left']
    cases h.appended std c t v with
    | error e => simp [Except.bind, Except.map]
    | ok ps => simp [Except.bind, Except.map]

/-- Several parameters are decoded as a `[]interface{}`. -/
theorem WellFormed.called_slice (hw : h.WellFormed) {t t' : GoType} {ts : List GoType}
    (hd : h.declared = t :: t' :: ts) {c : Nat} {frame : Json N} {args : List (GoValue F)} :
    (h.params std c frame).bind h.rfn.Call = .ok args ↔
      ∃ v ps, std.anySlice frame = some v ∧ h.appended std c sliceType v = .ok ps ∧
        h.rfn.Call (h.baseParams ++ ps) = .ok args := by
  rw [called_some (hw.pt_several hd)]
  rfl

/-- Several parameters none of which is variadic. -/
theorem WellFormed.called_several (hw : h.WellFormed) (hv : h.rfn.variadic = false) {t t' : GoType}
    {ts : List GoType} (hd : h.declared = t :: t' :: ts) {c : Nat} {frame : Json N}
    {rest : List (GoValue F)} :
    (h.params std c frame).bind h.rfn.Call = .ok (h.rcvr.toList.map Prod.snd ++ rest) ↔
      ∃ js args qs, frame = .array js ∧ std.anyElems js = some args ∧
        argParams std h.declared args = .ok qs ∧
        ((args.length + 1 = h.declared.length ∧
            assign h.declared (qs ++ [.of callType (.addr c)]) = .ok rest) ∨
          h.declared.length ≤ args.length ∧ assign h.declared qs = .ok rest) := by
  have htwo : 2 ≤ h.declared.length := by rw [hd, List.length_cons, List.length_cons]; omega
  rw [hw.called_slice hd]
  constructor
  · rintro ⟨v, ps, hu, happ, hcall⟩
    obtain ⟨qs, hqs, hps⟩ := (hw.appended_slice c v).mp happ
    obtain ⟨hlen, hassign⟩ := (hw.Call_fixed hv).mp hcall
    have hqlen := argParams_length hqs
    cases frame with
    | null =>
      cases hu
      rw [GoValue.elems_nil, List.length_nil, Nat.min_zero] at hqlen
      rw [hps, GoValue.elems_nil, List.length_nil, if_pos (by omega), List.length_append, hqlen,
        List.length_singleton] at hlen
      omega
    | array js =>
      obtain ⟨args, hargs, rfl⟩ := Option.map_eq_some_iff.mp hu
      rw [GoValue.elems_slice] at hqs hqlen hps
      refine ⟨js, args, qs, rfl, hargs, hqs, ?_⟩
      split at hps
      · rw [hps, List.length_append, List.length_singleton] at hlen
        exact .inl ⟨by omega, hps ▸ hassign⟩
      · exact .inr ⟨by omega, hps ▸ hassign⟩
    | _ => cases hu
  · rintro ⟨js, args, qs, rfl, hargs, hqs, hrest⟩
    have hqlen := argParams_length hqs
    have hu : std.anySlice (.array js) = some (.slice args) :=
      Option.map_eq_some_iff.mpr ⟨args, hargs, rfl⟩
    have happ := (hw.appended_slice c (.slice args)).mpr ⟨qs, hqs, rfl⟩
    refine ⟨_, _, hu, happ, (hw.Call_fixed hv).mpr ?_⟩
    rw [GoValue.elems_slice]
    rcases hrest with ⟨hlen, hassign⟩ | ⟨hlen, hassign⟩
    · rw [if_pos (by omega), List.length_append, List.length_singleton]
      exact ⟨by omega, hassign⟩
    · rw [if_neg (by omega)]
      exact ⟨by omega, hassign⟩

/-- Several parameters, a value in the frame for each. -/
theorem WellFormed.several_plain (hw : h.WellFormed) (hv : h.rfn.variadic = false) {t t' : GoType}
    {ts : List GoType} (hd : h.declared = t :: t' :: ts) {c : Nat} {js : List (Json N)}
    (hlen : js.length = h.declared.length) {vs : List (GoValue F)} :
    (h.params std c (.array js)).bind h.rfn.Call = .ok (h.rcvr.toList.map Prod.snd ++ vs) ↔
      FitAll std false h.declared js vs := by
  rw [hw.called_several hv hd]
  constructor
  · rintro ⟨js', args, qs, hjs, hargs, hqs, hrest⟩
    cases hjs
    have halen := anyElems_length std hargs
    rcases hrest with ⟨hlt, -⟩ | ⟨-, hassign⟩
    · omega
    · exact (argParams_fitAll hargs hlen).mp ⟨qs, hqs, hassign⟩
  · intro hall
    obtain ⟨-, args, hargs⟩ := hall.anyElems
    obtain ⟨qs, hqs, hassign⟩ := (argParams_fitAll hargs hlen).mpr hall
    have halen := anyElems_length std hargs
    exact ⟨js, args, qs, rfl, hargs, hqs, .inr ⟨by omega, hassign⟩⟩

/-- Several parameters, the last one the `*Call`. -/
theorem WellFormed.several_call (hw : h.WellFormed) (hv : h.rfn.variadic = false) {t : GoType}
    {ts : List GoType} (hd : h.declared = t :: ts ++ [callType]) {c : Nat} {frame : Json N}
    {vs : List (GoValue F)} :
    (h.params std c frame).bind h.rfn.Call
        = .ok (h.rcvr.toList.map Prod.snd ++ (vs ++ [.addr c])) ↔
      ∃ js, frame = .array js ∧ FitAll std false (t :: ts) js vs := by
  obtain ⟨t', ts', htail⟩ : ∃ t' ts', ts ++ [callType] = t' :: ts' := by
    cases ts with
    | nil => exact ⟨callType, [], rfl⟩
    | cons t' ts => exact ⟨t', ts ++ [callType], rfl⟩
  have hdlen : h.declared.length = (t :: ts).length + 1 := by rw [hd, List.length_append]; rfl
  rw [hw.called_several hv (hd.trans (congrArg (List.cons t) htail))]
  constructor
  · rintro ⟨js, args, qs, hjs, hargs, hqs, ⟨hlen, hassign⟩ | ⟨hlen, hassign⟩⟩
    · have halen : args.length = (t :: ts).length := by omega
      rw [hd, argParams_append _ halen] at hqs
      rw [hd] at hassign
      have hqlen : qs.length = (t :: ts).length := by rw [argParams_length hqs, halen, Nat.min_self]
      obtain ⟨as, bs, has, hbs, heq⟩ := (assign_append hqlen).mp hassign
      cases hbs
      cases List.append_cancel_right heq
      have hjlen : js.length = (t :: ts).length := by rw [← anyElems_length std hargs, halen]
      exact ⟨js, hjs, (argParams_fitAll hargs hjlen).mp ⟨qs, hqs, has⟩⟩
    · rw [hd] at hqs hassign
      obtain ⟨as, w, d, heq, hw'⟩ := argParams_last (by omega) hqs hassign
      obtain ⟨-, hlast⟩ := List.append_inj' heq rfl
      cases hlast
      cases hw'
  · rintro ⟨js, rfl, hall⟩
    obtain ⟨hjlen, args, hargs⟩ := hall.anyElems
    obtain ⟨qs, hqs, hassign⟩ := (argParams_fitAll hargs hjlen).mpr hall
    have halen : args.length = (t :: ts).length := by rw [anyElems_length std hargs, hjlen]
    have hqlen : qs.length = (t :: ts).length := by rw [argParams_length hqs, halen, Nat.min_self]
    refine ⟨js, args, qs, rfl, hargs, ?_, .inl ⟨by omega, ?_⟩⟩
    · rw [hd, argParams_append _ halen]
      exact hqs
    · rw [hd]
      have hcall : assign (F := F) [callType] [.of callType (.addr c)] = .ok [.addr c] := rfl
      exact (assign_append hqlen).mpr ⟨vs, [.addr c], hassign, hcall, rfl⟩

/-- Several parameters, the last one variadic. -/
theorem WellFormed.several_variadic (hw : h.WellFormed) (hv : h.rfn.variadic = true) {t t' : GoType}
    {ts : List GoType} (hd : h.declared = t :: t' :: ts) {c : Nat} {js : List (Json N)}
    (hlen : js.length = h.declared.length) {vs : List (GoValue F)} :
    (h.params std c (.array js)).bind h.rfn.Call = .ok (h.rcvr.toList.map Prod.snd ++ vs) ↔
      FitAll std true h.declared js vs := by
  obtain ⟨fixed, e, hfixed⟩ := hw.rest hv
  have hjlen : js.length = fixed.length + 1 := by rw [hlen, hfixed, List.length_append]; rfl
  rw [hw.called_slice hd]
  constructor
  · rintro ⟨v, ps, hu, happ, hcall⟩
    obtain ⟨args, hargs, rfl⟩ := Option.map_eq_some_iff.mp hu
    obtain ⟨qs, hqs, hps⟩ := (hw.appended_slice c _).mp happ
    have halen := anyElems_length std hargs
    rw [GoValue.elems_slice] at hqs hps
    rw [if_neg (by omega)] at hps
    subst hps
    obtain ⟨-, as, xs, has, hxs, rfl⟩ := (hw.Call_variadic hv hfixed).mp hcall
    rw [hfixed] at hqs ⊢
    exact (argParams_fitAll_variadic hargs hjlen).mp ⟨ps, as, xs, hqs, has, hxs, rfl⟩
  · intro hall
    obtain ⟨-, args, hargs⟩ := hall.anyElems
    rw [hfixed] at hall
    obtain ⟨qs, as, xs, hqs, has, hxs, rfl⟩ := (argParams_fitAll_variadic hargs hjlen).mpr hall
    rw [← hfixed] at hqs
    have halen := anyElems_length std hargs
    have hqlen := argParams_length hqs
    have hu : std.anySlice (.array js) = some (.slice args) :=
      Option.map_eq_some_iff.mpr ⟨args, hargs, rfl⟩
    refine ⟨_, qs, hu, (hw.appended_slice c _).mpr ⟨qs, hqs, ?_⟩,
      (hw.Call_variadic hv hfixed).mpr ⟨by omega, as, xs, has, hxs, rfl⟩⟩
    rw [GoValue.elems_slice, if_neg (by omega)]

/-- A `[]interface{}` alone: its first element, or the `*Call` when it is empty. -/
theorem WellFormed.appended_first (hw : h.WellFormed) (hd : h.declared = [sliceType]) (c : Nat)
    {v : GoValue F} {ps : List (RValue F)} (happ : h.appended std c sliceType v = .ok ps) :
    (v.elems = [] ∧ ps = [.of callType (.addr c)]) ∨
      ∃ x more, v.elems = x :: more ∧ ps = [x.valueOf] := by
  obtain ⟨qs, hqs, hps⟩ := (hw.appended_slice c v).mp happ
  rw [hd] at hqs hps
  cases helems : v.elems with
  | nil =>
    rw [helems] at hqs hps
    cases hqs
    exact .inl ⟨rfl, hps⟩
  | cons x more =>
    rw [helems] at hqs hps
    cases hqs
    rw [if_neg (by simp)] at hps
    exact .inr ⟨x, more, rfl, hps⟩

/-- A value is not an element of itself. -/
theorem slice_ne_first {x : GoValue F} {more : List (GoValue F)} : x.elems ≠ x :: more := by
  intro helems
  cases x with
  | slice vs =>
    rw [GoValue.elems_slice] at helems
    have hmem : GoValue.slice vs ∈ GoValue.slice vs :: more := List.mem_cons_self
    rw [← helems] at hmem
    have hsize := List.sizeOf_lt_of_mem hmem
    rw [GoValue.slice.sizeOf_spec] at hsize
    omega
  | _ => cases helems

/-- One parameter that is given one value. -/
theorem WellFormed.Call_one (hw : h.WellFormed) (hv : h.rfn.variadic = false) {t : GoType}
    (hd : h.declared = [t]) {p : RValue F} {v : GoValue F} :
    h.rfn.Call (h.baseParams ++ [p]) = .ok (h.rcvr.toList.map Prod.snd ++ [v]) ↔ assignOne t p = .ok v := by
  rw [hw.Call_fixed hv, hd, assign_cons]
  constructor
  · rintro ⟨-, w, ws, hp, -, heq⟩
    cases heq
    exact hp
  · exact fun hp => ⟨rfl, v, [], hp, rfl, rfl⟩

/-- A pointer is one to what was decoded, even for null. -/
theorem WellFormed.one_ptr (hw : h.WellFormed) (hv : h.rfn.variadic = false) {t : GoType}
    (hd : h.declared = [t]) (hk : t.kind = .ptr) {c : Nat} {frame : Json N} {v : GoValue F}
    (hframe : std.unmarshal t frame = some v) :
    (h.params std c frame).bind h.rfn.Call = .ok (h.rcvr.toList.map Prod.snd ++ [v]) ↔ v ≠ .nil := by
  rw [called_some (hw.pt_one hd), if_pos hk]
  constructor
  · rintro ⟨w, ps, hu, happ, hcall⟩
    rw [appended_ptr hk] at happ
    cases happ
    obtain ⟨t', heq, -⟩ := assignOne_ok.mp ((hw.Call_one hv hd).mp hcall)
    cases heq
    exact fun hnil => by cases hnil
  · intro hnil
    have hne : frame ≠ .null := by
      rintro rfl
      rw [unmarshal_ptr_null std hk] at hframe
      cases hframe
      exact hnil rfl
    rw [unmarshal_ptr std hk hne] at hframe
    obtain ⟨w, hu, rfl⟩ := Option.map_eq_some_iff.mp hframe
    exact ⟨w, _, hu, appended_ptr hk c w,
      (hw.Call_one hv hd).mpr (assignOne_ok.mpr ⟨_, rfl, ptr_assignable hk⟩)⟩

/-- A slice is never given as it is. -/
theorem WellFormed.one_slice (hw : h.WellFormed) (hv : h.rfn.variadic = false) {t : GoType}
    (hd : h.declared = [t]) (hk : t.kind = .slice) {c : Nat} {frame : Json N} {v : GoValue F}
    (hframe : std.unmarshal t frame = some v) :
    (h.params std c frame).bind h.rfn.Call ≠ .ok (h.rcvr.toList.map Prod.snd ++ [v]) := by
  intro hcalled
  obtain ⟨w, ps, hu, happ, hcall⟩ := (called_some (hw.pt_one hd)).mp hcalled
  rw [if_neg (by rw [hk]; exact Kind.noConfusion)] at hu
  cases hframe.symm.trans hu
  by_cases ht : t = sliceType
  · subst ht
    rcases hw.appended_first hd c happ with ⟨-, rfl⟩ | ⟨x, more, helems, rfl⟩
    · -- the `*Call` goes where the slice should
      obtain ⟨t', heq, ht'⟩ := assignOne_ok.mp ((hw.Call_one hv hd).mp hcall)
      cases heq
      exact absurd ht' (by decide)
    · obtain ⟨rfl, -⟩ := assignOne_valueOf.mp ((hw.Call_one hv hd).mp hcall)
      exact slice_ne_first helems
  · exact appended_other hk ht c v ps happ

/-- One parameter, which is not the `*Call`. -/
theorem WellFormed.one_fixed (hw : h.WellFormed) (hv : h.rfn.variadic = false) {t : GoType}
    (hd : h.declared = [t]) {c : Nat} {frame : Json N} {v : GoValue F}
    (hframe : std.unmarshal t frame = some v) :
    (h.params std c frame).bind h.rfn.Call = .ok (h.rcvr.toList.map Prod.snd ++ [v]) ↔
      t.kind ≠ .slice ∧ (t.kind = .ptr → v ≠ .nil) := by
  by_cases hptr : t.kind = .ptr
  · have hslice : t.kind ≠ .slice := by
      rw [hptr]
      exact Kind.noConfusion
    rw [hw.one_ptr hv hd hptr hframe]
    exact ⟨fun hne => ⟨hslice, fun _ => hne⟩, fun h' => h'.2 hptr⟩
  · by_cases hslice : t.kind = .slice
    · exact iff_of_false (hw.one_slice hv hd hslice hframe) fun h' => h'.1 hslice
    · refine iff_of_true ?_ ⟨hslice, fun hk => absurd hk hptr⟩
      rw [called_some (hw.pt_one hd), if_neg hptr]
      exact ⟨v, _, hframe, appended_plain hslice hptr c v,
        (hw.Call_one hv hd).mpr (assignOne_ok.mpr ⟨t, rfl, GoType.assignable_refl t⟩)⟩

/-- The `*Call` alone is one that the frame was decoded into. -/
theorem WellFormed.one_call (hw : h.WellFormed) (hv : h.rfn.variadic = false)
    (hd : h.declared = [callType]) {c : Nat} {frame : Json N} :
    (h.params std c frame).bind h.rfn.Call ≠ .ok (h.rcvr.toList.map Prod.snd ++ [.addr c]) := by
  intro hcalled
  obtain ⟨w, ps, -, happ, hcall⟩ := (called_some (hw.pt_one hd)).mp hcalled
  rw [appended_ptr rfl] at happ
  cases happ
  obtain ⟨-, hassign⟩ := (hw.Call_fixed hv).mp hcall
  rw [hd] at hassign
  obtain ⟨v, ws, hp, -, heq⟩ := assign_cons.mp hassign
  cases heq
  obtain ⟨t', heq, -⟩ := assignOne_ok.mp hp
  cases heq

/-- A variadic parameter alone gets all that is passed on, in a new slice. -/
theorem WellFormed.Call_rest (hw : h.WellFormed) (hv : h.rfn.variadic = true) {e : GoType}
    (hd : h.declared = [.slice e]) {ps : List (RValue F)} {v : GoValue F} :
    h.rfn.Call (h.baseParams ++ ps) = .ok (h.rcvr.toList.map Prod.snd ++ [v]) ↔
      ∃ xs, assign (List.replicate ps.length e) ps = .ok xs ∧ v = .slice xs := by
  have hempty : h.declared = [] ++ [.slice e] := hd
  rw [hw.Call_variadic hv hempty]
  constructor
  · rintro ⟨-, as, xs, has, hxs, heq⟩
    cases has
    cases heq
    exact ⟨xs, hxs, rfl⟩
  · rintro ⟨xs, hxs, rfl⟩
    exact ⟨Nat.zero_le _, [], xs, rfl, hxs, rfl⟩

/-- An element for an `interface{}`, which must not be nil. -/
theorem assign_any {j : Json N} {x : GoValue F} (hx : std.anyOf j = some x) {xs : List (GoValue F)} :
    assign [anyType] [x.valueOf] = .ok xs ↔ xs = [x] ∧ x.isNil = false := by
  rw [anyOf_dynamicType std hx, assign_cons]
  constructor
  · rintro ⟨w, ws, hw, hws, rfl⟩
    obtain ⟨rfl, d, hdyn, -⟩ := assignOne_valueOf.mp hw
    cases hws
    exact ⟨rfl, d, hdyn⟩
  · rintro ⟨rfl, d, hdyn⟩
    exact ⟨x, [], assignOne_valueOf.mpr ⟨rfl, d, hdyn, any_assignable d⟩, rfl, rfl⟩

/-- Of a variadic parameter alone the first element is passed on, so there must be no other. -/
theorem WellFormed.one_variadic (hw : h.WellFormed) (hv : h.rfn.variadic = true) {t : GoType}
    (hd : h.declared = [t]) {c : Nat} {frame : Json N} {v : GoValue F}
    (hframe : std.unmarshal t frame = some v) :
    (h.params std c frame).bind h.rfn.Call = .ok (h.rcvr.toList.map Prod.snd ++ [v]) ↔
      t = sliceType ∧ ∃ x, v = .slice [x] ∧ x.isNil = false := by
  obtain ⟨e, rfl⟩ : ∃ e, t = .slice e := by
    obtain ⟨fixed, e, hfixed⟩ := hw.rest hv
    have happend : [] ++ [t] = fixed ++ [.slice e] := hd.symm.trans hfixed
    obtain ⟨-, hlast⟩ := List.append_inj' happend rfl
    cases hlast
    exact ⟨e, rfl⟩
  rw [called_some (hw.pt_one hd)]
  by_cases ht : GoType.slice e = sliceType
  · cases ht
    constructor
    · rintro ⟨w, ps, hu, happ, hcall⟩
      cases hframe.symm.trans hu
      obtain ⟨xs, hxs, rfl⟩ := (hw.Call_rest hv hd).mp hcall
      rcases hw.appended_first hd c happ with ⟨hempty, rfl⟩ | ⟨x, more, hfirst, rfl⟩
      · rw [GoValue.elems_slice] at hempty
        subst hempty
        cases hxs
      · rw [GoValue.elems_slice] at hfirst
        obtain ⟨j, hx⟩ := anySlice_first std (hfirst ▸ hframe)
        obtain ⟨rfl, hnil⟩ := (assign_any hx).mp hxs
        exact ⟨rfl, x, rfl, hnil⟩
    · rintro ⟨-, x, rfl, hnil⟩
      obtain ⟨j, hx⟩ := anySlice_first std hframe
      refine ⟨_, [x.valueOf], hframe, (hw.appended_slice c _).mpr ⟨_, by rw [hd]; rfl, ?_⟩,
        (hw.Call_rest hv hd).mpr ⟨[x], (assign_any hx).mpr ⟨rfl, hnil⟩, rfl⟩⟩
      rw [hd, GoValue.elems_slice, if_neg (by simp)]
  · refine iff_of_false ?_ fun h' => ht h'.1
    rintro ⟨w, ps, -, happ, -⟩
    exact appended_other rfl ht c w ps happ

theorem takesCall_iff : h.TakesCall ↔ ∃ ts, h.declared = ts ++ [callType] :=
  List.getLast?_eq_some_iff

theorem carried_call {ts : List GoType} (hd : h.declared = ts ++ [callType]) : h.carried = ts := by
  rw [carried, if_pos (takesCall_iff.mpr ⟨ts, hd⟩), hd, List.dropLast_concat]

theorem carried_plain (hcall : ¬h.TakesCall) : h.carried = h.declared := if_neg hcall

theorem args_call (hcall : h.TakesCall) (c : Nat) (vs : List (GoValue F)) :
    h.args c vs = h.rcvr.toList.map Prod.snd ++ (vs ++ [.addr c]) := by
  rw [args, if_pos hcall]

theorem args_plain (hcall : ¬h.TakesCall) (c : Nat) (vs : List (GoValue F)) :
    h.args c vs = h.rcvr.toList.map Prod.snd ++ vs := by
  rw [args, if_neg hcall, List.append_nil]

/-- A variadic parameter is a slice. -/
theorem WellFormed.not_variadic (hw : h.WellFormed) (hcall : h.TakesCall) : h.rfn.variadic = false := by
  cases hv : h.rfn.variadic with
  | false => rfl
  | true =>
    obtain ⟨ts, hts⟩ := takesCall_iff.mp hcall
    obtain ⟨ts', e, hts'⟩ := hw.rest hv
    obtain ⟨-, hlast⟩ := List.append_inj' (hts.symm.trans hts') rfl
    cases hlast

theorem WellFormed.none_called (hw : h.WellFormed) (hd : h.declared = []) (c : Nat) (frame : Json N) :
    (h.params std c frame).bind h.rfn.Call = .ok (h.rcvr.toList.map Prod.snd) := by
  have hv : h.rfn.variadic = false := by
    cases hv : h.rfn.variadic with
    | false => rfl
    | true =>
      obtain ⟨ts, e, hts⟩ := hw.rest hv
      rw [hd] at hts
      simp at hts
  have hcalled : h.rfn.Call (h.baseParams ++ []) = .ok (h.rcvr.toList.map Prod.snd ++ []) :=
    (hw.Call_fixed hv).mpr ⟨by rw [hd]; rfl, by rw [hd]; rfl⟩
  rw [List.append_nil, List.append_nil] at hcalled
  rw [params, hw.pt_none hd]
  exact hcalled

theorem WellFormed.one_called (hw : h.WellFormed) {t : GoType} (hd : h.declared = [t]) (c : Nat)
    {frame : Json N} {vs : List (GoValue F)} (hframe : h.Encodes std frame vs) :
    (h.params std c frame).bind h.rfn.Call = .ok (h.args c vs) ↔ h.Accepts std frame vs := by
  rw [Accepts, hd]
  dsimp only
  by_cases ht : t = callType
  · subst ht
    have hempty : h.declared = [] ++ [callType] := hd
    have hcall : h.TakesCall := takesCall_iff.mpr ⟨[], hempty⟩
    rw [Encodes, carried_call hempty] at hframe
    rw [hframe.1, args_call hcall, hw.not_variadic hcall]
    exact iff_of_false (hw.one_call (hw.not_variadic hcall) hd) fun h' => h'.1 rfl
  · have hcall : ¬h.TakesCall := by
      rw [TakesCall, hd]
      exact fun h' => ht (Option.some.inj h')
    rw [Encodes, carried_plain hcall, hd] at hframe
    obtain ⟨v, rfl, hv⟩ | ⟨h', -⟩ := hframe
    · rw [args_plain hcall]
      cases hvariadic : h.rfn.variadic with
      | false =>
        rw [hw.one_fixed hvariadic hd hv]
        simp [ht]
      | true =>
        rw [hw.one_variadic hvariadic hd hv]
        simp
    · exact absurd h' hcall

theorem WellFormed.several_called (hw : h.WellFormed) {t t' : GoType} {ts : List GoType}
    (hd : h.declared = t :: t' :: ts) (c : Nat) {frame : Json N} {vs : List (GoValue F)}
    (hframe : h.Encodes std frame vs) :
    (h.params std c frame).bind h.rfn.Call = .ok (h.args c vs) ↔ h.Accepts std frame vs := by
  rw [Accepts, hd]
  dsimp only
  by_cases hcall : h.TakesCall
  · obtain ⟨us, hus⟩ := takesCall_iff.mp hcall
    rw [args_call hcall, hw.not_variadic hcall, carried_call hus]
    cases us with
    | nil =>
      rw [hd] at hus
      cases hus
    | cons u us => exact hw.several_call (hw.not_variadic hcall) hus
  · rw [Encodes, carried_plain hcall, hd] at hframe
    obtain ⟨js, rfl, hdecoded⟩ := hframe
    have hlen : js.length = h.declared.length := by rw [hdecoded.length, hd]
    have harray : (∃ js', Json.array js = .array js' ∧ FitAll std h.rfn.variadic h.carried js' vs) ↔
        FitAll std h.rfn.variadic h.declared js vs := by
      rw [carried_plain hcall]
      constructor
      · rintro ⟨js', heq, hall⟩
        cases heq
        exact hall
      · exact fun hall => ⟨js, rfl, hall⟩
    rw [args_plain hcall, harray]
    cases hvariadic : h.rfn.variadic with
    | false => exact hw.several_plain hvariadic hd hlen
    | true => exact hw.several_variadic hvariadic hd hlen

/-- The function gets the values of the frame exactly when the handler accepts them. -/
theorem WellFormed.called_iff (hw : h.WellFormed) (c : Nat) {frame : Json N} {vs : List (GoValue F)}
    (hframe : h.Encodes std frame vs) :
    (h.params std c frame).bind h.rfn.Call = .ok (h.args c vs) ↔ h.Accepts std frame vs := by
  cases hd : h.declared with
  | nil =>
    have hcall : ¬h.TakesCall := by rw [TakesCall, hd]; simp
    rw [Encodes, carried_plain hcall, hd] at hframe
    rw [hframe.1, args_plain hcall, List.append_nil, Accepts, hd]
    exact iff_of_true (hw.none_called hd c frame) trivial
  | cons t ts =>
    cases ts with
    | nil => exact hw.one_called hd c hframe
    | cons t' ts => exact hw.several_called hd c hframe

end

theorem exportFunc_eq {fn : Func F} {rcvr : Option (GoType × GoValue F)} {h : Handler F}
    (hexport : exportFunc fn rcvr = .ok h) : h = { rfn := fn, rcvr } := by
  rw [exportFunc] at hexport
  split at hexport
  · cases hexport
  · split at hexport
    · cases hexport
    · cases hexport
      rfl

/-- A method takes its receiver first. -/
theorem method_wellFormed {t : GoType} (m : Method F t) (rcvr : GoValue F) :
    WellFormed ({ rfn := m.func, rcvr := some (t, rcvr) } : Handler F) := by
  obtain ⟨ins, hins, hvariadic⟩ := m.receiver
  have hdeclared : declared ({ rfn := m.func, rcvr := some (t, rcvr) } : Handler F) = ins := by
    rw [declared]
    dsimp only
    rw [hins]
    rfl
  refine ⟨by rw [hdeclared]; exact hins, fun hv => ?_⟩
  obtain ⟨fixed, e, hfixed⟩ := m.func.rest hv
  rw [hdeclared]
  cases fixed with
  | nil =>
    rw [hins] at hfixed
    cases hfixed
    exact absurd rfl (hvariadic hv)
  | cons t' fixed =>
    rw [hins] at hfixed
    exact ⟨fixed, e, (List.cons.inj hfixed).2⟩

theorem exportStruct_wellFormed {t : GoType} {rcvr : GoValue F} {name : String} {h : Handler F} :
    ∀ {methods : List (Method F t)} {handlers : List (String × Handler F)},
      exportStruct t rcvr methods = .ok handlers → (name, h) ∈ handlers → h.WellFormed := by
  intro methods
  induction methods with
  | nil =>
    intro handlers hexport hmem
    cases hexport
    cases hmem
  | cons m methods ih =>
    intro handlers hexport hmem
    rw [exportStruct] at hexport
    split at hexport
    · cases hexport
    · next h' hfunc =>
      cases hmore : exportStruct t rcvr methods with
      | error e =>
        rw [hmore] at hexport
        cases hexport
      | ok more =>
        rw [hmore] at hexport
        cases hexport
        rcases List.mem_cons.mp hmem with heq | hmem
        · cases heq
          rw [exportFunc_eq hfunc]
          exact method_wellFormed m rcvr
        · exact ih hmore hmem

theorem export_wellFormed {v : Exportable F} {handlers : List (String × Handler F)}
    (hexport : Export v = .ok handlers) {name : String} {h : Handler F} (hmem : (name, h) ∈ handlers) :
    h.WellFormed := by
  cases v with
  | func fn =>
    rw [Export] at hexport
    cases hfunc : exportFunc fn none with
    | error e =>
      rw [hfunc] at hexport
      cases hexport
    | ok h' =>
      rw [hfunc] at hexport
      cases hexport
      cases List.mem_singleton.mp hmem
      rw [exportFunc_eq hfunc]
      exact ⟨rfl, fn.rest⟩
  | value t v methods => exact exportStruct_wellFormed hexport hmem

end Handler

/-- An exported function is called with the values of a frame, and its result returned once, exactly
if the handler accepts them and can tell which result is an error. -/
theorem answered_iff (std : GoStd F N) {v : Exportable F} {handlers : List (String × Handler F)}
    (hexport : Export v = .ok handlers) {name : String} {h : Handler F} (hmem : (name, h) ∈ handlers)
    (c : Nat) {frame : Json N} {vs : List (GoValue F)} (hframe : h.Encodes std frame vs) :
    Answered std h c frame vs ↔
      h.Accepts std frame vs ∧ Reportable (h.rfn.outs.zip (h.rfn.apply (h.args c vs))) := by
  have hcalled := (Handler.export_wellFormed hexport hmem).called_iff c hframe
  obtain ⟨hok, herr⟩ := reply_spec (h.rfn.outs.zip (h.rfn.apply (h.args c vs))) none
  constructor
  · rintro ⟨r, hrespond, -⟩
    rw [Handler.RespondRPC] at hrespond
    split at hrespond
    · cases hrespond
    · next args hargs =>
      split at hrespond
      · cases hrespond
      · next r' hreply =>
        cases hrespond
        refine ⟨hcalled.mp hargs, ?_⟩
        by_contra hnot
        obtain ⟨e, he⟩ := herr hnot
        rw [hreply] at he
        cases he
  · rintro ⟨haccepts, hreportable⟩
    obtain ⟨r, hr, hanswer⟩ := hok hreportable
    refine ⟨r, ?_, hanswer⟩
    rw [Handler.RespondRPC, hcalled.mpr haccepts]
    dsimp only
    rw [hr]

/-- What the standard library does with small numbers, ASCII strings and slices of these. -/
def small : GoStd Int Int where
  float64 n := some n
  toInt x := x
  unquote s := s.map fun u => UInt8.ofNat u.toNat
  plain t j :=
    match t, j with
    | .basic .int, .number n => some (.int n)
    | .basic .string, .string s => some (.string (s.map fun u => UInt8.ofNat u.toNat))
    | .slice (.basic .string), .array [.string s] =>
      some (.slice [.string (s.map fun u => UInt8.ofNat u.toNat)])
    | _, _ => none

def appType : GoType := .named "App" ["Say"] [] (.struct 1 [])

/-- A method that returns its second argument. -/
def say : Method Int appType where
  name := "Say"
  func :=
    { ins := [appType, .basic .int, .basic .string, callType]
      variadic := false
      outs := [.basic .string, .interface ["Error"]]
      apply := fun args => [args.getD 2 .nil, .nil]
      results := fun _ => rfl
      rest := fun h => by cases h }
  receiver := ⟨[.basic .int, .basic .string, callType], rfl, fun h => by cases h⟩

theorem answered_say : Answered small { rfn := say.func, rcvr := some (appType, .other 0) } 7
    (.array [.number 3, .string [104, 105]]) [.int 3, .string [104, 105]] := by
  have hdecoded : Decoded small [.basic .int, .basic .string] [.number 3, .string [104, 105]]
      [.int 3, .string [104, 105]] := ⟨rfl, rfl, trivial⟩
  have hfits : FitAll small false [.basic .int, .basic .string] [.number 3, .string [104, 105]]
      [.int 3, .string [104, 105]] :=
    ⟨⟨rfl, 3, 3, rfl, rfl, rfl⟩, ⟨rfl, _, rfl, GoType.assignable_refl _⟩, trivial⟩
  exact (answered_iff small (v := .value appType (.other 0) [say]) rfl (List.mem_singleton.mpr rfl) 7
    ⟨_, rfl, hdecoded⟩).mpr ⟨⟨_, rfl, hfits⟩, by decide⟩

/-- A function of a `[]string`. -/
def join : Func Int where
  ins := [.slice (.basic .string)]
  variadic := false
  outs := []
  apply _ := []
  results _ := rfl
  rest h := by cases h

/-- The slice that was decoded is taken for a `[]interface{}`. -/
theorem slice_refused : Export (.func join) = .ok [("", { rfn := join, rcvr := none })] ∧
    Handler.Encodes small { rfn := join, rcvr := none } (.array [.string [97]]) [.slice [.string [97]]] ∧
    Handler.RespondRPC small { rfn := join, rcvr := none } 7 (.array [.string [97]])
      = { events := [], panic := some "interface conversion: interface is not []interface\x7b\x7d" } ∧
    ¬Answered small { rfn := join, rcvr := none } 7 (.array [.string [97]]) [.slice [.string [97]]] := by
  refine ⟨rfl, .inl ⟨_, rfl, rfl⟩, rfl, ?_⟩
  rintro ⟨r, hrespond, -⟩
  cases hrespond

end Qtalk.Rpc.Exporting
