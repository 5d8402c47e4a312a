import Mathlib.Data.List.Basic

/-!
# Slash-separated paths

`Clean` and `Join` of Go's package `path`, over texts of any letters of which one is the slash and
one the dot: `Clean` goes through the elements of a path with those kept so far on a stack. With
them `strings.TrimPrefix`. A name joined to a path is got back by trimming the path from what
`Join` makes of both exactly if the path is cleaned but for one slash at its end, or has no
elements (`trim_join_iff`).
-/

namespace Qtalk.Lib

namespace GoPath

variable {α : Type} [DecidableEq α] (slash dot : α)

def rooted (path : List α) : Bool := path.head? = some slash

/-- What an element does to those kept, of which the last is on top. -/
def push (rooted : Bool) (kept : List (List α)) (e : List α) : List (List α) :=
  if e = [] ∨ e = [dot] then kept
  else if e = [dot, dot] then
    match kept with
    | [] => if rooted then [] else [e]
    | top :: rest => if top = [dot, dot] then e :: kept else rest
  else e :: kept

/-- The elements of the cleaned path. -/
def elements (path : List α) : List (List α) :=
  ((path.splitOn slash).foldl (push dot (rooted slash path)) []).reverse

/-- `path.Clean`. -/
def clean (path : List α) : List α :=
  let out := (if rooted slash path then [slash] else []) ++ [slash].intercalate (elements slash dot path)
  if out = [] then [dot] else out

/-- `path.Join`. -/
def join (elems : List (List α)) : List α :=
  let elems := elems.filter (· ≠ [])
  if elems = [] then [] else clean slash dot ([slash].intercalate elems)

/-- `strings.TrimPrefix(s, pre)`. -/
def trimPrefix (s pre : List α) : List α := if pre.isPrefixOf s then s.drop pre.length else s

/-- Without one slash in front. -/
def unslash (s : List α) : List α := if s.head? = some slash then s.tail else s

/-- A name: an element that `Clean` keeps whatever it is in. -/
structure Plain (id : List α) : Prop where
  ne_nil : id ≠ []
  slash : slash ∉ id
  dot : dot ∉ id

/-- The path is cleaned but for one slash at its end, or has no elements. -/
def Sound (path : List α) : Prop :=
  clean slash dot path = [dot] ∨ clean slash dot path = [slash] ∨ path = clean slash dot path ∨
    path = clean slash dot path ++ [slash]

section
variable {slash dot : α} {path id : List α}

/-! ## The elements -/

omit [DecidableEq α] in
theorem intercalate_concat (x : α) (es : List (List α)) (e : List α) :
    [x].intercalate (es ++ [e]) = if es = [] then e else [x].intercalate es ++ x :: e := by
  induction es with
  | nil => exact List.intercalate_singleton
  | cons a es ih =>
    have hne : es ++ [e] ≠ [] := List.append_ne_nil_of_right_ne_nil es (List.cons_ne_nil e [])
    rw [if_neg (List.cons_ne_nil a es), List.cons_append, List.intercalate_cons_of_ne_nil hne, ih]
    by_cases hes : es = []
    · rw [if_pos hes, hes, List.intercalate_singleton, List.append_assoc]
      rfl
    · rw [if_neg hes, List.intercalate_cons_of_ne_nil hes, List.append_assoc (a ++ [x])]

theorem slash_notMem_splitOn {e : List α} (h : e ∈ path.splitOn slash) : slash ∉ e := by
  induction path generalizing e with
  | nil =>
    rw [List.splitOn_nil, List.mem_singleton] at h
    rw [h]
    exact List.not_mem_nil
  | cons a path ih =>
    rw [List.splitOn_cons_eq_if_modifyHead] at h
    by_cases ha : a = slash
    · rw [if_pos (beq_iff_eq.mpr ha)] at h
      rcases List.mem_cons.mp h with rfl | h
      · exact List.not_mem_nil
      · exact ih h
    · rw [if_neg fun hc => ha (beq_iff_eq.mp hc)] at h
      cases hs : path.splitOn slash with
      | nil => exact absurd hs (List.splitOn_ne_nil slash path)
      | cons b es =>
        rw [hs] at h ih
        rcases List.mem_cons.mp h with rfl | h
        · rw [List.mem_cons, not_or]
          exact ⟨fun hc => ha hc.symm, ih List.mem_cons_self⟩
        · exact ih (List.mem_cons_of_mem b h)

theorem push_plain (h : Plain slash dot id) (rooted : Bool) (kept : List (List α)) :
    push dot rooted kept id = id :: kept := by
  have hdot : ∀ e : List α, e = id → dot ∉ e := fun e he => he ▸ h.dot
  unfold push
  rw [if_neg, if_neg]
  · exact fun he => hdot _ he.symm (by simp)
  · rintro (he | he)
    · exact h.ne_nil he
    · exact hdot _ he.symm (by simp)

theorem mem_push {rooted : Bool} {kept : List (List α)} {e q : List α}
    (h : q ∈ push dot rooted kept e) : q ∈ kept ∨ q = e ∧ e ≠ [] ∧ e ≠ [dot] := by
  unfold push at h
  split at h
  · exact .inl h
  · next he =>
    rw [not_or] at he
    split at h
    · split at h
      · split at h
        · cases h
        · exact .inr ⟨List.mem_singleton.mp h, he⟩
      · split at h
        · rcases List.mem_cons.mp h with h | h
          · exact .inr ⟨h, he⟩
          · exact .inl h
        · exact .inl (List.mem_cons_of_mem _ h)
    · rcases List.mem_cons.mp h with h | h
      · exact .inr ⟨h, he⟩
      · exact .inl h

/-- An element that is kept is not empty, no dot, and without slashes. -/
theorem mem_elements {q : List α} (h : q ∈ elements slash dot path) :
    q ≠ [] ∧ q ≠ [dot] ∧ slash ∉ q := by
  have key : ∀ (es kept : List (List α)), (∀ e ∈ es, slash ∉ e) →
      (∀ q ∈ kept, q ≠ [] ∧ q ≠ [dot] ∧ slash ∉ q) →
      ∀ q ∈ es.foldl (push dot (rooted slash path)) kept, q ≠ [] ∧ q ≠ [dot] ∧ slash ∉ q := by
    intro es
    induction es with
    | nil => exact fun kept _ hkept => hkept
    | cons e es ih =>
      intro kept hes hkept
      refine ih _ (fun e' he' => hes e' (List.mem_cons_of_mem _ he')) fun q hq => ?_
      rcases mem_push hq with hq | ⟨rfl, hnil, hdot⟩
      · exact hkept q hq
      · exact ⟨hnil, hdot, hes _ List.mem_cons_self⟩
  exact key _ [] (fun e he => slash_notMem_splitOn he) (fun q hq => by cases hq) q
    (List.mem_reverse.mp h)

theorem elements_plain (h : Plain slash dot id) : elements slash dot id = [id] := by
  rw [elements, List.splitOn_eq_singleton h.slash, List.foldl_cons, List.foldl_nil, push_plain h]
  rfl

theorem elements_slash_plain (h : Plain slash dot id) : elements slash dot (slash :: id) = [id] := by
  have hsplit : (slash :: id).splitOn slash = [[], id] := by
    rw [List.splitOn_cons_eq_if_modifyHead, if_pos (beq_self_eq_true slash),
      List.splitOn_eq_singleton h.slash]
  rw [elements, hsplit, List.foldl_cons, List.foldl_cons, List.foldl_nil, push_plain h, push,
    if_pos (.inl rfl)]
  rfl

theorem rooted_append (h : path ≠ []) (more : List α) :
    rooted slash (path ++ more) = rooted slash path := by
  cases path with
  | nil => exact absurd rfl h
  | cons a path => rfl

/-- A name goes on top of what there is. -/
theorem elements_append (h : Plain slash dot id) (hpath : path ≠ []) :
    elements slash dot (path ++ slash :: id) = elements slash dot path ++ [id] := by
  rw [elements, rooted_append hpath, List.splitOn_append_cons_self, List.splitOn_eq_singleton h.slash,
    List.foldl_append, List.foldl_cons, List.foldl_nil, push_plain h, List.reverse_cons]
  rfl

/-! ## The cleaned path -/

/-- The first element kept gives the first letter. -/
theorem exists_first (h : elements slash dot path ≠ []) : ∃ a as es,
    elements slash dot path = (a :: as) :: es ∧ a ≠ slash ∧ a :: as ≠ [dot] ∧
      [slash].intercalate (elements slash dot path) = a :: [slash].intercalate (as :: es) := by
  obtain ⟨e, es, hes⟩ := List.exists_cons_of_ne_nil h
  have hmem : e ∈ elements slash dot path := hes ▸ List.mem_cons_self
  obtain ⟨hnil, hdot, hslash⟩ := mem_elements hmem
  obtain ⟨a, as, rfl⟩ := List.exists_cons_of_ne_nil hnil
  refine ⟨a, as, es, hes, fun ha => hslash (ha ▸ List.mem_cons_self), hdot, ?_⟩
  rw [hes, List.intercalate_cons_cons_left]

theorem clean_of_ne (h : elements slash dot path ≠ []) : clean slash dot path =
    (if rooted slash path then [slash] else []) ++ [slash].intercalate (elements slash dot path) := by
  obtain ⟨a, as, es, -, -, -, hinter⟩ := exists_first h
  rw [clean, if_neg]
  rw [hinter]
  simp

theorem clean_of_rooted (hroot : rooted slash path = true) (h : elements slash dot path = []) :
    clean slash dot path = [slash] := by
  rw [clean, h, hroot]
  rfl

theorem clean_of_not_rooted (hroot : rooted slash path = false) (h : elements slash dot path = []) :
    clean slash dot path = [dot] := by
  rw [clean, h, hroot]
  rfl

/-- A path with elements is not cleaned to the dot, nor to the root. -/
theorem clean_ne_single (h : elements slash dot path ≠ []) :
    clean slash dot path ≠ [dot] ∧ clean slash dot path ≠ [slash] := by
  obtain ⟨a, as, es, -, ha, hdot, hinter⟩ := exists_first h
  rw [clean_of_ne h, hinter]
  cases rooted slash path with
  | true => simp
  | false =>
    constructor
    · intro heq
      obtain ⟨rfl, hrest⟩ := List.cons.inj heq
      cases as with
      | nil => exact hdot rfl
      | cons b bs =>
        rw [List.intercalate_cons_cons_left] at hrest
        cases hrest
    · exact fun heq => ha (List.cons.inj heq).1

/-! ## Joining a name -/

/-- A name alone is clean. -/
theorem join_nil (h : Plain slash dot id) : join slash dot [[], id] = id := by
  have hroot : rooted slash id = false := by
    obtain ⟨a, as, rfl⟩ := List.exists_cons_of_ne_nil h.ne_nil
    have ha : a ≠ slash := fun ha => h.slash (ha ▸ List.mem_cons_self)
    simpa [rooted] using ha
  have hfilter : ([[], id] : List (List α)).filter (· ≠ []) = [id] := by simp [h.ne_nil]
  have hkept : elements slash dot id ≠ [] := by
    rw [elements_plain h]
    exact List.cons_ne_nil id []
  rw [join, hfilter, if_neg (List.cons_ne_nil id []), List.intercalate_singleton, clean_of_ne hkept,
    elements_plain h, hroot]
  show [slash].intercalate [id] = id
  exact List.intercalate_singleton

theorem join_of_ne (h : Plain slash dot id) (hpath : path ≠ []) :
    join slash dot [path, id] = (if rooted slash path then [slash] else []) ++
      [slash].intercalate (elements slash dot path ++ [id]) := by
  have hfilter : ([path, id] : List (List α)).filter (· ≠ []) = [path, id] := by
    simp [h.ne_nil, hpath]
  have hkept : elements slash dot (path ++ slash :: id) ≠ [] := by
    rw [elements_append h hpath]
    exact List.append_ne_nil_of_right_ne_nil _ (List.cons_ne_nil id [])
  rw [join, hfilter, if_neg (List.cons_ne_nil _ _), List.intercalate_cons_cons,
    List.intercalate_singleton, List.append_assoc, List.singleton_append, clean_of_ne hkept,
    elements_append h hpath, rooted_append hpath]

/-- What `Join` makes of a path and a name, by what the path is cleaned to. -/
theorem join_plain (hne : slash ≠ dot) (h : Plain slash dot id) : join slash dot [path, id] =
    if clean slash dot path = [dot] then id
    else if clean slash dot path = [slash] then slash :: id
    else clean slash dot path ++ slash :: id := by
  by_cases hpath : path = []
  · have hclean : clean slash dot path = [dot] := by
      rw [hpath]
      exact clean_of_not_rooted rfl (by simp [elements, push])
    rw [if_pos hclean, hpath, join_nil h]
  · rw [join_of_ne h hpath, intercalate_concat]
    by_cases hes : elements slash dot path = []
    · rw [if_pos hes]
      cases hroot : rooted slash path with
      | true =>
        rw [clean_of_rooted hroot hes, if_neg fun hc => hne (List.cons.inj hc).1, if_pos rfl,
          if_pos rfl]
        rfl
      | false =>
        rw [clean_of_not_rooted hroot hes, if_pos rfl]
        rfl
    · obtain ⟨hdot, hslash⟩ := clean_ne_single hes
      rw [if_neg hes, if_neg hdot, if_neg hslash, clean_of_ne hes, List.append_assoc]

theorem trimPrefix_append (pre more : List α) : trimPrefix (pre ++ more) pre = more := by
  rw [trimPrefix, if_pos (List.isPrefixOf_iff_prefix.mpr (List.prefix_append pre more)), List.drop_left]

theorem trimPrefix_of_not {s pre : List α} (h : ¬ pre <+: s) : trimPrefix s pre = s := by
  rw [trimPrefix, if_neg fun hp => h (List.isPrefixOf_iff_prefix.mp hp)]

theorem unslash_eq_iff (h : slash ∉ id) {r : List α} :
    unslash slash r = id ↔ r = id ∨ r = slash :: id := by
  rw [unslash]
  constructor
  · intro hr
    split at hr
    · next hhead =>
      obtain ⟨as, rfl⟩ := List.head?_eq_some_iff.mp hhead
      exact .inr (congrArg _ hr)
    · exact .inl hr
  · rintro (rfl | rfl)
    · exact if_neg fun hhead => h (List.mem_of_head? hhead)
    · exact if_pos rfl

/-- The name is the last part of it. -/
theorem getLast?_splitOn_join (hne : slash ≠ dot) (h : Plain slash dot id) (path : List α) :
    ((join slash dot [path, id]).splitOn slash).getLast? = some id := by
  rw [join_plain hne h]
  split
  · rw [List.splitOn_eq_singleton h.slash]
    rfl
  · split
    · rw [List.splitOn_cons_eq_if_modifyHead, if_pos (beq_self_eq_true slash),
        List.splitOn_eq_singleton h.slash]
      rfl
    · rw [List.splitOn_append_cons_self, List.splitOn_eq_singleton h.slash, List.getLast?_concat]

omit [DecidableEq α] in
/-- Part of a name is a name. -/
theorem Plain.of_prefix (h : Plain slash dot id) {x : List α} (hx : x <+: id) (hne : x ≠ []) :
    Plain slash dot x :=
  ⟨hne, fun hm => h.slash (hx.subset hm), fun hm => h.dot (hx.subset hm)⟩

/-- A path without elements is no beginning of what it is joined into, unless it is empty or the
root. -/
theorem trim_join_bare (hne : slash ≠ dot) (h : Plain slash dot id)
    (hes : elements slash dot path = []) :
    unslash slash (trimPrefix (join slash dot [path, id]) path) = id := by
  rw [unslash_eq_iff h.slash, join_plain hne h]
  cases hroot : rooted slash path with
  | false =>
    rw [clean_of_not_rooted hroot hes, if_pos rfl]
    refine .inl ?_
    by_cases hpre : path <+: id
    · by_cases hpath : path = []
      · rw [hpath]
        exact trimPrefix_append [] id
      · have hplain := elements_plain (h.of_prefix hpre hpath)
        rw [hes] at hplain
        cases hplain
    · exact trimPrefix_of_not hpre
  | true =>
    rw [clean_of_rooted hroot hes, if_neg fun hc => hne (List.cons.inj hc).1, if_pos rfl]
    by_cases hpre : path <+: slash :: id
    · refine .inl ?_
      obtain ⟨x, rfl⟩ := List.head?_eq_some_iff.mp (by simpa [rooted] using hroot)
      by_cases hx : x = []
      · rw [hx]
        exact trimPrefix_append [slash] id
      · have hplain := elements_slash_plain (h.of_prefix (List.prefix_cons_inj slash |>.mp hpre) hx)
        rw [hes] at hplain
        cases hplain
    · exact .inr (trimPrefix_of_not hpre)

/-- From a path with elements the name is got back if the path is what `Join` put in front. -/
theorem trim_join_elements (hne : slash ≠ dot) (h : Plain slash dot id)
    (hes : elements slash dot path ≠ []) :
    unslash slash (trimPrefix (join slash dot [path, id]) path) = id ↔
      path = clean slash dot path ∨ path = clean slash dot path ++ [slash] := by
  obtain ⟨hdot, hslash⟩ := clean_ne_single hes
  have hjoin : join slash dot [path, id] = clean slash dot path ++ slash :: id := by
    rw [join_plain hne h, if_neg hdot, if_neg hslash]
  rw [hjoin, unslash_eq_iff h.slash]
  constructor
  · intro hr
    by_cases hpre : path <+: clean slash dot path ++ slash :: id
    · obtain ⟨r, hcut⟩ := hpre
      rw [← hcut, trimPrefix_append] at hr
      rcases hr with rfl | rfl
      · have hsame : path ++ r = clean slash dot path ++ [slash] ++ r := by
          rw [hcut, List.append_assoc]
          rfl
        exact .inr (List.append_cancel_right hsame)
      · exact .inl (List.append_cancel_right hcut)
    · -- then nothing is trimmed, and what is left is too long
      rw [trimPrefix_of_not hpre] at hr
      have hclean : clean slash dot path ≠ [] := by
        obtain ⟨a, as, es, -, -, -, hinter⟩ := exists_first hes
        rw [clean_of_ne hes, hinter]
        simp
      rcases hr with hr | hr
      · have hlen := congrArg List.length hr
        simp at hlen
        omega
      · have hlen := congrArg List.length hr
        simp at hlen
        exact absurd hlen hclean
  · rintro (hc | hc)
    · right
      nth_rewrite 2 [hc]
      exact trimPrefix_append _ _
    · left
      nth_rewrite 2 [hc]
      rw [List.append_cons]
      exact trimPrefix_append _ _

/-- The name is got back exactly from a sound path. -/
theorem trim_join_iff (hne : slash ≠ dot) (h : Plain slash dot id) (path : List α) :
    unslash slash (trimPrefix (join slash dot [path, id]) path) = id ↔ Sound slash dot path := by
  by_cases hes : elements slash dot path = []
  · refine iff_of_true (trim_join_bare hne h hes) ?_
    cases hroot : rooted slash path with
    | true => exact .inr (.inl (clean_of_rooted hroot hes))
    | false => exact .inl (clean_of_not_rooted hroot hes)
  · obtain ⟨hdot, hslash⟩ := clean_ne_single hes
    rw [trim_join_elements hne h hes, Sound]
    constructor
    · exact fun hc => .inr (.inr hc)
    · rintro (hc | hc | hc)
      · exact absurd hc hdot
      · exact absurd hc hslash
      · exact hc

end

end GoPath

end Qtalk.Lib
