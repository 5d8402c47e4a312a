import Qtalk.Js.Dispatch
import Qtalk.Lib.Utf16

/-!
# Paths in both languages

`Call.Parse` of `golang/rpc/caller.go` and the constructor of `javascript/rpc/caller.ts` on one
destination. Go splits the bytes of its UTF-8 form, TypeScript the code units of its UTF-16
form; a slash is one byte and one unit, and no other character has it in its encoding, so both
split the same text at the same places.
-/

namespace Qtalk.Js.Rpc
open Qtalk.Rpc Qtalk.Lib.Utf16

variable {α : Type} [DecidableEq α] [Text α]

/-- What a destination is parsed to. -/
structure ParsedAs (path destination objectPath method : List α) : Prop where
  /-- exactly one leading slash is gone -/
  stripped : path = Text.slash :: destination ∨
    path = destination ∧ path.head? ≠ some Text.slash
  single : Text.slash ∉ method
  split : Text.slash ∈ destination → destination = objectPath ++ Text.slash :: method
  whole : Text.slash ∉ destination → objectPath = [Text.slash] ∧ method = destination

/-! ## One alphabet -/

theorem place_whole {destination : List α} (h : Text.slash ∉ destination) :
    place destination = ([Text.slash], destination) := by
  unfold place
  rw [List.splitOn_eq_singleton h]
  rfl

theorem place_split {objectPath method : List α} (h : Text.slash ∉ method) :
    place (objectPath ++ Text.slash :: method) = (objectPath, method) := by
  have parts : (objectPath ++ Text.slash :: method).splitOn Text.slash =
      objectPath.splitOn Text.slash ++ [method] := by
    rw [List.splitOn_append_cons_self, List.splitOn_eq_singleton h]
  have more : ¬(objectPath.splitOn Text.slash ++ [method]).length = 1 := by
    have := List.length_pos_iff.mpr (List.splitOn_ne_nil Text.slash objectPath)
    rw [List.length_append, List.length_singleton]
    omega
  unfold place
  rw [parts]
  dsimp only
  rw [if_neg more, List.dropLast_concat, List.intercalate_splitOn, List.getLastD_concat]

omit [DecidableEq α] in
/-- The last slash, if there is one. -/
theorem last_slash {destination : List α} (h : Text.slash ∈ destination) :
    ∃ objectPath method, destination = objectPath ++ Text.slash :: method ∧ Text.slash ∉ method := by
  obtain ⟨method, front, split, apart⟩ :=
    List.eq_append_cons_of_mem (List.mem_reverse.mpr h)
  refine ⟨front.reverse, method.reverse, ?_, fun hm => apart (List.mem_reverse.mp hm)⟩
  rw [← List.reverse_reverse destination, split]
  simp

theorem parsedAs {path : List α} :
    ParsedAs path (unrooted path) (place (unrooted path)).1 (place (unrooted path)).2 := by
  have stripped : path = Text.slash :: unrooted path ∨
      path = unrooted path ∧ path.head? ≠ some Text.slash := by
    unfold unrooted
    split
    · next rooted => exact .inl (List.cons_head?_tail rooted).symm
    · next rooted => exact .inr ⟨rfl, rooted⟩
  by_cases h : Text.slash ∈ unrooted path
  · obtain ⟨objectPath, method, split, apart⟩ := last_slash h
    rw [split] at stripped h ⊢
    rw [place_split apart]
    exact ⟨stripped, apart, fun _ => rfl, fun absent => absurd h absent⟩
  · rw [place_whole h]
    exact ⟨stripped, h, fun present => absurd present h, fun _ => ⟨rfl, rfl⟩⟩

/-! ## Two alphabets -/

/-- An encoding of texts that gives the slash, and nothing else, the slash. -/
structure Encodes {γ : Type} [Text γ] (enc : γ → List α) : Prop where
  slash : enc Text.slash = [Text.slash]
  nonempty : ∀ c, enc c ≠ []
  apart : ∀ c, c ≠ Text.slash → Text.slash ∉ enc c

/-- The bytes of a Go string. -/
def utf8 (s : List Char) : List UInt8 := s.flatMap String.utf8EncodeChar

/-- The code units of a JavaScript string. -/
def utf16 (s : List Char) : List UInt16 := s.flatMap charUnits

section
variable {γ : Type} [DecidableEq γ] [Text γ] {enc : γ → List α} (he : Encodes enc)
include he

omit [DecidableEq α] in
theorem Encodes.mem_slash {s : List γ} : Text.slash ∈ s.flatMap enc ↔ Text.slash ∈ s := by
  rw [List.mem_flatMap]
  constructor
  · rintro ⟨c, hc, hslash⟩
    by_cases h : c = Text.slash
    · exact h ▸ hc
    · exact absurd hslash (he.apart c h)
  · intro h
    exact ⟨_, h, by rw [he.slash]; exact List.mem_singleton_self _⟩

omit [DecidableEq α] in
theorem Encodes.head_slash {s : List γ} :
    (s.flatMap enc).head? = some Text.slash ↔ s.head? = some Text.slash := by
  cases s with
  | nil => simp
  | cons c s =>
    obtain ⟨x, xs, hx⟩ := List.exists_cons_of_ne_nil (he.nonempty c)
    rw [List.flatMap_cons, hx, List.cons_append, List.head?_cons, List.head?_cons, Option.some.injEq,
      Option.some.injEq]
    constructor
    · intro hslash
      by_contra h
      exact he.apart c h (by rw [hx, hslash]; exact List.mem_cons_self)
    · intro h
      rw [h, he.slash] at hx
      exact (List.cons.inj hx).1.symm

theorem Encodes.unrooted (s : List γ) : unrooted (s.flatMap enc) = (unrooted s).flatMap enc := by
  unfold Qtalk.Rpc.unrooted
  by_cases h : s.head? = some Text.slash
  · rw [if_pos h, if_pos (he.head_slash.mpr h), ← List.cons_head?_tail h, List.flatMap_cons, he.slash]
    rfl
  · rw [if_neg h, if_neg (mt he.head_slash.mp h)]

theorem Encodes.place (s : List γ) :
    place (s.flatMap enc) = ((place s).1.flatMap enc, (place s).2.flatMap enc) := by
  by_cases h : Text.slash ∈ s
  · obtain ⟨objectPath, method, split, apart⟩ := last_slash h
    rw [split, place_split apart, List.flatMap_append, List.flatMap_cons, he.slash, List.singleton_append,
      place_split (mt he.mem_slash.mp apart)]
  · rw [place_whole h, place_whole (mt he.mem_slash.mp h), List.flatMap_singleton, he.slash]

omit [DecidableEq α] [DecidableEq γ] in
theorem Encodes.eq_nil {s : List γ} : s.flatMap enc = [] ↔ s = [] := by
  rw [List.flatMap_eq_nil_iff]
  constructor
  · intro h
    cases s with
    | nil => rfl
    | cons c s => exact absurd (h c List.mem_cons_self) (he.nonempty c)
  · rintro rfl
    simp

end

theorem toNat_ne_slash {c : Char} (h : c ≠ Text.slash) : c.toNat ≠ 47 := fun hc =>
  h (Char.ext (UInt32.toNat_inj.mp hc))

/-- Every byte of another character is another byte: those of a longer encoding start at 128. -/
theorem utf8_encodes : Encodes String.utf8EncodeChar := by
  refine ⟨by decide, fun c => ?_, fun c hc hslash => ?_⟩
  · refine List.ne_nil_of_length_pos ?_
    rw [String.length_utf8EncodeChar]
    exact Char.utf8Size_pos c
  · have other : c.val.toNat ≠ 47 := toNat_ne_slash hc
    have byte : ∀ n : Nat, (Text.slash : UInt8) = UInt8.ofNat n → n % 256 = 47 := fun n h =>
      UInt8.toNat_ofNat'.symm.trans (congrArg UInt8.toNat h).symm
    rw [String.utf8EncodeChar] at hslash
    split at hslash
    · have := byte _ (List.mem_singleton.mp hslash)
      omega
    · split at hslash
      · simp only [List.mem_cons, List.not_mem_nil, or_false] at hslash
        rcases hslash with h | h
        · have := byte _ h
          omega
        · have := byte _ h
          omega
      · split at hslash
        · simp only [List.mem_cons, List.not_mem_nil, or_false] at hslash
          rcases hslash with h | h | h
          · have := byte _ h
            omega
          · have := byte _ h
            omega
          · have := byte _ h
            omega
        · simp only [List.mem_cons, List.not_mem_nil, or_false] at hslash
          rcases hslash with h | h | h | h
          · have := byte _ h
            omega
          · have := byte _ h
            omega
          · have := byte _ h
            omega
          · have := byte _ h
            omega

theorem utf16_encodes : Encodes charUnits := by
  refine ⟨by decide, fun c => ?_, fun c hc hslash => ?_⟩
  · rw [charUnits]
    split <;> exact List.cons_ne_nil _ _
  · have other := toNat_ne_slash hc
    have unit : ∀ n : Nat, (Text.slash : UInt16) = UInt16.ofNat n → n % 65536 = 47 := fun n h =>
      UInt16.toNat_ofNat'.symm.trans (congrArg UInt16.toNat h).symm
    have bound : c.toNat < 0x110000 := by
      rcases c.valid with h | ⟨-, h⟩
      · exact Nat.lt_trans h (by decide)
      · exact h
    rw [charUnits] at hslash
    split at hslash
    · have := unit _ (List.mem_singleton.mp hslash)
      omega
    · simp only [List.mem_cons, List.not_mem_nil, or_false] at hslash
      rcases hslash with h | h
      · have := unit _ h
        omega
      · have := unit _ h
        omega

/-- Both parsers make the same of a destination: of one string over any alphabet, and of the
UTF-8 and the UTF-16 form of one text. -/
theorem paths_agree (string objectPath method : List α) (path : List Char) :
    (Call.Parse ⟨string, objectPath, method⟩ = .error "no destination specified" ↔ string = []) ∧
      (CallFields.constructor string = .error "no destination specified" ↔ string = []) ∧
      (string ≠ [] → ∃ d o m, ParsedAs string d o m ∧
        Call.Parse ⟨string, objectPath, method⟩ = .ok ⟨d, o, m⟩ ∧
        CallFields.constructor string = .ok ⟨d, o, m⟩) ∧
      (path ≠ [] → ∃ d o m, ParsedAs path d o m ∧
        Call.Parse ⟨utf8 path, [], []⟩ = .ok ⟨utf8 d, utf8 o, utf8 m⟩ ∧
        CallFields.constructor (utf16 path) = .ok ⟨utf16 d, utf16 o, utf16 m⟩) := by
  refine ⟨?_, ?_, fun h => ?_, fun h => ?_⟩
  · constructor
    · intro rejected
      by_contra h
      rw [Parse_eq h] at rejected
      cases rejected
    · rintro rfl
      rfl
  · constructor
    · intro rejected
      by_contra h
      rw [constructor_eq h] at rejected
      cases rejected
    · rintro rfl
      rfl
  · exact ⟨_, _, _, parsedAs, Parse_eq h, constructor_eq h⟩
  · refine ⟨_, _, _, parsedAs, ?_, ?_⟩
    · have hne : utf8 path ≠ [] := mt utf8_encodes.eq_nil.mp h
      rw [Parse_eq hne]
      dsimp only
      rw [utf8, utf8_encodes.unrooted, utf8_encodes.place]
      rfl
    · have hne : utf16 path ≠ [] := mt utf16_encodes.eq_nil.mp h
      rw [constructor_eq hne, utf16, utf16_encodes.unrooted, utf16_encodes.place]
      rfl

end Qtalk.Js.Rpc
