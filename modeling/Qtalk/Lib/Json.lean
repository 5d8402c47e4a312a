import Qtalk.Lib.Utf16
import Mathlib.Data.List.Basic

/-!
# JSON texts

JSON values over any numbers that have a text, and strings of 16-bit code units. `print` writes a
value without blanks and with every surrogate that has no partner escaped, so its text is made
of characters; `parse` reads any JSON text. A printed value whose objects have no name twice
is read back (`parse_print`).
-/

namespace Qtalk.Lib
open Utf16

/-- What a number may be written with. -/
def isNumberChar (c : Char) : Bool := c.isDigit || c ∈ ['-', '+', '.', 'e', 'E']

/-- Numbers with their text. -/
structure NumberText (N : Type) where
  print : N → List Char
  read : List Char → Option N
  read_print : ∀ n, read (print n) = some n
  read_nil : read [] = none
  chars : ∀ n, ∀ c ∈ print n, isNumberChar c = true
  head : ∀ n, ∃ c text, print n = c :: text ∧ (c = '-' ∨ c.isDigit = true)

/-- The natural numbers in decimals. -/
def decimal : NumberText Nat where
  print n := Nat.toDigits 10 n
  read text :=
    let n := Nat.ofDigitChars 10 text 0
    if Nat.toDigits 10 n = text then some n else none
  read_print n := by simp [Nat.ofDigitChars_toDigits]
  read_nil := by decide
  chars n c hc := by
    rw [isNumberChar, Nat.isDigit_of_mem_toDigits (by decide) (by decide) hc]
    rfl
  head n := by
    obtain ⟨c, text, h⟩ := List.exists_cons_of_ne_nil (Nat.toDigits_ne_nil (n := n) (b := 10))
    exact ⟨c, text, h, .inr (Nat.isDigit_of_mem_toDigits (by decide) (by decide) (h ▸ List.mem_cons_self))⟩

inductive Json (N : Type) where
  | null
  | bool (b : Bool)
  | number (n : N)
  | string (s : List UInt16)
  | array (elems : List (Json N))
  | object (members : List (List UInt16 × Json N))

namespace Json

variable {N : Type} (nums : NumberText N)

/-! ## Printing -/

def escapeUnit (u : UInt16) : List Char :=
  ['\\', 'u', Nat.digitChar (u.toNat / 0x1000), Nat.digitChar (u.toNat / 0x100 % 0x10),
    Nat.digitChar (u.toNat / 0x10 % 0x10), Nat.digitChar (u.toNat % 0x10)]

/-- A character inside a string. -/
def quoteChar (c : Char) : List Char :=
  if c = '"' then ['\\', '"']
  else if c = '\\' then ['\\', '\\']
  else if c = '\x08' then ['\\', 'b']
  else if c = '\t' then ['\\', 't']
  else if c = '\n' then ['\\', 'n']
  else if c = '\x0c' then ['\\', 'f']
  else if c = '\r' then ['\\', 'r']
  else if c.toNat < 0x20 then escapeUnit (UInt16.ofNat c.toNat)
  else [c]

def quotePoint : CodePoint → List Char
  | .char c => quoteChar c
  | .lone u => escapeUnit u

def quote (s : List UInt16) : List Char := '"' :: ((codePoints s).flatMap quotePoint ++ ['"'])

mutual

def print : Json N → List Char
  | .null => ['n', 'u', 'l', 'l']
  | .bool true => ['t', 'r', 'u', 'e']
  | .bool false => ['f', 'a', 'l', 's', 'e']
  | .number n => nums.print n
  | .string s => quote s
  | .array [] => ['[', ']']
  | .array (x :: xs) => '[' :: (print x ++ printElems xs)
  | .object [] => ['{', '}']
  | .object ((k, v) :: ms) => '{' :: (quote k ++ ':' :: (print v ++ printMembers ms))

/-- What follows the first element. -/
def printElems : List (Json N) → List Char
  | [] => [']']
  | x :: xs => ',' :: (print x ++ printElems xs)

/-- What follows the first member. -/
def printMembers : List (List UInt16 × Json N) → List Char
  | [] => ['}']
  | (k, v) :: ms => ',' :: (quote k ++ ':' :: (print v ++ printMembers ms))

end

/-! ## Parsing -/

def isBlank (c : Char) : Bool := c ∈ [' ', '\t', '\n', '\r']

def skipBlanks (text : List Char) : List Char := text.dropWhile isBlank

/-- A token of one character. -/
def expect (c : Char) (text : List Char) : Option (List Char) :=
  match skipBlanks text with
  | [] => none
  | d :: text => if d = c then some text else none

def hexVal (c : Char) : Option Nat :=
  if '0' ≤ c ∧ c ≤ '9' then some (c.toNat - 48)
  else if 'a' ≤ c ∧ c ≤ 'f' then some (c.toNat - 87)
  else if 'A' ≤ c ∧ c ≤ 'F' then some (c.toNat - 55)
  else none

def hexUnit (a b c d : Char) : Option UInt16 := do
  let a ← hexVal a
  let b ← hexVal b
  let c ← hexVal c
  let d ← hexVal d
  return UInt16.ofNat (a * 0x1000 + b * 0x100 + c * 0x10 + d)

/-- The unit that a letter behind a backslash stands for. -/
def escaped (c : Char) : Option UInt16 :=
  if c = '"' ∨ c = '\\' ∨ c = '/' then some (UInt16.ofNat c.toNat)
  else if c = 'b' then some 8
  else if c = 't' then some 9
  else if c = 'n' then some 10
  else if c = 'f' then some 12
  else if c = 'r' then some 13
  else none

/-- The rest of a string, behind its first quotation mark. -/
def readString : List Char → Option (List UInt16 × List Char)
  | [] => none
  | c :: text =>
    if c = '"' then some ([], text)
    else if c = '\\' then
      match text with
      | 'u' :: a :: b :: e :: d :: text =>
        (hexUnit a b e d).bind fun u => (readString text).map fun r => (u :: r.1, r.2)
      | e :: text => (escaped e).bind fun u => (readString text).map fun r => (u :: r.1, r.2)
      | [] => none
    else if c.toNat < 0x20 then none
    else (readString text).map fun r => (charUnits c ++ r.1, r.2)

def literal (word : List Char) (j : Json N) (text : List Char) : Option (Json N × List Char) :=
  if word <+: text then some (j, text.drop word.length) else none

def readNumber (text : List Char) : Option (Json N × List Char) :=
  (nums.read (text.takeWhile isNumberChar)).map fun n => (.number n, text.dropWhile isNumberChar)

/-- A member of that name is set: in its place, if the object has it. -/
def setMember (ms : List (List UInt16 × Json N)) (m : List UInt16 × Json N) :
    List (List UInt16 × Json N) :=
  if m.1 ∈ ms.map Prod.fst then ms.map fun x => if x.1 = m.1 then m else x else ms ++ [m]

mutual

/-- A value at the beginning of a text, and what follows it. -/
def readValue : Nat → List Char → Option (Json N × List Char)
  | 0, _ => none
  | fuel + 1, text =>
    match skipBlanks text with
    | [] => none
    | c :: text =>
      if c = '"' then (readString text).map fun r => (.string r.1, r.2)
      else if c = '[' then
        match expect ']' text with
        | some text => some (.array [], text)
        | none => (readValue fuel text).bind fun x =>
          (readElems fuel x.2).map fun xs => (.array (x.1 :: xs.1), xs.2)
      else if c = '{' then
        match expect '}' text with
        | some text => some (.object [], text)
        | none => (readMember fuel text).bind fun m =>
          (readMembers fuel m.2).map fun ms => (.object ((m.1 :: ms.1).foldl setMember []), ms.2)
      else if c = 't' then literal ['r', 'u', 'e'] (.bool true) text
      else if c = 'f' then literal ['a', 'l', 's', 'e'] (.bool false) text
      else if c = 'n' then literal ['u', 'l', 'l'] .null text
      else readNumber nums (c :: text)

/-- What follows the first element of an array. -/
def readElems : Nat → List Char → Option (List (Json N) × List Char)
  | 0, _ => none
  | fuel + 1, text =>
    match expect ']' text with
    | some text => some ([], text)
    | none => (expect ',' text).bind fun text => (readValue fuel text).bind fun x =>
      (readElems fuel x.2).map fun xs => (x.1 :: xs.1, xs.2)

def readMember : Nat → List Char → Option ((List UInt16 × Json N) × List Char)
  | 0, _ => none
  | fuel + 1, text =>
    (expect '"' text).bind fun text => (readString text).bind fun k =>
      (expect ':' k.2).bind fun text => (readValue fuel text).map fun v => ((k.1, v.1), v.2)

/-- What follows the first member of an object. -/
def readMembers : Nat → List Char → Option (List (List UInt16 × Json N) × List Char)
  | 0, _ => none
  | fuel + 1, text =>
    match expect '}' text with
    | some text => some ([], text)
    | none => (expect ',' text).bind fun text => (readMember fuel text).bind fun m =>
      (readMembers fuel m.2).map fun ms => (m.1 :: ms.1, ms.2)

end

/-- A value with blanks around it, and nothing else. -/
def parse (text : List Char) : Option (Json N) :=
  match readValue nums (text.length + 1) text with
  | none => none
  | some r => if skipBlanks r.2 = [] then some r.1 else none

/-! ## Strings are read back -/

theorem hexVal_digitChar : ∀ d < 16, hexVal (Nat.digitChar d) = some d := by decide

theorem hexUnit_digits (u : UInt16) :
    hexUnit (Nat.digitChar (u.toNat / 0x1000)) (Nat.digitChar (u.toNat / 0x100 % 0x10))
      (Nat.digitChar (u.toNat / 0x10 % 0x10)) (Nat.digitChar (u.toNat % 0x10)) = some u := by
  have hlt := u.toNat_lt
  have hsum : u.toNat / 0x1000 * 0x1000 + u.toNat / 0x100 % 0x10 * 0x100
      + u.toNat / 0x10 % 0x10 * 0x10 + u.toNat % 0x10 = u.toNat := by omega
  simp only [hexUnit, hexVal_digitChar _ (by omega : u.toNat / 0x1000 < 16),
    hexVal_digitChar _ (Nat.mod_lt _ (by decide)), Option.bind_eq_bind, Option.bind_some,
    Option.pure_def, hsum, UInt16.ofNat_toNat]

theorem readString_escapeUnit (u : UInt16) (text : List Char) :
    readString (escapeUnit u ++ text) = (readString text).map fun r => (u :: r.1, r.2) := by
  simp only [escapeUnit, List.cons_append, List.nil_append]
  rw [readString, if_neg (by decide), if_pos rfl, hexUnit_digits, Option.bind_some]

/-- A letter behind a backslash. -/
theorem readString_escaped {e : Char} {u : UInt16} (he : escaped e = some u) (hu : e ≠ 'u')
    (text : List Char) :
    readString ('\\' :: e :: text) = (readString text).map fun r => (u :: r.1, r.2) := by
  have hletter : ∀ a b c d rest, e = 'u' → text = a :: b :: c :: d :: rest → False :=
    fun _ _ _ _ _ h _ => hu h
  rw [readString, if_neg (by decide), if_pos rfl, he, Option.bind_some]
  exact hletter

theorem readString_quoteChar (c : Char) (text : List Char) :
    readString (quoteChar c ++ text)
      = (readString text).map fun r => (charUnits c ++ r.1, r.2) := by
  have hescape : ∀ e u, escaped e = some u → e ≠ 'u' → charUnits c = [u] →
      readString (['\\', e] ++ text) = (readString text).map fun r => (charUnits c ++ r.1, r.2) :=
    fun e u he hu hc => by rw [hc]; exact readString_escaped he hu text
  rw [quoteChar]
  split
  · next h => exact hescape '"' 34 (by decide) (by decide) (h ▸ by decide)
  split
  · next h => exact hescape '\\' 92 (by decide) (by decide) (h ▸ by decide)
  split
  · next h => exact hescape 'b' 8 (by decide) (by decide) (h ▸ by decide)
  split
  · next h => exact hescape 't' 9 (by decide) (by decide) (h ▸ by decide)
  split
  · next h => exact hescape 'n' 10 (by decide) (by decide) (h ▸ by decide)
  split
  · next h => exact hescape 'f' 12 (by decide) (by decide) (h ▸ by decide)
  split
  · next h => exact hescape 'r' 13 (by decide) (by decide) (h ▸ by decide)
  split
  · next h =>
    have hc : charUnits c = [UInt16.ofNat c.toNat] := if_pos (by omega)
    rw [readString_escapeUnit, hc]
    rfl
  · next hquote hslash _ _ _ _ _ hctl =>
    rw [List.singleton_append, readString.eq_def]
    dsimp only
    rw [if_neg hquote, if_neg hslash, if_neg hctl]

theorem readString_quotePoint (p : CodePoint) (text : List Char) :
    readString (quotePoint p ++ text) = (readString text).map fun r => (p.units ++ r.1, r.2) := by
  cases p with
  | char c => exact readString_quoteChar c text
  | lone u => exact readString_escapeUnit u text

theorem readString_points (ps : List CodePoint) (text : List Char) :
    readString (ps.flatMap quotePoint ++ '"' :: text) = some (ps.flatMap CodePoint.units, text) := by
  induction ps with
  | nil =>
    rw [List.flatMap_nil, List.nil_append, readString.eq_def]
    rfl
  | cons p ps ih =>
    rw [List.flatMap_cons, List.append_assoc, readString_quotePoint, ih, List.flatMap_cons]
    rfl

/-- A quoted string is read back. -/
theorem readString_quote (s : List UInt16) (text : List Char) :
    ∃ quoted, quote s ++ text = '"' :: quoted ∧ readString quoted = some (s, text) := by
  refine ⟨(codePoints s).flatMap quotePoint ++ '"' :: text, by simp [quote], ?_⟩
  rw [readString_points, units_codePoints]

/-! ## Values are read back -/

mutual

/-- No object has a name twice. -/
def Distinct : Json N → Prop
  | .array xs => DistinctElems xs
  | .object ms => (ms.map Prod.fst).Nodup ∧ DistinctMembers ms
  | _ => True

def DistinctElems : List (Json N) → Prop
  | [] => True
  | x :: xs => x.Distinct ∧ DistinctElems xs

def DistinctMembers : List (List UInt16 × Json N) → Prop
  | [] => True
  | (_, v) :: ms => v.Distinct ∧ DistinctMembers ms

end

theorem foldl_setMember (ms : List (List UInt16 × Json N)) :
    ∀ acc : List (List UInt16 × Json N), ((acc ++ ms).map Prod.fst).Nodup →
      ms.foldl setMember acc = acc ++ ms := by
  induction ms with
  | nil => intro acc _; rw [List.foldl_nil, List.append_nil]
  | cons m ms ih =>
    intro acc h
    have hassoc : acc ++ m :: ms = acc ++ [m] ++ ms := by rw [List.append_assoc, List.singleton_append]
    have hnew : m.1 ∉ acc.map Prod.fst := by
      rw [List.map_append, List.nodup_append] at h
      exact fun hm => h.2.2 m.1 hm m.1 List.mem_cons_self rfl
    rw [List.foldl_cons, setMember, if_neg hnew, ih _ (hassoc ▸ h), ← hassoc]

/-- What a printed value begins with. -/
def Starts (c : Char) : Prop := c ∈ ['"', '[', '{', 't', 'f', 'n', '-'] ∨ c.isDigit = true

theorem Starts.apart {c d : Char} (h : Starts c) (hd : d ∈ [' ', '\t', '\n', '\r', ']', '}', ',', ':']) :
    c ≠ d := by
  rintro rfl
  simp only [List.mem_cons, List.not_mem_nil, or_false] at hd
  rcases hd with rfl | rfl | rfl | rfl | rfl | rfl | rfl | rfl <;> revert h <;> simp [Starts]

theorem Starts.not_blank {c : Char} (h : Starts c) : isBlank c = false := by
  rw [isBlank, decide_eq_false_iff_not]
  intro hc
  simp only [List.mem_cons, List.not_mem_nil, or_false] at hc
  rcases hc with hc | hc | hc | hc <;> exact h.apart (by simp) hc

theorem quote_head (s : List UInt16) : ∃ text, quote s = '"' :: text := ⟨_, rfl⟩

theorem print_head (j : Json N) : ∃ c text, j.print nums = c :: text ∧ Starts c := by
  cases j with
  | null => exact ⟨_, _, by rw [print], .inl (by simp)⟩
  | bool b => cases b <;> exact ⟨_, _, by rw [print], .inl (by simp)⟩
  | number n =>
    obtain ⟨c, text, htext, hc⟩ := nums.head n
    refine ⟨c, text, by rw [print, htext], ?_⟩
    rcases hc with rfl | hc
    · exact .inl (by simp)
    · exact .inr hc
  | string s => exact ⟨'"', _, by rw [print, quote], .inl (by simp)⟩
  | array xs => cases xs <;> exact ⟨'[', _, by rw [print], .inl (by simp)⟩
  | object ms =>
    cases ms with
    | nil => exact ⟨'{', _, by rw [print], .inl (by simp)⟩
    | cons m ms => exact ⟨'{', _, by rw [print], .inl (by simp)⟩

theorem skipBlanks_cons {c : Char} (h : isBlank c = false) (text : List Char) :
    skipBlanks (c :: text) = c :: text := by
  rw [skipBlanks, List.dropWhile_cons_of_neg (by rw [h]; exact Bool.false_ne_true)]

theorem expect_self {c : Char} (h : isBlank c = false) (text : List Char) :
    expect c (c :: text) = some text := by
  rw [expect, skipBlanks_cons h]
  exact if_pos rfl

theorem expect_other {c d : Char} (h : isBlank d = false) (hne : d ≠ c) (text : List Char) :
    expect c (d :: text) = none := by
  rw [expect, skipBlanks_cons h]
  exact if_neg hne

/-- A closing bracket is not what a printed value begins with. -/
theorem expect_print {c : Char} (hc : c ∈ [' ', '\t', '\n', '\r', ']', '}', ',', ':']) (j : Json N)
    (text : List Char) : expect c (j.print nums ++ text) = none := by
  obtain ⟨d, more, hprint, hd⟩ := j.print_head nums
  rw [hprint, List.cons_append, expect_other hd.not_blank (hd.apart hc)]

/-- What follows a number does not go on with it. -/
def NumberEnds (text : List Char) : Prop := ∀ c ∈ text.head?, isNumberChar c = false

theorem readNumber_print (n : N) {text : List Char} (h : NumberEnds text) :
    readNumber nums (nums.print n ++ text) = some (.number n, text) := by
  have hrest : text.takeWhile isNumberChar = [] ∧ text.dropWhile isNumberChar = text := by
    cases text with
    | nil => exact ⟨rfl, rfl⟩
    | cons c text =>
      have hc := h c rfl
      simp [hc]
  rw [readNumber, List.takeWhile_append_of_pos (nums.chars n), List.dropWhile_append_of_pos (nums.chars n),
    hrest.1, hrest.2, List.append_nil, nums.read_print]
  rfl

theorem print_length_pos (j : Json N) : 0 < (j.print nums).length := by
  obtain ⟨c, text, hprint, -⟩ := j.print_head nums
  rw [hprint]
  exact Nat.succ_pos _

theorem printElems_ends (xs : List (Json N)) (text : List Char) :
    NumberEnds (printElems nums xs ++ text) := by
  cases xs <;> (rw [printElems]; intro c hc; cases hc; decide)

theorem printMembers_ends (ms : List (List UInt16 × Json N)) (text : List Char) :
    NumberEnds (printMembers nums ms ++ text) := by
  cases ms <;> (rw [printMembers]; intro c hc; cases hc; decide)

theorem readMember_print (k : List UInt16) {v : Json N} {fuel : Nat} {text : List Char}
    (hv : readValue nums fuel (v.print nums ++ text) = some (v, text)) :
    readMember nums (fuel + 1) (quote k ++ ':' :: (v.print nums ++ text)) = some ((k, v), text) := by
  obtain ⟨quoted, hquote, hread⟩ := readString_quote k (':' :: (v.print nums ++ text))
  rw [readMember, hquote, expect_self (by decide), Option.bind_some, hread, Option.bind_some,
    expect_self (by decide), Option.bind_some, hv]
  rfl

mutual

/-- A printed value is read back, and what follows it is left. -/
theorem readValue_print : ∀ (j : Json N) (fuel : Nat) (text : List Char), j.Distinct →
    (j.print nums).length ≤ fuel → NumberEnds text →
    readValue nums fuel (j.print nums ++ text) = some (j, text)
  | j, 0, text, _, hfuel, _ => absurd hfuel (Nat.not_le.mpr (j.print_length_pos nums))
  | .null, fuel + 1, text, _, _, _ => by
    rw [print, readValue, List.cons_append, skipBlanks_cons (by decide)]
    rfl
  | .bool true, fuel + 1, text, _, _, _ => by
    rw [print, readValue, List.cons_append, skipBlanks_cons (by decide)]
    rfl
  | .bool false, fuel + 1, text, _, _, _ => by
    rw [print, readValue, List.cons_append, skipBlanks_cons (by decide)]
    rfl
  | .number n, fuel + 1, text, _, _, hends => by
    obtain ⟨c, more, hprint, hc⟩ := nums.head n
    have hne : ∀ d ∈ ['"', '[', '{', 't', 'f', 'n'], c ≠ d := by
      rintro d hd rfl
      simp only [List.mem_cons, List.not_mem_nil, or_false] at hd
      rcases hd with rfl | rfl | rfl | rfl | rfl | rfl <;> revert hc <;> decide
    have hblank : isBlank c = false := Starts.not_blank (hc.imp (by rintro rfl; simp) id)
    rw [print, ← readNumber_print nums n hends, hprint, readValue, List.cons_append,
      skipBlanks_cons hblank]
    dsimp only
    rw [if_neg (hne _ (by simp)), if_neg (hne _ (by simp)), if_neg (hne _ (by simp)),
      if_neg (hne _ (by simp)), if_neg (hne _ (by simp)), if_neg (hne _ (by simp))]
  | .string s, fuel + 1, text, _, _, _ => by
    obtain ⟨quoted, hquote, hread⟩ := readString_quote s text
    rw [print, hquote, readValue, skipBlanks_cons (by decide)]
    dsimp only
    rw [if_pos rfl, hread]
    rfl
  | .array [], fuel + 1, text, _, _, _ => by
    rw [print, readValue, List.cons_append, skipBlanks_cons (by decide)]
    rfl
  | .array (x :: xs), fuel + 1, text, hd, hfuel, hends => by
    rw [print, List.length_cons, List.length_append] at hfuel
    have hx := readValue_print x fuel (printElems nums xs ++ text) hd.1 (by omega)
      (printElems_ends nums xs text)
    have hxs := readElems_print xs fuel text hd.2 (by omega)
    rw [print, readValue, List.cons_append, List.append_assoc, skipBlanks_cons (by decide)]
    dsimp only
    rw [if_neg (by decide), if_pos rfl, expect_print nums (by simp), hx, Option.bind_some, hxs]
    rfl
  | .object [], fuel + 1, text, _, _, _ => by
    rw [print, readValue, List.cons_append, skipBlanks_cons (by decide)]
    rfl
  | .object ((k, v) :: ms), fuel + 1, text, hd, hfuel, hends => by
    rw [print, List.length_cons, List.length_append, List.length_cons, List.length_append] at hfuel
    obtain ⟨hnames, hdv, hdms⟩ := hd
    have hms := readMembers_print ms fuel text hdms (by omega)
    obtain ⟨fuel, rfl⟩ : ∃ n, fuel = n + 1 := ⟨fuel - 1, by omega⟩
    have hv := readValue_print v fuel (printMembers nums ms ++ text) hdv (by omega)
      (printMembers_ends nums ms text)
    obtain ⟨quoted, hquote⟩ := quote_head k
    have hclose : expect '}' (quote k ++ ':' :: (v.print nums ++ (printMembers nums ms ++ text))) = none := by
      rw [hquote, List.cons_append, expect_other (by decide) (by decide)]
    rw [print, readValue, List.cons_append, List.append_assoc, List.cons_append, List.append_assoc,
      skipBlanks_cons (by decide)]
    dsimp only
    rw [if_neg (by decide), if_neg (by decide), if_pos rfl, hclose, readMember_print nums k hv,
      Option.bind_some, hms, Option.map_some, foldl_setMember _ _ hnames]
    rfl

theorem readElems_print : ∀ (xs : List (Json N)) (fuel : Nat) (text : List Char), DistinctElems xs →
    (printElems nums xs).length ≤ fuel →
    readElems nums fuel (printElems nums xs ++ text) = some (xs, text)
  | [], fuel + 1, text, _, _ => by
    rw [printElems, readElems, List.cons_append, expect_self (by decide)]
    rfl
  | x :: xs, fuel + 1, text, hd, hfuel => by
    rw [printElems, List.length_cons, List.length_append] at hfuel
    have hx := readValue_print x fuel (printElems nums xs ++ text) hd.1 (by omega)
      (printElems_ends nums xs text)
    have hxs := readElems_print xs fuel text hd.2 (by omega)
    rw [printElems, readElems, List.cons_append, List.append_assoc,
      expect_other (by decide) (by decide)]
    dsimp only
    rw [expect_self (by decide), Option.bind_some, hx, Option.bind_some, hxs]
    rfl
  | [], 0, text, _, hfuel => absurd hfuel (by simp [printElems])
  | x :: xs, 0, text, _, hfuel => absurd hfuel (by simp [printElems])

theorem readMembers_print : ∀ (ms : List (List UInt16 × Json N)) (fuel : Nat) (text : List Char),
    DistinctMembers ms → (printMembers nums ms).length ≤ fuel →
    readMembers nums fuel (printMembers nums ms ++ text) = some (ms, text)
  | [], fuel + 1, text, _, _ => by
    rw [printMembers, readMembers, List.cons_append, expect_self (by decide)]
    rfl
  | (k, v) :: ms, fuel + 1, text, hd, hfuel => by
    rw [printMembers, List.length_cons, List.length_append, List.length_cons, List.length_append]
      at hfuel
    have hms := readMembers_print ms fuel text hd.2 (by omega)
    obtain ⟨fuel, rfl⟩ : ∃ n, fuel = n + 1 := ⟨fuel - 1, by omega⟩
    have hv := readValue_print v fuel (printMembers nums ms ++ text) hd.1 (by omega)
      (printMembers_ends nums ms text)
    rw [printMembers, readMembers, List.cons_append, List.append_assoc, List.cons_append,
      List.append_assoc, expect_other (by decide) (by decide)]
    dsimp only
    rw [expect_self (by decide), Option.bind_some, readMember_print nums k hv, Option.bind_some, hms]
    rfl
  | [], 0, text, _, hfuel => absurd hfuel (by simp [printMembers])
  | (k, v) :: ms, 0, text, _, hfuel => absurd hfuel (by simp [printMembers])

end

/-- Parsing undoes printing. -/
theorem parse_print {j : Json N} (hd : j.Distinct) : parse nums (j.print nums) = some j := by
  have hread := j.readValue_print nums ((j.print nums).length + 1) [] hd (Nat.le_succ _)
    (fun c hc => by cases hc)
  rw [List.append_nil] at hread
  rw [parse, hread]
  rfl

theorem parse_nil : parse nums [] = none := rfl

end Json

end Qtalk.Lib
