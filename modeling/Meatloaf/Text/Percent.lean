import Mathlib.Data.List.TakeWhile
import Mathlib.Logic.Function.Basic
import Meatloaf.Lib.While
import Meatloaf.Text.Numbers

/-! `mstr::urlEncode` and `mstr::urlDecode`, which decodes a buffer in place. -/
namespace Meatloaf.Mstr

open Lib

def percent : UInt8 := 0x25
def plus : UInt8 := 0x2B

/- The characters that `urlEncode` leaves: '-', '_', '.', '~', '/' and '+' besides letters and digits. -/
def intact (c : UInt8) : Bool :=
  isalnum c || c == 0x2D || c == 0x5F || c == 0x2E || c == 0x7E || c == slash || c == plus

/- A digit of `std::uppercase << std::hex`. -/
def hexDigit (v : UInt8) : UInt8 := if v < 10 then 0x30 + v else 0x41 + (v - 10)

def encodeChar (c : UInt8) : Str := if intact c then [c] else [percent, hexDigit (c >>> 4), hexDigit (c &&& 0x0F)]

/-- `mstr::urlEncode`. -/
def urlEncode (s : Str) : Str := s.flatMap encodeChar

def isxdigit (c : UInt8) : Bool := isdigit c || (0x41 ≤ c && c ≤ 0x46) || (0x61 ≤ c && c ≤ 0x66)

/-- `mstr::fromHex`. -/
def fromHex (ch : UInt8) : UInt8 :=
  if isdigit ch then ch - 0x30 else (if 0x41 ≤ ch ∧ ch ≤ 0x5A then ch + 0x20 else ch) - 0x61 + 10

def hexByte (h l : UInt8) : UInt8 := fromHex h <<< 4 ||| fromHex l

/- The buffer, and the places that are read and written. -/
structure Decoder where
  s : Nat → UInt8
  i : Nat := 0
  ii : Nat := 0

/- A pass of the loop of `urlDecode(char *, size_t, bool)`. -/
def decodeStep (size : Nat) (alter_pluses : Bool) (d : Decoder) : Option Decoder :=
  if d.s d.i = 0 ∨ size ≤ d.i then none
  else if alter_pluses = true ∧ d.s d.i = plus then
    some { s := Function.update d.s d.ii 0x20, i := d.i + 1, ii := d.ii + 1 }
  else if d.s d.i = percent ∧ isxdigit (d.s (d.i + 1)) ∧ isxdigit (d.s (d.i + 2)) ∧ d.i + 2 < size then
    some { s := Function.update d.s d.ii (hexByte (d.s (d.i + 1)) (d.s (d.i + 2))), i := d.i + 3, ii := d.ii + 1 }
  else some { s := Function.update d.s d.ii (d.s d.i), i := d.i + 1, ii := d.ii + 1 }

/- The string in a buffer. -/
def cString (size : Nat) (s : Nat → UInt8) : Str := ((List.range size).map s).takeWhile (· ≠ 0)

/-- `mstr::urlDecode(s, alter_pluses)`: the buffer is the string and a NUL, and its string is the result. -/
def urlDecode (s : Str) (alter_pluses : Bool := true) : Str :=
  if s = [] then s
  else
    let d := (loop (decodeStep (s.length + 1) alter_pluses) (s.length + 2) { s := fun k => s.getD k 0 }).getD
      { s := fun k => s.getD k 0 }
    cString (s.length + 1) (Function.update d.s d.ii 0)

/-- What is decoded, read from the front. -/
def decoded (alter_pluses : Bool) : Str → Str
  | 0x25 :: h :: l :: rest =>
    if isxdigit h ∧ isxdigit l then hexByte h l :: decoded alter_pluses rest
    else percent :: decoded alter_pluses (h :: l :: rest)
  | c :: rest => (if alter_pluses = true ∧ c = plus then 0x20 else c) :: decoded alter_pluses rest
  | [] => []

section Encoded

variable {alter_pluses : Bool} {rest : Str}

theorem decoded_plain {c : UInt8} (plain : c ≠ percent) :
    decoded alter_pluses (c :: rest) = (if alter_pluses = true ∧ c = plus then 0x20 else c) :: decoded alter_pluses rest := by
  rw [decoded]
  rintro h l more rfl
  exact absurd rfl plain

/-- A character that was encoded is read back, unless it is taken for a blank. -/
theorem decoded_encodeChar (c : UInt8) :
    decoded alter_pluses (encodeChar c ++ rest) =
      (if alter_pluses = true ∧ c = plus then 0x20 else c) :: decoded alter_pluses rest := by
  rw [encodeChar]
  split
  · rename_i left
    have plain : c ≠ percent := by
      rintro rfl
      exact absurd left (by decide)
    rw [List.singleton_append, decoded_plain plain]
  · rename_i coded
    have digits : isxdigit (hexDigit (c >>> 4)) ∧ isxdigit (hexDigit (c &&& 0x0F)) ∧
        hexByte (hexDigit (c >>> 4)) (hexDigit (c &&& 0x0F)) = c :=
      forall_byte (fun c => isxdigit (hexDigit (c >>> 4)) ∧ isxdigit (hexDigit (c &&& 0x0F)) ∧
        hexByte (hexDigit (c >>> 4)) (hexDigit (c &&& 0x0F)) = c) (by decide +kernel) c
    have other : c ≠ plus := by
      rintro rfl
      exact coded (by decide)
    rw [if_neg fun pluses => other pluses.2]
    simp only [List.cons_append, List.nil_append, percent, decoded, digits.1, digits.2.1, and_self, if_true, digits.2.2]

theorem decoded_urlEncode (s : Str) :
    decoded alter_pluses (urlEncode s) = s.map fun c => if alter_pluses = true ∧ c = plus then 0x20 else c := by
  induction s with
  | nil => rfl
  | cons c s ih =>
    rw [urlEncode, List.flatMap_cons, decoded_encodeChar, ← urlEncode, ih, List.map_cons]

theorem decoded_percent (rest : Str) :
    decoded alter_pluses (percent :: rest) =
      if isxdigit (rest.getD 0 0) ∧ isxdigit (rest.getD 1 0) then
        hexByte (rest.getD 0 0) (rest.getD 1 0) :: decoded alter_pluses (rest.drop 2)
      else percent :: decoded alter_pluses rest := by
  have other : ¬ (alter_pluses = true ∧ (percent : UInt8) = plus) := fun pluses => absurd pluses.2 (by decide)
  match rest with
  | [] => simp [percent, decoded, isxdigit, isdigit, plus]
  | [h] =>
    have short : isxdigit 0 = false := by decide
    rw [percent, decoded, ← percent, if_neg other]
    · simp [short]
    · intro h l more _ same
      cases same
  | h :: l :: rest => rw [percent, decoded]; rfl

end Encoded

section InPlace

variable {s : Str} {alter_pluses : Bool} {d e : Decoder}

/-- What was written is what the characters that were read decode to, and the others are still there. -/
structure Reads (s : Str) (alter_pluses : Bool) (d : Decoder) : Prop where
  inside : d.i ≤ s.length
  behind : d.ii ≤ d.i
  ahead : ∀ k, d.i ≤ k → d.s k = s.getD k 0
  out : decoded alter_pluses s = (List.range d.ii).map d.s ++ decoded alter_pluses (s.drop d.i)

theorem reads_start (s : Str) (alter_pluses : Bool) : Reads s alter_pluses { s := fun k => s.getD k 0 } :=
  ⟨Nat.zero_le _, Nat.le_refl _, fun _ _ => rfl, rfl⟩

/- A character is written. -/
theorem Reads.write (reads : Reads s alter_pluses d) {v : UInt8} {n : Nat} (some : 0 < n) (room : d.i + n ≤ s.length)
    (next : decoded alter_pluses (s.drop d.i) = v :: decoded alter_pluses (s.drop (d.i + n))) :
    Reads s alter_pluses { s := Function.update d.s d.ii v, i := d.i + n, ii := d.ii + 1 } where
  inside := room
  behind := by
    have := reads.behind
    dsimp only
    omega
  ahead k later := by
    have := reads.behind
    dsimp only at later ⊢
    rw [Function.update_of_ne (by omega)]
    exact reads.ahead k (by omega)
  out := by
    have kept : (List.range d.ii).map (Function.update d.s d.ii v) = (List.range d.ii).map d.s := by
      apply List.map_congr_left
      intro k member
      exact Function.update_of_ne (Nat.ne_of_lt (List.mem_range.mp member)) v d.s
    rw [reads.out, next, List.range_succ, List.map_append, kept]
    simp

/- No digit stands behind the string. -/
theorem Reads.digit (reads : Reads s alter_pluses d) {k : Nat} (later : d.i ≤ k) (digit : isxdigit (d.s k) = true) :
    k < s.length := by
  by_contra out
  rw [reads.ahead k later, List.getD_eq_default _ _ (by omega)] at digit
  cases digit

/-- A pass decodes one character of the string. -/
theorem Reads.step (reads : Reads s alter_pluses d) (next : decodeStep (s.length + 1) alter_pluses d = some e) :
    Reads s alter_pluses e ∧ d.i < e.i := by
  rw [decodeStep] at next
  split at next
  · cases next
  · rename_i more
    rw [not_or] at more
    have here := reads.ahead d.i (Nat.le_refl _)
    have inside : d.i < s.length := by
      by_contra out
      exact more.1 (by rw [here, List.getD_eq_default _ _ (by omega)])
    have value : s.getD d.i 0 = s[d.i] := by
      rw [List.getD_eq_getElem?_getD, List.getElem?_eq_getElem inside, Option.getD_some]
    have cut : s.drop d.i = d.s d.i :: s.drop (d.i + 1) := by
      rw [here, value, List.drop_eq_getElem_cons inside]
    have later (k : Nat) : (s.drop (d.i + 1)).getD k 0 = d.s (d.i + (k + 1)) := by
      rw [reads.ahead _ (by omega), List.getD_eq_getElem?_getD, List.getD_eq_getElem?_getD, List.getElem?_drop]
      congr 2
      omega
    have first := later 0
    have second := later 1
    split at next
    · rename_i pluses
      obtain rfl := Option.some.inj next
      refine ⟨reads.write Nat.one_pos inside ?_, Nat.lt_succ_self _⟩
      rw [cut, decoded_plain (by rw [pluses.2]; decide), if_pos pluses]
    · rename_i same
      split at next
      · rename_i coded
        obtain rfl := Option.some.inj next
        refine ⟨reads.write (by decide) (reads.digit (by omega) coded.2.2.1) ?_, Nat.lt_add_of_pos_right (by decide)⟩
        rw [cut, coded.1, decoded_percent, first, second, if_pos ⟨coded.2.1, coded.2.2.1⟩, List.drop_drop]
      · rename_i plain
        obtain rfl := Option.some.inj next
        refine ⟨reads.write Nat.one_pos inside ?_, Nat.lt_succ_self _⟩
        by_cases sign : d.s d.i = percent
        · -- a sign that no two digits follow
          rw [cut, sign, decoded_percent, first, second, if_neg]
          exact fun digits => plain ⟨sign, digits.1, digits.2, Nat.lt_succ_of_lt (reads.digit (by omega) digits.2)⟩
        · rw [cut, decoded_plain sign, if_neg same]

/- The string in a buffer ends at the first NUL. -/
theorem cString_ended {size n : Nat} {b : Nat → UInt8} (inside : n < size) :
    cString size (Function.update b n 0) = ((List.range n).map b).takeWhile (· ≠ 0) := by
  have kept : (List.range n).map (Function.update b n 0) = (List.range n).map b := by
    apply List.map_congr_left
    intro k member
    exact Function.update_of_ne (Nat.ne_of_lt (List.mem_range.mp member)) 0 b
  obtain ⟨m, rfl⟩ : ∃ m, size = n + (m + 1) := ⟨size - n - 1, by omega⟩
  rw [cString, List.range_add, List.range_succ_eq_map, List.map_append, kept, List.takeWhile_append]
  split
  · rename_i whole
    have all := (List.takeWhile_prefix (l := (List.range n).map b) (· ≠ 0)).eq_of_length whole
    rw [all]
    simp
  · rfl

/-- `urlDecode` decodes the string in front of a NUL that is in it, and ends. -/
theorem urlDecode_eq (plain : 0 ∉ s) (alter_pluses : Bool) :
    urlDecode s alter_pluses = (decoded alter_pluses s).takeWhile (· ≠ 0) := by
  rw [urlDecode]
  split
  · rename_i empty
    subst empty
    rfl
  · have ends := loop_ends (I := Reads s alter_pluses) (fun d => s.length - d.i)
      (fun d e reads next => ⟨(reads.step next).1, by
        have := (reads.step next).2
        have := (reads.step next).1.inside
        omega⟩) (reads_start s alter_pluses) (show s.length - 0 < s.length + 2 by omega)
    obtain ⟨d, left⟩ := Option.isSome_iff_exists.mp ends
    obtain ⟨reads, last⟩ := loop_keeps (fun d e reads next => (reads.step next).1) (reads_start s alter_pluses) left
    have ended : d.i = s.length := by
      rw [decodeStep] at last
      split at last
      · rename_i stop
        rcases stop with nul | outside
        · by_contra more
          have inside : d.i < s.length := Nat.lt_of_le_of_ne reads.inside more
          rw [reads.ahead d.i (Nat.le_refl _), List.getD_eq_getElem?_getD, List.getElem?_eq_getElem inside] at nul
          exact plain (nul ▸ List.getElem_mem inside)
        · have := reads.inside
          omega
      · split at last
        · cases last
        · split at last <;> cases last
    have out := reads.out
    rw [ended, List.drop_length, decoded, List.append_nil] at out
    rw [left, Option.getD_some, out]
    exact cString_ended (by have := reads.behind; omega)

end InPlace

theorem urlEncode_plain (s : Str) : 0 ∉ urlEncode s := by
  intro member
  obtain ⟨c, -, inside⟩ := List.mem_flatMap.mp member
  exact forall_byte (fun c => 0 ∉ encodeChar c) (by decide +kernel) c inside

/-- What was encoded comes back exactly when it has no plus sign. -/
theorem urlDecode_urlEncode_iff (s : Str) (plain : 0 ∉ s) : urlDecode (urlEncode s) = s ↔ plus ∉ s := by
  have read : urlDecode (urlEncode s) = s.map fun c => if c = plus then 0x20 else c := by
    rw [urlDecode_eq (urlEncode_plain s), decoded_urlEncode]
    simp only [true_and]
    rw [List.takeWhile_eq_self_iff]
    intro c member
    obtain ⟨b, inside, rfl⟩ := List.mem_map.mp member
    have other : b ≠ 0 := fun zero => plain (zero ▸ inside)
    split
    · rfl
    · simpa using other
  rw [read]
  constructor
  · intro same member
    obtain ⟨i, inside, here⟩ := List.getElem_of_mem member
    have blank := List.getElem_of_eq same (i := i) (by simpa using inside)
    rw [List.getElem_map, here, if_pos rfl] at blank
    exact absurd blank (by decide)
  · intro none
    have kept : ∀ c ∈ s, (if c = plus then 0x20 else c) = c := by
      intro c member
      apply if_neg
      rintro rfl
      exact none member
    exact (List.map_congr_left kept).trans (List.map_id s)

theorem urlDecode_urlEncode_letters : urlDecode (urlEncode [0x61, 0x20, 0x25]) = [0x61, 0x20, 0x25] ↔
    plus ∉ [0x61, 0x20, 0x25] :=
  urlDecode_urlEncode_iff _ (by decide)

/-- "+" comes back as a blank. -/
theorem plus_lost : urlDecode (urlEncode [plus]) = [0x20] ∧ urlDecode (urlEncode [plus]) ≠ [plus] := by
  decide

/-- With the pluses left alone every string comes back. -/
theorem urlDecode_urlEncode_pluses (s : Str) (plain : 0 ∉ s) : urlDecode (urlEncode s) false = s := by
  rw [urlDecode_eq (urlEncode_plain s), decoded_urlEncode]
  simp only [Bool.false_eq_true, false_and, if_false]
  rw [List.map_id', List.takeWhile_eq_self_iff]
  intro c member
  simpa using fun zero : c = 0 => plain (zero ▸ member)

end Meatloaf.Mstr
