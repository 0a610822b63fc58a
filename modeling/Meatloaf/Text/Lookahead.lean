import Mathlib.Data.List.Infix
import Mathlib.Tactic.SplitIfs
import Meatloaf.Lib.While
import Meatloaf.Text.U8Char

/-! `mstr::toPETSCII2` with the bytes it looks at. The first byte of a character says how many there are of
it, and the end of the string is tested only behind them. -/
namespace Meatloaf

open Lib

/- The bytes that `fromCharArray` looks at, counted from its reader. -/
def U8Char.examined (reader : Str) : List Nat :=
  let byte := (reader.getD 0 0).toNat
  if byte ≤ 0x7f then [0]
  else if byte &&& 0b11100000 = 0b11000000 then [0, 1]
  else if byte &&& 0b11110000 = 0b11100000 then [0, 1, 2]
  else [0]

/-- The variables of `toPETSCII2`: how far the reader has come, and what it has looked at on its way. -/
structure Conversion where
  utfInput : Nat := 0
  petsciiString : Str := []
  examined : List Nat := []

/- A pass of the loop. -/
def Conversion.turn (utfInputString : Str) (c : Conversion) : Option Conversion :=
  if c.utfInput < utfInputString.length then
    let reader := utfInputString.drop c.utfInput
    let u8char := U8Char.fromCharArray reader
    some ⟨c.utfInput + u8char.2, c.petsciiString ++ [U8Char.toPetscii u8char.1],
      c.examined ++ (U8Char.examined reader).map (c.utfInput + ·)⟩
  else none

/-- The scan ends after at most one character for each byte, and has looked at no byte behind the terminator. -/
def StaysInside (s : Str) : Prop :=
  ∃ n c, n ≤ s.length ∧ Lib.pass (Conversion.turn s) n {} = some c ∧ c.turn s = none ∧ ∀ i ∈ c.examined, i ≤ s.length

/-- How many bytes a first byte announces. -/
def leadSize (b : UInt8) : Nat :=
  if b ≤ 0x7f then 1 else if b ≤ 0xbf then 1 else if b ≤ 0xdf then 2 else if b ≤ 0xef then 3 else 1

/-- A string of whole characters: behind each first byte there are as many others as it announces. -/
inductive Whole : Str → Prop
  | nil : Whole []
  | char {b : UInt8} {others rest : Str} (long : others.length + 1 = leadSize b) (more : Whole rest) :
    Whole (b :: (others ++ rest))

variable {s u rest : Str} {b : UInt8} {c d : Conversion}

theorem leadSize_three : leadSize b = 3 ↔ 0xe0 ≤ b ∧ b ≤ 0xef := by
  simp only [leadSize, UInt8.le_iff_toNat_le, UInt8.reduceToNat]
  split_ifs <;> omega

theorem leadSize_bounds (b : UInt8) : 1 ≤ leadSize b ∧ leadSize b ≤ 3 := by
  rw [leadSize]
  split_ifs <;> decide

/- As many bytes are looked at as are taken. -/
theorem fromCharArray_size (b : UInt8) (rest : Str) :
    (U8Char.fromCharArray (b :: rest)).2 = leadSize b ∧ U8Char.examined (b :: rest) = List.range (leadSize b) := by
  have masks : ∀ n < 256, leadSize (UInt8.ofNat n) =
      if n ≤ 0x7f then 1 else if n &&& 0b11100000 = 0b11000000 then 2
      else if n &&& 0b11110000 = 0b11100000 then 3 else 1 := by decide +kernel
  have lead := masks b.toNat b.toNat_lt
  rw [UInt8.ofNat_toNat] at lead
  rw [lead]
  simp only [U8Char.fromCharArray, U8Char.examined, List.getD_cons_zero]
  split
  · exact ⟨rfl, rfl⟩
  · split
    · exact ⟨rfl, rfl⟩
    · split <;> exact ⟨rfl, rfl⟩

/-- A pass takes the bytes that the first one announces. -/
theorem turn_char (here : s.drop c.utfInput = b :: rest) :
    ∃ d, c.turn s = some d ∧ d.utfInput = c.utfInput + leadSize b ∧
      d.examined = c.examined ++ (List.range (leadSize b)).map (c.utfInput + ·) := by
  have inside : c.utfInput < s.length := by
    have length := congrArg List.length here
    rw [List.length_drop, List.length_cons] at length
    omega
  obtain ⟨size, examined⟩ := fromCharArray_size b rest
  rw [Conversion.turn, if_pos inside, here]
  exact ⟨_, rfl, by rw [size], by rw [examined]⟩

theorem Whole.snoc {others : Str} (whole : Whole u) (long : others.length + 1 = leadSize b) :
    Whole (u ++ b :: others) := by
  induction whole with
  | nil => simpa using Whole.char long .nil
  | char long' more ih => simpa using Whole.char long' ih

/-- Behind whole characters the string has one byte more, and that announces two others. -/
def CutOff (s : Str) : Prop := ∃ u b, s = u ++ [b] ∧ Whole u ∧ 0xe0 ≤ b ∧ b ≤ 0xef

/- What holds at the start of each pass. -/
structure Tracked (s : Str) (c : Conversion) : Prop where
  whole : c.utfInput ≤ s.length → Whole (s.take c.utfInput)
  below : ∀ i ∈ c.examined, i < c.utfInput
  ahead : s.length + 1 < c.utfInput → CutOff s

theorem Tracked.start (s : Str) : Tracked s {} where
  whole _ := .nil
  below _ none := absurd none List.not_mem_nil
  ahead far := absurd far (Nat.not_lt_zero _)

theorem Tracked.turn (tracked : Tracked s c) (next : c.turn s = some d) :
    Tracked s d ∧ s.length - d.utfInput < s.length - c.utfInput := by
  have inside : c.utfInput < s.length := by
    by_contra outside
    rw [Conversion.turn, if_neg outside] at next
    cases next
  have here := List.drop_eq_getElem_cons inside
  obtain ⟨d', same, moved, examined⟩ := turn_char here
  obtain rfl : d = d' := Option.some.inj (next.symm.trans same)
  have bounds := leadSize_bounds s[c.utfInput]
  have whole := tracked.whole inside.le
  refine ⟨⟨fun still => ?_, fun i member => ?_, fun far => ?_⟩, by omega⟩
  · have cut : s.take d.utfInput = s.take c.utfInput ++ (s.drop c.utfInput).take (leadSize s[c.utfInput]) := by
      rw [moved, List.take_add]
    obtain ⟨size, same⟩ : ∃ size, leadSize s[c.utfInput] = size + 1 := ⟨leadSize s[c.utfInput] - 1, by omega⟩
    rw [cut, here, same, List.take_succ_cons]
    apply whole.snoc
    rw [same, List.length_take, List.length_drop]
    omega
  · rw [examined, List.mem_append, List.mem_map] at member
    rcases member with before | ⟨j, listed, rfl⟩
    · have := tracked.below i before
      omega
    · have := List.mem_range.mp listed
      omega
  · have last : c.utfInput + 1 = s.length := by omega
    refine ⟨s.take c.utfInput, s[c.utfInput], ?_, whole, leadSize_three.mp (by omega)⟩
    rw [← List.take_succ_eq_append_getElem inside, last, List.take_length]

/-- Whole characters are taken one after the other. -/
theorem Whole.taken (whole : Whole u) (here : s.drop c.utfInput = u ++ rest) :
    ∃ k d, Lib.pass (Conversion.turn s) k c = some d ∧ d.utfInput = c.utfInput + u.length := by
  induction whole generalizing c with
  | nil => exact ⟨0, c, rfl, rfl⟩
  | @char _ _ more long _ ih =>
    rw [List.cons_append] at here
    obtain ⟨d, next, moved, -⟩ := turn_char here
    have behind : s.drop d.utfInput = more ++ rest := by
      rw [moved, ← List.drop_drop, here, ← long, List.drop_succ_cons, List.append_assoc, List.drop_left' rfl]
    obtain ⟨k, e, reached, far⟩ := ih behind
    refine ⟨k + 1, e, ?_, ?_⟩
    · rw [Lib.pass, next]
      exact reached
    · rw [far, moved, ← long, List.length_cons, List.length_append]
      omega

theorem turn_none : c.turn s = none ↔ s.length ≤ c.utfInput := by
  rw [Conversion.turn, ite_eq_right_iff, ← Nat.not_lt]
  simp

/-- The scan ends. -/
theorem conversion_ends (s : Str) :
    ∃ n c, n ≤ s.length ∧ Lib.pass (Conversion.turn s) n {} = some c ∧ c.turn s = none ∧ Tracked s c := by
  have keeps (c d : Conversion) : Tracked s c → c.turn s = some d →
      Tracked s d ∧ s.length - d.utfInput < s.length - c.utfInput := Tracked.turn
  have ends := loop_ends (fun c => s.length - c.utfInput) keeps (Tracked.start s) (Nat.lt_succ_self _)
  obtain ⟨c, left⟩ := Option.isSome_iff_exists.mp ends
  obtain ⟨n, few, reached, last⟩ := pass_of_loop left
  exact ⟨n, c, Nat.le_of_lt_succ few, reached, last,
    pass_keeps (fun c d tracked next => (keeps c d tracked next).1) (Tracked.start s) reached⟩

/- What the loop still puts behind the text it has. -/
theorem loop_text {fuel k : Nat} (left : loop (Conversion.turn s) fuel c = some d) (enough : s.length - c.utfInput ≤ k) :
    d.petsciiString = c.petsciiString ++ scan nextPetscii k (s.drop c.utfInput) := by
  induction fuel generalizing c k with
  | zero => cases left
  | succ fuel ih =>
    rw [loop] at left
    by_cases inside : c.utfInput < s.length
    · obtain ⟨k, rfl⟩ : ∃ j, k = j + 1 := ⟨k - 1, by omega⟩
      have here := List.drop_eq_getElem_cons inside
      have size := (fromCharArray_size s[c.utfInput] (s.drop (c.utfInput + 1))).1
      have bounds := leadSize_bounds s[c.utfInput]
      rw [Conversion.turn, if_pos inside] at left
      rw [here] at left ⊢
      have rest := ih left (k := k) (by dsimp only; omega)
      rw [rest, scan, nextPetscii, ← here, List.drop_drop, List.append_assoc]
      rfl
    · rw [turn_none.mpr (Nat.le_of_not_lt inside)] at left
      obtain rfl := Option.some.inj left
      rw [List.drop_of_length_le (Nat.le_of_not_lt inside), scan_nil, List.append_nil]

/-- The scan has the text of `toPETSCII2`. -/
theorem conversion_text {n : Nat} (reached : Lib.pass (Conversion.turn s) n {} = some c) (last : c.turn s = none) :
    c.petsciiString = toPETSCII2 s :=
  loop_text (loop_of_pass reached last) (Nat.le_refl _)

/-- The conversion stays inside a string if and only if the last byte is not a first one that announces two others. -/
theorem staysInside_iff (s : Str) : StaysInside s ↔ ¬ CutOff s := by
  constructor
  · rintro ⟨n, c, -, reached, last, inside⟩ ⟨u, b, rfl, whole, three⟩
    obtain ⟨k, d, there, at_end⟩ := whole.taken (c := {}) rfl
    have here : (u ++ [b]).drop d.utfInput = b :: [] := by
      rw [at_end]
      exact List.drop_left' (Nat.zero_add _).symm
    obtain ⟨e, next, moved, examined⟩ := turn_char here
    rw [leadSize_three.mpr three] at moved examined
    have ended : e.turn (u ++ [b]) = none := by
      rw [turn_none, List.length_append, List.length_singleton, moved, at_end]
      omega
    have there' : Lib.pass (Conversion.turn (u ++ [b])) (k + 1) {} = some e := by
      rw [pass_succ, there]
      exact next
    obtain rfl := loop_unique (loop_of_pass reached last) (loop_of_pass there' ended)
    have behind := inside (d.utfInput + 2) (by simp [examined])
    rw [List.length_append, List.length_singleton, at_end] at behind
    omega
  · intro whole
    obtain ⟨n, c, few, reached, last, tracked⟩ := conversion_ends s
    refine ⟨n, c, few, reached, last, fun i member => ?_⟩
    have near := Nat.not_lt.mp (mt tracked.ahead whole)
    have := tracked.below i member
    omega

/-- A name of one byte that announces two others. -/
theorem lead_looks_behind : ¬ StaysInside [0xe0] := by
  rw [staysInside_iff]
  exact not_not.mpr ⟨[], 0xe0, rfl, .nil, by decide⟩

end Meatloaf
