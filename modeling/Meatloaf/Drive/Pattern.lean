import Mathlib.Algebra.GroupWithZero.Nat
import Meatloaf.Lib.While
import Meatloaf.Text.Names

/-! `isMatch`: which names of a directory the rename and the scratch command take. -/
namespace Meatloaf.Drive

open Lib

def tilde : UInt8 := 0x7e
def pi : UInt8 := 0xff

/-- A pattern of the drive: nothing counts behind a `*`. -/
def Matches : Str → Str → Prop
  | [], name => name = []
  | p :: pattern, name => p = star ∨
      ∃ c rest, name = c :: rest ∧ (p = question ∨ p = c ∨ p = pi ∧ c = tilde) ∧ Matches pattern rest

/-- The variables of `isMatch`: `found` is negative while nothing is decided. -/
structure Matching where
  i : UInt8 := 0
  found : Int := -1

/-- A pass of the loop. The byte at the end of a string is its NUL. -/
def Matching.turn (name pattern : Str) (m : Matching) : Option Matching :=
  let p := pattern.getD m.i.toNat 0
  let c := name.getD m.i.toNat 0
  if 0 ≤ m.found then none
  else if p = star then some ⟨m.i + 1, 1⟩
  else if p = 0 ∨ c = 0 then some ⟨m.i + 1, if p = c then 1 else 0⟩
  else if p ≠ question ∧ p ≠ c ∧ ¬ (c = tilde ∧ p &&& 0xff = 0xff) then some ⟨m.i + 1, 0⟩
  else some ⟨m.i + 1, m.found⟩

/-- `isMatch(name, pattern)`, if `fuel` tests are enough. -/
def isMatch (fuel : Nat) (name pattern : Str) : Option Bool :=
  (loop (Matching.turn name pattern) fuel {}).map fun m => m.found == 1

/- Nothing is decided by these two bytes. -/
def GoesOn (p c : UInt8) : Prop := p ≠ star ∧ p ≠ 0 ∧ c ≠ 0 ∧ (p = question ∨ p = c ∨ p = pi ∧ c = tilde)

instance (p c : UInt8) : Decidable (GoesOn p c) := by unfold GoesOn; infer_instance

variable {name pattern : Str}

theorem headD_drop (s : Str) (n : Nat) : (s.drop n).headD 0 = s.getD n 0 := by
  rw [List.headD_eq_head?_getD, List.head?_drop, List.getD_eq_getElem?_getD]

theorem and_ff (p : UInt8) : p &&& 0xff = p := by
  have bits : p.toBitVec &&& 255#8 = p.toBitVec := BitVec.and_allOnes
  exact UInt8.toBitVec_inj.mp bits

theorem turn_found {m : Matching} (decided : 0 ≤ m.found) : m.turn name pattern = none := if_pos decided

/-- A pass that decides nothing goes to the next byte, and the index is a byte itself. -/
theorem turn_goesOn {m : Matching} (open_ : m.found = -1)
    (on : GoesOn (pattern.getD m.i.toNat 0) (name.getD m.i.toNat 0)) :
    m.turn name pattern = some ⟨m.i + 1, -1⟩ := by
  obtain ⟨no_star, no_end, no_end', same⟩ := on
  have undecided : ¬ 0 ≤ m.found := by omega
  rw [Matching.turn, if_neg undecided, if_neg no_star, if_neg (by simp only [no_end, no_end', or_self, not_false_eq_true]),
    if_neg, open_]
  rintro ⟨no_question, other, no_pi⟩
  rcases same with same | same | ⟨is_pi, is_tilde⟩
  · exact no_question same
  · exact other same
  · exact no_pi ⟨is_tilde, (and_ff _).trans is_pi⟩

/-- and another one has the answer for what is left of both strings. -/
theorem turn_decides {m : Matching} (open_ : m.found = -1) (plain : 0 ∉ pattern) (plain' : 0 ∉ name)
    (off : ¬ GoesOn (pattern.getD m.i.toNat 0) (name.getD m.i.toNat 0)) :
    ∃ found : Int, m.turn name pattern = some ⟨m.i + 1, found⟩ ∧ 0 ≤ found ∧
      (found = 1 ↔ Matches (pattern.drop m.i.toNat) (name.drop m.i.toNat)) := by
  have undecided : ¬ 0 ≤ m.found := by omega
  have plain_rest : 0 ∉ pattern.drop m.i.toNat := fun found => plain (List.mem_of_mem_drop found)
  have plain_rest' : 0 ∉ name.drop m.i.toNat := fun found => plain' (List.mem_of_mem_drop found)
  rw [Matching.turn, if_neg undecided]
  rw [← headD_drop, ← headD_drop] at off ⊢
  generalize pattern.drop m.i.toNat = ps at *
  generalize name.drop m.i.toNat = cs at *
  by_cases all : ps.headD 0 = star
  · rw [if_pos all]
    cases ps with
    | nil => cases all
    | cons p ps => exact ⟨1, rfl, by decide, iff_of_true rfl (.inl all)⟩
  rw [if_neg all]
  by_cases ended : ps.headD 0 = 0 ∨ cs.headD 0 = 0
  · rw [if_pos ended]
    refine ⟨_, rfl, by split <;> decide, ?_⟩
    cases ps with
    | nil =>
      cases cs with
      | nil => exact iff_of_true rfl rfl
      | cons c cs =>
        have not_end : (0 : UInt8) ≠ c := fun is_end => plain_rest' (is_end ▸ List.mem_cons_self)
        have wrong : ¬ Matches [] (c :: cs) := List.cons_ne_nil c cs
        simp [wrong, not_end]
    | cons p ps =>
      have not_end : p ≠ 0 := fun is_end => plain_rest (is_end ▸ List.mem_cons_self)
      cases cs with
      | nil =>
        have wrong : ¬ Matches (p :: ps) [] := by
          rintro (is_star | ⟨c, rest, cut, -⟩)
          · exact all is_star
          · cases cut
        simp [wrong, not_end]
      | cons c cs =>
        have not_end' : c ≠ 0 := fun is_end => plain_rest' (is_end ▸ List.mem_cons_self)
        exact absurd ended (not_or.mpr ⟨not_end, not_end'⟩)
  · rw [if_neg ended]
    obtain ⟨not_end, not_end'⟩ := not_or.mp ended
    have differs : ¬ (ps.headD 0 = question ∨ ps.headD 0 = cs.headD 0 ∨ ps.headD 0 = pi ∧ cs.headD 0 = tilde) :=
      fun same => off ⟨all, not_end, not_end', same⟩
    obtain ⟨no_question, other, no_pi⟩ : ps.headD 0 ≠ question ∧ ps.headD 0 ≠ cs.headD 0 ∧
        ¬ (ps.headD 0 = pi ∧ cs.headD 0 = tilde) := by
      simpa only [not_or] using differs
    rw [and_ff, if_pos ⟨no_question, other, fun both => no_pi ⟨both.2, both.1⟩⟩]
    refine ⟨0, rfl, by decide, iff_of_false (by decide) ?_⟩
    cases ps with
    | nil => exact absurd rfl not_end
    | cons p ps =>
      rintro (is_star | ⟨c, rest, rfl, same, -⟩)
      · exact all is_star
      · exact differs same

/-- The two bytes fit and the rest decides. -/
theorem matches_goesOn {n : Nat} (on : GoesOn (pattern.getD n 0) (name.getD n 0)) :
    Matches (pattern.drop n) (name.drop n) ↔ Matches (pattern.drop (n + 1)) (name.drop (n + 1)) := by
  rw [← headD_drop, ← headD_drop] at on
  rw [← List.tail_drop, ← List.tail_drop]
  obtain ⟨no_star, no_end, no_end', same⟩ := on
  generalize pattern.drop n = ps at *
  generalize name.drop n = cs at *
  cases ps with
  | nil => exact absurd rfl no_end
  | cons p ps =>
    cases cs with
    | nil => exact absurd rfl no_end'
    | cons c cs =>
      constructor
      · rintro (is_star | ⟨c', rest, cut, -, matched⟩)
        · exact absurd is_star no_star
        · cases cut
          exact matched
      · intro matched
        exact .inr ⟨c, cs, rfl, same, matched⟩

/- The state in front of pass `n`, if nothing was decided before. -/
theorem pass_goesOn {n : Nat} (on : ∀ i < n, GoesOn (pattern.getD i 0) (name.getD i 0)) (small : n < 2 ^ 8) :
    Lib.pass (Matching.turn name pattern) n {} = some ⟨n.toUInt8, -1⟩ ∧
      (Matches pattern name ↔ Matches (pattern.drop n) (name.drop n)) := by
  induction n with
  | zero => exact ⟨rfl, Iff.rfl⟩
  | succ n ih =>
    obtain ⟨reached, same⟩ := ih (fun i below => on i (by omega)) (by omega)
    have index : n.toUInt8.toNat = n := by
      rw [Nat.toUInt8, UInt8.toNat_ofNat']
      omega
    have here := on n (by omega)
    refine ⟨?_, same.trans (matches_goesOn here)⟩
    rw [pass_succ, reached, Option.bind_some, turn_goesOn rfl (by rw [index]; exact here)]
    congr 2
    apply UInt8.toNat_inj.mp
    rw [UInt8.toNat_add, index, Nat.toUInt8, UInt8.toNat_ofNat']
    rfl

/-- The first two bytes that do not go on decide. -/
theorem isMatch_decided (plain : 0 ∉ pattern) (plain' : 0 ∉ name) {n : Nat} (small : n < 2 ^ 8)
    (on : ∀ i < n, GoesOn (pattern.getD i 0) (name.getD i 0)) (off : ¬ GoesOn (pattern.getD n 0) (name.getD n 0)) :
    ∃ found, isMatch (n + 2) name pattern = some found ∧ (found = true ↔ Matches pattern name) := by
  obtain ⟨reached, same⟩ := pass_goesOn on small
  have index : n.toUInt8.toNat = n := by
    rw [Nat.toUInt8, UInt8.toNat_ofNat']
    omega
  obtain ⟨found, turned, decided, answer⟩ := turn_decides (m := ⟨n.toUInt8, -1⟩) rfl plain plain' (by rw [index]; exact off)
  have left : loop (Matching.turn name pattern) (n + 2) {} = some ⟨n.toUInt8 + 1, found⟩ := by
    apply loop_of_pass
    · rw [pass_succ, reached, Option.bind_some, turned]
    · exact turn_found decided
  refine ⟨found == 1, by rw [isMatch, left]; rfl, ?_⟩
  rw [beq_iff_eq, answer, index, same]

/-- An index that meets no end comes round. -/
theorem isMatch_endless (on : ∀ i < 2 ^ 8, GoesOn (pattern.getD i 0) (name.getD i 0)) (fuel : Nat) :
    isMatch fuel name pattern = none := by
  have next (m : Matching) (open_ : m.found = -1) : ∃ m', m.turn name pattern = some m' ∧ m'.found = -1 :=
    ⟨_, turn_goesOn open_ (on _ m.i.toNat_lt), rfl⟩
  rw [isMatch, loop_endless next rfl]
  rfl

/-- One of the first 256 positions ends the loop. -/
theorem isMatch_ends (plain : 0 ∉ pattern) (plain' : 0 ∉ name)
    (ends : ∃ i < 2 ^ 8, ¬ GoesOn (pattern.getD i 0) (name.getD i 0)) :
    ∃ fuel found, isMatch fuel name pattern = some found ∧ (found = true ↔ Matches pattern name) := by
  have first := Nat.find_spec ends
  have on (i : Nat) (below : i < Nat.find ends) : GoesOn (pattern.getD i 0) (name.getD i 0) := by
    by_contra off
    exact Nat.find_min ends below ⟨below.trans first.1, off⟩
  exact ⟨_, isMatch_decided plain plain' first.1 on first.2⟩

/-- So does the end of a pattern of less than 256 bytes, and a command on the bus has no more of them. -/
theorem isMatch_short (plain : 0 ∉ pattern) (plain' : 0 ∉ name) (short : pattern.length < 2 ^ 8) :
    ∃ fuel found, isMatch fuel name pattern = some found ∧ (found = true ↔ Matches pattern name) := by
  apply isMatch_ends plain plain'
  refine ⟨pattern.length, short, fun on => on.2.1 ?_⟩
  rw [List.getD_eq_default]
  exact Nat.le_refl _

/-- `isMatch` decides whether the pattern matches if one of the first 256 positions ends its loop: a `*` of the
pattern, the end of a string or two bytes that differ. -/
theorem isMatch_correct_iff (plain : 0 ∉ pattern) (plain' : 0 ∉ name) :
    (∃ fuel found, isMatch fuel name pattern = some found ∧ (found = true ↔ Matches pattern name)) ↔
      ∃ i < 2 ^ 8, ¬ GoesOn (pattern.getD i 0) (name.getD i 0) := by
  constructor
  · rintro ⟨fuel, found, matched, -⟩
    by_contra none
    have on (i : Nat) (below : i < 2 ^ 8) : GoesOn (pattern.getD i 0) (name.getD i 0) := by
      by_contra off
      exact none ⟨i, below, off⟩
    rw [isMatch_endless on] at matched
    cases matched
  · exact isMatch_ends plain plain'

theorem isMatch_correct_star :
    ∃ fuel found, isMatch fuel [0x41, 0x42] [0x41, star] = some found ∧
      (found = true ↔ Matches [0x41, star] [0x41, 0x42]) :=
  (isMatch_correct_iff (by decide) (by decide)).mpr ⟨1, by decide, by decide⟩

/-- A pattern of 256 letters and the name it is. -/
theorem isMatch_long_name :
    ¬ ∃ fuel found, isMatch fuel (List.replicate 256 0x41) (List.replicate 256 0x41) = some found ∧
      (found = true ↔ Matches (List.replicate 256 0x41) (List.replicate 256 0x41)) := by
  rintro ⟨fuel, found, matched, -⟩
  rw [isMatch_endless] at matched
  · cases matched
  · intro i below
    have inside : i < 256 := below
    have letter : (List.replicate 256 (0x41 : UInt8)).getD i 0 = 0x41 := by
      rw [List.getD_eq_getElem?_getD, List.getElem?_replicate_of_lt inside, Option.getD_some]
    rw [letter]
    decide

end Meatloaf.Drive
