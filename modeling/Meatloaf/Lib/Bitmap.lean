import Mathlib.Data.List.Basic
import Mathlib.Data.List.GetD
import Mathlib.Algebra.GroupWithZero.Nat

/-! A row of bytes as a row of bits: bit `i` is bit `i % 8` of byte `i / 8`. The
observations are `test` and the number of set bits; `clear`, `set` and equality of
rows are described by them alone. -/
namespace Meatloaf.Lib.Bitmap

def mask (i : Nat) : UInt8 := 1 <<< UInt8.ofNat (i % 8)

def test (row : List UInt8) (i : Nat) : Bool := row.getD (i / 8) 0 &&& mask i == mask i

def clear (row : List UInt8) (i : Nat) : List UInt8 := row.modify (i / 8) (· &&& ~~~ mask i)

def set (row : List UInt8) (i : Nat) : List UInt8 := row.modify (i / 8) (· ||| mask i)

/- Number of set bits, byte by byte. -/
def count (row : List UInt8) : Nat :=
  (row.map fun b => ((List.range 8).filter fun i => b &&& mask i == mask i).length).sum

theorem mask_toBitVec (i : Nat) : (mask i).toBitVec = BitVec.twoPow 8 (i % 8) := by
  have lt : i % 8 < 8 := Nat.mod_lt _ (by decide)
  unfold mask
  generalize i % 8 = j at lt
  revert j
  decide

/- The comparison against the mask reads one bit. -/
theorem byte_test (b : UInt8) (i : Nat) :
    (b &&& mask i == mask i) = b.toBitVec.getLsbD (i % 8) := by
  have lt : i % 8 < 8 := Nat.mod_lt _ (by decide)
  have masked : (b &&& mask i).toBitVec =
      if b.toBitVec.getLsbD (i % 8) then BitVec.twoPow 8 (i % 8) else 0#8 := by
    rw [UInt8.toBitVec_and, mask_toBitVec, BitVec.and_twoPow]
  have nonzero : BitVec.twoPow 8 (i % 8) ≠ 0#8 := by
    intro h
    have bit := congrArg (fun v => BitVec.getLsbD v (i % 8)) h
    simp [lt] at bit
  rw [Bool.eq_iff_iff, beq_iff_eq, ← UInt8.toBitVec_inj, masked, mask_toBitVec]
  cases b.toBitVec.getLsbD (i % 8) with
  | true => simp
  | false => simpa using nonzero.symm

theorem test_eq (row : List UInt8) (i : Nat) :
    test row i = (row.getD (i / 8) 0).toBitVec.getLsbD (i % 8) := byte_test _ _

theorem getD_modify (row : List UInt8) (f : UInt8 → UInt8) (i j : Nat) :
    (row.modify i f).getD j 0 = if i = j ∧ j < row.length then f (row.getD j 0) else row.getD j 0 := by
  simp only [List.getD_eq_getElem?_getD, List.getElem?_modify]
  by_cases same : i = j
  · by_cases inside : j < row.length
    · simp [same, inside]
    · simp [same, inside]
  · simp [same]

theorem mask_bit (i j : Nat) : (mask i).toBitVec.getLsbD (j % 8) = decide (i % 8 = j % 8) := by
  rw [mask_toBitVec, BitVec.getLsbD_twoPow]
  have lt : i % 8 < 8 := Nat.mod_lt _ (by decide)
  simp [lt]

/-- Clearing changes the bit cleared and no other. -/
theorem test_clear (row : List UInt8) (i j : Nat) :
    test (clear row i) j = (decide (j ≠ i) && test row j) := by
  have lt : j % 8 < 8 := Nat.mod_lt _ (by decide)
  rw [test_eq, test_eq, clear, getD_modify]
  split
  · rename_i h
    rw [UInt8.toBitVec_and, UInt8.toBitVec_not, BitVec.getLsbD_and, BitVec.getLsbD_not, mask_bit]
    by_cases same : j = i
    · simp [same]
    · have other : i % 8 ≠ j % 8 := by omega
      simp [same, other, lt]
  · rename_i h
    by_cases same : j = i
    · have beyond : row.length ≤ j / 8 := by
        subst same
        simpa using h
      rw [List.getD_eq_default _ _ beyond]
      simp
    · simp [same]

theorem test_set (row : List UInt8) (i j : Nat) (inside : i / 8 < row.length) :
    test (set row i) j = (decide (j = i) || test row j) := by
  rw [test_eq, test_eq, set, getD_modify]
  split
  · rename_i h
    rw [UInt8.toBitVec_or, BitVec.getLsbD_or, mask_bit]
    by_cases same : j = i
    · simp [same]
    · have other : i % 8 ≠ j % 8 := by omega
      simp [same, other]
  · rename_i h
    have other : j ≠ i := fun same => h (by rw [same]; exact ⟨rfl, inside⟩)
    simp [other]

theorem test_beyond (row : List UInt8) (i : Nat) (beyond : row.length ≤ i / 8) :
    test row i = false := by
  rw [test_eq, List.getD_eq_default _ _ beyond]
  simp

/-- A byte is determined by its eight bits. -/
theorem byte_ext (row row' : List UInt8) (k : Nat)
    (bits : ∀ i < 8, test row (8 * k + i) = test row' (8 * k + i)) : row.getD k 0 = row'.getD k 0 := by
  rw [← UInt8.toBitVec_inj]
  apply BitVec.eq_of_getLsbD_eq
  intro i lt
  have bit := bits i lt
  rw [test_eq, test_eq, show (8 * k + i) / 8 = k by omega, show (8 * k + i) % 8 = i by omega] at bit
  exact bit

/- The bits behind the first `k` bytes. -/
theorem test_drop (row : List UInt8) (k i : Nat) : test (row.drop k) i = test row (8 * k + i) := by
  have high : (8 * k + i) / 8 = k + i / 8 := by omega
  have low : mask (8 * k + i) = mask i := by
    unfold mask
    rw [Nat.mul_add_mod]
  unfold test
  rw [high, low, List.getD_eq_getElem?_getD, List.getD_eq_getElem?_getD, List.getElem?_drop]

/-- The set bits, counted by position. -/
theorem count_eq_countP (row : List UInt8) :
    count row = (List.range (8 * row.length)).countP (test row) := by
  induction row with
  | nil => rfl
  | cons b row ih =>
    have low : (List.range 8).countP (test (b :: row)) =
        ((List.range 8).filter fun i => b &&& mask i == mask i).length := by
      rw [← List.countP_eq_length_filter]
      apply List.countP_congr
      intro i member
      have zero : i / 8 = 0 := Nat.div_eq_of_lt (List.mem_range.mp member)
      simp [test, zero]
    have high : ((List.range (8 * row.length)).map (8 + ·)).countP (test (b :: row)) =
        (List.range (8 * row.length)).countP (test row) := by
      rw [List.countP_map]
      apply List.countP_congr
      intro i _
      have next : (8 + i) / 8 = i / 8 + 1 := by omega
      simp [test, mask, next]
    rw [List.length_cons, show 8 * (row.length + 1) = 8 + 8 * row.length by omega, List.range_add,
      List.countP_append, low, high, ← ih]
    rfl

/-- One more position fails: the count drops by one. -/
theorem countP_drop {α : Type*} (l : List α) (p q : α → Bool) (a : α) (nodup : l.Nodup) (member : a ∈ l)
    (was : p a = true) (now : q a = false) (rest : ∀ b ∈ l, b ≠ a → q b = p b) :
    l.countP p = l.countP q + 1 := by
  induction l with
  | nil => cases member
  | cons b l ih =>
    obtain ⟨fresh, nodup⟩ := List.nodup_cons.mp nodup
    by_cases same : b = a
    · subst same
      have tail : l.countP p = l.countP q := by
        apply List.countP_congr
        intro c hc
        rw [rest c (List.mem_cons_of_mem _ hc) (fun h => fresh (h ▸ hc))]
      simp [List.countP_cons, was, now, tail]
    · have member : a ∈ l := by
        rcases List.mem_cons.mp member with h | h
        · exact absurd h.symm same
        · exact h
      have tail := ih nodup member fun c hc => rest c (List.mem_cons_of_mem _ hc)
      rw [List.countP_cons, List.countP_cons, tail, rest b List.mem_cons_self same]
      omega

end Meatloaf.Lib.Bitmap
