import Mathlib.Algebra.BigOperators.Group.List.Basic
import Mathlib.Algebra.GroupWithZero.Nat

/-! Slots of given widths, laid out one behind the other. A place is the start of a slot and an offset
in it. -/
namespace Meatloaf.Lib.Slots

variable {w w' : Nat → Nat}

/- Where slot `n` starts. -/
def start (w : Nat → Nat) (n : Nat) : Nat := ((List.range n).map w).sum

@[simp] theorem start_zero : start w 0 = 0 := rfl

theorem start_succ (w : Nat → Nat) (n : Nat) : start w (n + 1) = start w n + w n := by
  simp [start, List.range_succ]

theorem start_mono {n m : Nat} (le : n ≤ m) : start w n ≤ start w m := by
  induction m with
  | zero =>
    cases Nat.le_zero.mp le
    exact Nat.le_refl _
  | succ m ih =>
    rcases Nat.lt_or_eq_of_le le with less | rfl
    · have before := ih (Nat.le_of_lt_succ less)
      rw [start_succ]
      omega
    · exact Nat.le_refl _

/-- A slot ends before the later ones start. -/
theorem start_end {n m : Nat} (less : n < m) : start w n + w n ≤ start w m := by
  rw [← start_succ]
  exact start_mono less

theorem start_congr {n : Nat} (same : ∀ i < n, w i = w' i) : start w n = start w' n := by
  induction n with
  | zero => rfl
  | succ n ih =>
    rw [start_succ, start_succ, ih fun i before => same i (Nat.lt_succ_of_lt before), same n (Nat.lt_succ_self n)]

/-- Two slots of some width do not start at one place. -/
theorem start_inj (positive : ∀ i, 0 < w i) {n m : Nat} (same : start w n = start w m) : n = m := by
  rcases Nat.lt_trichotomy n m with less | here | more
  · have := start_end (w := w) less
    have := positive n
    omega
  · exact here
  · have := start_end (w := w) more
    have := positive m
    omega

/-- A place inside a slot is in no other one, but the start of a slot is also the end of an earlier one. -/
theorem place_eq {n m s s' : Nat} (inside : s < w n) (within : s' ≤ w m)
    (same : start w n + s = start w m + s') : (m = n ∧ s' = s) ∨ (s = 0 ∧ m < n) := by
  rcases Nat.lt_trichotomy n m with less | rfl | more
  · have := start_end (w := w) less
    omega
  · exact .inl ⟨rfl, by omega⟩
  · have := start_end (w := w) more
    exact .inr ⟨by omega, more⟩

end Meatloaf.Lib.Slots
