import Mathlib.Data.List.GetD

/-! A text that is written into `n` cells, one after the other and from the first again: what a
cell has is the last symbol that came into it, and `blank` before. Copies are taken out of the
cells symbol by symbol, so that a copy may reach into itself. -/
namespace Meatloaf.Lib.Window

variable {α : Type*} {n : Nat} {blank : α} {out : List α} {j : Nat}

/- The place of the last symbol of the text that went into the cell. -/
def place (n length j : Nat) : Nat := j + n * ((length - 1 - j) / n)

def cell (n : Nat) (blank : α) (out : List α) (j : Nat) : α := out.getD (place n out.length j) blank

/- The text with a copy behind it: `length` cells from cell `i` on. -/
def copy (n : Nat) (blank : α) : Nat → Nat → List α → List α
  | 0, _, out => out
  | length + 1, i, out => copy n blank length (i + 1) (out ++ [cell n blank out (i % n)])

theorem cell_nil : cell n blank [] j = blank := rfl

/-- The next symbol goes into one cell, -/
theorem cell_written (v : α) (here : out.length % n = j) : cell n blank (out ++ [v]) j = v := by
  have whole := Nat.mod_add_div out.length n
  rw [here] at whole
  have last : place n (out ++ [v]).length j = out.length := by
    by_cases empty : n = 0
    · simp only [empty, Nat.zero_mul, Nat.add_zero] at whole
      simp [place, empty, whole]
    · have behind : out.length - j = n * (out.length / n) := by omega
      rw [place, List.length_append, List.length_singleton, Nat.add_sub_cancel, behind,
        Nat.mul_div_cancel_left _ (Nat.pos_of_ne_zero empty), whole]
  rw [cell, last, List.getD_append_right _ _ _ _ (Nat.le_refl _), Nat.sub_self]
  rfl

/-- and the others keep theirs. -/
theorem cell_kept (v : α) (inside : j < n) (elsewhere : out.length % n ≠ j) :
    cell n blank (out ++ [v]) j = cell n blank out j := by
  have length : (out ++ [v]).length = out.length + 1 := by simp
  by_cases later : out.length ≤ j
  · -- the cell has had nothing yet
    have unreached : ∀ k ≤ out.length + 1, place n k j = j := by
      intro k small
      rw [place, Nat.div_eq_of_lt (by omega)]
      omega
    have above : out.length ≠ j := fun same => elsewhere (same ▸ Nat.mod_eq_of_lt (same.symm ▸ inside))
    rw [cell, cell, length, unreached _ (Nat.le_refl _), unreached _ (Nat.le_succ _),
      List.getD_eq_default _ _ (by simp; omega), List.getD_eq_default _ _ later]
  · have same : place n (out.length + 1) j = place n out.length j := by
      obtain ⟨d, split⟩ : ∃ d, out.length = j + (d + 1) := ⟨out.length - j - 1, by omega⟩
      have apart : ¬ n ∣ d + 1 := by
        rintro ⟨k, times⟩
        rw [split, times, Nat.add_mul_mod_self_left, Nat.mod_eq_of_lt inside] at elsewhere
        exact elsewhere rfl
      have stays : (d + 1) / n = d / n := by
        rw [Nat.succ_div, if_neg apart, Nat.add_zero]
      have first : out.length + 1 - 1 - j = d + 1 := by omega
      have second : out.length - 1 - j = d := by omega
      rw [place, place, first, second, stays]
    have before : place n out.length j < out.length := by
      have := Nat.mul_div_le (out.length - 1 - j) n
      rw [place]
      omega
    rw [cell, cell, length, same, List.getD_append _ _ _ _ before]

theorem length_copy (length i : Nat) (out : List α) :
    (copy n blank length i out).length = out.length + length := by
  induction length generalizing i out with
  | zero => rfl
  | succ length ih =>
    rw [copy, ih, List.length_append, List.length_singleton]
    omega

end Meatloaf.Lib.Window
