import Mathlib.Data.List.Basic
import Mathlib.Order.Basic
import Mathlib.Order.Lattice

/-! A list that is put together in the order of its elements, and of their places among equal ones. -/
namespace Meatloaf.Lib

variable {α : Type*} [LinearOrder α] {a : α} {pre mid suf : List α}

/-- Of a list that is cut in two, the elements up to `a` in the first part, and below it in the second. -/
def partway (a : α) (pre suf : List α) : List α := pre.filter (· ≤ a) ++ suf.filter (· < a)

/- Where there is no `a`, it makes no difference which. -/
theorem filter_le_of_notMem (absent : a ∉ mid) : mid.filter (· ≤ a) = mid.filter (· < a) := by
  refine List.filter_congr fun x member => ?_
  have apart : x ≠ a := fun same => absurd (same ▸ member) absent
  simp [le_iff_lt_or_eq, apart]

theorem partway_absent (absent : a ∉ suf) : partway a pre suf = partway a (pre ++ suf) [] := by
  simp [partway, filter_le_of_notMem absent]

theorem partway_length_le (a : α) (pre suf : List α) : (partway a pre suf).length ≤ pre.length + suf.length := by
  rw [partway, List.length_append]
  exact Nat.add_le_add (List.length_filter_le _ _) (List.length_filter_le _ _)

theorem insertIdx_between {β : Type*} (l r : List β) (b : β) : (l ++ r).insertIdx l.length b = l ++ b :: r := by
  induction l with
  | nil => rfl
  | cons c l ih => simp [ih]

/-- The next `a` goes behind what is up to it in front of its place. -/
theorem partway_insert (absent : a ∉ mid) :
    (partway a pre (mid ++ a :: suf)).insertIdx ((pre.filter (· ≤ a)).length + mid.countP (· < a)) a =
      partway a (pre ++ mid ++ [a]) suf := by
  have before : (pre.filter (· ≤ a)).length + mid.countP (· < a) =
      (pre.filter (· ≤ a) ++ mid.filter (· < a)).length := by
    rw [List.length_append, List.countP_eq_length_filter]
  have cut : partway a pre (mid ++ a :: suf) = (pre.filter (· ≤ a) ++ mid.filter (· < a)) ++ suf.filter (· < a) := by
    simp [partway]
  rw [before, cut, insertIdx_between]
  simp [partway, filter_le_of_notMem absent]

end Meatloaf.Lib
