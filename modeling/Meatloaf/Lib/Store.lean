import Mathlib.Data.List.Basic
import Mathlib.Data.List.GetD
import Mathlib.Logic.Function.Basic

/-! Cells addressed by natural numbers, read and overwritten in runs. Nothing
here knows what a cell holds or how many of the addresses are in use. -/
namespace Meatloaf.Lib.Store

variable {α : Type*}

/-- The `n` cells from `a` on. -/
def read (m : Nat → α) (a n : Nat) : List α := (List.range n).map fun i => m (a + i)

/-- The store with the run `xs` laid down from `a` on. -/
def put (m : Nat → α) (a : Nat) (xs : List α) : Nat → α := fun k =>
  if a ≤ k then (xs[k - a]?).getD (m k) else m k

/-- A buffer written over from its front. -/
def overlaid (old new : List α) : List α := new ++ old.drop new.length

@[simp] theorem length_read (m : Nat → α) (a n : Nat) : (read m a n).length = n := by
  simp [read]

@[simp] theorem read_zero (m : Nat → α) (a : Nat) : read m a 0 = [] := rfl

theorem getElem?_read (m : Nat → α) (a n i : Nat) (h : i < n) :
    (read m a n)[i]? = some (m (a + i)) := by
  simp [read, h]

theorem getD_read (m : Nat → α) (a n i : Nat) (d : α) (h : i < n) :
    (read m a n).getD i d = m (a + i) := by
  rw [List.getD_eq_getElem?_getD, getElem?_read m a n i h, Option.getD_some]

theorem read_add (m : Nat → α) (a n k : Nat) :
    read m a (n + k) = read m a n ++ read m (a + n) k := by
  simp only [read, List.range_add, List.map_append, List.map_map]
  congr 1
  apply List.map_congr_left
  intro i _
  simp [Nat.add_assoc]

theorem read_succ (m : Nat → α) (a n : Nat) : read m a (n + 1) = m a :: read m (a + 1) n := by
  rw [Nat.add_comm, read_add]
  simp [read]

theorem read_congr {m m' : Nat → α} {a n : Nat} (h : ∀ i < n, m (a + i) = m' (a + i)) :
    read m a n = read m' a n :=
  List.map_congr_left fun i hi => h i (List.mem_range.mp hi)

theorem take_read (m : Nat → α) (a n k : Nat) : (read m a n).take k = read m a (min k n) := by
  rw [read, read, ← List.map_take, List.take_range]

theorem drop_read (m : Nat → α) (a n k : Nat) (h : k ≤ n) :
    (read m a n).drop k = read m (a + k) (n - k) := by
  obtain ⟨j, rfl⟩ : ∃ j, n = k + j := ⟨n - k, by omega⟩
  rw [read_add, List.drop_left' (by simp), Nat.add_sub_cancel_left]

theorem put_outside (m : Nat → α) (a : Nat) (xs : List α) (k : Nat)
    (h : k < a ∨ a + xs.length ≤ k) : put m a xs k = m k := by
  unfold put
  split
  · rw [List.getElem?_eq_none (by omega), Option.getD_none]
  · rfl

theorem put_inside (m : Nat → α) (a : Nat) (xs : List α) (i : Nat) (h : i < xs.length) :
    put m a xs (a + i) = xs[i] := by
  simp [put, h]

theorem put_getD (m : Nat → α) (a : Nat) (xs : List α) (i : Nat) (d : α) (h : i < xs.length) :
    put m a xs (a + i) = xs.getD i d := by
  rw [put_inside m a xs i h, List.getD_eq_getElem _ _ h]

theorem read_put_same (m : Nat → α) (a : Nat) (xs : List α) :
    read (put m a xs) a xs.length = xs := by
  apply List.ext_getElem
  · simp
  · intro i h _
    have hi : i < xs.length := by simpa using h
    simp [read, put_inside m a xs i hi]

theorem read_put_disjoint (m : Nat → α) (a : Nat) (xs : List α) (b n : Nat)
    (h : b + n ≤ a ∨ a + xs.length ≤ b) : read (put m a xs) b n = read m b n :=
  read_congr fun i hi => put_outside m a xs (b + i) (by omega)

/-- A run laid down behind what is read on. -/
theorem read_put_behind (m : Nat → α) (a n : Nat) (xs : List α) :
    read (put m (a + n) xs) a (n + xs.length) = read m a n ++ xs := by
  rw [read_add, read_put_same, read_put_disjoint m (a + n) xs a n (.inl (Nat.le_refl _))]

/-- Writing back what is already there changes nothing. -/
theorem put_read (m : Nat → α) (a n : Nat) : put m a (read m a n) = m := by
  funext k
  by_cases h : a ≤ k ∧ k - a < n
  · have hk : k = a + (k - a) := by omega
    rw [hk, put_inside _ _ _ _ (by simpa using h.2)]
    simp [read]
  · exact put_outside m a _ k (by simp; omega)

/-- A run that is already there may be written again. -/
theorem put_eq_self (m : Nat → α) (a : Nat) (xs : List α) (h : read m a xs.length = xs) :
    put m a xs = m := by
  have h' := put_read m a xs.length
  rwa [h] at h'

/-- The later of two runs at one place wins. -/
theorem put_put_same (m : Nat → α) (a : Nat) (xs ys : List α) (h : xs.length = ys.length) :
    put (put m a xs) a ys = put m a ys := by
  funext k
  by_cases hk : a ≤ k ∧ k - a < ys.length
  · obtain ⟨i, rfl⟩ : ∃ i, k = a + i := ⟨k - a, by omega⟩
    rw [put_inside _ _ _ _ (by omega), put_inside _ _ _ _ (by omega)]
  · rw [put_outside _ _ _ _ (by omega), put_outside _ _ _ _ (by omega), put_outside _ _ _ _ (by omega)]

/-- Two runs laid down one after the other are one. -/
theorem put_append (m : Nat → α) (a : Nat) (xs ys : List α) :
    put (put m a xs) (a + xs.length) ys = put m a (xs ++ ys) := by
  funext k
  by_cases low : k < a + xs.length
  · rw [put_outside _ _ _ _ (.inl low)]
    by_cases inside : a ≤ k
    · obtain ⟨i, rfl⟩ : ∃ i, k = a + i := ⟨k - a, by omega⟩
      rw [put_inside _ _ _ _ (by omega), put_inside _ _ _ _ (by rw [List.length_append]; omega),
        List.getElem_append_left (by omega)]
    · rw [put_outside _ _ _ _ (by omega), put_outside _ _ _ _ (by omega)]
  · by_cases inside : k < a + xs.length + ys.length
    · obtain ⟨i, rfl⟩ : ∃ i, k = a + xs.length + i := ⟨k - (a + xs.length), by omega⟩
      have whole := put_inside m a (xs ++ ys) (xs.length + i) (by rw [List.length_append]; omega)
      rw [put_inside _ _ _ _ (by omega), Nat.add_assoc, whole, List.getElem_append_right (by omega)]
      congr 1
      omega
    · rw [put_outside _ _ _ _ (by omega), put_outside _ _ _ _ (by omega),
        put_outside _ _ _ _ (by rw [List.length_append]; omega)]

/- One of several runs of the same length, laid down one after the other. -/
theorem read_put_flatMap {β : Type*} (m : Nat → α) (a n : Nat) (l : List β) (f : β → List α)
    (length : ∀ b ∈ l, (f b).length = n) (k : Nat) (hk : k < l.length) :
    read (put m a (l.flatMap f)) (a + k * n) n = f (l.get ⟨k, hk⟩) := by
  induction l generalizing a m k with
  | nil => cases hk
  | cons b l ih =>
    have first := length b List.mem_cons_self
    rw [List.flatMap_cons, ← put_append, first]
    cases k with
    | zero =>
      rw [Nat.zero_mul, Nat.add_zero, read_put_disjoint _ _ _ _ _ (.inl (Nat.le_refl _)), ← first]
      exact read_put_same m a (f b)
    | succ k =>
      have rest := ih (put m a (f b)) (a + n) (fun c hc => length c (List.mem_cons_of_mem _ hc)) k
        (Nat.lt_of_succ_lt_succ hk)
      rw [show a + (k + 1) * n = a + n + k * n by rw [Nat.succ_mul]; omega]
      exact rest

/-- A run read, changed in one place and written back changes that place. -/
theorem put_set (m : Nat → α) (a n k : Nat) (v : α) (h : k < n) :
    put m a ((read m a n).set k v) = Function.update m (a + k) v := by
  funext j
  by_cases here : j = a + k
  · subst here
    rw [Function.update_self, put_inside _ _ _ _ (by simpa using h), List.getElem_set_self]
  · rw [Function.update_of_ne here]
    by_cases inside : a ≤ j ∧ j - a < n
    · obtain ⟨i, rfl⟩ : ∃ i, j = a + i := ⟨j - a, by omega⟩
      have other : k ≠ i := by omega
      rw [put_inside _ _ _ _ (by simp; omega), List.getElem_set_ne other]
      simp [read]
    · exact put_outside _ _ _ _ (by simp; omega)

/-- A run read, overwritten in part and written back changes that part. -/
theorem put_overwrite (m : Nat → α) (a n o : Nat) (xs : List α) (h : o + xs.length ≤ n) :
    put m a ((read m a n).take o ++ xs ++ (read m a n).drop (o + xs.length)) = put m (a + o) xs := by
  have front : ((read m a n).take o).length = o := by
    rw [List.length_take, length_read]
    omega
  have first : put m a ((read m a n).take o) = m := by
    rw [take_read, Nat.min_eq_left (by omega)]
    exact put_read m a o
  rw [← put_append, ← put_append, first, front, List.length_append, front]
  apply put_eq_self
  rw [drop_read _ _ _ _ (by omega), length_read, read_put_disjoint _ _ _ _ _ (by omega)]

theorem put_set_set (m : Nat → α) (a n : Nat) (x y : α) :
    put m a (((read m a (n + 2)).set 0 x).set 1 y) = put m a [x, y] := by
  have split : ((read m a (n + 2)).set 0 x).set 1 y =
      (read m a (n + 2)).take 0 ++ [x, y] ++ (read m a (n + 2)).drop (0 + [x, y].length) := by
    rw [read_succ, read_succ]
    rfl
  rw [split, put_overwrite _ _ _ _ _ (by simp)]
  rfl

theorem read_update_outside (m : Nat → α) (a n k : Nat) (v : α) (h : k < a ∨ a + n ≤ k) :
    read (Function.update m k v) a n = read m a n :=
  read_congr fun i hi => Function.update_of_ne (by omega) _ _

theorem read_update_inside (m : Nat → α) (a n k : Nat) (v : α) :
    read (Function.update m (a + k) v) a n = (read m a n).set k v := by
  apply List.ext_getElem
  · simp
  · intro i hi _
    have small : i < n := by simpa using hi
    by_cases here : k = i
    · subst here
      simp [read]
    · rw [List.getElem_set_ne here]
      have other : a + i ≠ a + k := by omega
      simp [read, Function.update_of_ne other]

end Meatloaf.Lib.Store
