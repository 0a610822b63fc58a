import Mathlib.Data.List.Basic

/-! Reading a byte sequence item by item. A reader is told nothing about where
an item ends: it looks at what is left and answers with a value and the number
of cells it used. The laws below hold for any alphabet and any value type. -/
namespace Meatloaf.Lib

variable {α β γ : Type*}

/-- Repeated reading until nothing is left. The fuel only has to reach the
length of the input, since every reader in use takes at least one cell. -/
def scan (next : List β → γ × Nat) : Nat → List β → List γ
  | 0, _ => []
  | _ + 1, [] => []
  | fuel + 1, b :: rest =>
    (next (b :: rest)).1 :: scan next fuel ((b :: rest).drop (next (b :: rest)).2)

/-- The reader recognises the code word of every listed item, whatever follows. -/
def Recognises (next : List β → γ × Nat) (code : α → List β) (val : α → γ) (xs : List α) : Prop :=
  ∀ a ∈ xs, code a ≠ [] ∧ ∀ rest, next (code a ++ rest) = (val a, (code a).length)

theorem scan_nil (next : List β → γ × Nat) (fuel : Nat) : scan next fuel [] = [] := by
  cases fuel <;> rfl

theorem scan_step (next : List β → γ × Nat) (fuel : Nat) (w : List β) (rest : List β)
    (nonempty : w ≠ []) (v : γ) (read : next (w ++ rest) = (v, w.length)) :
    scan next (fuel + 1) (w ++ rest) = v :: scan next fuel rest := by
  cases w with
  | nil => exact absurd rfl nonempty
  | cons b tail =>
    rw [List.cons_append] at read ⊢
    rw [scan, read]
    simp

/- Every code word takes a cell. -/
theorem Recognises.length_le {next : List β → γ × Nat} {code : α → List β} {val : α → γ} {xs : List α}
    (known : Recognises next code val xs) : xs.length ≤ (xs.flatMap code).length := by
  induction xs with
  | nil => exact Nat.zero_le _
  | cons a xs ih =>
    have positive := List.length_pos_iff.mpr (known a List.mem_cons_self).1
    have rest := ih fun b member => known b (List.mem_cons_of_mem a member)
    rw [List.flatMap_cons, List.length_append, List.length_cons]
    omega

/-- Concatenated code words are read back one by one. -/
theorem scan_flatMap (next : List β → γ × Nat) (code : α → List β) (val : α → γ) (xs : List α)
    (known : Recognises next code val xs) (fuel : Nat) (enough : xs.length ≤ fuel) :
    scan next fuel (xs.flatMap code) = xs.map val := by
  induction xs generalizing fuel with
  | nil => exact scan_nil next fuel
  | cons a xs ih =>
    obtain ⟨nonempty, read⟩ := known a List.mem_cons_self
    rw [List.length_cons] at enough
    obtain ⟨fuel, rfl⟩ : ∃ k, fuel = k + 1 := ⟨fuel - 1, by omega⟩
    rw [List.flatMap_cons, scan_step next fuel (code a) _ nonempty (val a) (read _), List.map_cons,
      ih (fun b member => known b (List.mem_cons_of_mem a member)) fuel (by omega)]

end Meatloaf.Lib
