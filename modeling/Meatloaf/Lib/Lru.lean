import Mathlib.Data.List.Nodup

/-! The least recently used keys of a history go first. A history has the last use in front. -/
namespace Meatloaf.Lib

variable {κ : Type*} [DecidableEq κ]

/-- The keys of a history, each where it was used last. -/
def recent : List κ → List κ
  | [] => []
  | k :: ks => k :: (recent ks).filter (· ≠ k)

theorem recent_nodup (ks : List κ) : (recent ks).Nodup := by
  induction ks with
  | nil => exact List.nodup_nil
  | cons k ks ih => simpa [recent] using ih.filter _

theorem mem_recent {k : κ} {ks : List κ} : k ∈ recent ks ↔ k ∈ ks := by
  induction ks with
  | nil => rfl
  | cons a ks ih =>
    by_cases same : k = a
    · simp [recent, same]
    · simp [recent, same, ih]

/- Taking out a key that is within reach draws the next one in. -/
theorem take_filter_of_mem {k : κ} {l : List κ} (once : l.Nodup) (n : Nat) (member : k ∈ l.take (n + 1)) :
    (l.filter (· ≠ k)).take n = (l.take (n + 1)).filter (· ≠ k) := by
  induction l generalizing n with
  | nil => simp
  | cons a l ih =>
    rw [List.nodup_cons] at once
    by_cases same : a = k
    · subst same
      have others : ∀ m, ∀ b ∈ l.take m, decide (b ≠ a) = true := fun m b inside =>
        decide_eq_true fun equal => once.1 (equal ▸ List.mem_of_mem_take inside)
      have all : l.filter (· ≠ a) = l := List.filter_eq_self.mpr (by simpa using others l.length)
      rw [List.take_succ_cons, List.filter_cons_of_neg (by simp), List.filter_cons_of_neg (by simp), all,
        List.filter_eq_self.mpr (others n)]
    · have inside : k ∈ l.take n := by simpa [Ne.symm same] using member
      obtain ⟨m, rfl⟩ : ∃ m, n = m + 1 := by
        cases n with
        | zero => simp at inside
        | succ m => exact ⟨m, rfl⟩
      have kept (rest : List κ) : (a :: rest).filter (· ≠ k) = a :: rest.filter (· ≠ k) :=
        List.filter_cons_of_pos (by simpa using same)
      rw [kept, List.take_succ_cons, List.take_succ_cons, kept, ih once.2 m inside]

/- A key out of reach is not missed. -/
theorem take_filter_of_not_mem {k : κ} {l : List κ} (n : Nat) (out : k ∉ l.take n) :
    (l.filter (· ≠ k)).take n = l.take n := by
  induction l generalizing n with
  | nil => rfl
  | cons a l ih =>
    cases n with
    | zero => rfl
    | succ n =>
      rw [List.take_succ_cons, List.mem_cons, not_or] at out
      rw [List.filter_cons_of_pos (by simpa using Ne.symm out.1), List.take_succ_cons, List.take_succ_cons, ih n out.2]

/-- A resident key comes to the front. -/
theorem recent_hit {k : κ} {ks : List κ} (n : Nat) (resident : k ∈ (recent ks).take (n + 1)) :
    (recent (k :: ks)).take (n + 1) = k :: ((recent ks).take (n + 1)).filter (· ≠ k) := by
  rw [recent, List.take_succ_cons, take_filter_of_mem (recent_nodup ks) n resident]

/-- Any other key takes the place of the one that was used longest ago. -/
theorem recent_miss {k : κ} {ks : List κ} (n : Nat) (out : k ∉ (recent ks).take (n + 1)) :
    (recent (k :: ks)).take (n + 1) = k :: (recent ks).take n := by
  have before : k ∉ (recent ks).take n := fun inside =>
    out (List.take_subset_take_left _ (Nat.le_succ n) inside)
  rw [recent, List.take_succ_cons, take_filter_of_not_mem n before]

end Meatloaf.Lib
