import Mathlib.Logic.Relation
import Mathlib.Order.WellFounded

/-! A procedure that calls itself. `calls a b` says that the call for `a` makes the call for
`b`, and `fine a` that it comes through what it does besides. -/
namespace Meatloaf.Lib

open Relation

variable {α : Type*} {calls : α → α → Prop} {fine : α → Prop} {a b : α}

/-- The call for `a` returns, with at most `n` calls within each other. -/
def Returns (calls : α → α → Prop) (fine : α → Prop) : Nat → α → Prop
  | 0, _ => False
  | n + 1, a => fine a ∧ ∀ b, calls a b → Returns calls fine n b

theorem Returns.more {n m : Nat} (enough : n ≤ m) (done : Returns calls fine n a) : Returns calls fine m a := by
  induction n generalizing m a with
  | zero => cases done
  | succ n ih =>
    obtain ⟨m, rfl⟩ : ∃ k, m = k + 1 := ⟨m - 1, by omega⟩
    exact ⟨done.1, fun b call => ih (by omega) (done.2 b call)⟩

/- Finitely many calls that return do so within one depth. -/
theorem returns_within (l : List α) (each : ∀ b ∈ l, calls a b → ∃ n, Returns calls fine n b) :
    ∃ n, ∀ b ∈ l, calls a b → Returns calls fine n b := by
  induction l with
  | nil => exact ⟨0, fun b member => nomatch member⟩
  | cons c l ih =>
    obtain ⟨n, rest⟩ := ih fun b member => each b (List.mem_cons_of_mem c member)
    by_cases made : calls a c
    · obtain ⟨m, first⟩ := each c List.mem_cons_self made
      refine ⟨max m n, fun b member call => ?_⟩
      rcases List.mem_cons.mp member with rfl | later
      · exact first.more (Nat.le_max_left m n)
      · exact (rest b later call).more (Nat.le_max_right m n)
    · refine ⟨n, fun b member call => ?_⟩
      rcases List.mem_cons.mp member with rfl | later
      · exact absurd call made
      · exact rest b later call

/-- A call that makes finitely many others returns exactly when its calls do not go on without
end, and each of them is fine. -/
theorem returns_iff (few : ∀ a, ∃ l : List α, ∀ b, calls a b → b ∈ l) :
    (∃ n, Returns calls fine n a) ↔ Acc (fun c b => calls b c) a ∧ ∀ b, ReflTransGen calls a b → fine b := by
  constructor
  · rintro ⟨n, done⟩
    induction n generalizing a with
    | zero => cases done
    | succ n ih =>
      refine ⟨Acc.intro a fun b call => (ih (done.2 b call)).1, fun b reached => ?_⟩
      rcases ReflTransGen.cases_head reached with rfl | ⟨c, call, rest⟩
      · exact done.1
      · exact (ih (done.2 c call)).2 b rest
  · rintro ⟨ends, all⟩
    induction ends with
    | intro a _ ih =>
      obtain ⟨l, complete⟩ := few a
      obtain ⟨n, within⟩ := @returns_within α calls fine a l fun b _ call =>
        ih b call fun c reached => all c (reached.head call)
      exact ⟨n + 1, all a .refl, fun b call => within b (complete b call) call⟩

/- Calls of a kind that cannot go on for ever are passed over. -/
theorem acc_over {shrinks steps : α → α → Prop} (wf : WellFounded fun c b => shrinks b c) :
    Acc (fun c b => shrinks b c ∨ steps b c) a ↔
      Acc (fun c b => ∃ d, ReflTransGen shrinks b d ∧ steps d c) a := by
  constructor
  · intro ends
    refine Subrelation.accessible ?_ ends.transGen
    rintro c b ⟨d, down, step⟩
    have last : TransGen (fun c b => shrinks b c ∨ steps b c) c d := .single (.inr step)
    have up : ReflTransGen (fun c b => shrinks b c ∨ steps b c) d b :=
      ReflTransGen.mono (fun c b (next : shrinks b c) => Or.inl next) d b down.swap
    exact last.trans_left up
  · intro ends
    induction ends with
    | intro a _ ih =>
      have below : ∀ b, ReflTransGen shrinks a b → Acc (fun c b => shrinks b c ∨ steps b c) b := by
        intro b
        induction b using wf.induction with
        | h b smaller =>
          intro down
          refine Acc.intro b fun c call => ?_
          rcases call with next | step
          · exact smaller c next (down.tail next)
          · exact ih c ⟨b, down, step⟩
      exact below a .refl

/-- So calls go on without end exactly if there is a sequence of the other calls that does. -/
theorem acc_iff_no_sequence {shrinks steps : α → α → Prop} (wf : WellFounded fun c b => shrinks b c) :
    Acc (fun c b => shrinks b c ∨ steps b c) a ↔
      ¬ ∃ s : Nat → α, s 0 = a ∧ ∀ i, ∃ d, ReflTransGen shrinks (s i) d ∧ steps d (s (i + 1)) := by
  have chain := not_acc_iff_exists_descending_chain (r := fun c b => ∃ d, ReflTransGen shrinks b d ∧ steps d c) (x := a)
  rw [acc_over wf]
  exact (not_iff_comm.mp chain).symm

end Meatloaf.Lib
