import Mathlib.Data.List.Nodup

/-! Chains: a cell names the next one, and a chain runs until a cell that stops
it. Since every cell has one successor, a chain that ends never visits a cell
twice, and it is the only one from its start. -/
namespace Meatloaf.Lib

variable {β : Type*}

/-- `Chain next stop b l`: following `next` from `b` visits exactly `l` before it
meets a cell that stops the walk. -/
inductive Chain (next : β → β) (stop : β → Prop) : β → List β → Prop where
  | done {b : β} : stop b → Chain next stop b []
  | step {b : β} {l : List β} : ¬ stop b → Chain next stop (next b) l → Chain next stop b (b :: l)

namespace Chain

variable {next next' : β → β} {stop : β → Prop} {b c : β} {l l' : List β}

theorem det (h : Chain next stop b l) (h' : Chain next stop b l') : l = l' := by
  induction h generalizing l' with
  | done ends =>
    cases h' with
    | done _ => rfl
    | step runs _ => exact absurd ends runs
  | step runs _ ih =>
    cases h' with
    | done ends => exact absurd ends runs
    | step _ rest => rw [ih rest]

theorem live (h : Chain next stop b l) : ∀ c ∈ l, ¬ stop c := by
  induction h with
  | done _ => simp
  | step runs _ ih =>
    intro c member
    rcases List.mem_cons.mp member with rfl | member
    · exact runs
    · exact ih c member

/- From every cell of a chain there is a chain, and it is no longer. -/
theorem suffix (h : Chain next stop b l) (member : c ∈ l) :
    ∃ k, Chain next stop c k ∧ k.length ≤ l.length := by
  induction h with
  | done _ => cases member
  | step runs rest ih =>
    rcases List.mem_cons.mp member with rfl | member
    · exact ⟨_, .step runs rest, Nat.le_refl _⟩
    · obtain ⟨k, chain, short⟩ := ih member
      exact ⟨k, chain, Nat.le_succ_of_le short⟩

/-- A chain that ends has no repetition. -/
theorem nodup (h : Chain next stop b l) : l.Nodup := by
  induction h with
  | done _ => exact List.nodup_nil
  | @step b l runs rest ih =>
    refine List.nodup_cons.mpr ⟨fun again => ?_, ih⟩
    obtain ⟨k, chain, short⟩ := rest.suffix again
    have whole := chain.det (.step runs rest)
    rw [whole, List.length_cons] at short
    omega

/-- Only the cells on the chain matter. -/
theorem congr (h : Chain next stop b l) (same : ∀ c ∈ l, next' c = next c) : Chain next' stop b l := by
  induction h with
  | done ends => exact .done ends
  | step runs _ ih =>
    have rest := ih fun c member => same c (List.mem_cons_of_mem _ member)
    rw [← same _ List.mem_cons_self] at rest
    exact .step runs rest

theorem head (h : Chain next stop b (c :: l)) : c = b := by
  cases h
  rfl

theorem start_mem (h : Chain next stop b l) (runs : ¬ stop b) : b ∈ l := by
  cases h with
  | done ends => exact absurd ends runs
  | step _ _ => exact List.mem_cons_self

theorem nil_iff (h : Chain next stop b l) : l = [] ↔ stop b := by
  cases h with
  | done ends => exact ⟨fun _ => ends, fun _ => rfl⟩
  | step runs _ => exact ⟨fun empty => absurd empty (List.cons_ne_nil _ _), fun ends => absurd ends runs⟩

/- Neighbours on a chain are linked, and the last cell leads to a stop. -/
theorem link_at (h : Chain next stop b l) (k : Nat) (inside : k + 1 < l.length) :
    next (l.get ⟨k, Nat.lt_of_succ_lt inside⟩) = l.get ⟨k + 1, inside⟩ := by
  induction h generalizing k with
  | done _ => cases inside
  | @step b l _ rest ih =>
    cases k with
    | zero =>
      cases rest with
      | done _ => simp at inside
      | step _ _ => rfl
    | succ k => exact ih k (by simpa using inside)

theorem ends_at (h : Chain next stop b l) (nonempty : l ≠ []) : stop (next (l.getLast nonempty)) := by
  induction h with
  | done _ => exact absurd rfl nonempty
  | @step b l _ rest ih =>
    cases l with
    | nil =>
      cases rest
      assumption
    | cons c l =>
      rw [List.getLast_cons (List.cons_ne_nil c l)]
      exact ih (List.cons_ne_nil c l)

/-- The cells in order, each leading to the next one and the last of them to a stop. -/
theorem of_links (l : List β) (z : β) (nonempty : l ≠ []) (runs : ∀ c ∈ l, ¬ stop c)
    (links : ∀ k, k + 1 < l.length → next (l.getD k z) = l.getD (k + 1) z)
    (ends : stop (next (l.getD (l.length - 1) z))) : Chain next stop (l.getD 0 z) l := by
  induction l with
  | nil => exact absurd rfl nonempty
  | cons b l ih =>
    cases l with
    | nil => exact .step (runs b List.mem_cons_self) (.done ends)
    | cons c l =>
      have link : next b = c := links 0 (by simp)
      have rest := ih (List.cons_ne_nil c l) (fun x member => runs x (List.mem_cons_of_mem _ member))
        (fun k hk => links (k + 1) (by simpa using hk)) ends
      exact .step (runs b List.mem_cons_self) (link ▸ rest)

/-- A chain can be taken further by changing where its last cell leads. -/
theorem splice (h : Chain next stop b l) (nonempty : l ≠ [])
    (same : ∀ x ∈ l.dropLast, next' x = next x) (link : next' (l.getLast nonempty) = c)
    (rest : Chain next' stop c l') : Chain next' stop b (l ++ l') := by
  induction h with
  | done _ => exact absurd rfl nonempty
  | @step b l runs tail ih =>
    cases l with
    | nil =>
      have first : next' b = c := link
      exact .step runs (first ▸ rest)
    | cons x l =>
      have first : next' b = next b := same b (by simp)
      have more := ih (List.cons_ne_nil x l) (fun y member => same y (by simp [member]))
        (by rwa [List.getLast_cons (List.cons_ne_nil x l)] at link)
      exact .step runs (first ▸ more)

end Chain

end Meatloaf.Lib
