import Mathlib.Data.List.Basic

/-! Runs of a state machine: a state, and the steps taken one after the other. A condition
on a step may speak of the state the step is taken in. -/
namespace Meatloaf.Lib

variable {σ α : Type*} {step : σ → α → σ} {P Q : σ → α → Prop} {I : σ → Prop}

/-- Every step of the run meets the condition where it is taken. -/
def Along (step : σ → α → σ) (P : σ → α → Prop) : σ → List α → Prop
  | _, [] => True
  | s, a :: as => P s a ∧ Along step P (step s a) as

/-- What every step of a run keeps, the run keeps. -/
theorem Along.invariant (keeps : ∀ s a, I s → P s a → I (step s a)) {s : σ} {as : List α} (start : I s)
    (along : Along step P s as) : I (as.foldl step s) := by
  induction as generalizing s with
  | nil => exact start
  | cons a as ih => exact ih (keeps s a start along.1) along.2

/-- A step that meets the condition in a state of the invariant keeps it and does what
is wanted: then the whole run does. -/
theorem Along.imp (keeps : ∀ s a, I s → P s a → I (step s a)) (wanted : ∀ s a, I s → P s a → Q s a)
    {s : σ} {as : List α} (start : I s) (along : Along step P s as) : Along step Q s as := by
  induction as generalizing s with
  | nil => exact trivial
  | cons a as ih => exact ⟨wanted s a start along.1, ih (keeps s a start along.1) along.2⟩

/-- Two conditions that are one in every state of an invariant, which the second keeps, are one
on runs. -/
theorem Along.congr (same : ∀ s a, I s → (P s a ↔ Q s a)) (keeps : ∀ s a, I s → Q s a → I (step s a))
    {s : σ} {as : List α} (start : I s) : Along step P s as ↔ Along step Q s as := by
  induction as generalizing s with
  | nil => exact Iff.rfl
  | cons a as ih =>
    constructor
    · rintro ⟨first, rest⟩
      have holds := (same s a start).mp first
      exact ⟨holds, (ih (keeps s a start holds)).mp rest⟩
    · rintro ⟨holds, rest⟩
      exact ⟨(same s a start).mpr holds, (ih (keeps s a start holds)).mpr rest⟩

/-- The same, on runs whose steps all meet a third condition. -/
theorem Along.congr_within {V : σ → α → Prop} (same : ∀ s a, I s → V s a → (P s a ↔ Q s a))
    (keeps : ∀ s a, I s → V s a → Q s a → I (step s a)) {s : σ} {as : List α} (start : I s)
    (valid : Along step V s as) : Along step P s as ↔ Along step Q s as := by
  induction as generalizing s with
  | nil => exact Iff.rfl
  | cons a as ih =>
    have here := same s a start valid.1
    constructor
    · rintro ⟨first, rest⟩
      have holds := here.mp first
      exact ⟨holds, (ih (keeps s a start valid.1 holds) valid.2).mp rest⟩
    · rintro ⟨holds, rest⟩
      exact ⟨here.mpr holds, (ih (keeps s a start valid.1 holds) valid.2).mpr rest⟩

/-- A run of a machine that carries another one along, on conditions of the other one. -/
theorem along_proj {τ : Type*} {next : τ → α → τ} {f : τ → σ} (same : ∀ t a, f (next t a) = step (f t) a) {t : τ}
    {as : List α} : Along next (fun t a => P (f t) a) t as ↔ Along step P (f t) as := by
  induction as generalizing t with
  | nil => exact Iff.rfl
  | cons a as ih =>
    rw [Along, Along, ← same]
    exact and_congr_right fun _ => ih

/-- A run that is put together of two. -/
theorem Along.append {s : σ} {as bs : List α} (first : Along step P s as) (second : Along step P (as.foldl step s) bs) :
    Along step P s (as ++ bs) := by
  induction as generalizing s with
  | nil => exact second
  | cons a as ih => exact ⟨first.1, ih first.2 second⟩

/-- The second part of a run. -/
theorem Along.append_right {s : σ} {as bs : List α} (along : Along step P s (as ++ bs)) :
    Along step P (as.foldl step s) bs := by
  induction as generalizing s with
  | nil => exact along
  | cons a as ih => exact ih along.2

/-- Two conditions on a run. -/
theorem Along.and {s : σ} {as : List α} (first : Along step P s as) (second : Along step Q s as) :
    Along step (fun s a => P s a ∧ Q s a) s as := by
  induction as generalizing s with
  | nil => exact trivial
  | cons a as ih => exact ⟨⟨first.1, second.1⟩, ih first.2 second.2⟩

/-- A condition on the steps alone. -/
theorem along_of_mem {R : α → Prop} {s : σ} {as : List α} (all : ∀ a ∈ as, R a) : Along step (fun _ a => R a) s as := by
  induction as generalizing s with
  | nil => exact trivial
  | cons a as ih =>
    rw [List.forall_mem_cons] at all
    exact ⟨all.1, ih all.2⟩

/-- A run without conditions. -/
theorem along_true {s : σ} {as : List α} : Along step (fun _ _ => True) s as := along_of_mem fun _ _ => trivial

instance Along.instDecidable [∀ s a, Decidable (P s a)] :
    (s : σ) → (as : List α) → Decidable (Along step P s as)
  | _, [] => inferInstanceAs (Decidable True)
  | s, a :: as => @instDecidableAnd (P s a) _ _ (Along.instDecidable (step s a) as)

end Meatloaf.Lib
