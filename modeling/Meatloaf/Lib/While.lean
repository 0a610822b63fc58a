import Mathlib.Data.Option.Basic
import Mathlib.Order.Monotone.Basic

/-! A `while` loop. Its body is a step on what it changes, and `none` is the way out: a test
that fails, or a `break`. -/
namespace Meatloaf.Lib

variable {σ : Type*} {step : σ → Option σ} {s t : σ}

/- The state at the start of a pass, while there is one. -/
def pass (step : σ → Option σ) : Nat → σ → Option σ
  | 0, s => some s
  | n + 1, s => (step s).bind (pass step n)

/- The state the loop is left in, if `fuel` tests are enough. -/
def loop (step : σ → Option σ) : Nat → σ → Option σ
  | 0, _ => none
  | fuel + 1, s =>
    match step s with
    | none => some s
    | some t => loop step fuel t

theorem loop_done (last : step s = none) : loop step 1 s = some s := by
  rw [loop, last]

theorem loop_next (next : step s = some t) (fuel : Nat) : loop step (fuel + 1) s = loop step fuel t := by
  rw [loop, next]

theorem pass_succ (n : Nat) (s : σ) : pass step (n + 1) s = (pass step n s).bind step := by
  induction n generalizing s with
  | zero => cases h : step s <;> simp [pass, h]
  | succ n ih =>
    rw [pass, pass]
    cases step s with
    | none => rfl
    | some t => exact ih t

/- More tests change nothing. -/
theorem loop_more {fuel more : Nat} (enough : fuel ≤ more) (left : loop step fuel s = some t) :
    loop step more s = some t := by
  induction fuel generalizing s more with
  | zero => cases left
  | succ fuel ih =>
    obtain ⟨more, rfl⟩ : ∃ k, more = k + 1 := ⟨more - 1, by omega⟩
    rw [loop] at left ⊢
    cases next : step s with
    | none => simpa [next] using left
    | some u =>
      simp only [next] at left ⊢
      exact ih (by omega) left

/- A loop is left in one state. -/
theorem loop_unique {fuel fuel' : Nat} {u : σ} (left : loop step fuel s = some t) (left' : loop step fuel' s = some u) :
    t = u := by
  have both := loop_more (Nat.le_max_left fuel fuel') left
  rw [loop_more (Nat.le_max_right fuel fuel') left'] at both
  exact (Option.some.inj both).symm

/- The state of a pass that is the last one. -/
theorem loop_of_pass {n : Nat} (reached : pass step n s = some t) (last : step t = none) : loop step (n + 1) s = some t := by
  induction n generalizing s with
  | zero =>
    obtain rfl := Option.some.inj reached
    rw [loop, last]
  | succ n ih =>
    rw [pass, Option.bind_eq_some_iff] at reached
    obtain ⟨u, next, rest⟩ := reached
    rw [loop, next]
    exact ih rest

/- and there is one when a loop is left. -/
theorem pass_of_loop {fuel : Nat} (left : loop step fuel s = some t) :
    ∃ n < fuel, pass step n s = some t ∧ step t = none := by
  induction fuel generalizing s with
  | zero => cases left
  | succ fuel ih =>
    rw [loop] at left
    cases next : step s with
    | none =>
      simp only [next, Option.some.injEq] at left
      exact ⟨0, Nat.zero_lt_succ _, congrArg some left, left ▸ next⟩
    | some u =>
      simp only [next] at left
      obtain ⟨n, few, reached, last⟩ := ih left
      exact ⟨n + 1, Nat.succ_lt_succ few, by rw [pass, next]; exact reached, last⟩

/-- What every pass keeps holds at the start of each. -/
theorem pass_keeps {I : σ → Prop} (keeps : ∀ s t, I s → step s = some t → I t) (start : I s) {n : Nat}
    (reached : pass step n s = some t) : I t := by
  induction n generalizing s with
  | zero => exact Option.some.inj reached ▸ start
  | succ n ih =>
    rw [pass, Option.bind_eq_some_iff] at reached
    obtain ⟨u, next, rest⟩ := reached
    exact ih (keeps s u start next) rest

/- and when the loop is left. -/
theorem loop_keeps {I : σ → Prop} (keeps : ∀ s t, I s → step s = some t → I t) (start : I s) {fuel : Nat}
    (left : loop step fuel s = some t) : I t ∧ step t = none := by
  induction fuel generalizing s with
  | zero => cases left
  | succ fuel ih =>
    rw [loop] at left
    cases next : step s with
    | none =>
      simp only [next, Option.some.injEq] at left
      exact left ▸ ⟨start, next⟩
    | some u =>
      simp only [next] at left
      exact ih (keeps s u start next) left

/-- A loop whose passes bring a measure down ends. -/
theorem loop_ends {I : σ → Prop} (μ : σ → Nat) (keeps : ∀ s t, I s → step s = some t → I t ∧ μ t < μ s) (start : I s)
    {fuel : Nat} (enough : μ s < fuel) : (loop step fuel s).isSome := by
  induction fuel generalizing s with
  | zero => omega
  | succ fuel ih =>
    rw [loop]
    cases next : step s with
    | none => rfl
    | some t =>
      obtain ⟨kept, smaller⟩ := keeps s t start next
      exact ih kept (by omega)

/-- A loop that always finds another pass does not end. -/
theorem loop_endless {I : σ → Prop} (keeps : ∀ s, I s → ∃ t, step s = some t ∧ I t) (start : I s) (fuel : Nat) :
    loop step fuel s = none := by
  induction fuel generalizing s with
  | zero => rfl
  | succ fuel ih =>
    obtain ⟨t, next, kept⟩ := keeps s start
    rw [loop, next]
    exact ih kept

/-- A loop follows another one on what the second looks at. -/
theorem loop_proj {τ : Type*} {next : τ → Option τ} {f : σ → τ} {I : σ → Prop}
    (keeps : ∀ s t, I s → step s = some t → I t) (same : ∀ s, I s → (step s).map f = next (f s)) (start : I s)
    (fuel : Nat) : (loop step fuel s).map f = loop next fuel (f s) := by
  induction fuel generalizing s with
  | zero => rfl
  | succ fuel ih =>
    have here := same s start
    rw [loop, loop, ← here]
    cases taken : step s with
    | none => rfl
    | some t => exact ih (keeps s t start taken)

/-- What grows at every pass grows from pass to pass. -/
theorem pass_rising {f : σ → Nat} (grows : ∀ n t, pass step n s = some t → ∀ u, step t = some u → f t < f u)
    {i j : Nat} (before : i < j) {u : σ} (first : pass step i s = some t) (second : pass step j s = some u) :
    f t < f u := by
  induction j generalizing u with
  | zero => omega
  | succ j ih =>
    rw [pass_succ, Option.bind_eq_some_iff] at second
    obtain ⟨v, there, next⟩ := second
    have last := grows j v there u next
    by_cases same : i = j
    · subst same
      rw [first, Option.some.injEq] at there
      exact there ▸ last
    · exact (ih (by omega) there).trans last

end Meatloaf.Lib
