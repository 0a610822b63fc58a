import Mathlib.Data.Nat.Basic

/-! A computation that asks for answers from outside and counts them in its state. Some answers are
bad. As long as it gets none of these it agrees with the computation that asks nobody; what it does
after a bad one is not said. -/
namespace Meatloaf.Lib

variable {σ α β : Type} {I : σ → Prop} {asked : σ → Nat} {bad : Nat → Prop}

/- No answer between two states is bad. -/
def Clean (asked : σ → Nat) (bad : Nat → Prop) (s t : σ) : Prop := ∀ k, asked s ≤ k → k < asked t → ¬ bad k

instance [DecidablePred bad] (s t : σ) : Decidable (Clean asked bad s t) :=
  decidable_of_iff (∀ k < asked t, asked s ≤ k → ¬ bad k) ⟨fun all k since below => all k below since,
    fun clean k below since => clean k since below⟩

/-- A computation in an invariant, and what it gives when no answer is bad. -/
structure Agrees (I : σ → Prop) (asked : σ → Nat) (bad : Nat → Prop) (m : StateM σ α) (v : Id α) : Prop where
  keeps : ∀ s, I s → I (m s).2
  counts : ∀ s, asked s ≤ asked (m s).2
  value : ∀ s, I s → Clean asked bad s (m s).2 → (m s).1 = v.run

theorem Agrees.pure (v : α) : Agrees I asked bad (Pure.pure v) (Pure.pure v) :=
  ⟨fun _ inv => inv, fun _ => Nat.le_refl _, fun _ _ _ => rfl⟩

/-- Computations one after the other. -/
theorem Agrees.bind {m : StateM σ α} {v : Id α} {f : α → StateM σ β} {g : α → Id β} (first : Agrees I asked bad m v)
    (next : ∀ a, Agrees I asked bad (f a) (g a)) : Agrees I asked bad (m >>= f) (v >>= g) where
  keeps s inv := (next (m s).1).keeps _ (first.keeps s inv)
  counts s := Nat.le_trans (first.counts s) ((next (m s).1).counts _)
  value s inv clean := by
    have more := (next (m s).1).counts (m s).2
    have here : (m s).1 = v.run := first.value s inv fun k since below =>
      clean k since (Nat.lt_of_lt_of_le below more)
    have rest := (next (m s).1).value _ (first.keeps s inv) fun k since below =>
      clean k (Nat.le_trans (first.counts s) since) below
    rw [here] at rest
    have result : (m >>= f) s = f (m s).1 (m s).2 := rfl
    rw [result, here]
    exact rest

end Meatloaf.Lib
