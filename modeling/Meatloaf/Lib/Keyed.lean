import Mathlib.Logic.Function.Basic

/-! Slots that hold values under keys, no key twice, and the map they stand for. -/
namespace Meatloaf.Lib

variable {ι κ α : Type}

/-- The slots hold exactly what the map has, every key in one slot. -/
structure Keyed (slot : ι → Option (κ × α)) (m : κ → Option α) : Prop where
  sound : ∀ i k v, slot i = some (k, v) → m k = some v
  complete : ∀ k v, m k = some v → ∃ i, slot i = some (k, v)
  once : ∀ i j k v w, slot i = some (k, v) → slot j = some (k, w) → i = j

namespace Keyed

variable {slot : ι → Option (κ × α)} {m : κ → Option α} {i : ι} {k : κ} {v : α}

theorem empty : Keyed (fun _ : ι => (none : Option (κ × α))) fun _ => none where
  sound _ _ _ h := by cases h
  complete _ _ h := by cases h
  once _ _ _ _ _ h := by cases h

theorem absent (h : Keyed slot m) (gone : m k = none) (i : ι) (v : α) : slot i ≠ some (k, v) := by
  intro here
  have found := h.sound i k v here
  rw [gone] at found
  cases found

theorem of_absent (h : Keyed slot m) (gone : ∀ i v, slot i ≠ some (k, v)) : m k = none := by
  cases found : m k with
  | none => rfl
  | some v =>
    obtain ⟨i, here⟩ := h.complete k v found
    exact absurd here (gone i v)

variable [DecidableEq ι] [DecidableEq κ]

/-- A slot is emptied. -/
theorem free (h : Keyed slot m) (here : slot i = some (k, v)) :
    Keyed (Function.update slot i none) (Function.update m k none) where
  sound j l w there := by
    by_cases same : j = i
    · rw [same, Function.update_self] at there
      cases there
    · rw [Function.update_of_ne same] at there
      have other : l ≠ k := fun equal => same (h.once j i k w v (equal ▸ there) here)
      rw [Function.update_of_ne other]
      exact h.sound j l w there
  complete l w found := by
    by_cases same : l = k
    · rw [same, Function.update_self] at found
      cases found
    · rw [Function.update_of_ne same] at found
      obtain ⟨j, there⟩ := h.complete l w found
      have other : j ≠ i := by
        rintro rfl
        rw [here] at there
        exact same (Prod.mk.inj (Option.some.inj there)).1.symm
      exact ⟨j, by rw [Function.update_of_ne other, there]⟩
  once a b l w x first second := by
    have apart : ∀ j w, Function.update slot i none j = some (l, w) → slot j = some (l, w) := by
      intro j w there
      by_cases same : j = i
      · rw [same, Function.update_self] at there
        cases there
      · rwa [Function.update_of_ne same] at there
    exact h.once a b l w x (apart a w first) (apart b x second)

/-- An empty slot is filled, under a key that is not there yet. -/
theorem fill (h : Keyed slot m) (vacant : slot i = none) (new : m k = none) (v : α) :
    Keyed (Function.update slot i (some (k, v))) (Function.update m k (some v)) where
  sound j l w there := by
    by_cases same : j = i
    · rw [same, Function.update_self] at there
      obtain ⟨rfl, rfl⟩ := Prod.mk.inj (Option.some.inj there)
      exact Function.update_self ..
    · rw [Function.update_of_ne same] at there
      have other : l ≠ k := by
        rintro rfl
        exact h.absent new j w there
      rw [Function.update_of_ne other]
      exact h.sound j l w there
  complete l w found := by
    by_cases same : l = k
    · rw [same, Function.update_self] at found
      exact ⟨i, by rw [Function.update_self, same, Option.some.inj found]⟩
    · rw [Function.update_of_ne same] at found
      obtain ⟨j, there⟩ := h.complete l w found
      have other : j ≠ i := by
        rintro rfl
        rw [vacant] at there
        cases there
      exact ⟨j, by rw [Function.update_of_ne other, there]⟩
  once a b l w x first second := by
    have place : ∀ j w, Function.update slot i (some (k, v)) j = some (l, w) →
        (j = i ∧ l = k) ∨ (j ≠ i ∧ slot j = some (l, w)) := by
      intro j w there
      by_cases same : j = i
      · rw [same, Function.update_self] at there
        exact .inl ⟨same, (Prod.mk.inj (Option.some.inj there)).1.symm⟩
      · rw [Function.update_of_ne same] at there
        exact .inr ⟨same, there⟩
    rcases place a w first with ⟨rfl, rfl⟩ | ⟨_, there⟩
    · rcases place b x second with ⟨rfl, _⟩ | ⟨_, there'⟩
      · rfl
      · exact absurd there' (h.absent new b x)
    · rcases place b x second with ⟨rfl, rfl⟩ | ⟨_, there'⟩
      · exact absurd there (h.absent new a w)
      · exact h.once a b l w x there there'

/-- Where a key is absent, removing it changes nothing. -/
theorem update_absent (gone : m k = none) : Function.update m k none = m := by
  rw [← gone]
  exact Function.update_eq_self k m

end Keyed

end Meatloaf.Lib
