import Mathlib.Data.List.Basic

/-! Patterns with wildcards, over any alphabet. A pattern is matched from its front; what a table of
prefixes needs is how it is matched at its end. -/
namespace Meatloaf.Lib.Glob

variable {α β : Type*}

inductive Item (α : Type*)
  | any
  | one
  | char (a : α)
deriving DecidableEq

/-- A pattern matches a text: `any` stands for any text, `one` for one letter, and another letter for
those it is the same as. -/
inductive Matches (same : α → β → Prop) : List (Item α) → List β → Prop
  | nil : Matches same [] []
  | any {p s} (skipped : List β) (rest : Matches same p s) : Matches same (.any :: p) (skipped ++ s)
  | one {p s} (b : β) (rest : Matches same p s) : Matches same (.one :: p) (b :: s)
  | char {p s a b} (here : same a b) (rest : Matches same p s) : Matches same (.char a :: p) (b :: s)

variable {same : α → β → Prop} {p q : List (Item α)} {s : List β} {a : α} {b : β}

theorem matches_nil_iff : Matches same [] s ↔ s = [] := by
  constructor
  · intro matched
    cases matched
    rfl
  · rintro rfl
    exact .nil

theorem matches_any_iff : Matches same (.any :: p) s ↔ ∃ u v, s = u ++ v ∧ Matches same p v := by
  constructor
  · intro matched
    cases matched with
    | any u rest => exact ⟨u, _, rfl, rest⟩
  · rintro ⟨u, v, rfl, rest⟩
    exact .any u rest

theorem matches_one_iff : Matches same (.one :: p) s ↔ ∃ b v, s = b :: v ∧ Matches same p v := by
  constructor
  · intro matched
    cases matched with
    | one b rest => exact ⟨b, _, rfl, rest⟩
  · rintro ⟨b, v, rfl, rest⟩
    exact .one b rest

theorem matches_char_iff : Matches same (.char a :: p) s ↔ ∃ b v, s = b :: v ∧ same a b ∧ Matches same p v := by
  constructor
  · intro matched
    cases matched with
    | char here rest => exact ⟨_, _, rfl, here, rest⟩
  · rintro ⟨b, v, rfl, here, rest⟩
    exact .char here rest

/-- Two patterns one behind the other match what can be cut between them. -/
theorem matches_append : Matches same (p ++ q) s ↔ ∃ u v, s = u ++ v ∧ Matches same p u ∧ Matches same q v := by
  induction p generalizing s with
  | nil => simp [matches_nil_iff]
  | cons x p ih =>
    cases x with
    | any =>
      simp only [List.cons_append, matches_any_iff, ih]
      constructor
      · rintro ⟨u, -, rfl, v, w, rfl, first, second⟩
        exact ⟨u ++ v, w, by simp, ⟨u, v, rfl, first⟩, second⟩
      · rintro ⟨-, w, rfl, ⟨u, v, rfl, first⟩, second⟩
        exact ⟨u, v ++ w, by simp, v, w, rfl, first, second⟩
    | one =>
      simp only [List.cons_append, matches_one_iff, ih]
      constructor
      · rintro ⟨b, -, rfl, v, w, rfl, first, second⟩
        exact ⟨b :: v, w, rfl, ⟨b, v, rfl, first⟩, second⟩
      · rintro ⟨-, w, rfl, ⟨b, v, rfl, first⟩, second⟩
        exact ⟨b, v ++ w, rfl, v, w, rfl, first, second⟩
    | char a =>
      simp only [List.cons_append, matches_char_iff, ih]
      constructor
      · rintro ⟨b, -, rfl, here, v, w, rfl, first, second⟩
        exact ⟨b :: v, w, rfl, ⟨b, v, rfl, here, first⟩, second⟩
      · rintro ⟨-, w, rfl, ⟨b, v, rfl, here, first⟩, second⟩
        exact ⟨b, v ++ w, rfl, here, v, w, rfl, first, second⟩

theorem matches_snoc_any : Matches same (p ++ [.any]) s ↔ ∃ u v, s = u ++ v ∧ Matches same p u := by
  simp [matches_append, matches_any_iff, matches_nil_iff]

/- One more letter of the text: the cells of a table. -/

theorem snoc_any : Matches same (p ++ [.any]) (s ++ [b]) ↔ Matches same p (s ++ [b]) ∨ Matches same (p ++ [.any]) s := by
  simp only [matches_snoc_any]
  constructor
  · rintro ⟨u, v, cut, matched⟩
    rcases List.eq_nil_or_concat v with rfl | ⟨w, c, rfl⟩
    · rw [List.append_nil] at cut
      exact .inl (cut ▸ matched)
    · rw [List.concat_eq_append, ← List.append_assoc] at cut
      exact .inr ⟨u, w, (List.append_inj' cut rfl).1, matched⟩
  · rintro (matched | ⟨u, v, rfl, matched⟩)
    · exact ⟨s ++ [b], [], by simp, matched⟩
    · exact ⟨u, v ++ [b], by simp, matched⟩

theorem snoc_one : Matches same (p ++ [.one]) (s ++ [b]) ↔ Matches same p s := by
  rw [matches_append]
  constructor
  · rintro ⟨u, v, cut, matched, last⟩
    obtain ⟨c, w, rfl, empty⟩ := matches_one_iff.mp last
    obtain rfl := matches_nil_iff.mp empty
    exact (List.append_inj' cut rfl).1 ▸ matched
  · intro matched
    exact ⟨s, [b], rfl, matched, .one b .nil⟩

theorem snoc_char : Matches same (p ++ [.char a]) (s ++ [b]) ↔ same a b ∧ Matches same p s := by
  rw [matches_append]
  constructor
  · rintro ⟨u, v, cut, matched, last⟩
    obtain ⟨c, w, rfl, here, empty⟩ := matches_char_iff.mp last
    obtain rfl := matches_nil_iff.mp empty
    obtain ⟨rfl, letter⟩ := List.append_inj' cut rfl
    cases letter
    exact ⟨here, matched⟩
  · rintro ⟨here, matched⟩
    exact ⟨s, [b], rfl, matched, .char here .nil⟩

/- No letter: only `any` stands for that. -/

theorem empty_any : Matches same (p ++ [.any]) [] ↔ Matches same p [] := by
  rw [matches_snoc_any]
  constructor
  · rintro ⟨u, v, cut, matched⟩
    obtain ⟨rfl, -⟩ := List.append_eq_nil_iff.mp cut.symm
    exact matched
  · intro matched
    exact ⟨[], [], rfl, matched⟩

theorem empty_one : ¬ Matches same (p ++ [.one]) [] := by
  rw [matches_append]
  rintro ⟨u, v, cut, -, last⟩
  obtain ⟨-, rfl⟩ := List.append_eq_nil_iff.mp cut.symm
  cases last

theorem empty_char : ¬ Matches same (p ++ [.char a]) [] := by
  rw [matches_append]
  rintro ⟨u, v, cut, -, last⟩
  obtain ⟨-, rfl⟩ := List.append_eq_nil_iff.mp cut.symm
  cases last

end Meatloaf.Lib.Glob
