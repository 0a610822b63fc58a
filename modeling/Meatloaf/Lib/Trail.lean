import Mathlib.Data.Fintype.Pigeonhole
import Mathlib.Data.Set.Finite.Basic
import Mathlib.Order.Lattice.Nat

/-! A machine that gives an item and goes on, or stops. It has one step in each state, so from a state
there is one trail of each length. In finitely many states a trail without an end comes to a circle. -/
namespace Meatloaf.Lib

variable {σ α : Type*} {step : σ → Option (α × σ)} {s t u : σ} {a : α} {xs ys : List α}

/-- From one state the machine gives these items and is in another. -/
inductive Trail (step : σ → Option (α × σ)) : σ → List α → σ → Prop
  | nil {s : σ} : Trail step s [] s
  | cons {s t u : σ} {a : α} {xs : List α} : step s = some (a, t) → Trail step t xs u → Trail step s (a :: xs) u

namespace Trail

theorem append (first : Trail step s xs t) (second : Trail step t ys u) : Trail step s (xs ++ ys) u := by
  induction first with
  | nil => exact second
  | cons here _ ih => exact .cons here (ih second)

theorem snoc (first : Trail step s xs t) (next : step t = some (a, u)) : Trail step s (xs ++ [a]) u :=
  first.append (.cons next .nil)

theorem split (trail : Trail step s (xs ++ ys) u) : ∃ t, Trail step s xs t ∧ Trail step t ys u := by
  induction xs generalizing s with
  | nil => exact ⟨s, .nil, trail⟩
  | cons a xs ih =>
    cases trail with
    | cons here rest =>
      obtain ⟨t, first, second⟩ := ih rest
      exact ⟨t, .cons here first, second⟩

theorem det (trail : Trail step s xs t) (other : Trail step s ys u) (long : xs.length = ys.length) : xs = ys ∧ t = u := by
  induction trail generalizing ys with
  | nil =>
    cases other with
    | nil => exact ⟨rfl, rfl⟩
    | cons => cases long
  | cons here _ ih =>
    cases other with
    | nil => cases long
    | cons there rest =>
      rw [here, Option.some.injEq, Prod.mk.injEq] at there
      obtain ⟨rfl, rfl⟩ := there
      obtain ⟨rfl, rfl⟩ := ih rest (Nat.succ.inj long)
      exact ⟨rfl, rfl⟩

/-- The longer one of two trails begins with the other. -/
theorem beyond (trail : Trail step s xs t) (other : Trail step s ys u) (short : xs.length ≤ ys.length) :
    ∃ zs, ys = xs ++ zs ∧ Trail step t zs u := by
  obtain ⟨k, length⟩ : ∃ k, k = xs.length := ⟨_, rfl⟩
  rw [← length] at short
  rw [← List.take_append_drop k ys] at other
  obtain ⟨v, first, second⟩ := other.split
  obtain ⟨same, rfl⟩ := trail.det first (by rw [List.length_take, Nat.min_eq_left short, length])
  exact ⟨ys.drop k, by rw [same, List.take_append_drop], second⟩

/- No trail goes on where another one has stopped. -/
theorem within (trail : Trail step s xs t) (other : Trail step s ys u) (stops : step u = none) : xs.length ≤ ys.length := by
  by_contra long
  obtain ⟨zs, whole, rest⟩ := other.beyond trail (by omega)
  cases rest with
  | nil =>
    rw [List.append_nil] at whole
    rw [whole] at long
    exact long (Nat.le_refl _)
  | cons here =>
    rw [stops] at here
    cases here

/- From two states with the same step. -/
theorem congr_head (trail : Trail step s xs u) (same : step t = step s) (some : xs ≠ []) : Trail step t xs u := by
  cases trail with
  | nil => exact absurd rfl some
  | cons here rest => exact .cons (same.trans here) rest

/-- A set that the steps do not leave. -/
theorem stays {S : Set σ} (closed : ∀ s a t, s ∈ S → step s = some (a, t) → t ∈ S) (start : s ∈ S)
    (trail : Trail step s xs t) : t ∈ S := by
  induction trail with
  | nil => exact start
  | cons here _ ih => exact ih (closed _ _ _ start here)

end Trail

/- Among enough items of a kind there is each of them, with those before it. -/
theorem exists_nth {P : α → Bool} {k : Nat} (enough : k < xs.countP P) :
    ∃ pre a post, xs = pre ++ a :: post ∧ P a = true ∧ pre.countP P = k := by
  induction xs generalizing k with
  | nil => cases enough
  | cons a xs ih =>
    rw [List.countP_cons] at enough
    by_cases kind : P a = true
    · cases k with
      | zero => exact ⟨[], a, xs, rfl, kind, rfl⟩
      | succ k =>
        rw [if_pos kind] at enough
        obtain ⟨pre, b, post, whole, kind', count⟩ := ih (k := k) (by omega)
        exact ⟨a :: pre, b, post, by rw [whole]; rfl, kind', by rw [List.countP_cons, count, if_pos kind]⟩
    · rw [if_neg kind] at enough
      obtain ⟨pre, b, post, whole, kind', count⟩ := ih enough
      exact ⟨a :: pre, b, post, by rw [whole]; rfl, kind', by rw [List.countP_cons, count, if_neg kind, Nat.add_zero]⟩

/-- The trail comes to a circle that gives no item of a kind, with items that fit before it. -/
def Barren (step : σ → Option (α × σ)) (P : α → Bool) (fits : List α → Prop) (s : σ) : Prop :=
  ∃ xs t lap, Trail step s xs t ∧ fits xs ∧ lap ≠ [] ∧ Trail step t lap t ∧ lap.countP P = 0

/- Round a circle as often as one likes. -/
theorem Trail.laps {lap : List α} (circle : Trail step t lap t) (n : Nat) :
    Trail step t (List.replicate n lap).flatten t := by
  induction n with
  | zero => exact .nil
  | succ n ih =>
    rw [List.replicate_succ, List.flatten_cons]
    exact circle.append ih

/-- In finitely many states, trails of all lengths whose items fit come of a circle, when a list that fits
has few items of the kind and the others do not matter. -/
theorem endless_iff_barren {P : α → Bool} {fits : List α → Prop} {n : Nat} {S : Set σ} (finite : S.Finite)
    (closed : ∀ s a t, s ∈ S → step s = some (a, t) → t ∈ S) (start : s ∈ S)
    (few : ∀ xs, fits xs → xs.countP P < n) (front : ∀ xs ys, fits (xs ++ ys) → fits xs)
    (more : ∀ xs ys, fits xs → ys.countP P = 0 → fits (xs ++ ys)) :
    (∀ n, ∃ xs t, xs.length = n ∧ Trail step s xs t ∧ fits xs) ↔ Barren step P fits s := by
  constructor
  · intro endless
    choose xs t long trail fit using endless
    -- from some length on there are no more items of the kind
    obtain ⟨N, most⟩ : ∃ N, ∀ n, (xs n).countP P ≤ (xs N).countP P := by
      have bounded : BddAbove (Set.range fun n => (xs n).countP P) := by
        refine ⟨n, ?_⟩
        rintro _ ⟨n, rfl⟩
        exact Nat.le_of_lt (few _ (fit n))
      obtain ⟨N, top⟩ := Nat.sSup_mem (Set.range_nonempty fun n => (xs n).countP P) bounded
      refine ⟨N, fun n => ?_⟩
      have below := le_csSup bounded (Set.mem_range_self n)
      rwa [← top] at below
    have inside : ∀ j, t (N + j) ∈ S := fun j => (trail (N + j)).stays closed start
    have := finite.to_subtype
    obtain ⟨i, j, apart, same⟩ := Finite.exists_ne_map_eq_of_infinite fun j => (⟨t (N + j), inside j⟩ : S)
    have meet : t (N + i) = t (N + j) := congrArg Subtype.val same
    -- the earlier and the later of the two
    have lasso : ∀ i j, i < j → t (N + i) = t (N + j) → Barren step P fits s := by
      intro i j before meet
      obtain ⟨lap, whole, round⟩ := (trail (N + i)).beyond (trail (N + j)) (by rw [long, long]; omega)
      obtain ⟨first, start', -⟩ := (trail N).beyond (trail (N + i)) (by rw [long, long]; omega)
      rw [← meet] at round
      refine ⟨xs (N + i), t (N + i), lap, trail _, fit _, ?_, round, ?_⟩
      · rintro rfl
        have same := congrArg List.length whole
        rw [List.append_nil, long, long] at same
        omega
      · have counted := congrArg (List.countP P) whole
        have counted' := congrArg (List.countP P) start'
        rw [List.countP_append] at counted counted'
        have limit := most (N + j)
        omega
    rcases Nat.lt_or_gt_of_ne apart with before | after
    · exact lasso i j before meet
    · exact lasso j i after meet.symm
  · rintro ⟨xs, t, lap, trail, fit, some, circle, none⟩ n
    have long : n ≤ (xs ++ (List.replicate n lap).flatten).length := by
      have one := List.length_pos_iff.mpr some
      rw [List.length_append, List.length_flatten, List.map_replicate, List.sum_replicate_nat]
      exact (Nat.le_mul_of_pos_right n one).trans (Nat.le_add_left _ _)
    have whole := trail.append (circle.laps n)
    have fits' : fits (xs ++ (List.replicate n lap).flatten) := by
      refine more _ _ fit ?_
      rw [List.countP_flatten, List.map_replicate, none]
      simp
    rw [← List.take_append_drop n (xs ++ (List.replicate n lap).flatten)] at whole fits'
    obtain ⟨u, first, -⟩ := whole.split
    exact ⟨_, u, by rw [List.length_take, Nat.min_eq_left long], first, front _ _ fits'⟩

end Meatloaf.Lib
