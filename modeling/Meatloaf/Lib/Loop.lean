import Mathlib.Data.List.Basic

/-! A loop that counts in an unsigned integer: `for (t = first; t <= last; t++)`. The counter wraps, so the
loop ends by its test only when `last` is not the greatest number of its width. -/
namespace Meatloaf.Lib.Loop

variable {σ : Type*} (body : Nat → σ → Bool × σ)

/- The passes for the numbers of a list, up to the first that fails. -/
def passes : List Nat → σ → Bool × σ
  | [], s => (true, s)
  | t :: ts, s =>
    let r := body t s
    if r.1 then passes ts r.2 else (false, r.2)

/- At most `fuel` tests of a counter below `width`; `none` when these are not enough. -/
def upward (width last : Nat) : Nat → Nat → σ → Option (Bool × σ)
  | 0, _, _ => none
  | fuel + 1, t, s =>
    if last < t then some (true, s)
    else
      let r := body t s
      if r.1 then upward width last fuel ((t + 1) % width) r.2 else some (false, r.2)

variable {body} {width last : Nat}

theorem passes_append (ts us : List Nat) (s : σ) :
    passes body (ts ++ us) s =
      if (passes body ts s).1 then passes body us (passes body ts s).2 else (false, (passes body ts s).2) := by
  induction ts generalizing s with
  | nil => rfl
  | cons t ts ih =>
    simp only [List.cons_append, passes]
    split
    · exact ih _
    · rfl

/- What every pass keeps up. -/
theorem passes_keeps {P : σ → Prop} (ts : List Nat)
    (each : ∀ t ∈ ts, ∀ s, P s → (body t s).1 = true ∧ P (body t s).2) {s : σ} (start : P s) :
    (passes body ts s).1 = true ∧ P (passes body ts s).2 := by
  induction ts generalizing s with
  | nil => exact ⟨rfl, start⟩
  | cons t ts ih =>
    obtain ⟨done, kept⟩ := each t List.mem_cons_self s start
    simp only [passes, done, if_true]
    exact ih (fun u member => each u (List.mem_cons_of_mem _ member)) kept

/-- Below the greatest number the loop makes one pass for each number of the range. -/
theorem upward_ends (small : last + 1 < width) {t : Nat} (start : t ≤ last + 1) (s : σ) {fuel : Nat}
    (enough : last + 1 - t < fuel) :
    upward body width last fuel t s = some (passes body (List.range' t (last + 1 - t)) s) := by
  induction fuel generalizing t s with
  | zero => omega
  | succ fuel ih =>
    by_cases exceeds : last < t
    · rw [show last + 1 - t = 0 by omega]
      simp only [upward, if_pos exceeds, List.range'_zero, passes]
    · rw [show last + 1 - t = last - t + 1 by omega, List.range'_succ]
      simp only [upward, if_neg exceeds, passes]
      split
      · rw [Nat.mod_eq_of_lt (show t + 1 < width by omega), ih (by omega) _ (by omega),
          show last + 1 - (t + 1) = last - t by omega]
      · rfl

/- However much fuel there is, the result is that of the passes. -/
theorem upward_result (small : last + 1 < width) {t : Nat} (start : t ≤ last + 1) {s : σ} {fuel : Nat} {r : Bool × σ}
    (run : upward body width last fuel t s = some r) : r = passes body (List.range' t (last + 1 - t)) s := by
  induction fuel generalizing t s with
  | zero => cases run
  | succ fuel ih =>
    by_cases exceeds : last < t
    · rw [show last + 1 - t = 0 by omega]
      simp only [upward, if_pos exceeds, Option.some.injEq] at run
      exact run.symm
    · rw [show last + 1 - t = last - t + 1 by omega, List.range'_succ]
      simp only [upward, if_neg exceeds] at run
      simp only [passes]
      split at run
      · rename_i done
        rw [Nat.mod_eq_of_lt (show t + 1 < width by omega)] at run
        rw [if_pos done, ih (by omega) run, show last + 1 - (t + 1) = last - t by omega]
      · rename_i failed
        rw [if_neg failed]
        exact (Option.some.inj run).symm

/- At the greatest number the test never fails. -/
theorem upward_unfinished (full : last + 1 = width) (fuel : Nat) {t : Nat} (start : t < width) (s s' : σ) :
    upward body width last fuel t s ≠ some (true, s') := by
  induction fuel generalizing t s with
  | zero => exact nofun
  | succ fuel ih =>
    simp only [upward, if_neg (show ¬ last < t by omega)]
    split
    · exact ih (Nat.mod_lt _ (by omega)) _
    · exact nofun

/-- At the greatest number the loop has no end as long as every pass succeeds. -/
theorem upward_endless (full : last + 1 = width) {P : σ → Prop}
    (each : ∀ t s, P s → (body t s).1 = true ∧ P (body t s).2) (fuel : Nat) {t : Nat} (start : t < width) {s : σ}
    (kept : P s) : upward body width last fuel t s = none := by
  induction fuel generalizing t s with
  | zero => rfl
  | succ fuel ih =>
    obtain ⟨done, next⟩ := each t s kept
    simp only [upward, if_neg (show ¬ last < t by omega), done, if_true]
    exact ih (Nat.mod_lt _ (by omega)) next

end Meatloaf.Lib.Loop
