import Mathlib.Data.List.Basic
import Meatloaf.Lib.Faulty
import Meatloaf.Tape.Decoder

/-! Reading through the window gives what is on the container, as long as no read of the container
fails. -/
namespace Meatloaf.Tape

open Lib

namespace Window

variable {container : Str} {answer : Nat → Nat} {w : Window} {p n left : Nat}

/- The window shows a piece of the container. -/
def Shows (container : Str) (w : Window) : Prop := w.bytes = (container.drop w.win_start).take w.bytes.length

/- Bytes of the container, when they are there. -/
def slice (container : Str) (p n : Nat) : Id (Option Str) :=
  if n = 0 ∨ p + n ≤ container.length then some ((container.drop p).take n) else none

theorem shows_start (container : Str) : Shows container {} := rfl

theorem refill_asked (w : Window) : w.asked ≤ (refill container answer p w).2.asked := by
  rw [refill]
  split
  · exact Nat.le_refl _
  · dsimp only
    split <;> exact Nat.le_succ _

/-- A read of the container that gives something begins the window where it was wanted. -/
theorem refill_true (given : (refill container answer p w).1 = true) :
    Shows container (refill container answer p w).2 ∧ (refill container answer p w).2.win_start = p ∧
      0 < (refill container answer p w).2.bytes.length := by
  rw [refill] at given ⊢
  split at given
  · cases given
  · rename_i inside
    dsimp only at given ⊢
    split at given
    · cases given
    · rename_i some
      rw [if_neg inside, if_neg some]
      refine ⟨?_, rfl, ?_⟩
      · rw [Shows, List.length_take]
        exact List.take_eq_take_min
      · rw [List.length_take, List.length_drop]
        omega

/-- One that gives nothing is past the end, or has failed. -/
theorem refill_false (refused : (refill container answer p w).1 = false) :
    (refill container answer p w).2.bytes = w.bytes ∧ (refill container answer p w).2.win_start = w.win_start ∧
      (container.length ≤ p ∨ answer w.asked = 0 ∧ (refill container answer p w).2.asked = w.asked + 1) := by
  rw [refill] at refused ⊢
  split at refused
  · rename_i outside
    rw [if_pos outside]
    exact ⟨rfl, rfl, .inl outside⟩
  · rename_i inside
    dsimp only at refused ⊢
    split at refused
    · rename_i none
      rw [if_neg inside, if_pos none]
      exact ⟨rfl, rfl, .inr ⟨by omega, rfl⟩⟩
    · cases refused

/- The bytes of the window from a place in it on. -/
theorem Shows.piece (showing : Shows container w) {off chunk : Nat} (inside : off + chunk ≤ w.bytes.length) :
    (w.bytes.drop off).take chunk = (container.drop (w.win_start + off)).take chunk ∧
      w.win_start + w.bytes.length ≤ max container.length w.win_start := by
  constructor
  · rw [showing, List.drop_take, List.take_take, List.drop_drop, Nat.min_eq_left (by omega)]
  · have length := congrArg List.length showing
    rw [List.length_take, List.length_drop] at length
    omega

theorem readLoop_asked (n p left : Nat) (w : Window) : w.asked ≤ (readLoop container answer n p left w).2.asked := by
  induction n generalizing p left w with
  | zero => exact Nat.le_refl _
  | succ n ih =>
    rw [readLoop]
    split
    · exact Nat.le_refl _
    · have filled : w.asked ≤ (if p < w.win_start ∨ w.win_start + w.bytes.length ≤ p
          then refill container answer p w else (true, w)).2.asked := by
        split
        · exact refill_asked w
        · exact Nat.le_refl _
      dsimp only
      generalize (if p < w.win_start ∨ w.win_start + w.bytes.length ≤ p
        then refill container answer p w else (true, w)) = r at *
      split
      · exact filled.trans (ih ..)
      · exact filled

/-- What the loop of `readBytes` gives: the bytes of the container, or nothing, past its end or after a
read that failed. -/
theorem readLoop_spec (showing : Shows container w) (enough : left ≤ n) :
    Shows container (readLoop container answer n p left w).2 ∧
      ((readLoop container answer n p left w).1 = (slice container p left).run ∨
        (readLoop container answer n p left w).1 = none ∧
          ¬ Clean asked (fun k => answer k = 0) w (readLoop container answer n p left w).2) := by
  induction n generalizing p left w with
  | zero =>
    obtain rfl : left = 0 := by omega
    exact ⟨showing, .inl rfl⟩
  | succ n ih =>
    rw [readLoop]
    by_cases done : left = 0
    · subst done
      exact ⟨showing, .inl rfl⟩
    · rw [if_neg done]
      dsimp only
      obtain ⟨r, filled⟩ : ∃ r, r = if p < w.win_start ∨ w.win_start + w.bytes.length ≤ p
          then refill container answer p w else (true, w) := ⟨_, rfl⟩
      rw [← filled]
      by_cases given : r.1 = true
      · -- the window has the byte at `p`
        have window : Shows container r.2 ∧ r.2.win_start ≤ p ∧ p < r.2.win_start + r.2.bytes.length ∧ w.asked ≤ r.2.asked := by
          split at filled
          · rw [filled] at given ⊢
            obtain ⟨kept, start, some⟩ := refill_true given
            exact ⟨kept, by omega, by omega, refill_asked w⟩
          · rw [filled]
            dsimp only
            exact ⟨showing, by omega, by omega, Nat.le_refl _⟩
        obtain ⟨kept, start, some, more⟩ := window
        obtain ⟨chunk, taken⟩ : ∃ chunk, chunk = min (r.2.bytes.length - (p - r.2.win_start)) left := ⟨_, rfl⟩
        obtain ⟨piece, room⟩ := @Shows.piece container r.2 kept (p - r.2.win_start) chunk (by omega)
        have place : r.2.win_start + (p - r.2.win_start) = p := by omega
        rw [place] at piece
        obtain ⟨after, rest⟩ := @ih r.2 (p + chunk) (left - chunk) kept (by omega)
        rw [if_pos given, ← taken]
        refine ⟨after, rest.imp (fun rest => ?_) fun rest => ⟨by rw [rest.1]; rfl, fun clean => rest.2 fun k since below =>
          clean k (more.trans since) below⟩⟩
        rw [rest, piece]
        have inside : p + chunk ≤ container.length := by omega
        simp only [slice, Id.run, done, false_or]
        by_cases enough : p + left ≤ container.length
        · have split : left = chunk + (left - chunk) := by omega
          rw [if_pos enough, if_pos (by omega), Option.map_some, ← List.drop_drop, ← List.take_add, ← split]
        · rw [if_neg enough, if_neg (by omega)]
          rfl
      · have refused : r.1 = false := by simpa using given
        rw [if_neg given]
        split at filled
        · rw [filled] at refused ⊢
          obtain ⟨bytes, start, cause⟩ := refill_false refused
          refine ⟨?_, ?_⟩
          · rw [Shows, bytes, start]
            exact showing
          · rcases cause with outside | ⟨failed, asked⟩
            · refine .inl ?_
              simp only [slice, Id.run]
              rw [if_neg (by omega)]
            · exact .inr ⟨rfl, fun clean => clean _ (Nat.le_refl _) (by rw [asked]; exact Nat.lt_succ_self _) failed⟩
        · rw [filled] at refused
          cases refused

/-- What is read is on the container. -/
theorem readBytes_some {bytes : Str} (showing : Shows container w) (read : (readBytes container answer p n w).1 = some bytes) :
    (slice container p n).run = some bytes := by
  rcases (readLoop_spec showing (Nat.le_refl n)).2 with same | ⟨none, -⟩
  · rw [← same]
    exact read
  · rw [readBytes, none] at read
    cases read

/-- Reading through the window. -/
theorem readBytes_agrees (p n : Nat) :
    Agrees (Shows container) asked (fun k => answer k = 0) (readBytes container answer p n) (slice container p n) where
  keeps _ showing := (readLoop_spec showing (Nat.le_refl n)).1
  counts := readLoop_asked n p n
  value _ showing clean := (readLoop_spec showing (Nat.le_refl n)).2.resolve_right fun failed => failed.2 clean

end Window

section Agreement

variable {σ : Type} {I : σ → Prop} {asked : σ → Nat} {bad : Nat → Prop} {read : Nat → Nat → StateM σ (Option Str)}
  {plain : Nat → Nat → Id (Option Str)} {container_len : Nat} {f : TapeFormat}

theorem samples_agrees (reads : ∀ p n, Agrees I asked bad (read p n) (plain p n)) (n total p : Nat) :
    Agrees I asked bad (samples read n total p) (samples plain n total p) := by
  induction n generalizing total p with
  | zero => exact .pure _
  | succ n ih =>
    refine .bind (reads p 2) fun two => ?_
    cases two with
    | none => exact .pure _
    | some two =>
      dsimp only
      split
      · exact .pure _
      · exact ih _ _

theorem nextValue_agrees (reads : ∀ p n, Agrees I asked bad (read p n) (plain p n)) (p : Nat) :
    Agrees I asked bad (nextValue read container_len f p) (nextValue plain container_len f p) := by
  unfold nextValue
  cases f.kind with
  | tap =>
    dsimp only
    split
    · exact .pure _
    · refine .bind (reads p 1) fun b => ?_
      cases b with
      | none => exact .pure _
      | some b =>
        dsimp only
        split
        · exact .pure _
        · split
          · exact .pure _
          · refine .bind (reads (p + 1) 3) fun three => ?_
            cases three <;> exact .pure _
  | dmp =>
    refine .bind (samples_agrees reads _ 0 p) fun r => ?_
    obtain ⟨total, p⟩ := r
    cases total <;> exact .pure _
  | htap =>
    refine .bind (reads p 2) fun two => ?_
    cases two with
    | none => exact .pure _
    | some two =>
      dsimp only
      split
      · refine .bind (reads (p + 2) 6) fun rest => ?_
        cases rest <;> exact .pure _
      · exact .pure _

theorem values_agrees (reads : ∀ p n, Agrees I asked bad (read p n) (plain p n)) (n p : Nat) :
    Agrees I asked bad (values read container_len f n p) (values plain container_len f n p) := by
  induction n generalizing p with
  | zero => exact .pure _
  | succ n ih =>
    refine .bind (nextValue_agrees reads p) fun r => ?_
    obtain ⟨_ | cycles, p⟩ := r
    · exact .pure _
    · exact .bind (ih p) fun _ => .pure _

theorem pulse_agrees (reads : ∀ p n, Agrees I asked bad (read p n) (plain p n)) (c : Conversion) :
    Agrees I asked bad (pulse read container_len f c) (pulse plain container_len f c) := by
  refine .bind (nextValue_agrees reads _) fun r => ?_
  obtain ⟨_ | cycles, p⟩ := r
  · dsimp only
    split <;> exact .pure _
  · dsimp only
    split
    · refine .bind (nextValue_agrees reads p) fun r => ?_
      obtain ⟨_ | second, p⟩ := r <;> exact .pure _
    · exact .pure _

end Agreement

end Meatloaf.Tape
