import Mathlib.Algebra.GroupWithZero.Nat
import Mathlib.Data.List.Basic

/-! Streams that are read in pieces. A stream delivers a text when reads of any sizes, as far as
they fit, return it piece by piece, and an empty piece only when all of it is out. -/
namespace Meatloaf.Lib

variable {σ α : Type*}

/-- The pieces that reads of these sizes return, joined. -/
def drain (read : Nat → σ → List α × σ) : List Nat → σ → List α × σ
  | [], s => ([], s)
  | n :: ns, s =>
    let piece := read n s
    let rest := drain read ns piece.2
    (piece.1 ++ rest.1, rest.2)

/-- A read of `n` takes a piece off what is left: none of it only where none is wanted. -/
structure Takes (n : Nat) (piece left rest : List α) : Prop where
  join : left = piece ++ rest
  short : piece.length ≤ n
  some : left ≠ [] → piece ≠ []

theorem Takes.take {n : Nat} (positive : 0 < n) (left : List α) : Takes n (left.take n) left (left.drop n) where
  join := (List.take_append_drop n left).symm
  short := List.length_take_le n left
  some more := by
    intro none
    rcases List.take_eq_nil_iff.mp none with zero | empty
    · omega
    · exact more empty

def Delivers (read : Nat → σ → List α × σ) (fits : Nat → Prop) (s : σ) (text : List α) : Prop :=
  ∀ ns, (∀ n ∈ ns, fits n) → ∃ left, text = (drain read ns s).1 ++ left ∧
    ∀ n, fits n → ∃ rest, Takes n (read n (drain read ns s).2).1 left rest

variable {read : Nat → σ → List α × σ} {fits : Nat → Prop}

theorem drain_append (ns ms : List Nat) (s : σ) :
    drain read (ns ++ ms) s =
      ((drain read ns s).1 ++ (drain read ms (drain read ns s).2).1, (drain read ms (drain read ns s).2).2) := by
  induction ns generalizing s with
  | nil => rfl
  | cons n ns ih =>
    rw [List.cons_append, drain, ih]
    simp only [drain, List.append_assoc]

/-- What is left to deliver is an invariant of the reads. -/
theorem Delivers.of_invariant (holds : σ → List α → Prop)
    (step : ∀ s left n, holds s left → fits n → ∃ rest, Takes n (read n s).1 left rest ∧ holds (read n s).2 rest)
    {s : σ} {text : List α} (start : holds s text) : Delivers read fits s text := by
  have run : ∀ (ns : List Nat) (s : σ) (text : List α), (∀ n ∈ ns, fits n) → holds s text →
      ∃ left, text = (drain read ns s).1 ++ left ∧ holds (drain read ns s).2 left := by
    intro ns
    induction ns with
    | nil => exact fun s text _ start => ⟨text, rfl, start⟩
    | cons n ns ih =>
      intro s text sizes start
      obtain ⟨rest, takes, next⟩ := step s text n start (sizes n List.mem_cons_self)
      obtain ⟨left, join, final⟩ := ih _ rest (fun m member => sizes m (List.mem_cons_of_mem n member)) next
      refine ⟨left, ?_, final⟩
      rw [takes.join, join, drain, List.append_assoc]
  intro ns sizes
  obtain ⟨left, join, final⟩ := run ns s text sizes start
  refine ⟨left, join, fun n fit => ?_⟩
  obtain ⟨rest, takes, -⟩ := step _ left n final fit
  exact ⟨rest, takes⟩

/-- Where every read takes all it asks for, as far as it is there, so do the reads together. -/
theorem drain_take (holds : σ → List α → Prop)
    (step : ∀ s left n, holds s left → fits n → (read n s).1 = left.take n ∧ holds (read n s).2 (left.drop n))
    {s : σ} {text : List α} (start : holds s text) {ns : List Nat} (sizes : ∀ n ∈ ns, fits n) :
    (drain read ns s).1 = text.take ns.sum := by
  induction ns generalizing s text with
  | nil => rfl
  | cons n ns ih =>
    obtain ⟨piece, next⟩ := step s text n start (sizes n List.mem_cons_self)
    rw [drain, piece, ih next fun m member => sizes m (List.mem_cons_of_mem n member), List.sum_cons, List.take_add]

/- Streams whose first reads are the same deliver the same. -/
theorem Delivers.congr {s s' : σ} (same : ∀ n, fits n → read n s = read n s') {text : List α} :
    Delivers read fits s text ↔ Delivers read fits s' text := by
  -- in either direction, since what is read first is the same
  have one : ∀ {s s' : σ}, (∀ n, fits n → read n s = read n s') → Delivers read fits s text →
      Delivers read fits s' text := by
    intro s s' same delivers ns sizes
    have left := delivers ns sizes
    cases ns with
    | nil =>
      obtain ⟨left, join, takes⟩ := left
      refine ⟨left, join, fun n fit => ?_⟩
      obtain ⟨rest, takes⟩ := takes n fit
      refine ⟨rest, ?_⟩
      rw [drain] at takes ⊢
      rw [← same n fit]
      exact takes
    | cons n ns =>
      have step : drain read (n :: ns) s' = drain read (n :: ns) s := by
        rw [drain, drain, same n (sizes n List.mem_cons_self)]
      rw [step]
      exact left
  exact ⟨one same, one fun n fit => (same n fit).symm⟩

/-- Behind a read, a stream delivers what the read has left. -/
theorem Delivers.step {s : σ} {text : List α} (delivers : Delivers read fits s text) {n : Nat} (fit : fits n) :
    ∃ rest, Takes n (read n s).1 text rest ∧ Delivers read fits (read n s).2 rest := by
  obtain ⟨left, join, takes⟩ := delivers [] (List.forall_mem_nil _)
  obtain rfl : text = left := join
  obtain ⟨rest, first⟩ := takes n fit
  refine ⟨rest, first, fun ns sizes => ?_⟩
  obtain ⟨left, join, takes⟩ := delivers (n :: ns) (List.forall_mem_cons.mpr ⟨fit, sizes⟩)
  have joined : (read n s).1 ++ rest = (read n s).1 ++ ((drain read ns (read n s).2).1 ++ left) :=
    first.join.symm.trans (join.trans (List.append_assoc _ _ _))
  exact ⟨left, List.append_cancel_left joined, takes⟩

/- With a size that fits, enough reads get all of it. -/
theorem Delivers.drained {s : σ} {text : List α} (delivers : Delivers read fits s text) {n : Nat} (fit : fits n)
    (k : Nat) : (drain read (List.replicate k n) s).1 = text ∨ k ≤ (drain read (List.replicate k n) s).1.length := by
  induction k with
  | zero => exact .inr (Nat.zero_le _)
  | succ k ih =>
    have sizes : ∀ m ∈ List.replicate k n, fits m := fun m member => List.eq_of_mem_replicate member ▸ fit
    obtain ⟨left, join, takes⟩ := delivers _ sizes
    obtain ⟨rest, takes⟩ := takes n fit
    have more : drain read (List.replicate (k + 1) n) s =
        ((drain read (List.replicate k n) s).1 ++ (read n (drain read (List.replicate k n) s).2).1,
          (read n (drain read (List.replicate k n) s).2).2) := by
      rw [List.replicate_succ', drain_append]
      simp [drain]
    rw [more]
    cases left with
    | nil =>
      have empty := List.append_eq_nil_iff.mp takes.join.symm
      rw [List.append_nil] at join
      exact .inl (by rw [empty.1, List.append_nil, join])
    | cons a left =>
      have piece := List.length_pos_iff.mpr (takes.some (List.cons_ne_nil a left))
      rcases ih with whole | long
      · rw [whole] at join
        have longer := congrArg List.length join
        rw [List.length_append, List.length_cons] at longer
        omega
      · right
        rw [List.length_append]
        omega

/-- A stream delivers one text. -/
theorem Delivers.unique {s : σ} {text text' : List α} (delivers : Delivers read fits s text)
    (delivers' : Delivers read fits s text') {n : Nat} (fit : fits n) : text = text' := by
  have all : ∀ {t : List α}, Delivers read fits s t → ∀ k, t.length < k →
      (drain read (List.replicate k n) s).1 = t := by
    intro t d k long
    rcases d.drained fit k with whole | more
    · exact whole
    · obtain ⟨left, join, -⟩ := d (List.replicate k n) fun m member => List.eq_of_mem_replicate member ▸ fit
      have longer := congrArg List.length join
      rw [List.length_append] at longer
      omega
  have here := all delivers (text.length + text'.length + 1) (by omega)
  have there := all delivers' (text.length + text'.length + 1) (by omega)
  exact here.symm.trans there

/-- No reads, of whatever sizes, tell the two states apart. -/
def Alike (read : Nat → σ → List α × σ) (s t : σ) : Prop := ∀ ns, (drain read ns s).1 = (drain read ns t).1

namespace Alike

variable {t : σ}

theorem refl (s : σ) : Alike read s s := fun _ => rfl

theorem symm (alike : Alike read s t) : Alike read t s := fun ns => (alike ns).symm

/- One read gives the same, -/
theorem piece (alike : Alike read s t) (n : Nat) : (read n s).1 = (read n t).1 := by
  simpa [drain] using alike [n]

/- and the states behind it are alike. -/
theorem next (alike : Alike read s t) (n : Nat) : Alike read (read n s).2 (read n t).2 := by
  intro ns
  have whole := alike (n :: ns)
  rw [drain, drain, alike.piece n] at whole
  exact List.append_cancel_left whole

/-- A relation that every read keeps, and in which it gives the same. -/
theorem of_relation {related : σ → σ → Prop}
    (step : ∀ s t n, related s t → (read n s).1 = (read n t).1 ∧ related (read n s).2 (read n t).2)
    (start : related s t) : Alike read s t := by
  intro ns
  induction ns generalizing s t with
  | nil => rfl
  | cons n ns ih =>
    obtain ⟨piece, next⟩ := step s t n start
    rw [drain, drain, piece, ih next]

end Alike

/-- Reads of these sizes, in this order, take the text piece by piece, and each reports as much as it wrote. -/
def Exact (read : Nat → σ → (Nat × List α) × σ) : σ → List α → List Nat → Prop
  | _, _, [] => True
  | s, text, n :: ns => (read n s).1.1 = (read n s).1.2.length ∧
      ∃ rest, Takes n (read n s).1.2 text rest ∧ Exact read (read n s).2 rest ns

/- It is enough that what is left is an invariant of the reads. -/
theorem Exact.of_invariant {read : Nat → σ → (Nat × List α) × σ} (holds : σ → List α → Prop)
    (step : ∀ s left n, holds s left → 0 < n → (read n s).1.1 = (read n s).1.2.length ∧
      ∃ rest, Takes n (read n s).1.2 left rest ∧ holds (read n s).2 rest)
    {s : σ} {text : List α} (start : holds s text) {ns : List Nat} (positive : ∀ n ∈ ns, 0 < n) :
    Exact read s text ns := by
  induction ns generalizing s text with
  | nil => trivial
  | cons n ns ih =>
    obtain ⟨counted, rest, takes, next⟩ := step s text n start (positive n List.mem_cons_self)
    exact ⟨counted, rest, takes, ih next fun m member => positive m (List.mem_cons_of_mem n member)⟩

/- A stream that reads as the one inside it. -/
theorem Exact.of_inside {τ : Type*} {read : Nat → σ → (Nat × List α) × σ} {read' : Nat → τ → (Nat × List α) × τ}
    (inside : σ → τ) (same : ∀ n s, (read n s).1 = (read' n (inside s)).1)
    (next : ∀ n s, inside (read n s).2 = (read' n (inside s)).2) {s : σ} {text : List α} {ns : List Nat} :
    Exact read s text ns ↔ Exact read' (inside s) text ns := by
  induction ns generalizing s text with
  | nil => rfl
  | cons n ns ih =>
    rw [Exact, Exact, same]
    refine and_congr_right fun _ => exists_congr fun rest => and_congr_right fun _ => ?_
    rw [ih, next]

/-- A limit on the text falls inside one of its pieces. -/
def Cut (limit : Nat) (pieces : List (List α)) : Prop :=
  ∃ before piece after, pieces = before ++ piece :: after ∧ before.flatten.length < limit ∧
    limit < before.flatten.length + piece.length

@[simp] theorem not_cut_nil (limit : Nat) : ¬ Cut limit ([] : List (List α)) := by
  rintro ⟨before, piece, after, split, -⟩
  exact List.append_ne_nil_of_right_ne_nil before (List.cons_ne_nil piece after) split.symm

@[simp] theorem not_cut_zero (pieces : List (List α)) : ¬ Cut 0 pieces := by
  rintro ⟨before, piece, after, -, short, -⟩
  exact Nat.not_lt_zero _ short

/- It falls inside the first one or, counted from there, a later one. -/
theorem cut_cons {limit : Nat} (positive : 0 < limit) (piece : List α) (pieces : List (List α)) :
    Cut limit (piece :: pieces) ↔ limit < piece.length ∨ Cut (limit - piece.length) pieces := by
  constructor
  · rintro ⟨before, p, after, split, short, long⟩
    cases before with
    | nil =>
      rw [List.nil_append, List.cons.injEq] at split
      simp only [List.flatten_nil, List.length_nil, Nat.zero_add] at long
      exact .inl (split.1 ▸ long)
    | cons q before =>
      rw [List.cons_append, List.cons.injEq] at split
      obtain ⟨rfl, rfl⟩ := split
      simp only [List.flatten_cons, List.length_append] at short long
      exact .inr ⟨before, p, after, rfl, by omega, by omega⟩
  · rintro (long | ⟨before, p, after, rfl, short, long⟩)
    · exact ⟨[], piece, pieces, rfl, positive, by simpa using long⟩
    · refine ⟨piece :: before, p, after, rfl, ?_, ?_⟩
      · simp only [List.flatten_cons, List.length_append]
        omega
      · simp only [List.flatten_cons, List.length_append]
        omega

end Meatloaf.Lib
