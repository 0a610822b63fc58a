import Mathlib.Algebra.GroupWithZero.Nat
import Meatloaf.Lib.Run
import Meatloaf.Stream.Container

/-! `DHDOffsetStream`: a partition as a container of its own. The window has a position and the image has
another one, which only a seek that the image accepts brings together. -/
namespace Meatloaf.Hd

open Lib

structure DHDOffsetStream where
  m_inner : Container
  m_offset : Nat
  size : Nat
  position : Nat := 0

/- A call, and what the image makes of it: a seek is accepted or not, and a transfer has at most so many bytes. -/
inductive WindowCall
  | seek (pos : UInt32) (accepted : Bool)
  | read (size most : Nat)
  | write (buf : List UInt8) (most : Nat)

namespace DHDOffsetStream

/- What is left of the window for a transfer. -/
def room (s : DHDOffsetStream) (size : Nat) : Nat := if s.size - s.position < size then s.size - s.position else size

/-- `seek`. -/
def seek (pos : UInt32) (accepted : Bool) (s : DHDOffsetStream) : Bool × DHDOffsetStream :=
  (accepted, { s with
    position := pos.toNat
    m_inner := if accepted then s.m_inner.seek ((s.m_offset + pos.toNat) % 2 ^ 32) else s.m_inner })

/-- `read`. -/
def read (size most : Nat) (s : DHDOffsetStream) : List UInt8 × DHDOffsetStream :=
  if s.size ≤ s.position then ([], s)
  else
    let r := s.m_inner.read (min most (s.room size))
    (r.1, { s with m_inner := r.2, position := s.position + r.1.length })

/-- `write`. -/
def write (buf : List UInt8) (most : Nat) (s : DHDOffsetStream) : Nat × DHDOffsetStream :=
  if s.size ≤ s.position then (0, s)
  else
    let bytes := buf.take (min most (s.room buf.length))
    let r := if bytes = [] then (0, s.m_inner) else s.m_inner.write bytes
    (r.1, { s with m_inner := r.2, position := s.position + r.1 })

/- The state after a call. -/
def after (s : DHDOffsetStream) : WindowCall → DHDOffsetStream
  | .seek pos accepted => (s.seek pos accepted).2
  | .read size most => (s.read size most).2
  | .write buf most => (s.write buf most).2

/- How many bytes a call reads or writes. -/
def moved (s : DHDOffsetStream) : WindowCall → Nat
  | .seek .. => 0
  | .read size most => (s.read size most).1.length
  | .write buf most => (s.write buf most).1

/- The bytes of the image that it reads or writes. -/
def touched (s : DHDOffsetStream) (call : WindowCall) : List Nat := List.range' s.m_inner.pos (s.moved call)

/-- They are the bytes of the partition at the position of the window. -/
structure Own (s : DHDOffsetStream) (call : WindowCall) : Prop where
  place : s.touched call = List.range' (s.m_offset + s.position) (s.moved call)
  inside : ∀ a ∈ s.touched call, s.m_offset ≤ a ∧ a < s.m_offset + s.size

/- Whether the last seek has brought the positions together. -/
def anchors (s : DHDOffsetStream) (was : Bool) : WindowCall → Bool
  | .seek pos true => s.m_offset + pos.toNat < 2 ^ 32
  | .seek pos false => s.m_inner.pos = s.m_offset + pos.toNat
  | _ => was

/- A window, and whether it is anchored. -/
def anchoredAfter (t : DHDOffsetStream × Bool) (call : WindowCall) : DHDOffsetStream × Bool :=
  (t.1.after call, t.1.anchors t.2 call)

variable {s : DHDOffsetStream} {call : WindowCall}

/- What a read gives are the bytes it touches. -/
theorem read_bytes (size most : Nat) : (s.read size most).1 = (s.touched (.read size most)).map s.m_inner.data := by
  rw [touched, moved, read]
  split
  · rfl
  · simp only [Container.read, Store.length_read]
    rw [Store.read, List.range'_eq_map_range, List.map_map]
    rfl

/- A write leaves the bytes of the image that it does not touch. -/
theorem write_others (buf : List UInt8) (most : Nat) {a : Nat} (image : a < s.m_inner.size)
    (other : a ∉ s.touched (.write buf most)) : (s.write buf most).2.m_inner.data a = s.m_inner.data a := by
  rw [touched, moved, List.mem_range'_1] at other
  rw [write] at other ⊢
  split
  · rfl
  · rename_i more
    rw [if_neg more] at other
    dsimp only at other ⊢
    split
    · rfl
    · rename_i some
      rw [if_neg some] at other
      rw [Container.write] at other ⊢
      split
      · rfl
      · rename_i taken
        rw [if_neg taken] at other
        dsimp only at other ⊢
        have kept := Store.put_outside (Container.extend s.m_inner.data s.m_inner.size s.m_inner.pos) s.m_inner.pos
          (buf.take (min most (s.room buf.length))) a (by omega)
        exact kept.trans (if_neg (by omega))

/-- A transfer stays in the window, and takes both positions along. -/
theorem after_spec (s : DHDOffsetStream) (call : WindowCall) :
    (s.after call).m_offset = s.m_offset ∧ (s.after call).size = s.size ∧
      (s.position + s.moved call ≤ s.size ∨ s.moved call = 0) ∧
      ((∃ pos accepted, call = .seek pos accepted) ∨
        (s.after call).m_inner.pos = s.m_inner.pos + s.moved call ∧
          (s.after call).position = s.position + s.moved call ∧ ∀ was, s.anchors was call = was) := by
  cases call with
  | seek pos accepted => exact ⟨rfl, rfl, .inr rfl, .inl ⟨pos, accepted, rfl⟩⟩
  | read size most =>
    simp only [after, moved, read]
    split
    · exact ⟨rfl, rfl, .inr rfl, .inr ⟨rfl, rfl, fun _ => rfl⟩⟩
    · refine ⟨rfl, rfl, .inl ?_, .inr ⟨?_, rfl, fun _ => rfl⟩⟩
      · simp only [Container.read, Store.length_read, room]
        split
        · omega
        · omega
      · simp only [Container.read, Store.length_read]
  | write buf most =>
    simp only [after, moved, write]
    split
    · exact ⟨rfl, rfl, .inr rfl, .inr ⟨rfl, rfl, fun _ => rfl⟩⟩
    · by_cases none : buf.take (min most (s.room buf.length)) = []
      · rw [if_pos none]
        exact ⟨rfl, rfl, .inr rfl, .inr ⟨rfl, rfl, fun _ => rfl⟩⟩
      · rw [if_neg none, Container.write]
        split
        · exact ⟨rfl, rfl, .inr rfl, .inr ⟨rfl, rfl, fun _ => rfl⟩⟩
        · refine ⟨rfl, rfl, .inl ?_, .inr ⟨rfl, rfl, fun _ => rfl⟩⟩
          simp only [List.length_take, room]
          split
          · omega
          · omega

/-- The positions are together exactly where the window is anchored. -/
def Anchored (t : DHDOffsetStream × Bool) : Prop := t.2 = true ↔ t.1.m_inner.pos = t.1.m_offset + t.1.position

theorem Anchored.after {t : DHDOffsetStream × Bool} (anchored : Anchored t) (call : WindowCall) :
    Anchored (anchoredAfter t call) := by
  obtain ⟨offset, -, -, ⟨pos, accepted, rfl⟩ | ⟨inner, outer, kept⟩⟩ := after_spec t.1 call
  · cases accepted with
    | true =>
      simp only [Anchored, anchoredAfter, DHDOffsetStream.after, seek, anchors, Container.seek, if_true, decide_eq_true_eq]
      omega
    | false =>
      simp only [Anchored, anchoredAfter, DHDOffsetStream.after, seek, anchors, Bool.false_eq_true, if_false, decide_eq_true_eq]
  · have same : t.2 = true ↔ t.1.m_inner.pos = t.1.m_offset + t.1.position := anchored
    rw [Anchored, anchoredAfter, inner, outer, offset, kept, same]
    omega

/-- A call keeps to the partition exactly if it moves no byte, or the positions are together. -/
theorem own_iff (s : DHDOffsetStream) (call : WindowCall) :
    s.Own call ↔ (s.moved call ≠ 0 → s.m_inner.pos = s.m_offset + s.position) := by
  obtain ⟨-, -, room, -⟩ := after_spec s call
  constructor
  · intro own some
    have place := own.place
    rw [touched] at place
    obtain ⟨n, more⟩ := Nat.exists_eq_succ_of_ne_zero some
    rw [more, List.range'_succ, List.range'_succ] at place
    exact (List.cons.inj place).1
  · intro together
    refine ⟨?_, fun a member => ?_⟩
    · by_cases none : s.moved call = 0
      · rw [touched, none]
        rfl
      · rw [touched, together none]
    · rw [touched, List.mem_range'_1] at member
      have := together (by omega)
      omega

/-- Every transfer of a run keeps to the partition exactly if every one that moves a byte finds the window
anchored: by the last seek, or by where the image stood at the beginning. -/
theorem own_run_iff (s : DHDOffsetStream) (calls : List WindowCall) :
    Along after Own s calls ↔
      Along anchoredAfter (fun t call => t.1.moved call ≠ 0 → t.2 = true)
        (s, decide (s.m_inner.pos = s.m_offset + s.position)) calls := by
  have carried := @along_proj _ _ after Own _ anchoredAfter Prod.fst (fun _ _ => rfl)
    (s, decide (s.m_inner.pos = s.m_offset + s.position)) calls
  refine carried.symm.trans ?_
  apply Along.congr (I := Anchored)
  · intro t call anchored
    have same : t.2 = true ↔ t.1.m_inner.pos = t.1.m_offset + t.1.position := anchored
    rw [own_iff, same]
  · exact fun t call anchored _ => anchored.after call
  · exact decide_eq_true_iff

/- A partition of 512 bytes, and behind it another one. -/
def twoPartitions : DHDOffsetStream where
  m_inner := { data := fun _ => 0, size := 2048 }
  m_offset := 1024
  size := 512

/-- A seek that was refused lets a write into the next partition. -/
theorem refused_seek_leaks :
    ¬ Along after Own twoPartitions [.seek 0 true, .read 512 512, .seek 0 false, .write [1] 1] := by
  rintro ⟨-, -, -, own, -⟩
  exact absurd own.place (by decide)

end DHDOffsetStream

end Meatloaf.Hd
