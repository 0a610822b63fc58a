import Meatloaf.Tape.Csm

/-! A program of a tape with its load address in front. The container has only the data: the two
bytes of the address come from the header, and `readFile` puts them before what it reads. -/
namespace Meatloaf.Tape

open Lib Archive

/- What `T64MStream` and `CSMMStream` read through. -/
structure Loaded where
  containerStream : Medium
  seekCalled : Bool := false
  _size : Nat
  _position : Nat := 0
  _load_address : UInt8 × UInt8 := (0, 0)

namespace Loaded

/-- `readFile` of both streams: the count it reports, and the bytes it has written. -/
def readFile (size : Nat) (s : Loaded) : (Nat × Str) × Loaded :=
  if s._position < 2 then
    if 1 < size then
      let r := s.containerStream.readContainer (size - 2)
      ((r.1.length + 2, s._load_address.1 :: s._load_address.2 :: r.1), { s with containerStream := r.2 })
    else ((2, []), s)
  else
    let r := s.containerStream.readContainer size
    ((r.1.length, r.1), { s with containerStream := r.2 })

/-- `MMediaStream::read`. -/
def read (size : Nat) (s : Loaded) : (Nat × Str) × Loaded :=
  if 0 < s._size ∧ s._size ≤ s._position then ((0, []), s)
  else
    let size := if 0 < s._size then min size (s._size - s._position) else size
    let r :=
      if s.seekCalled then s.readFile size
      else
        let r := s.containerStream.readContainer size
        ((r.1.length, r.1), { s with containerStream := r.2 })
    (r.1, { r.2 with _position := r.2._position + r.1.1 })

variable {s : Loaded} {left : Str}

/- Within a file that is selected. -/
theorem read_within (selected : s.seekCalled = true) (more : s._position < s._size) (n : Nat) :
    s.read n = ((s.readFile (min n (s._size - s._position))).1,
      { (s.readFile (min n (s._size - s._position))).2 with
        _position := (s.readFile (min n (s._size - s._position))).2._position +
          (s.readFile (min n (s._size - s._position))).1.1 }) := by
  rw [read, if_neg (show ¬ (0 < s._size ∧ s._size ≤ s._position) by omega), if_pos (show 0 < s._size by omega)]
  dsimp only
  rw [if_pos selected]

/-- The address is out, and this much of the data is left. -/
structure Begun (s : Loaded) (left : Str) : Prop where
  selected : s.seekCalled = true
  behind : 2 ≤ s._position
  size : s._size = s._position + left.length
  here : ∃ rest, s.containerStream.Before (left ++ rest)

theorem Begun.read (begun : Begun s left) {n : Nat} (positive : 0 < n) :
    (s.read n).1.1 = (s.read n).1.2.length ∧ ∃ rest, Takes n (s.read n).1.2 left rest ∧ Begun (s.read n).2 rest := by
  obtain ⟨rest, here⟩ := begun.here
  have size := begun.size
  have behind := begun.behind
  cases left with
  | nil =>
    have done : s.read n = ((0, []), s) := if_pos ⟨by omega, by rw [size]; exact Nat.le_refl _⟩
    rw [done]
    exact ⟨rfl, [], ⟨rfl, Nat.zero_le n, fun none => absurd rfl none⟩, begun⟩
  | cons a left =>
    have more : s._position < s._size := by
      rw [size, List.length_cons]
      omega
    have cap : s._size - s._position = (a :: left).length := by omega
    -- the piece is cut off what is left of the file
    have cut : ((a :: left).take n).length = min n (s._size - s._position) := by rw [List.length_take, cap]
    have split : a :: left ++ rest = (a :: left).take n ++ ((a :: left).drop n ++ rest) := by
      rw [← List.append_assoc, List.take_append_drop]
    rw [split] at here
    obtain ⟨piece, after, -⟩ := here.read cut
    rw [read_within begun.selected more, readFile, if_neg (show ¬ s._position < 2 by omega)]
    dsimp only
    rw [piece]
    refine ⟨rfl, (a :: left).drop n, Takes.take positive _, begun.selected, Nat.le_add_right_of_le behind, ?_, rest, after⟩
    dsimp only
    rw [size, List.length_take, List.length_drop]
    omega

/-- A program is selected, and nothing of it has been read. -/
structure Selected (s : Loaded) (data : Str) : Prop where
  selected : s.seekCalled = true
  start : s._position = 0
  size : s._size = data.length + 2
  here : ∃ rest, s.containerStream.Before (data ++ rest)

/- The program as it is read. -/
def text (s : Loaded) (data : Str) : Str := s._load_address.1 :: s._load_address.2 :: data

/- A first read has the address and as much of the data as it is longer. -/
theorem Selected.read {data : Str} (sel : Selected s data) {n : Nat} (long : 1 < n) :
    (s.read n).1.1 = (s.read n).1.2.length ∧
      ∃ rest, Takes n (s.read n).1.2 (s.text data) rest ∧ Begun (s.read n).2 rest := by
  obtain ⟨rest, here⟩ := sel.here
  have size := sel.size
  have more : s._position < s._size := by
    rw [size, sel.start]
    omega
  have cap : min n (s._size - s._position) = (data.take (n - 2)).length + 2 := by
    rw [List.length_take, size, sel.start]
    omega
  have split : data ++ rest = data.take (n - 2) ++ (data.drop (n - 2) ++ rest) := by
    rw [← List.append_assoc, List.take_append_drop]
  rw [split] at here
  obtain ⟨piece, after, -⟩ := here.read rfl
  rw [read_within sel.selected more, cap, readFile, if_pos (show s._position < 2 by rw [sel.start]; decide), if_pos (show 1 < (data.take (n - 2)).length + 2 by omega)]
  dsimp only
  rw [Nat.add_sub_cancel, piece]
  refine ⟨rfl, data.drop (n - 2), ⟨?_, ?_, fun _ => List.cons_ne_nil _ _⟩, sel.selected, ?_, ?_, rest, after⟩
  · rw [text, List.cons_append, List.cons_append, List.take_append_drop]
  · rw [List.length_cons, List.length_cons, List.length_take]
    omega
  · dsimp only
    omega
  · dsimp only
    rw [size, sel.start, List.length_take, List.length_drop]
    omega

/- A first read of one byte reports the address and writes nothing. -/
theorem Selected.read_one {data : Str} (sel : Selected s data) : (s.read 1).1 = (2, []) := by
  have size := sel.size
  have more : s._position < s._size := by
    rw [size, sel.start]
    omega
  have cap : min 1 (s._size - s._position) = 1 := by
    rw [size, sel.start]
    omega
  rw [read_within sel.selected more, cap, readFile, if_pos (show s._position < 2 by rw [sel.start]; decide), if_neg (Nat.lt_irrefl 1)]

/-- Reads get the program exactly when the first of them is not for one byte. -/
theorem Selected.exact_iff_head {data : Str} (sel : Selected s data) {ns : List Nat} (positive : ∀ n ∈ ns, 0 < n) :
    Exact Loaded.read s (s.text data) ns ↔ ns.head? ≠ some 1 := by
  cases ns with
  | nil => exact iff_of_true trivial nofun
  | cons n ns =>
    have first := positive n List.mem_cons_self
    by_cases one : n = 1
    · subst n
      refine iff_of_false (fun exact => ?_) fun other => other rfl
      have counted := exact.1
      rw [sel.read_one] at counted
      cases counted
    · refine iff_of_true ?_ fun same => one (Option.some.inj same)
      obtain ⟨counted, rest, takes, begun⟩ := sel.read (show 1 < n by omega)
      refine ⟨counted, rest, takes, ?_⟩
      exact Exact.of_invariant Begun (fun _ _ _ begun positive => begun.read positive) begun
        fun m member => positive m (List.mem_cons_of_mem n member)

end Loaded

namespace CSMMStream

/- The part of the stream that a read of a file looks at. -/
def loaded (s : CSMMStream) : Loaded where
  containerStream := s.containerStream
  seekCalled := s.seekCalled
  _size := s._size
  _position := s._position
  _load_address := s._load_address

def withLoaded (s : CSMMStream) (l : Loaded) : CSMMStream :=
  { s with
    containerStream := l.containerStream
    seekCalled := l.seekCalled
    _size := l._size
    _position := l._position
    _load_address := l._load_address }

/-- `MMediaStream::read` with the `readFile` of the tape. -/
def read (size : Nat) (s : CSMMStream) : (Nat × Str) × CSMMStream :=
  ((s.loaded.read size).1, s.withLoaded (s.loaded.read size).2)

end CSMMStream

namespace Csm

variable {st : CSMState}

/- An entry of the walk is as long as its header says, as far as there is a container. -/
theorem walk_length {room offset : Nat} {m : Medium} {e : CSMEntry} (member : e ∈ (walk room offset m).1) :
    e.data_length = min (e.end_address - e.start_address) (m.bytes.length - e.data_offset) := by
  induction room generalizing offset m with
  | zero => cases member
  | succ room ih =>
    rw [walk] at member
    split at member
    · cases member
    · dsimp only at member
      split at member
      · cases member
      · split at member
        · cases member
        · split at member
          · cases member
          · rcases List.mem_cons.mp member with rfl | member
            · rfl
            · exact ih (m := ((m.seek offset).readContainer header_field_size).2) member

/-- An entry of the tape that is served is a program of its own. -/
theorem selected_serveCurrent (s : CSMMStream) {st : CSMState} (member : st.current ∈ entriesOf s.containerStream.bytes)
    (inside : st.current.data_offset + (st.current.end_address - st.current.start_address) ≤ s.containerStream.bytes.length) :
    (serveCurrent s st).1.loaded.Selected
      ((s.containerStream.bytes.drop st.current.data_offset).take (st.current.end_address - st.current.start_address)) where
  selected := rfl
  start := rfl
  size := by
    have length := walk_length member
    rw [List.length_take, List.length_drop, Nat.min_eq_left (by omega)]
    show st.current.data_length + 2 = _
    dsimp only at length
    omega
  here := ⟨_, (List.take_append_drop _ _).symm⟩

end Csm

end Meatloaf.Tape
