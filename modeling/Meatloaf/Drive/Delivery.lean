import Meatloaf.Drive.Handler
import Meatloaf.Lib.Deliver

/-! What a channel gives of its stream. The stream gives its content in pieces of any sizes, and turns
its end flag when it likes; the buffer in between neither loses a byte nor gives one twice. -/
namespace Meatloaf.Drive

open Lib

variable {σ : Type*} {ops : MStream σ}

/-- Streams without an error, `rest` being what they have left in a state: a read gives a piece of it,
and none only at its end. Nothing is asked of `eos`. -/
structure Streams (ops : MStream σ) (rest : σ → List UInt8 → Prop) : Prop where
  takes : ∀ {s left n}, rest s left → 0 < n →
    ∃ left', Takes n (ops.read n s).1 left left' ∧ rest (ops.read n s).2 left'
  calm : ∀ {s left n}, rest s left → 0 < n → ops.error (ops.read n s).2 = 0

namespace FileChannel

variable {rest : σ → List UInt8 → Prop} {c : FileChannel σ} {s : σ} {data left : List UInt8} {n : Nat}

/- The turns of `readBufferData` are enough: more of them change nothing. -/
theorem fill_settled (turns k : Nat) (room : data.length < BUFFER_SIZE) (enough : BUFFER_SIZE < turns + data.length) :
    fill ops (turns + k) data s = fill ops turns data s := by
  induction turns generalizing data s with
  | zero => omega
  | succ turns ih =>
    rw [Nat.add_right_comm, fill, fill]
    generalize ops.read (BUFFER_SIZE - data.length) s = r
    by_cases none : r.1 = []
    · rw [if_pos none, if_pos none]
    · rw [if_neg none, if_neg none]
      have grows := List.length_pos_iff.mpr none
      have longer : (data ++ r.1).length = data.length + r.1.length := List.length_append
      by_cases more : (data ++ r.1).length < BUFFER_SIZE
      · rw [ih more (by omega)]
      · have last : ¬ ((data ++ r.1).length < BUFFER_SIZE ∧ ops.eos r.2 = false) := fun turn => more turn.1
        rw [if_neg last, if_neg last]

/-- The buffer is filled with the next piece of the stream. -/
theorem fill_streams (streams : Streams ops rest) (turns : Nat) (start : rest s left) (room : data.length < BUFFER_SIZE) :
    ∃ piece left' s', fill ops turns data s = (ST_OK, data ++ piece, s') ∧ left = piece ++ left' ∧ rest s' left' ∧
      (0 < turns → left ≠ [] → piece ≠ []) := by
  induction turns generalizing data s left with
  | zero => exact ⟨[], left, s, by rw [fill, List.append_nil], rfl, start, fun wrong => absurd wrong (Nat.lt_irrefl 0)⟩
  | succ turns ih =>
    have wanted : 0 < BUFFER_SIZE - data.length := Nat.sub_pos_of_lt room
    obtain ⟨left₁, takes, next⟩ := streams.takes start wanted
    have calm := streams.calm start wanted
    rw [fill]
    generalize ops.read (BUFFER_SIZE - data.length) s = r at takes next calm
    by_cases none : r.1 = []
    · refine ⟨[], left₁, r.2, ?_, ?_, next, fun _ more => absurd none (takes.some more)⟩
      · rw [if_pos none, List.append_nil]
      · rw [takes.join, none]
    · rw [if_neg none, if_neg (not_not_intro calm)]
      by_cases again : (data ++ r.1).length < BUFFER_SIZE ∧ ops.eos r.2 = false
      · obtain ⟨piece, left', s', filled, join, final, -⟩ := ih next again.1
        refine ⟨r.1 ++ piece, left', s', ?_, ?_, final, fun _ _ empty => none (List.append_eq_nil_iff.mp empty).1⟩
        · rw [if_pos again, filled, List.append_assoc]
        · rw [takes.join, join, List.append_assoc]
      · exact ⟨r.1, left₁, r.2, if_neg again, takes.join, next, fun _ _ => none⟩

/-- What is left is what the buffer still holds, and then what the stream has left. -/
structure Serving (rest : σ → List UInt8 → Prop) (c : FileChannel σ) (left : List UInt8) : Prop where
  join : ∃ behind, left = c.data.drop c.ptr ++ behind ∧ rest c.stream behind
  ended : c.eos = true → left = []

theorem Serving.serve (serving : Serving rest c left) (positive : 0 < n) (unread : c.ptr < c.data.length) :
    ∃ left', Takes n (c.serve n).1 left left' ∧ Serving rest (c.serve n).2 left' := by
  obtain ⟨behind, join, stands⟩ := serving.join
  have held : c.data.drop c.ptr ≠ [] := List.ne_nil_of_length_pos (by rw [List.length_drop]; omega)
  have piece := Takes.take positive (c.data.drop c.ptr)
  have more : ¬ c.eos = true := fun ended =>
    held (List.append_eq_nil_iff.mp (join.symm.trans (serving.ended ended))).1
  have behind_piece : c.data.drop (c.ptr + ((c.data.drop c.ptr).take n).length) = (c.data.drop c.ptr).drop n := by
    have whole : ((c.data.drop c.ptr).take n).length ≤ (c.data.drop c.ptr).length := List.length_take_le' _ _
    rw [List.drop_drop, List.length_take, List.length_drop] at *
    by_cases short : n ≤ c.data.length - c.ptr
    · rw [Nat.min_eq_left short]
    · rw [List.drop_eq_nil_of_le (by omega), List.drop_eq_nil_of_le (by omega)]
  refine ⟨(c.data.drop c.ptr).drop n ++ behind, ⟨?_, piece.short, fun _ => piece.some held⟩, ⟨behind, ?_, stands⟩, ?_⟩
  · rw [join, ← List.append_assoc]
    exact congrArg (· ++ behind) piece.join
  · exact congrArg (· ++ behind) behind_piece.symm
  · exact fun ended => absurd ended more

/-- A read takes the next bytes of what is left. -/
theorem Serving.get (serving : Serving rest c left) (streams : Streams ops rest) (positive : 0 < n) :
    ∃ left', Takes n (c.get ops n).1 left left' ∧ Serving rest (c.get ops n).2 left' := by
  unfold FileChannel.get
  by_cases spent : c.data.length ≤ c.ptr
  · by_cases ended : c.eos = true
    · rw [read_ended spent ended, serving.ended ended]
      exact ⟨[], ⟨rfl, Nat.zero_le _, fun more => absurd rfl more⟩, serving.ended ended ▸ serving⟩
    · obtain ⟨behind, join, stands⟩ := serving.join
      rw [List.drop_eq_nil_of_le spent, List.nil_append] at join
      subst join
      have room : ([] : List UInt8).length < BUFFER_SIZE := by decide
      obtain ⟨piece, left', s', filled, join, final, some⟩ := fill_streams streams (BUFFER_SIZE + 1) stands room
      rw [List.nil_append] at filled
      rw [read_refill spent (eq_false_of_ne_true ended), refill, filled]
      dsimp only
      rw [if_neg (not_not_intro rfl)]
      by_cases none : piece = []
      · rw [if_pos none]
        have exceeds : left = [] := by
          by_contra more
          exact some (Nat.succ_pos _) more none
        rw [exceeds] at join ⊢
        have empty := (List.append_eq_nil_iff.mp join.symm).2
        exact ⟨[], ⟨rfl, Nat.zero_le _, fun more => absurd rfl more⟩, ⟨[], rfl, empty ▸ final⟩, fun _ => rfl⟩
      · rw [if_neg none]
        refine Serving.serve ⟨⟨left', join, final⟩, fun wrong => absurd wrong ended⟩ positive ?_
        exact List.length_pos_iff.mpr none
  · rw [read_unread (Nat.lt_of_not_le spent)]
    exact serving.serve positive (Nat.lt_of_not_le spent)

/-- A new channel delivers what its stream has. -/
theorem delivers (streams : Streams ops rest) {p : List UInt8} (start : rest s p) :
    Delivers (get ops) (0 < ·) { stream := s } p :=
  Delivers.of_invariant (Serving rest) (fun _ _ _ serving wanted => serving.get streams wanted)
    ⟨⟨p, rfl, start⟩, fun wrong => Bool.noConfusion wrong⟩

/- The position counts the bytes that were given. -/
theorem get_position (n : Nat) (c : FileChannel σ) : (c.get ops n).2.position = c.position + (c.get ops n).1.length := by
  unfold FileChannel.get
  by_cases spent : c.data.length ≤ c.ptr
  · by_cases ended : c.eos = true
    · rw [read_ended spent ended]
      rfl
    · rw [read_refill spent (eq_false_of_ne_true ended)]
      dsimp only
      split
      · rfl
      · split
        · rfl
        · rfl
  · rw [read_unread (Nat.lt_of_not_le spent)]
    rfl

theorem drain_position (ns : List Nat) (c : FileChannel σ) :
    (drain (get ops) ns c).2.position = c.position + (drain (get ops) ns c).1.length := by
  induction ns generalizing c with
  | nil => rfl
  | cons n ns ih =>
    rw [drain]
    dsimp only
    rw [ih, get_position, List.length_append, Nat.add_assoc]

/- What the reads have given, and what is left. -/
theorem drained (streams : Streams ops rest) {ns : List Nat} (serving : Serving rest c left) (positive : ∀ n ∈ ns, 0 < n) :
    ∃ left', left = (drain (get ops) ns c).1 ++ left' ∧ Serving rest (drain (get ops) ns c).2 left' ∧
      (left' = [] ∨ ns.length ≤ (drain (get ops) ns c).1.length) := by
  induction ns generalizing c left with
  | nil => exact ⟨left, rfl, serving, .inr (Nat.le_refl _)⟩
  | cons n ns ih =>
    obtain ⟨left₁, takes, next⟩ := serving.get streams (positive n List.mem_cons_self)
    obtain ⟨left', join, final, long⟩ := ih next fun m member => positive m (List.mem_cons_of_mem n member)
    rw [drain]
    dsimp only
    refine ⟨left', by rw [takes.join, join, List.append_assoc], final, ?_⟩
    rcases long with exceeds | long
    · exact .inl exceeds
    · by_cases more : left' = []
      · exact .inl more
      · have some : left ≠ [] := fun none => by
          rw [takes.join, join] at none
          exact more (List.append_eq_nil_iff.mp (List.append_eq_nil_iff.mp none).2).2
        have grows := List.length_pos_iff.mpr (takes.some some)
        rw [List.length_append, List.length_cons]
        exact .inr (by omega)

/-- What the reads of a new channel have given, whatever their sizes, is the content of the stream up to where
they are, and its length is the position. The next read gives nothing if and only if that is all of
the content, which it is after as many reads as there are bytes. -/
theorem reads_content (streams : Streams ops rest) {content : List UInt8} (start : rest s content) {ns : List Nat}
    (positive : ∀ n ∈ ns, 0 < n) :
    let r := drain (get ops) ns { stream := s }
    r.1 <+: content ∧ r.2.position = r.1.length ∧ (∀ n, 0 < n → ((r.2.get ops n).1 = [] ↔ r.1 = content)) ∧
      (content.length ≤ ns.length → r.1 = content) := by
  have new : Serving rest ({ stream := s } : FileChannel σ) content := ⟨⟨content, rfl, start⟩, fun wrong => by cases wrong⟩
  obtain ⟨left, join, serving, long⟩ := drained streams new positive
  refine ⟨⟨left, join.symm⟩, ?_, fun n some => ?_, fun enough => ?_⟩
  · rw [drain_position]
    exact Nat.zero_add _
  · obtain ⟨left', takes, -⟩ := serving.get streams some
    constructor
    · intro none
      have exceeds : left = [] := by
        by_contra more
        exact takes.some more none
      rw [join, exceeds, List.append_nil]
    · intro whole
      have exceeds : left = [] := List.append_right_eq_self.mp (join.symm.trans whole.symm)
      exact (List.append_eq_nil_iff.mp (takes.join.symm.trans exceeds)).1
  · rcases long with exceeds | long
    · rw [join, exceeds, List.append_nil]
    · have length := congrArg List.length join
      rw [List.length_append] at length
      have exceeds : left = [] := List.eq_nil_of_length_eq_zero (by omega)
      rw [join, exceeds, List.append_nil]

end FileChannel

/- A stream that gives three bytes at most, and says that it is at its end when two are left. -/
def inThrees : MStream (List UInt8) where
  read n s := (s.take (min n 3), s.drop (min n 3))
  seek _ s := (false, s)
  position _ s := (false, s)
  setSize _ s := s
  error _ := 0
  eos s := decide (s.length ≤ 2)
  sectorByteOffset _ _ _ := none
  block_size _ := 256
  out _ := false

theorem inThrees_streams : Streams inThrees fun s left => left = s where
  takes := by
    rintro s left n rfl positive
    have piece := Takes.take (Nat.lt_min.mpr ⟨positive, by decide⟩ : 0 < min n 3) left
    exact ⟨left.drop (min n 3), ⟨piece.join, piece.short.trans (Nat.min_le_left n 3), piece.some⟩, rfl⟩
  calm _ _ := rfl

/-- `reads_content` applies to eight bytes that come in threes. -/
theorem reads_content_threes :
    let r := drain (FileChannel.get inThrees) [1, 2, 255] ({ stream := [1, 2, 3, 4, 5, 6, 7, 8] } : FileChannel (List UInt8))
    r.1 <+: [1, 2, 3, 4, 5, 6, 7, 8] ∧ r.2.position = r.1.length ∧
      (∀ n, 0 < n → ((r.2.get inThrees n).1 = [] ↔ r.1 = [1, 2, 3, 4, 5, 6, 7, 8])) ∧
      (8 ≤ 3 → r.1 = [1, 2, 3, 4, 5, 6, 7, 8]) :=
  FileChannel.reads_content inThrees_streams rfl (by decide)

end Meatloaf.Drive
