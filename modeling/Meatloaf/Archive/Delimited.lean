import Mathlib.Data.List.TakeWhile
import Mathlib.Algebra.GroupWithZero.Nat
import Meatloaf.Lib.While
import Meatloaf.Archive.Medium

/-! `MMediaStream::readUntil`, with the position of the stream beside that of its container: a text is read
exactly where its delimiter follows. -/
namespace Meatloaf.Archive

open Lib

structure MediaStream where
  containerStream : Medium
  position : UInt32 := 0

/-- The variables of `readUntil`, and whether its loop is left. -/
structure Reading where
  stream : MediaStream
  b : UInt8 := 0
  s : Nat := 0
  bytes : Str := []
  finished : Bool := false

/- The body of the loop, with the test behind it. -/
def Reading.turn (delimiter : UInt8) (r : Reading) : Option Reading :=
  if r.finished then none
  else
    let read := r.stream.containerStream.readContainer 1
    let s := read.1.length
    let b := read.1.headD r.b
    let stream := ⟨read.2, r.stream.position + UInt32.ofNat s⟩
    if b ≠ delimiter then some ⟨stream, b, s, r.bytes ++ [b], s = 0⟩
    else some ⟨stream, b, s, r.bytes, true⟩

/-- `readUntil(delimiter)`, if `fuel` tests are enough. -/
def MediaStream.readUntil (fuel : Nat) (delimiter : UInt8) (m : MediaStream) : Option (Str × MediaStream) :=
  (loop (Reading.turn delimiter) fuel { stream := m }).map fun r => (r.bytes, r.stream)

/- A stream that has read on. -/
def MediaStream.advance (n : Nat) (m : MediaStream) : MediaStream :=
  ⟨{ m.containerStream with pos := m.containerStream.pos + n }, m.position + UInt32.ofNat n⟩

variable {delimiter b : UInt8} {m : MediaStream} {content : Str}

@[simp] theorem advance_zero : m.advance 0 = m := by
  simp [MediaStream.advance]

theorem advance_add (n k : Nat) : (m.advance n).advance k = m.advance (n + k) := by
  simp [MediaStream.advance, Nat.add_assoc, UInt32.add_assoc]

theorem advance_left (n : Nat) : (m.advance n).containerStream.left = m.containerStream.left.drop n :=
  Medium.left_seek _ _ _

namespace Reading

variable {r : Reading}

theorem turn_finished (finished : r.finished = true) : r.turn delimiter = none := if_pos finished

/- One byte of the container, which is the delimiter or is kept. -/
theorem turn_byte (delimiter : UInt8) {c : UInt8} {rest : Str} (more : r.finished = false) (here : r.stream.containerStream.left = c :: rest) :
    r.turn delimiter = some (if c = delimiter then ⟨r.stream.advance 1, c, 1, r.bytes, true⟩
      else ⟨r.stream.advance 1, c, 1, r.bytes ++ [c], false⟩) := by
  have read : r.stream.containerStream.readContainer 1 = ([c], (r.stream.advance 1).containerStream) := by
    rw [Medium.readContainer, here]
    rfl
  rw [turn, if_neg (by simp [more]), read]
  by_cases same : c = delimiter
  · rw [if_pos same]
    exact if_neg (not_not.mpr same)
  · rw [if_neg same]
    exact if_pos same

/-- At the end of the container the byte in the buffer is taken once more. -/
theorem turn_end (more : r.finished = false) (here : r.stream.containerStream.left = []) :
    r.turn delimiter = some ⟨r.stream, r.b, 0, if r.b = delimiter then r.bytes else r.bytes ++ [r.b], true⟩ := by
  have read : r.stream.containerStream.readContainer 1 = ([], r.stream.containerStream) := by
    rw [Medium.readContainer, here]
    rfl
  have stays : r.stream.position + UInt32.ofNat 0 = r.stream.position := UInt32.add_zero _
  rw [turn, if_neg (by simp [more]), read]
  by_cases same : r.b = delimiter
  · rw [if_pos same]
    exact (if_neg (not_not.mpr same)).trans (by rw [List.length_nil, stays]; rfl)
  · rw [if_neg same]
    exact (if_pos same).trans (by rw [List.length_nil, stays]; rfl)

/-- The loop takes what `scanUntil` takes. -/
theorem loop_scanUntil (delimiter : UInt8) (here : r.stream.containerStream.left = content) (more : r.finished = false) :
    ∃ t, loop (turn delimiter) (content.length + 2) r = some t ∧
      t.bytes = r.bytes ++ (Medium.scanUntil delimiter content r.b).1 ∧
      t.stream = r.stream.advance (Medium.scanUntil delimiter content r.b).2 := by
  induction content generalizing r with
  | nil =>
    refine ⟨_, loop_of_pass (n := 1) (by rw [Lib.pass, turn_end more here]; rfl) (turn_finished rfl), ?_, by simp [Medium.scanUntil]⟩
    rw [Medium.scanUntil]
    split <;> simp
  | cons c rest ih =>
    have taken := turn_byte delimiter more here
    by_cases same : c = delimiter
    · rw [if_pos same] at taken
      have reached : Lib.pass (turn delimiter) 1 r = some ⟨r.stream.advance 1, c, 1, r.bytes, true⟩ := by
        rw [Lib.pass, taken]
        rfl
      refine ⟨_, loop_more (Nat.le_add_left 2 _) (loop_of_pass reached (turn_finished rfl)), ?_, ?_⟩
      · simp [Medium.scanUntil, same]
      · simp [Medium.scanUntil, same]
    · rw [if_neg same] at taken
      have left : (r.stream.advance 1).containerStream.left = rest := by
        rw [advance_left, here]
        rfl
      obtain ⟨t, ended, bytes, stream⟩ := ih (r := ⟨r.stream.advance 1, c, 1, r.bytes ++ [c], false⟩) left rfl
      refine ⟨t, ?_, ?_, ?_⟩
      · rw [List.length_cons, loop, taken]
        exact ended
      · rw [bytes, Medium.scanUntil, if_neg same]
        simp
      · rw [stream, Medium.scanUntil, if_neg same, advance_add, Nat.add_comm]

end Reading

/-- What `readUntil` returns, and where it leaves the stream. -/
theorem readUntil_iff (r : Str × MediaStream) : (∃ fuel, m.readUntil fuel delimiter = some r) ↔
    r = ((Medium.scanUntil delimiter m.containerStream.left 0).1,
      m.advance (Medium.scanUntil delimiter m.containerStream.left 0).2) := by
  obtain ⟨t, ended, bytes, stream⟩ := Reading.loop_scanUntil delimiter (r := { stream := m }) rfl rfl
  rw [List.nil_append] at bytes
  rw [← bytes, ← stream]
  constructor
  · rintro ⟨fuel, read⟩
    obtain ⟨u, left, rfl⟩ := Option.map_eq_some_iff.mp read
    rw [loop_unique left ended]
  · rintro rfl
    exact ⟨_, by rw [MediaStream.readUntil, ended]; rfl⟩

/- The container is left where the lines of an archive leave it. -/
theorem readUntil_medium {fuel : Nat} {r : Str × MediaStream} (read : m.readUntil fuel delimiter = some r) :
    (r.1, r.2.containerStream) = m.containerStream.readUntil delimiter := by
  rw [(readUntil_iff r).mp ⟨fuel, read⟩]
  rfl

/- No delimiter: the last byte comes twice, if it is none itself. -/
theorem scanUntil_none (none : delimiter ∉ content) (b : UInt8) : Medium.scanUntil delimiter content b =
    (content ++ if content.getLastD b = delimiter then [] else [content.getLastD b], content.length) := by
  induction content generalizing b with
  | nil => rfl
  | cons c rest ih =>
    rw [List.mem_cons, not_or] at none
    obtain ⟨other, none⟩ := none
    rw [Medium.scanUntil, if_neg (Ne.symm other), ih none, List.getLastD_cons]
    rfl

theorem takeWhile_none (none : delimiter ∉ content) : content.takeWhile (· ≠ delimiter) = content := by
  rw [List.takeWhile_eq_self_iff]
  intro c here
  exact decide_eq_true fun same => none (same ▸ here)

/- The text before the first delimiter. -/
theorem scanUntil_some (some : delimiter ∈ content) (b : UInt8) : Medium.scanUntil delimiter content b =
    (content.takeWhile (· ≠ delimiter), (content.takeWhile (· ≠ delimiter)).length + 1) := by
  obtain ⟨text, rest, rfl, plain⟩ := List.eq_append_cons_of_mem some
  have before : (text ++ delimiter :: rest).takeWhile (· ≠ delimiter) = text := by
    have kept (c : UInt8) (here : c ∈ text) : decide (c ≠ delimiter) = true :=
      decide_eq_true fun same => plain (same ▸ here)
    rw [List.takeWhile_append_of_pos kept]
    simp
  rw [before, Medium.scanUntil_found plain]

/-- What a delimited read is to be: the bytes before the first delimiter, with the stream behind it, or all bytes. -/
def exactRead (delimiter : UInt8) (m : MediaStream) : Str × MediaStream :=
  let content := m.containerStream.left
  let text := content.takeWhile (· ≠ delimiter)
  (text, m.advance (if delimiter ∈ content then text.length + 1 else text.length))

/-- `readUntil` is exact where the delimiter follows, and where nothing follows and the delimiter is a NUL. -/
theorem readUntil_exact_iff (delimiter : UInt8) (m : MediaStream) :
    (∃ fuel, m.readUntil fuel delimiter = some (exactRead delimiter m)) ↔
      delimiter ∈ m.containerStream.left ∨ m.containerStream.left = [] ∧ delimiter = 0 := by
  rw [readUntil_iff, exactRead]
  generalize m.containerStream.left = content
  by_cases found : delimiter ∈ content
  · rw [scanUntil_some found, if_pos found]
    exact iff_of_true rfl (.inl found)
  · rw [scanUntil_none found, if_neg found, takeWhile_none found]
    rcases List.eq_nil_or_concat content with rfl | ⟨text, last, rfl⟩
    · by_cases nul : delimiter = 0
      · simp [nul]
      · simp [nul, Ne.symm nul]
    · have other : last ≠ delimiter := by
        rintro rfl
        exact found (by simp)
      simpa [other] using found

/-- Two bytes at the end of an archive are read as three. -/
theorem readUntil_doubled : ¬ ∃ fuel, MediaStream.readUntil fuel 0x0d ⟨{ bytes := [0x31, 0x30] }, 0⟩ =
    some (exactRead 0x0d ⟨{ bytes := [0x31, 0x30] }, 0⟩) := by
  rw [readUntil_iff]
  intro same
  exact absurd (congrArg Prod.fst same) (by decide)

end Meatloaf.Archive
