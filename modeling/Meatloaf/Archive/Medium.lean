import Meatloaf.Lib.Deliver
import Meatloaf.Text.Names

/-! What `MMediaStream` does with its container when the container is only read: the bytes of
the file, and a position in them. -/
namespace Meatloaf.Archive

structure Medium where
  bytes : Str
  pos : Nat := 0

namespace Medium

/- What is left of the container. -/
def left (m : Medium) : Str := m.bytes.drop m.pos

def seek (pos : Nat) (m : Medium) : Medium := { m with pos := pos }

/-- `readContainer`. -/
def readContainer (size : Nat) (m : Medium) : Str × Medium :=
  (m.left.take size, { m with pos := m.pos + (m.left.take size).length })

theorem seek_readContainer_bytes (pos size : Nat) (m : Medium) :
    ((m.seek pos).readContainer size).2.bytes = m.bytes :=
  rfl

/- The loop of `readUntil`: what is left, and the byte in the buffer, which comes once more at
the end of the container. -/
def scanUntil (delimiter : UInt8) : Str → UInt8 → Str × Nat
  | [], b => (if b = delimiter then [] else [b], 0)
  | c :: rest, _ =>
    if c = delimiter then ([], 1)
    else
      let more := scanUntil delimiter rest c
      (c :: more.1, more.2 + 1)

/-- `readUntil`. -/
def readUntil (delimiter : UInt8) (m : Medium) : Str × Medium :=
  let r := scanUntil delimiter m.left 0
  (r.1, { m with pos := m.pos + r.2 })

/-- The container stands before a text. -/
def Before (m : Medium) (text : Str) : Prop := m.left = text

theorem left_seek (m : Medium) (pos n : Nat) : ({ m with pos := pos + n } : Medium).left = (m.bytes.drop pos).drop n := by
  rw [left, List.drop_drop]

/- Reading what is there -/
theorem Before.read {m : Medium} {a b : Str} (here : m.Before (a ++ b)) {size : Nat} (long : a.length = size) :
    (m.readContainer size).1 = a ∧ (m.readContainer size).2.Before b ∧ (m.readContainer size).2.bytes = m.bytes := by
  have piece : m.left.take size = a := by
    rw [show m.left = a ++ b from here, ← long, List.take_left' rfl]
  refine ⟨piece, ?_, rfl⟩
  rw [readContainer, Before, left_seek, piece]
  rw [show m.bytes.drop m.pos = a ++ b from here, List.drop_left' rfl]

theorem scanUntil_found {delimiter : UInt8} {a : Str} (plain : delimiter ∉ a) (b : Str) (last : UInt8) :
    scanUntil delimiter (a ++ delimiter :: b) last = (a, a.length + 1) := by
  induction a generalizing last with
  | nil => exact if_pos rfl
  | cons c a ih =>
    rw [List.mem_cons, not_or] at plain
    rw [List.cons_append, scanUntil, if_neg (Ne.symm plain.1), ih plain.2]
    rfl

/-- A line comes back without what ends it. -/
theorem Before.readUntil {m : Medium} {a b : Str} {delimiter : UInt8} (here : m.Before (a ++ delimiter :: b))
    (plain : delimiter ∉ a) : (m.readUntil delimiter).1 = a ∧ (m.readUntil delimiter).2.Before b ∧
      (m.readUntil delimiter).2.bytes = m.bytes := by
  have line : scanUntil delimiter m.left 0 = (a, a.length + 1) := by
    rw [show m.left = a ++ delimiter :: b from here, scanUntil_found plain]
  unfold Medium.readUntil
  rw [line]
  refine ⟨rfl, ?_, rfl⟩
  rw [Before, left_seek, show m.bytes.drop m.pos = a ++ delimiter :: b from here, ← List.drop_drop,
    List.drop_left' rfl]
  rfl

end Medium

end Meatloaf.Archive
