import Meatloaf.Lib.Run
import Meatloaf.Lib.While

/-! `MFSOwner::Copy`: a file is read in pieces, and every piece is written once. -/
namespace Meatloaf

/-- A stream that is read. A read of the buffer's size delivers what fits; nothing ends it. -/
structure SourceStream (σ : Type*) where
  read : Nat → σ → List UInt8 × σ
  fits : ∀ size s, (read size s).1.length ≤ size

/-- A stream that is written. A write reports a number of bytes; what it takes in are the first
ones of the bytes it is offered, whatever it reports. -/
structure DestStream (δ : Type*) where
  write : List UInt8 → δ → Nat × δ
  taken : δ → List UInt8
  front : ∀ buf d, ∃ n, taken (write buf d).2 = taken d ++ buf.take n

/-- A file that a path names: whether it exists, and the stream it gives, if that is open. -/
structure CopyFile (σ : Type*) where
  present : Bool
  stream : Option σ

variable {σ δ : Type*} (src : SourceStream σ) (dest : DestStream δ)

def bufferSize : Nat := 512

/- One pass of the loop. What `write` reports is not looked at. -/
def copyStep : σ × δ → Option (σ × δ)
  | (s, d) =>
    let buffer := src.read bufferSize s
    if buffer.1.length = 0 then none else some (buffer.2, (dest.write buffer.1 d).2)

/-- `MFSOwner::NewFile`. -/
def NewFile (file : Option (CopyFile δ)) : Option (CopyFile δ) := file.filter fun f => !f.present

/-- `MFSOwner::Copy` of the files that the two paths name, with the stream it leaves behind;
`none` when the fuel is not enough. -/
def Copy (fuel : Nat) (source : Option (CopyFile σ)) (dst : Option (CopyFile δ)) : Option (Bool × Option δ) :=
  match source.filter CopyFile.present, NewFile dst with
  | some sourceFile, some destFile =>
    match sourceFile.stream, destFile.stream with
    | some s, some d => (Lib.loop (copyStep src dest) fuel (s, d)).map fun left => (true, some left.2)
    | _, _ => some (false, none)
  | _, _ => some (false, none)

namespace SourceStream

/- The pieces that the stream delivers until it ends. -/
def pieces : Nat → σ → Option (List (List UInt8))
  | 0, _ => none
  | fuel + 1, s =>
    let buffer := src.read bufferSize s
    if buffer.1.length = 0 then some [] else (pieces fuel buffer.2).map (buffer.1 :: ·)

end SourceStream

namespace DestStream

variable {dest}

/- The piece is taken in whole. -/
def Accepts (dest : DestStream δ) (d : δ) (buf : List UInt8) : Prop := dest.taken (dest.write buf d).2 = dest.taken d ++ buf

def put (dest : DestStream δ) (d : δ) (buf : List UInt8) : δ := (dest.write buf d).2

/- No more is taken in than was offered. -/
theorem put_all (bufs : List (List UInt8)) (d : δ) :
    ∃ more, dest.taken (bufs.foldl dest.put d) = dest.taken d ++ more ∧ more.length ≤ bufs.flatten.length := by
  induction bufs generalizing d with
  | nil => exact ⟨[], by simp, Nat.le_refl _⟩
  | cons buf bufs ih =>
    obtain ⟨n, here⟩ := dest.front buf d
    obtain ⟨more, rest, short⟩ := ih (dest.put d buf)
    refine ⟨buf.take n ++ more, ?_, ?_⟩
    · rw [List.foldl_cons, rest, put, here, List.append_assoc]
    · rw [List.flatten_cons, List.length_append, List.length_append, List.length_take]
      omega

/-- All of it is taken in exactly where no write was short: what one write leaves out, no later
one makes up for. -/
theorem put_complete_iff (bufs : List (List UInt8)) (d : δ) :
    dest.taken (bufs.foldl dest.put d) = dest.taken d ++ bufs.flatten ↔ Lib.Along dest.put dest.Accepts d bufs := by
  induction bufs generalizing d with
  | nil => simp [Lib.Along]
  | cons buf bufs ih =>
    rw [Lib.Along, ← ih, List.foldl_cons, List.flatten_cons]
    constructor
    · intro complete
      obtain ⟨n, here⟩ := dest.front buf d
      obtain ⟨more, rest, short⟩ := dest.put_all bufs (dest.put d buf)
      have taken : dest.taken (dest.put d buf) = dest.taken d ++ buf.take n := here
      have whole : buf.take n ++ more = buf ++ bufs.flatten := by
        rw [rest, taken, List.append_assoc] at complete
        exact List.append_cancel_left complete
      have all : buf.length ≤ n := by
        have long := congrArg List.length whole
        rw [List.length_append, List.length_append, List.length_take] at long
        omega
      rw [List.take_of_length_le all] at taken
      refine ⟨taken, ?_⟩
      rw [complete, taken, List.append_assoc]
    · rintro ⟨first, rest⟩
      rw [rest, ← List.append_assoc]
      exact congrArg (· ++ bufs.flatten) first

end DestStream

variable {src dest}

/-- The loop ends where the source does, after a write of each piece. -/
theorem copy_loop (fuel : Nat) (s : σ) (d : δ) :
    (Lib.loop (copyStep src dest) fuel (s, d)).map Prod.snd =
      (src.pieces fuel s).map fun bufs => bufs.foldl dest.put d := by
  induction fuel generalizing s d with
  | zero => rfl
  | succ fuel ih =>
    by_cases ends : (src.read bufferSize s).1.length = 0
    · have last : copyStep src dest (s, d) = none := if_pos ends
      rw [Lib.loop, last, SourceStream.pieces, if_pos ends]
      rfl
    · have next : copyStep src dest (s, d) =
          some ((src.read bufferSize s).2, (dest.write (src.read bufferSize s).1 d).2) := if_neg ends
      rw [Lib.loop, next, SourceStream.pieces, if_neg ends, Option.map_map]
      exact ih _ _

/-- What `Copy` does with a source that is there and a new destination whose streams are open. -/
theorem Copy_open (fuel : Nat) (s : σ) (d : δ) :
    Copy src dest fuel (some ⟨true, some s⟩) (some ⟨false, some d⟩) =
      (src.pieces fuel s).map fun bufs => (true, some (bufs.foldl dest.put d)) := by
  have loop := congrArg (Option.map fun d => (true, some d)) (@copy_loop _ _ src dest fuel s d)
  rw [Option.map_map, Option.map_map] at loop
  exact loop

/-- `Copy` returns true for no other files. -/
theorem Copy_true {fuel : Nat} {source : Option (CopyFile σ)} {dst : Option (CopyFile δ)} {left : Option δ}
    (copied : Copy src dest fuel source dst = some (true, left)) :
    ∃ s d, source = some ⟨true, some s⟩ ∧ dst = some ⟨false, some d⟩ := by
  unfold Copy NewFile at copied
  split at copied
  · rename_i sourceFile destFile found new
    obtain ⟨rfl, present⟩ := Option.filter_eq_some_iff.mp found
    obtain ⟨rfl, absent⟩ := Option.filter_eq_some_iff.mp new
    split at copied
    · rename_i s d reading writing
      obtain ⟨_, _⟩ := sourceFile
      obtain ⟨_, _⟩ := destFile
      simp only [Bool.not_eq_true'] at present absent reading writing
      rw [present, absent, reading, writing]
      exact ⟨s, d, rfl, rfl⟩
    · cases copied
  · cases copied

/-- A copy that is reported is complete, if and only if each write took in its whole piece. -/
theorem Copy_complete_iff (src : SourceStream σ) (dest : DestStream δ) (fuel : Nat) (source : Option (CopyFile σ))
    (dst : Option (CopyFile δ)) (left : δ) (copied : Copy src dest fuel source dst = some (true, some left)) :
    ∃ s d bufs, source = some ⟨true, some s⟩ ∧ dst = some ⟨false, some d⟩ ∧ src.pieces fuel s = some bufs ∧
      (dest.taken left = dest.taken d ++ bufs.flatten ↔ Lib.Along dest.put dest.Accepts d bufs) := by
  obtain ⟨s, d, rfl, rfl⟩ := Copy_true copied
  rw [Copy_open, Option.map_eq_some_iff] at copied
  obtain ⟨bufs, delivered, same⟩ := copied
  obtain rfl : bufs.foldl dest.put d = left := Option.some.inj (Prod.mk.inj same).2
  exact ⟨s, d, bufs, rfl, rfl, delivered, dest.put_complete_iff bufs d⟩

/- A stream over the pieces that are left of a file. -/
def fileStream : SourceStream (List UInt8) where
  read size s := (s.take size, s.drop size)
  fits size s := List.length_take_le size s

/- A medium with room for some bytes, which reports what it took in. -/
def mediumStream : DestStream (Nat × List UInt8) where
  write buf d := ((buf.take d.1).length, d.1 - buf.length, d.2 ++ buf.take d.1)
  taken := Prod.snd
  front _ d := ⟨d.1, rfl⟩

/-- A copy of three bytes to a medium with room for two is reported, and the last byte is lost. -/
theorem Copy_short : Copy fileStream mediumStream 2 (some ⟨true, some [1, 2, 3]⟩) (some ⟨false, some (2, [])⟩) =
      some (true, some (0, [1, 2])) ∧
    fileStream.pieces 2 [1, 2, 3] = some [[1, 2, 3]] ∧
    mediumStream.taken (0, [1, 2]) ≠ mediumStream.taken (2, []) ++ [[1, 2, 3]].flatten := by decide

/-- `Copy_complete_iff` applies where there is room. -/
theorem Copy_whole : mediumStream.taken (1, [1, 2]) = [1, 2] := by
  obtain ⟨s, d, bufs, source, dst, delivered, complete⟩ := Copy_complete_iff fileStream mediumStream 2
    (some ⟨true, some [1, 2]⟩) (some ⟨false, some (3, [])⟩) (1, [1, 2]) (by decide)
  cases source
  cases dst
  obtain rfl : [[1, 2]] = bufs := Option.some.inj delivered
  exact complete.mpr ⟨rfl, trivial⟩

end Meatloaf
