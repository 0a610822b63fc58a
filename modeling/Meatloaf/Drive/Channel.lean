import Meatloaf.Disk.Seek
import Mathlib.Logic.Function.Basic

/-! Channels of the drive. A file channel reads its stream ahead into a buffer; a direct-access
channel is a window on the image, and the window is what the stream is told its size and position
are. -/
namespace Meatloaf.Drive

open Lib Disk

def BUFFER_SIZE : Nat := 512

def ST_OK : Nat := 0
def ST_READ_NO_DATA : Nat := 22
def ST_WRITE_PROTECT_ON : Nat := 26
def ST_SYNTAX_UNKNOWN : Nat := 30
def ST_SYNTAX_INVALID : Nat := 31
def ST_FILE_NOT_OPEN : Nat := 61
def ST_ILLEGAL_TS_COMMAND : Nat := 66
def ST_DRIVE_NOT_READY : Nat := 74

structure Status where
  code : Nat := ST_OK
  track : Nat := 0
  sector : Nat := 0
  deriving DecidableEq, Repr

/-- `iecChannelHandlerFile`. The bytes of `m_data` up to `m_len` are `data`; `out` is the bit of the
stream's mode. -/
structure Channel where
  stream : D64
  out : Bool
  data : List UInt8 := []
  ptr : Nat := 0
  eos : Bool := false
  position : Nat := 0
  block_base : Nat := 0
  block_len : Nat := 0
  full_size : Nat := 0
  has_block : Bool := false

namespace Channel

/- The do-while loop of `readBufferData`: every turn but the last gets a byte. -/
def fill : Nat → List UInt8 → D64 → Nat × List UInt8 × D64
  | 0, data, s => (ST_OK, data, s)
  | turns + 1, data, s =>
    let r := s.read (BUFFER_SIZE - data.length)
    if r.1 = [] then (ST_OK, data, r.2)
    else if r.2.error ≠ 0 then (ST_DRIVE_NOT_READY, data ++ r.1, r.2)
    else if (data ++ r.1).length < BUFFER_SIZE ∧ r.2.available ≠ 0 then fill turns (data ++ r.1) r.2
    else (ST_OK, data ++ r.1, r.2)

def readBufferData (c : Channel) : Nat × Channel :=
  let r := fill (BUFFER_SIZE + 1) [] c.stream
  (r.1, { c with stream := r.2.2, data := r.2.1, eos := c.eos || (r.1 == ST_OK && r.2.1.isEmpty) })

/- The end of `read`, with bytes in the buffer. -/
def serve (c : Channel) (n : Nat) : List UInt8 × Channel :=
  let piece := (c.data.drop c.ptr).take n
  (piece, { c with ptr := c.ptr + piece.length, position := c.position + piece.length })

/-- `iecChannelHandler::read`: the status it sets, and the bytes. -/
def read (c : Channel) (n : Nat) : Nat × List UInt8 × Channel :=
  if c.data.length ≤ c.ptr then
    if c.eos then (ST_OK, [], c)
    else
      let r := { c with ptr := 0, data := [] }.readBufferData
      if r.1 ≠ ST_OK then (r.1, [], r.2)
      else if r.2.data = [] then (ST_OK, [], { r.2 with eos := true })
      else (ST_OK, r.2.serve n)
  else (ST_OK, c.serve n)

def writeBufferData (c : Channel) : Nat × Channel :=
  let r := c.stream.writeContainer c.data
  (if r.1 < c.data.length then ST_WRITE_VERIFY else ST_OK, { c with stream := r.2 })

/-- `iecChannelHandlerFile::write`: the status it sets, and the number of bytes taken. A direct-access
stream has no file selected, so what is written goes to the container as it is; nothing at all does not
get that far. -/
def write (c : Channel) (bytes : List UInt8) : Nat × Nat × Channel :=
  if c.out then
    let r := if bytes = [] then (0, c.stream) else c.stream.writeContainer bytes
    (ST_OK, r.1, { c with stream := r.2, position := c.position + r.1, ptr := 0, data := [], eos := false })
  else
    let full := BUFFER_SIZE < c.data.length + bytes.length
    let w := if full then c.writeBufferData else (ST_OK, c)
    if w.1 ≠ ST_OK then (w.1, 0, w.2)
    else
      let c := if full then { w.2 with ptr := 0, data := [] } else w.2
      (ST_OK, bytes.length, { c with data := c.data ++ bytes, position := c.position + bytes.length })

def repositioned (c : Channel) (position : Nat) : Channel :=
  { c with ptr := 0, data := [], eos := false, position := position }

def setBlockWindow (c : Channel) (base start len : Nat) : Channel :=
  { c with block_base := base, block_len := len, has_block := true }.repositioned start

def setSize (c : Channel) (size : Nat) : Channel := { c with stream := { c.stream with size := size } }

/- `position(p)` of the stream. -/
def positionStream (c : Channel) (p : Nat) : Bool × Channel :=
  let r := c.stream.seekSet p
  (r.1, { c with stream := r.2 })

/-- A channel opened as "#" on an image. -/
def direct (f : Format) (c : Container) (out : Bool) : Channel :=
  setBlockWindow { stream := { D64.new f c with size := block_size }, out := out, full_size := c.size }
    0 0 block_size

/-- `positionChannel` on a channel with a stream. -/
def positionTo (c : Channel) (pos : Nat) (within_block : Bool) : Status × Channel :=
  if within_block then
    if c.has_block = false then ({ code := ST_SYNTAX_INVALID }, c)
    else if block_size ≤ pos then ({ code := ST_SYNTAX_UNKNOWN }, c)
    else
      let target := c.block_base + pos
      let r := c.positionStream target
      if r.1 = false then ({ code := ST_SYNTAX_UNKNOWN }, r.2) else ({}, r.2.repositioned target)
  else
    let c := if c.has_block then
        { (if 0 < c.full_size then c.setSize c.full_size else c) with has_block := false }
      else c
    let r := c.positionStream pos
    if r.1 = false then ({ code := ST_SYNTAX_UNKNOWN }, r.2) else ({}, r.2.repositioned pos)

/- The end of `seekChannelToBlock`: the window is laid over the stream. -/
def lay (c : Channel) (b : Block) (base start length : Nat) : Status × Channel :=
  let r := (c.setSize (start + length)).positionStream start
  if r.1 = false then (⟨ST_ILLEGAL_TS_COMMAND, b.track, b.sector⟩, r.2)
  else ({}, r.2.setBlockWindow base start length)

/-- `seekChannelToBlock` on a channel with a stream. -/
def seekToBlock (c : Channel) (b : Block) (extra : Nat) (for_write : Bool) : Status × Channel :=
  if for_write ∧ c.out = false then (⟨ST_WRITE_PROTECT_ON, b.track, b.sector⟩, c)
  else
    match c.stream.geo.linearBlock b.track b.sector with
    | none => (⟨ST_ILLEGAL_TS_COMMAND, b.track, b.sector⟩, c)
    | some block =>
      let base := block * block_size
      if 0 < extra then
        let p := c.positionStream base
        if p.1 = false then (⟨ST_ILLEGAL_TS_COMMAND, b.track, b.sector⟩, p.2)
        else
          -- the count byte of the block, through the window the last command has left
          let r := p.2.stream.read 1
          let c := { p.2 with stream := r.2 }
          match r.1 with
          | [] => (⟨ST_READ_NO_DATA, b.track, b.sector⟩, c)
          | count :: _ => c.lay b base (base + extra) count.toNat
      else c.lay b base (base + extra) block_size

end Channel

/- A directory channel generates its listing and has no stream. -/
inductive Handler where
  | file (channel : Channel)
  | dir

/-- `iecDrive`: its channels and its status. -/
structure IecDrive where
  channels : Nat → Option Handler := fun _ => none
  status : Status := {}

namespace IecDrive

/- What the block commands do before they turn to a stream. -/
def withStream (d : IecDrive) (chan : Nat) (command : Channel → Status × Channel) : IecDrive :=
  if 15 < chan then { d with status := { code := ST_SYNTAX_UNKNOWN } }
  else
    match d.channels chan with
    | none => { d with status := { code := ST_FILE_NOT_OPEN } }
    | some .dir => { d with status := { code := ST_SYNTAX_INVALID } }
    | some (.file c) =>
      let r := command c
      { channels := Function.update d.channels chan (some (.file r.2)), status := r.1 }

def positionChannel (d : IecDrive) (chan pos : Nat) (within_block : Bool) : IecDrive :=
  d.withStream chan fun c => c.positionTo pos within_block

def seekChannelToBlock (d : IecDrive) (chan : Nat) (b : Block) (extra : Nat) (for_write : Bool) : IecDrive :=
  d.withStream chan fun c => c.seekToBlock b extra for_write

variable {d : IecDrive} {chan : Nat}

theorem withStream_file {c : Channel} (listed : chan ≤ 15) (opened : d.channels chan = some (.file c))
    (command : Channel → Status × Channel) :
    d.withStream chan command =
      { channels := Function.update d.channels chan (some (.file (command c).2)), status := (command c).1 } := by
  unfold withStream
  rw [if_neg (by omega), opened]

/-- A command on one channel leaves the others alone. -/
theorem withStream_others (command : Channel → Status × Channel) {other : Nat} (apart : other ≠ chan) :
    (d.withStream chan command).channels other = d.channels other := by
  unfold withStream
  split
  · rfl
  · split
    · rfl
    · rfl
    · exact Function.update_of_ne apart _ _

/-- A command that finds no stream says so, and nothing else happens. -/
theorem withStream_refused (command : Channel → Status × Channel)
    (refused : 15 < chan ∨ ∀ c, d.channels chan ≠ some (.file c)) :
    (d.withStream chan command).channels = d.channels ∧ (d.withStream chan command).status.code ≠ ST_OK := by
  unfold withStream
  by_cases high : 15 < chan
  · rw [if_pos high]
    exact ⟨rfl, (by decide : ST_SYNTAX_UNKNOWN ≠ ST_OK)⟩
  · rw [if_neg high]
    have missing := refused.resolve_left high
    split
    · exact ⟨rfl, (by decide : ST_FILE_NOT_OPEN ≠ ST_OK)⟩
    · exact ⟨rfl, (by decide : ST_SYNTAX_INVALID ≠ ST_OK)⟩
    · exact absurd ‹_› (missing _)

end IecDrive

end Meatloaf.Drive
