import Meatloaf.Drive.Channel

/-! The channels of the drive over streams of any kind, outside of the virtual drive. A stream is
asked for bytes, moved, and told its size; only a disk image knows where its sectors are. -/
namespace Meatloaf.Drive

open Lib Disk

def ST_NO_BLOCK : Nat := 65
def ST_NO_CHANNEL : Nat := 70

/-- What a channel asks of a stream. -/
structure MStream (σ : Type*) where
  read : Nat → σ → List UInt8 × σ
  seek : Nat → σ → Bool × σ
  position : Nat → σ → Bool × σ
  setSize : Nat → σ → σ
  error : σ → Nat
  eos : σ → Bool
  sectorByteOffset : Nat → Nat → σ → Option Nat
  block_size : σ → Nat
  out : σ → Bool

/-- `iecChannelHandlerFile`. No load address is put over the bytes: `m_fixLoadAddress` is negative, since what
would get an address there is a directory, and a directory gets no file channel. -/
structure FileChannel (σ : Type*) where
  stream : σ
  data : List UInt8 := []
  ptr : Nat := 0
  eos : Bool := false
  position : Nat := 0
  block_base : Nat := 0
  block_len : Nat := 0
  full_size : Nat := 0
  has_block : Bool := false

namespace FileChannel

variable {σ : Type*} (ops : MStream σ)

/- The do-while loop of `readBufferData`: every turn but the last gets a byte. -/
def fill : Nat → List UInt8 → σ → Nat × List UInt8 × σ
  | 0, data, s => (ST_OK, data, s)
  | turns + 1, data, s =>
    let r := ops.read (BUFFER_SIZE - data.length) s
    if r.1 = [] then (ST_OK, data, r.2)
    else if ops.error r.2 ≠ 0 then (ST_DRIVE_NOT_READY, data ++ r.1, r.2)
    else if (data ++ r.1).length < BUFFER_SIZE ∧ ops.eos r.2 = false then fill turns (data ++ r.1) r.2
    else (ST_OK, data ++ r.1, r.2)

def readBufferData (c : FileChannel σ) : Nat × FileChannel σ :=
  let r := fill ops (BUFFER_SIZE + 1) [] c.stream
  (r.1, { c with stream := r.2.2, data := r.2.1, eos := c.eos || (r.1 == ST_OK && r.2.1.isEmpty) })

/- The end of `read`, with bytes in the buffer. -/
def serve (c : FileChannel σ) (n : Nat) : List UInt8 × FileChannel σ :=
  let piece := (c.data.drop c.ptr).take n
  (piece, { c with ptr := c.ptr + piece.length, position := c.position + piece.length })

/-- `iecChannelHandler::read`: the status it sets, and the bytes. -/
def read (c : FileChannel σ) (n : Nat) : Nat × List UInt8 × FileChannel σ :=
  if c.data.length ≤ c.ptr then
    if c.eos then (ST_OK, [], c)
    else
      let r := readBufferData ops { c with ptr := 0, data := [] }
      if r.1 ≠ ST_OK then (r.1, [], r.2)
      else if r.2.data = [] then (ST_OK, [], { r.2 with eos := true })
      else (ST_OK, r.2.serve n)
  else (ST_OK, c.serve n)

/- The bytes of a read, and the channel behind it. -/
def get (n : Nat) (c : FileChannel σ) : List UInt8 × FileChannel σ := (c.read ops n).2

def repositioned (c : FileChannel σ) (position : Nat) : FileChannel σ :=
  { c with ptr := 0, data := [], eos := false, position := position }

def setBlockWindow (c : FileChannel σ) (base start len : Nat) : FileChannel σ :=
  { c with block_base := base, block_len := len, has_block := true }.repositioned start

def setSize (c : FileChannel σ) (size : Nat) : FileChannel σ := { c with stream := ops.setSize size c.stream }

/- `position(p)` of the stream. -/
def positionStream (c : FileChannel σ) (p : Nat) : Bool × FileChannel σ :=
  let r := ops.position p c.stream
  (r.1, { c with stream := r.2 })

/- Block mode ends, and the stream has its full size again. -/
def leaveBlock (c : FileChannel σ) : FileChannel σ :=
  if c.has_block then
    { (if 0 < c.full_size then c.setSize ops c.full_size else c) with has_block := false }
  else c

/- `positionChannel` within the block that was selected last. -/
def pointInBlock (c : FileChannel σ) (pos : Nat) : Status × FileChannel σ :=
  if c.has_block = false then ({ code := ST_SYNTAX_INVALID }, c)
  else if ops.block_size c.stream ≤ pos then ({ code := ST_SYNTAX_UNKNOWN }, c)
  else
    let target := c.block_base + pos
    let r := c.positionStream ops target
    if r.1 = false then ({ code := ST_SYNTAX_UNKNOWN }, r.2) else ({}, r.2.repositioned target)

/- `positionChannel` in the file or the container. -/
def pointInFile (c : FileChannel σ) (pos : Nat) : Status × FileChannel σ :=
  let r := (c.leaveBlock ops).positionStream ops pos
  if r.1 = false then ({ code := ST_SYNTAX_UNKNOWN }, r.2) else ({}, r.2.repositioned pos)

/-- `positionChannel` on a channel with a stream. -/
def positionTo (c : FileChannel σ) (pos : Nat) (within_block : Bool) : Status × FileChannel σ :=
  if within_block then c.pointInBlock ops pos else c.pointInFile ops pos

/- The stream is sought alone: what was read ahead stays, and what `seek` says is not looked at. -/
def sought (c : FileChannel σ) (pos : Nat) : FileChannel σ := { c with stream := (ops.seek pos c.stream).2 }

/- The end of `seekChannelToBlock`: the window is laid over the stream. -/
def lay (c : FileChannel σ) (b : Block) (base start length : Nat) : Status × FileChannel σ :=
  let r := (c.setSize ops (start + length)).positionStream ops start
  if r.1 = false then (⟨ST_ILLEGAL_TS_COMMAND, b.track, b.sector⟩, r.2)
  else ({}, r.2.setBlockWindow base start length)

/-- `seekChannelToBlock` on a channel with a stream. -/
def seekToBlock (c : FileChannel σ) (b : Block) (extra : Nat) (for_write : Bool) : Status × FileChannel σ :=
  if for_write ∧ ops.out c.stream = false then (⟨ST_WRITE_PROTECT_ON, b.track, b.sector⟩, c)
  else
    match ops.sectorByteOffset b.track b.sector c.stream with
    | none => (⟨ST_ILLEGAL_TS_COMMAND, b.track, b.sector⟩, c)
    | some base =>
      if 0 < extra then
        let p := c.positionStream ops base
        if p.1 = false then (⟨ST_ILLEGAL_TS_COMMAND, b.track, b.sector⟩, p.2)
        else
          let r := ops.read 1 p.2.stream
          let c := { p.2 with stream := r.2 }
          match r.1 with
          | [] => (⟨ST_READ_NO_DATA, b.track, b.sector⟩, c)
          | count :: _ => c.lay ops b base (base + extra) count.toNat
      else c.lay ops b base (base + extra) (ops.block_size c.stream)

variable {ops} {c : FileChannel σ}

/- The three ways of a read: from the buffer, behind the end, and with a refill. -/

theorem read_unread (unread : c.ptr < c.data.length) (n : Nat) : c.read ops n = (ST_OK, c.serve n) :=
  if_neg (Nat.not_le.mpr unread)

theorem read_ended (spent : c.data.length ≤ c.ptr) (ended : c.eos = true) (n : Nat) :
    c.read ops n = (ST_OK, [], c) := by
  rw [read, if_pos spent, if_pos ended]

/- What the loop gets for an empty buffer. -/
def refill (ops : MStream σ) (s : σ) : Nat × List UInt8 × σ := fill ops (BUFFER_SIZE + 1) [] s

/- The channel with a buffer of these bytes. -/
def holding (c : FileChannel σ) (data : List UInt8) (s : σ) : FileChannel σ :=
  { c with stream := s, data := data, ptr := 0 }

theorem read_refill (spent : c.data.length ≤ c.ptr) (more : c.eos = false) (n : Nat) :
    c.read ops n =
      let r := refill ops c.stream
      if r.1 ≠ ST_OK then (r.1, [], c.holding r.2.1 r.2.2)
      else if r.2.1 = [] then (ST_OK, [], { c.holding [] r.2.2 with eos := true })
      else (ST_OK, (c.holding r.2.1 r.2.2).serve n) := by
  have start : ({ c with ptr := 0, data := [] } : FileChannel σ).readBufferData ops =
      ((refill ops c.stream).1, { c.holding (refill ops c.stream).2.1 (refill ops c.stream).2.2 with
        eos := c.eos || ((refill ops c.stream).1 == ST_OK && (refill ops c.stream).2.1.isEmpty) }) := rfl
  rw [read, if_pos spent, if_neg (by simp [more]), start]
  generalize refill ops c.stream = r
  dsimp only
  by_cases fails : r.1 ≠ ST_OK
  · have same : c.eos = (c.eos || (r.1 == ST_OK && r.2.1.isEmpty)) := by simp [more, fails]
    rw [if_pos fails, if_pos fails, ← same]
    rfl
  · rw [if_neg fails, if_neg fails]
    by_cases none : r.2.1 = []
    · have empty : (c.holding r.2.1 r.2.2).data = [] := none
      rw [if_pos none, if_pos empty, none]
    · have some : (c.holding r.2.1 r.2.2).data ≠ [] := none
      have same : c.eos = (c.eos || (r.1 == ST_OK && r.2.1.isEmpty)) := by simp [more, none]
      rw [if_neg none, if_neg some, ← same]
      rfl

end FileChannel

/- An index that is no channel, or a stream that is not there. -/
inductive Fault where
  | index (i : Nat)
  | null
  deriving DecidableEq

/- A directory channel generates its listing and has no stream. -/
inductive ChannelHandler (σ : Type*) where
  | file (channel : FileChannel σ)
  | dir

/- What the block allocation commands do to the image of the current directory. -/
structure Allocation (ι : Type*) where
  usable : ι → Bool
  setBlockAllocation : Nat → Nat → Bool → ι → Bool × ι

/-- `iecDrive`: its sixteen channels, the image of its directory, and its status. -/
structure Device (σ ι : Type*) where
  channels : Nat → Option (ChannelHandler σ) := fun _ => none
  image : ι
  status : Status := {}

namespace Device

variable {σ ι : Type*} (ops : MStream σ) (alloc : Allocation ι)

def setStatusCode (d : Device σ ι) (code : Nat) : Device σ ι := { d with status := { code := code } }

/- What the block commands do before they turn to a stream. -/
def withStream (d : Device σ ι) (chan : Nat) (command : FileChannel σ → Status × FileChannel σ) : Device σ ι :=
  if 15 < chan then d.setStatusCode ST_SYNTAX_UNKNOWN
  else
    match d.channels chan with
    | none => d.setStatusCode ST_FILE_NOT_OPEN
    | some .dir => d.setStatusCode ST_SYNTAX_INVALID
    | some (.file c) =>
      let r := command c
      { d with channels := Function.update d.channels chan (some (.file r.2)), status := r.1 }

def positionChannel (d : Device σ ι) (chan pos : Nat) (within_block : Bool) : Device σ ι :=
  d.withStream chan fun c => c.positionTo ops pos within_block

def seekChannelToBlock (d : Device σ ι) (channel_num : Nat) (b : Block) (extra : Nat) (for_write : Bool) :
    Device σ ι :=
  d.withStream channel_num fun c => c.seekToBlock ops b extra for_write

/- The end of `P`: the channel number indexes the channels as it is. -/
def seekChannel (d : Device σ ι) (chan pos : Nat) : Except Fault (Device σ ι) :=
  if 15 < chan then .error (.index chan)
  else
    match d.channels chan with
    | none => .ok (d.setStatusCode ST_NO_CHANNEL)
    | some .dir => .error .null
    | some (.file c) =>
      .ok { d with channels := Function.update d.channels chan (some (.file (c.sought ops pos))) }

/- The end of `B-A` and `B-F`. -/
def setBlockAllocation (d : Device σ ι) (b : Block) (allocate : Bool) : Device σ ι :=
  if alloc.usable d.image = false then d.setStatusCode ST_DRIVE_NOT_READY
  else
    let r := alloc.setBlockAllocation b.track b.sector allocate d.image
    if r.1 = false then { d with image := r.2, status := ⟨ST_NO_BLOCK, b.track, b.sector⟩ }
    else { d with image := r.2, status := {} }

end Device

/- The stream of a disk image, with the bit of its mode. -/
def imageStream : MStream (D64 × Bool) where
  read n s := ((s.1.read n).1, (s.1.read n).2, s.2)
  seek p s := ((s.1.seek p).1, (s.1.seek p).2, s.2)
  position p s := ((s.1.seekSet p).1, (s.1.seekSet p).2, s.2)
  setSize size s := ({ s.1 with size := size }, s.2)
  error s := s.1.error
  eos s := s.1.available == 0
  sectorByteOffset track sector s := (s.1.geo.linearBlock track sector).map (· * Disk.block_size)
  block_size _ := Disk.block_size
  out s := s.2

namespace Channel

/- The channel on the stream of an image. -/
def general (c : Channel) : FileChannel (D64 × Bool) where
  stream := (c.stream, c.out)
  data := c.data
  ptr := c.ptr
  eos := c.eos
  position := c.position
  block_base := c.block_base
  block_len := c.block_len
  full_size := c.full_size
  has_block := c.has_block

variable (c : Channel)

theorem fill_general (turns : Nat) (data : List UInt8) (s : D64) (out : Bool) :
    FileChannel.fill imageStream turns data (s, out) =
      ((fill turns data s).1, (fill turns data s).2.1, (fill turns data s).2.2, out) := by
  induction turns generalizing data s with
  | zero => rfl
  | succ turns ih =>
    have turn : FileChannel.fill imageStream (turns + 1) data (s, out) =
        let r := s.read (BUFFER_SIZE - data.length)
        if r.1 = [] then (ST_OK, data, r.2, out)
        else if r.2.error ≠ 0 then (ST_DRIVE_NOT_READY, data ++ r.1, r.2, out)
        else if (data ++ r.1).length < BUFFER_SIZE ∧ (r.2.available == 0) = false then
          FileChannel.fill imageStream turns (data ++ r.1) (r.2, out)
        else (ST_OK, data ++ r.1, r.2, out) := rfl
    rw [turn, fill]
    dsimp only
    rw [ih]
    simp only [beq_eq_false_iff_ne]
    split
    · rfl
    · split
      · rfl
      · split
        · rfl
        · rfl

theorem readBufferData_general : FileChannel.readBufferData imageStream c.general =
    (c.readBufferData.1, c.readBufferData.2.general) := by
  have filled := fill_general (BUFFER_SIZE + 1) [] c.stream c.out
  have start : FileChannel.fill imageStream (BUFFER_SIZE + 1) [] c.general.stream = _ := filled
  unfold FileChannel.readBufferData
  rw [start]
  rfl

/-- On the stream of an image the channels are those of the block commands there. -/
theorem read_general (n : Nat) :
    c.general.read imageStream n = ((c.read n).1, (c.read n).2.1, (c.read n).2.2.general) := by
  have refill := readBufferData_general { c with ptr := 0, data := [] }
  have start : FileChannel.readBufferData imageStream { c.general with ptr := 0, data := [] } = _ := refill
  unfold FileChannel.read read
  rw [start]
  by_cases spent : c.data.length ≤ c.ptr
  · rw [if_pos spent, if_pos (show c.general.data.length ≤ c.general.ptr from spent)]
    by_cases ended : c.eos = true
    · rw [if_pos ended, if_pos (show c.general.eos = true from ended)]
    · rw [if_neg ended, if_neg (show ¬ c.general.eos = true from ended)]
      dsimp only
      generalize ({ c with ptr := 0, data := [] } : Channel).readBufferData = r
      by_cases fails : r.1 ≠ ST_OK
      · rw [if_pos fails, if_pos fails]
      · rw [if_neg fails, if_neg fails]
        by_cases none : r.2.data = []
        · rw [if_pos none, if_pos (show r.2.general.data = [] from none)]
          rfl
        · rw [if_neg none, if_neg (show r.2.general.data ≠ [] from none)]
          rfl
  · rw [if_neg spent, if_neg (show ¬ c.general.data.length ≤ c.general.ptr from spent)]
    rfl

theorem positionStream_general (p : Nat) : c.general.positionStream imageStream p =
    ((c.positionStream p).1, (c.positionStream p).2.general) := rfl

theorem pointInBlock_general (pos : Nat) : c.general.pointInBlock imageStream pos =
    ((c.positionTo pos true).1, (c.positionTo pos true).2.general) := by
  have point : c.positionTo pos true =
      if c.has_block = false then ({ code := ST_SYNTAX_INVALID }, c)
      else if Disk.block_size ≤ pos then ({ code := ST_SYNTAX_UNKNOWN }, c)
      else if (c.positionStream (c.block_base + pos)).1 = false then
        ({ code := ST_SYNTAX_UNKNOWN }, (c.positionStream (c.block_base + pos)).2)
      else ({}, (c.positionStream (c.block_base + pos)).2.repositioned (c.block_base + pos)) := rfl
  have general : c.general.pointInBlock imageStream pos =
      if c.has_block = false then ({ code := ST_SYNTAX_INVALID }, c.general)
      else if Disk.block_size ≤ pos then ({ code := ST_SYNTAX_UNKNOWN }, c.general)
      else if (c.positionStream (c.block_base + pos)).1 = false then
        ({ code := ST_SYNTAX_UNKNOWN }, (c.positionStream (c.block_base + pos)).2.general)
      else ({}, (c.positionStream (c.block_base + pos)).2.general.repositioned (c.block_base + pos)) := rfl
  rw [point, general]
  split
  · rfl
  · split
    · rfl
    · split
      · rfl
      · rfl

theorem leaveBlock_general : c.general.leaveBlock imageStream =
    (if c.has_block then { (if 0 < c.full_size then c.setSize c.full_size else c) with has_block := false }
      else c : Channel).general := by
  unfold FileChannel.leaveBlock
  by_cases selected : c.has_block
  · rw [if_pos selected, if_pos (show c.general.has_block from selected)]
    by_cases sized : 0 < c.full_size
    · rw [if_pos sized, if_pos (show 0 < c.general.full_size from sized)]
      rfl
    · rw [if_neg sized, if_neg (show ¬ 0 < c.general.full_size from sized)]
      rfl
  · rw [if_neg selected, if_neg (show ¬ c.general.has_block from selected)]

theorem pointInFile_general (pos : Nat) : c.general.pointInFile imageStream pos =
    ((c.positionTo pos false).1, (c.positionTo pos false).2.general) := by
  unfold FileChannel.pointInFile positionTo
  rw [leaveBlock_general, if_neg Bool.false_ne_true]
  generalize (if c.has_block then { (if 0 < c.full_size then c.setSize c.full_size else c) with has_block := false }
    else c : Channel) = left
  rw [positionStream_general]
  dsimp only
  split
  · rfl
  · rfl

theorem lay_general (b : Block) (base start length : Nat) :
    c.general.lay imageStream b base start length =
      ((c.lay b base start length).1, (c.lay b base start length).2.general) := by
  have moved : (c.general.setSize imageStream (start + length)).positionStream imageStream start =
      (((c.setSize (start + length)).positionStream start).1,
        ((c.setSize (start + length)).positionStream start).2.general) := rfl
  unfold FileChannel.lay lay
  rw [moved]
  dsimp only
  split
  · rfl
  · rfl

theorem seekToBlock_general (b : Block) (extra : Nat) (for_write : Bool) :
    c.general.seekToBlock imageStream b extra for_write =
      ((c.seekToBlock b extra for_write).1, (c.seekToBlock b extra for_write).2.general) := by
  have moved (base : Nat) : c.general.positionStream imageStream base =
      ((c.positionStream base).1, (c.positionStream base).2.general) := rfl
  have offset : imageStream.sectorByteOffset b.track b.sector c.general.stream =
      (c.stream.geo.linearBlock b.track b.sector).map (· * Disk.block_size) := rfl
  unfold FileChannel.seekToBlock seekToBlock
  rw [offset]
  by_cases protected_ : for_write ∧ c.out = false
  · rw [if_pos protected_, if_pos (show for_write ∧ imageStream.out c.general.stream = false from protected_)]
  · rw [if_neg protected_, if_neg (show ¬ (for_write ∧ imageStream.out c.general.stream = false) from protected_)]
    cases c.stream.geo.linearBlock b.track b.sector with
    | none => rfl
    | some block =>
      dsimp only [Option.map_some]
      by_cases counted : 0 < extra
      · rw [if_pos counted, if_pos counted, moved]
        dsimp only
        split
        · rfl
        · generalize (c.positionStream (block * Disk.block_size)).2 = c'
          have count : imageStream.read 1 c'.general.stream = ((c'.stream.read 1).1, (c'.stream.read 1).2, c'.out) := rfl
          rw [count]
          dsimp only
          cases (c'.stream.read 1).1 with
          | nil => rfl
          | cons count _ => exact lay_general { c' with stream := (c'.stream.read 1).2 } b _ _ _
      · rw [if_neg counted, if_neg counted]
        exact lay_general c b _ _ _

end Channel

end Meatloaf.Drive
