import Mathlib.Logic.Function.Basic
import Meatloaf.Bus.FastLoader

/-! `IECFileDevice`: talking and listening on the bus, on top of the functions that a device class
overrides. A board that sees ATN in an interrupt or by `pinCTRL` is modelled, so `canServeATN()` holds and
`task` does what a transaction has left to do. -/
namespace Meatloaf.Bus

open Lib

def IECFILEDEVICE_WRITE_BUFFER_SIZE : Nat := 255
def IECFILEDEVICE_STATUS_BUFFER_SIZE : Nat := 255

/-- The functions that a device class overrides; `σ` is the state of the class. A read returns at most
what it is asked for, and the EOI flag that it leaves. An answer that the class puts into the status
buffer comes with the result, none being `clearStatus()`; a command may drop read buffers too. -/
structure Device (σ : Type) where
  open_ : Nat → Str → σ → Bool × Option Str × σ
  close : Nat → σ → Option Str × σ
  read : Nat → Nat → σ → (Str × Bool) × Option Str × σ
  write : Nat → Str → Bool → σ → Nat × Option Str × σ
  getStatusData : Nat → σ → (Str × Bool) × σ
  executeData : Str → σ → (Option Str × List Nat) × σ
  reset : σ → σ
  read_le : ∀ channel n s, (read channel n s).1.1.length ≤ n

/-- What `fileTask` is left to do. -/
inductive Cmd where
  | none | open_ | close | exec | write
  deriving DecidableEq, Repr

/-- `IECFileDevice`. A read buffer of length -128 is `none`, and of the status buffer only the unread part
is kept. -/
structure IECFileDevice (σ : Type) where
  opening : Bool := false
  eoi : Bool := true
  statusEoi : Bool := true
  channel : Nat := 0xFF
  cmd : Cmd := .none
  uploadCtr : Nat := 0
  ar6detect : Nat := 0
  flProtocol : Option (FastLoader × Prot) := none
  writeBuffer : Nat → UInt8 := fun _ => 0
  writeBufferLen : Nat := 0
  readBuffer : Nat → Option Str := fun _ => some []
  status : Str := []
  state : σ

namespace IECFileDevice

variable {σ : Type} (ops : Device σ) (enabled : FastLoader → Bool)

/- The bytes in the write buffer. -/
def written (d : IECFileDevice σ) : Str := Store.read d.writeBuffer 0 d.writeBufferLen

def setStatus (d : IECFileDevice σ) (data : Str) : IECFileDevice σ :=
  { d with status := data.take IECFILEDEVICE_STATUS_BUFFER_SIZE, statusEoi := true }

/- What a function of the class has put into the status buffer, if anything. -/
def answered (d : IECFileDevice σ) (data : Option Str) : IECFileDevice σ :=
  match data with
  | none => d
  | some data => d.setStatus data

def setReadBuffer (d : IECFileDevice σ) (channel : Nat) (data : Option Str) : IECFileDevice σ :=
  { d with readBuffer := Function.update d.readBuffer channel data }

def clearReadBuffer (d : IECFileDevice σ) (channel : Nat) : IECFileDevice σ :=
  if channel < 16 then d.setReadBuffer channel (some []) else d

/-- `read(m_channel, ...)` of the class, into a buffer of our own; a read of nothing is the end. -/
def readClass (d : IECFileDevice σ) (n : Nat) : Str × IECFileDevice σ :=
  let r := ops.read d.channel n d.state
  (r.1.1, ({ d with state := r.2.2, eoi := r.1.2 || r.1.1.isEmpty }).answered r.2.1)

/-- `fillReadBuffer`. Two turns are enough, for a turn adds a byte or sets the EOI flag. -/
def fillReadBuffer : Nat → IECFileDevice σ → IECFileDevice σ
  | 0, d => d
  | turns + 1, d =>
    match d.readBuffer d.channel with
    | none => d
    | some held =>
      if held.length < 2 ∧ d.eoi = false then
        let r := d.readClass ops (2 - held.length)
        fillReadBuffer turns (r.2.setReadBuffer d.channel (some (held ++ r.1)))
      else d

def canRead (d : IECFileDevice σ) : Nat × IECFileDevice σ :=
  if d.channel = 15 then
    let d :=
      if d.status = [] then
        let r := ops.getStatusData IECFILEDEVICE_STATUS_BUFFER_SIZE d.state
        { d with status := r.1.1, statusEoi := r.1.2, state := r.2 }
      else if d.status.length = 1 ∧ d.statusEoi = false then
        -- only one byte left, and there is more where it came from
        let r := ops.getStatusData (IECFILEDEVICE_STATUS_BUFFER_SIZE - 1) d.state
        { d with status := d.status ++ r.1.1, statusEoi := r.1.2, state := r.2 }
      else d
    (min d.status.length 2, d)
  else if 15 < d.channel then (0, d)
  else
    match d.readBuffer d.channel with
    | none => (0, d)
    | some held =>
      let d := fillReadBuffer ops 2 { d with eoi := d.eoi && !held.isEmpty }
      (((d.readBuffer d.channel).getD []).length, d)

/- What is read next; a buffer without data is not read. -/
def peek (d : IECFileDevice σ) : UInt8 :=
  if d.channel = 15 then d.status.headD 0
  else if d.channel < 15 then ((d.readBuffer d.channel).getD []).headD 0
  else 0

def read (d : IECFileDevice σ) : UInt8 × IECFileDevice σ :=
  (d.peek,
    if d.channel = 15 then { d with status := d.status.tail }
    else if d.channel < 15 then d.setReadBuffer d.channel (some ((d.readBuffer d.channel).getD []).tail)
    else d)

/-- The second loop of `read(buffer, bufferSize)`; every turn gets a byte or is the last. -/
def readMore : Nat → IECFileDevice σ → Nat → Str × IECFileDevice σ
  | 0, d, _ => ([], d)
  | turns + 1, d, room =>
    if 0 < room ∧ d.eoi = false then
      let r := d.readClass ops room
      let more := readMore turns r.2 (room - r.1.length)
      (r.1 ++ more.1, more.2)
    else ([], d)

/-- `read(buffer, bufferSize)`: first what the read buffer holds. -/
def readBlock (d : IECFileDevice σ) (bufferSize : Nat) : Str × IECFileDevice σ :=
  let held := ((d.readBuffer d.channel).getD []).take bufferSize
  let kept := d.setReadBuffer d.channel ((d.readBuffer d.channel).map (List.drop bufferSize))
  let r := kept.readMore ops bufferSize (bufferSize - held.length)
  (held ++ r.1, r.2)

/- `memmove` to the front of the write buffer, over the first `n` bytes. -/
def moved (buffer : Nat → UInt8) (length n : Nat) : Nat → UInt8 := fun k =>
  if k < length - n then buffer (k + n) else buffer k

def emptyWriteBuffer (d : IECFileDevice σ) : IECFileDevice σ :=
  if d.writeBufferLen = 0 then d
  else
    let r := ops.write d.channel d.written d.eoi d.state
    let d := ({ d with state := r.2.2 }).answered r.2.1
    if r.1 < d.writeBufferLen then
      { d with writeBuffer := moved d.writeBuffer d.writeBufferLen r.1, writeBufferLen := d.writeBufferLen - r.1 }
    else { d with writeBufferLen := 0 }

def canWrite (d : IECFileDevice σ) : Bool × IECFileDevice σ :=
  if d.channel = 15 ∨ d.opening = true then (true, d)
  else if 15 < d.channel ∨ d.readBuffer d.channel = none then (false, d)
  else
    let d := if d.writeBufferLen = IECFILEDEVICE_WRITE_BUFFER_SIZE - 1 then d.emptyWriteBuffer ops else d
    (decide (d.writeBufferLen < IECFILEDEVICE_WRITE_BUFFER_SIZE - 1), d)

def write (d : IECFileDevice σ) (data : UInt8) (eoi : Bool) : IECFileDevice σ :=
  let d := { d with eoi := d.eoi || eoi }
  if d.writeBufferLen < IECFILEDEVICE_WRITE_BUFFER_SIZE - 1 then
    { d with
      writeBuffer := Function.update d.writeBuffer d.writeBufferLen data, writeBufferLen := d.writeBufferLen + 1 }
  else d

/-- `write(buffer, bufferSize, eoi)`: how much of it the class has taken. -/
def writeBlock (d : IECFileDevice σ) (data : Str) (eoi : Bool) : Nat × IECFileDevice σ :=
  if d.channel < 15 then
    let d := d.emptyWriteBuffer ops
    if 0 < d.writeBufferLen then (0, d)
    else
      let d := { d with eoi := d.eoi || eoi }
      let r := ops.write d.channel data d.eoi d.state
      (r.1, ({ d with state := r.2.2 }).answered r.2.1)
  else (0, d)

def talk (d : IECFileDevice σ) (secondary : UInt8) : IECFileDevice σ :=
  let channel := secondary.toNat % 16
  { d with
    channel := channel, eoi := false
    -- Final Cartridge 3 sends TALK, CLOSE, UNLISTEN
    cmd := if channel ≠ 15 ∧ secondary.toNat / 16 = 0xE then .close else d.cmd }

def untalk (d : IECFileDevice σ) : IECFileDevice σ := { d with channel := 0xFF }

def listen (d : IECFileDevice σ) (secondary : UInt8) : IECFileDevice σ :=
  let d := { d with channel := secondary.toNat % 16, eoi := false }
  if d.channel = 15 then { d with writeBufferLen := 0 }
  else if secondary.toNat / 16 = 0xF then { d with opening := true, writeBufferLen := 0 }
  else if secondary.toNat / 16 = 0xE then { d with cmd := .close }
  else d

def unlisten (d : IECFileDevice σ) : IECFileDevice σ :=
  if d.channel = 15 then { d with cmd := if 0 < d.writeBufferLen then .exec else d.cmd, channel := 0xFF }
  else if d.opening = true then
    { d with opening := false, writeBuffer := Function.update d.writeBuffer d.writeBufferLen 0, cmd := .open_ }
  else if 0 < d.writeBufferLen then { d with cmd := .write }
  else d

def MRFFFE : Str := [0x4D, 0x2D, 0x52, 0xfe, 0xff, 0x01]

/-- Action Replay 6 writes two bytes that are not data: after reading the memory at $FFFE and
opening a file that is not to be loaded, it sends 0 and 1 alone. -/
def detectAR6 (d : IECFileDevice σ) : IECFileDevice σ :=
  if d.cmd = .none then d
  else if d.ar6detect = 0 ∧ d.cmd = .exec ∧ strncmp 6 MRFFFE d.writeBuffer = true then { d with ar6detect := 1 }
  else if d.ar6detect = 1 ∧ d.cmd = .open_ ∧ 0 < d.channel then { d with ar6detect := 2 }
  else if d.ar6detect = 2 ∧ d.cmd = .write ∧ d.written = [0, 1] then
    { d with writeBufferLen := 0, cmd := .none, ar6detect := 0 }
  else { d with ar6detect := 0 }

/-- What `isFastLoaderRequest` does for what it has taken the command for. -/
def requested (d : IECFileDevice σ) : Request → IECFileDevice σ
  | .upload => d
  | .fastLoad loader request none => { d with flProtocol := some (loader, request) }
  | .fastLoad loader request (some channel) =>
    { d with flProtocol := some (loader, request), eoi := false, channel := channel }
  | .status data => d.setStatus data
  | .burst _ => d.setStatus []

def executed (d : IECFileDevice σ) : IECFileDevice σ :=
  let r := ops.executeData d.written d.state
  r.1.2.foldl clearReadBuffer (({ d with state := r.2 }).answered r.1.1)

/-- `IFD_OPEN`: a channel whose file could not be opened has no read buffer. -/
def opened (d : IECFileDevice σ) : IECFileDevice σ :=
  let r := ops.open_ d.channel d.written d.state
  let d := ({ d with state := r.2.2 }).answered r.2.1
  { d.setReadBuffer d.channel (if r.1 then some [] else none) with writeBufferLen := 0, channel := 0xFF }

/-- `IFD_WRITE`: any data that cannot be sent on at this point is lost. -/
def flushed (d : IECFileDevice σ) : IECFileDevice σ :=
  { d.emptyWriteBuffer ops with writeBufferLen := 0, channel := 0xFF }

/-- `IFD_CLOSE`, where data is lost in the same way. -/
def closed (d : IECFileDevice σ) : IECFileDevice σ :=
  let d := { d.emptyWriteBuffer ops with writeBufferLen := 0 }
  let r := ops.close d.channel d.state
  let d := ({ d with state := r.2 }).answered r.1
  { d.setReadBuffer d.channel (some []) with channel := 0xFF }

/-- `IFD_EXEC`: commands of fast loaders do not reach the class. -/
def commanded (d : IECFileDevice σ) : IECFileDevice σ :=
  let r := isFastLoaderRequest enabled d.uploadCtr d.writeBuffer d.writeBufferLen
  let d := { d with uploadCtr := r.2 }
  let d := match r.1 with
    | some request => d.requested request
    | none => d.executed ops
  { d with writeBufferLen := 0 }

def fileCommand (d : IECFileDevice σ) : IECFileDevice σ :=
  match d.cmd with
  | .none => d
  | .open_ => d.opened ops
  | .close => d.closed ops
  | .write => d.flushed ops
  | .exec => d.commanded ops enabled

def fileTask (d : IECFileDevice σ) : IECFileDevice σ :=
  { d.detectAR6.fileCommand ops enabled with cmd := .none }

/-- `reset`; the Action Replay detection goes on. -/
def reset (d : IECFileDevice σ) : IECFileDevice σ :=
  { ar6detect := d.ar6detect, writeBuffer := d.writeBuffer, state := ops.reset d.state,
    readBuffer := fun channel => if channel < 15 then some [] else d.readBuffer channel }

end IECFileDevice

end Meatloaf.Bus
