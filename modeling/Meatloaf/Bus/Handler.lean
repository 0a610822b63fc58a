import Meatloaf.Bus.FileDevice

/-! `IECBusHandler::task` with one device on the bus. A pass of it is taken with what the host does in the
meantime: an ATN sequence, a byte that it offers or asks for, a block of a fast loader, or nothing. How
bytes travel over the lines is left out. -/
namespace Meatloaf.Bus

/-- What the host does during a pass. An ATN sequence has one secondary address; `elsewhere` addresses
another device. A byte that the host asks for may be cut off by ATN before it is acknowledged. -/
inductive Host where
  | idle
  | listen (secondary : UInt8)
  | talk (secondary : UInt8) (jiffy : Bool)
  | unlisten
  | untalk
  | elsewhere (talks : Bool)
  | offer (data : UInt8) (eoi : Bool)
  | accept (acknowledged : Bool)
  | header (name : Str)
  | fetch (bufferSize : Nat)
  | store (data : Str) (eoi : Bool)
  | finish (close : Option UInt8)
  | reset
  deriving DecidableEq, Repr

/-- What the host sees of it. A byte comes with its channel and EOI; `lost` is one that was read and then
not acknowledged, `cut` one that stays, and `empty` the error that a channel without data signals. -/
inductive Reply where
  | taken
  | refused
  | byte (channel : Nat) (data : UInt8) (eoi : Bool)
  | lost (channel : Nat) (data : UInt8)
  | cut
  | empty (channel : Nat)
  | block (channel : Nat) (data : Str)
  | stored (n : Nat)
  deriving DecidableEq, Repr

structure IECBusHandler (σ : Type) where
  listening : Bool := false
  talking : Bool := false
  done : Bool := false
  jiffyBlock : Bool := false
  device : IECFileDevice σ

namespace IECBusHandler

variable {σ : Type} (ops : Device σ) (enabled : FastLoader → Bool) (m_bufferSize : Nat)

/- With one of these enabled, a byte is looked at first and read when it has been acknowledged. -/
def doPeek : Bool := enabled .ar6 || enabled .hypraload

/-- Hypra-Load clocks its bytes with ATN, which is no attention then. -/
def clocked (b : IECBusHandler σ) : Bool := b.device.flProtocol == some (.hypraload, .load)

/- ATN ends whatever went on. -/
def atnRequest (b : IECBusHandler σ) : IECBusHandler σ :=
  { b with done := false, jiffyBlock := false, device := { b.device with flProtocol := none } }

/-- `handleATNSequence`, and what follows it: a device that listens is asked whether it can. -/
def handleATNSequence (b : IECBusHandler σ) : Host → IECBusHandler σ
  | .listen secondary => { b with device := b.device.listen secondary, listening := true, talking := false }
  | .talk secondary jiffy =>
    -- in JiffyDOS, secondary 0x61 when talking means block transfers
    let block := jiffy && secondary == 0x61
    { b with
      device := b.device.talk (if block then 0x60 else secondary)
      listening := false, talking := true, jiffyBlock := block }
  | .unlisten => if b.listening then { b with device := b.device.unlisten, listening := false } else b
  | .untalk =>
    if b.talking then { b with device := b.device.untalk, talking := false }
    else if b.listening then { b with device := b.device.unlisten, listening := false }
    else b
  | .elsewhere talks => if talks then { b with talking := false } else b
  | _ => b

def admitted (b : IECBusHandler σ) : IECBusHandler σ :=
  if b.listening then
    let r := (b.device.fileTask ops enabled).canWrite ops
    { b with device := r.2, done := !r.1 }
  else b

def isATN : Host → Bool
  | .listen _ | .talk _ _ | .unlisten | .untalk | .elsewhere _ => true
  | _ => false

def attend (b : IECBusHandler σ) (h : Host) : IECBusHandler σ :=
  if isATN h && !b.clocked then (b.atnRequest.handleATNSequence h).admitted ops enabled else b

/- The name of the file to load arrives with the Epyx header, and is opened. -/
def receiveEpyxHeader (b : IECBusHandler σ) (name : Str) : IECBusHandler σ :=
  let d := { b.device with flProtocol := none }
  if 0 < name.length ∧ name.length ≤ 32 then
    let d := name.zipIdx.foldl (fun d x => ((d.canWrite ops).2).write x.1 (decide (x.2 + 1 < name.length))) (d.listen 0xF0)
    { b with device := { d.unlisten with flProtocol := some (.epyx, .load) } }
  else { b with device := d }

/-- `handleFastLoadProtocols`: blocks of a loader that was requested. -/
def handleFastLoadProtocols (b : IECBusHandler σ) (h : Host) : Option Reply × IECBusHandler σ :=
  match b.device.flProtocol, h with
  | some (.epyx, .header), .header name => (none, b.receiveEpyxHeader ops name)
  | some (loader, request), .fetch bufferSize =>
    if request = .load ∨ request = .loadimg then
      let d := if loader = .epyx then b.device.talk 0 else b.device
      let r := d.readBlock ops bufferSize
      (some (.block d.channel r.1), { b with device := r.2 })
    else (none, b)
  | some (_, .save), .store data eoi =>
    let r := b.device.writeBlock ops data eoi
    (some (.stored r.1), { b with device := r.2 })
  | some _, .finish close =>
    -- the loader is done with the file, and may leave the closing to us
    let d := match close with
      | none => b.device
      | some secondary => (b.device.listen secondary).unlisten
    (none, { b with device := { d with flProtocol := none } })
  | _, _ => (none, b)

def receive (b : IECBusHandler σ) (h : Host) : Option Reply × IECBusHandler σ :=
  if b.listening && !b.done then
    let r := b.device.canWrite ops
    match h with
    | .offer data eoi =>
      if r.1 then (some .taken, { b with device := r.2.write data eoi })
      else (some .refused, { b with device := r.2, done := true })
    | _ => (none, { b with device := r.2 })
  else (none, b)

def transmit (b : IECBusHandler σ) (h : Host) : Option Reply × IECBusHandler σ :=
  if b.talking && !b.done then
    if b.jiffyBlock then
      match h with
      | .accept acknowledged =>
        let r := b.device.readBlock ops m_bufferSize
        (some (.block b.device.channel r.1), { b with device := r.2, done := !acknowledged || r.1.isEmpty })
      | _ => (none, b)
    else
      let r := b.device.canRead ops
      match h with
      | .accept acknowledged =>
        if r.1 = 0 then (some (.empty r.2.channel), { b with device := r.2, done := true })
        else if acknowledged then
          (some (.byte r.2.channel r.2.peek (decide (r.1 = 1))), { b with device := r.2.read.2 })
        else if doPeek enabled then (some .cut, { b with device := r.2, done := true })
        else (some (.lost r.2.channel r.2.peek), { b with device := r.2.read.2, done := true })
      | _ => (none, { b with device := r.2 })
  else (none, b)

/- A falling edge on RESET. -/
def reset (b : IECBusHandler σ) : IECBusHandler σ := { device := b.device.reset ops }

def pass (b : IECBusHandler σ) (h : Host) : Option Reply × IECBusHandler σ :=
  if h = .reset then (none, b.reset ops)
  else
    let loads := (b.attend ops enabled h).handleFastLoadProtocols ops h
    let receives := loads.2.receive ops h
    let transmits := receives.2.transmit ops enabled m_bufferSize h
    (loads.1.or (receives.1.or transmits.1),
      { transmits.2 with device := transmits.2.device.fileTask ops enabled })

/-- The replies of a run, and where it ends. -/
def run (b : IECBusHandler σ) : List Host → List Reply × IECBusHandler σ
  | [] => ([], b)
  | h :: hs =>
    let r := b.pass ops enabled m_bufferSize h
    let rest := run r.2 hs
    (r.1.toList ++ rest.1, rest.2)

end IECBusHandler

end Meatloaf.Bus
