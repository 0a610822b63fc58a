import Meatloaf.Bus.Talking

/-! What a device that listens makes of the bytes it is sent, however slowly they come: the name of a file,
a command, or data that it hands on to its class in pieces. -/
namespace Meatloaf.Bus

open Lib

variable {σ : Type} {ops : Device σ} {enabled : FastLoader → Bool} {m_bufferSize : Nat} {c : Nat}

/-- The host sends bytes, with pauses between them. -/
def Sends (ms : List Host) : Prop := ∀ h ∈ ms, h = .idle ∨ ∃ x eoi, h = .offer x eoi

def offered (ms : List Host) : Str := ms.filterMap fun h => match h with
  | .offer x _ => some x
  | _ => none

/- The secondary addresses of a channel -/

def DATA (c : Nat) : UInt8 := .ofNat (0x60 + c)
def CLOSE (c : Nat) : UInt8 := .ofNat (0xE0 + c)
def OPEN (c : Nat) : UInt8 := .ofNat (0xF0 + c)

theorem address_channel (high : Nat) {c : Nat} (listed : c < 16) (byte : high < 16) :
    (UInt8.ofNat (16 * high + c)).toNat % 16 = c ∧ (UInt8.ofNat (16 * high + c)).toNat / 16 = high := by
  rw [UInt8.toNat_ofNat']
  omega

namespace IECFileDevice

variable {d : IECFileDevice σ}

/- A byte goes behind the others, while there is room. -/
theorem write_written (room : d.writeBufferLen ≤ 254) (x : UInt8) (eoi : Bool) :
    (d.write x eoi).written = (d.written ++ [x]).take 254 ∧ (d.write x eoi).writeBufferLen ≤ 254 ∧
      (d.write x eoi).state = d.state ∧ (d.write x eoi).readBuffer = d.readBuffer ∧
      (d.write x eoi).ar6detect = d.ar6detect := by
  unfold write written
  dsimp only
  split
  · next short =>
    have short : d.writeBufferLen < 254 := short
    refine ⟨?_, by dsimp only; omega, rfl, rfl, rfl⟩
    dsimp only
    rw [Store.read_add, List.take_of_length_le (by simp; omega)]
    congr 1
    · exact Store.read_congr fun i hi => Function.update_of_ne (by omega) _ _
    · simp [Store.read]
  · next full =>
    have full : ¬ d.writeBufferLen < 254 := full
    have all : d.writeBufferLen = 254 := by omega
    refine ⟨?_, room, rfl, rfl, rfl⟩
    dsimp only
    rw [List.take_append_of_le_length (by simp [all]), List.take_of_length_le (by simp [all])]

/- A buffer that is not full is not emptied. -/
theorem canWrite_short (short : d.writeBufferLen < 254) : (d.canWrite ops).2 = d ∧
    ((d.canWrite ops).1 = true ↔ d.channel = 15 ∨ d.opening = true ∨ d.channel < 15 ∧ d.readBuffer d.channel ≠ none) := by
  unfold canWrite
  split
  · next named =>
    exact ⟨rfl, fun _ => named.imp_right .inl, fun _ => rfl⟩
  · next unnamed =>
    rw [not_or] at unnamed
    split
    · next closed =>
      refine ⟨rfl, fun wrong => Bool.noConfusion wrong, fun ready => ?_⟩
      rcases ready with status | opening | ⟨listed, opened⟩
      · exact absurd status unnamed.1
      · exact absurd opening unnamed.2
      · rcases closed with high | failed
        · omega
        · exact absurd failed opened
    · next ready =>
      rw [not_or] at ready
      have room : ¬ d.writeBufferLen = IECFILEDEVICE_WRITE_BUFFER_SIZE - 1 := Nat.ne_of_lt short
      dsimp only
      rw [if_neg room]
      refine ⟨rfl, fun _ => .inr (.inr ⟨?_, ready.2⟩), fun _ => decide_eq_true short⟩
      have other := unnamed.1
      omega

theorem length_written (d : IECFileDevice σ) : d.written.length = d.writeBufferLen := Store.length_read _ _ _

/- The bytes that a host offers, behind each other in the buffer. -/
def typed (d : IECFileDevice σ) (ms : List Host) : IECFileDevice σ :=
  ms.foldl (fun d h => match h with
    | .offer x eoi => d.write x eoi
    | _ => d) d

/- Nothing but the buffer and the EOI flag changes. -/
structure Typed (d d' : IECFileDevice σ) : Prop where
  opening : d'.opening = d.opening
  channel : d'.channel = d.channel
  cmd : d'.cmd = d.cmd
  uploadCtr : d'.uploadCtr = d.uploadCtr
  ar6detect : d'.ar6detect = d.ar6detect
  flProtocol : d'.flProtocol = d.flProtocol
  readBuffer : d'.readBuffer = d.readBuffer
  status : d'.status = d.status
  state : d'.state = d.state

theorem Typed.refl (d : IECFileDevice σ) : Typed d d := ⟨rfl, rfl, rfl, rfl, rfl, rfl, rfl, rfl, rfl⟩

theorem Typed.trans {d d' d'' : IECFileDevice σ} (first : Typed d d') (second : Typed d' d'') : Typed d d'' where
  opening := second.opening.trans first.opening
  channel := second.channel.trans first.channel
  cmd := second.cmd.trans first.cmd
  uploadCtr := second.uploadCtr.trans first.uploadCtr
  ar6detect := second.ar6detect.trans first.ar6detect
  flProtocol := second.flProtocol.trans first.flProtocol
  readBuffer := second.readBuffer.trans first.readBuffer
  status := second.status.trans first.status
  state := second.state.trans first.state

theorem write_typed (d : IECFileDevice σ) (x : UInt8) (eoi : Bool) : Typed d (d.write x eoi) := by
  unfold write
  dsimp only
  split
  · exact ⟨rfl, rfl, rfl, rfl, rfl, rfl, rfl, rfl, rfl⟩
  · exact ⟨rfl, rfl, rfl, rfl, rfl, rfl, rfl, rfl, rfl⟩

theorem listen_open (listed : c < 15) (d : IECFileDevice σ) : d.listen (OPEN c) =
    { d with channel := c, eoi := false, opening := true, writeBufferLen := 0 } := by
  obtain ⟨low, high⟩ : (OPEN c).toNat % 16 = c ∧ (OPEN c).toNat / 16 = 15 :=
    address_channel 15 (by omega) (by omega)
  unfold IECFileDevice.listen
  rw [low, high]
  dsimp only
  rw [if_neg (Nat.ne_of_lt listed), if_pos rfl]

/- What is left to do is done, whatever was noticed of Action Replay. -/
theorem fileTask_detected (ops : Device σ) (enabled : FastLoader → Bool) (d : IECFileDevice σ)
    (other : d.cmd ≠ .write) :
    ∃ ar6detect, d.fileTask ops enabled = { ({ d with ar6detect := ar6detect }).fileCommand ops enabled with cmd := .none } := by
  obtain ⟨-, -, -, -, -, detected⟩ := detectAR6_same d
  have same := detected.resolve_right fun dropped => other dropped.1
  refine ⟨d.detectAR6.ar6detect, ?_⟩
  rw [fileTask, ← same]

theorem opened_spec (d : IECFileDevice σ) :
    let s := ops.open_ d.channel d.written d.state
    (d.opened ops).state = s.2.2 ∧
      (d.opened ops).readBuffer = Function.update d.readBuffer d.channel (if s.1 then some [] else none) ∧
      (d.opened ops).writeBufferLen = 0 ∧ (d.opened ops).opening = d.opening := by
  simp [opened, setReadBuffer]

theorem fileTask_open (ops : Device σ) (enabled : FastLoader → Bool) (d : IECFileDevice σ) (task : d.cmd = .open_) :
    let d' := d.fileTask ops enabled
    let s := ops.open_ d.channel d.written d.state
    d'.state = s.2.2 ∧ d'.readBuffer = Function.update d.readBuffer d.channel (if s.1 then some [] else none) ∧
      d'.writeBufferLen = 0 ∧ d'.opening = d.opening := by
  have other : d.cmd ≠ .write := by
    rw [task]
    exact Cmd.noConfusion
  obtain ⟨ar6detect, same⟩ := fileTask_detected ops enabled d other
  have files : fileCommand ops enabled { d with ar6detect := ar6detect } = opened ops { d with ar6detect := ar6detect } := by
    unfold fileCommand
    rw [task]
  rw [same, files]
  exact opened_spec { d with ar6detect := ar6detect }

/-- A name or a command is what was sent, as far as it fits. -/
theorem typed_written (ms : List Host) (room : d.writeBufferLen ≤ 254) :
    Typed d (d.typed ms) ∧ (d.typed ms).written = (d.written ++ offered ms).take 254 ∧
      (d.typed ms).writeBufferLen ≤ 254 := by
  induction ms generalizing d with
  | nil =>
    refine ⟨.refl d, ?_, room⟩
    rw [offered, List.filterMap_nil, List.append_nil, List.take_of_length_le (by rw [length_written]; exact room)]
    rfl
  | cons h ms ih =>
    cases h with
    | offer x eoi =>
      obtain ⟨written, room', -⟩ := write_written room x eoi
      obtain ⟨typed, whole, short⟩ := ih (d := d.write x eoi) room'
      refine ⟨(write_typed d x eoi).trans typed, ?_, short⟩
      have offers : offered (.offer x eoi :: ms) = x :: offered ms := rfl
      rw [offers, List.append_cons]
      refine whole.trans ?_
      rw [written, List.take_append, List.take_take, Nat.min_self, @List.take_append _ (d.written ++ [x])]
      congr 2
      rw [List.length_take]
      omega
    | _ => exact ih room

end IECFileDevice

open IECFileDevice

namespace IECBusHandler

variable {b : IECBusHandler σ}

/-- The device listens, and nothing else goes on. -/
structure Listens (b : IECBusHandler σ) : Prop where
  listening : b.listening = true
  calm : b.talking = false
  done : b.done = false
  idle : b.device.cmd = .none
  unrequested : b.device.flProtocol = none

theorem transmit_calm (calm : b.talking = false) (h : Host) : b.transmit ops enabled m_bufferSize h = (none, b) := by
  unfold transmit
  rw [calm]
  rfl

/- In a pass without ATN, a device that listens is only asked and told. -/
theorem Listens.pass_eq (listens : Listens b) (h : Host) (other : h ≠ .reset) (attention : isATN h = false) :
    b.pass ops enabled m_bufferSize h = ((b.receive ops h).1,
      { (b.receive ops h).2 with device := (b.receive ops h).2.device.fileTask ops enabled }) := by
  have attended : b.attend ops enabled h = b := by
    unfold attend
    rw [attention]
    rfl
  have calm : (b.receive ops h).2.talking = false := by
    unfold receive
    split
    · dsimp only
      split
      · split <;> exact listens.calm
      · exact listens.calm
    · exact listens.calm
  unfold pass
  rw [if_neg other, attended, handleFastLoadProtocols_none listens.unrequested]
  dsimp only
  rw [transmit_calm calm]
  dsimp only
  rw [Option.or_none]
  rfl

theorem Listens.asks (listens : Listens b) : (b.listening && !b.done) = true := by
  rw [listens.listening, listens.done]
  rfl

/-- A pass in which a byte is offered to a device that listens, -/
theorem Listens.offer (listens : Listens b) (x : UInt8) (eoi : Bool) :
    b.pass ops enabled m_bufferSize (.offer x eoi) =
      if (b.device.canWrite ops).1 = true then (some .taken, { b with device := (b.device.canWrite ops).2.write x eoi })
      else (some .refused, { b with device := (b.device.canWrite ops).2, done := true }) := by
  have idle := (canWrite_cmd b.device ops).trans listens.idle
  rw [listens.pass_eq _ Host.noConfusion rfl, receive, if_pos listens.asks]
  dsimp only
  split
  · dsimp only
    rw [fileTask_idle (by simpa using idle)]
  · dsimp only
    rw [fileTask_idle idle]

/-- and one without. -/
theorem Listens.wait (listens : Listens b) :
    b.pass ops enabled m_bufferSize .idle = (none, { b with device := (b.device.canWrite ops).2 }) := by
  have idle := (canWrite_cmd b.device ops).trans listens.idle
  rw [listens.pass_eq _ Host.noConfusion rfl, receive, if_pos listens.asks]
  dsimp only
  rw [fileTask_idle idle]

/-- A device between two transactions: it has nothing left to do. -/
structure Rests (b : IECBusHandler σ) : Prop where
  idle : b.device.cmd = .none
  free : b.clocked = false
  empty : b.device.writeBufferLen = 0
  closed : b.device.opening = false

theorem attend_unclocked (free : b.clocked = false) (h : Host) (attention : isATN h = true) :
    b.attend ops enabled h = (b.atnRequest.handleATNSequence h).admitted ops enabled := by
  unfold attend
  rw [attention, free]
  rfl

/- A device is told to listen, and answers whether it can. -/
theorem Rests.listen (ops : Device σ) (enabled : FastLoader → Bool) (m_bufferSize : Nat) (rests : Rests b)
    {secondary : UInt8} {d : IECFileDevice σ}
    (told : ({ b.device with flProtocol := none }).listen secondary = d) (idle : d.cmd = .none)
    (empty : d.writeBufferLen = 0) :
    b.pass ops enabled m_bufferSize (.listen secondary) = (none, { b with
      listening := true, talking := false, jiffyBlock := false, done := !(d.canWrite ops).1, device := d }) := by
  have same : (d.canWrite ops).2 = d := (canWrite_short (by omega)).1
  have unrequested : d.flProtocol = none := by rw [← told, listen_flProtocol]
  have attended : b.attend ops enabled (.listen secondary) = { b with
      listening := true, talking := false, jiffyBlock := false, done := !(d.canWrite ops).1, device := d } := by
    rw [attend_unclocked rests.free (.listen secondary) rfl, atnRequest]
    unfold IECBusHandler.handleATNSequence
    dsimp only
    rw [told, admitted, if_pos rfl]
    dsimp only
    rw [fileTask_idle idle, same]
  unfold pass
  rw [if_neg Host.noConfusion, attended, handleFastLoadProtocols_none unrequested]
  dsimp only
  have received : ∀ done, receive ops ({ b with
      listening := true, talking := false, jiffyBlock := false, done := done, device := d } : IECBusHandler σ)
        (.listen secondary) = (none, { b with
          listening := true, talking := false, jiffyBlock := false, done := done, device := d }) := by
    intro done
    unfold receive
    split
    · dsimp only
      rw [same]
    · rfl
  rw [received, transmit_calm rfl]
  dsimp only
  rw [fileTask_idle idle]
  rfl

/-- A transaction comes to its end. -/
theorem unlisten_pass (ops : Device σ) (enabled : FastLoader → Bool) (m_bufferSize : Nat)
    (listening : b.listening = true) (calm : b.talking = false) (unrequested : b.device.flProtocol = none) :
    b.pass ops enabled m_bufferSize .unlisten = (none, { b with
      listening := false, done := false, jiffyBlock := false, device := b.device.unlisten.fileTask ops enabled }) := by
  have free : b.clocked = false := by
    unfold clocked
    rw [unrequested]
    rfl
  have attended : b.attend ops enabled .unlisten =
      { b with listening := false, done := false, jiffyBlock := false, device := b.device.unlisten } := by
    rw [attend_unclocked free .unlisten rfl, atnRequest]
    unfold IECBusHandler.handleATNSequence
    dsimp only
    rw [if_pos listening, admitted, if_neg Bool.false_ne_true, ← unrequested]
  have still := (unlisten_flProtocol b.device).trans unrequested
  unfold pass
  rw [if_neg Host.noConfusion, attended, handleFastLoadProtocols_none still]
  dsimp only
  rw [receive, if_neg (by simp)]
  dsimp only
  rw [transmit_calm (b := { b with listening := false, done := false, jiffyBlock := false, device := b.device.unlisten })
    calm]
  rfl

/- A name or a command is taken whatever its length. -/
theorem Listens.typed (ops : Device σ) (enabled : FastLoader → Bool) (m_bufferSize : Nat) (listens : Listens b)
    (ready : b.device.channel = 15 ∨ b.device.opening = true) {ms : List Host}
    (sends : Sends ms) :
    b.run ops enabled m_bufferSize ms =
      (List.replicate (offered ms).length .taken, { b with device := b.device.typed ms }) := by
  induction ms generalizing b with
  | nil => rfl
  | cons h ms ih =>
    have asked : b.device.canWrite ops = (true, b.device) := if_pos ready
    have rest := (List.forall_mem_cons.mp sends).2
    rcases (List.forall_mem_cons.mp sends).1 with rfl | ⟨x, eoi, rfl⟩
    · have pass : b.pass ops enabled m_bufferSize .idle = (none, b) := by
        rw [listens.wait, asked]
      rw [run, pass]
      exact ih listens ready rest
    · have pass : b.pass ops enabled m_bufferSize (.offer x eoi) =
          (some .taken, { b with device := b.device.write x eoi }) := by
        rw [listens.offer, asked]
        rfl
      have typed := write_typed b.device x eoi
      have listens' : Listens ({ b with device := b.device.write x eoi } : IECBusHandler σ) :=
        ⟨listens.listening, listens.calm, listens.done, typed.cmd.trans listens.idle,
          typed.flProtocol.trans listens.unrequested⟩
      rw [run, pass]
      dsimp only
      rw [ih listens' (ready.imp typed.channel.trans typed.opening.trans) rest]
      rfl

theorem run_append (hs hs' : List Host) : b.run ops enabled m_bufferSize (hs ++ hs') =
    let r := b.run ops enabled m_bufferSize hs
    let r' := r.2.run ops enabled m_bufferSize hs'
    (r.1 ++ r'.1, r'.2) := by
  induction hs generalizing b with
  | nil => rfl
  | cons h hs ih =>
    rw [List.cons_append, run, ih, run]
    dsimp only
    rw [List.append_assoc]

/- A name or a command is sent: what is left to do with it is done behind it. -/
theorem Rests.transaction (rests : Rests b) {secondary : UInt8} {d : IECFileDevice σ}
    (told : ({ b.device with flProtocol := none }).listen secondary = d) (idle : d.cmd = .none)
    (empty : d.writeBufferLen = 0) (ready : d.channel = 15 ∨ d.opening = true) {ms : List Host} (sends : Sends ms) :
    b.run ops enabled m_bufferSize (.listen secondary :: (ms ++ [.unlisten])) =
      (List.replicate (offered ms).length .taken, { b with
        listening := false, talking := false, jiffyBlock := false, done := false
        device := (d.typed ms).unlisten.fileTask ops enabled }) := by
  have begun := rests.listen ops enabled m_bufferSize told idle empty
  have asked : d.canWrite ops = (true, d) := if_pos ready
  have unrequested : d.flProtocol = none := by rw [← told, listen_flProtocol]
  rw [asked] at begun
  generalize listens : ({ b with
    listening := true, talking := false, jiffyBlock := false, done := !true, device := d } : IECBusHandler σ) = b₁ at begun
  have calm : Listens b₁ := by
    rw [← listens]
    exact ⟨rfl, rfl, rfl, idle, unrequested⟩
  have device : b₁.device = d := by rw [← listens]
  have sent := calm.typed ops enabled m_bufferSize (device ▸ ready) sends
  have typed := (typed_written (d := b₁.device) ms (by rw [device]; omega)).1
  have ended := unlisten_pass ops enabled m_bufferSize (b := { b₁ with device := b₁.device.typed ms })
    calm.listening calm.calm (typed.flProtocol.trans calm.unrequested)
  rw [run, begun]
  dsimp only
  rw [run_append, sent]
  dsimp only
  rw [run, ended, run, device, ← listens]
  simp

/-- The host opens a file: its name, cut off after 254 bytes, reaches the class once. -/
theorem Rests.opens (rests : Rests b) (listed : c < 15) {ms : List Host} (sends : Sends ms) :
    let r := b.run ops enabled m_bufferSize (.listen (OPEN c) :: (ms ++ [.unlisten]))
    let s := ops.open_ c ((offered ms).take 254) b.device.state
    r.1 = List.replicate (offered ms).length .taken ∧ Rests r.2 ∧ r.2.listening = false ∧ r.2.talking = false ∧
      r.2.device.state = s.2.2 ∧
      r.2.device.readBuffer = Function.update b.device.readBuffer c (if s.1 then some [] else none) := by
  have start := listen_open listed { b.device with flProtocol := none }
  rw [rests.transaction start rests.idle rfl (.inr rfl) sends]
  obtain ⟨typed, written, room⟩ := typed_written (d := { b.device with
    flProtocol := none, channel := c, eoi := false, opening := true, writeBufferLen := 0 }) ms (Nat.zero_le _)
  generalize IECFileDevice.typed _ ms = d at typed written room
  have named : d.written = (offered ms).take 254 := written
  have opening : d.opening = true := typed.opening
  have channel : d.channel = c := typed.channel
  have name : d.unlisten = { d with
      opening := false, writeBuffer := Function.update d.writeBuffer d.writeBufferLen 0, cmd := .open_ } := by
    rw [IECFileDevice.unlisten, if_neg (by omega), if_pos opening]
  have kept : d.unlisten.written = d.written := by
    rw [name]
    exact Store.read_update_outside _ _ _ _ _ (.inr (Nat.zero_add _ ▸ Nat.le_refl _))
  have task : d.unlisten.cmd = .open_ := by rw [name]
  have requested := (fileTask_flProtocol ops enabled d.unlisten (by rw [task]; exact Cmd.noConfusion))
  obtain ⟨state, readBuffer, empty, closed⟩ := fileTask_open ops enabled d.unlisten task
  have channel' : d.unlisten.channel = c := by rw [name]; exact channel
  have state' : d.unlisten.state = b.device.state := by rw [name]; exact typed.state
  have buffer' : d.unlisten.readBuffer = b.device.readBuffer := by rw [name]; exact typed.readBuffer
  rw [kept, named, channel', state'] at state readBuffer
  rw [buffer'] at readBuffer
  refine ⟨rfl, ⟨rfl, ?_, empty, closed.trans (by rw [name])⟩, rfl, rfl, state, readBuffer⟩
  unfold clocked
  dsimp only
  rw [requested, unlisten_flProtocol, typed.flProtocol]
  rfl

end IECBusHandler

end Meatloaf.Bus
