import Meatloaf.Bus.Printing

/-! Whole transactions of a host, one after the other, and what they come to for the class of the device. -/
namespace Meatloaf.Bus

open Lib

variable {σ : Type} {ops : Device σ} {enabled : FastLoader → Bool} {m_bufferSize : Nat} {left : σ → Nat → Option Str}
  {c : Nat} {X : Str}

namespace IECFileDevice

/-- Reading changes the buffer of the channel, and the class only by reads of it. -/
structure Fetches (ops : Device σ) (c : Nat) (d d' : IECFileDevice σ) : Prop where
  opening : d'.opening = d.opening
  writeBufferLen : d'.writeBufferLen = d.writeBufferLen
  ar6detect : d'.ar6detect = d.ar6detect
  others : ∀ c' ≠ c, d'.readBuffer c' = d.readBuffer c'
  keeps : ∀ P : σ → Prop, (∀ n s, P s → P (ops.read c n s).2.2) → P d.state → P d'.state

namespace Fetches

theorem refl (d : IECFileDevice σ) : Fetches ops c d d := ⟨rfl, rfl, rfl, fun _ _ => rfl, fun _ _ holds => holds⟩

theorem trans {d d' d'' : IECFileDevice σ} (first : Fetches ops c d d') (second : Fetches ops c d' d'') :
    Fetches ops c d d'' where
  opening := second.opening.trans first.opening
  writeBufferLen := second.writeBufferLen.trans first.writeBufferLen
  ar6detect := second.ar6detect.trans first.ar6detect
  others c' other := (second.others c' other).trans (first.others c' other)
  keeps P closed holds := second.keeps P closed (first.keeps P closed holds)

end Fetches

theorem setReadBuffer_fetches (ops : Device σ) {d : IECFileDevice σ} (data : Option Str) :
    Fetches ops c d (d.setReadBuffer c data) where
  opening := rfl
  writeBufferLen := rfl
  ar6detect := rfl
  others _ other := Function.update_of_ne other _ _
  keeps _ _ holds := holds

theorem readClass_fetches (ops : Device σ) {d : IECFileDevice σ} (here : d.channel = c) (n : Nat) :
    Fetches ops c d (d.readClass ops n).2 := by
  subst here
  unfold readClass
  dsimp only
  cases (ops.read d.channel n d.state).2.1 with
  | none => exact ⟨rfl, rfl, rfl, fun _ _ => rfl, fun P closed holds => closed n _ holds⟩
  | some data => exact ⟨rfl, rfl, rfl, fun _ _ => rfl, fun P closed holds => closed n _ holds⟩

theorem fillReadBuffer_fetches (ops : Device σ) (turns : Nat) {d : IECFileDevice σ} (here : d.channel = c) :
    Fetches ops c d (fillReadBuffer ops turns d) := by
  induction turns generalizing d with
  | zero => exact .refl d
  | succ turns ih =>
    rw [fillReadBuffer]
    split
    · exact .refl d
    · next held _ =>
      split
      · have first := readClass_fetches ops here (2 - held.length)
        have channel := (readClass_channel (d := d) ops (2 - held.length)).trans here
        have laid := setReadBuffer_fetches ops (c := c) (d := (d.readClass ops (2 - held.length)).2)
          (some (held ++ (d.readClass ops (2 - held.length)).1))
        rw [here]
        exact (first.trans laid).trans (ih channel)
      · exact .refl d

theorem canRead_fetches (ops : Device σ) (listed : c < 15) {d : IECFileDevice σ} (here : d.channel = c) :
    Fetches ops c d (d.canRead ops).2 := by
  unfold canRead
  rw [if_neg (by omega), if_neg (by omega)]
  split
  · exact .refl d
  · next held _ =>
    have filled := fillReadBuffer_fetches ops 2 (d := { d with eoi := d.eoi && !held.isEmpty }) here
    exact ⟨filled.opening, filled.writeBufferLen, filled.ar6detect, filled.others, filled.keeps⟩

theorem read_fetches (listed : c < 15) {d : IECFileDevice σ} (here : d.channel = c) : Fetches ops c d d.read.2 := by
  subst here
  unfold read
  dsimp only
  rw [if_neg (Nat.ne_of_lt listed), if_pos listed]
  exact setReadBuffer_fetches ops _

end IECFileDevice

open IECFileDevice

namespace IECBusHandler

variable {b : IECBusHandler σ}

/- The host closes a file. -/

theorem listen_close (listed : c < 15) (d : IECFileDevice σ) :
    d.listen (CLOSE c) = { d with channel := c, eoi := false, cmd := .close } := by
  obtain ⟨low, high⟩ : (CLOSE c).toNat % 16 = c ∧ (CLOSE c).toNat / 16 = 14 :=
    address_channel 14 (by omega) (by omega)
  unfold IECFileDevice.listen
  rw [low, high]
  dsimp only
  rw [if_neg (Nat.ne_of_lt listed), if_neg (by omega), if_pos rfl]

theorem closed_spec (ops : Device σ) (d : IECFileDevice σ) (empty : d.writeBufferLen = 0) :
    (d.closed ops).state = (ops.close d.channel d.state).2 ∧
      (d.closed ops).readBuffer = Function.update d.readBuffer d.channel (some []) ∧
      (d.closed ops).writeBufferLen = 0 ∧ (d.closed ops).opening = d.opening ∧ (d.closed ops).channel = 0xFF := by
  have nothing : d.emptyWriteBuffer ops = d := if_pos empty
  unfold closed
  rw [nothing]
  dsimp only [setReadBuffer]
  exact ⟨by simp, by simp, by simp, by simp, rfl⟩

/- A pass in which ATN leaves a device with nothing more to do on the bus. -/
theorem pass_of_attend (m_bufferSize : Nat) {h : Host} {b₁ : IECBusHandler σ}
    (attended : b.attend ops enabled h = b₁) (other : h ≠ .reset)
    (unrequested : b₁.device.flProtocol = none) (calm : b₁.talking = false) (deaf : (b₁.listening && !b₁.done) = false) :
    b.pass ops enabled m_bufferSize h = (none, { b₁ with device := b₁.device.fileTask ops enabled }) := by
  have received : b₁.receive ops h = (none, b₁) := by
    unfold receive
    rw [deaf]
    rfl
  unfold pass
  rw [if_neg other, attended, handleFastLoadProtocols_none unrequested]
  dsimp only
  rw [received]
  dsimp only
  rw [transmit_calm calm]
  rfl

/-- A file is closed once. -/
theorem Rests.closes (rests : Rests b) (listed : c < 15) :
    let r := b.run ops enabled m_bufferSize [.listen (CLOSE c), .unlisten]
    Rests r.2 ∧ r.1 = [] ∧ r.2.device.state = (ops.close c b.device.state).2 ∧
      r.2.device.readBuffer = Function.update b.device.readBuffer c (some []) := by
  have told := listen_close listed { b.device with flProtocol := none }
  obtain ⟨ar6detect, task⟩ := fileTask_detected ops enabled
    { b.device with flProtocol := none, channel := c, eoi := false, cmd := .close } Cmd.noConfusion
  have closes : fileCommand ops enabled { b.device with
      flProtocol := none, channel := c, eoi := false, cmd := .close, ar6detect := ar6detect } =
    IECFileDevice.closed ops { b.device with
      flProtocol := none, channel := c, eoi := false, cmd := .close, ar6detect := ar6detect } := rfl
  obtain ⟨state, readBuffer, empty, opening, channel⟩ := closed_spec ops { b.device with
      flProtocol := none, channel := c, eoi := false, cmd := .close, ar6detect := ar6detect } rests.empty
  have unrequested := closed_flProtocol ops { b.device with
      flProtocol := none, channel := c, eoi := false, cmd := .close, ar6detect := ar6detect }
  dsimp only at task
  rw [closes] at task
  generalize IECFileDevice.closed ops { b.device with
      flProtocol := none, channel := c, eoi := false, cmd := .close, ar6detect := ar6detect } = d at *
  dsimp only at state readBuffer opening unrequested
  generalize settled : ({ d with cmd := .none } : IECFileDevice σ) = d' at task
  have idle : d'.cmd = .none := by rw [← settled]
  have unrequested : d'.flProtocol = none := by rw [← settled]; exact unrequested
  have channel : d'.channel = 0xFF := by rw [← settled]; exact channel
  have opening : d'.opening = false := by rw [← settled]; exact opening.trans rests.closed
  have empty : d'.writeBufferLen = 0 := by rw [← settled]; exact empty
  have state : d'.state = (ops.close c b.device.state).2 := by rw [← settled]; exact state
  have readBuffer : d'.readBuffer = Function.update b.device.readBuffer c (some []) := by
    rw [← settled]
    exact readBuffer
  have deaf : d'.canWrite ops = (false, d') := by
    unfold canWrite
    rw [channel, opening]
    simp
  have attended : b.attend ops enabled (.listen (CLOSE c)) = { b with
      listening := true, talking := false, jiffyBlock := false, done := true, device := d' } := by
    rw [attend_unclocked rests.free (.listen (CLOSE c)) rfl, atnRequest]
    unfold IECBusHandler.handleATNSequence
    dsimp only
    rw [told, admitted, if_pos rfl]
    dsimp only
    rw [task, deaf]
    rfl
  have first := pass_of_attend m_bufferSize attended Host.noConfusion unrequested rfl rfl
  dsimp only at first
  rw [fileTask_idle idle] at first
  have second := unlisten_pass ops enabled m_bufferSize (b := { b with
      listening := true, talking := false, jiffyBlock := false, done := true, device := d' }) rfl rfl unrequested
  have still : d'.unlisten = d' := by
    rw [IECFileDevice.unlisten, channel, opening, empty]
    simp
  dsimp only at second
  rw [still, fileTask_idle idle] at second
  rw [run, first, run, second]
  refine ⟨⟨idle, ?_, empty, opening⟩, rfl, state, readBuffer⟩
  unfold clocked
  dsimp only [run]
  rw [unrequested]
  rfl

/- The host sends a command. -/

theorem listen_status {secondary : UInt8} (status : secondary.toNat % 16 = 15) (d : IECFileDevice σ) :
    d.listen secondary = { d with channel := 15, eoi := false, writeBufferLen := 0 } := by
  unfold IECFileDevice.listen
  rw [status]
  exact if_pos rfl

theorem fileTask_command (ops : Device σ) (enabled : FastLoader → Bool) (d : IECFileDevice σ) (task : d.cmd = .exec) :
    ∃ ar6detect, d.fileTask ops enabled =
      { ({ d with ar6detect := ar6detect }).commanded ops enabled with cmd := .none } := by
  have other : d.cmd ≠ .write := by
    rw [task]
    exact Cmd.noConfusion
  obtain ⟨ar6detect, same⟩ := fileTask_detected ops enabled d other
  refine ⟨ar6detect, same.trans ?_⟩
  rw [fileCommand]
  dsimp only
  rw [task]

theorem clearReadBuffers_same (channels : List Nat) (d : IECFileDevice σ) :
    (channels.foldl clearReadBuffer d).opening = d.opening ∧ (channels.foldl clearReadBuffer d).state = d.state := by
  induction channels generalizing d with
  | nil => exact ⟨rfl, rfl⟩
  | cons channel channels ih =>
    have first : (d.clearReadBuffer channel).opening = d.opening ∧ (d.clearReadBuffer channel).state = d.state := by
      unfold clearReadBuffer
      split
      · exact ⟨rfl, rfl⟩
      · exact ⟨rfl, rfl⟩
    obtain ⟨opening, state⟩ := ih (d.clearReadBuffer channel)
    exact ⟨opening.trans first.1, state.trans first.2⟩

/- A command that no loader knows is executed by the class. -/
theorem commanded_class (ops : Device σ) (enabled : FastLoader → Bool) (d : IECFileDevice σ)
    (unknown : (isFastLoaderRequest enabled d.uploadCtr d.writeBuffer d.writeBufferLen).1 = none) :
    (d.commanded ops enabled).state = (ops.executeData d.written d.state).2 ∧
      (d.commanded ops enabled).opening = d.opening ∧ (d.commanded ops enabled).flProtocol = d.flProtocol := by
  unfold commanded
  dsimp only
  rw [unknown]
  dsimp only [executed]
  generalize (isFastLoaderRequest enabled d.uploadCtr d.writeBuffer d.writeBufferLen).2 = uploadCtr
  have written : IECFileDevice.written { d with uploadCtr := uploadCtr } = d.written := rfl
  rw [written]
  generalize ops.executeData d.written d.state = r
  obtain ⟨opening, state⟩ := clearReadBuffers_same r.1.2 (answered { d with uploadCtr := uploadCtr, state := r.2 } r.1.1)
  exact ⟨by rw [state]; simp, by rw [opening]; simp, by simp⟩

/-- A command, cut off after 254 bytes, is executed once, unless a fast loader knows it. -/
theorem Rests.commands (rests : Rests b) {secondary : UInt8} (status : secondary.toNat % 16 = 15) {ms : List Host}
    (sends : Sends ms) :
    let r := b.run ops enabled m_bufferSize (.listen secondary :: (ms ++ [.unlisten]))
    let d := ({ b.device with flProtocol := none, channel := 15, eoi := false, writeBufferLen := 0 } :
      IECFileDevice σ).typed ms
    r.1 = List.replicate (offered ms).length .taken ∧
      (offered ms = [] → Rests r.2 ∧ r.2.device.state = b.device.state) ∧
      (offered ms ≠ [] → (isFastLoaderRequest enabled b.device.uploadCtr d.writeBuffer d.writeBufferLen).1 = none →
        Rests r.2 ∧ r.2.device.state = (ops.executeData ((offered ms).take 254) b.device.state).2) := by
  have told := listen_status status { b.device with flProtocol := none }
  rw [rests.transaction told rests.idle rfl (.inl rfl) sends]
  obtain ⟨typed, written, room⟩ := typed_written (d := { b.device with
    flProtocol := none, channel := 15, eoi := false, writeBufferLen := 0 }) ms (Nat.zero_le _)
  dsimp only
  generalize IECFileDevice.typed _ ms = d at typed written room
  have named : d.written = (offered ms).take 254 := written
  have length := congrArg List.length named
  rw [length_written, List.length_take] at length
  have told : d.unlisten = { d with cmd := if 0 < d.writeBufferLen then .exec else d.cmd, channel := 0xFF } :=
    if_pos typed.channel
  have opening : d.opening = false := typed.opening.trans rests.closed
  have uploadCtr : d.uploadCtr = b.device.uploadCtr := typed.uploadCtr
  refine ⟨rfl, fun nothing => ?_, fun some unknown => ?_⟩
  · rw [nothing, List.length_nil, Nat.min_zero] at length
    rw [told, if_neg (by omega), fileTask_idle (d := { d with channel := 0xFF }) (typed.cmd.trans rests.idle)]
    refine ⟨⟨typed.cmd.trans rests.idle, ?_, length, opening⟩, typed.state⟩
    unfold clocked
    dsimp only
    rw [typed.flProtocol]
    rfl
  · have more := List.length_pos_iff.mpr some
    rw [told, if_pos (by omega)]
    obtain ⟨ar6detect, task⟩ := fileTask_command ops enabled
      { d with cmd := .exec, channel := 0xFF } rfl
    rw [← uploadCtr] at unknown
    obtain ⟨state, opening', flProtocol⟩ := commanded_class ops enabled
      { d with cmd := .exec, channel := 0xFF, ar6detect := ar6detect } unknown
    rw [task]
    refine ⟨⟨rfl, ?_, rfl, opening'.trans opening⟩, ?_⟩
    · unfold clocked
      dsimp only
      rw [flProtocol, typed.flProtocol]
      rfl
    · dsimp only at state ⊢
      rw [state, typed.state]
      exact congrArg (fun data => (ops.executeData data b.device.state).2) named

/- The host gets bytes of a channel. -/

/-- The device talks on a channel, and nothing else goes on. -/
structure Talks (left : σ → Nat → Option Str) (c : Nat) (X : Str) (b : IECBusHandler σ) : Prop where
  talking : b.talking = true
  blocks : b.jiffyBlock = false
  channel : b.device.channel = c
  idle : b.device.cmd = .none
  watched : Watched left c X b

/-- The host takes bytes, with pauses between them. -/
def Gets (ms : List Host) : Prop := ∀ h ∈ ms, h = .idle ∨ h = .accept true

def asked (ms : List Host) : Nat := ms.count (.accept true)

/-- What a host sees that takes so many bytes of a channel that has these: the last one comes with EOI, and
behind it nothing but one error is seen. -/
def sent (c : Nat) : Str → Nat → List Reply
  | _, 0 => []
  | [], _ + 1 => [.empty c]
  | x :: rest, n + 1 => .byte c x rest.isEmpty :: sent c rest n

variable (ops enabled m_bufferSize) in
/- A pass without ATN, in which a device that talks is asked for a byte or not. -/
theorem Talks.pass_eq (talks : Talks left c X b) {h : Host} (other : h = .idle ∨ h = .accept true) :
    b.pass ops enabled m_bufferSize h = ((b.transmit ops enabled m_bufferSize h).1,
      { (b.transmit ops enabled m_bufferSize h).2 with
        device := (b.transmit ops enabled m_bufferSize h).2.device.fileTask ops enabled }) := by
  have unrequested : b.device.flProtocol = none := by
    by_contra requested
    exact absurd talks.talking (ne_true_of_eq_false (talks.watched.loads requested).2)
  have deaf : b.listening = false := Bool.eq_false_of_not_eq_true fun listening =>
    absurd talks.talking (ne_true_of_eq_false (talks.watched.apart listening))
  have received : b.receive ops h = (none, b) := by
    unfold receive
    rw [deaf]
    rfl
  have attended : b.attend ops enabled h = b := by
    rcases other with rfl | rfl
    · rfl
    · rfl
  have ordinary : h ≠ .reset := by
    rcases other with rfl | rfl
    · exact Host.noConfusion
    · exact Host.noConfusion
  unfold pass
  rw [if_neg ordinary, attended, handleFastLoadProtocols_none unrequested]
  dsimp only
  rw [received]
  rfl

/- A device that talks has read a little. -/
theorem Talks.of_reads {X' : Str} (talks : Talks left c X b) {d : IECFileDevice σ} (reads : Reads left c X' b.device d)
    (done : Bool) : Talks left c X' { b with device := d, done := done } where
  talking := talks.talking
  blocks := talks.blocks
  channel := reads.channel.trans talks.channel
  idle := reads.cmd.trans talks.idle
  watched := {
    apart := talks.watched.apart
    loads := fun requested => talks.watched.loads fun none => requested (reads.flProtocol.trans none)
    pending := reads.pending
    ended := fun _ => reads.ended }

/-- A pause changes nothing for the host, -/
theorem Talks.wait (enabled : FastLoader → Bool) (m_bufferSize : Nat) (reader : Reader ops left) (listed : c < 15)
    (talks : Talks left c X b) (open_ : b.done = false) :
    let r := b.pass ops enabled m_bufferSize .idle
    r.1 = none ∧ Talks left c X r.2 ∧ r.2.done = false ∧ Fetches ops c b.device r.2.device := by
  obtain ⟨reads, -⟩ := canRead_reads reader listed talks.watched.pending (talks.watched.ended (.inl talks.talking))
  have transmitted : b.transmit ops enabled m_bufferSize .idle = (none, { b with device := (b.device.canRead ops).2 }) := by
    unfold transmit
    rw [talks.talking, open_, talks.blocks]
    rfl
  rw [talks.pass_eq ops enabled m_bufferSize (.inl rfl), transmitted]
  dsimp only
  rw [fileTask_idle (reads.cmd.trans talks.idle)]
  have still := talks.of_reads reads b.done
  exact ⟨rfl, still, open_, canRead_fetches ops listed talks.channel⟩

/-- and a byte that it takes is the next one. -/
theorem Talks.accept (enabled : FastLoader → Bool) (m_bufferSize : Nat) (reader : Reader ops left) (listed : c < 15)
    (talks : Talks left c X b) (open_ : b.done = false) :
    let r := b.pass ops enabled m_bufferSize (.accept true)
    Talks left c X.tail r.2 ∧ Fetches ops c b.device r.2.device ∧
      (X = [] → r.1 = some (.empty c) ∧ r.2.done = true) ∧
      ∀ x rest, X = x :: rest → r.1 = some (.byte c x rest.isEmpty) ∧ r.2.done = false := by
  have ended := talks.watched.ended (.inl talks.talking)
  obtain ⟨reads, empty⟩ := canRead_reads reader listed talks.watched.pending ended
  have here : (b.device.canRead ops).2.channel = c := reads.channel.trans talks.channel
  have fetches := canRead_fetches ops listed talks.channel
  by_cases none : (b.device.canRead ops).1 = 0
  · have transmitted : b.transmit ops enabled m_bufferSize (.accept true) =
        (some (.empty c), { b with device := (b.device.canRead ops).2, done := true }) := by
      unfold transmit
      rw [talks.talking, open_, talks.blocks]
      simp [none, here]
    obtain rfl := empty here none
    rw [talks.pass_eq ops enabled m_bufferSize (.inr rfl), transmitted]
    dsimp only
    rw [fileTask_idle (reads.cmd.trans talks.idle)]
    exact ⟨talks.of_reads reads true, fetches, fun _ => ⟨rfl, rfl⟩,
      fun x rest wrong => by cases wrong⟩
  · obtain ⟨X', reads', join, last⟩ := read_reads reader listed talks.watched.pending ended none
    have transmitted : b.transmit ops enabled m_bufferSize (.accept true) =
        (some (.byte c (b.device.canRead ops).2.peek (decide ((b.device.canRead ops).1 = 1))),
          { b with device := (b.device.canRead ops).2.read.2 }) := by
      unfold transmit
      rw [talks.talking, open_, talks.blocks]
      simp [none, here]
    rw [if_pos here] at join
    have rest : X.tail = X' := by rw [join]; rfl
    rw [talks.pass_eq ops enabled m_bufferSize (.inr rfl), transmitted, rest]
    dsimp only
    rw [fileTask_idle (reads'.cmd.trans talks.idle)]
    refine ⟨talks.of_reads reads' b.done, fetches.trans (read_fetches listed here),
      fun wrong => ?_, fun x rest' whole => ?_⟩
    · rw [wrong] at join
      cases join
    · rw [whole] at join
      obtain ⟨rfl, rfl⟩ := List.cons_eq_cons.mp join
      refine ⟨?_, open_⟩
      congr 2
      rw [Bool.eq_iff_iff, decide_eq_true_iff, List.isEmpty_iff]
      exact last here

/- A device that has signalled an error waits for the host to give up. -/
theorem Talks.given_up (talks : Talks left c X b) (done : b.done = true) {h : Host} (other : h = .idle ∨ h = .accept true) :
    b.pass ops enabled m_bufferSize h = (none, b) := by
  have transmitted : b.transmit ops enabled m_bufferSize h = (none, b) := by
    unfold transmit
    rw [done, talks.talking]
    rfl
  rw [talks.pass_eq ops enabled m_bufferSize other, transmitted]
  dsimp only
  rw [fileTask_idle talks.idle]

/-- What the host sees of a channel, however slowly it takes the bytes. -/
theorem Talks.run (enabled : FastLoader → Bool) (m_bufferSize : Nat) (reader : Reader ops left) (listed : c < 15)
    (talks : Talks left c X b) {ms : List Host} (gets : Gets ms) :
    let r := b.run ops enabled m_bufferSize ms
    Fetches ops c b.device r.2.device ∧
      (b.done = false → r.1 = sent c X (asked ms) ∧ Talks left c (X.drop (asked ms)) r.2) ∧
      (b.done = true → r.1 = [] ∧ Talks left c X r.2) := by
  induction ms generalizing b X with
  | nil => exact ⟨.refl _, fun _ => ⟨by cases X <;> rfl, talks⟩, fun _ => ⟨rfl, talks⟩⟩
  | cons h ms ih =>
    obtain ⟨first, rest⟩ := List.forall_mem_cons.mp gets
    rw [IECBusHandler.run]
    dsimp only
    by_cases done : b.done = true
    · rw [talks.given_up done first]
      obtain ⟨fetches, -, ends⟩ := ih talks rest
      exact ⟨fetches, fun open_ => absurd done (ne_true_of_eq_false open_), ends⟩
    · have open_ := Bool.eq_false_of_not_eq_true done
      rcases first with rfl | rfl
      · obtain ⟨quiet, talks', open', fetches⟩ := talks.wait enabled m_bufferSize reader listed open_
        obtain ⟨fetches', goes, -⟩ := ih talks' rest
        rw [quiet]
        have count : asked (.idle :: ms) = asked ms := List.count_cons_of_ne (by decide)
        rw [count]
        exact ⟨fetches.trans fetches', fun _ => goes open', fun wrong => absurd wrong done⟩
      · obtain ⟨talks', fetches, ends, gives⟩ := talks.accept enabled m_bufferSize reader listed open_
        obtain ⟨fetches', goes, still⟩ := ih talks' rest
        have count : asked (.accept true :: ms) = asked ms + 1 := List.count_cons_self
        rw [count]
        refine ⟨fetches.trans fetches', fun _ => ?_, fun wrong => absurd wrong done⟩
        cases X with
        | nil =>
          obtain ⟨reply, done'⟩ := ends rfl
          obtain ⟨replies, talks''⟩ := still done'
          rw [reply, replies, List.drop_nil]
          exact ⟨rfl, talks''⟩
        | cons x X =>
          obtain ⟨reply, open'⟩ := gives x X rfl
          obtain ⟨replies, talks''⟩ := goes open'
          rw [reply, replies]
          exact ⟨rfl, talks''⟩

theorem talk_data (listed : c < 15) (d : IECFileDevice σ) : d.talk (DATA c) = { d with channel := c, eoi := false } := by
  obtain ⟨low, high⟩ : (DATA c).toNat % 16 = c ∧ (DATA c).toNat / 16 = 6 :=
    address_channel 6 (by omega) (by omega)
  unfold talk
  rw [low, high]
  dsimp only
  rw [if_neg (by omega)]

/-- The device is told to talk, and has the first two bytes ready. -/
theorem Rests.talks (enabled : FastLoader → Bool) (m_bufferSize : Nat) (reader : Reader ops left) (listed : c < 15)
    (rests : Rests b) (pending : Pending left c X b.device) :
    let r := b.pass ops enabled m_bufferSize (.talk (DATA c) false)
    r.1 = none ∧ Talks left c X r.2 ∧ r.2.done = false ∧ Fetches ops c b.device r.2.device := by
  have told := talk_data listed { b.device with flProtocol := none }
  have attended : b.attend ops enabled (.talk (DATA c) false) = { b with
      listening := false, talking := true, done := false, jiffyBlock := false
      device := { b.device with flProtocol := none, channel := c, eoi := false } } := by
    rw [attend_unclocked rests.free (.talk (DATA c) false) rfl, atnRequest]
    unfold IECBusHandler.handleATNSequence
    dsimp only
    rw [Bool.false_and, if_neg Bool.false_ne_true, told]
    rfl
  generalize begun : ({ b with
      listening := false, talking := true, done := false, jiffyBlock := false
      device := { b.device with flProtocol := none, channel := c, eoi := false } } : IECBusHandler σ) = b₁ at attended
  have unrequested : b₁.device.flProtocol = none := by rw [← begun]
  have start : Talks left c X b₁ := by
    subst begun
    exact ⟨rfl, rfl, rfl, rests.idle, ⟨fun listens => Bool.noConfusion listens, fun requested => absurd rfl requested,
      ⟨pending.short, pending.failed, pending.join⟩, fun _ _ flag => Bool.noConfusion flag⟩⟩
  have open_ : b₁.done = false := by rw [← begun]
  have deaf : b₁.receive ops (.talk (DATA c) false) = (none, b₁) := by
    rw [← begun]
    rfl
  have fetches : Fetches ops c b.device b₁.device := by
    rw [← begun]
    exact ⟨rfl, rfl, rfl, fun _ _ => rfl, fun _ _ holds => holds⟩
  obtain ⟨reads, -⟩ := canRead_reads reader listed start.watched.pending (start.watched.ended (.inl start.talking))
  have transmitted : b₁.transmit ops enabled m_bufferSize (.talk (DATA c) false) =
      (none, { b₁ with device := (b₁.device.canRead ops).2 }) := by
    unfold transmit
    rw [start.talking, open_, start.blocks]
    rfl
  unfold pass
  rw [if_neg Host.noConfusion, attended, handleFastLoadProtocols_none unrequested]
  dsimp only
  rw [deaf]
  dsimp only
  rw [transmitted]
  dsimp only
  rw [fileTask_idle (reads.cmd.trans start.idle)]
  have still := start.of_reads reads b₁.done
  exact ⟨rfl, still, open_, fetches.trans (canRead_fetches ops listed start.channel)⟩

/-- The host has had enough. -/
theorem Talks.untalked (ops : Device σ) (enabled : FastLoader → Bool) (m_bufferSize : Nat) (talks : Talks left c X b) :
    b.pass ops enabled m_bufferSize .untalk = (none, { b with
      talking := false, done := false, jiffyBlock := false, device := { b.device with channel := 0xFF } }) := by
  have unrequested : b.device.flProtocol = none := by
    by_contra requested
    exact absurd talks.talking (ne_true_of_eq_false (talks.watched.loads requested).2)
  have deaf : b.listening = false := Bool.eq_false_of_not_eq_true fun listening =>
    absurd talks.talking (ne_true_of_eq_false (talks.watched.apart listening))
  have free : b.clocked = false := by
    unfold clocked
    rw [unrequested]
    rfl
  have attended : b.attend ops enabled .untalk = { b with
      talking := false, done := false, jiffyBlock := false, device := { b.device with channel := 0xFF } } := by
    rw [attend_unclocked free .untalk rfl, atnRequest]
    unfold IECBusHandler.handleATNSequence
    dsimp only
    rw [if_pos talks.talking, admitted, if_neg (ne_true_of_eq_false deaf), untalk, ← unrequested]
  generalize gone : ({ b with
      talking := false, done := false, jiffyBlock := false, device := { b.device with channel := 0xFF } } :
        IECBusHandler σ) = b₁ at attended ⊢
  have still : b₁.device.flProtocol = none := by
    rw [← gone]
    exact unrequested
  have calm : b₁.talking = false := by rw [← gone]
  have idle : b₁.device.cmd = .none := by
    rw [← gone]
    exact talks.idle
  have received : b₁.receive ops .untalk = (none, b₁) := by
    unfold receive
    rw [← gone, deaf]
    rfl
  unfold pass
  rw [if_neg Host.noConfusion, attended, handleFastLoadProtocols_none still]
  dsimp only
  rw [received]
  dsimp only
  rw [transmit_calm calm]
  dsimp only
  rw [fileTask_idle idle]
  rfl

/-- The host gets so many bytes of a channel: they are the next ones, the last of all comes with EOI, and what is left
is there for the next time. -/
theorem Rests.gets (reader : Reader ops left) (listed : c < 15) (rests : Rests b) (pending : Pending left c X b.device)
    {ms : List Host} (gets : Gets ms) :
    let r := b.run ops enabled m_bufferSize (.talk (DATA c) false :: (ms ++ [.untalk]))
    r.1 = sent c X (asked ms) ∧ Rests r.2 ∧ Pending left c (X.drop (asked ms)) r.2.device ∧
      Fetches ops c b.device r.2.device := by
  obtain ⟨quiet, talks, open_, fetches⟩ := rests.talks enabled m_bufferSize reader listed pending
  rw [run]
  generalize b.pass ops enabled m_bufferSize (.talk (DATA c) false) = first at quiet talks open_ fetches ⊢
  rw [run_append]
  obtain ⟨fetches', goes, -⟩ := talks.run enabled m_bufferSize reader listed gets
  obtain ⟨replies, talks'⟩ := goes open_
  have ended := talks'.untalked ops enabled m_bufferSize
  dsimp only
  rw [quiet, run, ended, replies]
  have whole := fetches.trans fetches'
  generalize (first.2.run ops enabled m_bufferSize ms).2 = b' at talks' whole
  have left' := talks'.watched.pending
  refine ⟨List.append_nil _, ⟨talks'.idle, ?_, whole.writeBufferLen.trans rests.empty, whole.opening.trans rests.closed⟩,
    ⟨left'.short, left'.failed, left'.join⟩, ⟨whole.opening, whole.writeBufferLen, whole.ar6detect, whole.others,
      whole.keeps⟩⟩
  have unrequested : b'.device.flProtocol = none := by
    by_contra requested
    exact absurd talks'.talking (ne_true_of_eq_false (talks'.watched.loads requested).2)
  unfold clocked
  dsimp only [run]
  rw [unrequested]
  rfl

end IECBusHandler

end Meatloaf.Bus
