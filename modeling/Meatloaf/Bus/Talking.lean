import Meatloaf.Bus.Reading

/-! What a host gets from a device that talks, over whole runs: it may break off, go on, talk to other
channels, load blocks and send commands in between. -/
namespace Meatloaf.Bus

open Lib

variable {σ : Type} {ops : Device σ} {enabled : FastLoader → Bool} {m_bufferSize : Nat} {left : σ → Nat → Option Str}
  {c : Nat} {X X' : Str}

namespace IECFileDevice

variable {d : IECFileDevice σ}

/- Writing, on another channel -/

theorem emptyWriteBuffer_aside (source : Source ops left) (d : IECFileDevice σ) (elsewhere : c ≠ d.channel) :
    Aside left c d (d.emptyWriteBuffer ops) := by
  unfold emptyWriteBuffer
  split
  · exact .refl d
  · dsimp only
    split
    · exact ⟨by simp, by simp [source.write_others elsewhere]⟩
    · exact ⟨by simp, by simp [source.write_others elsewhere]⟩

section frame

variable (d : IECFileDevice σ)

@[simp] theorem emptyWriteBuffer_channel : (d.emptyWriteBuffer ops).channel = d.channel := by
  unfold emptyWriteBuffer
  split <;> [rfl; (dsimp only; split <;> simp)]

@[simp] theorem emptyWriteBuffer_cmd : (d.emptyWriteBuffer ops).cmd = d.cmd := by
  unfold emptyWriteBuffer
  split <;> [rfl; (dsimp only; split <;> simp)]

@[simp] theorem emptyWriteBuffer_flProtocol : (d.emptyWriteBuffer ops).flProtocol = d.flProtocol := by
  unfold emptyWriteBuffer
  split <;> [rfl; (dsimp only; split <;> simp)]

@[simp] theorem emptyWriteBuffer_opening : (d.emptyWriteBuffer ops).opening = d.opening := by
  unfold emptyWriteBuffer
  split <;> [rfl; (dsimp only; split <;> simp)]

@[simp] theorem canWrite_opening : (d.canWrite ops).2.opening = d.opening := by
  unfold canWrite
  split <;> [rfl; (split <;> [rfl; (dsimp only; split <;> simp)])]

@[simp] theorem canWrite_channel : (d.canWrite ops).2.channel = d.channel := by
  unfold canWrite
  split <;> [rfl; (split <;> [rfl; (dsimp only; split <;> simp)])]

@[simp] theorem canWrite_cmd (ops : Device σ) : (d.canWrite ops).2.cmd = d.cmd := by
  unfold canWrite
  split <;> [rfl; (split <;> [rfl; (dsimp only; split <;> simp)])]

@[simp] theorem canWrite_flProtocol (ops : Device σ) : (d.canWrite ops).2.flProtocol = d.flProtocol := by
  unfold canWrite
  split <;> [rfl; (split <;> [rfl; (dsimp only; split <;> simp)])]

@[simp] theorem write_channel (data : UInt8) (eoi : Bool) : (d.write data eoi).channel = d.channel := by
  unfold write
  dsimp only
  split <;> rfl

@[simp] theorem write_cmd (data : UInt8) (eoi : Bool) : (d.write data eoi).cmd = d.cmd := by
  unfold write
  dsimp only
  split <;> rfl

@[simp] theorem write_flProtocol (data : UInt8) (eoi : Bool) : (d.write data eoi).flProtocol = d.flProtocol := by
  unfold write
  dsimp only
  split <;> rfl

end frame

/- A device that is told a name hands nothing on. -/
theorem canWrite_aside (source : Source ops left) (d : IECFileDevice σ) (apart : d.channel = c → d.opening = true) :
    Aside left c d (d.canWrite ops).2 := by
  unfold canWrite
  split
  · exact .refl d
  · next unnamed =>
    have elsewhere : c ≠ d.channel := fun here => unnamed (.inr (apart here.symm))
    split
    · exact .refl d
    · dsimp only
      split
      · exact emptyWriteBuffer_aside source d elsewhere
      · exact .refl d

theorem write_aside (d : IECFileDevice σ) (data : UInt8) (eoi : Bool) : Aside left c d (d.write data eoi) := by
  unfold write
  dsimp only
  split
  · exact ⟨rfl, rfl⟩
  · exact ⟨rfl, rfl⟩

theorem writeBlock_aside (source : Source ops left) (d : IECFileDevice σ) (elsewhere : c ≠ d.channel) (data : Str)
    (eoi : Bool) : Aside left c d (d.writeBlock ops data eoi).2 := by
  unfold writeBlock
  have emptied := emptyWriteBuffer_aside source d elsewhere
  have still : c ≠ (d.emptyWriteBuffer ops).channel := by rwa [emptyWriteBuffer_channel]
  split
  · dsimp only
    split
    · exact emptied
    · exact emptied.trans ⟨by simp, by rw [answered_state]; exact source.write_others still⟩
  · exact .refl d

/- What is left to do behind a transaction -/

/-- `fileTask` will open, write to or close the channel, or execute a command that changes what it has
left or drops its read buffer. -/
def disturbs (ops : Device σ) (left : σ → Nat → Option Str) (enabled : FastLoader → Bool) (c : Nat)
    (d : IECFileDevice σ) : Prop :=
  match d.cmd with
  | .open_ | .close | .write => d.channel = c
  | .exec => (isFastLoaderRequest enabled d.uploadCtr d.writeBuffer d.writeBufferLen).1 = none ∧
      (c ∈ (ops.executeData d.written d.state).1.2 ∨ left (ops.executeData d.written d.state).2 c ≠ left d.state c)
  | .none => False

theorem clearReadBuffer_aside (d : IECFileDevice σ) {channel : Nat} (elsewhere : c ≠ channel) :
    Aside left c d (d.clearReadBuffer channel) := by
  unfold clearReadBuffer
  split
  · exact setReadBuffer_aside left d elsewhere _
  · exact .refl d

theorem clearReadBuffers_aside (channels : List Nat) (d : IECFileDevice σ) (elsewhere : c ∉ channels) :
    Aside left c d (channels.foldl clearReadBuffer d) := by
  induction channels generalizing d with
  | nil => exact .refl d
  | cons channel channels ih =>
    rw [List.mem_cons, not_or] at elsewhere
    exact (clearReadBuffer_aside d elsewhere.1).trans (ih _ elsewhere.2)

@[simp] theorem clearReadBuffers_flProtocol (channels : List Nat) (d : IECFileDevice σ) :
    (channels.foldl clearReadBuffer d).flProtocol = d.flProtocol := by
  induction channels generalizing d with
  | nil => rfl
  | cons channel channels ih =>
    rw [List.foldl_cons, ih]
    unfold clearReadBuffer
    split <;> rfl

theorem requested_aside (left : σ → Nat → Option Str) (d : IECFileDevice σ) (request : Request) :
    Aside left c d (d.requested request) := by
  cases request with
  | fastLoad loader request channel => cases channel <;> exact ⟨rfl, rfl⟩
  | _ => exact ⟨rfl, rfl⟩

/- A loader that is requested with a channel starts with the EOI flag off. -/
theorem requested_flProtocol (request : Request) : (d.requested request).flProtocol = d.flProtocol ∨
    ∃ loader prot channel, request = .fastLoad loader prot channel ∧
      (d.requested request).flProtocol = some (loader, prot) ∧ ((d.requested request).channel = d.channel ∨
        (d.requested request).eoi = false) := by
  cases request with
  | fastLoad loader prot channel =>
    cases channel with
    | none => exact .inr ⟨loader, prot, none, rfl, rfl, .inl rfl⟩
    | some channel => exact .inr ⟨loader, prot, some channel, rfl, rfl, .inr rfl⟩
  | _ => exact .inl rfl

theorem executed_aside (d : IECFileDevice σ) (kept : c ∉ (ops.executeData d.written d.state).1.2)
    (same : left (ops.executeData d.written d.state).2 c = left d.state c) : Aside left c d (d.executed ops) := by
  unfold executed
  dsimp only
  have answered : Aside left c d (answered { d with state := (ops.executeData d.written d.state).2 }
      (ops.executeData d.written d.state).1.1) := ⟨by simp, by rw [answered_state]; exact same⟩
  exact answered.trans (clearReadBuffers_aside _ _ kept)

theorem detectAR6_same (d : IECFileDevice σ) : d.detectAR6.readBuffer = d.readBuffer ∧ d.detectAR6.state = d.state ∧
    d.detectAR6.channel = d.channel ∧ d.detectAR6.eoi = d.eoi ∧ d.detectAR6.flProtocol = d.flProtocol ∧
    (d.detectAR6 = { d with ar6detect := d.detectAR6.ar6detect } ∨ d.cmd = .write ∧ d.detectAR6.cmd = .none) := by
  unfold detectAR6
  split
  · exact ⟨rfl, rfl, rfl, rfl, rfl, .inl rfl⟩
  · split
    · exact ⟨rfl, rfl, rfl, rfl, rfl, .inl rfl⟩
    · split
      · exact ⟨rfl, rfl, rfl, rfl, rfl, .inl rfl⟩
      · split
        · next found => exact ⟨rfl, rfl, rfl, rfl, rfl, .inr ⟨found.2.1, rfl⟩⟩
        · exact ⟨rfl, rfl, rfl, rfl, rfl, .inl rfl⟩

theorem fileTask_idle (idle : d.cmd = .none) : d.fileTask ops enabled = d := by
  have still : d.detectAR6 = d := by
    unfold detectAR6
    rw [if_pos idle]
  rw [fileTask, still, fileCommand, idle]
  dsimp only
  rw [← idle]

theorem opened_aside (source : Source ops left) (d : IECFileDevice σ) (elsewhere : c ≠ d.channel) :
    Aside left c d (d.opened ops) where
  buffer := by
    unfold opened
    dsimp only [setReadBuffer]
    rw [Function.update_of_ne]
    · simp
    · simpa using elsewhere
  left := by simp [opened, setReadBuffer, source.open_others elsewhere]

theorem flushed_aside (source : Source ops left) (d : IECFileDevice σ) (elsewhere : c ≠ d.channel) :
    Aside left c d (d.flushed ops) :=
  ⟨(emptyWriteBuffer_aside source d elsewhere).buffer, (emptyWriteBuffer_aside source d elsewhere).left⟩

theorem closed_aside (source : Source ops left) (d : IECFileDevice σ) (elsewhere : c ≠ d.channel) :
    Aside left c d (d.closed ops) where
  buffer := by
    unfold closed
    dsimp only [setReadBuffer]
    rw [Function.update_of_ne]
    · simp [(emptyWriteBuffer_aside source d elsewhere).buffer]
    · simpa using elsewhere
  left := by
    have flushed := (emptyWriteBuffer_aside source d elsewhere).left
    simp [closed, setReadBuffer, source.close_others elsewhere, flushed]

theorem commanded_aside (d : IECFileDevice σ)
    (away : (isFastLoaderRequest enabled d.uploadCtr d.writeBuffer d.writeBufferLen).1 = none →
      c ∉ (ops.executeData d.written d.state).1.2 ∧ left (ops.executeData d.written d.state).2 c = left d.state c) :
    Aside left c d (d.commanded ops enabled) := by
  unfold commanded
  generalize isFastLoaderRequest enabled d.uploadCtr d.writeBuffer d.writeBufferLen = r at away
  obtain ⟨request, uploadCtr⟩ := r
  cases request with
  | some request =>
    have aside := requested_aside left (c := c) { d with uploadCtr := uploadCtr } request
    exact ⟨aside.buffer, aside.left⟩
  | none =>
    have aside := executed_aside { d with uploadCtr := uploadCtr } (away rfl).1 (away rfl).2
    exact ⟨aside.buffer, aside.left⟩

theorem fileCommand_aside (source : Source ops left) (d : IECFileDevice σ) (away : ¬ d.disturbs ops left enabled c) :
    Aside left c d (d.fileCommand ops enabled) := by
  unfold disturbs at away
  unfold fileCommand
  cases task : d.cmd with
  | none => exact .refl d
  | open_ =>
    rw [task] at away
    exact opened_aside source d (Ne.symm away)
  | close =>
    rw [task] at away
    exact closed_aside source d (Ne.symm away)
  | write =>
    rw [task] at away
    exact flushed_aside source d (Ne.symm away)
  | exec =>
    rw [task] at away
    refine commanded_aside d fun request => ⟨fun member => away ⟨request, .inl member⟩, ?_⟩
    by_contra moved
    exact away ⟨request, .inr moved⟩

/-- What is done behind a transaction leaves the other channels alone. -/
theorem fileTask_aside (source : Source ops left) (d : IECFileDevice σ) (away : ¬ d.disturbs ops left enabled c) :
    Aside left c d (d.fileTask ops enabled) := by
  obtain ⟨buffer, state, -, -, -, detected⟩ := detectAR6_same d
  have first : Aside left c d d.detectAR6 := ⟨congrFun buffer c, by rw [state]⟩
  have still : ¬ d.detectAR6.disturbs ops left enabled c := by
    rcases detected with same | dropped
    · rw [same]
      exact away
    · unfold disturbs
      rw [dropped.2]
      exact id
  have second := fileCommand_aside source d.detectAR6 still
  exact first.trans ⟨second.buffer, second.left⟩

@[simp] theorem opened_flProtocol (d : IECFileDevice σ) : (d.opened ops).flProtocol = d.flProtocol := by
  simp [opened, setReadBuffer]

@[simp] theorem flushed_flProtocol (d : IECFileDevice σ) : (d.flushed ops).flProtocol = d.flProtocol := by
  simp [flushed]

@[simp] theorem closed_flProtocol (ops : Device σ) (d : IECFileDevice σ) :
    (d.closed ops).flProtocol = d.flProtocol := by
  simp [closed, setReadBuffer]

/- A loader is requested by a command only. -/
theorem fileTask_flProtocol (ops : Device σ) (enabled : FastLoader → Bool) (d : IECFileDevice σ)
    (other : d.cmd ≠ .exec) :
    (d.fileTask ops enabled).flProtocol = d.flProtocol := by
  obtain ⟨-, -, -, -, flProtocol, detected⟩ := detectAR6_same d
  have still : d.detectAR6.cmd ≠ .exec := by
    rcases detected with same | dropped
    · rw [same]
      exact other
    · rw [dropped.2]
      exact Cmd.noConfusion
  rw [fileTask, fileCommand]
  dsimp only
  cases task : d.detectAR6.cmd with
  | none => exact flProtocol
  | open_ => exact (opened_flProtocol _).trans flProtocol
  | close => exact (closed_flProtocol _ _).trans flProtocol
  | write => exact (flushed_flProtocol _).trans flProtocol
  | exec => exact absurd task still

theorem fileTask_channel (ops : Device σ) (enabled : FastLoader → Bool) (d : IECFileDevice σ)
    (files : d.cmd = .open_ ∨ d.cmd = .close) :
    (d.fileTask ops enabled).channel = 0xFF := by
  obtain ⟨-, -, -, -, -, detected⟩ := detectAR6_same d
  rcases detected with same | dropped
  · have cmd : d.detectAR6.cmd = d.cmd := by rw [same]
    rw [fileTask, fileCommand, cmd]
    rcases files with task | task
    · rw [task]
      rfl
    · rw [task]
      rfl
  · rw [dropped.1] at files
    rcases files with task | task
    · cases task
    · cases task

theorem fileTask_exec (ops : Device σ) (enabled : FastLoader → Bool) (d : IECFileDevice σ) (command : d.cmd = .exec) :
    (d.fileTask ops enabled).flProtocol = d.flProtocol ∨ (d.fileTask ops enabled).channel = d.channel ∨
      (d.fileTask ops enabled).eoi = false := by
  obtain ⟨-, -, channel, -, flProtocol, detected⟩ := detectAR6_same d
  have cmd : d.detectAR6.cmd = .exec := by
    rcases detected with same | dropped
    · rw [same]
      exact command
    · exact absurd (dropped.1.symm.trans command) Cmd.noConfusion
  rw [fileTask, fileCommand, cmd]
  dsimp only [commanded]
  rw [← flProtocol, ← channel]
  generalize isFastLoaderRequest enabled d.detectAR6.uploadCtr d.detectAR6.writeBuffer d.detectAR6.writeBufferLen = r
  obtain ⟨request, uploadCtr⟩ := r
  cases request with
  | some request =>
    rcases requested_flProtocol (d := { d.detectAR6 with uploadCtr := uploadCtr }) request with
      same | ⟨loader, prot, other, -, -, same | off⟩
    · exact .inl same
    · exact .inr (.inl same)
    · exact .inr (.inr off)
  | none =>
    left
    simp [executed]

/-- A fast loader gets the file. -/
def loading (d : IECFileDevice σ) : Prop :=
  ∃ loader prot, d.flProtocol = some (loader, prot) ∧ (prot = .load ∨ prot = .loadimg)

end IECFileDevice

open IECFileDevice

namespace IECBusHandler

variable {b : IECBusHandler σ}

/-- What holds of a channel that is watched while the handler runs: so much is still to be had of it, and
behind the EOI flag of a channel that is read, nothing is left. -/
structure Watched (left : σ → Nat → Option Str) (c : Nat) (X : Str) (b : IECBusHandler σ) : Prop where
  apart : b.listening = true → b.talking = false
  loads : b.device.flProtocol ≠ none → b.listening = false ∧ b.talking = false
  pending : Pending left c X b.device
  ended : b.talking = true ∨ b.device.loading → b.device.channel = c → Ended left c b.device

/-- What a pass has left to do when it comes to its end, where it leaves the channel alone. -/
structure Leaves (ops : Device σ) (left : σ → Nat → Option Str) (enabled : FastLoader → Bool) (c : Nat)
    (b : IECBusHandler σ) : Prop where
  away : ¬ b.device.disturbs ops left enabled c
  silent : b.device.cmd ≠ .none → b.listening = false
  talks : b.device.cmd ≠ .none → b.talking = true → b.device.cmd = .close
  protocol : b.device.cmd = .write ∨ b.device.cmd = .exec → b.device.flProtocol = none
  command : b.device.cmd = .exec → b.device.channel ≠ c

theorem Leaves.idle (idle : b.device.cmd = .none) : Leaves ops left enabled c b where
  away := by
    unfold disturbs
    rw [idle]
    exact id
  silent task := absurd idle task
  talks task := absurd idle task
  protocol task := by
    rw [idle] at task
    rcases task with task | task <;> cases task
  command task := by
    rw [idle] at task
    cases task

/- Of a channel that is read, nothing is done at the end of the pass. -/
theorem Leaves.ended (listed : c < 15) (watched : Watched left c X b) (leaves : Leaves ops left enabled c b)
    (reading : b.talking = true ∨ (b.device.fileTask ops enabled).loading)
    (here : (b.device.fileTask ops enabled).channel = c) : Ended left c (b.device.fileTask ops enabled) := by
  have open_ : ¬ (b.device.cmd = .open_ ∨ b.device.cmd = .close) := fun files => by
    have gone := fileTask_channel ops enabled b.device files
    omega
  -- a device that talks has no other command to see to
  have loads : b.device.cmd ≠ .none → (b.device.fileTask ops enabled).loading := fun task =>
    reading.resolve_left fun talking => open_ (.inr (leaves.talks task talking))
  intro flag
  cases task : b.device.cmd with
  | none =>
    rw [fileTask_idle task] at reading here flag ⊢
    exact watched.ended reading here flag
  | open_ => exact absurd (.inl task) open_
  | close => exact absurd (.inr task) open_
  | write =>
    obtain ⟨loader, prot, requested, -⟩ := loads (by rw [task]; exact Cmd.noConfusion)
    rw [fileTask_flProtocol _ _ _ (by rw [task]; exact Cmd.noConfusion), leaves.protocol (.inl task)] at requested
    cases requested
  | exec =>
    obtain ⟨loader, prot, requested, -⟩ := loads (by rw [task]; exact Cmd.noConfusion)
    rcases fileTask_exec ops enabled b.device task with same | same | off
    · rw [same, leaves.protocol (.inr task)] at requested
      cases requested
    · exact absurd (same.symm.trans here) (leaves.command task)
    · exact absurd flag (ne_true_of_eq_false off)

/-- The end of the pass. -/
theorem Watched.fileTask (source : Source ops left) (listed : c < 15) (watched : Watched left c X b)
    (leaves : Leaves ops left enabled c b) :
    let b' := { b with device := b.device.fileTask ops enabled }
    Watched left c X b' ∧ b'.device.cmd = .none := by
  have aside := fileTask_aside source b.device leaves.away
  refine ⟨⟨watched.apart, fun requested => ?_, aside.pending watched.pending, fun reading here =>
    leaves.ended listed watched reading here⟩, rfl⟩
  by_cases command : b.device.cmd = .exec
  · have some : b.device.cmd ≠ .none := by
      rw [command]
      exact Cmd.noConfusion
    refine ⟨leaves.silent some, Bool.eq_false_of_not_eq_true fun talking => ?_⟩
    exact absurd ((leaves.talks some talking).symm.trans command) Cmd.noConfusion
  · rw [fileTask_flProtocol _ _ _ command] at requested
    exact watched.loads requested

/-- The device listens for data of the channel. -/
def Collecting (c : Nat) (b : IECBusHandler σ) : Prop :=
  b.listening = true ∧ b.device.channel = c ∧ b.device.opening = false

/- The device listens, and is asked whether it can. -/
theorem Watched.admitted (source : Source ops left) (watched : Watched left c X b)
    (away : ¬ b.device.disturbs ops left enabled c) (free : ¬ (b.admitted ops enabled).Collecting c)
    (listens : b.listening = true) (task : b.device.cmd = .none ∨ b.device.cmd = .close) :
    let b' := b.admitted ops enabled
    Watched left c X b' ∧ b'.device.cmd = .none ∧ b'.device.flProtocol = none := by
  have silent := watched.apart listens
  have unrequested : b.device.flProtocol = none := by
    by_contra requested
    exact absurd listens (ne_true_of_eq_false (watched.loads requested).1)
  have same : b.admitted ops enabled = { b with
      device := ((b.device.fileTask ops enabled).canWrite ops).2
      done := !((b.device.fileTask ops enabled).canWrite ops).1 } := if_pos listens
  rw [same] at free ⊢
  have told : (b.device.fileTask ops enabled).channel = c → (b.device.fileTask ops enabled).opening = true := fun here => by
    by_contra no
    refine free ⟨listens, ?_, ?_⟩
    · rw [canWrite_channel, here]
    · rw [canWrite_opening]
      exact Bool.eq_false_of_not_eq_true no
  have aside := (fileTask_aside source b.device away).trans (canWrite_aside source (b.device.fileTask ops enabled) told)
  have still : ((b.device.fileTask ops enabled).canWrite ops).2.flProtocol = none := by
    rw [canWrite_flProtocol, fileTask_flProtocol, unrequested]
    rcases task with task | task <;> simp [task]
  have cmd : ((b.device.fileTask ops enabled).canWrite ops).2.cmd = .none := by
    rw [canWrite_cmd]
    rfl
  refine ⟨⟨watched.apart, fun requested => absurd still requested, aside.pending watched.pending, fun reading => ?_⟩, cmd,
    still⟩
  rcases reading with talking | ⟨loader, prot, requested, -⟩
  · exact absurd talking (ne_true_of_eq_false silent)
  · dsimp only at requested
    rw [still] at requested
    cases requested

/-- A pass opens, closes, repositions or writes to the channel. -/
def Disturbs (ops : Device σ) (left : σ → Nat → Option Str) (enabled : FastLoader → Bool) (c : Nat)
    (b : IECBusHandler σ) (h : Host) : Prop :=
  (b.attend ops enabled h).Collecting c ∨ match h with
  | .reset => True
  | .header _ => c = 0
  | .store _ _ => b.device.channel = c
  | .finish (some secondary) => secondary.toNat % 16 = c
  | h => isATN h = true ∧ b.clocked = false ∧ (b.atnRequest.handleATNSequence h).device.disturbs ops left enabled c

theorem Watched.atnRequest (watched : Watched left c X b) : Watched left c X b.atnRequest where
  apart := watched.apart
  loads requested := absurd rfl requested
  pending := ⟨watched.pending.short, watched.pending.failed, watched.pending.join⟩
  ended reading := by
    rcases reading with talking | ⟨loader, prot, requested, -⟩
    · exact watched.ended (.inl talking)
    · cases requested

/- A device that does not read and is asked for nothing: only what was kept in it counts. -/
theorem Watched.of_silent (watched : Watched left c X b) (b' : IECBusHandler σ) (silent : b'.talking = false)
    (unrequested : b'.device.flProtocol = none) (aside : Aside left c b.device b'.device) : Watched left c X b' where
  apart _ := silent
  loads requested := absurd unrequested requested
  pending := aside.pending watched.pending
  ended reading := by
    rcases reading with talking | ⟨loader, prot, requested, -⟩
    · exact absurd talking (ne_true_of_eq_false silent)
    · rw [unrequested] at requested
      cases requested

theorem talk_aside (left : σ → Nat → Option Str) (d : IECFileDevice σ) (secondary : UInt8) :
    Aside left c d (d.talk secondary) := ⟨rfl, rfl⟩

theorem listen_aside (left : σ → Nat → Option Str) (d : IECFileDevice σ) (secondary : UInt8) :
    Aside left c d (d.listen secondary) := by
  unfold IECFileDevice.listen
  dsimp only
  repeat' split
  all_goals exact ⟨rfl, rfl⟩

theorem unlisten_aside (left : σ → Nat → Option Str) (d : IECFileDevice σ) : Aside left c d d.unlisten := by
  unfold unlisten
  repeat' split
  all_goals exact ⟨rfl, rfl⟩

@[simp] theorem listen_flProtocol (d : IECFileDevice σ) (secondary : UInt8) :
    (d.listen secondary).flProtocol = d.flProtocol := by
  unfold IECFileDevice.listen
  dsimp only
  repeat' split
  all_goals rfl

@[simp] theorem unlisten_flProtocol (d : IECFileDevice σ) : d.unlisten.flProtocol = d.flProtocol := by
  unfold unlisten
  repeat' split
  all_goals rfl

@[simp] theorem listen_channel (d : IECFileDevice σ) (secondary : UInt8) :
    (d.listen secondary).channel = secondary.toNat % 16 := by
  unfold IECFileDevice.listen
  dsimp only
  repeat' split
  all_goals rfl

theorem listen_cmd (d : IECFileDevice σ) (secondary : UInt8) :
    (d.listen secondary).cmd = d.cmd ∨ (d.listen secondary).cmd = .close := by
  unfold IECFileDevice.listen
  dsimp only
  repeat' split
  · exact .inl rfl
  · exact .inl rfl
  · exact .inr rfl
  · exact .inl rfl

/- A command is sent away from the channels. -/
theorem unlisten_channel (d : IECFileDevice σ) :
    d.unlisten.cmd = .exec → d.cmd = .exec ∨ d.unlisten.channel = 0xFF := by
  unfold unlisten
  split
  · exact fun _ => .inr rfl
  · split
    · exact fun task => Cmd.noConfusion task
    · split
      · exact fun task => Cmd.noConfusion task
      · exact .inl

theorem Watched.unlisten (listed : c < 15) {b' : IECBusHandler σ} (watched : Watched left c X b)
    (idle : b.device.cmd = .none) (unrequested : b.device.flProtocol = none) (silent : b'.listening = false)
    (calm : b'.talking = false) (device : b'.device = b.device.unlisten)
    (away : ¬ b'.device.disturbs ops left enabled c) :
    Watched left c X b' ∧ Leaves ops left enabled c b' ∧ (b'.device.flProtocol ≠ none → b'.device.cmd = .none) := by
  have aside := unlisten_aside left (c := c) b.device
  have still := unlisten_flProtocol b.device
  have gone := unlisten_channel b.device
  rw [← device] at aside still gone
  have unasked := still.trans unrequested
  refine ⟨watched.of_silent _ calm unasked aside, ⟨away, fun _ => silent, fun _ talking => ?_, fun _ => unasked,
    fun task => ?_⟩, fun requested => absurd unasked requested⟩
  · exact absurd talking (ne_true_of_eq_false calm)
  · rcases gone task with before | gone
    · rw [idle] at before
      cases before
    · omega

/- A device that goes on listening, or begins to, is asked whether it can; another is not. -/
theorem Watched.asked (enabled : FastLoader → Bool) (source : Source ops left) (watched : Watched left c X b)
    (away : ¬ b.device.disturbs ops left enabled c) (free : ¬ (b.admitted ops enabled).Collecting c)
    (task : b.device.cmd = .none ∨ b.listening = true ∧ b.device.cmd = .close) :
    let b' := b.admitted ops enabled
    Watched left c X b' ∧ Leaves ops left enabled c b' ∧ (b'.device.flProtocol ≠ none → b'.device.cmd = .none) := by
  by_cases listens : b.listening = true
  · obtain ⟨watched, cmd, -⟩ := watched.admitted source away free listens (task.imp_right And.right)
    exact ⟨watched, .idle cmd, fun _ => cmd⟩
  · have same : b.admitted ops enabled = b := if_neg listens
    have idle := task.resolve_right fun close => listens close.1
    rw [same]
    exact ⟨watched, .idle idle, fun _ => idle⟩

theorem Watched.handleATNSequence (source : Source ops left) (listed : c < 15) {h : Host} (watched : Watched left c X b)
    (idle : b.device.cmd = .none) (unrequested : b.device.flProtocol = none)
    (away : ¬ (b.handleATNSequence h).device.disturbs ops left enabled c)
    (free : ¬ ((b.handleATNSequence h).admitted ops enabled).Collecting c) :
    let b' := (b.handleATNSequence h).admitted ops enabled
    Watched left c X b' ∧ Leaves ops left enabled c b' ∧ (b'.device.flProtocol ≠ none → b'.device.cmd = .none) := by
  have stopped : ∀ b' : IECBusHandler σ, b'.listening = false → b'.talking = false → b'.device = b.device.unlisten →
      ¬ b'.device.disturbs ops left enabled c → Watched left c X (b'.admitted ops enabled) ∧
        Leaves ops left enabled c (b'.admitted ops enabled) ∧
        ((b'.admitted ops enabled).device.flProtocol ≠ none → (b'.admitted ops enabled).device.cmd = .none) := by
    intro b' silent calm device away
    have same : b'.admitted ops enabled = b' := if_neg (ne_true_of_eq_false silent)
    rw [same]
    exact watched.unlisten listed idle unrequested silent calm device away
  have kept := fun free => watched.asked enabled source
    (fun wrong => by unfold disturbs at wrong; rwa [idle] at wrong) free (.inl idle)
  cases h with
  | listen secondary =>
    have aside := listen_aside left (c := c) b.device secondary
    exact (watched.of_silent { b with device := b.device.listen secondary, listening := true, talking := false } rfl
      ((listen_flProtocol _ _).trans unrequested) aside).asked enabled source away free
        ((listen_cmd b.device secondary).imp (·.trans idle) fun task => ⟨rfl, task⟩)
  | talk secondary jiffy =>
    unfold IECBusHandler.handleATNSequence at away ⊢
    dsimp only at away ⊢
    generalize (if (jiffy && secondary == 0x61) = true then (0x60 : UInt8) else secondary) = address at away ⊢
    generalize (jiffy && secondary == 0x61) = block at away ⊢
    have aside := talk_aside left (c := c) b.device address
    have task : (b.device.talk address).cmd = .none ∨ (b.device.talk address).cmd = .close := by
      unfold talk
      dsimp only
      split
      · exact .inr rfl
      · exact .inl idle
    have talks : Watched left c X { b with
        device := b.device.talk address, listening := false, talking := true, jiffyBlock := block } := {
      apart := fun listens => Bool.noConfusion listens
      loads := fun requested => absurd unrequested requested
      pending := aside.pending watched.pending
      ended := fun _ _ flag => Bool.noConfusion flag }
    refine ⟨talks, ⟨away, fun _ => rfl, fun some _ => task.resolve_left some, fun _ => unrequested, fun exec => ?_⟩,
      fun requested => absurd unrequested requested⟩
    rcases task with task | task
    · exact absurd (task.symm.trans exec) Cmd.noConfusion
    · exact absurd (task.symm.trans exec) Cmd.noConfusion
  | unlisten =>
    unfold IECBusHandler.handleATNSequence at away free ⊢
    dsimp only at away free ⊢
    by_cases listens : b.listening = true
    · rw [if_pos listens] at away ⊢
      exact stopped _ rfl (watched.apart listens) rfl away
    · rw [if_neg listens] at free ⊢
      exact kept free
  | untalk =>
    unfold IECBusHandler.handleATNSequence at away free ⊢
    dsimp only at away free ⊢
    by_cases talks : b.talking = true
    · rw [if_pos talks] at away free ⊢
      exact (watched.of_silent { b with device := b.device.untalk, talking := false } rfl unrequested
        ⟨rfl, rfl⟩).asked enabled source away free (.inl idle)
    · rw [if_neg talks] at away free ⊢
      by_cases listens : b.listening = true
      · rw [if_pos listens] at away ⊢
        exact stopped _ rfl (Bool.eq_false_of_not_eq_true talks) rfl away
      · rw [if_neg listens] at free ⊢
        exact kept free
  | elsewhere talks =>
    unfold IECBusHandler.handleATNSequence at away free ⊢
    cases talks with
    | true =>
      exact (watched.of_silent { b with talking := false } rfl unrequested (.refl _)).asked enabled source away free
        (.inl idle)
    | false => exact kept free
  | _ => exact kept free

theorem Watched.receive (source : Source ops left) (h : Host) (watched : Watched left c X b)
    (leaves : Leaves ops left enabled c b) (free : ¬ b.Collecting c) :
    let r := b.receive ops h
    Watched left c X r.2 ∧ Leaves ops left enabled c r.2 := by
  unfold IECBusHandler.receive
  by_cases listens : (b.listening && !b.done) = true
  · rw [if_pos listens]
    have listening := (Bool.and_eq_true _ _ ▸ listens).1
    have calm := watched.apart listening
    have unrequested : b.device.flProtocol = none := by
      by_contra requested
      exact absurd listening (ne_true_of_eq_false (watched.loads requested).1)
    have idle : b.device.cmd = .none := by
      by_contra task
      exact absurd listening (ne_true_of_eq_false (leaves.silent task))
    have asked := canWrite_aside (c := c) source b.device fun here => by
      by_contra no
      exact free ⟨listening, here, Bool.eq_false_of_not_eq_true no⟩
    have taken := fun data eoi => asked.trans (write_aside (b.device.canWrite ops).2 data eoi)
    dsimp only
    split
    · split
      · exact ⟨watched.of_silent _ calm (by simpa using unrequested) (taken _ _), .idle (by simpa using idle)⟩
      · exact ⟨watched.of_silent _ calm (by simpa using unrequested) asked, .idle (by simpa using idle)⟩
    · exact ⟨watched.of_silent _ calm (by simpa using unrequested) asked, .idle (by simpa using idle)⟩
  · rw [if_neg listens]
    exact ⟨watched, leaves⟩

end IECBusHandler

/-- The bytes of a channel that a reply gives, or has lost. -/
def Reply.given (c : Nat) : Reply → Str
  | .byte channel data _ | .lost channel data => if channel = c then [data] else []
  | .block channel data => if channel = c then data else []
  | _ => []

/-- What a reply tells about the end of a channel, `rest` being what is left of it. -/
def Reply.tells (c : Nat) (rest : Str) : Reply → Prop
  | .byte channel _ eoi => channel = c → (eoi = true ↔ rest = [])
  | .empty channel => channel = c → rest = []
  | _ => True

/-- Of what was to be had, a reply gives the front, and it tells the truth about the end. -/
structure Gives (c : Nat) (X : Str) (r : Option Reply) (X' : Str) : Prop where
  join : X = r.elim [] (Reply.given c) ++ X'
  told : ∀ reply ∈ r, reply.tells c X'

theorem Gives.nothing : Gives c X none X := ⟨rfl, fun _ member => by cases member⟩

theorem Gives.one {reply : Reply} (join : X = reply.given c ++ X') (told : reply.tells c X') :
    Gives c X (some reply) X' :=
  ⟨join, fun _ member => Option.some.inj member ▸ told⟩

/- One after the other, only one of which replies. -/
theorem Gives.next {X'' : Str} {r r' : Option Reply} (first : Gives c X r X') (second : Gives c X' r' X'')
    (one : r = none ∨ r' = none) : Gives c X (r.or r') X'' := by
  rcases one with rfl | rfl
  · obtain rfl : X = X' := first.join
    exact second
  · obtain rfl : X' = X'' := second.join
    rw [Option.or_none]
    exact first

namespace IECFileDevice

variable {d : IECFileDevice σ}

/-- A step of reading: what is left to do stays the same, and the EOI flag is set behind the last byte only. -/
structure Reads (left : σ → Nat → Option Str) (c : Nat) (X : Str) (d d' : IECFileDevice σ) : Prop where
  channel : d'.channel = d.channel
  cmd : d'.cmd = d.cmd
  flProtocol : d'.flProtocol = d.flProtocol
  pending : Pending left c X d'
  ended : d'.channel = c → Ended left c d'

/- A step on another channel. -/
theorem Reads.elsewhere {d' : IECFileDevice σ} (aside : Aside left c d d') (away : c ≠ d.channel)
    (channel : d'.channel = d.channel) (cmd : d'.cmd = d.cmd) (flProtocol : d'.flProtocol = d.flProtocol)
    (pending : Pending left c X d) : Reads left c X d d' :=
  ⟨channel, cmd, flProtocol, aside.pending pending, fun here => absurd (here.symm.trans channel) away⟩

theorem canRead_reads (reader : Reader ops left) (listed : c < 15) (pending : Pending left c X d)
    (ended : d.channel = c → Ended left c d) :
    Reads left c X d (d.canRead ops).2 ∧ ((d.canRead ops).2.channel = c → (d.canRead ops).1 = 0 → X = []) := by
  by_cases here : d.channel = c
  · obtain ⟨count, -, kept, channel, cmd, flProtocol, last⟩ := canRead_pending reader listed here pending (ended here)
    refine ⟨⟨channel.trans here.symm, cmd, flProtocol, kept, fun _ => last⟩, fun _ none => ?_⟩
    rw [count] at none
    exact List.eq_nil_of_length_eq_zero (by omega)
  · obtain ⟨aside, channel, cmd, flProtocol⟩ := canRead_aside reader d (Ne.symm here)
    exact ⟨.elsewhere aside (Ne.symm here) channel cmd flProtocol pending, fun now =>
      absurd (channel.symm.trans now) here⟩

theorem readBlock_reads (reader : Reader ops left) (listed : c < 15) (pending : Pending left c X d)
    (ended : d.channel = c → Ended left c d) (n : Nat) :
    ∃ X', Reads left c X' d (d.readBlock ops n).2 ∧ X = (Reply.block d.channel (d.readBlock ops n).1).given c ++ X' := by
  by_cases here : d.channel = c
  · obtain ⟨piece, kept, channel, cmd, flProtocol, last⟩ := readBlock_pending reader listed here pending (ended here) n
    refine ⟨X.drop n, ⟨channel.trans here.symm, cmd, flProtocol, kept, fun _ => last⟩, ?_⟩
    rw [Reply.given, if_pos here, piece, List.take_append_drop]
  · obtain ⟨aside, channel, cmd, flProtocol⟩ := readBlock_aside reader n (Ne.symm here)
    refine ⟨X, .elsewhere aside (Ne.symm here) channel cmd flProtocol pending, ?_⟩
    rw [Reply.given, if_neg here, List.nil_append]

/- `read` leaves the rest as it is. -/
theorem read_same (d : IECFileDevice σ) : d.read.2.channel = d.channel ∧ d.read.2.cmd = d.cmd ∧
    d.read.2.flProtocol = d.flProtocol ∧ d.read.2.eoi = d.eoi ∧ d.read.2.state = d.state := by
  unfold read
  dsimp only
  split
  · exact ⟨rfl, rfl, rfl, rfl, rfl⟩
  · split
    · exact ⟨rfl, rfl, rfl, rfl, rfl⟩
    · exact ⟨rfl, rfl, rfl, rfl, rfl⟩

/-- The byte that is sent is the next one, and it is told for the last where it is. -/
theorem read_reads (reader : Reader ops left) (listed : c < 15) (pending : Pending left c X d)
    (ended : d.channel = c → Ended left c d) (some : (d.canRead ops).1 ≠ 0) :
    let d' := (d.canRead ops).2
    ∃ X', Reads left c X' d d'.read.2 ∧ X = (if d'.channel = c then [d'.peek] else []) ++ X' ∧
      (d'.channel = c → ((d.canRead ops).1 = 1 ↔ X' = [])) := by
  obtain ⟨channel', cmd', flProtocol', eoi', state'⟩ := read_same (d.canRead ops).2
  obtain ⟨reads, -⟩ := canRead_reads reader listed pending ended
  have last : (d.canRead ops).2.read.2.channel = c → Ended left c (d.canRead ops).2.read.2 := fun here flag => by
    rw [state']
    exact reads.ended (channel'.symm.trans here) (eoi'.symm.trans flag)
  have channel := channel'.trans reads.channel
  have cmd := cmd'.trans reads.cmd
  have flProtocol := flProtocol'.trans reads.flProtocol
  by_cases here : d.channel = c
  · obtain ⟨count, buffer, kept, channel₁, -⟩ := canRead_pending reader listed here pending (ended here)
    generalize d.canRead ops = r at *
    cases X with
    | nil => exact absurd count some
    | cons x rest =>
      obtain ⟨X', taken, next, kept'⟩ := read_pending listed channel₁ kept (buffer.trans (List.take_succ_cons ..))
      rw [List.cons.injEq] at taken
      obtain ⟨-, rfl⟩ := taken
      refine ⟨rest, ⟨channel, cmd, flProtocol, kept', last⟩, ?_, fun _ => ?_⟩
      · rw [if_pos channel₁, next]
        rfl
      · rw [count, List.length_cons, ← List.length_eq_zero_iff]
        omega
  · have away : c ≠ (d.canRead ops).2.channel := fun now => here (reads.channel.symm.trans now.symm)
    have aside := read_aside left _ away
    refine ⟨X, ⟨channel, cmd, flProtocol, aside.pending reads.pending, last⟩, ?_, fun now => absurd now.symm away⟩
    rw [if_neg (Ne.symm away), List.nil_append]

end IECFileDevice

namespace IECBusHandler

variable {b : IECBusHandler σ}

/- A device that has read. -/
theorem Watched.of_reads (watched : Watched left c X b) (leaves : Leaves ops left enabled c b) (b' : IECBusHandler σ)
    (listening : b'.listening = b.listening) (talking : b'.talking = b.talking)
    (reads : Reads left c X' b.device b'.device) (file : b.device.cmd ≠ .exec) :
    Watched left c X' b' ∧ Leaves ops left enabled c b' := by
  refine ⟨⟨?_, ?_, reads.pending, fun _ => reads.ended⟩, ⟨?_, ?_, ?_, ?_, ?_⟩⟩
  · rw [listening, talking]
    exact watched.apart
  · rw [listening, talking, reads.flProtocol]
    exact watched.loads
  · have away := leaves.away
    unfold disturbs at away ⊢
    rw [reads.cmd, reads.channel]
    cases task : b.device.cmd with
    | exec => exact absurd task file
    | _ => simpa only [task] using away
  · rw [reads.cmd, listening]
    exact leaves.silent
  · rw [reads.cmd, talking]
    exact leaves.talks
  · rw [reads.cmd, reads.flProtocol]
    exact leaves.protocol
  · rw [reads.cmd]
    exact fun exec => absurd exec file

theorem Watched.transmit (m_bufferSize : Nat) (source : Source ops left) (listed : c < 15) (h : Host)
    (watched : Watched left c X b) (leaves : Leaves ops left enabled c b) :
    let r := b.transmit ops enabled m_bufferSize h
    ∃ X', Watched left c X' r.2 ∧ Leaves ops left enabled c r.2 ∧ Gives c X r.1 X' := by
  unfold IECBusHandler.transmit
  by_cases talks : (b.talking && !b.done) = true
  · rw [if_pos talks]
    have talking := (Bool.and_eq_true _ _ ▸ talks).1
    have file : b.device.cmd ≠ .exec := fun exec => by
      have close := leaves.talks (by rw [exec]; exact Cmd.noConfusion) talking
      exact Cmd.noConfusion (exec.symm.trans close)
    have ended := watched.ended (.inl talking)
    split
    · split
      · next acknowledged =>
        obtain ⟨X', reads, join⟩ := readBlock_reads source.toReader listed watched.pending ended m_bufferSize
        obtain ⟨watched', leaves'⟩ := watched.of_reads leaves { b with
          device := (b.device.readBlock ops m_bufferSize).2
          done := !acknowledged || (b.device.readBlock ops m_bufferSize).1.isEmpty } rfl rfl reads file
        exact ⟨X', watched', leaves', .one join trivial⟩
      · exact ⟨X, watched, leaves, .nothing⟩
    · obtain ⟨reads, empty⟩ := canRead_reads source.toReader listed watched.pending ended
      have ready := fun done => watched.of_reads leaves { b with device := (b.device.canRead ops).2, done := done }
        rfl rfl reads file
      dsimp only
      split
      · next acknowledged =>
        split
        · next none => exact ⟨X, (ready _).1, (ready _).2, .one rfl fun here => empty here none⟩
        · next some =>
          obtain ⟨X', reads', join, last⟩ := read_reads source.toReader listed watched.pending ended some
          have taken := fun done => watched.of_reads leaves
            { b with device := (b.device.canRead ops).2.read.2, done := done } rfl rfl reads' file
          split
          · refine ⟨X', (taken _).1, (taken _).2, .one join fun here => ?_⟩
            rw [decide_eq_true_iff]
            exact last here
          · split
            · exact ⟨X, (ready _).1, (ready _).2, .one rfl trivial⟩
            · exact ⟨X', (taken _).1, (taken _).2, .one join trivial⟩
      · exact ⟨X, (ready _).1, (ready _).2, .nothing⟩
  · rw [if_neg talks]
    exact ⟨X, watched, leaves, .nothing⟩

/- The name of a file is taken without asking. -/
theorem canWrite_named {d : IECFileDevice σ} (opening : d.opening = true) : d.canWrite ops = (true, d) :=
  if_pos (.inr opening)

theorem write_opening (d : IECFileDevice σ) (data : UInt8) (eoi : Bool) : (d.write data eoi).opening = d.opening := by
  unfold write
  dsimp only
  split <;> rfl

theorem named (ops : Device σ) (left : σ → Nat → Option Str) (eoi : UInt8 × Nat → Bool) (name : List (UInt8 × Nat))
    {d : IECFileDevice σ} (opening : d.opening = true) :
    let d' := name.foldl (fun d x => ((d.canWrite ops).2).write x.1 (eoi x)) d
    d'.opening = true ∧ d'.channel = d.channel ∧ d'.cmd = d.cmd ∧ Aside left c d d' := by
  induction name generalizing d with
  | nil => exact ⟨opening, rfl, rfl, .refl d⟩
  | cons x name ih =>
    rw [List.foldl_cons, canWrite_named opening]
    obtain ⟨still, channel, cmd, aside⟩ := ih (d := d.write x.1 (eoi x)) ((write_opening ..).trans opening)
    exact ⟨still, channel.trans (write_channel ..), cmd.trans (write_cmd ..), (write_aside d _ _).trans aside⟩

theorem unlisten_file {d : IECFileDevice σ} (file : d.channel ≠ 15) (calm : d.cmd ≠ .exec) :
    d.unlisten.cmd ≠ .exec ∧ d.unlisten.channel = d.channel := by
  unfold unlisten
  rw [if_neg file]
  split
  · exact ⟨Cmd.noConfusion, rfl⟩
  · split
    · exact ⟨Cmd.noConfusion, rfl⟩
    · exact ⟨calm, rfl⟩

/- A loader that closes its file itself leaves the device to see to that one, or to nothing. -/
theorem closing_cmd {d : IECFileDevice σ} (secondary : UInt8) (idle : d.cmd = .none) :
    let d' := (d.listen secondary).unlisten
    d'.cmd ≠ .exec ∧ (d'.cmd ≠ .none → d'.channel = secondary.toNat % 16) := by
  by_cases status : secondary.toNat % 16 = 15
  · have task : (d.listen secondary).unlisten.cmd = .none := by
      rw [IECFileDevice.listen, if_pos status, unlisten, if_pos status]
      exact idle
    dsimp only
    rw [task]
    exact ⟨Cmd.noConfusion, fun some => absurd rfl some⟩
  · have calm : (d.listen secondary).cmd ≠ .exec := by
      rcases listen_cmd d secondary with same | close
      · rw [same, idle]
        exact Cmd.noConfusion
      · rw [close]
        exact Cmd.noConfusion
    have channel := listen_channel d secondary
    obtain ⟨other, still⟩ := unlisten_file (channel ▸ status) calm
    exact ⟨other, fun _ => still.trans channel⟩

/- The device has a file to see to, and nothing else. -/
theorem Leaves.of_file {d : IECFileDevice σ} (silent : b.listening = false) (calm : b.talking = false)
    (cmd : d.cmd ≠ .exec) (away : d.cmd ≠ .none → d.channel ≠ c) (protocol : d.cmd = .write → d.flProtocol = none) :
    Leaves ops left enabled c { b with device := d } where
  away := by
    unfold disturbs
    dsimp only
    cases task : d.cmd with
    | exec => exact absurd task cmd
    | none => exact id
    | _ => exact away (by rw [task]; exact Cmd.noConfusion)
  silent _ := silent
  talks _ talking := absurd talking (ne_true_of_eq_false calm)
  protocol task := protocol (task.resolve_right cmd)
  command task := absurd task cmd

theorem Watched.receiveEpyxHeader (ops : Device σ) (watched : Watched left c X b) (idle : b.device.cmd = .none)
    (requested : b.device.flProtocol ≠ none) (name : Str) (other : c ≠ 0) :
    let b' := b.receiveEpyxHeader ops name
    Watched left c X b' ∧ Leaves ops left enabled c b' := by
  obtain ⟨silent, calm⟩ := watched.loads requested
  unfold IECBusHandler.receiveEpyxHeader
  dsimp only
  split
  · obtain ⟨opening, channel, cmd, aside⟩ := named ops left (c := c)
      (fun x => decide (x.2 + 1 < name.length)) name.zipIdx
      (d := IECFileDevice.listen { b.device with flProtocol := none } 0xF0) rfl
    generalize name.zipIdx.foldl _ _ = d' at opening channel cmd aside
    have unlistened : d'.unlisten.cmd = .open_ ∧ d'.unlisten.channel = 0 := by
      unfold IECFileDevice.unlisten
      rw [if_neg (by rw [channel, listen_channel]; decide), if_pos opening]
      exact ⟨rfl, channel⟩
    have first : Aside left c b.device d' := by
      have start : Aside left c b.device { b.device with flProtocol := none } := ⟨rfl, rfl⟩
      exact (start.trans (listen_aside left _ _)).trans aside
    have whole := (first.trans (unlisten_aside left d')).pending watched.pending
    refine ⟨⟨fun _ => calm, fun _ => ⟨silent, calm⟩, ⟨whole.short, whole.failed, whole.join⟩, fun _ here => ?_⟩,
      .of_file silent calm ?_ ?_ ?_⟩
    · exact absurd (here.symm.trans unlistened.2) other
    · exact fun exec => Cmd.noConfusion (unlistened.1.symm.trans exec)
    · exact fun _ here => other (here.symm.trans unlistened.2)
    · exact fun write => Cmd.noConfusion (unlistened.1.symm.trans write)
  · exact ⟨watched.of_silent _ calm rfl ⟨rfl, rfl⟩, .idle idle⟩

theorem writeBlock_same (ops : Device σ) (d : IECFileDevice σ) (data : Str) (eoi : Bool) :
    (d.writeBlock ops data eoi).2.cmd = d.cmd ∧ (d.writeBlock ops data eoi).2.flProtocol = d.flProtocol := by
  unfold writeBlock
  split
  · dsimp only
    split
    · exact ⟨emptyWriteBuffer_cmd d, emptyWriteBuffer_flProtocol d⟩
    · simp
  · exact ⟨rfl, rfl⟩

theorem Watched.handleFastLoadProtocols (source : Source ops left) (listed : c < 15) (h : Host)
    (watched : Watched left c X b) (leaves : Leaves ops left enabled c b)
    (idle : b.device.flProtocol ≠ none → b.device.cmd = .none) (named : ∀ name, h = .header name → c ≠ 0)
    (stores : ∀ data eoi, h = .store data eoi → b.device.channel ≠ c)
    (closing : ∀ secondary, h = .finish (some secondary) → secondary.toNat % 16 ≠ c) :
    let r := b.handleFastLoadProtocols ops h
    ∃ X', Watched left c X' r.2 ∧ Leaves ops left enabled c r.2 ∧ Gives c X r.1 X' := by
  unfold IECBusHandler.handleFastLoadProtocols
  split
  · next name requested =>
    have some : b.device.flProtocol ≠ none := by simp [requested]
    obtain ⟨watched', leaves'⟩ := watched.receiveEpyxHeader ops (idle some) some name (named _ rfl)
    exact ⟨X, watched', leaves', .nothing⟩
  · next loader request bufferSize requested =>
    split
    · next loads =>
      have some : b.device.flProtocol ≠ none := by simp [requested]
      have reading : b.device.loading := ⟨loader, request, requested, loads⟩
      -- Epyx talks to channel 0 before every block
      have start : ∀ d, d = b.device ∨ d = b.device.talk 0 → Watched left c X { b with device := d } ∧ d.cmd = .none := by
        rintro d (rfl | rfl)
        · exact ⟨watched, idle some⟩
        · exact ⟨⟨watched.apart, watched.loads, ⟨watched.pending.short, watched.pending.failed, watched.pending.join⟩,
            fun _ _ flag => Bool.noConfusion flag⟩, idle some⟩
      obtain ⟨watched', none⟩ := start (if loader = .epyx then b.device.talk 0 else b.device) (by
        split
        · exact .inr rfl
        · exact .inl rfl)
      have file : (if loader = .epyx then b.device.talk 0 else b.device).cmd ≠ .exec := by
        rw [none]
        exact Cmd.noConfusion
      have still : (if loader = .epyx then b.device.talk 0 else b.device).flProtocol = b.device.flProtocol := by
        split <;> rfl
      generalize (if loader = .epyx then b.device.talk 0 else b.device) = d at watched' none file still
      have last := watched'.ended (.inr ⟨loader, request, still.trans requested, loads⟩)
      obtain ⟨X', reads, join⟩ := readBlock_reads source.toReader listed watched'.pending last bufferSize
      have leaves' : Leaves ops left enabled c { b with device := d } := .idle none
      obtain ⟨watched'', leaves''⟩ := watched'.of_reads leaves'
        { b with device := (d.readBlock ops bufferSize).2 } rfl rfl reads file
      exact ⟨X', watched'', leaves'', .one join trivial⟩
    · exact ⟨X, watched, leaves, .nothing⟩
  · next loader data eoi requested =>
    have some : b.device.flProtocol ≠ none := by simp [requested]
    have aside := writeBlock_aside source b.device (Ne.symm (stores data eoi rfl)) data eoi
    obtain ⟨cmd, flProtocol⟩ := writeBlock_same ops b.device data eoi
    refine ⟨X, ⟨watched.apart, fun _ => watched.loads some, aside.pending watched.pending, fun reading => ?_⟩,
      .idle (cmd.trans (idle some)), .one rfl trivial⟩
    rcases reading with talking | ⟨loader', prot, saves, loads⟩
    · exact absurd talking (ne_true_of_eq_false (watched.loads some).2)
    · rw [flProtocol, requested, Option.some.injEq, Prod.mk.injEq] at saves
      rw [← saves.2] at loads
      rcases loads with load | load <;> cases load
  · next protocol close requested =>
    have some : b.device.flProtocol ≠ none := by simp [requested]
    obtain ⟨silent, calm⟩ := watched.loads some
    cases close with
    | none => exact ⟨X, watched.of_silent _ calm rfl ⟨rfl, rfl⟩, .idle (idle some), .nothing⟩
    | some secondary =>
      have aside := (listen_aside left (c := c) b.device secondary).trans (unlisten_aside left _)
      obtain ⟨other, channel⟩ := closing_cmd (d := b.device) secondary (idle some)
      refine ⟨X, watched.of_silent _ calm rfl ⟨aside.buffer, aside.left⟩, .of_file silent calm other (fun file here => ?_)
        (fun _ => rfl), .nothing⟩
      exact closing secondary rfl ((channel file).symm.trans here)
  · exact ⟨X, watched, leaves, .nothing⟩

/- With nothing requested, the loaders are out of it. -/
theorem handleFastLoadProtocols_none (unrequested : b.device.flProtocol = none) (h : Host) :
    b.handleFastLoadProtocols ops h = (none, b) := by
  unfold IECBusHandler.handleFastLoadProtocols
  rw [unrequested]

theorem handleFastLoadProtocols_listening (ops : Device σ) (h : Host) :
    (b.handleFastLoadProtocols ops h).2.listening = b.listening := by
  unfold IECBusHandler.handleFastLoadProtocols
  split
  · unfold IECBusHandler.receiveEpyxHeader
    dsimp only
    split <;> rfl
  · split <;> rfl
  · rfl
  · rfl
  · rfl

/- Which part of the pass replies is up to the host. -/

theorem handleFastLoadProtocols_reply (ops : Device σ) (h : Host)
    (replies : (b.handleFastLoadProtocols ops h).1 ≠ none) :
    (∃ n, h = .fetch n) ∨ ∃ data eoi, h = .store data eoi := by
  unfold IECBusHandler.handleFastLoadProtocols at replies
  split at replies
  · exact absurd rfl replies
  · exact .inl ⟨_, rfl⟩
  · exact .inr ⟨_, _, rfl⟩
  · exact absurd rfl replies
  · exact absurd rfl replies

theorem receive_reply (ops : Device σ) (h : Host) : (b.receive ops h).1 = none ∨
    (∃ data eoi, h = .offer data eoi) ∧ ((b.receive ops h).1 = some .taken ∨ (b.receive ops h).1 = some .refused) := by
  unfold IECBusHandler.receive
  split
  · dsimp only
    split
    · split
      · exact .inr ⟨⟨_, _, rfl⟩, .inl rfl⟩
      · exact .inr ⟨⟨_, _, rfl⟩, .inr rfl⟩
    · exact .inl rfl
  · exact .inl rfl

theorem transmit_reply (ops : Device σ) (enabled : FastLoader → Bool) (m_bufferSize : Nat) (h : Host)
    (other : ∀ acknowledged, h ≠ .accept acknowledged) :
    (b.transmit ops enabled m_bufferSize h).1 = none := by
  unfold IECBusHandler.transmit
  split
  · split
    · split
      · exact absurd rfl (other _)
      · rfl
    · dsimp only
      split
      · exact absurd rfl (other _)
      · rfl
  · rfl

/-- A pass that leaves the channel open gives its next bytes or none of them, and tells which is the last. -/
theorem Watched.pass (m_bufferSize : Nat) (source : Source ops left) (listed : c < 15) (h : Host)
    (watched : Watched left c X b) (idle : b.device.cmd = .none) (away : ¬ b.Disturbs ops left enabled c h) :
    let r := b.pass ops enabled m_bufferSize h
    ∃ X', Watched left c X' r.2 ∧ r.2.device.cmd = .none ∧ Gives c X r.1 X' := by
  have other : h ≠ .reset := fun reset => away (by rw [reset]; exact .inr trivial)
  have free : ¬ (b.attend ops enabled h).Collecting c := fun wrong => away (.inl wrong)
  have attended : Watched left c X (b.attend ops enabled h) ∧ Leaves ops left enabled c (b.attend ops enabled h) ∧
      ((b.attend ops enabled h).device.flProtocol ≠ none → (b.attend ops enabled h).device.cmd = .none) := by
    unfold IECBusHandler.attend at free ⊢
    by_cases attention : (isATN h && !b.clocked) = true
    · rw [if_pos attention] at free ⊢
      rw [Bool.and_eq_true, Bool.not_eq_true'] at attention
      have still : ¬ (b.atnRequest.handleATNSequence h).device.disturbs ops left enabled c := fun wrong => by
        cases h with
        | listen _ | talk _ _ | unlisten | untalk | elsewhere _ => exact away (.inr ⟨attention.1, attention.2, wrong⟩)
        | _ => exact Bool.noConfusion attention.1
      exact watched.atnRequest.handleATNSequence source listed idle rfl still free
    · rw [if_neg attention]
      exact ⟨watched, .idle idle, fun _ => idle⟩
  have stores : ∀ data eoi, h = .store data eoi → (b.attend ops enabled h).device.channel ≠ c := by
    rintro data eoi rfl here
    exact away (.inr here)
  unfold IECBusHandler.pass
  rw [if_neg other]
  obtain ⟨watched₁, leaves₁, idle₁⟩ := attended
  obtain ⟨X₂, watched₂, leaves₂, gives₂⟩ := watched₁.handleFastLoadProtocols source listed h leaves₁ idle₁
    (fun name header zero => away (.inr (by rw [header]; exact zero))) stores
    (fun secondary finish here => away (.inr (by rw [finish]; exact here)))
  have free₂ : ¬ ((b.attend ops enabled h).handleFastLoadProtocols ops h).2.Collecting c := fun wrong => by
    by_cases unrequested : (b.attend ops enabled h).device.flProtocol = none
    · rw [handleFastLoadProtocols_none unrequested] at wrong
      exact free wrong
    · have silent := (watched₁.loads unrequested).1
      rw [← handleFastLoadProtocols_listening ops h] at silent
      exact absurd wrong.1 (ne_true_of_eq_false silent)
  obtain ⟨watched₃, leaves₃⟩ := watched₂.receive source h leaves₂ free₂
  obtain ⟨X₄, watched₄, leaves₄, gives₄⟩ := watched₃.transmit m_bufferSize source listed h leaves₃
  obtain ⟨watched₅, idle₅⟩ := watched₄.fileTask source listed leaves₄
  refine ⟨X₄, watched₅, idle₅, ?_⟩
  dsimp only
  generalize b.attend ops enabled h = b₁ at *
  have loads := handleFastLoadProtocols_reply ops (b := b₁) h
  generalize b₁.handleFastLoadProtocols ops h = r₂ at *
  have receives := receive_reply ops (b := r₂.2) h
  generalize r₂.2.receive ops h = r₃ at *
  have transmits := transmit_reply ops enabled m_bufferSize (b := r₃.2) h
  generalize r₃.2.transmit ops enabled m_bufferSize h = r₄ at *
  have gives₃ : Gives c X₂ r₃.1 X₂ := by
    rcases receives with none | ⟨-, taken | refused⟩
    · rw [none]
      exact .nothing
    · rw [taken]
      exact .one rfl trivial
    · rw [refused]
      exact .one rfl trivial
  have received : r₃.1 = none ∨ r₄.1 = none := by
    rcases receives with none | ⟨⟨data, eoi, offer⟩, -⟩
    · exact .inl none
    · exact .inr (transmits fun _ accept => Host.noConfusion (offer.symm.trans accept))
  have loaded : r₂.1 = none ∨ r₃.1.or r₄.1 = none := by
    by_contra both
    rw [not_or] at both
    have silent : (∀ data eoi, h ≠ .offer data eoi) ∧ ∀ acknowledged, h ≠ .accept acknowledged := by
      rcases loads both.1 with ⟨n, fetch⟩ | ⟨data, eoi, store⟩
      · exact ⟨fun _ _ offer => Host.noConfusion (fetch.symm.trans offer),
          fun _ accept => Host.noConfusion (fetch.symm.trans accept)⟩
      · exact ⟨fun _ _ offer => Host.noConfusion (store.symm.trans offer),
          fun _ accept => Host.noConfusion (store.symm.trans accept)⟩
    rw [transmits silent.2, Option.or_none] at both
    exact both.2 (receives.resolve_right fun taken => by
      obtain ⟨⟨data, eoi, offer⟩, -⟩ := taken
      exact silent.1 data eoi offer)
  exact gives₂.next (gives₃.next gives₄ received) loaded

/-- What a run has given of a channel. -/
def given (c : Nat) (replies : List Reply) : Str := replies.flatMap (Reply.given c)

theorem given_append (c : Nat) (reply : Option Reply) (replies : List Reply) :
    given c (reply.toList ++ replies) = reply.elim [] (Reply.given c) ++ given c replies := by
  cases reply <;> simp [given]

theorem Watched.run (m_bufferSize : Nat) (source : Source ops left) (listed : c < 15) (hs : List Host)
    (watched : Watched left c X b) (idle : b.device.cmd = .none)
    (away : Along (fun b h => (b.pass ops enabled m_bufferSize h).2)
      (fun b h => ¬ b.Disturbs ops left enabled c h) b hs) :
    let r := b.run ops enabled m_bufferSize hs
    ∃ X', Watched left c X' r.2 ∧ r.2.device.cmd = .none ∧ X = given c r.1 ++ X' := by
  induction hs generalizing b X with
  | nil => exact ⟨X, watched, idle, rfl⟩
  | cons h hs ih =>
    obtain ⟨X₁, watched', idle', gives⟩ := watched.pass m_bufferSize source listed h idle away.1
    obtain ⟨X', watched'', idle'', rest⟩ := ih watched' idle' away.2
    refine ⟨X', watched'', idle'', ?_⟩
    rw [gives.join, rest, ← List.append_assoc, ← given_append]
    rfl

end IECBusHandler

end Meatloaf.Bus
