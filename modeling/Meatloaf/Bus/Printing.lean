import Meatloaf.Bus.Listening

/-! What a host prints on a channel. The device collects the bytes that it has acknowledged and hands them on
to its class in pieces; one that the class does not take whole stays in front of the next. -/
namespace Meatloaf.Bus

open Lib

variable {σ : Type} {ops : Device σ} {enabled : FastLoader → Bool} {m_bufferSize : Nat} {c : Nat}

/-- Pieces that a class is handed on a channel: what it takes of them, and how it is left. -/
def hand (ops : Device σ) (c : Nat) : List (Str × Bool) → σ → Str × σ
  | [], s => ([], s)
  | p :: ps, s =>
    let r := ops.write c p.1 p.2 s
    let rest := hand ops c ps r.2.2
    (p.1.take r.1 ++ rest.1, rest.2)

theorem hand_append (ps qs : List (Str × Bool)) (s : σ) : hand ops c (ps ++ qs) s =
    ((hand ops c ps s).1 ++ (hand ops c qs (hand ops c ps s).2).1, (hand ops c qs (hand ops c ps s).2).2) := by
  induction ps generalizing s with
  | nil => rfl
  | cons p ps ih => simp [hand, ih]

/-- A class that takes whatever it is handed on a channel, from these states on. -/
structure Greedy (ops : Device σ) (c : Nat) (ready : σ → Prop) : Prop where
  all : ∀ {s} data eoi, ready s → data.length ≤ (ops.write c data eoi s).1
  stays : ∀ {s} data eoi, ready s → ready (ops.write c data eoi s).2.2

theorem Greedy.hand {ready : σ → Prop} (greedy : Greedy ops c ready) (ps : List (Str × Bool)) {s : σ}
    (start : ready s) :
    (hand ops c ps s).1 = ps.flatMap Prod.fst ∧ ready (Bus.hand ops c ps s).2 := by
  induction ps generalizing s with
  | nil => exact ⟨rfl, start⟩
  | cons p ps ih =>
    obtain ⟨rest, stays⟩ := ih (greedy.stays p.1 p.2 start)
    refine ⟨?_, stays⟩
    rw [Bus.hand, List.flatMap_cons, ← rest]
    dsimp only
    rw [List.take_of_length_le (greedy.all _ _ start)]

/- A piece is not empty and fits the buffer. -/
def Pieces (ps : List (Str × Bool)) : Prop := ∀ p ∈ ps, p.1 ≠ [] ∧ p.1.length ≤ 254

namespace IECFileDevice

variable {d : IECFileDevice σ}

theorem moved_written (buffer : Nat → UInt8) (length n : Nat) :
    Store.read (moved buffer length n) 0 (length - n) = (Store.read buffer 0 length).drop n := by
  by_cases short : n ≤ length
  · rw [Store.drop_read _ _ _ _ short]
    refine List.map_congr_left fun i hi => ?_
    have inside := List.mem_range.mp hi
    rw [moved, if_pos (by omega), Nat.zero_add, Nat.zero_add, Nat.add_comm]
  · rw [Nat.sub_eq_zero_of_le (by omega), List.drop_eq_nil_of_le (by simp; omega), Store.read_zero]

/-- The buffer is handed on, and what the class does not take of it stays. -/
theorem emptyWriteBuffer_spec (ops : Device σ) (some : d.writeBufferLen ≠ 0) :
    let r := ops.write d.channel d.written d.eoi d.state
    let d' := d.emptyWriteBuffer ops
    d'.state = r.2.2 ∧ d'.written = d.written.drop r.1 ∧ d'.writeBufferLen = d.writeBufferLen - r.1 ∧
      d'.opening = d.opening ∧ d'.readBuffer = d.readBuffer ∧ d'.ar6detect = d.ar6detect := by
  unfold emptyWriteBuffer
  rw [if_neg some]
  dsimp only
  generalize ops.write d.channel d.written d.eoi d.state = r
  have buffer : (answered { d with state := r.2.2 } r.2.1).writeBuffer = d.writeBuffer := by
    cases r.2.1 <;> rfl
  have length : (answered { d with state := r.2.2 } r.2.1).writeBufferLen = d.writeBufferLen := by
    cases r.2.1 <;> rfl
  have ar6detect : (answered { d with state := r.2.2 } r.2.1).ar6detect = d.ar6detect := by
    cases r.2.1 <;> rfl
  rw [length]
  split
  · refine ⟨by simp, ?_, rfl, by simp, by simp, ar6detect⟩
    unfold written
    dsimp only
    rw [buffer]
    exact moved_written _ _ _
  · next all =>
    have none : d.writeBufferLen - r.1 = 0 := by omega
    refine ⟨by simp, ?_, none.symm, by simp, by simp, ar6detect⟩
    rw [List.drop_eq_nil_of_le (by rw [length_written]; omega)]
    rfl

/-- The device collects data for a channel: what was accepted is what the class took, and then the buffer. -/
structure Collects (ops : Device σ) (c : Nat) (s₀ : σ) (d : IECFileDevice σ) (accepted : Str) : Prop where
  channel : d.channel = c
  closed : d.opening = false
  opened : d.readBuffer c ≠ none
  room : d.writeBufferLen ≤ 254
  handed : ∃ ps, Pieces ps ∧ accepted = (hand ops c ps s₀).1 ++ d.written ∧ d.state = (hand ops c ps s₀).2

variable {s₀ : σ} {accepted : Str}

theorem Collects.emptied (collects : Collects ops c s₀ d accepted) :
    Collects ops c s₀ (d.emptyWriteBuffer ops) accepted := by
  by_cases none : d.writeBufferLen = 0
  · rw [emptyWriteBuffer, if_pos none]
    exact collects
  · obtain ⟨state, written, length, opening, readBuffer, -⟩ := emptyWriteBuffer_spec ops none
    obtain ⟨ps, pieces, join, before⟩ := collects.handed
    rw [collects.channel, before] at state written
    rw [before, collects.channel] at length
    refine ⟨by simpa using collects.channel, opening.trans collects.closed, readBuffer ▸ collects.opened, ?_,
      ps ++ [(d.written, d.eoi)], ?_, ?_, ?_⟩
    · have room := collects.room
      omega
    · refine List.forall_mem_append.mpr ⟨pieces, List.forall_mem_singleton.mpr ⟨fun empty => none ?_, ?_⟩⟩
      · rw [← length_written]
        exact congrArg List.length empty
      · rw [length_written]
        exact collects.room
    · rw [join, hand_append, written]
      simp [hand]
    · rw [state, hand_append]
      rfl

/- A buffer that is full is emptied first. -/
theorem Collects.canWrite (collects : Collects ops c s₀ d accepted) (listed : c < 15) :
    ∃ d', d.canWrite ops = (decide (d'.writeBufferLen < 254), d') ∧
      (d.writeBufferLen = 254 ∧ d' = d.emptyWriteBuffer ops ∨ d.writeBufferLen < 254 ∧ d' = d) := by
  have ready : ¬ (15 < d.channel ∨ d.readBuffer d.channel = none) := by
    rw [collects.channel]
    exact fun wrong => wrong.elim (by omega) collects.opened
  have file : ¬ (d.channel = 15 ∨ d.opening = true) := by
    rw [collects.channel, collects.closed]
    exact fun wrong => wrong.elim (by omega) Bool.false_ne_true
  rw [IECFileDevice.canWrite, if_neg file, if_neg ready]
  refine ⟨_, rfl, ?_⟩
  have room := collects.room
  by_cases full : d.writeBufferLen = IECFILEDEVICE_WRITE_BUFFER_SIZE - 1
  · rw [if_pos full]
    exact .inl ⟨full, rfl⟩
  · rw [if_neg full]
    have full : d.writeBufferLen ≠ 254 := full
    exact .inr ⟨by omega, rfl⟩

theorem Collects.asked (collects : Collects ops c s₀ d accepted) (listed : c < 15) :
    Collects ops c s₀ (d.canWrite ops).2 accepted ∧
      ((d.canWrite ops).1 = true ↔ (d.canWrite ops).2.writeBufferLen < 254) := by
  obtain ⟨d', same, ⟨-, rfl⟩ | ⟨-, rfl⟩⟩ := collects.canWrite listed
  · rw [same]
    exact ⟨collects.emptied, decide_eq_true_iff⟩
  · rw [same]
    exact ⟨collects, decide_eq_true_iff⟩

theorem Collects.taken (collects : Collects ops c s₀ d accepted) (room : d.writeBufferLen < 254) (x : UInt8)
    (eoi : Bool) :
    Collects ops c s₀ (d.write x eoi) (accepted ++ [x]) := by
  obtain ⟨written, room', state, readBuffer, -⟩ := write_written collects.room x eoi
  have typed := write_typed d x eoi
  obtain ⟨ps, pieces, join, before⟩ := collects.handed
  refine ⟨typed.channel.trans collects.channel, typed.opening.trans collects.closed, readBuffer ▸ collects.opened, room',
    ps, pieces, ?_, state.trans before⟩
  rw [written, List.take_of_length_le (by rw [List.length_append, length_written]; simp; omega), join, List.append_assoc]

/- A class that takes everything leaves nothing in the buffer, so there is room. -/
theorem Collects.accepts (collects : Collects ops c s₀ d accepted) (listed : c < 15) {ready : σ → Prop}
    (greedy : Greedy ops c ready) (start : ready s₀) :
    (d.emptyWriteBuffer ops).writeBufferLen = 0 ∧ (d.canWrite ops).1 = true := by
  have emptied : (d.emptyWriteBuffer ops).writeBufferLen = 0 := by
    by_cases none : d.writeBufferLen = 0
    · rw [emptyWriteBuffer, if_pos none]
      exact none
    · obtain ⟨-, -, length, -⟩ := emptyWriteBuffer_spec ops none
      obtain ⟨ps, -, -, before⟩ := collects.handed
      have now : ready d.state := before ▸ (greedy.hand ps start).2
      have all := greedy.all d.written d.eoi now
      rw [length_written, ← collects.channel] at all
      omega
  refine ⟨emptied, (collects.asked listed).2.mpr ?_⟩
  obtain ⟨d', same, ⟨-, rfl⟩ | ⟨short, rfl⟩⟩ := collects.canWrite listed
  · rw [same]
    dsimp only
    omega
  · rw [same]
    exact short

/-- Data that is left at the end is handed on once more; what the class does not take then is lost. -/
theorem Collects.flushed (collects : Collects ops c s₀ d accepted) :
    ∃ ps lost, Pieces ps ∧ accepted = (hand ops c ps s₀).1 ++ lost ∧ (d.flushed ops).state = (hand ops c ps s₀).2 ∧
      lost.length ≤ 254 ∧ ((d.emptyWriteBuffer ops).writeBufferLen = 0 → lost = []) := by
  have emptied := collects.emptied
  obtain ⟨ps, pieces, join, state⟩ := emptied.handed
  refine ⟨ps, (d.emptyWriteBuffer ops).written, pieces, join, state, ?_, fun none => ?_⟩
  · rw [length_written]
    exact emptied.room
  · exact List.eq_nil_of_length_eq_zero ((length_written _).trans none)

end IECFileDevice

open IECFileDevice

namespace IECBusHandler

variable {b : IECBusHandler σ} {s₀ : σ}

def acknowledgement : Host → Option Reply → Str
  | .offer x _, some .taken => [x]
  | _, _ => []

/-- The bytes that the host sees acknowledged. -/
def acknowledged (ops : Device σ) (enabled : FastLoader → Bool) (m_bufferSize : Nat) :
    IECBusHandler σ → List Host → Str
  | _, [] => []
  | b, h :: hs =>
    let r := b.pass ops enabled m_bufferSize h
    acknowledgement h r.1 ++ acknowledged ops enabled m_bufferSize r.2 hs

/-- The device takes data, or has refused it. -/
structure Prints (ops : Device σ) (c : Nat) (s₀ : σ) (b : IECBusHandler σ) (accepted : Str) : Prop where
  listening : b.listening = true
  calm : b.talking = false
  idle : b.device.cmd = .none
  unrequested : b.device.flProtocol = none
  collects : Collects ops c s₀ b.device accepted

theorem Prints.listens {accepted : Str} (prints : Prints ops c s₀ b accepted) (done : b.done = false) : Listens b :=
  ⟨prints.listening, prints.calm, done, prints.idle, prints.unrequested⟩

/- A device that has refused a byte waits for the host to give up. -/
theorem Prints.refused {accepted : Str} (prints : Prints ops c s₀ b accepted) (done : b.done = true) (h : Host)
    (other : h ≠ .reset) (attention : isATN h = false) : b.pass ops enabled m_bufferSize h = (none, b) := by
  have attended : b.attend ops enabled h = b := by
    unfold attend
    rw [attention]
    rfl
  have received : b.receive ops h = (none, b) := by
    unfold receive
    rw [done, prints.listening]
    rfl
  unfold pass
  rw [if_neg other, attended, handleFastLoadProtocols_none prints.unrequested]
  dsimp only
  rw [received]
  dsimp only
  rw [transmit_calm prints.calm]
  dsimp only
  rw [fileTask_idle prints.idle]
  rfl

/- A pass: the buffer is handed on where it is full, and a byte is taken where there is room. -/
theorem Prints.send (enabled : FastLoader → Bool) (m_bufferSize : Nat) {accepted : Str}
    (prints : Prints ops c s₀ b accepted) (listed : c < 15) {h : Host}
    (sends : h = .idle ∨ ∃ x eoi, h = .offer x eoi) :
    let r := b.pass ops enabled m_bufferSize h
    Prints ops c s₀ r.2 (accepted ++ acknowledgement h r.1) ∧ r.2.device.ar6detect = b.device.ar6detect ∧
      r.2.device.readBuffer = b.device.readBuffer := by
  by_cases done : b.done = true
  · have still : b.pass ops enabled m_bufferSize h = (none, b) := by
      rcases sends with rfl | ⟨x, eoi, rfl⟩
      · exact prints.refused done .idle Host.noConfusion rfl
      · exact prints.refused done _ Host.noConfusion rfl
    have nothing : acknowledgement h none = [] := by cases h <;> rfl
    rw [still]
    dsimp only
    rw [nothing, List.append_nil]
    exact ⟨prints, rfl, rfl⟩
  · have listens := prints.listens (Bool.eq_false_of_not_eq_true done)
    obtain ⟨collects, room⟩ := prints.collects.asked listed
    have idle := (canWrite_cmd b.device ops).trans prints.idle
    have unrequested := (canWrite_flProtocol b.device ops).trans prints.unrequested
    have kept : (b.device.canWrite ops).2.ar6detect = b.device.ar6detect ∧
        (b.device.canWrite ops).2.readBuffer = b.device.readBuffer := by
      obtain ⟨d', same, ⟨full, rfl⟩ | ⟨-, rfl⟩⟩ := prints.collects.canWrite listed
      · obtain ⟨-, -, -, -, readBuffer, ar6detect⟩ := emptyWriteBuffer_spec ops (d := b.device) (by omega)
        rw [same]
        exact ⟨ar6detect, readBuffer⟩
      · rw [same]
        exact ⟨rfl, rfl⟩
    have waits : ∀ done, Prints ops c s₀ ({ b with device := (b.device.canWrite ops).2, done := done }) accepted :=
      fun _ => ⟨prints.listening, prints.calm, idle, unrequested, collects⟩
    rcases sends with rfl | ⟨x, eoi, rfl⟩
    · rw [listens.wait]
      dsimp only [acknowledgement]
      rw [List.append_nil]
      exact ⟨waits b.done, kept⟩
    · rw [listens.offer]
      split
      · next ready =>
        have typed := write_typed (b.device.canWrite ops).2 x eoi
        exact ⟨⟨prints.listening, prints.calm, typed.cmd.trans idle, typed.flProtocol.trans unrequested,
          collects.taken (room.mp ready) x eoi⟩, typed.ar6detect.trans kept.1, typed.readBuffer.trans kept.2⟩
      · dsimp only [acknowledgement]
        rw [List.append_nil]
        exact ⟨waits true, kept⟩

/- A class that takes everything refuses nothing. -/
theorem Prints.send_all (enabled : FastLoader → Bool) (m_bufferSize : Nat) {accepted : Str}
    (prints : Prints ops c s₀ b accepted) (listed : c < 15) {ready : σ → Prop}
    (greedy : Greedy ops c ready) (start : ready s₀) (open_ : b.done = false) {h : Host}
    (sends : h = .idle ∨ ∃ x eoi, h = .offer x eoi) :
    let r := b.pass ops enabled m_bufferSize h
    r.2.done = false ∧ acknowledgement h r.1 = offered [h] := by
  have listens := prints.listens open_
  have accepts := (prints.collects.accepts listed greedy start).2
  rcases sends with rfl | ⟨x, eoi, rfl⟩
  · rw [listens.wait]
    exact ⟨open_, rfl⟩
  · rw [listens.offer, accepts, if_pos rfl]
    exact ⟨open_, rfl⟩

theorem offered_cons (h : Host) (ms : List Host) : offered (h :: ms) = offered [h] ++ offered ms := by
  cases h <;> rfl

theorem Prints.run (enabled : FastLoader → Bool) (m_bufferSize : Nat) {accepted : Str}
    (prints : Prints ops c s₀ b accepted) (listed : c < 15) {ms : List Host}
    (sends : Sends ms) :
    let b' := (b.run ops enabled m_bufferSize ms).2
    Prints ops c s₀ b' (accepted ++ b.acknowledged ops enabled m_bufferSize ms) ∧
      b'.device.ar6detect = b.device.ar6detect ∧ b'.device.readBuffer = b.device.readBuffer ∧
      ∀ ready : σ → Prop, Greedy ops c ready → ready s₀ → b.done = false →
        b'.done = false ∧ b.acknowledged ops enabled m_bufferSize ms = offered ms := by
  induction ms generalizing b accepted with
  | nil =>
    rw [acknowledged, List.append_nil]
    exact ⟨prints, rfl, rfl, fun _ _ _ open_ => ⟨open_, rfl⟩⟩
  | cons h ms ih =>
    obtain ⟨first, rest⟩ := List.forall_mem_cons.mp sends
    obtain ⟨next, same, buffer⟩ := prints.send enabled m_bufferSize listed first
    obtain ⟨final, still, buffer', all⟩ := ih next rest
    rw [acknowledged, ← List.append_assoc]
    refine ⟨final, still.trans same, buffer'.trans buffer, fun ready greedy start open_ => ?_⟩
    obtain ⟨open', whole⟩ := prints.send_all enabled m_bufferSize listed greedy start
      open_ first
    obtain ⟨open'', rest'⟩ := all ready greedy start open'
    refine ⟨open'', ?_⟩
    rw [whole, rest', ← offered_cons]

theorem listen_data (listed : c < 15) (d : IECFileDevice σ) :
    d.listen (DATA c) = { d with channel := c, eoi := false } := by
  obtain ⟨low, high⟩ : (DATA c).toNat % 16 = c ∧ (DATA c).toNat / 16 = 6 :=
    address_channel 6 (by omega) (by omega)
  unfold IECFileDevice.listen
  rw [low, high]
  dsimp only
  rw [if_neg (Nat.ne_of_lt listed), if_neg (by omega), if_neg (by omega)]

theorem flushed_same (ops : Device σ) (d : IECFileDevice σ) : (d.flushed ops).opening = d.opening ∧
    (d.flushed ops).readBuffer = d.readBuffer ∧ (d.flushed ops).flProtocol = d.flProtocol := by
  by_cases none : d.writeBufferLen = 0
  · simp [flushed, emptyWriteBuffer, none]
  · obtain ⟨-, -, -, opening, readBuffer, -⟩ := emptyWriteBuffer_spec ops none
    exact ⟨opening, readBuffer, flushed_flProtocol d⟩

/- The two bytes of Action Replay are dropped, -/
theorem detectAR6_drops (d : IECFileDevice σ) (write : d.cmd = .write) (found : d.ar6detect = 2 ∧ d.written = [0, 1]) :
    d.detectAR6 = { d with writeBufferLen := 0, cmd := .none, ar6detect := 0 } := by
  unfold detectAR6
  rw [write, found.1, found.2]
  simp

/- and nothing else. -/
theorem detectAR6_keeps (d : IECFileDevice σ) (other : ¬ (d.ar6detect = 2 ∧ d.written = [0, 1])) :
    ∃ ar6detect, d.detectAR6 = { d with ar6detect := ar6detect } := by
  unfold detectAR6
  split
  · exact ⟨d.ar6detect, rfl⟩
  · split
    · exact ⟨1, rfl⟩
    · split
      · exact ⟨2, rfl⟩
      · split
        · next found => exact absurd ⟨found.1, found.2.2⟩ other
        · exact ⟨0, rfl⟩

/- The end of a print. -/
theorem Prints.ended (ops : Device σ) (enabled : FastLoader → Bool) {accepted : Str} {d : IECFileDevice σ}
    (collects : Collects ops c s₀ d accepted) (listed : c < 15)
    (idle : d.cmd = .none) (unrequested : d.flProtocol = none) :
    let d' := d.unlisten.fileTask ops enabled
    d'.flProtocol = none ∧ d'.writeBufferLen = 0 ∧ d'.opening = false ∧ d'.readBuffer = d.readBuffer ∧
      ∃ ps lost, Pieces ps ∧ accepted = (hand ops c ps s₀).1 ++ lost ∧ lost.length ≤ 254 ∧
        d'.state = (hand ops c ps s₀).2 ∧ ∀ ready : σ → Prop, Greedy ops c ready → ready s₀ → lost ≠ [] →
          d.ar6detect = 2 ∧ lost = [0, 1] := by
  have file : d.unlisten = if 0 < d.writeBufferLen then { d with cmd := .write } else d := by
    have named : ¬ d.channel = 15 := by
      rw [collects.channel]
      omega
    rw [IECFileDevice.unlisten, if_neg named, if_neg (ne_true_of_eq_false collects.closed)]
  obtain ⟨ps, pieces, join, state⟩ := collects.handed
  by_cases some : 0 < d.writeBufferLen
  · rw [file, if_pos some]
    by_cases found : d.ar6detect = 2 ∧ d.written = [0, 1]
    · have dropped := detectAR6_drops { d with cmd := .write } rfl found
      rw [fileTask, dropped]
      refine ⟨unrequested, rfl, collects.closed, rfl, ps, d.written, pieces, join, ?_, state, fun _ _ _ _ => found⟩
      rw [length_written]
      exact collects.room
    · obtain ⟨ar6detect, kept⟩ := detectAR6_keeps { d with cmd := .write } found
      have same : Collects ops c s₀ { d with cmd := .write, ar6detect := ar6detect } accepted :=
        ⟨collects.channel, collects.closed, collects.opened, collects.room, ps, pieces, join, state⟩
      obtain ⟨opening, readBuffer, flProtocol⟩ := flushed_same ops { d with cmd := .write, ar6detect := ar6detect }
      obtain ⟨ps', lost, pieces', join', state', short, all⟩ := same.flushed
      have task : IECFileDevice.fileCommand ops enabled { d with cmd := .write, ar6detect := ar6detect } =
        IECFileDevice.flushed ops { d with cmd := .write, ar6detect := ar6detect } := rfl
      rw [fileTask, kept]
      dsimp only
      rw [task]
      refine ⟨flProtocol.trans unrequested, rfl, opening.trans collects.closed, readBuffer, ps', lost, pieces', join', short,
        state', fun ready greedy start more => ?_⟩
      exact absurd (all (same.accepts listed greedy start).1) more
  · rw [file, if_neg some, fileTask_idle idle]
    have none : d.written = [] := List.eq_nil_of_length_eq_zero ((length_written d).trans (Nat.eq_zero_of_not_pos some))
    refine ⟨unrequested, Nat.eq_zero_of_not_pos some, collects.closed, rfl, ps, [], pieces, ?_, Nat.zero_le _, state,
      fun _ _ _ more => absurd rfl more⟩
    rw [join, none]

/-- A whole print: whatever the class takes of it, the bytes that the host saw acknowledged reach the class once and
in order, in pieces of at most 254; a rest of at most 254 that the class does not take at the end
is lost. A class that takes what it is handed gets all that was offered, but for a 0 and a 1 that are left at the
end where Action Replay was noticed. -/
theorem printed_handed (rests : Rests b) (listed : c < 15) (opened : b.device.readBuffer c ≠ none) {ms : List Host}
    (sends : Sends ms) :
    let r := b.run ops enabled m_bufferSize (.listen (DATA c) :: (ms ++ [.unlisten]))
    let b₁ := (b.pass ops enabled m_bufferSize (.listen (DATA c))).2
    let accepted := b₁.acknowledged ops enabled m_bufferSize ms
    Rests r.2 ∧ r.2.device.readBuffer = b.device.readBuffer ∧
      ∃ ps lost, Pieces ps ∧ accepted = (hand ops c ps b.device.state).1 ++ lost ∧ lost.length ≤ 254 ∧
        r.2.device.state = (hand ops c ps b.device.state).2 ∧
        ∀ ready : σ → Prop, Greedy ops c ready → ready b.device.state → accepted = offered ms ∧
          (lost ≠ [] → b.device.ar6detect = 2 ∧ lost = [0, 1]) := by
  have begun := rests.listen ops enabled m_bufferSize
    (listen_data listed { b.device with flProtocol := none }) rests.idle rests.empty
  have asked : (IECFileDevice.canWrite ops { b.device with flProtocol := none, channel := c, eoi := false }).1 = true :=
    (canWrite_short (d := { b.device with flProtocol := none, channel := c, eoi := false })
      (by have empty := rests.empty; dsimp only; omega)).2.mpr (.inr (.inr ⟨listed, opened⟩))
  rw [asked] at begun
  rw [run, begun]
  dsimp only
  have prints : Prints ops c b.device.state ({ b with
      listening := true, talking := false, jiffyBlock := false, done := !true
      device := { b.device with flProtocol := none, channel := c, eoi := false } }) [] := by
    refine ⟨rfl, rfl, rests.idle, rfl, rfl, rests.closed, opened, Nat.le_trans (Nat.le_of_eq rests.empty) (Nat.zero_le _),
      [], fun _ member => absurd member List.not_mem_nil, ?_, rfl⟩
    have written : IECFileDevice.written { b.device with flProtocol := none, channel := c, eoi := false } = [] :=
      List.eq_nil_of_length_eq_zero ((length_written _).trans rests.empty)
    rw [written]
    rfl
  generalize start : ({ b with
      listening := true, talking := false, jiffyBlock := false, done := !true
      device := { b.device with flProtocol := none, channel := c, eoi := false } } : IECBusHandler σ) = b₁ at prints
  have opens : b₁.done = false := by rw [← start]; rfl
  have ar6detect : b₁.device.ar6detect = b.device.ar6detect := by rw [← start]
  have buffers : b₁.device.readBuffer = b.device.readBuffer := by rw [← start]
  rw [run_append]
  dsimp only
  obtain ⟨final, detected, kept, all⟩ := prints.run enabled m_bufferSize listed sends
  rw [List.nil_append] at final
  generalize b₁.acknowledged ops enabled m_bufferSize ms = accepted at final all
  generalize (b₁.run ops enabled m_bufferSize ms).2 = b₂ at final detected kept all
  have ended := unlisten_pass ops enabled m_bufferSize final.listening final.calm
    final.unrequested
  rw [run, ended]
  obtain ⟨flProtocol, empty, opening, readBuffer, ps, lost, pieces, join, short, state, dropped⟩ :=
    Prints.ended ops enabled final.collects listed final.idle final.unrequested
  refine ⟨⟨rfl, ?_, empty, opening⟩, readBuffer.trans (kept.trans buffers), ps, lost, pieces, join, short, state,
    fun ready greedy start => ⟨(all ready greedy start opens).2, fun more => ?_⟩⟩
  · unfold clocked
    dsimp only [run]
    rw [flProtocol]
    rfl
  · obtain ⟨found, two⟩ := dropped ready greedy start more
    exact ⟨ar6detect ▸ detected ▸ found, two⟩

end IECBusHandler

end Meatloaf.Bus
