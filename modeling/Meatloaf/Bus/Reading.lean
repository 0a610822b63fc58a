import Meatloaf.Bus.Handler
import Meatloaf.Lib.Deliver
import Meatloaf.Lib.Run

/-! What the host reads of a channel. The device reads two bytes ahead, so that it knows the last one when
it sends it, and blocks go past that buffer; the host gets every byte once, whatever else it does. -/
namespace Meatloaf.Bus

open Lib

variable {σ : Type} {ops : Device σ} {enabled : FastLoader → Bool} {m_bufferSize : Nat} {left : σ → Nat → Option Str}
  {c : Nat}

/-- A class whose channels stand for the bytes they have left, as far as they do: a read takes the next of
them, and sets the EOI flag only behind the last. -/
structure Reader (ops : Device σ) (left : σ → Nat → Option Str) : Prop where
  read : ∀ {c n s l}, c < 15 → 0 < n → left s c = some l → ∃ l', Takes n (ops.read c n s).1.1 l l' ∧
    left (ops.read c n s).2.2 c = some l' ∧ ((ops.read c n s).1.2 = true → l' = [])
  read_others : ∀ {c c' n s}, c' ≠ c → left (ops.read c n s).2.2 c' = left s c'
  status : ∀ {c n s}, left (ops.getStatusData n s).2 c = left s c

/-- What is done on one channel leaves the others alone, and a channel that could not be opened has nothing. -/
structure Source (ops : Device σ) (left : σ → Nat → Option Str) : Prop extends Reader ops left where
  write_others : ∀ {c c' data eoi s}, c' ≠ c → left (ops.write c data eoi s).2.2 c' = left s c'
  open_others : ∀ {c c' name s}, c' ≠ c → left (ops.open_ c name s).2.2 c' = left s c'
  open_failed : ∀ {c name s}, (ops.open_ c name s).1 = false → left (ops.open_ c name s).2.2 c = some []
  close_others : ∀ {c c' s}, c' ≠ c → left (ops.close c s).2 c' = left s c'

namespace IECFileDevice

variable {d d' : IECFileDevice σ} {X : Str}

/-- What the host has still to get of a channel: the read buffer, of two bytes at most, and then what
the class has left. There is no buffer where the open has failed. -/
structure Pending (left : σ → Nat → Option Str) (c : Nat) (X : Str) (d : IECFileDevice σ) : Prop where
  short : ((d.readBuffer c).getD []).length ≤ 2
  failed : d.readBuffer c = none → left d.state c = some []
  join : ∃ l, left d.state c = some l ∧ X = (d.readBuffer c).getD [] ++ l

/-- Nothing was done on the channel. -/
structure Aside (left : σ → Nat → Option Str) (c : Nat) (d d' : IECFileDevice σ) : Prop where
  buffer : d'.readBuffer c = d.readBuffer c
  left : left d'.state c = left d.state c

namespace Aside

theorem refl (d : IECFileDevice σ) : Aside left c d d := ⟨rfl, rfl⟩

theorem trans {d'' : IECFileDevice σ} (first : Aside left c d d') (second : Aside left c d' d'') : Aside left c d d'' :=
  ⟨second.buffer.trans first.buffer, second.left.trans first.left⟩

theorem pending (aside : Aside left c d d') (pending : Pending left c X d) : Pending left c X d' := by
  obtain ⟨short, failed, join⟩ := pending
  refine ⟨?_, fun none => ?_, ?_⟩
  · rw [aside.buffer]
    exact short
  · rw [aside.left]
    exact failed (aside.buffer ▸ none)
  · rw [aside.buffer, aside.left]
    exact join

end Aside

section frame

variable (d : IECFileDevice σ)

@[simp] theorem setStatus_readBuffer (data : Str) : (d.setStatus data).readBuffer = d.readBuffer := rfl
@[simp] theorem setStatus_state (data : Str) : (d.setStatus data).state = d.state := rfl
@[simp] theorem setStatus_channel (data : Str) : (d.setStatus data).channel = d.channel := rfl
@[simp] theorem setStatus_eoi (data : Str) : (d.setStatus data).eoi = d.eoi := rfl
@[simp] theorem setStatus_cmd (data : Str) : (d.setStatus data).cmd = d.cmd := rfl
@[simp] theorem setStatus_flProtocol (data : Str) : (d.setStatus data).flProtocol = d.flProtocol := rfl

variable (data : Option Str)

@[simp] theorem answered_readBuffer : (d.answered data).readBuffer = d.readBuffer := by cases data <;> rfl
@[simp] theorem answered_state : (d.answered data).state = d.state := by cases data <;> rfl
@[simp] theorem answered_channel : (d.answered data).channel = d.channel := by cases data <;> rfl
@[simp] theorem answered_eoi : (d.answered data).eoi = d.eoi := by cases data <;> rfl
@[simp] theorem answered_cmd : (d.answered data).cmd = d.cmd := by cases data <;> rfl
@[simp] theorem answered_flProtocol : (d.answered data).flProtocol = d.flProtocol := by cases data <;> rfl
@[simp] theorem answered_opening : (d.answered data).opening = d.opening := by cases data <;> rfl
@[simp] theorem answered_writeBufferLen : (d.answered data).writeBufferLen = d.writeBufferLen := by cases data <;> rfl

end frame

/-- What a read of the class leaves, on the channel itself, -/
theorem readClass_takes (reader : Reader ops left) (listed : c < 15) (here : d.channel = c) {n : Nat} (wanted : 0 < n)
    {l : Str} (stands : left d.state c = some l) :
    ∃ l', Takes n (d.readClass ops n).1 l l' ∧ left (d.readClass ops n).2.state c = some l' ∧
      ((d.readClass ops n).2.eoi = true → l' = []) := by
  subst here
  obtain ⟨l', takes, rest, last⟩ := reader.read listed wanted stands
  simp only [readClass, answered_state, answered_eoi, Bool.or_eq_true, List.isEmpty_iff]
  refine ⟨l', takes, rest, fun ended => ?_⟩
  rcases ended with flag | none
  · exact last flag
  · by_contra more
    have start : l ≠ [] := by
      rw [takes.join]
      exact List.append_ne_nil_of_right_ne_nil _ more
    exact takes.some start none

/-- and on the others. -/
theorem readClass_aside (reader : Reader ops left) (elsewhere : c ≠ d.channel) (n : Nat) :
    Aside left c d (d.readClass ops n).2 where
  buffer := by simp [readClass]
  left := by simp [readClass, reader.read_others elsewhere]

section readClass

variable (ops) (n : Nat)

@[simp] theorem readClass_readBuffer : (d.readClass ops n).2.readBuffer = d.readBuffer := by simp [readClass]
@[simp] theorem readClass_channel : (d.readClass ops n).2.channel = d.channel := by simp [readClass]
@[simp] theorem readClass_cmd : (d.readClass ops n).2.cmd = d.cmd := by simp [readClass]
@[simp] theorem readClass_flProtocol : (d.readClass ops n).2.flProtocol = d.flProtocol := by simp [readClass]

theorem readClass_none (none : (d.readClass ops n).1 = []) : (d.readClass ops n).2.eoi = true := by
  simp only [readClass] at none
  simp [readClass, none]

end readClass

/- A buffer that is full, or behind which nothing is left, is the front of what is to be had. -/
theorem settled {held l : Str} (short : held.length ≤ 2) (ended : d.eoi = true → l = [])
    (still : ¬ (held.length < 2 ∧ d.eoi = false)) : held = (held ++ l).take 2 ∧ l = (held ++ l).drop 2 := by
  by_cases full : held.length = 2
  · rw [← full, List.take_left, List.drop_left]
    exact ⟨rfl, rfl⟩
  · have flag : d.eoi = true := by
      by_contra more
      exact still ⟨by omega, Bool.eq_false_of_not_eq_true more⟩
    rw [ended flag, List.append_nil, List.take_of_length_le short, List.drop_eq_nil_of_le short]
    exact ⟨rfl, rfl⟩

/-- The two bytes ahead: what the buffer holds after its turns is the front of what was to be had. -/
theorem fillReadBuffer_pending (reader : Reader ops left) (listed : c < 15) (turns : Nat) {d : IECFileDevice σ}
    (here : d.channel = c) {held l : Str} (holds : d.readBuffer c = some held) (stands : left d.state c = some l)
    (short : held.length ≤ 2) (enough : d.eoi = true ∨ 2 ≤ turns + held.length) (ended : d.eoi = true → l = []) :
    let d' := fillReadBuffer ops turns d
    d'.readBuffer c = some ((held ++ l).take 2) ∧ left d'.state c = some ((held ++ l).drop 2) ∧
      d'.channel = d.channel ∧ d'.cmd = d.cmd ∧ d'.flProtocol = d.flProtocol ∧
      (d'.eoi = true → (held ++ l).drop 2 = []) := by
  induction turns generalizing d held l with
  | zero =>
    obtain ⟨front, behind⟩ := settled (d := d) short ended fun room => by
      rcases enough with flag | full
      · exact absurd flag (Bool.eq_false_iff.mp room.2)
      · omega
    rw [fillReadBuffer, ← front, ← behind]
    exact ⟨holds, stands, rfl, rfl, rfl, ended⟩
  | succ turns ih =>
    subst here
    rw [fillReadBuffer, holds]
    dsimp only
    by_cases room : held.length < 2 ∧ d.eoi = false
    · rw [if_pos room]
      obtain ⟨l', takes, stands', last⟩ := readClass_takes reader listed rfl (n := 2 - held.length) (by omega) stands
      have none := readClass_none (d := d) ops (2 - held.length)
      have cmd := readClass_cmd (d := d) ops (2 - held.length)
      have channel := readClass_channel (d := d) ops (2 - held.length)
      have flProtocol := readClass_flProtocol (d := d) ops (2 - held.length)
      generalize d.readClass ops (2 - held.length) = r at takes stands' last none cmd channel flProtocol
      have longer : (held ++ r.1).length = held.length + r.1.length := List.length_append
      have piece := takes.short
      -- a turn that gets nothing sets the flag
      have again : r.2.eoi = true ∨ 2 ≤ turns + (held ++ r.1).length := by
        by_cases some : r.1 = []
        · exact .inl (none some)
        · have grows := List.length_pos_iff.mpr some
          have before := enough.resolve_left (ne_true_of_eq_false room.2)
          exact .inr (by omega)
      have rest := ih (d := r.2.setReadBuffer d.channel (some (held ++ r.1))) channel (Function.update_self ..) stands'
        (by omega) again last
      rw [List.append_assoc, ← takes.join] at rest
      obtain ⟨buffer, behind, channel', cmd', flProtocol', ended'⟩ := rest
      exact ⟨buffer, behind, channel'.trans channel, cmd'.trans cmd, flProtocol'.trans flProtocol, ended'⟩
    · rw [if_neg room]
      obtain ⟨front, behind⟩ := settled short ended room
      rw [← front, ← behind]
      exact ⟨holds, stands, rfl, rfl, rfl, ended⟩

theorem setReadBuffer_aside (left : σ → Nat → Option Str) (d : IECFileDevice σ) {channel : Nat} (elsewhere : c ≠ channel)
    (data : Option Str) : Aside left c d (d.setReadBuffer channel data) := ⟨Function.update_of_ne elsewhere _ _, rfl⟩

/- On the other channels nothing is done. -/
theorem fillReadBuffer_aside (reader : Reader ops left) (turns : Nat) {d : IECFileDevice σ}
    (elsewhere : c ≠ d.channel) :
    Aside left c d (fillReadBuffer ops turns d) ∧ (fillReadBuffer ops turns d).channel = d.channel ∧
      (fillReadBuffer ops turns d).cmd = d.cmd ∧ (fillReadBuffer ops turns d).flProtocol = d.flProtocol := by
  induction turns generalizing d with
  | zero => exact ⟨.refl d, rfl, rfl, rfl⟩
  | succ turns ih =>
    rw [fillReadBuffer]
    split
    · exact ⟨.refl d, rfl, rfl, rfl⟩
    · next held _ =>
      split
      · have first := readClass_aside reader elsewhere (2 - held.length)
        have channel := readClass_channel (d := d) ops (2 - held.length)
        have cmd := readClass_cmd (d := d) ops (2 - held.length)
        have flProtocol := readClass_flProtocol (d := d) ops (2 - held.length)
        generalize d.readClass ops (2 - held.length) = r at first channel cmd flProtocol
        obtain ⟨aside, channel', cmd', flProtocol'⟩ :=
          ih (d := r.2.setReadBuffer d.channel (some (held ++ r.1))) (channel ▸ elsewhere)
        have laid := setReadBuffer_aside left r.2 elsewhere (some (held ++ r.1))
        exact ⟨(first.trans laid).trans aside, channel'.trans channel, cmd'.trans cmd, flProtocol'.trans flProtocol⟩
      · exact ⟨.refl d, rfl, rfl, rfl⟩

/- The status channel is apart from the files. -/
theorem canRead_status (reader : Reader ops left) (d : IECFileDevice σ) (here : d.channel = 15) :
    Aside left c d (d.canRead ops).2 ∧ (d.canRead ops).2.channel = 15 ∧ (d.canRead ops).2.cmd = d.cmd ∧
      (d.canRead ops).2.flProtocol = d.flProtocol := by
  unfold canRead
  rw [if_pos here]
  dsimp only
  split
  · exact ⟨⟨rfl, reader.status⟩, here, rfl, rfl⟩
  · split
    · exact ⟨⟨rfl, reader.status⟩, here, rfl, rfl⟩
    · exact ⟨.refl d, here, rfl, rfl⟩

theorem canRead_aside (reader : Reader ops left) (d : IECFileDevice σ) (elsewhere : c ≠ d.channel) :
    Aside left c d (d.canRead ops).2 ∧ (d.canRead ops).2.channel = d.channel ∧ (d.canRead ops).2.cmd = d.cmd ∧
      (d.canRead ops).2.flProtocol = d.flProtocol := by
  by_cases here : d.channel = 15
  · rw [here]
    exact canRead_status reader d here
  · unfold canRead
    rw [if_neg here]
    split
    · exact ⟨.refl d, rfl, rfl, rfl⟩
    · split
      · exact ⟨.refl d, rfl, rfl, rfl⟩
      · next held _ =>
        obtain ⟨aside, rest⟩ := fillReadBuffer_aside reader 2
          (d := { d with eoi := d.eoi && !held.isEmpty }) elsewhere
        exact ⟨⟨aside.buffer, aside.left⟩, rest⟩

/- Behind the EOI flag of a channel, nothing is left. -/
def Ended (left : σ → Nat → Option Str) (c : Nat) (d : IECFileDevice σ) : Prop := d.eoi = true → left d.state c = some []

/-- Of what is to be had of a channel, `canRead` tells how much it is, as far as two bytes, and has them ready. -/
theorem canRead_pending (reader : Reader ops left) (listed : c < 15) (here : d.channel = c)
    (pending : Pending left c X d) (ended : Ended left c d) :
    let r := d.canRead ops
    r.1 = min 2 X.length ∧ (r.2.readBuffer c).getD [] = X.take 2 ∧ Pending left c X r.2 ∧ r.2.channel = c ∧
      r.2.cmd = d.cmd ∧ r.2.flProtocol = d.flProtocol ∧ Ended left c r.2 := by
  subst here
  obtain ⟨l, stands, join⟩ := pending.join
  unfold canRead
  rw [if_neg (Nat.ne_of_lt listed), if_neg (Nat.not_lt.mpr (Nat.le_of_lt listed))]
  cases holds : d.readBuffer d.channel with
  | none =>
    have nothing : X = [] := by
      rw [join, holds, Option.some.inj (stands.symm.trans (pending.failed holds))]
      rfl
    subst nothing
    exact ⟨rfl, by rw [holds]; rfl, pending, rfl, rfl, rfl, ended⟩
  | some held =>
    rw [holds, Option.getD_some] at join
    have short : held.length ≤ 2 := by simpa [holds] using pending.short
    have kept : (d.eoi && !held.isEmpty) = true → l = [] := fun flag =>
      Option.some.inj (stands.symm.trans (ended ((Bool.and_eq_true _ _ ▸ flag).1)))
    obtain ⟨buffer, behind, channel, cmd, flProtocol, ended'⟩ := fillReadBuffer_pending reader listed 2
      (d := { d with eoi := d.eoi && !held.isEmpty }) rfl holds stands short (.inr (by omega)) kept
    rw [← join] at buffer behind ended'
    refine ⟨?_, ?_, ⟨?_, ?_, ⟨X.drop 2, behind, ?_⟩⟩, channel, cmd, flProtocol, fun flag => ?_⟩
    · dsimp only
      rw [channel]
      dsimp only
      rw [buffer, Option.getD_some, List.length_take]
    · exact congrArg (Option.getD · []) buffer
    · rw [buffer, Option.getD_some]
      exact List.length_take_le 2 _
    · intro none
      rw [buffer] at none
      cases none
    · rw [buffer, Option.getD_some, List.take_append_drop]
    · exact behind.trans (congrArg some (ended' flag))

/-- The byte that is looked at is the next one, and reading it takes it away. -/
theorem read_pending (listed : c < 15) (here : d.channel = c) (pending : Pending left c X d) {x : UInt8} {rest : Str}
    (holds : (d.readBuffer c).getD [] = x :: rest) :
    ∃ X', X = x :: X' ∧ d.peek = x ∧ Pending left c X' d.read.2 := by
  subst here
  have apart : d.channel ≠ 15 := Nat.ne_of_lt listed
  have tail : d.read.2 = d.setReadBuffer d.channel (some rest) := by
    rw [read, if_neg apart, if_pos listed, holds, List.tail_cons]
  obtain ⟨l, stands, join⟩ := pending.join
  rw [holds] at join
  refine ⟨rest ++ l, join, ?_, ?_⟩
  · rw [peek, if_neg apart, if_pos listed, holds, List.headD_cons]
  · have short := pending.short
    rw [holds, List.length_cons] at short
    rw [tail]
    refine ⟨?_, fun none => ?_, l, stands, ?_⟩
    · simp only [setReadBuffer, Function.update_self, Option.getD_some]
      omega
    · simp [setReadBuffer] at none
    · simp [setReadBuffer]

theorem read_aside (left : σ → Nat → Option Str) (d : IECFileDevice σ) (elsewhere : c ≠ d.channel) :
    Aside left c d d.read.2 := by
  unfold read
  dsimp only
  split
  · exact ⟨rfl, rfl⟩
  · split
    · exact setReadBuffer_aside left d elsewhere _
    · exact .refl d

theorem readMore_ended (turns room : Nat) (ended : d.eoi = true) : d.readMore ops turns room = ([], d) := by
  cases turns with
  | zero => rfl
  | succ turns => rw [readMore, if_neg fun more => absurd ended (Bool.eq_false_iff.mp more.2)]

/- The second loop gets as much as is asked for, as far as it is there. -/
theorem readMore_takes (reader : Reader ops left) (listed : c < 15) (turns room : Nat) {d : IECFileDevice σ} {l : Str}
    (here : d.channel = c) (stands : left d.state c = some l) (enough : room ≤ turns) (ended : d.eoi = true → l = []) :
    let r := d.readMore ops turns room
    r.1 = l.take room ∧ left r.2.state c = some (l.drop room) ∧ r.2.readBuffer = d.readBuffer ∧
      r.2.channel = d.channel ∧ r.2.cmd = d.cmd ∧ r.2.flProtocol = d.flProtocol ∧
      (r.2.eoi = true → l.drop room = []) := by
  induction turns generalizing d l room with
  | zero =>
    obtain rfl : room = 0 := by omega
    exact ⟨rfl, stands, rfl, rfl, rfl, rfl, ended⟩
  | succ turns ih =>
    rw [readMore]
    by_cases more : 0 < room ∧ d.eoi = false
    · rw [if_pos more]
      obtain ⟨l', takes, stands', last⟩ := readClass_takes reader listed here more.1 stands
      have none := readClass_none (d := d) ops room
      have buffer := readClass_readBuffer (d := d) ops room
      have cmd := readClass_cmd (d := d) ops room
      have channel := readClass_channel (d := d) ops room
      have flProtocol := readClass_flProtocol (d := d) ops room
      generalize d.readClass ops room = r at takes stands' last none buffer cmd channel flProtocol
      have front : l.take room = r.1 ++ l'.take (room - r.1.length) := by
        rw [takes.join, List.take_append, List.take_of_length_le takes.short]
      have behind : l.drop room = l'.drop (room - r.1.length) := by
        rw [takes.join, List.drop_append, List.drop_eq_nil_of_le takes.short, List.nil_append]
      rw [front, behind, ← buffer, ← cmd, ← flProtocol, ← channel]
      by_cases some : r.1 = []
      · have ended' := none some
        obtain rfl := last ended'
        dsimp only
        rw [readMore_ended turns _ ended', List.take_nil, List.drop_nil]
        exact ⟨rfl, stands', rfl, rfl, rfl, rfl, fun _ => rfl⟩
      · have grows := List.length_pos_iff.mpr some
        obtain ⟨piece, rest⟩ := ih (room - r.1.length) (d := r.2) (channel.trans here) stands' (by omega) last
        exact ⟨congrArg (r.1 ++ ·) piece, rest⟩
    · rw [if_neg more]
      by_cases wanted : 0 < room
      · have flag : d.eoi = true := by
          by_contra no
          exact more ⟨wanted, Bool.eq_false_of_not_eq_true no⟩
        obtain rfl := ended flag
        rw [List.take_nil, List.drop_nil]
        exact ⟨rfl, stands, rfl, rfl, rfl, rfl, fun _ => rfl⟩
      · obtain rfl : room = 0 := by omega
        exact ⟨rfl, stands, rfl, rfl, rfl, rfl, ended⟩

theorem readMore_aside (reader : Reader ops left) (turns room : Nat) {d : IECFileDevice σ} (elsewhere : c ≠ d.channel) :
    Aside left c d (d.readMore ops turns room).2 ∧ (d.readMore ops turns room).2.channel = d.channel ∧
      (d.readMore ops turns room).2.cmd = d.cmd ∧ (d.readMore ops turns room).2.flProtocol = d.flProtocol := by
  induction turns generalizing d room with
  | zero => exact ⟨.refl d, rfl, rfl, rfl⟩
  | succ turns ih =>
    rw [readMore]
    split
    · have first := readClass_aside reader elsewhere room
      have channel := readClass_channel (d := d) ops room
      have cmd := readClass_cmd (d := d) ops room
      have flProtocol := readClass_flProtocol (d := d) ops room
      generalize d.readClass ops room = r at first channel cmd flProtocol
      obtain ⟨aside, channel', cmd', flProtocol'⟩ := ih (room - r.1.length) (d := r.2) (channel ▸ elsewhere)
      exact ⟨first.trans aside, channel'.trans channel, cmd'.trans cmd, flProtocol'.trans flProtocol⟩
    · exact ⟨.refl d, rfl, rfl, rfl⟩

/-- A block is the next bytes, through the buffer and past it. -/
theorem readBlock_pending (reader : Reader ops left) (listed : c < 15) (here : d.channel = c)
    (pending : Pending left c X d) (ended : Ended left c d) (n : Nat) :
    let r := d.readBlock ops n
    r.1 = X.take n ∧ Pending left c (X.drop n) r.2 ∧ r.2.channel = c ∧ r.2.cmd = d.cmd ∧
      r.2.flProtocol = d.flProtocol ∧ Ended left c r.2 := by
  subst here
  obtain ⟨l, stands, join⟩ := pending.join
  unfold readBlock
  dsimp only
  have short := pending.short
  have failed := pending.failed
  generalize holds : d.readBuffer d.channel = buffer at short failed join
  obtain ⟨piece, rest, same, channel, cmd, flProtocol, ended'⟩ := readMore_takes reader listed n
    (n - ((buffer.getD []).take n).length) (d := d.setReadBuffer d.channel (buffer.map (List.drop n))) rfl stands
    (Nat.sub_le n _) fun flag => Option.some.inj (stands.symm.trans (ended flag))
  have kept : (d.setReadBuffer d.channel (buffer.map (List.drop n))).readBuffer d.channel = buffer.map (List.drop n) :=
    Function.update_self ..
  have behind : (buffer.map (List.drop n)).getD [] = (buffer.getD []).drop n := by cases buffer <;> simp
  have size : n - ((buffer.getD []).take n).length = n - (buffer.getD []).length := by
    rw [List.length_take]
    omega
  generalize n - ((buffer.getD []).take n).length = room at *
  subst size
  refine ⟨?_, ⟨?_, fun none => ?_, _, rest, ?_⟩, channel, cmd, flProtocol, fun flag => ?_⟩
  · rw [piece, join, List.take_append]
  · rw [same, kept, behind, List.length_drop]
    omega
  · rw [same, kept, Option.map_eq_none_iff] at none
    rw [rest, Option.some.inj (stands.symm.trans (failed none)), List.drop_nil]
  · rw [same, kept, behind, join, List.drop_append]
  · rw [rest, ended' flag]

theorem readBlock_aside (reader : Reader ops left) (n : Nat) (elsewhere : c ≠ d.channel) :
    Aside left c d (d.readBlock ops n).2 ∧ (d.readBlock ops n).2.channel = d.channel ∧
      (d.readBlock ops n).2.cmd = d.cmd ∧ (d.readBlock ops n).2.flProtocol = d.flProtocol := by
  obtain ⟨aside, rest⟩ := readMore_aside reader n
    (n - (((d.readBuffer d.channel).getD []).take n).length)
    (d := d.setReadBuffer d.channel ((d.readBuffer d.channel).map (List.drop n))) elsewhere
  exact ⟨(setReadBuffer_aside left d elsewhere _).trans aside, rest⟩

end IECFileDevice

end Meatloaf.Bus
