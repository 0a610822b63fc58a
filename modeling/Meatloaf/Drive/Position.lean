import Meatloaf.Drive.Command

/-! The `P` command. It takes a channel number as it comes, and leaves the bytes that the channel
has read ahead. -/
namespace Meatloaf.Drive

open Lib Disk

variable {σ ι : Type*} {ops : MStream σ} {alloc : Allocation ι}

/-- What the stream gives first from an offset on. -/
def MStream.byteAt (ops : MStream σ) (s : σ) (pos : Nat) : Option UInt8 :=
  (ops.read BUFFER_SIZE (ops.seek pos s).2).1.head?

namespace FileChannel

variable {c : FileChannel σ} {n : Nat}

/- What is in the buffer stays in front of what the loop puts there. -/
theorem fill_head (turns : Nat) {data : List UInt8} (some : data ≠ []) (s : σ) :
    (fill ops turns data s).2.1.head? = data.head? := by
  induction turns generalizing data s with
  | zero => rfl
  | succ turns ih =>
    have longer : (data ++ (ops.read (BUFFER_SIZE - data.length) s).1).head? = data.head? := by
      cases data with
      | nil => exact absurd rfl some
      | cons b data => rfl
    rw [fill]
    split
    · rfl
    · split
      · exact longer
      · split
        · rw [ih (by simp [some]), longer]
        · exact longer

/- The buffer begins with what the stream gives first. -/
theorem readBufferData_head (c : FileChannel σ) :
    (c.readBufferData ops).2.data.head? = (ops.read BUFFER_SIZE c.stream).1.head? := by
  have first : (c.readBufferData ops).2.data = (fill ops (BUFFER_SIZE + 1) [] c.stream).2.1 := rfl
  rw [first, fill]
  simp only [List.length_nil, Nat.sub_zero, List.nil_append]
  split
  · rename_i none
    rw [none]
  · rename_i some
    split
    · rfl
    · split
      · exact fill_head _ some _
      · rfl

theorem serve_head (positive : 0 < n) : (c.serve n).1.head? = c.data[c.ptr]? := by
  simp [serve, List.head?_take, Nat.ne_of_gt positive]

/- A read that refills the buffer begins with what the stream gives first. -/
theorem read_refilled (spent : c.data.length ≤ c.ptr) (more : c.eos = false) (positive : 0 < n)
    (fine : (c.read ops n).1 = ST_OK) :
    (c.read ops n).2.1.head? = (ops.read BUFFER_SIZE c.stream).1.head? := by
  have head := @readBufferData_head σ ops { c with ptr := 0, data := [] }
  have start : (readBufferData ops { c with ptr := 0, data := [] }).2.ptr = 0 := rfl
  rw [read, if_pos spent, if_neg (by simp [more])] at fine ⊢
  dsimp only at fine head ⊢
  generalize readBufferData ops { c with ptr := 0, data := [] } = r at fine head start ⊢
  by_cases fails : r.1 ≠ ST_OK
  · rw [if_pos fails] at fine
    exact absurd fine fails
  · rw [if_neg fails]
    by_cases none : r.2.data = []
    · rw [if_pos none, ← head, none]
    · rw [if_neg none]
      dsimp only
      rw [serve_head positive, start, ← head, List.head?_eq_getElem?]

/-- The stream takes the offset, and what the channel serves next is from there: the byte that was
read ahead happens to be the same, or nothing was read ahead and the end was not met. -/
structure Fresh (ops : MStream σ) (c : FileChannel σ) (pos : Nat) : Prop where
  taken : (ops.seek pos c.stream).1 = true
  ahead : c.ptr < c.data.length → c.data[c.ptr]? = ops.byteAt c.stream pos
  open_ : c.data.length ≤ c.ptr → c.eos = true → ops.byteAt c.stream pos = none

/- The next read begins with the byte at the offset, or has an error of its own. -/
def Begins (ops : MStream σ) (c : FileChannel σ) (byte : Option UInt8) : Prop :=
  ∀ n, 0 < n → (c.read ops n).1 = ST_OK → (c.read ops n).2.1.head? = byte

theorem begins_iff (c : FileChannel σ) (pos : Nat) :
    (ops.seek pos c.stream).1 = true ∧ Begins ops (c.sought ops pos) (ops.byteAt c.stream pos) ↔ Fresh ops c pos := by
  have ahead : (c.sought ops pos).data[(c.sought ops pos).ptr]? = c.data[c.ptr]? := rfl
  by_cases unread : c.ptr < c.data.length
  · have served (n : Nat) := @read_unread σ ops (c.sought ops pos) unread n
    constructor
    · rintro ⟨taken, begins⟩
      have next := begins 1 Nat.one_pos (by rw [served])
      rw [served, serve_head Nat.one_pos, ahead] at next
      exact ⟨taken, fun _ => next, fun spent => absurd unread (Nat.not_lt.mpr spent)⟩
    · intro fresh
      refine ⟨fresh.taken, fun n positive _ => ?_⟩
      rw [served, serve_head positive, ahead]
      exact fresh.ahead unread
  · have spent := Nat.not_lt.mp unread
    by_cases ended : c.eos = true
    · have nothing (n : Nat) := @read_ended σ ops (c.sought ops pos) spent ended n
      constructor
      · rintro ⟨taken, begins⟩
        have next := begins 1 Nat.one_pos (by rw [nothing])
        rw [nothing] at next
        exact ⟨taken, fun no => absurd no unread, fun _ _ => next.symm⟩
      · intro fresh
        refine ⟨fresh.taken, fun n positive _ => ?_⟩
        rw [nothing, fresh.open_ spent ended]
        rfl
    · have more : (c.sought ops pos).eos = false := eq_false_of_ne_true ended
      constructor
      · rintro ⟨taken, -⟩
        exact ⟨taken, fun no => absurd no unread, fun _ no => absurd no ended⟩
      · intro fresh
        exact ⟨fresh.taken, fun n positive fine => read_refilled (c := c.sought ops pos) spent more positive fine⟩

end FileChannel

namespace Device

/-- The command is carried out without a fault, and where it reports OK the next read of its channel
begins with the byte at the offset. -/
def Positions (ops : MStream σ) (alloc : Allocation ι) (d : Device σ ι) (data : Str) : Prop :=
  ∃ d', d.executeData ops alloc data = some (.ok d') ∧ (d'.status.code = ST_OK →
    ∃ chan pos c c', parseCommand (commandText data) = some (.seekChannel chan pos) ∧
      d.channels chan = some (.file c) ∧ d'.channels chan = some (.file c') ∧
      (ops.seek pos c.stream).1 = true ∧ c'.Begins ops (ops.byteAt c.stream pos))

/-- What has to be for the command to work: there is such a channel, and it is closed or has a stream
that serves the offset. -/
def Ready (ops : MStream σ) (d : Device σ ι) : DosCommand → Prop
  | .seekChannel chan pos => chan ≤ 15 ∧ d.channels chan ≠ some .dir ∧
    ∀ c, d.channels chan = some (.file c) → c.Fresh ops pos
  | _ => True

theorem seekChannel_iff (d : Device σ ι) (chan pos : Nat) (fine : d.status.code = ST_OK) :
    (∃ d', d.seekChannel ops chan pos = .ok d' ∧ (d'.status.code = ST_OK → ∃ c c',
      d.channels chan = some (.file c) ∧ d'.channels chan = some (.file c') ∧
      (ops.seek pos c.stream).1 = true ∧ c'.Begins ops (ops.byteAt c.stream pos))) ↔
    Ready ops d (.seekChannel chan pos) := by
  unfold seekChannel
  by_cases high : 15 < chan
  · rw [if_pos high]
    exact iff_of_false (by rintro ⟨_, no, -⟩; cases no) fun ready => absurd ready.1 (Nat.not_le.mpr high)
  · have low := Nat.not_lt.mp high
    rw [if_neg high]
    cases opened : d.channels chan with
    | none =>
      refine iff_of_true ⟨_, rfl, fun no => absurd no (by decide : ST_NO_CHANNEL ≠ ST_OK)⟩ ⟨low, by simp [opened], fun c no => ?_⟩
      rw [opened] at no
      cases no
    | some handler =>
      cases handler with
      | dir =>
        exact iff_of_false (by rintro ⟨_, no, -⟩; cases no) fun ready => ready.2.1 opened
      | file c =>
        constructor
        · rintro ⟨d', done, reads⟩
          cases done
          obtain ⟨c₀, c', same, after, taken, begins⟩ := reads fine
          cases same
          dsimp only at after
          rw [Function.update_self] at after
          cases after
          refine ⟨low, by simp [opened], fun c₁ there => ?_⟩
          rw [opened] at there
          cases there
          exact (FileChannel.begins_iff c pos).mp ⟨taken, begins⟩
        · rintro ⟨-, -, fresh⟩
          obtain ⟨taken, begins⟩ := (FileChannel.begins_iff c pos).mpr (fresh c opened)
          exact ⟨_, rfl, fun _ => ⟨c, _, rfl, Function.update_self .., taken, begins⟩⟩

/- The parse of the command is one of an argument that is missing, or a seek. -/
theorem parseSeek_cases (command : Str) :
    parseSeek command = .malformed ∨ ∃ chan pos, parseSeek command = .seekChannel chan pos := by
  unfold parseSeek
  split
  · exact .inr ⟨_, _, rfl⟩
  · exact .inl rfl

theorem executeData_seek {d : Device σ ι} {data : Str} {chan pos : Nat}
    (command : parseCommand (commandText data) = some (.seekChannel chan pos)) :
    d.executeData ops alloc data = some (seekChannel ops { d with status := {} } chan pos) := by
  unfold executeData
  rw [command]
  rfl

/-- The `P` command is safe and effective, if and only if it has too few arguments, or names one of the
sixteen channels, and that one is closed or has a stream that takes the offset, with nothing else read
ahead of it and its end not met before. -/
theorem positions_iff (ops : MStream σ) (alloc : Allocation ι) (d : Device σ ι) (data rest : Str)
    (command : commandText data = 0x50 :: rest) (other : [0x57, 0x44].isPrefixOf rest = false) :
    Positions ops alloc d data ↔ Ready ops d (parseSeek (0x50 :: rest)) := by
  have parse : parseCommand (commandText data) = some (parseSeek (0x50 :: rest)) := by
    rw [command]
    exact if_neg (by simp [other])
  unfold Positions executeData
  rw [parse]
  rcases parseSeek_cases (0x50 :: rest) with malformed | ⟨chan, pos, seek⟩
  · rw [malformed]
    exact iff_of_true ⟨_, rfl, fun no => absurd no (by decide : ST_SYNTAX_UNKNOWN ≠ ST_OK)⟩ trivial
  · rw [seek]
    have whole := @seekChannel_iff σ ι ops { d with status := {} } chan pos rfl
    have ready : Ready ops { d with status := {} } (.seekChannel chan pos) ↔ Ready ops d (.seekChannel chan pos) := Iff.rfl
    rw [← ready, ← whole]
    constructor
    · rintro ⟨d', done, reads⟩
      refine ⟨d', Option.some.inj done, fun fine => ?_⟩
      obtain ⟨_, _, c, c', same, opened, after, taken, begins⟩ := reads fine
      cases same
      exact ⟨c, c', opened, after, taken, begins⟩
    · rintro ⟨d', done, reads⟩
      refine ⟨d', congrArg some done, fun fine => ?_⟩
      obtain ⟨c, c', opened, after, taken, begins⟩ := reads fine
      exact ⟨chan, pos, c, c', rfl, opened, after, taken, begins⟩

/- A file of these bytes, as a stream with a position. -/
def bytesStream : MStream (List UInt8 × Nat) where
  read n s := ((s.1.drop s.2).take n, s.1, s.2 + ((s.1.drop s.2).take n).length)
  seek p s := (decide (p ≤ s.1.length), s.1, if p ≤ s.1.length then p else s.2)
  position p s := (decide (p ≤ s.1.length), s.1, if p ≤ s.1.length then p else s.2)
  setSize _ s := s
  error _ := 0
  eos s := decide (s.1.length ≤ s.2)
  sectorByteOffset _ _ _ := none
  block_size _ := 256
  out _ := false

/- No image. -/
def noImage : Allocation Unit := ⟨fun _ => false, fun _ _ _ _ => (false, ())⟩

/- "ABC" on channel 2, of which "A" was read, and a listing on channel 3. -/
def sampleDevice : Device (List UInt8 × Nat) Unit where
  channels chan :=
    if chan = 2 then some (.file { stream := ([0x41, 0x42, 0x43], 3), data := [0x41, 0x42, 0x43], ptr := 1 })
    else if chan = 3 then some .dir
    else none
  image := ()

/- "P" and four numbers. -/
def positionText (chan low : UInt8) : Str := [0x50, chan, space, 0x30, space, 0x30, space, low]

/-- "P2 0 0 0" reports OK and "B" is served; "P3 0 0 0" is for a stream that is not there, and
"P99 0 0 0" for a channel that is not. -/
theorem position_lost :
    ¬ Positions bytesStream noImage sampleDevice (positionText 0x32 0x30) ∧
      sampleDevice.executeData bytesStream noImage (positionText 0x33 0x30) = some (.error .null) ∧
      sampleDevice.executeData bytesStream noImage (0x50 :: 0x39 :: (positionText 0x39 0x30).drop 1) =
        some (.error (.index 99)) := by
  have file : parseCommand (commandText (positionText 0x32 0x30)) = some (.seekChannel 2 0) := by decide +kernel
  have dir : parseCommand (commandText (positionText 0x33 0x30)) = some (.seekChannel 3 0) := by decide
  have none : parseCommand (commandText (0x50 :: 0x39 :: (positionText 0x39 0x30).drop 1)) =
      some (.seekChannel 99 0) := by decide +kernel
  refine ⟨?_, executeData_seek dir, executeData_seek none⟩
  rintro ⟨d', done, reads⟩
  rw [executeData_seek file] at done
  cases Except.ok.inj (Option.some.inj done)
  obtain ⟨chan, pos, c, c', command, opened, after, -, begins⟩ := reads rfl
  rw [file] at command
  cases command
  cases opened
  cases after
  exact absurd (begins 1 Nat.one_pos (by decide)) (by decide)

/- "ABC" on channel 2, of which nothing was read. -/
def freshDevice : Device (List UInt8 × Nat) Unit where
  channels chan := if chan = 2 then some (.file { stream := ([0x41, 0x42, 0x43], 0) }) else none
  image := ()

/-- `positions_iff` applies to "P2 0 0 1" there. -/
theorem position_works : Positions bytesStream noImage freshDevice (positionText 0x32 0x31) := by
  have seek : parseSeek (positionText 0x32 0x31) = .seekChannel 2 1 := by decide
  refine (positions_iff bytesStream noImage freshDevice (positionText 0x32 0x31) _ rfl rfl).mpr ?_
  change Ready bytesStream freshDevice (parseSeek (positionText 0x32 0x31))
  rw [seek]
  refine ⟨by decide, fun no => (by cases no), fun c opened => ?_⟩
  cases opened
  exact ⟨by decide, fun unread => absurd unread (by decide), fun _ no => absurd no (by decide)⟩

end Device

end Meatloaf.Drive
