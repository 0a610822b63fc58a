import Meatloaf.Drive.Channel
import Meatloaf.Lib.Run

/-! Block reads on a direct-access channel. What a channel serves is what its stream gives up to the
end of the window; the count byte of `B-R` is read through the window that the command before it
has left, and a block that begins behind the end of that window has no count. -/
namespace Meatloaf.Drive

open Lib Disk

/-- The view of a stream with no file selected. -/
structure Raw (s : D64) : Prop where
  unselected : s.seekCalled = false
  calm : s.error = 0
  sized : 0 < s.size

/- The stream with its container and its position moved. -/
def drawn (s : D64) (p q : Nat) : D64 := { s with container := s.container.seek p, position := q }

/- How many bytes a read gets. -/
def within (s : D64) (n : Nat) : Nat := min (min n (s.size - s.position)) (s.container.size - s.container.pos)

/- How many there are up to the end of the window. -/
def remaining (s : D64) : Nat := min s.size s.container.size - s.container.pos

namespace Raw

variable {s : D64}

theorem moved (raw : Raw s) (p q : Nat) : Raw (drawn s p q) := ⟨raw.unselected, raw.calm, raw.sized⟩

theorem read (raw : Raw s) (n : Nat) :
    s.read n = (Store.read s.container.data s.container.pos (within s n),
      drawn s (s.container.pos + within s n) (s.position + within s n)) := by
  by_cases ended : s.size ≤ s.position
  · have none : within s n = 0 := by
      unfold within
      omega
    rw [D64.read_ended raw.sized ended, none]
    rfl
  · unfold D64.read
    rw [if_neg (by omega), raw.unselected, if_pos raw.sized]
    dsimp only
    rw [if_neg (by simp)]
    unfold D64.readContainer Container.read
    dsimp only
    rw [Store.length_read]
    rfl

/-- One refill gets what there is, up to the size of the buffer. -/
theorem fill (raw : Raw s) (turns : Nat) :
    Channel.fill (turns + 2) [] s = (ST_OK, Store.read s.container.data s.container.pos (within s BUFFER_SIZE),
      drawn s (s.container.pos + within s BUFFER_SIZE) (s.position + within s BUFFER_SIZE)) := by
  have length : ∀ d p, (Store.read s.container.data p d).length = d := fun d p => Store.length_read _ _ _
  rw [Channel.fill, List.length_nil, Nat.sub_zero, raw.read]
  dsimp only
  by_cases none : within s BUFFER_SIZE = 0
  · rw [none, if_pos (Store.read_zero _ _), Store.read_zero]
  · rw [if_neg (fun empty => none (by rw [← length (within s BUFFER_SIZE) s.container.pos, empty, List.length_nil])),
      if_neg (fun wrong => wrong raw.calm), List.nil_append, length]
    split
    · next more =>
      -- the window is larger than the container: the next turn gets nothing
      have exceeds : within (drawn s (s.container.pos + within s BUFFER_SIZE) (s.position + within s BUFFER_SIZE))
          (BUFFER_SIZE - within s BUFFER_SIZE) = 0 := by
        have open_ : s.size - (s.position + within s BUFFER_SIZE) ≠ 0 := more.2
        show min _ (s.container.size - (s.container.pos + within s BUFFER_SIZE)) = 0
        have short := more.1
        unfold within at short open_ ⊢
        omega
      rw [Channel.fill, length, (raw.moved _ _).read, exceeds]
      dsimp only
      rw [if_pos (Store.read_zero _ _)]
      rfl
    · rfl

end Raw

namespace Channel

variable {c : Channel} {left : List UInt8} {n : Nat}

def get (c : Channel) (n : Nat) : List UInt8 × Channel := (c.read n).2

/-- What is left is what the buffer still holds, and then the window from the stream's position on. -/
structure Serving (c : Channel) (left : List UInt8) : Prop where
  raw : Raw c.stream
  synced : c.stream.position = c.stream.container.pos
  join : left = c.data.drop c.ptr ++
    Store.read c.stream.container.data c.stream.container.pos (remaining c.stream)
  ended : c.eos = true → left = []

theorem refill (raw : Raw c.stream) :
    ({ c with ptr := 0, data := [] } : Channel).readBufferData = (ST_OK,
      { c with
        stream := drawn c.stream (c.stream.container.pos + within c.stream BUFFER_SIZE)
          (c.stream.position + within c.stream BUFFER_SIZE)
        data := Store.read c.stream.container.data c.stream.container.pos (within c.stream BUFFER_SIZE)
        ptr := 0
        eos := c.eos || (Store.read c.stream.container.data c.stream.container.pos
          (within c.stream BUFFER_SIZE)).isEmpty }) := by
  unfold readBufferData
  rw [show BUFFER_SIZE + 1 = 511 + 2 from rfl, raw.fill]
  rfl

theorem Serving.serve (serving : Serving c left) (positive : 0 < n) (some : c.ptr < c.data.length) :
    ∃ rest, Takes n (c.serve n).1 left rest ∧ Serving (c.serve n).2 rest := by
  have more : ¬ c.eos = true := by
    intro exceeds
    have none := congrArg List.length (serving.join.symm.trans (serving.ended exceeds))
    rw [List.length_append, List.length_drop, List.length_nil] at none
    omega
  have split : c.data.drop c.ptr = (c.data.drop c.ptr).take n ++ (c.data.drop c.ptr).drop n :=
    (List.take_append_drop n _).symm
  refine ⟨(c.data.drop c.ptr).drop n ++
    Store.read c.stream.container.data c.stream.container.pos (remaining c.stream), ⟨?_, ?_, ?_⟩, ?_⟩
  · rw [serving.join]
    show _ = (c.data.drop c.ptr).take n ++ _
    rw [← List.append_assoc, ← split]
  · exact List.length_take_le n _
  · intro _ empty
    have none := congrArg List.length empty
    have piece : (c.serve n).1.length = min n (c.data.length - c.ptr) := by
      show ((c.data.drop c.ptr).take n).length = _
      rw [List.length_take, List.length_drop]
    rw [piece, List.length_nil] at none
    omega
  · have behind : c.data.drop (c.ptr + ((c.data.drop c.ptr).take n).length) = (c.data.drop c.ptr).drop n := by
      rw [List.drop_drop, List.length_take, List.length_drop]
      by_cases short : n ≤ c.data.length - c.ptr
      · rw [Nat.min_eq_left short]
      · rw [List.drop_eq_nil_of_le (by omega), List.drop_eq_nil_of_le (by omega)]
    exact ⟨serving.raw, serving.synced, congrArg (· ++ _) behind.symm, fun exceeds => absurd exceeds more⟩

/-- A read serves the next bytes of what is left. -/
theorem Serving.step (serving : Serving c left) (positive : 0 < n) :
    ∃ rest, Takes n (c.get n).1 left rest ∧ Serving (c.get n).2 rest := by
  unfold get Channel.read
  by_cases empty : c.data.length ≤ c.ptr
  · have none : c.data.drop c.ptr = [] := List.drop_eq_nil_of_le empty
    rw [if_pos empty]
    by_cases exceeds : c.eos = true
    · rw [if_pos exceeds, serving.ended exceeds]
      exact ⟨[], ⟨rfl, Nat.zero_le _, fun more => absurd rfl more⟩, serving.ended exceeds ▸ serving⟩
    · have count : within c.stream BUFFER_SIZE = min BUFFER_SIZE (remaining c.stream) := by
        unfold within remaining
        rw [serving.synced]
        omega
      have join := serving.join
      rw [none, List.nil_append] at join
      rw [if_neg exceeds, refill serving.raw]
      dsimp only
      rw [if_neg (fun wrong => wrong rfl)]
      by_cases last : remaining c.stream = 0
      · have zero : within c.stream BUFFER_SIZE = 0 := by
          rw [count, last]
          rfl
        rw [last] at join
        rw [zero, if_pos (Store.read_zero _ _), join]
        refine ⟨[], ⟨rfl, Nat.zero_le _, fun more => absurd rfl more⟩, serving.raw.moved _ _, ?_, ?_, fun _ => rfl⟩
        · exact serving.synced
        · show [] = [] ++ Store.read c.stream.container.data (c.stream.container.pos + 0) (remaining c.stream)
          rw [last]
          rfl
      · have some : 0 < within c.stream BUFFER_SIZE := by
          rw [count]
          exact Nat.lt_min.mpr ⟨by decide, by omega⟩
        have full : (Store.read c.stream.container.data c.stream.container.pos
            (within c.stream BUFFER_SIZE)).length = within c.stream BUFFER_SIZE := Store.length_read _ _ _
        rw [if_neg (fun nil => by rw [nil, List.length_nil] at full; omega)]
        refine Serving.serve ⟨serving.raw.moved _ _, congrArg (· + _) serving.synced, ?_, ?_⟩ positive ?_
        · show left = (Store.read c.stream.container.data c.stream.container.pos (within c.stream BUFFER_SIZE)).drop 0 ++
            Store.read c.stream.container.data (c.stream.container.pos + within c.stream BUFFER_SIZE)
              (min c.stream.size c.stream.container.size - (c.stream.container.pos + within c.stream BUFFER_SIZE))
          rw [List.drop_zero, ← Store.read_add, join]
          congr 1
          unfold remaining at count ⊢
          omega
        · intro ended
          have filled : (Store.read c.stream.container.data c.stream.container.pos
              (within c.stream BUFFER_SIZE)).isEmpty = false := by
            rw [List.isEmpty_eq_false_iff]
            intro nil
            rw [nil, List.length_nil] at full
            omega
          have wrong : (c.eos || (Store.read c.stream.container.data c.stream.container.pos
              (within c.stream BUFFER_SIZE)).isEmpty) = true := ended
          rw [filled, Bool.or_false] at wrong
          exact absurd wrong exceeds
        · show 0 < (Store.read _ _ _).length
          rw [full]
          exact some
  · rw [if_neg empty]
    exact serving.serve positive (by omega)

/-- A channel delivers what is left, up to the end of its window. -/
theorem Serving.delivers (serving : Serving c left) :
    Delivers (fun n c => get c n) (fun n => 0 < n ∧ n < 256) c left :=
  Delivers.of_invariant Serving (fun _ _ _ serving fit => serving.step fit.1) serving

/-- A channel of an image as it was opened, whatever its window. -/
structure Direct (f : Format) (image : Container) (c : Channel) : Prop where
  raw : Raw c.stream
  geo : c.stream.geo = (D64.new f image).geo
  data : c.stream.container.data = image.data
  size : c.stream.container.size = image.size
  full : c.full_size = image.size

/- The channel on which only reading has gone on. -/
def read_ahead (c : Channel) (p q : Nat) (data : List UInt8) (ptr : Nat) (eos : Bool) (position : Nat) : Channel :=
  { c with stream := drawn c.stream p q, data := data, ptr := ptr, eos := eos, position := position }

theorem read_ahead_ok (raw : Raw c.stream) (n : Nat) : (c.read n).1 = ST_OK ∧
    ∃ p q data ptr eos position, (c.read n).2.2 = c.read_ahead p q data ptr eos position := by
  unfold Channel.read
  split
  · split
    · exact ⟨rfl, c.stream.container.pos, c.stream.position, c.data, c.ptr, c.eos, c.position, rfl⟩
    · rw [refill raw]
      dsimp only
      rw [if_neg (fun wrong => wrong rfl)]
      split
      · exact ⟨rfl, _, _, _, _, _, _, rfl⟩
      · exact ⟨rfl, _, _, _, _, _, _, rfl⟩
  · exact ⟨rfl, c.stream.container.pos, c.stream.position, _, _, _, _, rfl⟩

variable {f : Format} {image : Container}

theorem Direct.ahead (direct : Direct f image c) (p q : Nat) (data : List UInt8) (ptr : Nat) (eos : Bool)
    (position : Nat) : Direct f image (c.read_ahead p q data ptr eos position) :=
  ⟨direct.raw.moved p q, direct.geo, direct.data, direct.size, direct.full⟩

theorem positionStream_raw (raw : Raw c.stream) (p : Nat) :
    c.positionStream p = (true, { c with stream := drawn c.stream p p }) := by
  have seek : ({ c.stream with position := p } : D64).seek p = (true, drawn c.stream p p) := by
    unfold D64.seek
    exact if_pos raw.unselected
  unfold positionStream D64.seekSet
  rw [seek]
  rfl

/- The channel with its window laid over the stream. -/
def windowed (c : Channel) (base start length : Nat) : Channel :=
  { c with stream := { drawn c.stream start start with size := start + length } }.setBlockWindow base start length

theorem lay_raw (raw : Raw c.stream) (b : Block) (base start length : Nat) (sized : 0 < start + length) :
    c.lay b base start length = ({}, c.windowed base start length) := by
  have laid : Raw (c.setSize (start + length)).stream := ⟨raw.unselected, raw.calm, sized⟩
  unfold lay
  dsimp only
  rw [positionStream_raw laid]
  rfl

theorem Direct.windowed (direct : Direct f image c) (base start length : Nat) (sized : 0 < start + length) :
    Direct f image (c.windowed base start length) :=
  ⟨⟨direct.raw.unselected, direct.raw.calm, sized⟩, direct.geo, direct.data, direct.size, direct.full⟩

/-- A window that lies in the container is served whole. -/
theorem Direct.serves (direct : Direct f image c) (base start length : Nat) (sized : 0 < start + length)
    (fits : start + length ≤ image.size) :
    Serving (c.windowed base start length) (Store.read image.data start length) where
  raw := ⟨direct.raw.unselected, direct.raw.calm, sized⟩
  synced := rfl
  join := by
    show _ = [] ++ Store.read c.stream.container.data start (min (start + length) c.stream.container.size - start)
    rw [List.nil_append, direct.data, direct.size, Nat.min_eq_left fits, Nat.add_sub_cancel_left]
  ended no := absurd no Bool.false_ne_true

section blocks

variable {b : Block}

theorem Direct.numbered (direct : Direct f image c) (there : Readable (D64.new f image).geo image.size b) :
    ∃ n, c.stream.geo.linearBlock b.track b.sector = some n ∧ n * block_size = (D64.new f image).geo.addr b := by
  obtain ⟨n, found⟩ := there.numbered
  rw [direct.geo]
  exact ⟨n, found, (Geometry.linearBlock_some found).symm ▸ rfl⟩

/-- `U1`: the whole block. -/
theorem seekToBlock_whole (direct : Direct f image c) (there : Readable (D64.new f image).geo image.size b) :
    c.seekToBlock b 0 false =
      ({}, c.windowed ((D64.new f image).geo.addr b) ((D64.new f image).geo.addr b) block_size) := by
  obtain ⟨n, found, at_⟩ := direct.numbered there
  unfold seekToBlock
  rw [if_neg (by simp), found]
  dsimp only
  rw [if_neg (Nat.lt_irrefl 0), at_]
  exact lay_raw direct.raw b _ _ block_size (Nat.lt_of_lt_of_le (by decide) (Nat.le_add_left block_size _))

/- The channel with the stream at a block, as `B-R` leaves it to read the count. -/
def counting (c : Channel) (base : Nat) : Channel := { c with stream := drawn c.stream base base }

/-- `B-R`: as many bytes as the first one says, where the window of the command before lets it be read. -/
theorem seekToBlock_counted (direct : Direct f image c) (there : Readable (D64.new f image).geo image.size b)
    (reaches : (D64.new f image).geo.addr b < c.stream.size) :
    c.seekToBlock b 1 false = ({}, c.windowed ((D64.new f image).geo.addr b) ((D64.new f image).geo.addr b + 1)
      (image.data ((D64.new f image).geo.addr b)).toNat) := by
  obtain ⟨n, found, at_⟩ := direct.numbered there
  have fits := there.fits
  generalize (D64.new f image).geo.addr b = a at at_ fits reaches ⊢
  have one : within (drawn c.stream a a) 1 = 1 := by
    show min (min 1 (c.stream.size - a)) (c.stream.container.size - a) = 1
    rw [direct.size]
    omega
  have count : (drawn c.stream a a).read 1 =
      ([c.stream.container.data a], drawn (drawn c.stream a a) (a + 1) (a + 1)) := by
    rw [(direct.raw.moved a a).read 1, one]
    rfl
  unfold seekToBlock
  rw [if_neg (by simp), found]
  dsimp only
  rw [if_pos Nat.one_pos, at_, positionStream_raw direct.raw, if_neg (by simp)]
  dsimp only
  rw [count]
  dsimp only
  rw [lay_raw ((direct.raw.moved a a).moved (a + 1) (a + 1)) b a (a + 1) _ (by omega), direct.data]
  rfl

theorem seekToBlock_uncounted (direct : Direct f image c) (there : Readable (D64.new f image).geo image.size b)
    (behind : c.stream.size ≤ (D64.new f image).geo.addr b) (for_write : Bool) (writes : for_write = true → c.out = true) :
    c.seekToBlock b 1 for_write = (⟨ST_READ_NO_DATA, b.track, b.sector⟩, c.counting ((D64.new f image).geo.addr b)) := by
  obtain ⟨n, found, at_⟩ := direct.numbered there
  have none : (drawn c.stream ((D64.new f image).geo.addr b) ((D64.new f image).geo.addr b)).read 1 =
      ([], drawn c.stream ((D64.new f image).geo.addr b) ((D64.new f image).geo.addr b)) :=
    D64.read_ended direct.raw.sized behind
  unfold seekToBlock
  rw [if_neg (fun no => absurd (writes no.1) (by rw [no.2]; decide)), found]
  dsimp only
  rw [if_pos Nat.one_pos, at_, positionStream_raw direct.raw, if_neg (by simp)]
  dsimp only
  rw [none]
  rfl

end blocks

/- The channel with its pointer moved. -/
def pointed (c : Channel) (p : Nat) : Channel :=
  { c with stream := drawn c.stream p p }.repositioned p

theorem positionTo_block (raw : Raw c.stream) (block : c.has_block = true) {p : Nat} (low : p < 256) :
    c.positionTo p true = ({}, c.pointed (c.block_base + p)) := by
  unfold positionTo
  rw [if_pos rfl, if_neg (by rw [block]; decide), if_neg (show ¬ block_size ≤ p from Nat.not_le.mpr low)]
  dsimp only
  rw [positionStream_raw raw]
  rfl

/- The channel out of block mode. -/
def leaveBlock (c : Channel) : Channel :=
  if c.has_block then { (if 0 < c.full_size then c.setSize c.full_size else c) with has_block := false } else c

theorem positionTo_file (raw : Raw c.leaveBlock.stream) (p : Nat) :
    c.positionTo p false = ({}, c.leaveBlock.pointed p) := by
  show (if (c.leaveBlock.positionStream p).1 = false then
      (({ code := ST_SYNTAX_UNKNOWN }, (c.leaveBlock.positionStream p).2) : Status × Channel)
    else ({}, (c.leaveBlock.positionStream p).2.repositioned p)) = _
  rw [positionStream_raw raw]
  rfl

theorem Direct.leave (direct : Direct f image c) : Direct f image c.leaveBlock := by
  unfold leaveBlock
  split
  · split
    · next sized => exact ⟨⟨direct.raw.unselected, direct.raw.calm, sized⟩, direct.geo, direct.data, direct.size, direct.full⟩
    · exact ⟨direct.raw, direct.geo, direct.data, direct.size, direct.full⟩
  · exact direct

/- Out of block mode the window is the container. -/
theorem Direct.leave_size (direct : Direct f image c)
    (roams : c.has_block = false → image.size = 0 ∨ c.stream.size = image.size) :
    c.leaveBlock.has_block = false ∧ (image.size = 0 ∨ c.leaveBlock.stream.size = image.size) := by
  unfold leaveBlock
  by_cases block : c.has_block = true
  · rw [if_pos block]
    refine ⟨rfl, ?_⟩
    by_cases sized : 0 < c.full_size
    · rw [if_pos sized]
      exact .inr direct.full
    · rw [direct.full] at sized
      exact .inl (Nat.eq_zero_of_not_pos sized)
  · rw [if_neg block]
    exact ⟨Bool.eq_false_of_not_eq_true block, roams (Bool.eq_false_of_not_eq_true block)⟩

theorem Direct.pointed (direct : Direct f image c) (p : Nat) : Direct f image (c.pointed p) :=
  ⟨direct.raw.moved p p, direct.geo, direct.data, direct.size, direct.full⟩

/-- After a pointer command the channel serves what follows, up to the end of the window. -/
theorem Direct.points (direct : Direct f image c) (p : Nat) :
    Serving (c.pointed p) (Store.read image.data p (min c.stream.size image.size - p)) where
  raw := direct.raw.moved p p
  synced := rfl
  join := by
    show _ = [] ++ Store.read c.stream.container.data p (min c.stream.size c.stream.container.size - p)
    rw [List.nil_append, direct.data, direct.size]
  ended no := absurd no Bool.false_ne_true

end Channel

/-- What is asked of a direct-access channel. -/
inductive Request where
  | blockRead (b : Block)
  | bufferRead (b : Block)
  | bufferPointer (p : Nat)
  | filePosition (p : Nat)
  | get (n : Nat)

/-- A channel, the status of its last command, and the block that `U1` has selected. -/
structure Access where
  channel : Channel
  status : Status := {}
  current : Option Block := none

namespace Access

def step (x : Access) : Request → Access
  | .blockRead b =>
    let r := x.channel.seekToBlock b 0 false
    ⟨r.2, r.1, if r.1.code = ST_OK then some b else x.current⟩
  | .bufferRead b =>
    let r := x.channel.seekToBlock b 1 false
    ⟨r.2, r.1, if r.1.code = ST_OK then none else x.current⟩
  | .bufferPointer p =>
    let r := x.channel.positionTo p true
    ⟨r.2, r.1, x.current⟩
  | .filePosition p =>
    let r := x.channel.positionTo p false
    ⟨r.2, r.1, none⟩
  | .get n =>
    let r := x.channel.read n
    ⟨r.2.2, if r.1 = ST_OK then x.status else { code := r.1 }, x.current⟩

section claims

variable (f : Format) (image : Container)

def block (b : Block) : List UInt8 := Store.read image.data ((D64.new f image).geo.addr b) 256

/-- What the reads after a request have to deliver. -/
def expected (x : Access) : Request → Option (List UInt8)
  | .blockRead b => some (block f image b)
  | .bufferRead b => some (((block f image b).drop 1).take ((block f image b).getD 0 0).toNat)
  | .bufferPointer p => x.current.map fun b => (block f image b).drop p
  | .filePosition p => some ((Store.read image.data 0 image.size).drop p)
  | .get _ => none

/-- The blocks are there, and a pointer is one into a block that `U1` has selected. -/
def Valid (x : Access) : Request → Prop
  | .blockRead b | .bufferRead b => Readable (D64.new f image).geo image.size b
  | .bufferPointer p => p < 256 ∧ x.current.isSome
  | .filePosition _ | .get _ => True

def Good (x : Access) (r : Request) : Prop :=
  (x.step r).status.code = ST_OK ∧ ∀ text, expected f image x r = some text →
    Delivers (fun n c => Channel.get c n) (fun n => 0 < n ∧ n < 256) (x.step r).channel text

/-- A `B-R` names a block that begins before the end of the window. -/
def Reaches (x : Access) : Request → Prop
  | .bufferRead b => (D64.new f image).geo.addr b < x.channel.stream.size
  | _ => True

instance (x : Access) (r : Request) : Decidable (Reaches f image x r) := by
  cases r <;> unfold Reaches <;> infer_instance

/-- What the channel knows of the selected block. -/
structure Holds (x : Access) : Prop where
  direct : Channel.Direct f image x.channel
  calm : x.status.code = ST_OK
  selected : ∀ b, x.current = some b → x.channel.has_block = true ∧
    x.channel.block_base = (D64.new f image).geo.addr b ∧
      x.channel.stream.size = (D64.new f image).geo.addr b + 256 ∧ (D64.new f image).geo.addr b + 256 ≤ image.size
  roams : x.channel.has_block = false → image.size = 0 ∨ x.channel.stream.size = image.size

variable {f image} {x : Access}

theorem Holds.blockRead (holds : Holds f image x) {b : Block} (there : Readable (D64.new f image).geo image.size b) :
    Good f image x (.blockRead b) ∧ Holds f image (x.step (.blockRead b)) := by
  have whole := Channel.seekToBlock_whole holds.direct there
  have next : x.step (.blockRead b) =
      ⟨x.channel.windowed ((D64.new f image).geo.addr b) ((D64.new f image).geo.addr b) block_size, {}, some b⟩ := by
    show Access.mk _ _ _ = _
    rw [whole]
    rfl
  have sized : 0 < (D64.new f image).geo.addr b + block_size := Nat.lt_of_lt_of_le (by decide) (Nat.le_add_left block_size _)
  unfold Good
  rw [next]
  refine ⟨⟨rfl, fun text wanted => ?_⟩, holds.direct.windowed _ _ _ sized, rfl, fun b' same => ?_, ?_⟩
  · cases wanted
    exact (holds.direct.serves _ _ _ sized there.fits).delivers
  · cases same
    exact ⟨rfl, rfl, rfl, there.fits⟩
  · intro no
    cases no

theorem Holds.bufferRead (holds : Holds f image x) {b : Block} (there : Readable (D64.new f image).geo image.size b)
    (reaches : (D64.new f image).geo.addr b < x.channel.stream.size) :
    Good f image x (.bufferRead b) ∧ Holds f image (x.step (.bufferRead b)) := by
  have counted := Channel.seekToBlock_counted holds.direct there reaches
  have next : x.step (.bufferRead b) =
      ⟨x.channel.windowed ((D64.new f image).geo.addr b) ((D64.new f image).geo.addr b + 1)
        (image.data ((D64.new f image).geo.addr b)).toNat, {}, none⟩ := by
    show Access.mk _ _ _ = _
    rw [counted]
    rfl
  have fits := there.fits
  have byte := (image.data ((D64.new f image).geo.addr b)).toNat_lt
  have text : ((block f image b).drop 1).take ((block f image b).getD 0 0).toNat =
      Store.read image.data ((D64.new f image).geo.addr b + 1) (image.data ((D64.new f image).geo.addr b)).toNat := by
    have first : (block f image b).getD 0 0 = image.data ((D64.new f image).geo.addr b) :=
      Store.getD_read image.data ((D64.new f image).geo.addr b) 256 0 0 (by decide)
    rw [first]
    unfold block
    rw [Store.drop_read _ _ _ _ (by decide), Store.take_read]
    congr 1
    omega
  unfold Good
  rw [next]
  refine ⟨⟨rfl, fun t wanted => ?_⟩, holds.direct.windowed _ _ _ (by omega), rfl, ?_, ?_⟩
  · cases wanted
    rw [text]
    exact (holds.direct.serves _ _ _ (by omega) (by omega)).delivers
  · intro b' no
    cases no
  · intro no
    cases no

theorem Holds.unreached (holds : Holds f image x) {b : Block} (there : Readable (D64.new f image).geo image.size b)
    (behind : x.channel.stream.size ≤ (D64.new f image).geo.addr b) : ¬ Good f image x (.bufferRead b) := by
  intro good
  have refused := Channel.seekToBlock_uncounted holds.direct there behind false (fun no => absurd no Bool.false_ne_true)
  have status : (x.step (.bufferRead b)).status = ⟨ST_READ_NO_DATA, b.track, b.sector⟩ := congrArg Prod.fst refused
  have code := good.1
  rw [status] at code
  exact absurd code (by decide : ST_READ_NO_DATA ≠ ST_OK)

theorem Holds.bufferPointer (holds : Holds f image x) {p : Nat} (low : p < 256) (selected : x.current.isSome) :
    Good f image x (.bufferPointer p) ∧ Holds f image (x.step (.bufferPointer p)) := by
  obtain ⟨b, current⟩ := Option.isSome_iff_exists.mp selected
  obtain ⟨has, base, size, fits⟩ := holds.selected b current
  have moved := Channel.positionTo_block holds.direct.raw has low
  have next : x.step (.bufferPointer p) = ⟨x.channel.pointed (x.channel.block_base + p), {}, x.current⟩ := by
    show Access.mk _ _ _ = _
    rw [moved]
  have text : (block f image b).drop p = Store.read image.data ((D64.new f image).geo.addr b + p)
      (min x.channel.stream.size image.size - ((D64.new f image).geo.addr b + p)) := by
    unfold block
    rw [Store.drop_read _ _ _ _ (by omega), size]
    congr 1
    omega
  unfold Good
  rw [next]
  refine ⟨⟨rfl, fun t wanted => ?_⟩, holds.direct.pointed _, rfl, holds.selected, holds.roams⟩
  have selects : expected f image x (.bufferPointer p) = some ((block f image b).drop p) :=
    congrArg (Option.map fun b => (block f image b).drop p) current
  rw [selects, text] at wanted
  cases wanted
  rw [base]
  exact (holds.direct.points _).delivers

theorem Holds.filePosition (holds : Holds f image x) (p : Nat) :
    Good f image x (.filePosition p) ∧ Holds f image (x.step (.filePosition p)) := by
  have left := holds.direct.leave
  obtain ⟨roams, size⟩ := holds.direct.leave_size holds.roams
  have next : x.step (.filePosition p) = ⟨x.channel.leaveBlock.pointed p, {}, none⟩ := by
    show Access.mk _ _ _ = _
    rw [Channel.positionTo_file left.raw]
  have text : (Store.read image.data 0 image.size).drop p =
      Store.read image.data p (min x.channel.leaveBlock.stream.size image.size - p) := by
    have whole : min x.channel.leaveBlock.stream.size image.size = image.size := by omega
    rw [whole]
    by_cases inside : p ≤ image.size
    · rw [Store.drop_read _ _ _ _ inside, Nat.zero_add]
    · rw [List.drop_eq_nil_of_le (by rw [Store.length_read]; omega), Nat.sub_eq_zero_of_le (by omega)]
      rfl
  unfold Good
  rw [next]
  refine ⟨⟨rfl, fun t wanted => ?_⟩, left.pointed _, rfl, ?_, fun _ => size⟩
  · cases wanted
    rw [text]
    exact (left.points p).delivers
  · intro b no
    cases no

theorem Holds.get (holds : Holds f image x) (n : Nat) :
    Good f image x (.get n) ∧ Holds f image (x.step (.get n)) := by
  obtain ⟨status, p, q, data, ptr, eos, position, ahead⟩ := Channel.read_ahead_ok holds.direct.raw n
  have next : x.step (.get n) = ⟨x.channel.read_ahead p q data ptr eos position, x.status, x.current⟩ := by
    show Access.mk _ _ _ = _
    rw [if_pos status, ahead]
  unfold Good
  rw [next]
  refine ⟨⟨holds.calm, fun t none => ?_⟩, holds.direct.ahead p q data ptr eos position, holds.calm,
    holds.selected, holds.roams⟩
  cases none

/-- What a request does that is not a `B-R` behind the window. -/
theorem Holds.step {r : Request} (holds : Holds f image x) (valid : Valid f image x r) (reaches : Reaches f image x r) :
    Good f image x r ∧ Holds f image (x.step r) := by
  cases r with
  | blockRead b => exact holds.blockRead valid
  | bufferRead b => exact holds.bufferRead valid reaches
  | bufferPointer p => exact holds.bufferPointer valid.1 valid.2
  | filePosition p => exact holds.filePosition p
  | get n => exact holds.get n

theorem Holds.good_iff {r : Request} (holds : Holds f image x) (valid : Valid f image x r) :
    Good f image x r ↔ Reaches f image x r := by
  constructor
  · intro good
    cases r with
    | bufferRead b =>
      by_contra behind
      exact holds.unreached valid (Nat.le_of_not_lt behind) good
    | _ => exact trivial
  · exact fun reaches => (holds.step valid reaches).1

variable (f image)

/- The channel right after open. -/
def opened (out : Bool) : Access := { channel := .direct f image out }

theorem opened_holds (out : Bool) : Holds f image (opened f image out) where
  direct := ⟨⟨rfl, rfl, (by decide : 0 < block_size)⟩, rfl, rfl, rfl, rfl⟩
  calm := rfl
  selected _ no := by cases no
  roams no := by cases no

/-- In a session on a direct-access channel every command reports OK and the reads behind it deliver
the named block, exactly where no `B-R` names a block that begins behind the end of the window. -/
theorem direct_reads_iff (out : Bool) (requests : List Request)
    (valid : Along step (Valid f image) (opened f image out) requests) :
    Along step (Good f image) (opened f image out) requests ↔
      Along step (Reaches f image) (opened f image out) requests :=
  Along.congr_within (I := Holds f image) (V := Valid f image) (fun _ _ holds valid => holds.good_iff valid)
    (fun _ _ holds valid reaches => (holds.step valid reaches).2) (opened_holds f image out) valid

end claims

/- An empty image of the usual size. -/
def empty : Container := ⟨fun _ => 0, 174848, 0, none⟩

theorem empty_whole : D64.Whole (D64.new .d64 empty) where
  valid := Format.geometry_valid .d64 empty.size (0, 0) nofun
  size := by decide

theorem empty_first : Readable (D64.new .d64 empty).geo empty.size ⟨1, 0⟩ := empty_whole.readable (by decide)

theorem empty_header : Readable (D64.new .d64 empty).geo empty.size ⟨18, 0⟩ := empty_whole.readable (by decide)

theorem direct_reads_iff_sample : Along step (Good .d64 empty) (opened .d64 empty false)
    [.blockRead ⟨1, 0⟩, .bufferPointer 5, .bufferRead ⟨1, 0⟩, .get 100, .filePosition 300] :=
  (direct_reads_iff .d64 empty false [.blockRead ⟨1, 0⟩, .bufferPointer 5, .bufferRead ⟨1, 0⟩, .get 100, .filePosition 300]
    ⟨empty_first, ⟨by decide, rfl⟩, empty_first, trivial, trivial, trivial⟩).mpr
    ⟨trivial, trivial, by decide +kernel, trivial, trivial, trivial⟩

/- The first command is a `B-R` of the header block: the window is still on block 0. -/
theorem header_not_read : Along step (Valid .d64 empty) (opened .d64 empty false) [.bufferRead ⟨18, 0⟩] ∧
    ¬ Along step (Good .d64 empty) (opened .d64 empty false) [.bufferRead ⟨18, 0⟩] := by
  refine ⟨⟨empty_header, trivial⟩, ?_⟩
  rintro ⟨good, -⟩
  exact (opened_holds .d64 empty false).unreached empty_header (by decide +kernel) good

end Access

end Meatloaf.Drive
