import Meatloaf.Disk.Lookup
import Meatloaf.Lib.Deliver

/-! Positions inside a selected file. A seek walks the chain of the file from its first block on and
leaves the reader in the block it comes to, behind the link that the reader would have read. -/
namespace Meatloaf.Disk

open Lib

namespace D64

/- The link at the position of the container. A byte that is not there leaves its variable at zero. -/
def nextLink (s : D64) : Block × D64 :=
  let a := s.readContainer 1
  let b := a.2.readContainer 1
  (⟨(a.1.getD 0 0).toNat, (b.1.getD 0 0).toNat⟩, b.2)

/- The walk of `seek`: the block of an offset and the offset in its data. `guard` is what is left
of its bound. -/
def walkFile (guard : Nat) (b : Block) (remaining : Nat) (s : D64) : Option (Block × Nat) × D64 :=
  if remaining < block_size - 2 then (some (b, remaining), s)
  else
    let q := s.seekSector b.track b.sector
    if q.1 = false then (none, q.2)
    else
      let link := q.2.nextLink
      if link.1.track = 0 then (none, link.2)
      else
        match guard with
        | 0 => (none, link.2)
        | guard + 1 => walkFile guard link.1 (remaining - (block_size - 2)) link.2

/- `next_track` and `next_sector` from the position of the container. -/
def loadLink (s : D64) : D64 :=
  let a := s.readContainer 1
  let b := a.2.readContainer 1
  { b.2 with
    next_track := (a.1.getD 0 (UInt8.ofNat s.next_track)).toNat
    next_sector := (b.1.getD 0 (UInt8.ofNat s.next_sector)).toNat }

/- The end of `seek`: behind the link of the block, and behind so many bytes of its data. -/
def land (s : D64) (b : Block) (remaining : Nat) : Bool × D64 :=
  let q := s.seekSector b.track b.sector
  if q.1 = false then (false, q.2)
  else
    let landed := { q.2.loadLink with track := b.track, sector := b.sector, sector_offset := 2 + remaining }
    landed.seekSector b.track b.sector (2 + remaining)

/-- `D64MStream::seek`. -/
def seek (s : D64) (offset : Nat) : Bool × D64 :=
  if s.seekCalled = false then (true, { s with position := offset, container := s.container.seek offset })
  else if (startBlock s.entry).track = 0 then (false, s)
  else
    let guard := if entryBlocks s.entry = 0 then 10000 else entryBlocks s.entry + 2
    let w := walkFile guard (startBlock s.entry) offset s
    match w.1 with
    | none => (false, w.2)
    | some (b, remaining) =>
      let l := w.2.land b remaining
      if l.1 = false then l else (true, { l.2 with position := offset })

/-- `MStream::seek(pos, SEEK_SET)`. -/
def seekSet (s : D64) (pos : Nat) : Bool × D64 :=
  have r := { s with position := pos }.seek pos
  if r.1 = true then r else (false, { r.2 with position := s.position })

end D64

/-- The sector is on the medium and its bytes are in the container. -/
structure Readable (g : Geometry) (size : Nat) (b : Block) : Prop where
  numbered : ∃ n, g.linearBlock b.track b.sector = some n
  fits : g.addr b + 256 ≤ size

/- On a whole image that is every block of the geometry. -/
theorem D64.Whole.readable {s : D64} (whole : s.Whole) {b : Block} (inside : s.geo.Inside b) :
    Readable s.geo s.container.size b where
  numbered := ⟨_, inside.linearBlock whole.valid⟩
  fits := Nat.le_trans inside.addr_end whole.size

/-- The chain of a file, all of it readable. -/
structure FileChain (g : Geometry) (d : Nat → UInt8) (size : Nat) (b : Block) (chain : List Block) : Prop where
  chained : g.ChainAt d b chain
  begun : chain ≠ []
  readable : ∀ c ∈ chain, Readable g size c

namespace Geometry

variable (g : Geometry) (d : Nat → UInt8)

/- The bytes in use of a last block. -/
def usedBytes (b : Block) : Nat := (g.link d b).sector - 1

/-- The bytes of a file. -/
def fileBytes : List Block → Str
  | [] => []
  | [b] => Store.read d (g.addr b + 2) (g.usedBytes d b)
  | b :: b' :: rest => Store.read d (g.addr b + 2) 254 ++ fileBytes (b' :: rest)

theorem usedBytes_le (b : Block) : g.usedBytes d b ≤ 254 := by
  have byte := (d (g.addr b + 1)).toNat_lt
  show (d (g.addr b + 1)).toNat - 1 ≤ 254
  omega

theorem fileBytes_length (chain : List Block) (last : Block) :
    (g.fileBytes d (chain ++ [last])).length = 254 * chain.length + g.usedBytes d last := by
  induction chain with
  | nil => simp [fileBytes]
  | cons b chain ih =>
    cases chain with
    | nil => simp [fileBytes]
    | cons b' chain =>
      rw [List.cons_append, List.cons_append, fileBytes, List.length_append, Store.length_read]
      rw [List.cons_append] at ih
      rw [ih, List.length_cons (a := b)]
      omega

end Geometry

namespace FileChain

variable {g : Geometry} {d : Nat → UInt8} {size : Nat} {b b' : Block} {rest : List Block}

theorem next (h : FileChain g d size b (b :: b' :: rest)) :
    g.link d b = b' ∧ b'.track ≠ 0 ∧ FileChain g d size b' (b' :: rest) := by
  cases h.chained with
  | step runs more =>
    have same := more.head
    rw [← same] at more
    exact ⟨same.symm, more.live b' List.mem_cons_self, more, List.cons_ne_nil _ _,
      fun c member => h.readable c (List.mem_cons_of_mem b member)⟩

theorem last (h : FileChain g d size b [b]) : (g.link d b).track = 0 := by
  cases h.chained with
  | step runs more =>
    cases more with
    | done ends => exact ends

theorem head (h : FileChain g d size b (b' :: rest)) : b' = b := h.chained.head

end FileChain

namespace D64

variable {s : D64}

/- A pass of the walk. -/
theorem walkFile_eq (guard : Nat) (b : Block) (remaining : Nat) (s : D64) :
    walkFile guard b remaining s =
      if remaining < block_size - 2 then (some (b, remaining), s)
      else
        let q := s.seekSector b.track b.sector
        if q.1 = false then (none, q.2)
        else
          let link := q.2.nextLink
          if link.1.track = 0 then (none, link.2)
          else
            match guard with
            | 0 => (none, link.2)
            | guard + 1 => walkFile guard link.1 (remaining - (block_size - 2)) link.2 := by
  cases guard <;> rfl

theorem walkFile_near {guard remaining : Nat} {b : Block} (near : remaining < 254) :
    walkFile guard b remaining s = (some (b, remaining), s) := by
  rw [walkFile_eq]
  exact if_pos near

/- The registers behind the link of a block. -/
def behindLink (s : D64) (b : Block) (o : Nat) : D64 :=
  { s.at_ (s.geo.addr b + o) b.track b.sector with
    next_track := (s.geo.link s.container.data b).track
    next_sector := (s.geo.link s.container.data b).sector
    sector_offset := o }

theorem loadLink_full (fits : s.container.pos + 2 ≤ s.container.size) :
    s.loadLink = { s.at_ (s.container.pos + 2) s.track s.sector with
      next_track := (s.container.data s.container.pos).toNat
      next_sector := (s.container.data (s.container.pos + 1)).toNat } := by
  have first := readContainer_full s 1 (by omega)
  have second := readContainer_full (s.at_ (s.container.pos + 1) s.track s.sector) 1
    (show s.container.pos + 1 + 1 ≤ s.container.size by omega)
  unfold loadLink
  rw [first]
  dsimp only
  rw [second]
  rfl

theorem loadLink_readable {b : Block} (r : Readable s.geo s.container.size b) (here : s.container.pos = s.geo.addr b) :
    s.loadLink = { s.at_ (s.geo.addr b + 2) s.track s.sector with
      next_track := (s.geo.link s.container.data b).track
      next_sector := (s.geo.link s.container.data b).sector } := by
  have fits := r.fits
  rw [loadLink_full (by omega), here]
  rfl

/- How much a read gets from the block it is in. -/
def portion (s : D64) (n : Nat) : Nat := min (min n s.available) (256 - s.sector_offset)

/- The part of `readFile` behind the header of a block. -/
def transfer (s : D64) (m : Nat) : List UInt8 × D64 :=
  let r := s.readContainer m
  let t : D64 := { r.2 with sector_offset := (r.2.sector_offset + r.1.length) % 256 }
  if t.next_track ≠ 0 ∧ t.sector_offset % block_size = 0 then
    let q := t.seekSector t.next_track t.next_sector
    if q.1 then (r.1, q.2) else ([], q.2)
  else (r.1, t)

theorem readFile_inside {n : Nat} (low : 0 < s.sector_offset) (high : s.sector_offset < 256) (positive : 0 < n) :
    s.readFile n = s.transfer (s.portion n) := by
  have inside : s.sector_offset % 256 = s.sector_offset := Nat.mod_eq_of_lt high
  have here : ¬ s.sector_offset % block_size = 0 := by
    show ¬ s.sector_offset % 256 = 0
    omega
  have count : min (min n s.available) (block_size - s.sector_offset % block_size) = s.portion n := by
    show min (min n s.available) (256 - s.sector_offset % 256) = _
    rw [inside]
    rfl
  unfold readFile
  rw [if_neg (fun no => here no.1), if_neg here, if_neg (by omega)]
  dsimp only
  rw [count]
  rfl

/- The stream behind so many bytes of the block it is in. -/
def advanced (s : D64) (m : Nat) : D64 :=
  { s.at_ (s.container.pos + m) s.track s.sector with sector_offset := (s.sector_offset + m) % 256 }

theorem transfer_read {m : Nat} (fits : s.container.pos + m ≤ s.container.size) :
    s.transfer m =
      if s.next_track ≠ 0 ∧ (s.advanced m).sector_offset % block_size = 0 then
        let q := (s.advanced m).seekSector s.next_track s.next_sector
        if q.1 then (Store.read s.container.data s.container.pos m, q.2) else ([], q.2)
      else (Store.read s.container.data s.container.pos m, s.advanced m) := by
  have length : (s.at_ (s.container.pos + m) s.track s.sector).sector_offset +
      (Store.read s.container.data s.container.pos m).length = s.sector_offset + m := by
    rw [Store.length_read]
    rfl
  unfold transfer
  rw [readContainer_full s m fits]
  dsimp only
  rw [length]
  rfl

/- A read inside a block that does not come to the link. -/
theorem transfer_within {m : Nat} (high : s.sector_offset < 256)
    (fits : s.container.pos + m ≤ s.container.size) (stays : s.next_track = 0 ∨ s.sector_offset + m < 256)
    (low : 0 < s.sector_offset) :
    s.transfer m = (Store.read s.container.data s.container.pos m, s.advanced m) := by
  rw [transfer_read fits, if_neg]
  rintro ⟨runs, exceeds⟩
  have zero : (s.sector_offset + m) % 256 % 256 = 0 := exceeds
  omega

/- A read that comes to the link goes on to the next block. -/
theorem transfer_over {m : Nat} (fits : s.container.pos + m ≤ s.container.size) (exceeds : s.sector_offset + m = 256)
    (runs : s.next_track ≠ 0) {k : Nat} (found : s.geo.linearBlock s.next_track s.next_sector = some k) :
    s.transfer m = (Store.read s.container.data s.container.pos m,
      { s.at_ (s.geo.addr ⟨s.next_track, s.next_sector⟩) s.next_track s.next_sector with sector_offset := 0 }) := by
  have zero : (s.advanced m).sector_offset = 0 := by
    show (s.sector_offset + m) % 256 = 0
    rw [exceeds]
  have next := seekSector_some (s.advanced m) ⟨s.next_track, s.next_sector⟩ found 0
  rw [transfer_read fits, if_pos ⟨runs, by rw [zero]; rfl⟩]
  dsimp only
  rw [next, if_pos rfl]
  unfold at_
  rw [zero]
  rfl

theorem read_ended {n : Nat} (some : 0 < s.size) (ended : s.size ≤ s.position) : s.read n = ([], s) :=
  if_pos ⟨some, ended⟩

/- A read of a selected file, inside a block. -/
theorem read_selected {n : Nat} (called : s.seekCalled = true) (low : 0 < s.sector_offset)
    (high : s.sector_offset < 256) (positive : 0 < n) (more : s.position < s.size ∨ s.size = 0) :
    s.read n = ((s.transfer (s.portion n)).1,
      { (s.transfer (s.portion n)).2 with
        position := (s.transfer (s.portion n)).2.position + (s.transfer (s.portion n)).1.length }) := by
  have cut : s.readFile (if 0 < s.size then min n (s.size - s.position) else n) = s.transfer (s.portion n) := by
    rcases more with more | empty
    · have same : s.portion (min n (s.size - s.position)) = s.portion n := by
        unfold portion available
        omega
      rw [if_pos (by omega), readFile_inside low high (by omega), same]
    · rw [if_neg (by omega), readFile_inside low high positive]
  unfold read
  rw [if_neg (by omega)]
  dsimp only
  rw [if_pos called, cut]

/- What the header of a block makes of the size. -/
def sizeBehind (s : D64) (link : Block) : Nat :=
  if link.track = 0 then
    if link.sector - 1 < s.available then s.position + (link.sector - 1)
    else if s.available = 0 then s.size + (link.sector - 1)
    else s.size
  else if s.available = 0 then s.size + 254 else s.size

theorem sizeBehind_le (link : Block) (more : s.position < s.size) : s.sizeBehind link ≤ s.size := by
  unfold sizeBehind available
  split
  · split
    · omega
    · split
      · omega
      · omega
  · split
    · omega
    · omega

theorem readBlockHeader_link (s : D64) : s.readBlockHeader =
    { s.loadLink with
      sector_offset := (s.sector_offset + 2) % 256
      size := s.sizeBehind ⟨s.loadLink.next_track, s.loadLink.next_sector⟩ } := by
  unfold readBlockHeader sizeBehind loadLink
  dsimp only [readContainer, available, block_size]
  by_cases none : s.size - s.position = 0
  · simp only [none, if_true, Nat.not_lt_zero, if_false]
    split <;> rfl
  · simp only [none, if_false]
    split
    · split <;> rfl
    · rfl

/- A transfer that gets nothing changes nothing inside a block. -/
theorem transfer_none {m : Nat} (low : 0 < s.sector_offset) (high : s.sector_offset < 256)
    (none : m = 0 ∨ s.container.size ≤ s.container.pos) : s.transfer m = ([], s) := by
  have zero : min m (s.container.size - s.container.pos) = 0 := by omega
  have still : s.readContainer m = ([], s) := by
    simp [readContainer, Container.read, zero]
  have same : (s.sector_offset + 0) % 256 = s.sector_offset := Nat.mod_eq_of_lt high
  have kept : ({ s with sector_offset := (s.sector_offset + 0) % 256 } : D64) = s := by
    rw [same]
  have inside : ¬ (s.next_track ≠ 0 ∧ (s.sector_offset + 0) % 256 % block_size = 0) := by
    rintro ⟨-, exceeds⟩
    have over' : s.sector_offset % 256 % 256 = 0 := exceeds
    omega
  unfold transfer
  rw [still]
  exact (if_neg inside).trans (congrArg (Prod.mk []) kept)

/-- A read at the start of a block reads the header first. -/
theorem read_header {n : Nat} (called : s.seekCalled = true) (start : s.sector_offset = 0) (positive : 0 < n)
    (more : s.position < s.size) (smaller : s.readBlockHeader.size ≤ s.size) :
    s.read n = s.readBlockHeader.read n := by
  obtain ⟨h, header, offset, place, called'⟩ : ∃ h, s.readBlockHeader = h ∧ h.sector_offset = 2 ∧
      h.position = s.position ∧ h.seekCalled = true := by
    refine ⟨_, readBlockHeader_link s, ?_, rfl, called⟩
    rw [start]
  rw [header] at smaller ⊢
  have low : 0 < h.sector_offset := by omega
  have high : h.sector_offset < 256 := by omega
  have cut : s.readFile (min n (s.size - s.position)) = h.transfer (h.portion n) := by
    have same : h.portion (min n (s.size - s.position)) = h.portion n := by
      unfold portion available
      omega
    rw [← same, ← readFile_inside low high (by omega), ← header]
    unfold readFile
    rw [start, header, offset]
    rfl
  have whole : s.read n = ((h.transfer (h.portion n)).1, { (h.transfer (h.portion n)).2 with
      position := (h.transfer (h.portion n)).2.position + (h.transfer (h.portion n)).1.length }) := by
    unfold read
    rw [if_neg (by omega)]
    dsimp only
    rw [if_pos called, if_pos (by omega), cut]
  rw [whole]
  by_cases ended : 0 < h.size ∧ h.size ≤ h.position
  · have none : h.portion n = 0 := by
      unfold portion available
      omega
    rw [none, read_ended ended.1 ended.2, transfer_none low high (.inl rfl)]
    rfl
  · rw [read_selected called' low high positive (by omega)]

/- The stream behind a read of `m` bytes that stays in its block. -/
def passed (s : D64) (m : Nat) : D64 := { s.advanced m with position := s.position + m }

@[simp] theorem passed_position (m : Nat) : (s.passed m).position = s.position + m := rfl
@[simp] theorem passed_size (m : Nat) : (s.passed m).size = s.size := rfl
@[simp] theorem passed_offset (m : Nat) : (s.passed m).sector_offset = (s.sector_offset + m) % 256 := rfl
@[simp] theorem passed_pos (m : Nat) : (s.passed m).container.pos = s.container.pos + m := rfl

theorem read_within {n : Nat} (called : s.seekCalled = true) (low : 0 < s.sector_offset) (high : s.sector_offset < 256)
    (positive : 0 < n) (more : s.position < s.size ∨ s.size = 0)
    (fits : s.container.pos + s.portion n ≤ s.container.size)
    (stays : s.next_track = 0 ∨ s.sector_offset + s.portion n < 256) :
    s.read n = (Store.read s.container.data s.container.pos (s.portion n), s.passed (s.portion n)) := by
  rw [read_selected called low high positive more, transfer_within high fits stays low]
  dsimp only
  rw [Store.length_read]
  rfl

/- The stream behind a read of `m` bytes that ends at the link to a block. -/
def crossed (s : D64) (m : Nat) (b : Block) : D64 :=
  { s.at_ (s.geo.addr b) b.track b.sector with
    sector_offset := 0
    position := s.position + m }

theorem read_over {n : Nat} (called : s.seekCalled = true) (low : 0 < s.sector_offset) (high : s.sector_offset < 256)
    (positive : 0 < n) (more : s.position < s.size ∨ s.size = 0)
    (fits : s.container.pos + s.portion n ≤ s.container.size) (exceeds : s.sector_offset + s.portion n = 256)
    {b : Block} (next : (⟨s.next_track, s.next_sector⟩ : Block) = b) (runs : b.track ≠ 0) {k : Nat}
    (found : s.geo.linearBlock b.track b.sector = some k) :
    s.read n = (Store.read s.container.data s.container.pos (s.portion n), s.crossed (s.portion n) b) := by
  cases next
  rw [read_selected called low high positive more, transfer_over fits exceeds runs found]
  dsimp only
  rw [Store.length_read]
  rfl

/- The stream behind the header of a block. -/
def headed (s : D64) (b : Block) : D64 :=
  { s.behindLink b 2 with track := s.track, sector := s.sector, size := s.sizeBehind (s.geo.link s.container.data b) }

theorem readBlockHeader_readable {b : Block} (start : s.sector_offset = 0) (here : s.container.pos = s.geo.addr b)
    (r : Readable s.geo s.container.size b) : s.readBlockHeader = s.headed b := by
  rw [readBlockHeader_link, loadLink_readable r here, start]
  rfl

/- What lies behind a file adds nothing to it: the container ends there, or there is what looks like
the header of a block with nothing in use. -/
def Quiet (c : Container) (a : Nat) : Prop := c.size ≤ a + 2 ∨ (c.data a = 0 ∧ (c.data (a + 1)).toNat ≤ 1)

/- The reader is behind the link of a block of a file. -/
structure Inside (s : D64) (b : Block) (rest : List Block) : Prop where
  called : s.seekCalled = true
  low : 2 ≤ s.sector_offset
  high : s.sector_offset < 256
  here : s.container.pos = s.geo.addr b + s.sector_offset
  track : s.next_track = (s.geo.link s.container.data b).track
  sector : s.next_sector = (s.geo.link s.container.data b).sector
  file : FileChain s.geo s.container.data s.container.size b (b :: rest)

/-- The states of a reader, with what is left to deliver. -/
inductive Reading (s : D64) : Str → Prop where
  | middle {b b' : Block} {rest : List Block} (inside : Inside s b (b' :: rest))
      (room : s.position + (256 - s.sector_offset) + (rest.length + 1) * 254 ≤ s.size) :
      Reading s (Store.read s.container.data s.container.pos (256 - s.sector_offset) ++
        s.geo.fileBytes s.container.data (b' :: rest))
  | last {b : Block} (inside : Inside s b []) (used : s.sector_offset ≤ s.geo.usedBytes s.container.data b + 2)
      (sized : s.size = s.position + (s.geo.usedBytes s.container.data b + 2 - s.sector_offset) ∨
        s.geo.usedBytes s.container.data b = 254 ∧ s.position + (256 - s.sector_offset) ≤ s.size ∧
          Quiet s.container (s.geo.addr b + 256)) :
      Reading s (Store.read s.container.data s.container.pos
        (s.geo.usedBytes s.container.data b + 2 - s.sector_offset))
  | start {b : Block} {rest : List Block} (called : s.seekCalled = true) (offset : s.sector_offset = 0)
      (here : s.container.pos = s.geo.addr b)
      (file : FileChain s.geo s.container.data s.container.size b (b :: rest))
      (room : s.position + (rest.length + 1) * 254 ≤ s.size) :
      Reading s (s.geo.fileBytes s.container.data (b :: rest))
  | done (some : 0 < s.size) (ended : s.size ≤ s.position) : Reading s []
  | tail (called : s.seekCalled = true) (offset : s.sector_offset = 0) (ends : s.next_track = 0)
      (begun : 0 < s.position) (more : s.position < s.size) (quiet : Quiet s.container s.container.pos) : Reading s []
  | stuck (called : s.seekCalled = true) (low : 0 < s.sector_offset) (high : s.sector_offset < 256)
      (out : s.container.size ≤ s.container.pos) : Reading s []

/- What one read leaves of a text. -/
def Steps (s : D64) (n : Nat) (left : Str) : Prop :=
  ∃ rest, Takes n (s.read n).1 left rest ∧ Reading (s.read n).2 rest

theorem takes_read (d : Nat → UInt8) (a : Nat) {n m k : Nat} (short : m ≤ n) (inside : m ≤ k) (some : 0 < m)
    (behind : Str) : Takes n (Store.read d a m) (Store.read d a k ++ behind) (Store.read d (a + m) (k - m) ++ behind) where
  join := by
    rw [← List.append_assoc, ← Store.read_add, Nat.add_sub_cancel' inside]
  short := by
    rw [Store.length_read]
    exact short
  some _ := by
    intro empty
    have zero := congrArg List.length empty
    rw [Store.length_read, List.length_nil] at zero
    omega

/- A read in a block that another one follows: inside the block, or up to its end and on to the next. -/
theorem read_middle {b b' : Block} {rest : List Block} (inside : Inside s b (b' :: rest))
    (room : s.position + (256 - s.sector_offset) ≤ s.size) {n : Nat} (positive : 0 < n) :
    s.portion n = min n (256 - s.sector_offset) ∧
    (s.sector_offset + s.portion n < 256 ∧ Inside (s.passed (s.portion n)) b (b' :: rest) ∧
        s.read n = (Store.read s.container.data s.container.pos (s.portion n), s.passed (s.portion n)) ∨
      s.sector_offset + s.portion n = 256 ∧ FileChain s.geo s.container.data s.container.size b' (b' :: rest) ∧
        s.read n = (Store.read s.container.data s.container.pos (s.portion n), s.crossed (s.portion n) b')) := by
  have low := inside.low
  have high := inside.high
  have here := inside.here
  have readable := (inside.file.readable b List.mem_cons_self).fits
  obtain ⟨link, runs, more⟩ := inside.file.next
  have portion : s.portion n = min n (256 - s.sector_offset) := by
    unfold D64.portion available
    omega
  have fits : s.container.pos + s.portion n ≤ s.container.size := by omega
  refine ⟨portion, ?_⟩
  by_cases short : s.sector_offset + s.portion n < 256
  · have read := read_within inside.called (by omega) high positive (by omega) fits (.inr short)
    have offset : (s.sector_offset + s.portion n) % 256 = s.sector_offset + s.portion n := Nat.mod_eq_of_lt short
    have inside' : Inside (s.passed (s.portion n)) b (b' :: rest) :=
      { called := inside.called
        low := by rw [passed_offset]; omega
        high := by rw [passed_offset]; omega
        here := by
          rw [passed_offset, passed_pos, here, offset]
          exact Nat.add_assoc _ _ _
        track := inside.track
        sector := inside.sector
        file := inside.file }
    exact .inl ⟨short, inside', read⟩
  · have next : (⟨s.next_track, s.next_sector⟩ : Block) = b' := by
      rw [inside.track, inside.sector, ← link]
    obtain ⟨k, found⟩ := (more.readable b' List.mem_cons_self).numbered
    have read := read_over inside.called (by omega) high positive (by omega) fits (by omega) next runs found
    exact .inr ⟨by omega, more, read⟩

theorem step_middle {b b' : Block} {rest : List Block} (inside : Inside s b (b' :: rest))
    (room : s.position + (256 - s.sector_offset) + (rest.length + 1) * 254 ≤ s.size) {n : Nat} (positive : 0 < n) :
    s.Steps n (Store.read s.container.data s.container.pos (256 - s.sector_offset) ++
      s.geo.fileBytes s.container.data (b' :: rest)) := by
  have low := inside.low
  have high := inside.high
  obtain ⟨portion, read⟩ := read_middle inside (by omega) positive
  have takes := takes_read s.container.data s.container.pos (n := n) (show s.portion n ≤ n by omega)
    (show s.portion n ≤ 256 - s.sector_offset by omega) (by omega) (s.geo.fileBytes s.container.data (b' :: rest))
  unfold Steps
  rcases read with ⟨short, inside', read⟩ | ⟨exceeds, more, read⟩
  · have offset : (s.sector_offset + s.portion n) % 256 = s.sector_offset + s.portion n := Nat.mod_eq_of_lt short
    have left := Reading.middle inside' (by rw [passed_position, passed_offset, passed_size, offset]; omega)
    rw [passed_offset, offset, ← Nat.sub_sub] at left
    rw [read]
    exact ⟨_, takes, left⟩
  · have none : 256 - s.sector_offset - s.portion n = 0 := by omega
    rw [none] at takes
    rw [read]
    refine ⟨_, takes, Reading.start inside.called rfl rfl more ?_⟩
    show s.position + s.portion n + (rest.length + 1) * 254 ≤ s.size
    omega

theorem Takes.nothing (n : Nat) : Takes n ([] : Str) [] [] := ⟨rfl, Nat.zero_le n, fun no => absurd rfl no⟩

theorem step_ended {n : Nat} (some : 0 < s.size) (ended : s.size ≤ s.position) : s.Steps n [] := by
  unfold Steps
  rw [read_ended some ended]
  exact ⟨[], Takes.nothing n, .done some ended⟩

theorem step_last {b : Block} (inside : Inside s b []) (used : s.sector_offset ≤ s.geo.usedBytes s.container.data b + 2)
    (sized : s.size = s.position + (s.geo.usedBytes s.container.data b + 2 - s.sector_offset) ∨
      s.geo.usedBytes s.container.data b = 254 ∧ s.position + (256 - s.sector_offset) ≤ s.size ∧
        Quiet s.container (s.geo.addr b + 256)) {n : Nat} (positive : 0 < n) :
    s.Steps n (Store.read s.container.data s.container.pos
      (s.geo.usedBytes s.container.data b + 2 - s.sector_offset)) := by
  have low := inside.low
  have high := inside.high
  have here := inside.here
  have readable := (inside.file.readable b List.mem_cons_self).fits
  have most := s.geo.usedBytes_le s.container.data b
  have ends : s.next_track = 0 := inside.track.trans inside.file.last
  -- `w` bytes of the block are left
  generalize inUse : s.geo.usedBytes s.container.data b = u at used sized most ⊢
  obtain ⟨w, left⟩ : ∃ w, w = u + 2 - s.sector_offset := ⟨_, rfl⟩
  rw [← left]
  by_cases none : 0 < s.size ∧ s.size ≤ s.position
  · have empty : w = 0 := by omega
    rw [empty]
    exact step_ended none.1 none.2
  have portion : s.portion n = min n w := by
    unfold D64.portion available
    omega
  have fits : s.container.pos + s.portion n ≤ s.container.size := by omega
  have read := read_within inside.called (by omega) high positive (by omega) fits (.inl ends)
  have takes : Takes n (Store.read s.container.data s.container.pos (s.portion n))
      (Store.read s.container.data s.container.pos w)
      (Store.read s.container.data (s.container.pos + s.portion n) (w - s.portion n)) := by
    rcases Nat.eq_zero_or_pos w with empty | some
    · have zero : s.portion n = 0 := by omega
      rw [empty, zero]
      exact Takes.nothing n
    · have more := takes_read s.container.data s.container.pos (n := n) (show s.portion n ≤ n by omega)
        (show s.portion n ≤ w by omega) (by omega) []
      rw [List.append_nil, List.append_nil] at more
      exact more
  unfold Steps
  rw [read]
  refine ⟨_, takes, ?_⟩
  by_cases short : s.sector_offset + s.portion n < 256
  · have offset : (s.sector_offset + s.portion n) % 256 = s.sector_offset + s.portion n := Nat.mod_eq_of_lt short
    have inside' : Inside (s.passed (s.portion n)) b [] :=
      { called := inside.called
        low := by rw [passed_offset]; omega
        high := by rw [passed_offset]; omega
        here := by
          rw [passed_offset, passed_pos, here, offset]
          exact Nat.add_assoc _ _ _
        track := inside.track
        sector := inside.sector
        file := inside.file }
    have next := @Reading.last (s.passed (s.portion n)) b inside'
      (by
        show (s.passed (s.portion n)).sector_offset ≤ s.geo.usedBytes s.container.data b + 2
        rw [passed_offset, offset, inUse]
        omega)
      (by
        show (s.passed (s.portion n)).size = (s.passed (s.portion n)).position +
          (s.geo.usedBytes s.container.data b + 2 - (s.passed (s.portion n)).sector_offset) ∨
          s.geo.usedBytes s.container.data b = 254 ∧ (s.passed (s.portion n)).position +
            (256 - (s.passed (s.portion n)).sector_offset) ≤ (s.passed (s.portion n)).size ∧
            Quiet s.container (s.geo.addr b + 256)
        rw [passed_offset, passed_position, passed_size, offset, inUse]
        rcases sized with exact_ | ⟨full, room, quiet⟩
        · exact .inl (by omega)
        · exact .inr ⟨full, by omega, quiet⟩)
    have rest : s.geo.usedBytes s.container.data b + 2 - (s.passed (s.portion n)).sector_offset = w - s.portion n := by
      rw [passed_offset, offset, inUse]
      omega
    exact rest ▸ next
  · have all : w - s.portion n = 0 := by omega
    rw [all, Store.read_zero]
    by_cases more : s.position + s.portion n < s.size
    · rcases sized with exact_ | ⟨full, room, quiet⟩
      · omega
      · refine .tail inside.called ?_ ends ?_ more ?_
        · rw [passed_offset]
          omega
        · rw [passed_position]
          omega
        · have place : s.container.pos + s.portion n = s.geo.addr b + 256 := by omega
          show Quiet (s.container.seek (s.container.pos + s.portion n)) (s.container.pos + s.portion n)
          rw [place]
          exact quiet
    · exact .done (by rw [passed_size]; omega) (by rw [passed_size, passed_position]; omega)

/- Behind the header of its block the reader is inside the block. -/
theorem headed_inside {b : Block} {rest : List Block} (called : s.seekCalled = true)
    (file : FileChain s.geo s.container.data s.container.size b (b :: rest)) : Inside (s.headed b) b rest where
  called := called
  low := Nat.le_refl 2
  high := (by decide : 2 < 256)
  here := rfl
  track := rfl
  sector := rfl
  file := file

/- The header of a block that another one follows leaves the size alone. -/
theorem headed_size {b b' : Block} {rest : List Block}
    (file : FileChain s.geo s.container.data s.container.size b (b :: b' :: rest)) (more : s.position < s.size) :
    (s.headed b).size = s.size := by
  obtain ⟨link, runs, -⟩ := file.next
  show s.sizeBehind (s.geo.link s.container.data b) = _
  unfold sizeBehind available
  rw [if_neg (link ▸ runs), if_neg (by omega)]

/- A read at the start of a block is one behind its header. -/
theorem read_start {b : Block} {rest : List Block} (called : s.seekCalled = true) (offset : s.sector_offset = 0)
    (here : s.container.pos = s.geo.addr b)
    (file : FileChain s.geo s.container.data s.container.size b (b :: rest)) (more : s.position < s.size)
    {n : Nat} (positive : 0 < n) : s.read n = (s.headed b).read n := by
  have header := readBlockHeader_readable offset here (file.readable b List.mem_cons_self)
  have smaller : (s.headed b).size ≤ s.size := sizeBehind_le (s.geo.link s.container.data b) more
  have read := read_header called offset positive more (by rw [header]; exact smaller)
  rw [header] at read
  exact read

theorem step_start {b : Block} {rest : List Block} (called : s.seekCalled = true) (offset : s.sector_offset = 0)
    (here : s.container.pos = s.geo.addr b)
    (file : FileChain s.geo s.container.data s.container.size b (b :: rest))
    (room : s.position + (rest.length + 1) * 254 ≤ s.size) {n : Nat} (positive : 0 < n) :
    s.Steps n (s.geo.fileBytes s.container.data (b :: rest)) := by
  have most := s.geo.usedBytes_le s.container.data b
  have inside := headed_inside called file
  unfold Steps
  rw [read_start called offset here file (by omega) positive]
  cases rest with
  | nil =>
    have size : (s.headed b).size = s.position + s.geo.usedBytes s.container.data b := by
      show s.sizeBehind (s.geo.link s.container.data b) = _
      unfold sizeBehind available
      rw [if_pos file.last]
      rw [List.length_nil] at room
      unfold Geometry.usedBytes at most ⊢
      split
      · rfl
      · split
        · omega
        · omega
    exact step_last inside (Nat.le_add_left 2 _) (.inl size) positive
  | cons b' rest =>
    have size := headed_size file (show s.position < s.size by omega)
    have room' : (s.headed b).position + (256 - (s.headed b).sector_offset) + (rest.length + 1) * 254 ≤ (s.headed b).size := by
      rw [size]
      show s.position + 254 + (rest.length + 1) * 254 ≤ s.size
      rw [List.length_cons] at room
      omega
    exact step_middle inside room' positive

theorem step_stuck (called : s.seekCalled = true) (low : 0 < s.sector_offset) (high : s.sector_offset < 256)
    (out : s.container.size ≤ s.container.pos) {n : Nat} (positive : 0 < n) : s.Steps n [] := by
  by_cases ended : 0 < s.size ∧ s.size ≤ s.position
  · exact step_ended ended.1 ended.2
  · unfold Steps
    rw [read_selected called low high positive (by omega), transfer_none low high (.inr out)]
    exact ⟨[], Takes.nothing n, .stuck called low high out⟩

theorem step_tail (called : s.seekCalled = true) (offset : s.sector_offset = 0) (begun : 0 < s.position)
    (more : s.position < s.size) (quiet : Quiet s.container s.container.pos) {n : Nat} (positive : 0 < n) :
    s.Steps n [] := by
  have header := readBlockHeader_link s
  have smaller : s.readBlockHeader.size ≤ s.size := by
    rw [header]
    exact sizeBehind_le _ more
  have read := read_header called offset positive more smaller
  unfold Steps
  rw [read]
  by_cases out : s.container.size ≤ s.container.pos + 2
  · have behind : s.readBlockHeader.container.size ≤ s.readBlockHeader.container.pos := by
      rw [header]
      simp only [loadLink, readContainer, Container.read]
      omega
    refine step_stuck ?_ ?_ ?_ behind positive
    · rw [header]
      exact called
    · rw [header, offset]
      exact (by decide : 0 < 2)
    · rw [header, offset]
      exact (by decide : 2 < 256)
  · obtain ⟨track, sector⟩ := quiet.resolve_left out
    have size : s.readBlockHeader.size = s.position := by
      rw [header, loadLink_full (by omega)]
      show s.sizeBehind ⟨(s.container.data s.container.pos).toNat, (s.container.data (s.container.pos + 1)).toNat⟩ = _
      unfold sizeBehind available
      rw [if_pos (by rw [track]; rfl), if_pos (by dsimp only; omega)]
      dsimp only
      omega
    have place : s.readBlockHeader.position = s.position := by
      rw [header]
      rfl
    exact step_ended (by omega) (by omega)

/-- One read of a reader. -/
theorem Reading.step {left : Str} (reading : Reading s left) {n : Nat} (positive : 0 < n) : s.Steps n left := by
  cases reading with
  | middle inside room => exact step_middle inside room positive
  | last inside used sized => exact step_last inside used sized positive
  | start called offset here file room => exact step_start called offset here file room positive
  | done some ended => exact step_ended some ended
  | tail called offset ends begun more quiet => exact step_tail called offset begun more quiet positive
  | stuck called low high out => exact step_stuck called low high out positive

/- `read` with its size first. -/
def readOf (n : Nat) (s : D64) : List UInt8 × D64 := s.read n

/-- A reader delivers what is left to deliver. -/
theorem Reading.delivers {left : Str} (reading : Reading s left) : Delivers readOf (0 < ·) s left :=
  Delivers.of_invariant Reading (fun _ _ _ here positive => here.step positive) reading

/- The reader at the start of the first block of the file. Its size is what the blocks of the entry
can hold. -/
def selected (r : D64) : D64 :=
  { r.at_ (r.geo.addr (startBlock r.entry)) (startBlock r.entry).track (startBlock r.entry).sector with
    size := entryBlocks r.entry * 254 }

/- A path that names a file selects it. -/
theorem seekPathIn_file {t r : D64} {path : Str} (plain : endsWithHash path = false)
    (resolved : t.resetPath.resolvePath path = some (.file, r))
    (readable : Readable r.geo r.container.size (startBlock r.entry)) :
    t.seekPathIn path = some (true, r.selected) := by
  obtain ⟨n, found⟩ := readable.numbered
  have seek := seekSector_some { r with size := entryBlocks r.entry * 254 } (startBlock r.entry) found 0
  unfold seekPathIn
  dsimp only
  rw [if_neg (by simp [plain]), resolved]
  exact congrArg some seek

/- What a lookup leaves alone of the reader. -/
theorem resolvePath_reader {t r : D64} {path : Str} (resolved : t.resetPath.resolvePath path = some (.file, r)) :
    r.seekCalled = true ∧ r.position = 0 ∧ r.sector_offset = 0 := by
  have walks : Walks t.resetPath r := resolvePath_walks t.resetPath path _ resolved
  rw [walks.eq]
  exact ⟨rfl, rfl, rfl⟩

end D64

namespace FileChain

variable {g : Geometry} {d : Nat → UInt8} {size : Nat} {b : Block}

/- The chain from a block of it on. -/
theorem drop {chain : List Block} {i : Nat} {c : Block} (h : FileChain g d size b chain) (there : chain[i]? = some c) :
    FileChain g d size c (chain.drop i) ∧ chain.drop i = c :: chain.drop (i + 1) := by
  induction i generalizing b chain with
  | zero =>
    cases chain with
    | nil => cases there
    | cons b' rest =>
      cases there
      cases h.head
      exact ⟨h, rfl⟩
  | succ i ih =>
    cases chain with
    | nil => cases there
    | cons b' rest =>
      cases rest with
      | nil => cases there
      | cons b'' rest =>
        cases h.head
        obtain ⟨-, -, more⟩ := h.next
        exact ih more there

end FileChain

namespace Geometry

variable (g : Geometry) (d : Nat → UInt8)

end Geometry

namespace D64

variable {s : D64}

/- What follows a file passes for more of it. -/
theorem read_behind (called : s.seekCalled = true) (offset : s.sector_offset = 0) (more : s.position < s.size)
    (noisy : ¬ Quiet s.container s.container.pos) : (s.read 1).1 ≠ [] := by
  have inside : s.container.pos + 2 < s.container.size := by
    by_contra out
    exact noisy (.inl (by omega))
  have header := readBlockHeader_link s
  have read := read_header called offset Nat.one_pos more (by rw [header]; exact sizeBehind_le _ more)
  have left : s.position < s.readBlockHeader.size := by
    rw [header, loadLink_full (by omega)]
    show s.position < s.sizeBehind ⟨(s.container.data s.container.pos).toNat, (s.container.data (s.container.pos + 1)).toNat⟩
    unfold sizeBehind available
    by_cases ends : (s.container.data s.container.pos).toNat = 0
    · have some : 1 < (s.container.data (s.container.pos + 1)).toNat := by
        by_contra few
        exact noisy (.inr ⟨UInt8.toNat.inj ends, by omega⟩)
      rw [if_pos ends]
      dsimp only
      split
      · omega
      · rw [if_neg (by omega)]
        exact more
    · rw [if_neg ends, if_neg (by omega)]
      exact more
  obtain ⟨h, same, place, behind, width, called', offset'⟩ : ∃ h, s.readBlockHeader = h ∧ h.position = s.position ∧
      h.container.pos = s.container.pos + 2 ∧ h.container.size = s.container.size ∧ h.seekCalled = true ∧
      h.sector_offset = 2 := by
    refine ⟨_, rfl, ?_⟩
    rw [header, loadLink_full (by omega), offset]
    exact ⟨rfl, rfl, rfl, called, rfl⟩
  rw [read]
  rw [same] at left ⊢
  have one : h.portion 1 = 1 := by
    unfold portion available
    omega
  rw [read_within called' (by omega) (by omega) Nat.one_pos (by omega) (by omega) (.inr (by omega)), one]
  exact List.cons_ne_nil _ _

/- A reader in the last block that delivers what is in use is in a full one, with nothing behind it. -/
theorem Inside.full {b : Block} (inside : Inside s b []) (room : s.position + (256 - s.sector_offset) ≤ s.size)
    (delivers : Delivers readOf (0 < ·) s
      (Store.read s.container.data s.container.pos (s.geo.usedBytes s.container.data b + 2 - s.sector_offset))) :
    s.geo.usedBytes s.container.data b = 254 ∧
      (s.size = s.position + (256 - s.sector_offset) ∨ Quiet s.container (s.geo.addr b + 256)) := by
  have low := inside.low
  have high := inside.high
  have here := inside.here
  have readable := (inside.file.readable b List.mem_cons_self).fits
  have most := s.geo.usedBytes_le s.container.data b
  have portion : s.portion 254 = 256 - s.sector_offset := by
    unfold D64.portion available
    omega
  have read := read_within (n := 254) inside.called (by omega) high (by decide) (by omega) (by omega)
    (.inl (inside.track.trans inside.file.last))
  rw [portion] at read
  obtain ⟨left, join, takes⟩ := delivers [254] (by simp)
  have drained : drain readOf [254] s =
      (Store.read s.container.data s.container.pos (256 - s.sector_offset), s.passed (256 - s.sector_offset)) := by
    simp only [drain, readOf, read, List.append_nil]
  rw [drained] at join takes
  have lengths := congrArg List.length join
  rw [List.length_append, Store.length_read, Store.length_read] at lengths
  have full : s.geo.usedBytes s.container.data b = 254 := by omega
  refine ⟨full, ?_⟩
  by_contra more
  rw [not_or] at more
  have nothing : left = [] := List.eq_nil_of_length_eq_zero (by omega)
  obtain ⟨rest, takes⟩ := takes 1 Nat.one_pos
  rw [nothing] at takes
  have none := (List.append_eq_nil_iff.mp takes.join.symm).1
  have offset : (s.sector_offset + (256 - s.sector_offset)) % 256 = 0 := by
    rw [Nat.add_sub_cancel' (Nat.le_of_lt high)]
  have place : s.container.pos + (256 - s.sector_offset) = s.geo.addr b + 256 := by omega
  refine read_behind (s := s.passed (256 - s.sector_offset)) inside.called offset ?_ ?_ none
  · rw [passed_position, passed_size]
    omega
  · rw [passed_pos, place]
    exact more.2

variable {front : List Block} {last : Block}

/- A D64 with a file "a" of one block, 17/0, with `last` as its last used byte. -/
def oneBlock (last : UInt8) : Container where
  data := Store.put (Store.put (fun _ => 0) 91650 (newEntry [0x61] ⟨17, 0⟩ 1)) 86016 [0, last]
  size := 174848

/- What is there to see of it. -/
def oneBlockView (last : UInt8) : Option (PathResult × Bool × Nat × Nat × Nat) :=
  ((D64.new .d64 (oneBlock last)).resetPath.resolvePath [0x61]).map fun r =>
    (r.1, decide (startBlock r.2.entry = ⟨17, 0⟩ ∧ r.2.geo.linearBlock 17 0 = some 336 ∧
      (r.2.geo.link r.2.container.data ⟨17, 0⟩).track = 0), r.2.geo.addr ⟨17, 0⟩, r.2.container.size, entryBlocks r.2.entry)

theorem oneBlock_found (last : UInt8) (view : oneBlockView last = some (.file, true, 86016, 174848, 1)) :
    ∃ r, (D64.new .d64 (oneBlock last)).resetPath.resolvePath [0x61] = some (.file, r) ∧
      FileChain r.geo r.container.data r.container.size (startBlock r.entry) [⟨17, 0⟩] ∧ entryBlocks r.entry = 1 := by
  obtain ⟨⟨kind, r⟩, resolved, facts⟩ := Option.map_eq_some_iff.mp view
  obtain ⟨rfl, facts⟩ := Prod.mk.inj facts
  obtain ⟨checks, facts⟩ := Prod.mk.inj facts
  obtain ⟨place, facts⟩ := Prod.mk.inj facts
  obtain ⟨size, blocks⟩ := Prod.mk.inj facts
  obtain ⟨start, number, ends⟩ := of_decide_eq_true checks
  refine ⟨r, resolved, ⟨?_, List.cons_ne_nil _ _, ?_⟩, blocks⟩
  · dsimp only at start
    rw [start]
    exact .step (show (17 : Nat) ≠ 0 by decide) (.done ends)
  · intro c member
    rw [List.mem_singleton.mp member]
    dsimp only at place size
    exact ⟨⟨336, number⟩, by rw [place, size]; decide⟩

end D64

end Meatloaf.Disk
