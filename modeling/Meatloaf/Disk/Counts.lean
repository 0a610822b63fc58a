import Meatloaf.Disk.Seek

/-! Files whose directory entry counts too few blocks. A reader starts with the size that the count
allows and never comes back from a size it has read up to, so only a count of none is made good. -/
namespace Meatloaf.Disk

open Lib

namespace Geometry

variable (g : Geometry) (d : Nat → UInt8)

/- The data of blocks that are all in use. -/
def fullBytes (chain : List Block) : Str := chain.flatMap fun b => Store.read d (g.addr b + 2) 254

theorem length_fullBytes (chain : List Block) : (g.fullBytes d chain).length = 254 * chain.length := by
  induction chain with
  | nil => rfl
  | cons b chain ih =>
    rw [fullBytes] at ih ⊢
    rw [List.flatMap_cons, List.length_append, Store.length_read, ih, List.length_cons]
    omega

theorem fileBytes_snoc (chain : List Block) (last : Block) :
    g.fileBytes d (chain ++ [last]) = g.fullBytes d chain ++ Store.read d (g.addr last + 2) (g.usedBytes d last) := by
  induction chain with
  | nil => rfl
  | cons b chain ih =>
    cases chain with
    | nil => simp [fileBytes, fullBytes]
    | cons b' chain =>
      rw [List.cons_append] at ih
      rw [List.cons_append, List.cons_append, fileBytes, ih]
      simp [fullBytes]

/- Of a file, the data of blocks before the last one. -/
theorem fullBytes_take {chain : List Block} {last : Block} {m : Nat} (fewer : m ≤ chain.length) :
    g.fullBytes d ((chain ++ [last]).take m) = (g.fileBytes d (chain ++ [last])).take (254 * m) := by
  have front : (chain ++ [last]).take m = chain.take m := List.take_append_of_le_length fewer
  have parts : g.fullBytes d chain = g.fullBytes d (chain.take m) ++ g.fullBytes d (chain.drop m) := by
    unfold fullBytes
    rw [← List.flatMap_append, List.take_append_drop]
  have long : (g.fullBytes d (chain.take m)).length = 254 * m := by
    rw [length_fullBytes, List.length_take, Nat.min_eq_left fewer]
  rw [front, fileBytes_snoc, parts, List.append_assoc, List.take_left' long]

end Geometry

namespace D64

variable {s : D64}

/-- The states of a reader whose size ends with a block that is not the last one, with what is left
to deliver. -/
inductive Capped (s : D64) : Str → Prop where
  | middle {b b' : Block} {rest : List Block} {j : Nat} (inside : Inside s b (b' :: rest)) (fewer : j ≤ rest.length)
      (room : s.position + (256 - s.sector_offset) + j * 254 = s.size) :
      Capped s (Store.read s.container.data s.container.pos (256 - s.sector_offset) ++
        s.geo.fullBytes s.container.data ((b' :: rest).take j))
  | start {b : Block} {rest : List Block} {j : Nat} (called : s.seekCalled = true) (offset : s.sector_offset = 0)
      (here : s.container.pos = s.geo.addr b)
      (file : FileChain s.geo s.container.data s.container.size b (b :: rest)) (fewer : j < rest.length)
      (room : s.position + (j + 1) * 254 = s.size) :
      Capped s (s.geo.fullBytes s.container.data ((b :: rest).take (j + 1)))
  | done (some : 0 < s.size) (ended : s.size ≤ s.position) : Capped s []

/- What one read leaves of a text that ends early. -/
def StepsCapped (s : D64) (n : Nat) (left : Str) : Prop :=
  ∃ rest, Takes n (s.read n).1 left rest ∧ Capped (s.read n).2 rest

theorem capped_middle {b b' : Block} {rest : List Block} {j : Nat} (inside : Inside s b (b' :: rest))
    (fewer : j ≤ rest.length) (room : s.position + (256 - s.sector_offset) + j * 254 = s.size) {n : Nat}
    (positive : 0 < n) :
    s.StepsCapped n (Store.read s.container.data s.container.pos (256 - s.sector_offset) ++
      s.geo.fullBytes s.container.data ((b' :: rest).take j)) := by
  have low := inside.low
  have high := inside.high
  obtain ⟨portion, read⟩ := read_middle inside (by omega) positive
  have takes := takes_read s.container.data s.container.pos (n := n) (show s.portion n ≤ n by omega)
    (show s.portion n ≤ 256 - s.sector_offset by omega) (by omega)
    (s.geo.fullBytes s.container.data ((b' :: rest).take j))
  unfold StepsCapped
  rcases read with ⟨short, inside', read⟩ | ⟨exceeds, more, read⟩
  · have offset : (s.sector_offset + s.portion n) % 256 = s.sector_offset + s.portion n := Nat.mod_eq_of_lt short
    have left := Capped.middle (j := j) inside' fewer
      (by rw [passed_position, passed_offset, passed_size, offset]; omega)
    rw [passed_offset, offset, ← Nat.sub_sub] at left
    rw [read]
    exact ⟨_, takes, left⟩
  · have none : 256 - s.sector_offset - s.portion n = 0 := by omega
    rw [none] at takes
    rw [read]
    refine ⟨_, takes, ?_⟩
    cases j with
    | zero =>
      refine Capped.done ?_ ?_
      · show 0 < s.size
        omega
      · show s.size ≤ s.position + s.portion n
        omega
    | succ j =>
      refine Capped.start inside.called rfl rfl more fewer ?_
      show s.position + s.portion n + (j + 1) * 254 = s.size
      omega

theorem capped_start {b : Block} {rest : List Block} {j : Nat} (called : s.seekCalled = true)
    (offset : s.sector_offset = 0) (here : s.container.pos = s.geo.addr b)
    (file : FileChain s.geo s.container.data s.container.size b (b :: rest)) (fewer : j < rest.length)
    (room : s.position + (j + 1) * 254 = s.size) {n : Nat} (positive : 0 < n) :
    s.StepsCapped n (s.geo.fullBytes s.container.data ((b :: rest).take (j + 1))) := by
  unfold StepsCapped
  rw [read_start called offset here file (by omega) positive]
  cases rest with
  | nil => cases fewer
  | cons b' rest =>
    have size := headed_size file (show s.position < s.size by omega)
    exact capped_middle (headed_inside called file) (Nat.le_of_lt_succ fewer) (by
      rw [size]
      show s.position + 254 + j * 254 = s.size
      omega) positive

theorem Capped.step {left : Str} (capped : Capped s left) {n : Nat} (positive : 0 < n) : s.StepsCapped n left := by
  cases capped with
  | middle inside fewer room => exact capped_middle inside fewer room positive
  | start called offset here file fewer room => exact capped_start called offset here file fewer room positive
  | done some ended =>
    unfold StepsCapped
    rw [read_ended some ended]
    exact ⟨[], Takes.nothing n, .done some ended⟩

/-- A reader whose size ends early delivers what is before that end. -/
theorem Capped.delivers {left : Str} (capped : Capped s left) : Delivers readOf (0 < ·) s left :=
  Delivers.of_invariant Capped (fun _ _ _ here positive => here.step positive) capped

/- The reader with another size. -/
def sized (s : D64) (n : Nat) : D64 := { s with size := n }

/- The header of the first block gives a reader without a size the one of a single block. -/
theorem headed_uncounted (position : s.position = 0) (size : s.size = 0) (b : Block) :
    s.headed b = (s.sized 254).headed b := by
  have most := s.geo.usedBytes_le s.container.data b
  have same : s.sizeBehind (s.geo.link s.container.data b) =
      (s.sized 254).sizeBehind (s.geo.link s.container.data b) := by
    have last : ∀ used : Nat, used ≤ 254 → (0 + used = if used < 254 - 0 then 0 + used else 254) := by
      intro used fits
      split
      · rfl
      · omega
    unfold sizeBehind available
    change _ = if (s.geo.link s.container.data b).track = 0 then
      if (s.geo.link s.container.data b).sector - 1 < 254 - s.position then
        s.position + ((s.geo.link s.container.data b).sector - 1)
      else if 254 - s.position = 0 then 254 + ((s.geo.link s.container.data b).sector - 1) else 254
      else if 254 - s.position = 0 then 254 + 254 else 254
    rw [position, size]
    split
    · exact last _ most
    · rfl
  unfold headed
  rw [same]
  rfl

/- What `read` makes of the bytes it gets. -/
def counting (r : List UInt8 × D64) : List UInt8 × D64 :=
  (r.1, { r.2 with position := r.2.position + r.1.length })

theorem read_unsized (called : s.seekCalled = true) (size : s.size = 0) (n : Nat) :
    s.read n = counting (s.readFile n) := by
  unfold read
  rw [if_neg (by omega)]
  dsimp only
  rw [if_pos called, if_neg (by omega)]
  rfl

theorem read_sized (called : s.seekCalled = true) (more : s.position < s.size) (n : Nat) :
    s.read n = counting (s.readFile (min n (s.size - s.position))) := by
  unfold read
  rw [if_neg (by omega)]
  dsimp only
  rw [if_pos called, if_pos (by omega)]
  rfl

/- A read at the start of a block continues behind the header. -/
theorem readFile_header {t : D64} (start : s.sector_offset = 0) (header : s.readBlockHeader = t)
    (offset : t.sector_offset = 2) {n : Nat} (positive : 0 < n) : s.readFile n = t.transfer (t.portion n) := by
  rw [← readFile_inside (s := t) (by omega) (by omega) positive]
  unfold readFile
  rw [start, header, offset]
  rfl

/-- A count of none reads like a count of one. -/
theorem read_uncounted {b : Block} (called : s.seekCalled = true) (offset : s.sector_offset = 0)
    (position : s.position = 0) (size : s.size = 0) (here : s.container.pos = s.geo.addr b)
    (readable : Readable s.geo s.container.size b) {n : Nat} (positive : 0 < n) :
    s.read n = (s.sized 254).read n := by
  have header : s.readBlockHeader = s.headed b := readBlockHeader_readable offset here readable
  have header' : (s.sized 254).readBlockHeader = s.headed b := by
    rw [headed_uncounted position size]
    exact readBlockHeader_readable offset here readable
  have room : (s.sized 254).size - (s.sized 254).position = 254 := by
    show 254 - s.position = 254
    omega
  have cut : (s.headed b).portion (min n 254) = (s.headed b).portion n := by
    show min (min (min n 254) _) (256 - 2) = min (min n _) (256 - 2)
    omega
  rw [read_unsized called size, read_sized (s := s.sized 254) called (by omega), room,
    readFile_header offset header rfl positive,
    readFile_header (s := s.sized 254) offset header' rfl (by omega), cut]

theorem delivers_uncounted {b : Block} (called : s.seekCalled = true) (offset : s.sector_offset = 0)
    (position : s.position = 0) (size : s.size = 0) (here : s.container.pos = s.geo.addr b)
    (readable : Readable s.geo s.container.size b) (text : Str) :
    Delivers readOf (0 < ·) s text ↔ Delivers readOf (0 < ·) (s.sized 254) text := by
  apply Delivers.congr
  intro n positive
  exact read_uncounted called offset position size here readable positive

/-- The count covers the blocks, or all of them but a last one with nothing in use. None counts
as one. -/
def Counted (blocks n used : Nat) : Prop := n ≤ max blocks 1 ∨ n = max blocks 1 + 1 ∧ used = 0

/- The reader with some count. -/
theorem counted_iff {b last : Block} {front : List Block} {m : Nat} (called : s.seekCalled = true)
    (offset : s.sector_offset = 0) (position : s.position = 0) (here : s.container.pos = s.geo.addr b)
    (file : FileChain s.geo s.container.data s.container.size b (front ++ [last])) (size : s.size = (m + 1) * 254) :
    Delivers readOf (0 < ·) s (s.geo.fileBytes s.container.data (front ++ [last])) ↔
      Counted (m + 1) (front.length + 1) (s.geo.usedBytes s.container.data last) := by
  have most : max (m + 1) 1 = m + 1 := by omega
  unfold Counted
  rw [most]
  obtain ⟨rest, chain⟩ : ∃ rest, front ++ [last] = b :: rest := by
    cases chain : front ++ [last] with
    | nil => exact absurd chain (by simp)
    | cons b' rest =>
      rw [chain] at file
      cases file.head
      exact ⟨rest, rfl⟩
  have count : rest.length = front.length := by
    have lengths := congrArg List.length chain
    rw [List.length_append, List.length_singleton, List.length_cons] at lengths
    omega
  have file' := chain ▸ file
  by_cases covered : front.length + 1 ≤ m + 1
  · refine ⟨fun _ => .inl covered, fun _ => ?_⟩
    have reading := Reading.start called offset here file' (by rw [position, size, count]; omega)
    rw [chain]
    exact reading.delivers
  · -- the reader stops behind block `m`
    have capped := Capped.start (j := m) called offset here file' (by omega) (by rw [position, size]; omega)
    rw [← chain, Geometry.fullBytes_take _ _ (by omega)] at capped
    have length := s.geo.fileBytes_length s.container.data front last
    constructor
    · intro delivers
      have same := congrArg List.length (delivers.unique capped.delivers Nat.one_pos)
      rw [List.length_take, length] at same
      exact .inr (by omega)
    · rintro (covers | ⟨one, unused⟩)
      · exact absurd covers covered
      · have all := capped.delivers
        rwa [List.take_of_length_le (by rw [length, unused]; omega)] at all

/-- A file is delivered whole, in pieces of any sizes, exactly when its entry counts its blocks. -/
theorem selected_reads_iff (t r : D64) (path : Str) (plain : endsWithHash path = false)
    (resolved : t.resetPath.resolvePath path = some (.file, r)) (front : List Block) (last : Block)
    (file : FileChain r.geo r.container.data r.container.size (startBlock r.entry) (front ++ [last])) :
    ∃ s, t.seekPathIn path = some (true, s) ∧
      (Delivers readOf (0 < ·) s (r.geo.fileBytes r.container.data (front ++ [last])) ↔
        Counted (entryBlocks r.entry) (front.length + 1) (r.geo.usedBytes r.container.data last)) := by
  obtain ⟨called, position, offset⟩ := resolvePath_reader resolved
  have start : startBlock r.entry ∈ front ++ [last] := by
    apply file.chained.start_mem
    intro ends
    exact file.begun (file.chained.nil_iff.mpr ends)
  have readable := file.readable _ start
  refine ⟨_, seekPathIn_file plain resolved readable, ?_⟩
  cases blocks : entryBlocks r.entry with
  | zero =>
    have size : r.selected.size = 0 := by
      show entryBlocks r.entry * 254 = 0
      rw [blocks]
    have one := counted_iff (s := r.selected.sized 254) (m := 0) called offset position rfl file rfl
    exact (delivers_uncounted (s := r.selected) called offset position size rfl readable _).trans one
  | succ m =>
    have size : r.selected.size = (m + 1) * 254 := by
      show entryBlocks r.entry * 254 = _
      rw [blocks]
    exact counted_iff (s := r.selected) called offset position rfl file size

/- A D64 with a file "a" of the blocks 17/0 and 17/1. Its entry counts one. -/
def twoBlocks : Container where
  data := Store.put (Store.put (Store.put (fun _ => 0) 91650 (newEntry [0x61] ⟨17, 0⟩ 1)) 86016 [17, 1]) 86272 [0, 11]
  size := 174848

/- What is there to see of it. -/
def twoBlocksView : Option (PathResult × Bool) :=
  ((D64.new .d64 twoBlocks).resetPath.resolvePath [0x61]).map fun r =>
    (r.1, decide (startBlock r.2.entry = ⟨17, 0⟩ ∧ entryBlocks r.2.entry = 1 ∧
      r.2.geo.link r.2.container.data ⟨17, 0⟩ = ⟨17, 1⟩ ∧ r.2.geo.link r.2.container.data ⟨17, 1⟩ = ⟨0, 11⟩ ∧
      r.2.geo.linearBlock 17 0 = some 336 ∧ r.2.geo.linearBlock 17 1 = some 337 ∧
      r.2.geo.addr ⟨17, 0⟩ + 512 ≤ r.2.container.size ∧ r.2.geo.addr ⟨17, 1⟩ + 256 ≤ r.2.container.size))

/-- The second block is not delivered. -/
theorem count_truncates : ∃ r s, (D64.new .d64 twoBlocks).resetPath.resolvePath [0x61] = some (.file, r) ∧
    FileChain r.geo r.container.data r.container.size (startBlock r.entry) [⟨17, 0⟩, ⟨17, 1⟩] ∧
      (D64.new .d64 twoBlocks).seekPathIn [0x61] = some (true, s) ∧
        ¬ Delivers readOf (0 < ·) s (r.geo.fileBytes r.container.data [⟨17, 0⟩, ⟨17, 1⟩]) := by
  have view : twoBlocksView = some (.file, true) := by decide +kernel
  obtain ⟨⟨kind, r⟩, resolved, facts⟩ := Option.map_eq_some_iff.mp view
  obtain ⟨rfl, checks⟩ := Prod.mk.inj facts
  obtain ⟨start, blocks, link, ends, first, second, fits, fits'⟩ := of_decide_eq_true checks
  dsimp only at start blocks link ends first second fits fits'
  have file : FileChain r.geo r.container.data r.container.size (startBlock r.entry) ([⟨17, 0⟩] ++ [⟨17, 1⟩]) := by
    refine ⟨?_, List.cons_ne_nil _ _, ?_⟩
    · rw [start]
      refine .step (show (17 : Nat) ≠ 0 by decide) ?_
      rw [link]
      refine .step (show (17 : Nat) ≠ 0 by decide) ?_
      rw [ends]
      exact .done rfl
    · rintro c member
      rcases List.mem_cons.mp member with rfl | member
      · exact ⟨⟨336, first⟩, by omega⟩
      · rw [List.mem_singleton.mp member]
        exact ⟨⟨337, second⟩, fits'⟩
  obtain ⟨called, position, offset⟩ := resolvePath_reader resolved
  have readable := file.readable (startBlock r.entry) (by rw [start]; exact List.mem_cons_self)
  have used : r.geo.usedBytes r.container.data ⟨17, 1⟩ = 10 := by
    unfold Geometry.usedBytes
    rw [ends]
    rfl
  refine ⟨r, _, resolved, file, seekPathIn_file (by decide) resolved readable, ?_⟩
  intro delivers
  have size : r.selected.size = (0 + 1) * 254 := by
    show entryBlocks r.entry * 254 = _
    rw [blocks]
  have counted := (counted_iff (s := r.selected) called offset position rfl file size).mp delivers
  rcases counted with covers | ⟨-, unused⟩
  · exact absurd covers (by decide)
  · exact absurd (used.symm.trans unused) (by decide)

theorem selected_reads_iff_sample : ∃ s, (D64.new .d64 (oneBlock 255)).seekPathIn [0x61] = some (true, s) ∧
    ∃ content, Delivers readOf (0 < ·) s content := by
  obtain ⟨r, resolved, file, blocks⟩ := oneBlock_found 255 (by decide +kernel)
  obtain ⟨s, opened, delivers⟩ := selected_reads_iff (D64.new .d64 (oneBlock 255)) r [0x61] (by decide) resolved []
    ⟨17, 0⟩ file
  exact ⟨s, opened, _, delivers.mpr (.inl (by rw [blocks]; decide))⟩

end D64

end Meatloaf.Disk
