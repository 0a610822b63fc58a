import Meatloaf.Disk.Shared
import Meatloaf.Disk.Seek

/-! Directory access by index, with other reads of the image in between. An index is reached by a walk
from the first sector of the directory, or from where the previous one was read. -/
namespace Meatloaf.Disk

open Lib

theorem Format.geometry_offset (f : Format) (size : Nat) (link : UInt8 × UInt8) :
    (f.geometry size link).directory_offset = 0 := by
  cases f <;> rfl

namespace D64

/- What reaches a reader of a directory. -/
inductive Visit where
  | entry (index : Nat)
  | reset
  | block (b : Block)
  | record (track : Nat)

def visit (s : D64) : Visit → D64
  | .entry index => (s.seekEntryAt index).2
  | .reset => s.resetEntryCounter
  | .block b => (s.readBlock b.track b.sector).2
  | .record track => (s.readBAMRecord track).2

/-- `seekEntry(index)` is right about the directory `dirs` of the image that `s` reads. -/
def Answers (s : D64) (dirs : List Block) (t : D64) (index : Nat) : Prop :=
  ((t.seekEntryAt index).1 = true ↔ index ≤ 8 * dirs.length) ∧
    ((t.seekEntryAt index).1 = true → (t.seekEntryAt index).2.entry = s.geo.entryOf s.container.data dirs (index - 1))

/-- The index is in the directory, and where it continues within a sector the container still stands
behind the entry before it; or it is the one after the last entry, which was read before. -/
def Sure (dirs : List Block) (t : D64) (index : Nat) : Prop :=
  1 ≤ index ∧ index < 65536 ∧
    (index ≤ 8 * dirs.length ∧
        (index = t.entry_index + 1 → (index - 1) % 8 ≠ 0 → t.container.pos = t.geo.slotAddr dirs (index - 1)) ∨
      index = 8 * dirs.length + 1 ∧ t.entry_index = 8 * dirs.length)

def Fine (dirs : List Block) (t : D64) : Visit → Prop
  | .entry index => Sure dirs t index
  | _ => True

/-- The reader has read entry `k` of the directory and kept the link of its sector. -/
structure Keeps (dirs : List Block) (t : D64) (k : Nat) : Prop where
  index : t.entry_index = k + 1
  inside : k < 8 * dirs.length
  link : t.link = t.geo.link t.container.data (dirs.getD (k / 8) ⟨0, 0⟩)

/-- Whatever was read before, the directory is the one of `s`. -/
structure Follows (s : D64) (dirs : List Block) (t : D64) : Prop where
  reads : Reads s t
  kept : t.entry_index = 0 ∨ ∃ k, Keeps dirs t k

variable {s t : D64} {dirs : List Block}

theorem blockStart_readable {b : Block} (r : Readable s.geo s.container.size b) :
    s.geo.blockStart b = some (s.geo.addr b) := by
  obtain ⟨n, found⟩ := r.numbered
  unfold Geometry.blockStart
  rw [found, Geometry.linearBlock_some found]
  rfl

/-- The walk has read the first entry of a sector and its link. -/
structure Walked (s : D64) (b : Block) (t : D64) : Prop where
  reads : Reads s t
  track : t.track = b.track
  sector : t.sector = b.sector
  entry : t.entry = Store.read s.container.data (s.geo.addr b) 32
  link : t.link = s.geo.link s.container.data b

theorem link_of_entry {g : Geometry} {d : Nat → UInt8} {b : Block} {e : List UInt8}
    (entry : e = Store.read d (g.addr b) 32) : linkOf e = g.link d b := by
  rw [entry, linkOf, Store.getD_read d _ 32 0 0 (by decide), Store.getD_read d _ 32 1 0 (by decide)]
  rfl

theorem walked_sector (full : s.entry.length = 32) {b : Block} (r : Readable s.geo s.container.size b) :
    Walked s b (s.at_ (s.geo.addr b) b.track b.sector).readEntry.followEntry := by
  have fits := r.fits
  have read := readEntry_full (s.at_ (s.geo.addr b) b.track b.sector)
    (show s.geo.addr b + 32 ≤ s.container.size by omega) full
  have entry : (s.at_ (s.geo.addr b) b.track b.sector).readEntry.followEntry.entry =
      Store.read s.container.data (s.geo.addr b) 32 := by
    rw [read]
    rfl
  refine ⟨⟨⟨?_, ?_, ?_, ?_, ?_, ?_, ?_⟩, ?_⟩, ?_, ?_, entry, link_of_entry entry⟩
  case refine_7 =>
    intro
    rw [entry, Store.length_read]
  all_goals rw [read]; rfl

/- How the walk comes to a sector: it is there already, or the entry read last links to it. -/
def Enters (s : D64) (b : Block) : Prop :=
  (if s.next_track ≠ 0 then s.seekSector (s.entry.getD 0 0).toNat (s.entry.getD 1 0).toNat else (true, s)) =
    (true, s.at_ (s.geo.addr b) b.track b.sector)

theorem Walked.enters {b b' : Block} (walked : Walked s b t) (link : s.geo.link s.container.data b = b')
    (runs : b'.track ≠ 0) (r : Readable s.geo s.container.size b') : t.Enters b' := by
  have entry : linkOf t.entry = b' := (link_of_entry walked.entry).trans link
  have more : t.next_track ≠ 0 := by
    have same : t.next_track = b'.track := congrArg Block.track (walked.link.trans link)
    rw [same]
    exact runs
  obtain ⟨n, found⟩ := r.numbered
  rw [← walked.reads.looks.geo] at found
  unfold Enters
  rw [if_pos more, show (t.entry.getD 0 0).toNat = b'.track from congrArg Block.track entry,
    show (t.entry.getD 1 0).toNat = b'.sector from congrArg Block.sector entry]
  exact seekSector_some t b' found 0

/-- The walk comes to any sector of the directory. -/
theorem walkDirectory_chain {b : Block} {chain : List Block} (full : s.entry.length = 32)
    (file : FileChain s.geo s.container.data s.container.size b chain) (enters : s.Enters b) {n : Nat} {c : Block}
    (there : chain[n]? = some c) : ∃ t, s.walkDirectory n = (true, t) ∧ Walked s c t := by
  induction n generalizing s b chain with
  | zero =>
    cases chain with
    | nil => cases there
    | cons b' rest =>
      cases there
      cases file.head
      refine ⟨_, ?_, walked_sector full (file.readable _ List.mem_cons_self)⟩
      unfold walkDirectory
      rw [enters]
      rfl
  | succ n ih =>
    cases chain with
    | nil => cases there
    | cons b' rest =>
      cases file.head
      cases rest with
      | nil => cases there
      | cons b' rest =>
        obtain ⟨link, runs, more⟩ := file.next
        have walked := walked_sector full (file.readable b List.mem_cons_self)
        have enters' := walked.enters link runs (more.readable b' List.mem_cons_self)
        have looks := walked.reads.looks
        have more' := more
        rw [← looks.geo, ← looks.data, ← looks.size] at more'
        obtain ⟨t, walk, final⟩ := ih (looks.entry full) more' enters' there
        refine ⟨t, ?_, walked.reads.trans final.reads, final.track, final.sector, ?_, ?_⟩
        · unfold walkDirectory
          rw [enters]
          exact walk
        · rw [final.entry, looks.geo, looks.data]
        · rw [final.link, looks.geo, looks.data]

/- The reader has read entry `k`. -/
structure Answered (s : D64) (dirs : List Block) (k : Nat) (t : D64) : Prop where
  reads : Reads s t
  entry : t.entry = s.geo.entryOf s.container.data dirs k
  index : t.entry_index = k + 1
  link : t.link = s.geo.link s.container.data (dirs.getD (k / 8) ⟨0, 0⟩)

/-- Reading the entry at its place. -/
theorem load_answered (full : s.entry.length = 32) (t x : Nat) {k : Nat}
    (readable : Readable s.geo s.container.size (dirs.getD (k / 8) ⟨0, 0⟩))
    (link : k % 8 ≠ 0 → s.link = s.geo.link s.container.data (dirs.getD (k / 8) ⟨0, 0⟩)) :
    Answered s dirs k (s.load (s.geo.slotAddr dirs k) t x k) := by
  have fits : s.geo.slotAddr dirs k + 32 ≤ s.container.size := by
    have fits := readable.fits
    unfold Geometry.slotAddr
    omega
  have read := readAt_full s (s.geo.slotAddr dirs k) full fits
  refine ⟨load_reads s _ t x k, ?_, load_index s _ t x k, ?_⟩
  · rw [load_entry, read]
    rfl
  · rw [load_link]
    split
    · rename_i first
      rw [read]
      apply link_of_entry
      unfold Geometry.slotAddr
      rw [first]
      rfl
    · rename_i later
      exact link later

theorem Answered.of_reads {k : Nat} {u : D64} (reads : Reads s t) (answered : Answered t dirs k u) :
    Answered s dirs k u := by
  refine ⟨reads.trans answered.reads, ?_, answered.index, ?_⟩
  · rw [answered.entry, reads.looks.geo, reads.looks.data]
  · rw [answered.link, reads.looks.geo, reads.looks.data]

/- The block that holds slot `k`. -/
theorem slot_block {k : Nat} (inside : k < 8 * dirs.length) :
    dirs[k / 8]? = some (dirs.getD (k / 8) ⟨0, 0⟩) := by
  have below : k / 8 < dirs.length := by omega
  rw [List.getElem?_eq_getElem below, List.getD_eq_getElem _ _ below]

/- The walk ends in the first entry of a sector, which may be the one that is sought. -/
theorem Walked.first {k : Nat} (walked : Walked s (dirs.getD (k / 8) ⟨0, 0⟩) t) (first : k % 8 = 0) :
    Answered s dirs k (t.finishEntry k) := by
  have entry : t.entry = s.geo.entryOf s.container.data dirs k := by
    rw [walked.entry]
    unfold Geometry.entryOf Geometry.slotAddr
    rw [first]
    rfl
  have finish : t.finishEntry k = { t.followEntry with entry_index := k + 1 } := if_pos first
  rw [finish]
  refine ⟨walked.reads.trans ?_, entry, rfl, ?_⟩
  · exact ⟨⟨rfl, rfl, rfl, rfl, rfl, rfl, id⟩, rfl⟩
  · exact link_of_entry walked.entry

/- Any other entry is read in the sector where the walk ends. -/
theorem Walked.later {k : Nat} (full : s.entry.length = 32)
    (readable : Readable s.geo s.container.size (dirs.getD (k / 8) ⟨0, 0⟩))
    (walked : Walked s (dirs.getD (k / 8) ⟨0, 0⟩) t) :
    ∃ u, t.seekSector t.track t.sector (k % 8 * 32) = (true, u) ∧
      Answered s dirs k (u.readEntry.finishEntry k) := by
  have looks := walked.reads.looks
  have readable' := readable
  rw [← looks.geo, ← looks.size] at readable'
  obtain ⟨n, found⟩ := readable'.numbered
  have seek := seekSector_some t (dirs.getD (k / 8) ⟨0, 0⟩) found (k % 8 * 32)
  rw [Nat.mul_comm (k % 8)] at seek
  rw [walked.track, walked.sector, Nat.mul_comm]
  refine ⟨_, seek, .of_reads walked.reads (load_answered (looks.entry full) _ _ readable' ?_)⟩
  intro _
  rw [walked.link, looks.geo, looks.data]

/- Where the walk starts. -/
def outset (s : D64) : D64 := s.unlinked.at_ (s.geo.addr s.directory) s.dir_track s.dir_sector

theorem reads_outset (s : D64) : Reads s s.outset := ⟨⟨rfl, rfl, rfl, rfl, rfl, rfl, id⟩, rfl⟩

/-- The walk from the first sector finds every entry of the directory. -/
theorem walkToEntry_answered (offset : s.geo.directory_offset = 0) (full : s.entry.length = 32)
    (file : FileChain s.geo s.container.data s.container.size s.directory dirs)
    (track : s.dir_track = s.directory.track) (sector : s.dir_sector = s.directory.sector) {k : Nat}
    (inside : k < 8 * dirs.length) : ∃ t, s.walkToEntry k = (true, t) ∧ Answered s dirs k t := by
  have start : s.directory ∈ dirs := by
    apply file.chained.start_mem
    intro ends
    exact file.begun (file.chained.nil_iff.mpr ends)
  obtain ⟨n, found⟩ := (file.readable _ start).numbered
  have seek := seekSector_some s.unlinked s.directory found s.geo.directory_offset
  rw [offset, ← track, ← sector] at seek
  have there := slot_block inside
  have readable := file.readable _ (List.mem_of_getElem? there)
  -- the walk starts in the first sector, without a link to follow
  have enters : s.outset.Enters s.directory := by
    unfold Enters
    rw [if_neg (fun linked => linked rfl)]
    unfold outset
    rw [track, sector]
    rfl
  obtain ⟨w, walk, walked⟩ := walkDirectory_chain (s := s.outset) full file enters there
  have run : s.walkToEntry k =
      if k % 8 = 0 then (true, w.finishEntry k)
      else
        let r := w.seekSector w.track w.sector (k % 8 * 32)
        if r.1 then (true, r.2.readEntry.finishEntry k) else (false, r.2) := by
    unfold walkToEntry
    rw [show ({ s with next_track := 0 } : D64) = s.unlinked from rfl, offset, seek]
    simp only [if_true]
    rw [show s.unlinked.at_ (s.unlinked.geo.addr s.directory + 0) s.dir_track s.dir_sector = s.outset from rfl, walk]
    rfl
  rw [run]
  split
  · rename_i first
    exact ⟨_, rfl, .of_reads (reads_outset s) (walked.first first)⟩
  · obtain ⟨u, seek, answered⟩ := Walked.later (s := s.outset) full readable walked
    rw [seek]
    exact ⟨_, rfl, .of_reads (reads_outset s) answered⟩

/- The sectors of a directory link to one another, and the last one to none. -/
theorem directory_link (file : FileChain s.geo s.container.data s.container.size s.directory dirs) {m : Nat}
    (more : m + 1 < dirs.length) :
    s.geo.link s.container.data (dirs.getD m ⟨0, 0⟩) = dirs.getD (m + 1) ⟨0, 0⟩ := by
  rw [List.getD_eq_getElem _ _ (Nat.lt_of_succ_lt more), List.getD_eq_getElem _ _ more]
  exact file.chained.link_at m more

theorem directory_end (file : FileChain s.geo s.container.data s.container.size s.directory dirs) :
    (s.geo.link s.container.data (dirs.getD (dirs.length - 1) ⟨0, 0⟩)).track = 0 := by
  have positive := List.length_pos_iff.mpr file.begun
  rw [List.getD_eq_getElem _ _ (by omega), ← List.getLast_eq_getElem file.begun]
  exact file.chained.ends_at file.begun

/-- A step from the entry before finds the next one. -/
theorem stepToEntry_answered (full : s.entry.length = 32)
    (file : FileChain s.geo s.container.data s.container.size s.directory dirs) {k : Nat} (keeps : Keeps dirs s k)
    (inside : k + 1 < 8 * dirs.length)
    (stands : (k + 1) % 8 ≠ 0 → s.container.pos = s.geo.slotAddr dirs (k + 1)) :
    ∃ t, s.stepToEntry (k + 1) = (true, t) ∧ Answered s dirs (k + 1) t := by
  have there := slot_block inside
  have readable := file.readable _ (List.mem_of_getElem? there)
  rw [stepToEntry_start]
  split
  · rename_i first
    have next : k / 8 + 1 = (k + 1) / 8 := by omega
    have link : s.link = dirs.getD ((k + 1) / 8) ⟨0, 0⟩ := by
      rw [keeps.link, directory_link file (by omega), next]
    have runs : s.link.track ≠ 0 := by
      rw [link]
      exact file.chained.live _ (List.mem_of_getElem? there)
    have slot : s.geo.slotAddr dirs (k + 1) = s.geo.addr (dirs.getD ((k + 1) / 8) ⟨0, 0⟩) := by
      unfold Geometry.slotAddr
      rw [first]
      rfl
    rw [if_neg runs, link, blockStart_readable readable]
    refine ⟨_, rfl, ?_⟩
    rw [← slot]
    exact load_answered full _ _ readable fun later => absurd first later
  · rename_i later
    refine ⟨_, rfl, ?_⟩
    rw [stands later]
    apply load_answered full _ _ readable
    intro _
    rw [keeps.link, show k / 8 = (k + 1) / 8 by omega]

/- Behind the last entry there is no link to follow. -/
theorem stepToEntry_ended (file : FileChain s.geo s.container.data s.container.size s.directory dirs) {k : Nat}
    (keeps : Keeps dirs s k) (last : k + 1 = 8 * dirs.length) : s.stepToEntry (k + 1) = (false, s) := by
  have ends : s.link.track = 0 := by
    rw [keeps.link, show k / 8 = dirs.length - 1 by omega]
    exact directory_end file
  rw [stepToEntry_start, if_pos (by omega), if_pos ends]

theorem seekEntryAt_walks_to {k : Nat} (walks : k = 0 ∨ k ≠ s.entry_index) :
    s.seekEntryAt (k + 1) = s.defaultDirectory.walkToEntry k := by
  have pred : indexPred (k + 1) = k := rfl
  unfold seekEntryAt
  dsimp only
  rw [pred, (default_rest s).2.2.2, if_pos walks]

theorem seekEntryAt_steps_to {k : Nat} (index : s.entry_index = k + 1) :
    s.seekEntryAt (k + 2) = s.defaultDirectory.stepToEntry (k + 1) := by
  have pred : indexPred (k + 2) = k + 1 := rfl
  unfold seekEntryAt
  dsimp only
  rw [pred, (default_rest s).2.2.2, if_neg (by omega)]

theorem Keeps.default {k : Nat} (keeps : Keeps dirs s k) : Keeps dirs s.defaultDirectory k := by
  obtain ⟨-, link, -, index⟩ := default_rest s
  have looks := (reads_default s).looks
  refine ⟨index.trans keeps.index, keeps.inside, ?_⟩
  rw [link, looks.geo, looks.data]
  exact keeps.link

/-- One access that is sure is answered. -/
theorem seekEntryAt_sure (offset : s.geo.directory_offset = 0) (full : s.entry.length = 32)
    (file : FileChain s.geo s.container.data s.container.size s.directory dirs)
    (kept : s.entry_index = 0 ∨ ∃ k, Keeps dirs s k) {index : Nat} (sure : Sure dirs s index) :
    (∃ t, s.seekEntryAt index = (true, t) ∧ index ≤ 8 * dirs.length ∧ Answered s dirs (index - 1) t) ∨
      (8 * dirs.length < index ∧ s.seekEntryAt index = (false, s.defaultDirectory)) := by
  have default := reads_default s
  have looks := default.looks
  have file' := file
  rw [← looks.geo, ← looks.data, ← looks.size, ← default.directory] at file'
  obtain ⟨low, -, here | ⟨behind, last⟩⟩ := sure
  · obtain ⟨inside, stands⟩ := here
    obtain ⟨k, rfl⟩ : ∃ k, index = k + 1 := ⟨index - 1, by omega⟩
    rw [Nat.add_sub_cancel] at stands ⊢
    left
    by_cases walks : k = 0 ∨ k ≠ s.entry_index
    · obtain ⟨t, walk, answered⟩ := walkToEntry_answered (by rw [looks.geo]; exact offset) (looks.entry full) file'
        ((default_track s).trans (congrArg Block.track default.directory.symm))
        ((default_sector s).trans (congrArg Block.sector default.directory.symm)) (k := k) (by omega)
      rw [seekEntryAt_walks_to walks]
      exact ⟨t, walk, inside, .of_reads default answered⟩
    · -- the entry after the one read last
      obtain ⟨j, keeps⟩ := kept.resolve_left (by omega)
      have counted := keeps.index
      obtain rfl : k = j + 1 := by omega
      have stands' : (j + 1) % 8 ≠ 0 →
          s.defaultDirectory.container.pos = s.defaultDirectory.geo.slotAddr dirs (j + 1) := by
        intro later
        rw [(default_rest s).1, looks.geo]
        exact stands (by omega) later
      obtain ⟨t, step, answered⟩ := stepToEntry_answered (looks.entry full) file' keeps.default (by omega) stands'
      rw [seekEntryAt_steps_to keeps.index]
      exact ⟨t, step, inside, .of_reads default answered⟩
  · have positive := List.length_pos_iff.mpr file.begun
    obtain ⟨j, keeps⟩ := kept.resolve_left (by omega)
    have counted := keeps.index
    obtain rfl : index = j + 2 := by omega
    refine .inr ⟨by omega, ?_⟩
    rw [seekEntryAt_steps_to keeps.index]
    exact stepToEntry_ended file' keeps.default (by omega)

theorem Follows.start (fresh : s.entry_index = 0) : Follows s dirs s := ⟨.refl s, .inl fresh⟩

/- Reads of blocks and of the map leave the registers of the directory alone. -/
theorem Follows.of_reads {u : D64} (follows : Follows s dirs t) (reads : Reads t u)
    (index : u.entry_index = t.entry_index) (link : u.link = t.link) : Follows s dirs u := by
  refine ⟨follows.reads.trans reads, follows.kept.imp (fun none => index.trans none) ?_⟩
  rintro ⟨k, keeps⟩
  refine ⟨k, index.trans keeps.index, keeps.inside, ?_⟩
  rw [link, reads.looks.geo, reads.looks.data]
  exact keeps.link

theorem seekSector_keeps (t : D64) (b : Block) (o : Nat) :
    Reads t (t.seekSector b.track b.sector o).2 ∧
      (t.seekSector b.track b.sector o).2.entry_index = t.entry_index ∧
        (t.seekSector b.track b.sector o).2.link = t.link := by
  unfold seekSector
  split
  · exact ⟨.refl t, rfl, rfl⟩
  · exact ⟨⟨⟨rfl, rfl, rfl, rfl, rfl, rfl, id⟩, rfl⟩, rfl, rfl⟩

theorem readBlock_keeps (t : D64) (b : Block) :
    Reads t (t.readBlock b.track b.sector).2 ∧ (t.readBlock b.track b.sector).2.entry_index = t.entry_index ∧
      (t.readBlock b.track b.sector).2.link = t.link := by
  obtain ⟨reads, index, link⟩ := seekSector_keeps t b 0
  unfold readBlock
  dsimp only
  split
  · exact ⟨reads.trans ⟨⟨rfl, rfl, rfl, rfl, rfl, rfl, id⟩, rfl⟩, index, link⟩
  · exact ⟨reads, index, link⟩

theorem readBAMRecord_keeps (t : D64) (track : Nat) :
    Reads t (t.readBAMRecord track).2 ∧ (t.readBAMRecord track).2.entry_index = t.entry_index ∧
      (t.readBAMRecord track).2.link = t.link := by
  unfold readBAMRecord
  split
  · exact ⟨.refl t, rfl, rfl⟩
  · rename_i rec _
    obtain ⟨reads, index, link⟩ := seekSector_keeps t ⟨rec.bam_track, rec.bam_sector⟩ rec.offset
    dsimp only
    split
    · exact ⟨reads.trans ⟨⟨rfl, rfl, rfl, rfl, rfl, rfl, id⟩, rfl⟩, index, link⟩
    · exact ⟨reads, index, link⟩

section run

variable (offset : s.geo.directory_offset = 0) (full : s.entry.length = 32)
  (file : FileChain s.geo s.container.data s.container.size s.directory dirs)
include offset full file

theorem Follows.sure (follows : Follows s dirs t) {index : Nat} (sure : Sure dirs t index) :
    (∃ u, t.seekEntryAt index = (true, u) ∧ index ≤ 8 * dirs.length ∧ Answered s dirs (index - 1) u) ∨
      (8 * dirs.length < index ∧ t.seekEntryAt index = (false, t.defaultDirectory)) := by
  have looks := follows.reads.looks
  rw [← looks.geo] at offset
  rw [← looks.geo, ← looks.data, ← looks.size, ← follows.reads.directory] at file
  refine (seekEntryAt_sure offset (looks.entry full) file follows.kept sure).imp_left ?_
  rintro ⟨u, run, inside, answered⟩
  exact ⟨u, run, inside, .of_reads follows.reads answered⟩

theorem Follows.answers (follows : Follows s dirs t) {index : Nat} (sure : Sure dirs t index) :
    Answers s dirs t index := by
  rcases follows.sure offset full file sure with ⟨u, run, inside, answered⟩ | ⟨behind, run⟩
  · unfold Answers
    rw [run]
    exact ⟨⟨fun _ => inside, fun _ => rfl⟩, fun _ => answered.entry⟩
  · unfold Answers
    rw [run]
    refine ⟨⟨?_, fun inside => absurd inside (Nat.not_le_of_gt behind)⟩, ?_⟩
    · intro answered
      cases answered
    · intro answered
      cases answered

/-- What a fine access leaves. -/
theorem Follows.step (follows : Follows s dirs t) {a : Visit} (fine : Fine dirs t a) :
    Follows s dirs (t.visit a) := by
  cases a with
  | entry index =>
    show Follows s dirs (t.seekEntryAt index).2
    rcases follows.sure offset full file fine with ⟨u, run, inside, answered⟩ | ⟨behind, run⟩
    · have low := fine.1
      have looks := answered.reads.looks
      rw [run]
      refine ⟨answered.reads, .inr ⟨index - 1, answered.index, by omega, ?_⟩⟩
      rw [answered.link, looks.geo, looks.data]
    · obtain ⟨-, link, -, same⟩ := default_rest t
      rw [run]
      exact follows.of_reads (reads_default t) same link
  | reset => exact ⟨follows.reads.trans ⟨⟨rfl, rfl, rfl, rfl, rfl, rfl, id⟩, rfl⟩, .inl rfl⟩
  | block b =>
    obtain ⟨reads, index, link⟩ := readBlock_keeps t b
    exact follows.of_reads reads index link
  | record track =>
    obtain ⟨reads, index, link⟩ := readBAMRecord_keeps t track
    exact follows.of_reads reads index link

end run

/-- After any reads whose accesses are sure, a sure access is answered as the directory alone says. -/
theorem access_answers (s : D64) (made : ∃ f n l, s.geo = Format.geometry f n l) (fresh : s.entry_index = 0)
    (full : s.entry.length = 32) (dirs : List Block)
    (file : FileChain s.geo s.container.data s.container.size s.directory dirs) (history : List Visit)
    (fine : Along visit (Fine dirs) s history) (index : Nat) (sure : Sure dirs (history.foldl visit s) index) :
    Answers s dirs (history.foldl visit s) index := by
  obtain ⟨f, n, l, geo⟩ := made
  have offset : s.geo.directory_offset = 0 := by
    rw [geo]
    exact f.geometry_offset n l
  have keeps : ∀ t a, Follows s dirs t → Fine dirs t a → Follows s dirs (visit t a) :=
    fun t a follows fine => follows.step offset full file fine
  have follows := Along.invariant keeps (.start fresh) fine
  exact follows.answers offset full file sure

/- A D64 with nothing in it; its directory is 18/1. -/
def emptyImage : D64 := D64.new .d64 { data := fun _ => 0, size := 174848 }

theorem emptyImage_directory :
    FileChain emptyImage.geo emptyImage.container.data emptyImage.container.size emptyImage.directory [⟨18, 1⟩] := by
  have start : emptyImage.directory = ⟨18, 1⟩ := by decide
  have ends : Ends (emptyImage.geo.link emptyImage.container.data ⟨18, 1⟩) := by
    unfold Ends
    decide
  rw [start]
  refine ⟨.step (show (18 : Nat) ≠ 0 by decide) (.done ends), List.cons_ne_nil _ _, ?_⟩
  intro c member
  rw [List.mem_singleton.mp member]
  exact ⟨⟨358, by decide +kernel⟩, by decide +kernel⟩

/-- The ninth entry of a directory of one sector is found, in its second slot. -/
theorem seekEntry_past_end : ∃ (s : D64) (dirs : List Block), s.entry_index = 0 ∧
    FileChain s.geo s.container.data s.container.size s.directory dirs ∧ ¬ Answers s dirs s 9 := by
  refine ⟨emptyImage, [⟨18, 1⟩], rfl, emptyImage_directory, ?_⟩
  intro answers
  have found : (emptyImage.seekEntryAt 9).1 = true := by decide
  exact absurd (answers.1.mp found) (by decide)

theorem access_answers_sample :
    Answers emptyImage [⟨18, 1⟩] ([.entry 1, .block ⟨1, 0⟩, .entry 5, .entry 6].foldl visit emptyImage) 7 :=
  access_answers emptyImage ⟨.d64, 174848, (0, 0), rfl⟩ rfl rfl [⟨18, 1⟩] emptyImage_directory
    [.entry 1, .block ⟨1, 0⟩, .entry 5, .entry 6] (by
      refine ⟨?_, trivial, ?_, ?_, trivial⟩
      all_goals
        unfold Fine Sure
        decide +kernel) 7 (by
      unfold Sure
      decide +kernel)

end D64

end Meatloaf.Disk
