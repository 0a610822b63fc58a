import Meatloaf.Disk.Listing

/-! Reading a directory entry by entry comes to the same place whoever reads: the
place is a function of the directory and the counter. So a lookup that stops where a
listing stands does not disturb it. -/
namespace Meatloaf.Disk

open Lib

namespace D64

/- The link of the directory sector read last. -/
def link (s : D64) : Block := ⟨s.next_track, s.next_sector⟩

/- Entry `k` of the directory of the stream. -/
def place (s : D64) (k : Nat) : Option Place := s.geo.place s.container.data s.container.size s.directory k

/-- The stream has just read entry `k`. -/
structure On (s : D64) (k : Nat) (p : Place) : Prop where
  index : s.entry_index = k + 1
  pos : s.container.pos = p.pos
  link : s.link = p.link

/- The next entry to be read is `k`; before the first one anything will do. -/
def Before (s : D64) : Nat → Prop
  | 0 => True
  | k + 1 => ∃ p, s.place k = some p ∧ s.On k p

/-- What reading on leaves: the image and the directory. -/
structure Reads (s s' : D64) : Prop where
  looks : Looks s s'
  directory : s'.directory = s.directory

/-- The stream has read entry `k` in full. -/
structure Arrived (s : D64) (k : Nat) (p : Place) (s' : D64) : Prop where
  reads : Reads s s'
  on : s'.On k p
  entry : s'.entry = p.entry

theorem Reads.refl (s : D64) : Reads s s := ⟨.refl s, rfl⟩

theorem Reads.trans {s s' s'' : D64} (reads : Reads s s') (reads' : Reads s' s'') : Reads s s'' :=
  ⟨reads.looks.trans reads'.looks, reads'.directory.trans reads.directory⟩

theorem Reads.place {s s' : D64} (reads : Reads s s') (k : Nat) : s'.place k = s.place k := by
  unfold D64.place
  rw [reads.looks.geo, reads.looks.data, reads.looks.size, reads.directory]

theorem Arrived.before {s s' : D64} {k : Nat} {p : Place} (arrived : Arrived s k p s') (here : s.place k = some p) :
    s'.Before (k + 1) := ⟨p, by rw [arrived.reads.place]; exact here, arrived.on⟩

@[simp] theorem directory_default (s : D64) : s.defaultDirectory.directory = s.directory := by
  unfold defaultDirectory directory
  split
  · dsimp only
    split
    · rfl
    · rfl
  · rfl

theorem default_track (s : D64) : s.defaultDirectory.dir_track = s.directory.track := by
  unfold defaultDirectory directory
  split
  · rfl
  · rfl

theorem default_sector (s : D64) : s.defaultDirectory.dir_sector = s.directory.sector := by
  unfold defaultDirectory directory
  split
  · rfl
  · rfl

theorem default_rest (s : D64) :
    s.defaultDirectory.container = s.container ∧ s.defaultDirectory.link = s.link ∧
      s.defaultDirectory.entry = s.entry ∧ s.defaultDirectory.entry_index = s.entry_index := by
  unfold defaultDirectory
  split <;> exact ⟨rfl, rfl, rfl, rfl⟩

theorem reads_default (s : D64) : Reads s s.defaultDirectory := ⟨(defaultDirectory_walks s).looks, directory_default s⟩

theorem seekSector_none (s : D64) (b : Block) (o : Nat) (missing : s.geo.blockStart b = none) :
    s.seekSector b.track b.sector o = (false, s) := by
  rw [Geometry.blockStart, Option.map_eq_none_iff] at missing
  simp only [seekSector, missing]

theorem seekSector_start (s : D64) (b : Block) (o : Nat) {a : Nat} (start : s.geo.blockStart b = some a) :
    s.seekSector b.track b.sector o = (true, s.at_ (a + o) b.track b.sector) := by
  obtain ⟨n, found, rfl⟩ := Option.map_eq_some_iff.mp start
  simp only [seekSector, found, at_]

/-- What is in the entry register once the stream has read at `a`. -/
def readAt (s : D64) (a : Nat) : List UInt8 :=
  Store.read s.container.data a (min 32 (s.container.size - a)) ++
    s.entry.drop (min 32 (s.container.size - a))

/- Reading entry `k` at `a`. -/
def load (s : D64) (a t x k : Nat) : D64 := (s.at_ a t x).readEntry.finishEntry k

theorem load_entry (s : D64) (a t x k : Nat) : (s.load a t x k).entry = s.readAt a := by
  have read : (s.at_ a t x).readEntry.entry = s.readAt a := by
    simp only [readEntry, readContainer, Container.read, at_, Container.seek, readAt, Store.length_read]
  unfold load finishEntry
  split
  · exact read
  · exact read

theorem load_reads (s : D64) (a t x k : Nat) : Reads s (s.load a t x k) := by
  refine ⟨⟨?_, ?_, ?_, ?_, ?_, ?_, fun full => ?_⟩, ?_⟩
  case refine_7 =>
    rw [load_entry, readAt, List.length_append, Store.length_read, List.length_drop, full]
    omega
  all_goals
    unfold load finishEntry
    split <;> rfl

theorem load_index (s : D64) (a t x k : Nat) : (s.load a t x k).entry_index = k + 1 := by
  unfold load finishEntry
  split <;> rfl

theorem load_pos (s : D64) (a t x k : Nat) :
    (s.load a t x k).container.pos = a + min 32 (s.container.size - a) := by
  unfold load finishEntry
  split <;> rfl

theorem load_link (s : D64) (a t x k : Nat) :
    (s.load a t x k).link = if k % 8 = 0 then linkOf (s.readAt a) else s.link := by
  have read := s.load_entry a t x k
  unfold load finishEntry at read ⊢
  split
  · rename_i first
    rw [if_pos first] at read
    rw [← read]
    rfl
  · rfl

theorem readAt_full (s : D64) (a : Nat) (full : s.entry.length = 32) (fits : a + 32 ≤ s.container.size) :
    s.readAt a = Store.read s.container.data a 32 := by
  have all : min 32 (s.container.size - a) = 32 := by omega
  rw [readAt, all, List.drop_of_length_le (by omega), List.append_nil]

/- The start of a walk. -/
def unlinked (s : D64) : D64 := { s with next_track := 0 }

theorem reads_unlinked (s : D64) : Reads s s.unlinked := ⟨⟨rfl, rfl, rfl, rfl, rfl, rfl, id⟩, rfl⟩

/- The walk from the first sector, for the first entry. -/
theorem walkToEntry_start (s : D64) (b : Block) (track : s.dir_track = b.track) (sector : s.dir_sector = b.sector) :
    s.walkToEntry 0 =
      match s.geo.blockStart b with
      | none => (false, s.unlinked)
      | some a => (true, s.unlinked.load (a + s.geo.directory_offset) b.track b.sector 0) := by
  split
  · rename_i missing
    have seek := seekSector_none s.unlinked b s.geo.directory_offset missing
    rw [← track, ← sector] at seek
    unfold walkToEntry
    rw [show ({ s with next_track := 0 } : D64) = s.unlinked from rfl, seek]
    rfl
  · rename_i a start
    have seek := seekSector_start s.unlinked b s.geo.directory_offset start
    rw [← track, ← sector] at seek
    rw [walkToEntry_zero s _ seek rfl, track, sector]
    rfl

theorem seekEntryAt_one (s : D64) :
    s.seekEntryAt 1 =
      match s.geo.blockStart s.directory with
      | none => (false, s.defaultDirectory.unlinked)
      | some a => (true, s.defaultDirectory.unlinked.load (a + s.geo.directory_offset)
          s.directory.track s.directory.sector 0) := by
  have walk := walkToEntry_start s.defaultDirectory s.directory (default_track s) (default_sector s)
  rw [(reads_default s).looks.geo] at walk
  rw [← walk]
  unfold seekEntryAt
  exact if_pos (Or.inl rfl)

/- Reading on from entry `k`. -/
theorem seekEntryAt_on (s : D64) {k : Nat} (index : s.entry_index = k + 1) (low : k + 1 < 65536) :
    s.seekEntryAt ((k + 2) % 65536) = s.defaultDirectory.stepToEntry (k + 1) := by
  have same : s.defaultDirectory.entry_index = k + 1 := (default_rest s).2.2.2.trans index
  have pred : indexPred ((k + 2) % 65536) = k + 1 := by
    unfold indexPred
    split <;> omega
  unfold seekEntryAt
  simp only [pred, same]
  exact if_neg (by omega)

/- What a step within the directory comes to. -/
theorem stepToEntry_start (s : D64) (k : Nat) :
    s.stepToEntry k =
      if k % 8 = 0 then
        if s.link.track = 0 then (false, s)
        else
          match s.geo.blockStart s.link with
          | none => (false, s)
          | some a => (true, s.load a s.link.track s.link.sector k)
      else (true, s.load s.container.pos s.track s.sector k) := by
  unfold stepToEntry
  split
  · split
    · rename_i last
      rw [if_pos (show s.link.track = 0 from last)]
    · rename_i more
      rw [if_neg (show ¬ s.link.track = 0 from more)]
      split
      · rename_i missing
        rw [show s.seekSector s.next_track s.next_sector 0 = (false, s) from seekSector_none s s.link 0 missing]
        rfl
      · rename_i a start
        rw [show s.seekSector s.next_track s.next_sector 0 = (true, s.at_ (a + 0) s.next_track s.next_sector) from
          seekSector_start s s.link 0 start]
        rfl
  · rfl

theorem firstPlace_some {d : Nat → UInt8} {size a : Nat} {p : Place}
    (read : Geometry.firstPlace d size a = some p) :
    a + 32 ≤ size ∧ p = ⟨a + 32, linkOf (Store.read d a 32), Store.read d a 32⟩ := by
  unfold Geometry.firstPlace at read
  split at read
  · rename_i fits
    exact ⟨fits, (Option.some.inj read).symm⟩
  · cases read

theorem nextPlace_some {d : Nat → UInt8} {size : Nat} {p q : Place}
    (read : Geometry.nextPlace d size p = some q) :
    p.pos + 32 ≤ size ∧ q = ⟨p.pos + 32, p.link, Store.read d p.pos 32⟩ := by
  unfold Geometry.nextPlace at read
  split at read
  · rename_i fits
    exact ⟨fits, (Option.some.inj read).symm⟩
  · cases read

/- The read of a whole first entry. -/
theorem load_first {s : D64} (full : s.entry.length = 32) {a t x k : Nat} (first : k % 8 = 0) {p : Place}
    (read : Geometry.firstPlace s.container.data s.container.size a = some p) : Arrived s k p (s.load a t x k) := by
  obtain ⟨fits, rfl⟩ := firstPlace_some read
  have all : min 32 (s.container.size - a) = 32 := by omega
  refine ⟨load_reads s a t x k, ⟨load_index s a t x k, ?_, ?_⟩, ?_⟩
  · rw [load_pos, all]
  · rw [load_link, if_pos first, readAt_full s a full fits]
  · rw [load_entry, readAt_full s a full fits]

/- The read of a later entry of a sector. -/
theorem load_next {s : D64} (full : s.entry.length = 32) {t x k : Nat} (later : ¬ k % 8 = 0) {p q : Place}
    (pos : s.container.pos = p.pos) (link : s.link = p.link)
    (read : Geometry.nextPlace s.container.data s.container.size p = some q) :
    Arrived s k q (s.load s.container.pos t x k) := by
  obtain ⟨fits, rfl⟩ := nextPlace_some read
  have all : min 32 (s.container.size - p.pos) = 32 := by omega
  rw [pos]
  refine ⟨load_reads s p.pos t x k, ⟨load_index s p.pos t x k, ?_, ?_⟩, ?_⟩
  · rw [load_pos, all]
  · rw [load_link, if_neg later, link]
  · rw [load_entry, readAt_full s p.pos full fits]

theorem Arrived.of_reads {s s' s'' : D64} {k : Nat} {p : Place} (reads : Reads s s') (arrived : Arrived s' k p s'') :
    Arrived s k p s'' := ⟨reads.trans arrived.reads, arrived.on, arrived.entry⟩

/-- Entry `k` is read where it is, by whoever stands before it. -/
theorem seekEntryAt_place {s : D64} (full : s.entry.length = 32) {k : Nat} (before : s.Before k) (low : k < 65536)
    {p : Place} (here : s.place k = some p) :
    ∃ s', s.seekEntryAt ((k + 1) % 65536) = (true, s') ∧ Arrived s k p s' := by
  cases k with
  | zero =>
    obtain ⟨a, start, read⟩ := Option.bind_eq_some_iff.mp here
    have cleared := (reads_default s).trans (reads_unlinked s.defaultDirectory)
    rw [show (0 + 1) % 65536 = 1 from rfl, seekEntryAt_one, start]
    refine ⟨_, rfl, .of_reads cleared (load_first (cleared.looks.entry full) rfl ?_)⟩
    rw [cleared.looks.data, cleared.looks.size]
    exact read
  | succ k =>
    obtain ⟨q, there, on⟩ := before
    obtain ⟨q', there', read⟩ := Option.bind_eq_some_iff.mp here
    obtain rfl := Option.some.inj (there.symm.trans there')
    have default := reads_default s
    have pos : s.defaultDirectory.container.pos = q.pos := (congrArg Container.pos (default_rest s).1).trans on.pos
    have link : s.defaultDirectory.link = q.link := (default_rest s).2.1.trans on.link
    rw [seekEntryAt_on s on.index low, stepToEntry_start, link]
    rw [← default.looks.geo, ← default.looks.data, ← default.looks.size] at read
    by_cases first : (k + 1) % 8 = 0
    · rw [if_pos first] at read ⊢
      split at read
      · cases read
      · rename_i more
        obtain ⟨a, start, read⟩ := Option.bind_eq_some_iff.mp read
        rw [if_neg more, start]
        exact ⟨_, rfl, .of_reads default (load_first (default.looks.entry full) first read)⟩
    · rw [if_neg first] at read ⊢
      exact ⟨_, rfl, .of_reads default (load_next (default.looks.entry full) first pos link read)⟩

theorem place_before {g : Geometry} {d : Nat → UInt8} {size : Nat} {dir : Block} {k : Nat} {p : Place}
    (here : g.place d size dir k = some p) {i : Nat} (le : i ≤ k) : ∃ q, g.place d size dir i = some q := by
  induction k generalizing p with
  | zero =>
    obtain rfl := Nat.le_zero.mp le
    exact ⟨p, here⟩
  | succ k ih =>
    obtain ⟨q, before, -⟩ := Option.bind_eq_some_iff.mp here
    rcases Nat.lt_or_eq_of_le le with less | rfl
    · exact ih before (Nat.le_of_lt_succ less)
    · exact ⟨p, here⟩

theorem indexSucc_mod {k : Nat} (low : k < 65536) : indexSucc ((k + 1) % 65536) = (k + 2) % 65536 := by
  unfold indexSucc
  split <;> omega

/-- A search passes over the entries that do not match. -/
theorem searchEntries_pass (hit : List UInt8 → Bool) {s : D64} (full : s.entry.length = 32) {i n : Nat}
    (low : i + n ≤ 65536) (before : s.Before i)
    (pass : ∀ k, i ≤ k → k < i + n → ∃ p, s.place k = some p ∧ hit p.entry = false) (fuel : Nat) :
    ∃ s', searchEntries hit (n + fuel) ((i + 1) % 65536) s = searchEntries hit fuel ((i + n + 1) % 65536) s' ∧
      Reads s s' ∧ s'.Before (i + n) ∧ (n = 0 → s' = s) := by
  induction n generalizing s i with
  | zero => exact ⟨s, by rw [Nat.zero_add, Nat.add_zero], .refl s, before, fun _ => rfl⟩
  | succ n ih =>
    obtain ⟨p, here, miss⟩ := pass i (Nat.le_refl i) (by omega)
    obtain ⟨t, read, arrived⟩ := seekEntryAt_place full before (by omega) here
    obtain ⟨s', run, reads, stands, -⟩ := ih (arrived.reads.looks.entry full) (i := i + 1) (by omega)
      (arrived.before here) fun k le lt => by
        obtain ⟨q, place, miss⟩ := pass k (by omega) (by omega)
        exact ⟨q, by rw [arrived.reads.place, place], miss⟩
    refine ⟨s', ?_, arrived.reads.trans reads, by rw [show i + (n + 1) = i + 1 + n by omega]; exact stands,
      fun none => by omega⟩
    rw [show n + 1 + fuel = n + fuel + 1 by omega, searchEntries]
    simp only [read, if_true, arrived.entry, miss]
    rw [indexSucc_mod (by omega), show i + 2 = i + 1 + 1 from rfl, run,
      show i + 1 + n + 1 = i + (n + 1) + 1 by omega]
    rfl

/-- A lookup stops at the first match. -/
theorem seekEntry_first {s : D64} (full : s.entry.length = 32) {name : Str} (named : name ≠ []) {k : Nat} {p : Place}
    (first : s.geo.FirstMatch s.container.data s.container.size s.directory name k p) :
    ∃ s', s.seekEntry name = some (true, s') ∧ Arrived s k p s' := by
  obtain ⟨low, here, hit, none⟩ := first
  obtain ⟨t, run, reads, before, -⟩ := searchEntries_pass (liveMatch name) full (i := 0) (n := k) (by omega) trivial
    (fun i _ lt => by
      obtain ⟨q, place⟩ := place_before here (i := i) (by omega)
      exact ⟨q, place, none i (by omega) q place⟩) (65537 - k)
  rw [Nat.zero_add] at before
  obtain ⟨s', read, arrived⟩ := seekEntryAt_place (reads.looks.entry full) before low
    (by rw [reads.place]; exact here)
  refine ⟨s', ?_, .of_reads reads arrived⟩
  have fuel : lookupFuel = k + (65537 - k) := by
    unfold lookupFuel
    omega
  have found : searchEntries (liveMatch name) lookupFuel 1 s = some (true, s') := by
    rw [fuel, show (1 : Nat) = (0 + 1) % 65536 from rfl, run,
      show 65537 - k = (65536 - k) + 1 by omega, searchEntries, Nat.zero_add]
    simp only [read, if_true, arrived.entry, hit]
  rw [seekEntry, if_neg named, found]
  rfl

theorem clearEntry_reads (s : D64) : Reads s s.clearEntry := ⟨(clearEntry_walks s).looks, rfl⟩

/- Where the directory ends, nothing more is read. -/
theorem seekEntryAt_behind {s : D64} {n : Nat} (before : s.Before n)
    (ends : s.geo.EndsAfter s.container.data s.container.size s.directory n) :
    ∃ s', s.seekEntryAt ((n + 1) % 65536) = (false, s') ∧ Reads s s' ∧ s'.entry_index = s.entry_index ∧
      (n ≠ 0 → s'.container.pos = s.container.pos ∧ s'.link = s.link) := by
  obtain ⟨low, eighth, blank, linked⟩ := ends
  obtain ⟨container, kept, -, index⟩ := default_rest s
  cases n with
  | zero =>
    refine ⟨s.defaultDirectory.unlinked, ?_, (reads_default s).trans (reads_unlinked _), index,
      fun no => absurd rfl no⟩
    rw [show (0 + 1) % 65536 = 1 from rfl, seekEntryAt_one, blank rfl]
  | succ k =>
    obtain ⟨p, here, stop⟩ := linked k rfl
    obtain ⟨q, there, on⟩ := before
    obtain rfl := Option.some.inj (there.symm.trans here)
    have link : s.defaultDirectory.link = q.link := kept.trans on.link
    refine ⟨s.defaultDirectory, ?_, reads_default s, index, fun _ => ⟨congrArg Container.pos container, kept⟩⟩
    · rw [seekEntryAt_on s on.index low, stepToEntry_start, if_pos eighth, link, (reads_default s).looks.geo]
      rcases stop with last | outside
      · rw [if_pos last]
      · rw [outside]
        split <;> rfl

/-- A lookup of a missing name stops behind the last entry. -/
theorem seekEntry_missing {s : D64} (full : s.entry.length = 32) (fresh : s.entry_index = 0) {name : Str}
    (named : name ≠ []) {n : Nat} (ends : s.geo.EndsAfter s.container.data s.container.size s.directory n)
    (missing : ∀ i < n, ∀ q, s.place i = some q → liveMatch name q.entry = false) :
    ∃ s', s.seekEntry name = some (false, s') ∧ Reads s s' ∧ s'.entry_index = n ∧ s'.Before n := by
  have low := ends.1
  obtain ⟨t, run, reads, before, still⟩ := searchEntries_pass (liveMatch name) full (i := 0) (n := n) (by omega) trivial
    (fun i _ lt => by
      obtain ⟨m, rfl⟩ : ∃ m, n = m + 1 := ⟨n - 1, by omega⟩
      obtain ⟨p, last, -⟩ := ends.2.2.2 m rfl
      obtain ⟨q, place⟩ := place_before last (i := i) (by omega)
      exact ⟨q, place, missing i (by omega) q place⟩) (65537 - n)
  rw [Nat.zero_add] at before
  obtain ⟨s', read, reads', index, kept⟩ := seekEntryAt_behind before (by
    rw [reads.looks.geo, reads.looks.data, reads.looks.size, reads.directory]
    exact ends)
  have gone : searchEntries (liveMatch name) lookupFuel 1 s = some (false, s') := by
    have fuel : lookupFuel = n + (65537 - n) := by
      unfold lookupFuel
      omega
    rw [fuel, show (1 : Nat) = (0 + 1) % 65536 from rfl, run,
      show 65537 - n = (65536 - n) + 1 by omega, searchEntries, Nat.zero_add]
    simp only [read]
    rfl
  have all := reads.trans (reads'.trans (clearEntry_reads s'))
  refine ⟨s'.clearEntry, ?_, all, ?_, ?_⟩
  · rw [seekEntry, if_neg named, gone]
    rfl
  · cases n with
    | zero =>
      rw [still rfl] at index
      exact index.trans fresh
    | succ k =>
      obtain ⟨q, -, on⟩ := before
      exact index.trans on.index
  · cases n with
    | zero => exact trivial
    | succ k =>
      obtain ⟨q, there, on⟩ := before
      obtain ⟨pos, link⟩ := kept (by omega)
      refine ⟨q, ?_, index.trans on.index, pos.trans on.pos, link.trans on.link⟩
      rw [(reads'.trans (clearEntry_reads s')).place]
      exact there

theorem readBlock_start {s : D64} {b : Block} {a : Nat} (start : s.geo.blockStart b = some a)
    (fits : a + 256 ≤ s.container.size) :
    s.readBlock b.track b.sector =
      (Store.read s.container.data a 256, s.at_ (a + 256) b.track b.sector) := by
  have read := readContainer_full (s.at_ (a + 0) b.track b.sector) block_size fits
  simp only [readBlock, seekSector_start s b 0 start, if_true, read, Store.length_read]
  rfl

/-- The name of a directory is entered. -/
theorem enterDirectory_enters {s : D64} (full : s.entry.length = 32) {name : Str} (named : name ≠ []) {sub : Block}
    (enters : s.geo.Enters s.container.data s.container.size s.directory name sub) :
    ∃ s', s.enterDirectory name = some (true, s') ∧ Looks s s' ∧ s'.directory = sub ∧ s'.entry_index = 0 := by
  obtain ⟨k, p, a, first, type, start, fits, rfl, linked⟩ := enters
  obtain ⟨t, found, arrived⟩ := seekEntry_first full named first
  have looks := arrived.reads.looks
  have read := readBlock_start (s := t) (b := startBlock t.entry) (a := a)
    (by rw [arrived.entry, looks.geo]; exact start) (by rw [looks.size]; exact fits)
  rw [looks.data] at read
  have kind : ¬ (fileType t.entry &&& 0b111 ≠ 5 ∧ fileType t.entry &&& 0b111 ≠ 6) := by
    rw [arrived.entry]
    simp only [Geometry.isSubdirectory, Bool.or_eq_true, beq_iff_eq] at type
    rintro ⟨five, six⟩
    rcases type with here | here
    · exact five here
    · exact six here
  refine ⟨{ t.at_ (a + 256) (startBlock t.entry).track (startBlock t.entry).sector with
      dir_track := ((Store.read s.container.data a 256).getD 0 0).toNat
      dir_sector := ((Store.read s.container.data a 256).getD 1 0).toNat, entry_index := 0 }, ?_,
    looks.trans ⟨rfl, rfl, rfl, rfl, rfl, rfl, id⟩, if_neg linked, rfl⟩
  have done : decide (((Store.read s.container.data a 256).getD 0 0).toNat ≠ 0) = true := decide_eq_true linked
  unfold enterDirectory
  rw [found, Option.map_some]
  simp only [if_true, if_neg kind, read, Store.length_read]
  rw [if_pos (show 256 = block_size from rfl)]
  exact congrArg some (Prod.ext done rfl)

theorem enterDirectories_leads {dir target : Block} {names : List Str} {g : Geometry} {d : Nat → UInt8} {size : Nat}
    (leads : g.Leads d size dir names target) {s : D64} (full : s.entry.length = 32) (geo : s.geo = g)
    (data : s.container.data = d) (length : s.container.size = size) (here : s.directory = dir)
    (fresh : s.entry_index = 0) (named : ∀ name ∈ names, name ≠ []) :
    ∃ s', s.enterDirectories names = some (true, s') ∧ Looks s s' ∧ s'.directory = target ∧ s'.entry_index = 0 := by
  induction leads generalizing s with
  | here dir => exact ⟨s, rfl, .refl s, here, fresh⟩
  | @into dir sub target name names enters _ ih =>
    obtain ⟨t, entered, looks, there, start⟩ := @enterDirectory_enters s full name (named name List.mem_cons_self)
      sub (by rw [geo, data, length, here]; exact enters)
    obtain ⟨s', rest, looks', arrived, index⟩ := ih (looks.entry full) (looks.geo.trans geo) (looks.data.trans data)
      (looks.size.trans length) there start fun other member => named other (List.mem_cons_of_mem name member)
    refine ⟨s', ?_, looks.trans looks', arrived, index⟩
    rw [enterDirectories, entered]
    exact rest

theorem seekDirectory_leads {s : D64} (full : s.entry.length = 32) {path : Str} {dir : Block}
    (leads : s.geo.Leads s.container.data s.container.size s.geo.directoryStart (splitPathComponents path) dir) :
    ∃ s', s.seekDirectory path = some (true, s') ∧ Looks s s' ∧ s'.directory = dir ∧ s'.entry_index = 0 := by
  have reset : Looks s { s with dir_track := 0, dir_sector := 0, entry_index := 0 } :=
    ⟨rfl, rfl, rfl, rfl, rfl, rfl, id⟩
  obtain ⟨s', run, looks, there, index⟩ := enterDirectories_leads leads
    (s := { s with dir_track := 0, dir_sector := 0, entry_index := 0 }) full rfl rfl rfl rfl rfl
    (splitPathComponents_ne_nil path)
  exact ⟨s', run, reset.trans looks, there, index⟩

theorem Leads_concat {g : Geometry} {d : Nat → UInt8} {size : Nat} {dir target : Block} {parents : List Str} {name : Str}
    (leads : g.Leads d size dir (parents ++ [name]) target) :
    ∃ parent, g.Leads d size dir parents parent ∧ g.Enters d size parent name target := by
  induction parents generalizing dir with
  | nil =>
    cases leads with
    | into enters rest =>
      cases rest with
      | here => exact ⟨dir, .here dir, enters⟩
  | cons a parents ih =>
    cases leads with
    | into enters rest =>
      obtain ⟨parent, leads, last⟩ := ih rest
      exact ⟨parent, .into enters leads, last⟩

/-- A path is resolved in the directory its parents lead to. -/
theorem resolvePath_parents {s : D64} (full : s.entry.length = 32) {path name : Str} {parents : List Str} {dir : Block}
    (parts : splitPathComponents path = parents ++ [name])
    (leads : s.geo.Leads s.container.data s.container.size s.geo.directoryStart parents dir) :
    ∃ t, Looks s t ∧ t.directory = dir ∧ t.entry_index = 0 ∧ s.resolvePath path =
      (t.seekEntry name).bind fun r =>
        if r.1 then
          if fileType r.2.entry &&& 0b111 = 5 ∨ fileType r.2.entry &&& 0b111 = 6 then
            (r.2.enterDirectory name).map fun q => (if q.1 then .dir else .notFound, q.2)
          else some (.file, r.2)
        else some (.notFound, r.2) := by
  have split := splitPathComponents_parent parts
  obtain ⟨t, run, looks, there, index⟩ := @seekDirectory_leads s full (parentPath (splitPathComponents path)) _
    (by rw [split]; exact leads)
  have last : (splitPathComponents path).getLast? = some name := by
    rw [parts, List.getLast?_concat]
  refine ⟨t, looks, there, index, ?_⟩
  unfold resolvePath
  rw [last]
  simp only [run, Option.bind_some, if_true]

/- Whatever the entry register holds, the next entry does not depend on it: it is read in
full, or there is none. -/
def Rested (s : D64) : Prop :=
  (s.entry_index = 0 ∧ s.geo.Begins s.container.size s.directory) ∨
  (0 < s.entry_index ∧ s.entry_index < 65536 ∧ s.entry_index % 8 = 0 ∧
    (s.link.track = 0 ∨ s.geo.blockStart s.link = none))

/-- Two streams in one directory of one image. -/
structure Kin (s s' : D64) : Prop where
  geo : s'.geo = s.geo
  data : s'.container.data = s.container.data
  size : s'.container.size = s.container.size
  directory : s'.directory = s.directory
  full : s.entry.length = 32
  full' : s'.entry.length = 32

/-- Two streams from which a listing goes on alike. -/
structure Agree (s s' : D64) : Prop extends Kin s s' where
  index : s'.entry_index = s.entry_index
  pos : 0 < s.entry_index → s.entry_index < 65536 → s'.container.pos = s.container.pos ∧ s'.link = s.link
  entry : s'.entry = s.entry ∨ s.Rested

theorem Kin.symm {s s' : D64} (kin : Kin s s') : Kin s' s :=
  ⟨kin.geo.symm, kin.data.symm, kin.size.symm, kin.directory.symm, kin.full', kin.full⟩

theorem Kin.trans {s s' s'' : D64} (kin : Kin s s') (kin' : Kin s' s'') : Kin s s'' :=
  ⟨kin'.geo.trans kin.geo, kin'.data.trans kin.data, kin'.size.trans kin.size, kin'.directory.trans kin.directory,
    kin.full, kin'.full'⟩

theorem Reads.kin {s s' : D64} (reads : Reads s s') (full : s.entry.length = 32) : Kin s s' :=
  ⟨reads.looks.geo, reads.looks.data, reads.looks.size, reads.directory, full, reads.looks.entry full⟩

theorem Kin.reads {s s' t t' : D64} (kin : Kin s s') (reads : Reads s t) (reads' : Reads s' t') : Kin t t' :=
  ((reads.kin kin.full).symm.trans kin).trans (reads'.kin kin.full')

theorem Agree.rested {s s' : D64} (agree : Agree s s') (rested : s.Rested) : s'.Rested := by
  rcases rested with ⟨fresh, begins⟩ | ⟨some, low, eighth, ends⟩
  · left
    rw [agree.geo, agree.size, agree.directory, agree.index]
    exact ⟨fresh, begins⟩
  · right
    rw [agree.geo, agree.index, (agree.pos some low).2]
    exact ⟨some, low, eighth, ends⟩

theorem Agree.refl {s : D64} (full : s.entry.length = 32) : Agree s s :=
  ⟨(Reads.refl s).kin full, rfl, fun _ _ => ⟨rfl, rfl⟩, .inl rfl⟩

theorem Agree.symm {s s' : D64} (agree : Agree s s') : Agree s' s where
  toKin := agree.toKin.symm
  index := agree.index.symm
  pos some low := by
    rw [agree.index] at some low
    obtain ⟨pos, link⟩ := agree.pos some low
    exact ⟨pos.symm, link.symm⟩
  entry := agree.entry.imp Eq.symm agree.rested

theorem Agree.trans {s s' s'' : D64} (agree : Agree s s') (agree' : Agree s' s'') : Agree s s'' where
  toKin := agree.toKin.trans agree'.toKin
  index := agree'.index.trans agree.index
  pos some low := by
    obtain ⟨pos, link⟩ := agree.pos some low
    obtain ⟨pos', link'⟩ := agree'.pos (agree.index ▸ some) (agree.index ▸ low)
    exact ⟨pos'.trans pos, link'.trans link⟩
  entry := by
    rcases agree.entry with same | rested
    · rcases agree'.entry with same' | rested
      · exact .inl (same'.trans same)
      · exact .inr (agree.symm.rested rested)
    · exact .inr rested

/- Two streams that read at one place read the same. -/
theorem Kin.readAt {s s' : D64} (kin : Kin s s') {a : Nat}
    (entry : s'.entry = s.entry ∨ a + 32 ≤ s.container.size) : s'.readAt a = s.readAt a := by
  rcases entry with same | fits
  · unfold D64.readAt
    rw [kin.data, kin.size, same]
  · rw [readAt_full s a kin.full fits, readAt_full s' a kin.full' (by rw [kin.size]; exact fits), kin.data]

/-- What a listing asks for: the next entry, and that it goes on alike. -/
structure SameNext (r r' : Bool × D64) : Prop where
  more : r'.1 = r.1
  entry : r.1 = true → r'.2.entry = r.2.entry
  agree : r.1 = true → Agree r.2 r'.2

theorem SameNext.none (s s' : D64) : SameNext (false, s) (false, s') := ⟨rfl, nofun, nofun⟩

theorem Kin.load {s s' : D64} (kin : Kin s s') {a k : Nat} (t x : Nat) (link : k % 8 = 0 ∨ s'.link = s.link)
    (entry : s'.entry = s.entry ∨ a + 32 ≤ s.container.size) (t' x' : Nat) :
    SameNext (true, s.load a t x k) (true, s'.load a t' x' k) := by
  have read := kin.readAt entry
  have same : (s'.load a t' x' k).entry = (s.load a t x k).entry := by rw [load_entry, load_entry, read]
  refine ⟨rfl, fun _ => same, fun _ =>
    ⟨kin.reads (load_reads s a t x k) (load_reads s' a t' x' k), ?_, fun _ _ => ⟨?_, ?_⟩, .inl same⟩⟩
  · rw [load_index, load_index]
  · rw [load_pos, load_pos, kin.size]
  · rw [load_link, load_link, read]
    rcases link with first | same
    · rw [if_pos first, if_pos first]
    · rw [same]

/-- From streams that agree the listing returns the same entry, and they agree again. -/
theorem Agree.next {s s' : D64} (agree : Agree s s') (low : s.entry_index ≤ 65536) :
    SameNext s.getNextImageEntry s'.getNextImageEntry := by
  obtain ⟨container, kept, same, -⟩ := default_rest s
  obtain ⟨container', kept', same', -⟩ := default_rest s'
  have kin := agree.toKin.reads (reads_default s) (reads_default s')
  unfold getNextImageEntry
  rw [agree.index]
  by_cases inner : 0 < s.entry_index ∧ s.entry_index < 65536
  · obtain ⟨k, index⟩ : ∃ k, s.entry_index = k + 1 := ⟨s.entry_index - 1, by omega⟩
    obtain ⟨pos, link⟩ := agree.pos inner.1 inner.2
    rw [index, seekEntryAt_on s index (by omega), seekEntryAt_on s' (agree.index.trans index) (by omega),
      stepToEntry_start, stepToEntry_start, kept, kept', link, (reads_default s).looks.geo,
      (reads_default s').looks.geo, agree.geo, container, container', pos]
    rcases agree.entry with entry | rested
    · have entry' : s'.defaultDirectory.entry = s.defaultDirectory.entry := by rw [same, same', entry]
      have link' : s'.defaultDirectory.link = s.defaultDirectory.link := by rw [kept, kept', link]
      split
      · split
        · exact .none _ _
        · split
          · exact .none _ _
          · exact kin.load _ _ (.inr link') (.inl entry') _ _
      · exact kin.load _ _ (.inr link') (.inl entry') _ _
    · obtain ⟨eighth, ends⟩ : (k + 1) % 8 = 0 ∧ (s.link.track = 0 ∨ s.geo.blockStart s.link = none) := by
        rcases rested with ⟨fresh, -⟩ | ⟨-, -, eighth, ends⟩
        · omega
        · exact ⟨index ▸ eighth, ends⟩
      rw [if_pos eighth, if_pos eighth]
      rcases ends with last | outside
      · rw [if_pos last, if_pos last]
        exact .none _ _
      · rw [outside]
        split
        · exact .none _ _
        · exact .none _ _
  · rw [show (s.entry_index + 1) % 65536 = 1 by omega, seekEntryAt_one, seekEntryAt_one, agree.geo, agree.directory]
    split
    · exact .none _ _
    · rename_i a start
      refine (kin.reads (reads_unlinked _) (reads_unlinked _)).load _ _ (.inl rfl) ?_ _ _
      rcases agree.entry with entry | ⟨-, begins⟩ | ⟨some, less, -⟩
      · exact .inl (same'.trans (entry.trans same.symm))
      · exact .inr (by rw [show s.defaultDirectory.unlinked.container = s.container from container]; exact begins a start)
      · exact absurd ⟨some, less⟩ inner

/-- A stream that has read entry `k` in full stands where the directory has it. -/
def Standing (s : D64) : Prop :=
  ∀ k p, s.entry_index = k + 1 → s.place k = some p → s.On k p ∧ (s.entry = p.entry ∨ s.Rested)

theorem Standing.fresh {s : D64} (fresh : s.entry_index = 0) : s.Standing := by
  intro k p index
  omega

theorem Arrived.standing {s s' : D64} {k : Nat} {p : Place} (here : s.place k = some p) (arrived : Arrived s k p s') :
    s'.Standing := by
  intro i q index place
  obtain rfl : i = k := Nat.succ.inj (index.symm.trans arrived.on.index)
  rw [arrived.reads.place] at place
  obtain rfl := Option.some.inj (here.symm.trans place)
  exact ⟨arrived.on, .inl arrived.entry⟩

theorem Standing.before {s : D64} (stands : s.Standing) {p : Place} (here : s.place s.entry_index = some p) :
    s.Before s.entry_index := by
  cases index : s.entry_index with
  | zero => exact trivial
  | succ k =>
    rw [index] at here
    obtain ⟨q, before⟩ := place_before here (i := k) (by omega)
    exact ⟨q, before, (stands k q index before).1⟩

/- How far the counter has come after an entry. -/
theorem next_index {s s' : D64} (low : s.entry_index ≤ 65536) (run : s.getNextImageEntry = (true, s')) :
    Reads s s' ∧ s'.entry_index = s.entry_index % 65536 + 1 := by
  have default := reads_default s
  unfold getNextImageEntry at run
  by_cases inner : 0 < s.entry_index ∧ s.entry_index < 65536
  · obtain ⟨k, index⟩ : ∃ k, s.entry_index = k + 1 := ⟨s.entry_index - 1, by omega⟩
    rw [index, seekEntryAt_on s index (by omega), stepToEntry_start] at run
    rw [index, Nat.mod_eq_of_lt (by omega)]
    split at run
    · split at run
      · cases run
      · split at run
        · cases run
        · obtain rfl := (Prod.mk.inj run).2
          exact ⟨default.trans (load_reads _ _ _ _ _), load_index _ _ _ _ _⟩
    · obtain rfl := (Prod.mk.inj run).2
      exact ⟨default.trans (load_reads _ _ _ _ _), load_index _ _ _ _ _⟩
  · rw [show (s.entry_index + 1) % 65536 = 1 by omega, seekEntryAt_one] at run
    rw [show s.entry_index % 65536 = 0 by omega]
    split at run
    · cases run
    · obtain rfl := (Prod.mk.inj run).2
      exact ⟨(default.trans (reads_unlinked _)).trans (load_reads _ _ _ _ _), load_index _ _ _ _ _⟩

/-- The listing goes from one entry to the next. -/
theorem Standing.next {s s' : D64} (stands : s.Standing) (full : s.entry.length = 32) (low : s.entry_index ≤ 65536)
    (run : s.getNextImageEntry = (true, s')) : s'.Standing ∧ s'.entry_index ≤ 65536 := by
  obtain ⟨reads, index⟩ := next_index low run
  refine ⟨fun k p count place => ?_, by omega⟩
  obtain rfl : s.entry_index % 65536 = k := by omega
  rw [reads.place] at place
  have before : s.Before (s.entry_index % 65536) := by
    rcases Nat.lt_or_eq_of_le low with less | wrapped
    · rw [Nat.mod_eq_of_lt less] at place ⊢
      exact stands.before place
    · rw [wrapped]
      exact trivial
  obtain ⟨t, read, arrived⟩ := seekEntryAt_place full before (by omega) place
  unfold getNextImageEntry at run
  rw [show (s.entry_index % 65536 + 1) % 65536 = (s.entry_index + 1) % 65536 by omega, run] at read
  obtain rfl := (Prod.mk.inj read).2
  exact ⟨arrived.on, .inl arrived.entry⟩

/-- A lookup that stops where the listing stands leaves it a stream that agrees. -/
theorem KeepsPlace.agree {s : D64} {path : Str} (keeps : s.KeepsPlace path) (stands : s.Standing)
    (full : s.entry.length = 32) :
    ∃ r, s.resolvePath path = some r ∧ Agree s r.2 ∧ r.2.Standing := by
  cases keeps with
  | start named fresh begins =>
    have done : ∀ r, s.resolvePath path = some r → r.2.directory = s.directory → r.2.entry_index = 0 →
        ∃ r, s.resolvePath path = some r ∧ Agree s r.2 ∧ r.2.Standing := by
      intro r run there index
      have reads : Reads s r.2 := ⟨(resolvePath_walks s path r run).looks, there⟩
      exact ⟨r, run, ⟨reads.kin full, index.trans fresh.symm, fun some => by omega, .inr (.inl ⟨fresh, begins⟩)⟩,
        .fresh index⟩
    rcases List.eq_nil_or_concat (splitPathComponents path) with none | ⟨parents, name, parts⟩
    · obtain ⟨t, run, -, there, index⟩ := @seekDirectory_leads s full [] _
        (by rw [none] at named; exact named)
      refine done (.dir, t) ?_ there index
      unfold resolvePath
      rw [none]
      simp only [List.getLast?_nil, run, Option.map_some, if_true]
    · rw [List.concat_eq_append] at parts
      rw [parts] at named
      obtain ⟨parent, leads, enters⟩ := Leads_concat named
      obtain ⟨t, looks, there, -, resolve⟩ := resolvePath_parents full parts leads
      have nonempty := splitPathComponents_ne_nil path name (by rw [parts]; simp)
      rw [← there, ← looks.geo, ← looks.data, ← looks.size] at enters
      obtain ⟨k, p, a, first, type, rest⟩ := id enters
      obtain ⟨u, found, arrived⟩ := seekEntry_first (looks.entry full) nonempty first
      obtain ⟨v, entered, -, sub, index⟩ := @enterDirectory_enters u
        (arrived.reads.looks.entry (looks.entry full)) name nonempty s.directory (by
          rw [arrived.reads.directory, arrived.reads.looks.geo, arrived.reads.looks.data, arrived.reads.looks.size]
          exact enters)
      have kind : fileType u.entry &&& 0b111 = 5 ∨ fileType u.entry &&& 0b111 = 6 := by
        rw [arrived.entry]
        simpa only [Geometry.isSubdirectory, Bool.or_eq_true, beq_iff_eq] using type
      refine done (.dir, v) ?_ sub index
      rw [resolve, found]
      simp only [Option.bind_some, if_true, if_pos kind, entered, Option.map_some]
  | last parents name k p parts named first file here =>
    obtain ⟨t, looks, there, -, resolve⟩ := resolvePath_parents full parts named
    have nonempty := splitPathComponents_ne_nil path name (by rw [parts]; simp)
    rw [← there, ← looks.geo, ← looks.data, ← looks.size] at first
    obtain ⟨u, found, arrived⟩ := seekEntry_first (looks.entry full) nonempty first
    have kind : ¬ (fileType u.entry &&& 0b111 = 5 ∨ fileType u.entry &&& 0b111 = 6) := by
      rw [arrived.entry]
      simpa only [Geometry.isSubdirectory, Bool.or_eq_false_iff, beq_eq_false_iff_ne, not_or] using file
    have reads : Reads s t := ⟨looks, there⟩
    have place := first.2.1
    obtain ⟨on, entry⟩ := stands k p here (by rw [← reads.place]; exact place)
    refine ⟨(.file, u), ?_, ⟨(reads.trans arrived.reads).kin full, arrived.on.index.trans here.symm, fun _ _ =>
      ⟨arrived.on.pos.trans on.pos.symm, arrived.on.link.trans on.link.symm⟩,
      entry.imp_left fun same => arrived.entry.trans same.symm⟩, arrived.standing place⟩
    rw [resolve, found]
    simp only [Option.bind_some, if_true, if_neg kind]
  | behind parents name parts named missing ends =>
    obtain ⟨t, looks, there, index, resolve⟩ := resolvePath_parents full parts named
    have nonempty := splitPathComponents_ne_nil path name (by rw [parts]; simp)
    have reads : Reads s t := ⟨looks, there⟩
    obtain ⟨u, gone, reads', count, before⟩ := seekEntry_missing (looks.entry full) index nonempty
      (n := s.entry_index) (by rw [looks.geo, looks.data, looks.size, there]; exact ends) fun i lt q place =>
        missing i lt q (by rw [reads.place] at place; exact place)
    have rested : s.Rested := by
      obtain ⟨low, eighth, blank, linked⟩ := ends
      cases at_ : s.entry_index with
      | zero =>
        left
        refine ⟨at_, fun a start => ?_⟩
        rw [blank at_] at start
        cases start
      | succ k =>
        right
        obtain ⟨p, place, stop⟩ := linked k at_
        obtain ⟨on, -⟩ := stands k p at_ place
        rw [on.link]
        exact ⟨by omega, low, eighth, stop⟩
    have agree : Agree s u := by
      refine ⟨(reads.trans reads').kin full, count, fun some low => ?_, .inr rested⟩
      obtain ⟨k, at_⟩ : ∃ k, s.entry_index = k + 1 := ⟨s.entry_index - 1, by omega⟩
      rw [at_] at before
      obtain ⟨p, place, on⟩ := before
      rw [(reads.trans reads').place] at place
      obtain ⟨on', -⟩ := stands k p at_ place
      exact ⟨on.pos.trans on'.pos.symm, on.link.trans on'.link.symm⟩
    refine ⟨(.notFound, u), ?_, agree, fun k p at_ place => ?_⟩
    · rw [resolve, gone]
      rfl
    · have at' := count.symm.trans at_
      rw [at'] at before
      obtain ⟨q, there', on⟩ := before
      obtain rfl := Option.some.inj (there'.symm.trans place)
      exact ⟨on, .inr (agree.rested rested)⟩

/-- Reading the header and the BAM moves the position and nothing else a listing needs. -/
structure Glances (s s' : D64) : Prop where
  reads : Reads s s'
  index : s'.entry_index = s.entry_index

theorem Glances.trans {s s' s'' : D64} (glance : Glances s s') (glance' : Glances s' s'') : Glances s s'' :=
  ⟨glance.reads.trans glance'.reads, glance'.index.trans glance.index⟩

theorem Glances.refl (s : D64) : Glances s s := ⟨.refl s, rfl⟩

theorem seekSector_glances (s : D64) (t x o : Nat) : Glances s (s.seekSector t x o).2 := by
  unfold seekSector
  split
  · exact .refl s
  · exact ⟨⟨⟨rfl, rfl, rfl, rfl, rfl, rfl, id⟩, rfl⟩, rfl⟩

theorem readContainer_glances (s : D64) (n : Nat) : Glances s (s.readContainer n).2 :=
  ⟨⟨(readContainer_walks s n).looks, rfl⟩, rfl⟩

theorem readBAMRecord_glances (s : D64) (t : Nat) : Glances s (s.readBAMRecord t).2 := by
  unfold readBAMRecord
  split
  · exact .refl s
  · dsimp only
    split
    · exact (seekSector_glances s _ _ _).trans (readContainer_glances _ _)
    · exact seekSector_glances s _ _ _

theorem getTrackFreeCount_glances (s : D64) (t : Nat) : Glances s (s.getTrackFreeCount t).2 := by
  have read := readBAMRecord_glances s t
  unfold getTrackFreeCount
  split
  · rename_i run
    rw [run] at read
    exact read
  · rename_i run
    rw [run] at read
    exact read

theorem blocksFree_glances (s : D64) : Glances s s.blocksFree.2 := by
  have loop : ∀ (ts : List Nat) (s : D64), Glances s (s.blocksFreeLoop ts).2 := by
    intro ts
    induction ts with
    | nil => exact .refl
    | cons t ts ih =>
      intro s
      unfold blocksFreeLoop
      split
      · exact ih s
      · exact (getTrackFreeCount_glances s t).trans (ih _)
  exact loop _ s

theorem readHeader_glances (s : D64) : Glances s s.readHeader.2.2 := by
  unfold readHeader
  dsimp only
  split
  · exact (seekSector_glances s _ _ _).trans (readContainer_glances _ _)
  · exact seekSector_glances s _ _ _

theorem enterDirectory_index {s : D64} {name : Str} {r : Bool × D64} (done : s.enterDirectory name = some r)
    (entered : r.1 = true) : r.2.entry_index = 0 := by
  obtain ⟨e, -, rfl⟩ := Option.map_eq_some_iff.mp done
  revert entered
  dsimp only
  split
  · split
    · nofun
    · split
      · exact fun _ => rfl
      · nofun
  · nofun

theorem enterDirectories_index {s : D64} {parts : List Str} {r : Bool × D64} (fresh : s.entry_index = 0)
    (done : s.enterDirectories parts = some r) (entered : r.1 = true) : r.2.entry_index = 0 := by
  induction parts generalizing s with
  | nil =>
    obtain rfl := Option.some.inj done
    exact fresh
  | cons part parts ih =>
    obtain ⟨q, enter, rest⟩ := Option.bind_eq_some_iff.mp done
    split at rest
    · rename_i inside
      exact ih (enterDirectory_index enter inside) rest
    · obtain rfl := Option.some.inj rest
      cases entered

end D64

/-- `rewindDirectory` opens the listing at the first entry, or fails. -/
theorem D64MFile.rewindDirectory_opens {m : D64MFile} {s : D64} {r : Bool × D64MFile × D64}
    (rewound : m.rewindDirectory s = some r) :
    D64.Looks s r.2.2 ∧ r.2.1.dirIsOpen = r.1 ∧ (r.1 = true → r.2.2.entry_index = 0) := by
  obtain ⟨d, seek, rest⟩ := Option.bind_eq_some_iff.mp rewound
  have header := (D64.readHeader_glances s).reads.looks
  have reset : D64.Looks s.readHeader.2.2 s.readHeader.2.2.resetEntryCounter := ⟨rfl, rfl, rfl, rfl, rfl, rfl, id⟩
  have looks := (header.trans reset).trans (D64.seekDirectory_walks _ _ d seek).looks
  split at rest
  · rename_i entered
    obtain ⟨source, -, rfl⟩ := Option.map_eq_some_iff.mp rest
    have free := D64.blocksFree_glances d.2
    exact ⟨looks.trans free.reads.looks, rfl, fun _ =>
      free.index.trans (D64.enterDirectories_index rfl seek entered)⟩
  · obtain rfl := Option.some.inj rest
    exact ⟨looks, rfl, nofun⟩

namespace Listing

/-- A listing among other requests, and the same listing alone. -/
structure Alike (l l' : Listing) : Prop where
  file : l'.file = l.file
  returned : l'.returned = l.returned
  ended : l'.ended = l.ended
  agree : l.ended = false → D64.Agree l.image l'.image
  standing : l.ended = false → l.file.dirIsOpen = true → l.image.Standing ∧ l.image.entry_index ≤ 65536
  closed : l.ended = false → l.file.dirIsOpen = false → l'.image = l.image

/- Nothing more happens to a listing that is over or stuck. -/
theorem run_none (requests : List Request) : requests.foldl step none = none := by
  induction requests with
  | nil => rfl
  | cons q requests ih => exact ih

theorem run_ended (requests : List Request) {l : Listing} (ended : l.ended = true) :
    requests.foldl step (some l) = some l := by
  induction requests with
  | nil => rfl
  | cons q requests ih =>
    rw [List.foldl_cons, show step (some l) q = some l from if_pos ended]
    exact ih

/-- The next entry of an open listing. -/
theorem Alike.open_next {l l' : Listing} (alike : Alike l l') (going : l.ended = false)
    (opened : l.file.dirIsOpen = true) :
    ∃ t t', l.serve .next = some t ∧ l'.serve .next = some t' ∧ Alike t t' := by
  obtain ⟨stands, low⟩ := alike.standing going opened
  have agree := alike.agree going
  have same := agree.next low
  have run : ∀ s : D64, l.file.getNextFileInDir s = some (if s.getNextImageEntry.1 then
      (some (l.file.fileFor s.getNextImageEntry.2.entry), l.file, s.getNextImageEntry.2)
    else (none, { l.file with dirIsOpen := false }, s.getNextImageEntry.2)) := by
    intro s
    unfold D64MFile.getNextFileInDir
    rw [if_pos opened]
    rfl
  refine ⟨_, _, by unfold serve; dsimp only; rw [run]; rfl, by unfold serve; dsimp only; rw [alike.file, run]; rfl, ?_⟩
  rw [same.more]
  cases more : l.image.getNextImageEntry.1 with
  | false => exact ⟨rfl, alike.returned, rfl, nofun, nofun, nofun⟩
  | true =>
    have next := @D64.Standing.next l.image l.image.getNextImageEntry.2 stands agree.full low (Prod.ext more rfl)
    refine ⟨rfl, ?_, rfl, fun _ => same.agree more, fun _ _ => next, fun _ shut => ?_⟩
    · simp only [if_true, same.entry more, alike.returned]
    · exact absurd (opened.symm.trans shut) (by decide)

/-- The next entry of a listing that could not be opened: it is tried again. -/
theorem Alike.closed_next {l l' t : Listing} (alike : Alike l l') (going : l.ended = false)
    (shut : l.file.dirIsOpen = false) (run : l.serve .next = some t) : l'.serve .next = some t ∧ Alike t t := by
  have same : l'.serve .next = l.serve .next := by
    unfold serve
    dsimp only
    rw [alike.file, alike.closed going shut, alike.returned]
  refine ⟨same.trans run, ?_⟩
  have full := (alike.agree going).full
  obtain ⟨r, next, rfl⟩ := Option.map_eq_some_iff.mp run
  obtain ⟨q, rewound, rfl⟩ := Option.map_eq_some_iff.mp next
  rw [if_neg (by rw [shut]; decide)] at rewound
  obtain ⟨looks, opened, fresh⟩ := D64MFile.rewindDirectory_opens rewound
  cases success : q.1 with
  | false =>
    simp only [Bool.false_eq_true, if_false]
    exact ⟨rfl, rfl, rfl, nofun, nofun, nofun⟩
  | true =>
    have start := fresh success
    cases more : q.2.2.getNextImageEntry.1 with
    | false =>
      simp only [if_true, Bool.false_eq_true, if_false, more]
      exact ⟨rfl, rfl, rfl, nofun, nofun, nofun⟩
    | true =>
      have read : q.2.2.getNextImageEntry = (true, q.2.2.getNextImageEntry.2) := Prod.ext more rfl
      have length := (D64.next_index (by omega) read).1.looks.entry (looks.entry full)
      have next := (D64.Standing.fresh start).next (looks.entry full) (by omega) read
      simp only [if_true, more]
      exact ⟨rfl, rfl, rfl, fun _ => .refl length, fun _ _ => next, fun _ _ => rfl⟩

/-- A request that spares the listing. -/
theorem Alike.lookup {l l' : Listing} (alike : Alike l l') (going : l.ended = false) {q : Request}
    (other : q.isNext = false) (spares : l.Spares q) : ∃ t, l.serve q = some t ∧ Alike t l' := by
  have agree := alike.agree going
  -- the lookup of a path inside the image
  have inside : ∀ path, l.file.dirIsOpen = true → l.image.KeepsPlace path →
      ∃ r, l.image.resolvePath path = some r ∧ Alike { l with image := r.2 } l' := by
    intro path opened keeps
    obtain ⟨stands, low⟩ := alike.standing going opened
    obtain ⟨r, run, kept, stands'⟩ := keeps.agree stands agree.full
    exact ⟨r, run, alike.file, alike.returned, alike.ended, fun _ => kept.symm.trans agree,
      fun _ _ => ⟨stands', by rw [kept.index]; exact low⟩, fun _ shut => absurd (opened.symm.trans shut) (by decide)⟩
  cases q with
  | next => cases other
  | exists_ m =>
    unfold serve
    dsimp only
    unfold D64MFile.exists_
    split
    · exact ⟨l, rfl, alike⟩
    · rename_i out
      obtain ⟨opened, keeps⟩ := spares.resolve_left out
      obtain ⟨r, run, alike'⟩ := inside m.pathInStream opened keeps
      rw [run]
      exact ⟨_, rfl, alike'⟩
  | isDirectory m =>
    unfold serve
    dsimp only
    unfold D64MFile.isDirectory
    split
    · exact ⟨l, rfl, alike⟩
    · rename_i unknown
      split
      · exact ⟨l, rfl, alike⟩
      · rename_i out
        rcases spares with known | root | ⟨opened, keeps⟩
        · rw [unknown] at known
          cases known
        · exact absurd root out
        · obtain ⟨r, run, alike'⟩ := inside m.pathInStream opened keeps
          rw [run]
          exact ⟨_, rfl, alike'⟩

/-- Requests that spare the listing do not show in what it returns. -/
theorem Alike.run {l l' : Listing} (alike : Alike l l') (requests : List Request)
    (careful : Along step Careful (some l) requests) :
    seen (requests.foldl step (some l)) = seen ((requests.filter Request.isNext).foldl step (some l')) := by
  induction requests generalizing l l' with
  | nil =>
    simp only [List.filter_nil, List.foldl_nil, seen, Option.map_some, alike.returned, alike.ended]
  | cons q requests ih =>
    obtain ⟨spares, rest⟩ := careful
    cases going : l.ended with
    | true =>
      rw [run_ended _ going, run_ended _ (alike.ended.trans going)]
      simp only [seen, Option.map_some, alike.returned, alike.ended]
    | false =>
      have here : ∀ k : Listing, k.ended = false → step (some k) q = k.serve q := fun k going =>
        if_neg (by rw [going]; decide)
      rw [here l going] at rest
      cases other : q.isNext with
      | false =>
        obtain ⟨t, run, alike'⟩ := alike.lookup going other (spares l rfl going)
        rw [run] at rest
        rw [List.filter_cons_of_neg (by rw [other]; decide), List.foldl_cons, here l going, run]
        exact ih alike' rest
      | true =>
        obtain rfl : q = .next := by
          cases q with
          | next => rfl
          | exists_ m => cases other
          | isDirectory m => cases other
        rw [List.filter_cons_of_pos other, List.foldl_cons, List.foldl_cons, here l going,
          here l' (alike.ended.trans going)]
        cases opened : l.file.dirIsOpen with
        | true =>
          obtain ⟨t, t', run, run', alike'⟩ := alike.open_next going opened
          rw [run] at rest
          rw [run, run']
          exact ih alike' rest
        | false =>
          cases run : l.serve .next with
          | none =>
            have same : l'.serve .next = l.serve .next := by
              unfold serve
              dsimp only
              rw [alike.file, alike.closed going opened, alike.returned]
            rw [same, run, run_none, run_none]
          | some t =>
            obtain ⟨run', alike'⟩ := alike.closed_next going opened run
            rw [run] at rest
            rw [run']
            exact ih alike' rest

end Listing

/-- A listing returns the same entries among other requests as alone, if every lookup that
reaches the shared stream stops at the place where the listing stands. -/
theorem listing_undisturbed (f : Format) (c : Container) (s : D64) (used : D64.Looks (D64.new f c) s) (m : D64MFile)
    (r : Bool × D64MFile × D64) (rewound : m.rewindDirectory s = some r) (requests : List Request)
    (careful : Along Listing.step Listing.Careful (some ⟨r.2.1, r.2.2, [], false⟩) requests) :
    Listing.seen (requests.foldl Listing.step (some ⟨r.2.1, r.2.2, [], false⟩)) =
      Listing.seen ((requests.filter Request.isNext).foldl Listing.step (some ⟨r.2.1, r.2.2, [], false⟩)) := by
  obtain ⟨looks, opened, fresh⟩ := D64MFile.rewindDirectory_opens rewound
  have full : r.2.2.entry.length = 32 := (used.trans looks).entry rfl
  have start : Listing.Alike ⟨r.2.1, r.2.2, [], false⟩ ⟨r.2.1, r.2.2, [], false⟩ := by
    refine ⟨rfl, rfl, rfl, fun _ => .refl full, fun _ ready => ?_, fun _ _ => rfl⟩
    have index := fresh (opened.symm.trans ready)
    exact ⟨.fresh index, by rw [index]; decide⟩
  exact start.run requests careful

/- A D64 with the files "a" and "b" in its directory sector 18/1. -/
def sampleDirectory : Container where
  data := Store.put (Store.put (fun _ => 0) 91650 (D64.newEntry [0x61] ⟨17, 0⟩ 1)) 91682
    (D64.newEntry [0x62] ⟨17, 1⟩ 1)
  size := 174848

/- An object for a path inside it. -/
def sampleFile (path : Str) : D64MFile where
  url := [0x69]
  pathInStream := path
  name := [0x69]
  sourceFile := some ⟨true, []⟩

/- Its listing, after `rewindDirectory`. -/
def sampleListing : Option Listing :=
  ((sampleFile []).rewindDirectory (D64.new .d64 sampleDirectory)).map fun r => ⟨r.2.1, r.2.2, [], false⟩

/- The names a listing has returned. -/
def namesSeen (l : Option Listing) : Option (List Str) := l.map fun l => l.returned.map DirEntry.name

/-- "b" is asked for while "a" is being listed, and the listing goes on behind it. -/
theorem listing_loses_entry :
    namesSeen ([Request.next, .exists_ (sampleFile [0x62]), .next].foldl Listing.step sampleListing) =
      some [[0x61], []] ∧
    namesSeen ([Request.next, .next].foldl Listing.step sampleListing) = some [[0x61], [0x62]] := by
  decide +kernel

/-- `listing_undisturbed` applies where the file asked for is the one listed last. -/
theorem listing_undisturbed_sample : ∃ r, (sampleFile []).rewindDirectory (D64.new .d64 sampleDirectory) = some r ∧
    Listing.seen ([Request.next, .exists_ (sampleFile [0x61]), .next].foldl Listing.step (some ⟨r.2.1, r.2.2, [], false⟩)) =
      Listing.seen ([Request.next, .next].foldl Listing.step (some ⟨r.2.1, r.2.2, [], false⟩)) := by
  have view : (Listing.step sampleListing .next).map (fun l => (l.file.dirIsOpen, l.image.entry_index,
      decide (l.image.geo.directoryStart = l.image.directory),
      (l.image.place 0).map fun p => (liveMatch [0x61] p.entry, Geometry.isSubdirectory p.entry))) =
      some (true, 1, true, some (true, false)) := by decide +kernel
  unfold sampleListing at view
  cases rewound : (sampleFile []).rewindDirectory (D64.new .d64 sampleDirectory) with
  | none =>
    rw [rewound] at view
    cases view
  | some r =>
    rw [rewound] at view
    obtain ⟨l, one, facts⟩ := Option.map_eq_some_iff.mp view
    obtain ⟨opened, facts⟩ := Prod.mk.inj facts
    obtain ⟨index, facts⟩ := Prod.mk.inj facts
    obtain ⟨root, first⟩ := Prod.mk.inj facts
    obtain ⟨p, place, matched⟩ := Option.map_eq_some_iff.mp first
    obtain ⟨hit, file⟩ := Prod.mk.inj matched
    refine ⟨r, rfl, listing_undisturbed .d64 sampleDirectory _ (.refl _) (sampleFile []) r rewound
      [.next, .exists_ (sampleFile [0x61]), .next] ⟨fun _ _ _ => trivial, fun listing same _ => .inr ?_,
        fun _ _ _ => trivial, trivial⟩⟩
    obtain rfl := Option.some.inj (one.symm.trans same)
    refine ⟨opened, .last [] [0x61] 0 p rfl ?_ ⟨by decide, place, hit, nofun⟩ file index⟩
    rw [of_decide_eq_true root]
    exact .here _

end Meatloaf.Disk
