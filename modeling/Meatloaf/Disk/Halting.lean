import Meatloaf.Disk.Shared

/-! When a lookup by name comes to an end. The places it comes to are a function of the image: it reads
slot after slot and follows the links of the sectors, and where its counter of 16 bits runs over it starts
again in the first sector. -/
namespace Meatloaf.Disk

open Lib

namespace Geometry

variable (g : Geometry) (d : Nat → UInt8) (size : Nat) (dir : Block)

/- What a read at `a` leaves in a register that held `e`. -/
def readOver (e : List UInt8) (a : Nat) : List UInt8 :=
  Store.read d a (min 32 (size - a)) ++ e.drop (min 32 (size - a))

/- The first entry of a sector carries its link. -/
def sectorSpot (e : List UInt8) (a : Nat) : Place :=
  ⟨a + min 32 (size - a), linkOf (readOver d size e a), readOver d size e a⟩

def rootSpot (e : List UInt8) : Option Place :=
  (g.blockStart dir).map fun a => sectorSpot d size e (a + g.directory_offset)

/- The spot with number `k`, behind the one before it. -/
def nextSpot (k : Nat) (p : Place) : Option Place :=
  if k % 65536 = 0 then g.rootSpot d size dir p.entry
  else if k % 8 = 0 then
    if p.link.track = 0 then none else (g.blockStart p.link).map (sectorSpot d size p.entry)
  else some ⟨p.pos + min 32 (size - p.pos), p.link, readOver d size p.entry p.pos⟩

/-- The spots of a walk through the directory, with `e` in the register when it starts. -/
def spot (e : List UInt8) : Nat → Option Place
  | 0 => g.rootSpot d size dir e
  | k + 1 => (spot e k).bind (g.nextSpot d size dir (k + 1))

theorem readOver_full {e : List UInt8} {a : Nat} (full : e.length = 32) (fits : a + 32 ≤ size) :
    readOver d size e a = Store.read d a 32 := by
  have all : min 32 (size - a) = 32 := by omega
  rw [readOver, all, List.drop_of_length_le (by omega), List.append_nil]

end Geometry

namespace D64

/- The spots from where the stream is. -/
def spot (s : D64) (e : List UInt8) (k : Nat) : Option Place :=
  s.geo.spot s.container.data s.container.size s.directory e k

/-- The directory ends before the spot, or the entry there is one that is looked for. -/
def StopsAt (s : D64) (hit : List UInt8 → Bool) (e : List UInt8) (k : Nat) : Prop :=
  ∀ p, s.spot e k = some p → hit p.entry = true

/-- The stream has come to the spot with number `k`. -/
structure Stands (s : D64) (k : Nat) (p : Place) : Prop where
  index : s.entry_index = k % 65536 + 1
  pos : s.container.pos = p.pos
  link : s.link = p.link
  entry : s.entry = p.entry

/- The next spot is the one with number `k`. -/
def Faces (s : D64) (e : List UInt8) : Nat → Prop
  | 0 => s.entry = e
  | k + 1 => ∃ p, s.spot e k = some p ∧ s.Stands k p

variable {s : D64} {e : List UInt8}

theorem Reads.spot {s' : D64} (reads : Reads s s') (k : Nat) : s'.spot e k = s.spot e k := by
  unfold D64.spot
  rw [reads.looks.geo, reads.looks.data, reads.looks.size, reads.directory]

/- Whenever the counter is at its start, the spot is in the first sector. -/
theorem Faces.root {k : Nat} (faces : s.Faces e k) (start : k % 65536 = 0) :
    s.spot e k = s.geo.rootSpot s.container.data s.container.size s.directory s.entry := by
  cases k with
  | zero =>
    have entry : s.entry = e := faces
    rw [entry]
    rfl
  | succ k =>
    obtain ⟨p, here, stands⟩ := faces
    have step : s.spot e (k + 1) =
        (s.spot e k).bind (s.geo.nextSpot s.container.data s.container.size s.directory (k + 1)) := rfl
    rw [step, here, stands.entry]
    exact if_pos start

theorem load_stands (s : D64) (a t x : Nat) {k : Nat} {p : Place} (pos : p.pos = a + min 32 (s.container.size - a))
    (link : p.link = if k % 8 = 0 then linkOf (s.readAt a) else s.link) (entry : p.entry = s.readAt a) :
    (s.load a t x (k % 65536)).Stands k p := by
  refine ⟨load_index s a t x _, ?_, ?_, ?_⟩
  · rw [load_pos, pos]
  · rw [load_link, link, show k % 65536 % 8 = k % 8 by omega]
  · rw [load_entry, entry]

theorem readAt_default (s : D64) (a : Nat) : s.defaultDirectory.readAt a = s.readAt a := by
  obtain ⟨container, -, entry, -⟩ := default_rest s
  unfold readAt
  rw [container, entry]

/- What an access does at a spot that may not be there. -/
def Comes (s : D64) (k : Nat) (spot : Option Place) (r : Bool × D64) : Prop :=
  r.1 = spot.isSome ∧ Reads s r.2 ∧ ∀ p, spot = some p → r.2.Stands k p

theorem comes_none {k : Nat} {t : D64} (reads : Reads s t) : Comes s k none (false, t) :=
  ⟨rfl, reads, fun p no => nomatch no⟩

theorem comes_some {k : Nat} {t : D64} {p : Place} (reads : Reads s t) (stands : t.Stands k p) :
    Comes s k (some p) (true, t) := by
  refine ⟨rfl, reads, ?_⟩
  rintro q found
  cases found
  exact stands

/- The first access of a round. -/
theorem seekEntryAt_rootSpot {k : Nat} (start : k % 65536 = 0) :
    Comes s k (s.geo.rootSpot s.container.data s.container.size s.directory s.entry) (s.seekEntryAt 1) := by
  have cleared := (reads_default s).trans (reads_unlinked s.defaultDirectory)
  have same : ∀ a, s.defaultDirectory.unlinked.readAt a = s.readAt a := fun a => readAt_default s a
  rw [seekEntryAt_one]
  unfold Geometry.rootSpot
  cases s.geo.blockStart s.directory with
  | none => exact comes_none cleared
  | some a =>
    refine comes_some (cleared.trans (load_reads _ _ _ _ _)) ?_
    rw [← start]
    apply load_stands
    · rw [cleared.looks.size]
      rfl
    · rw [if_pos (by omega), same]
      rfl
    · rw [same]
      rfl

/- Any other access. -/
theorem stepToEntry_nextSpot {j k : Nat} {p : Place} (stands : s.Stands j p) (later : (j + 1) % 65536 ≠ 0)
    (number : k = (j + 1) % 65536) :
    Comes s (j + 1) (s.geo.nextSpot s.container.data s.container.size s.directory (j + 1) p) (s.stepToEntry k) := by
  have exceeds : ∀ a, s.readAt a = Geometry.readOver s.container.data s.container.size p.entry a := by
    intro a
    rw [← stands.entry]
    rfl
  have eighth : k % 8 = (j + 1) % 8 := by omega
  unfold Geometry.nextSpot
  rw [stepToEntry_start, if_neg later, stands.link, eighth, number]
  split
  · rename_i first
    split
    · exact comes_none (.refl s)
    · cases s.geo.blockStart p.link with
      | none => exact comes_none (.refl s)
      | some a =>
        refine comes_some (load_reads _ _ _ _ _) ?_
        apply load_stands
        · rfl
        · rw [if_pos first, exceeds]
          rfl
        · rw [exceeds]
          rfl
  · rename_i more
    refine comes_some (load_reads _ _ _ _ _) ?_
    rw [stands.pos]
    apply load_stands
    · rfl
    · rw [if_neg more, stands.link]
    · rw [exceeds]

theorem Comes.of_reads {t : D64} {k : Nat} {spot : Option Place} {r : Bool × D64} (reads : Reads s t)
    (comes : Comes t k spot r) : Comes s k spot r := ⟨comes.1, reads.trans comes.2.1, comes.2.2⟩

theorem Stands.default {k : Nat} {p : Place} (stands : s.Stands k p) : s.defaultDirectory.Stands k p := by
  obtain ⟨container, link, entry, index⟩ := default_rest s
  refine ⟨index.trans stands.index, ?_, link.trans stands.link, entry.trans stands.entry⟩
  rw [container]
  exact stands.pos

/-- One access of the search comes to the next spot, or to the end. -/
theorem seekEntryAt_spot {k : Nat} (faces : s.Faces e k) :
    Comes s k (s.spot e k) (s.seekEntryAt ((k + 1) % 65536)) := by
  by_cases start : k % 65536 = 0
  · rw [faces.root start, show (k + 1) % 65536 = 1 by omega]
    exact seekEntryAt_rootSpot start
  · obtain ⟨j, rfl⟩ : ∃ j, k = j + 1 := ⟨k - 1, by omega⟩
    obtain ⟨p, here, stands⟩ := faces
    have looks := (reads_default s).looks
    have spot : s.spot e (j + 1) =
        s.geo.nextSpot s.container.data s.container.size s.directory (j + 1) p := by
      show (s.spot e j).bind _ = _
      rw [here]
      rfl
    have step := stepToEntry_nextSpot (k := j % 65536 + 1) stands.default start (by omega)
    rw [looks.geo, looks.data, looks.size, directory_default] at step
    rw [spot, show (j + 1 + 1) % 65536 = (j % 65536 + 2) % 65536 by omega,
      seekEntryAt_on s stands.index (by omega)]
    exact .of_reads (reads_default s) step

theorem indexSucc_eq (k : Nat) : indexSucc ((k + 1) % 65536) = (k + 2) % 65536 := by
  unfold indexSucc
  split
  · omega
  · omega

/-- A search comes to an end exactly where it has come to a spot to stop at. -/
theorem searchEntries_stops (hit : List UInt8 → Bool) {fuel k : Nat} (faces : s.Faces e k) :
    (searchEntries hit fuel ((k + 1) % 65536) s).isSome = true ↔ ∃ j, k ≤ j ∧ j < k + fuel ∧ s.StopsAt hit e j := by
  induction fuel generalizing s k with
  | zero =>
    constructor
    · intro no
      cases no
    · rintro ⟨j, low, high, -⟩
      omega
  | succ fuel ih =>
    obtain ⟨found, reads, stands⟩ := seekEntryAt_spot faces
    rw [searchEntries, found]
    cases here : s.spot e k with
    | none =>
      -- the directory ends before spot `k`
      refine ⟨fun _ => ⟨k, Nat.le_refl k, by omega, fun p no => ?_⟩, fun _ => rfl⟩
      rw [here] at no
      cases no
    | some p =>
      have now := stands p here
      have entry : (s.seekEntryAt ((k + 1) % 65536)).2.entry = p.entry := now.entry
      rw [if_pos (show (some p).isSome = true from rfl), entry]
      cases looked : hit p.entry with
      | true =>
        refine ⟨fun _ => ⟨k, Nat.le_refl k, by omega, fun q same => ?_⟩, fun _ => rfl⟩
        cases here.symm.trans same
        exact looked
      | false =>
        have faces' : (s.seekEntryAt ((k + 1) % 65536)).2.Faces e (k + 1) :=
          ⟨p, (reads.spot k).trans here, now⟩
        have stop : ∀ j, (s.seekEntryAt ((k + 1) % 65536)).2.StopsAt hit e j ↔ s.StopsAt hit e j := by
          intro j
          unfold StopsAt
          rw [reads.spot]
        rw [if_neg (by decide), indexSucc_eq]
        refine (ih faces').trans ?_
        constructor
        · rintro ⟨j, low, high, stops⟩
          exact ⟨j, by omega, by omega, (stop j).mp stops⟩
        · rintro ⟨j, low, high, stops⟩
          have other : j ≠ k := by
            rintro rfl
            rw [stops p here] at looked
            cases looked
          exact ⟨j, by omega, by omega, (stop j).mpr stops⟩

/- The lookups with a bound of their own on the accesses they make. -/
def seekEntryWithin (fuel : Nat) (s : D64) (filename : Str) : Option (Bool × D64) :=
  if filename = [] then some (false, s.clearEntry)
  else
    (searchEntries (liveMatch filename) fuel 1 s).map fun r =>
      if r.1 then r else (false, r.2.clearEntry)

def seekScratchedEntryWithin (fuel : Nat) (s : D64) (filename : Str) : Option (Bool × D64) :=
  if filename = [] then some (false, s)
  else searchEntries (scratchedMatch filename) fuel 1 s

/-- The walk through the directory comes to a spot where the search stops. -/
def Halts (s : D64) (hit : List UInt8 → Bool) : Prop := ∃ k, s.StopsAt hit s.entry k

theorem searchEntries_halts (s : D64) (hit : List UInt8 → Bool) :
    (∃ fuel, (searchEntries hit fuel 1 s).isSome = true) ↔ s.Halts hit := by
  have runs : ∀ fuel, (searchEntries hit fuel 1 s).isSome = true ↔ ∃ j, 0 ≤ j ∧ j < 0 + fuel ∧ s.StopsAt hit s.entry j :=
    fun fuel => searchEntries_stops hit (k := 0) (show s.Faces s.entry 0 from rfl)
  constructor
  · rintro ⟨fuel, finished⟩
    obtain ⟨j, -, -, stops⟩ := (runs fuel).mp finished
    exact ⟨j, stops⟩
  · rintro ⟨j, stops⟩
    exact ⟨j + 1, (runs (j + 1)).mpr ⟨j, Nat.zero_le j, by omega, stops⟩⟩

/-- A lookup finishes exactly when the walk ends or comes to an entry that matches. -/
theorem lookup_finishes_iff (s : D64) (filename : Str) :
    ((∃ fuel, (s.seekEntryWithin fuel filename).isSome = true) ↔ filename = [] ∨ s.Halts (liveMatch filename)) ∧
      ((∃ fuel, (s.seekScratchedEntryWithin fuel filename).isSome = true) ↔
        filename = [] ∨ s.Halts (scratchedMatch filename)) := by
  by_cases empty : filename = []
  · constructor
    · exact ⟨fun _ => .inl empty, fun _ => ⟨0, by rw [seekEntryWithin, if_pos empty]; rfl⟩⟩
    · exact ⟨fun _ => .inl empty, fun _ => ⟨0, by rw [seekScratchedEntryWithin, if_pos empty]; rfl⟩⟩
  · constructor
    · simp only [seekEntryWithin, empty, if_false, Option.isSome_map, searchEntries_halts, false_or]
    · simp only [seekScratchedEntryWithin, empty, if_false, searchEntries_halts, false_or]

/- The first entry of the directory is in the container, if there is a directory at all. -/
def Begun (s : D64) : Prop :=
  ∀ a, s.geo.blockStart s.directory = some a → a + s.geo.directory_offset + 32 ≤ s.container.size

theorem rootSpot_same (begun : s.Begun) {e e' : List UInt8} (full : e.length = 32) (full' : e'.length = 32) :
    s.geo.rootSpot s.container.data s.container.size s.directory e =
      s.geo.rootSpot s.container.data s.container.size s.directory e' := by
  unfold Geometry.rootSpot
  cases start : s.geo.blockStart s.directory with
  | none => rfl
  | some a =>
    have fits := begun a start
    simp only [Option.map_some, Geometry.sectorSpot, Geometry.readOver_full _ _ full fits,
      Geometry.readOver_full _ _ full' fits]

theorem readOver_length (d : Nat → UInt8) (size : Nat) {e : List UInt8} (full : e.length = 32) (a : Nat) :
    (Geometry.readOver d size e a).length = 32 := by
  rw [Geometry.readOver, List.length_append, Store.length_read, List.length_drop, full]
  omega

theorem spot_length (full : e.length = 32) {k : Nat} {p : Place} (here : s.spot e k = some p) :
    p.entry.length = 32 := by
  induction k generalizing p with
  | zero =>
    obtain ⟨a, -, rfl⟩ := Option.map_eq_some_iff.mp here
    exact readOver_length _ _ full _
  | succ k ih =>
    obtain ⟨q, before, step⟩ := Option.bind_eq_some_iff.mp here
    have full' := ih before
    unfold Geometry.nextSpot at step
    split at step
    · obtain ⟨a, -, rfl⟩ := Option.map_eq_some_iff.mp step
      exact readOver_length _ _ full' _
    · split at step
      · split at step
        · cases step
        · obtain ⟨a, -, rfl⟩ := Option.map_eq_some_iff.mp step
          exact readOver_length _ _ full' _
      · cases step
        exact readOver_length _ _ full' _

/-- The second round is like the first. -/
theorem spot_again (begun : s.Begun) (full : e.length = 32) {p : Place} (last : s.spot e 65535 = some p) (k : Nat) :
    s.spot e (k + 65536) = s.spot e k := by
  induction k with
  | zero =>
    have step : s.spot e 65536 =
        (s.spot e 65535).bind (s.geo.nextSpot s.container.data s.container.size s.directory 65536) := rfl
    rw [Nat.zero_add, step, last]
    exact rootSpot_same begun (spot_length full last) full
  | succ k ih =>
    have round : s.geo.nextSpot s.container.data s.container.size s.directory (k + 65536 + 1) =
        s.geo.nextSpot s.container.data s.container.size s.directory (k + 1) := by
      funext q
      unfold Geometry.nextSpot
      rw [show (k + 65536 + 1) % 65536 = (k + 1) % 65536 by omega, show (k + 65536 + 1) % 8 = (k + 1) % 8 by omega]
    have step : ∀ j, s.spot e (j + 1) =
        (s.spot e j).bind (s.geo.nextSpot s.container.data s.container.size s.directory (j + 1)) := fun _ => rfl
    rw [show k + 1 + 65536 = k + 65536 + 1 by omega, step (k + 65536), step k, ih, round]

/-- What a search does not come to in one round it never comes to. -/
theorem stops_early (begun : s.Begun) (full : e.length = 32) {hit : List UInt8 → Bool} {k : Nat}
    (stops : s.StopsAt hit e k) : ∃ j < 65536, s.StopsAt hit e j := by
  induction k using Nat.strongRecOn with
  | _ k ih =>
    by_cases early : k < 65536
    · exact ⟨k, early, stops⟩
    · cases last : s.spot e 65535 with
      | none =>
        refine ⟨65535, by decide, fun p no => ?_⟩
        rw [last] at no
        cases no
      | some p =>
        have again := spot_again begun full last (k - 65536)
        rw [Nat.sub_add_cancel (Nat.le_of_not_lt early)] at again
        apply ih (k - 65536) (by omega)
        intro q here
        exact stops q (again.trans here)

/-- A lookup that has looked at 65537 entries without an end has none. -/
theorem seekEntry_adequate (begun : s.Begun) (full : s.entry.length = 32) (filename : Str) :
    (s.seekEntry filename).isSome = true ↔ ∃ fuel, (s.seekEntryWithin fuel filename).isSome = true := by
  constructor
  · exact fun finished => ⟨lookupFuel, finished⟩
  · intro finishes
    rcases (lookup_finishes_iff s filename).1.mp finishes with empty | ⟨k, stops⟩
    · rw [seekEntry, if_pos empty]
      rfl
    · obtain ⟨j, early, stops⟩ := stops_early begun full stops
      have found := (@searchEntries_stops s s.entry (liveMatch filename) lookupFuel 0 rfl).mpr ⟨j, Nat.zero_le j, by unfold lookupFuel; omega, stops⟩
      unfold seekEntry
      split
      · rfl
      · rw [Option.isSome_map]
        exact found

/- A D64 whose directory sector links to itself. -/
def looped : D64 := D64.new .d64 { data := Store.put (fun _ => 0) 91648 [18, 1], size := 174848 }

theorem looped_sector {e : List UInt8} (full : e.length = 32) :
    Geometry.sectorSpot looped.container.data looped.container.size e 91648 =
      ⟨91648 + 32, ⟨18, 1⟩, Store.read looped.container.data 91648 32⟩ := by
  have exceeds : Geometry.readOver looped.container.data looped.container.size e 91648 =
      Store.read looped.container.data 91648 32 := Geometry.readOver_full _ _ full (by decide)
  have link : linkOf (Store.read looped.container.data 91648 32) = ⟨18, 1⟩ := by decide
  unfold Geometry.sectorSpot
  rw [exceeds, link]
  rfl

/- The walk goes round in that sector. -/
theorem looped_spot {e : List UInt8} (full : e.length = 32) (k : Nat) :
    looped.spot e k = some ⟨91648 + 32 * (k % 8) + 32, ⟨18, 1⟩, Store.read looped.container.data (91648 + 32 * (k % 8)) 32⟩ := by
  have start : looped.geo.blockStart ⟨18, 1⟩ = some 91648 := by decide
  have directory : looped.directory = ⟨18, 1⟩ := by decide
  have root : ∀ e' : List UInt8, e'.length = 32 →
      looped.geo.rootSpot looped.container.data looped.container.size looped.directory e' =
        some ⟨91648 + 32, ⟨18, 1⟩, Store.read looped.container.data 91648 32⟩ := by
    intro e' full'
    unfold Geometry.rootSpot
    rw [directory, start]
    exact congrArg some (looped_sector full')
  induction k with
  | zero => exact root e full
  | succ k ih =>
    have next : looped.spot e (k + 1) = (looped.spot e k).bind
        (looped.geo.nextSpot looped.container.data looped.container.size looped.directory (k + 1)) := rfl
    have full' := Store.length_read looped.container.data (91648 + 32 * (k % 8)) 32
    rw [next, ih, Option.bind_some]
    unfold Geometry.nextSpot
    split
    · rw [root _ full', show (k + 1) % 8 = 0 by omega]
    · split
      · rename_i first
        rw [if_neg (show (18 : Nat) ≠ 0 by decide), start, Option.map_some, looped_sector full', first]
      · have after : 91648 + 32 * (k % 8) + 32 = 91648 + 32 * ((k + 1) % 8) := by omega
        have fits : 91648 + 32 * ((k + 1) % 8) + 32 ≤ looped.container.size := by
          show _ ≤ 174848
          omega
        have all : min 32 (looped.container.size - (91648 + 32 * ((k + 1) % 8))) = 32 := by omega
        dsimp only
        rw [after, Geometry.readOver_full _ _ full' fits, all]

/-- A lookup in a directory that links to itself never finishes. -/
theorem lookup_endless : ¬ ∃ fuel, (looped.seekEntryWithin fuel [0x61]).isSome = true := by
  intro finishes
  rcases (lookup_finishes_iff looped [0x61]).1.mp finishes with empty | ⟨k, stops⟩
  · cases empty
  · have hit := stops _ (looped_spot rfl k)
    have unused : fileType (Store.read looped.container.data (91648 + 32 * (k % 8)) 32) = 0 := by
      unfold fileType
      rw [Store.getD_read _ _ _ 2 0 (by decide)]
      refine Store.put_outside (fun _ => 0) 91648 [18, 1] _ (.inr ?_)
      show 91648 + 2 ≤ 91648 + 32 * (k % 8) + 2
      omega
    simp [liveMatch, unused] at hit

end D64

end Meatloaf.Disk
