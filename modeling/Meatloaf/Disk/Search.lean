import Meatloaf.Disk.Alloc

/-! The search for a free block, as a function of the BAM: where it may look, and
that it finds a block whenever there is one there. -/
namespace Meatloaf.Disk

open Lib

namespace Geometry

variable (g : Geometry) (d : Nat → UInt8)

/- Sectors of a track from `start` on, wrapping around. -/
def rotated (n start : Nat) : List Nat := (List.range n).map fun i => (start + i) % n

def pickOn (t start : Nat) : Option Block :=
  ((rotated (g.getSectorCount t) start).find? fun x => g.free d ⟨t, x⟩).map (⟨t, ·⟩)

def sweep (ts : List Nat) : Option Block :=
  ts.findSome? fun t =>
    if g.format.dedicated_directory_track ∧ t = g.directory_track then none else g.pickOn d t 0

def pickFirst : Option Block :=
  (if g.format.dedicated_directory_track then none else g.pickOn d g.directory_track 0).or
    (g.sweep d (D64.outward g.first_track g.directory_track g.last_track))

/- Tracks tried once the track of the last block is full. -/
def nextTracks (t : Nat) : List Nat :=
  (if t < g.directory_track then D64.downTo (t - 1) g.first_track
    else D64.upTo (t + 1) g.last_track) ++
  (if t < g.directory_track then D64.upTo (g.directory_track + 1) g.last_track
    else D64.downTo (g.directory_track - 1) g.first_track) ++
  D64.upTo g.first_track g.last_track

def pickNext (t x : Nat) : Option Block :=
  (g.pickOn d t ((x + g.format.interleave.2) % g.getSectorCount t)).or (g.sweep d (g.nextTracks t))

/-- The block `findFreeBlock` settles on for a file. -/
def pickData (t x : Nat) : Option Block := if t = 0 then g.pickFirst d else g.pickNext d t x

/-- The block `findFreeBlock` settles on for the directory. -/
def pickDirectory (t x : Nat) : Option Block :=
  let u := if t ≠ 0 then t else g.directory_track
  (g.pickOn d u ((x + g.format.interleave.1) % g.getSectorCount u)).or
    (if g.format.dedicated_directory_track then none else g.pickData d t x)

/- Blocks a file may be given. -/
def Data (b : Block) : Prop :=
  g.Inside b ∧ ¬ (g.format.dedicated_directory_track = true ∧ b.track = g.directory_track)

variable {g d}

theorem rotated_bound {n start x : Nat} (h : x ∈ rotated n start) : x < n := by
  obtain ⟨i, hi, rfl⟩ := List.mem_map.mp h
  exact Nat.mod_lt _ (Nat.zero_lt_of_lt (List.mem_range.mp hi))

/- Every sector has its turn. -/
theorem mem_rotated {n start x : Nat} (h : x < n) : x ∈ rotated n start := by
  refine List.mem_map.mpr ⟨(x + (n - start % n)) % n, List.mem_range.mpr (Nat.mod_lt _ (by omega)), ?_⟩
  have low := Nat.mod_lt start (show 0 < n by omega)
  rw [Nat.add_mod_mod, ← Nat.mod_add_mod, show start % n + (x + (n - start % n)) = x + n by omega,
    Nat.add_mod_right, Nat.mod_eq_of_lt h]

theorem pickOn_some (v : g.Valid) {t start : Nat} {b : Block} (h : g.pickOn d t start = some b) :
    g.Inside b ∧ g.free d b = true ∧ b.track = t := by
  obtain ⟨x, found, rfl⟩ := Option.map_eq_some_iff.mp h
  have free := List.find?_some found
  have range := (Represented.of_free free).track v
  exact ⟨⟨range.1, range.2, rotated_bound (List.mem_of_find?_eq_some found)⟩, free, rfl⟩

theorem pickOn_none {t start : Nat} (h : g.pickOn d t start = none) {x : Nat}
    (hx : x < g.getSectorCount t) : g.free d ⟨t, x⟩ = false := by
  have none := List.find?_eq_none.mp (Option.map_eq_none_iff.mp h) x (mem_rotated hx)
  simpa using none

theorem sweep_some (v : g.Valid) {ts : List Nat} {b : Block} (h : g.sweep d ts = some b) :
    g.Data b ∧ g.free d b = true := by
  obtain ⟨t, _, found⟩ := List.exists_of_findSome?_eq_some h
  split at found
  · contradiction
  · rename_i off
    obtain ⟨inside, free, track⟩ := pickOn_some v found
    exact ⟨⟨inside, track ▸ off⟩, free⟩

theorem sweep_none {ts : List Nat} (h : g.sweep d ts = none) {b : Block} (data : g.Data b)
    (member : b.track ∈ ts) : g.free d b = false := by
  have here := List.findSome?_eq_none_iff.mp h b.track member
  rw [if_neg data.2] at here
  exact pickOn_none here data.1.2.2

theorem mem_upTo {a b t : Nat} : t ∈ D64.upTo a b ↔ a ≤ t ∧ t ≤ b := by
  unfold D64.upTo
  simp only [List.mem_map, List.mem_range]
  constructor
  · rintro ⟨i, hi, rfl⟩
    omega
  · rintro ⟨low, high⟩
    exact ⟨t - a, by omega, by omega⟩

/- Going outwards reaches every other track. -/
theorem mem_outward {first dir last t : Nat} (lo : first ≤ t) (hi : t ≤ last) (ne : t ≠ dir) :
    t ∈ D64.outward first dir last := by
  unfold D64.outward
  rw [List.mem_flatMap]
  rcases Nat.lt_or_gt_of_ne ne with lt | gt
  · refine ⟨dir - t, List.mem_map.mpr ⟨dir - t - 1, List.mem_range.mpr (by omega), by omega⟩, ?_⟩
    rw [if_pos (show first + (dir - t) ≤ dir by omega), show dir - (dir - t) = t by omega]
    simp
  · refine ⟨t - dir, List.mem_map.mpr ⟨t - dir - 1, List.mem_range.mpr (by omega), by omega⟩, ?_⟩
    rw [if_pos (show dir + (t - dir) ≤ last by omega), show dir + (t - dir) = t by omega]
    simp

theorem pickFirst_some (v : g.Valid) {b : Block} (h : g.pickFirst d = some b) :
    g.Data b ∧ g.free d b = true := by
  unfold pickFirst at h
  rcases Option.or_eq_some_iff.mp h with here | ⟨_, swept⟩
  · split at here
    · contradiction
    · rename_i shared
      obtain ⟨inside, free, _⟩ := pickOn_some v here
      exact ⟨⟨inside, fun h => shared h.1⟩, free⟩
  · exact sweep_some v swept

theorem pickFirst_none (v : g.Valid) (h : g.pickFirst d = none) {b : Block} (data : g.Data b) :
    g.free d b = false := by
  obtain ⟨here, swept⟩ := Option.or_eq_none_iff.mp h
  by_cases dir : b.track = g.directory_track
  · split at here
    · rename_i dedicated
      exact absurd ⟨dedicated, dir⟩ data.2
    · rw [← dir] at here
      exact pickOn_none here data.1.2.2
  · exact sweep_none swept data (mem_outward (by rw [v.first]; exact data.1.1) data.1.2.1 dir)

theorem pickNext_some (v : g.Valid) {t x : Nat} {b : Block}
    (start : ¬ (g.format.dedicated_directory_track = true ∧ t = g.directory_track))
    (h : g.pickNext d t x = some b) : g.Data b ∧ g.free d b = true := by
  unfold pickNext at h
  rcases Option.or_eq_some_iff.mp h with here | ⟨_, swept⟩
  · obtain ⟨inside, free, track⟩ := pickOn_some v here
    exact ⟨⟨inside, track ▸ start⟩, free⟩
  · exact sweep_some v swept

theorem pickNext_none (v : g.Valid) {t x : Nat} (h : g.pickNext d t x = none) {b : Block}
    (data : g.Data b) : g.free d b = false := by
  obtain ⟨_, swept⟩ := Option.or_eq_none_iff.mp h
  refine sweep_none swept data ?_
  exact List.mem_append_right _ (mem_upTo.mpr ⟨by rw [v.first]; exact data.1.1, data.1.2.1⟩)

/-- A block found for a file is free and may be used for files. -/
theorem pickData_some (v : g.Valid) {t x : Nat} {b : Block}
    (start : t ≠ 0 → ¬ (g.format.dedicated_directory_track = true ∧ t = g.directory_track))
    (h : g.pickData d t x = some b) : g.Data b ∧ g.free d b = true := by
  unfold pickData at h
  split at h
  · exact pickFirst_some v h
  · rename_i later
    exact pickNext_some v (start later) h

/-- The search for a file only gives up when no usable block is free. -/
theorem pickData_none (v : g.Valid) {t x : Nat} (h : g.pickData d t x = none) {b : Block}
    (data : g.Data b) : g.free d b = false := by
  unfold pickData at h
  split at h
  · exact pickFirst_none v h data
  · exact pickNext_none v h data

theorem pickDirectory_some (v : g.Valid) {t x : Nat} {b : Block}
    (h : g.pickDirectory d t x = some b) : g.Inside b ∧ g.free d b = true := by
  unfold pickDirectory at h
  rcases Option.or_eq_some_iff.mp h with here | ⟨_, rest⟩
  · exact ⟨(pickOn_some v here).1, (pickOn_some v here).2.1⟩
  · split at rest
    · contradiction
    · rename_i shared
      obtain ⟨data, free⟩ := pickData_some v (fun _ h => shared h.1) rest
      exact ⟨data.1, free⟩

theorem pickDirectory_none (v : g.Valid) {t x : Nat} (later : t ≠ 0) (h : g.pickDirectory d t x = none) :
    (∀ y < g.getSectorCount t, g.free d ⟨t, y⟩ = false) ∧
      (g.format.dedicated_directory_track = false → ∀ b, g.Inside b → g.free d b = false) := by
  unfold pickDirectory at h
  simp only [if_pos later] at h
  obtain ⟨here, rest⟩ := Option.or_eq_none_iff.mp h
  refine ⟨fun y hy => pickOn_none here hy, ?_⟩
  intro shared b inside
  rw [if_neg (by rw [shared]; exact Bool.false_ne_true)] at rest
  exact pickData_none v rest ⟨inside, fun h => Bool.false_ne_true (shared ▸ h.1)⟩

variable (g d)

/-- Every count that is kept is the number of bits that are set in the bitmap of its track. -/
def Counted : Prop :=
  ∀ t, 1 ≤ t → t ≤ g.last_track → (g.bamRecord t).has_count = true →
    (d (g.recordAddr t)).toNat = D64.countBits (g.bitmap d t)

/-- A count of zero means that nothing is free. -/
def CountsTell : Prop :=
  ∀ t, 1 ≤ t → t ≤ g.last_track → (g.bamRecord t).has_count = true → d (g.recordAddr t) = 0 →
    ∀ x, g.free d ⟨t, x⟩ = false

variable {g d}

/- No bit of a row is set when none is counted. -/
theorem countBits_zero {row : List UInt8} (none : D64.countBits row = 0) (i : Nat) : Bitmap.test row i = false := by
  have count : Bitmap.count row = 0 := none
  by_cases inside : i < 8 * row.length
  · rw [Bitmap.count_eq_countP, List.countP_eq_zero] at count
    exact Bool.eq_false_of_not_eq_true (count i (List.mem_range.mpr inside))
  · exact Bitmap.test_beyond row i (by omega)

theorem Counted.tell (counted : g.Counted d) : g.CountsTell d := by
  intro t low high kept zero x
  have none : D64.countBits (g.bitmap d t) = 0 := by
    rw [← counted t low high kept, zero]
    rfl
  have bit := countBits_zero none x
  rw [bitmap, Bitmap.test_drop, if_pos kept] at bit
  rw [free_eq_test, bitIndex, if_pos kept]
  exact bit

theorem BamOk.tell (ok : g.BamOk d) : g.CountsTell d := by
  intro t low high kept zero x
  have none : g.freeCount d t = 0 := by
    rw [← ok.count t low high kept, zero]
    rfl
  by_cases inside : x < g.getSectorCount t
  · exact Bool.eq_false_of_not_eq_true (List.countP_eq_zero.mp none x (List.mem_range.mpr inside))
  · exact ok.spare t x (Nat.le_of_not_lt inside)

end Geometry

namespace D64

variable (s : D64) (m : Mounted s)
include m

theorem findFreeSectorOnTrack_pick (t start : Nat) :
    ∃ s', Moved s s' ∧ (s.findFreeSectorOnTrack t start).2 = s' ∧
      (s.findFreeSectorOnTrack t start).1.map (⟨t, ·⟩) = s.geo.pickOn s.container.data t start := by
  by_cases ht : 1 ≤ t ∧ t ≤ s.geo.last_track
  · obtain ⟨s', run, moved⟩ := findFreeSectorOnTrack_eq s m t start ht
    exact ⟨s', moved, by rw [run], by rw [run]; rfl⟩
  · refine ⟨s, .refl s, ?_, ?_⟩
    · simp only [findFreeSectorOnTrack, readBAMRecord_outside s m.valid t (by omega)]
    · have none : s.geo.pickOn s.container.data t start = none := by
        by_contra some
        obtain ⟨b, found⟩ := Option.ne_none_iff_exists'.mp some
        obtain ⟨inside, _, track⟩ := Geometry.pickOn_some m.valid found
        exact ht (track ▸ ⟨inside.1, inside.2.1⟩)
      rw [none]
      simp only [findFreeSectorOnTrack, readBAMRecord_outside s m.valid t (by omega), Option.map_none]

variable (tell : s.geo.CountsTell s.container.data)
include tell

theorem getTrackFreeCount_zero (t : Nat) :
    ∃ s', (s.getTrackFreeCount t).2 = s' ∧ Moved s s' ∧
      ((s.getTrackFreeCount t).1 = 0 → ∀ x, s.geo.free s.container.data ⟨t, x⟩ = false) := by
  by_cases ht : 1 ≤ t ∧ t ≤ s.geo.last_track
  · obtain ⟨s', read, moved⟩ := readBAMRecord_inside s m t ht
    have track := m.valid.track t ht.1 ht.2
    have run : s.getTrackFreeCount t = (if (s.geo.bamRecord t).has_count = true then
        ((s.geo.record s.container.data t).getD 0 0).toNat else countBits (s.geo.record s.container.data t), s') := by
      unfold getTrackFreeCount
      rw [read]
    rw [run]
    refine ⟨s', rfl, moved, ?_⟩
    intro zero
    dsimp only at zero
    split at zero
    · rename_i kept
      rw [Geometry.record_head track.positive] at zero
      exact tell t ht.1 ht.2 kept (UInt8.toNat_inj.mp zero)
    · intro x
      rw [Geometry.free_eq_test]
      exact Geometry.countBits_zero zero _
  · refine ⟨s, ?_, .refl s, ?_⟩
    · simp only [getTrackFreeCount, readBAMRecord_outside s m.valid t (by omega)]
    · intro _ x
      by_contra free
      have represented := Geometry.Represented.of_free (Bool.eq_true_of_not_eq_false free)
      exact ht (represented.track m.valid)

/- A track with nothing free has a count of zero. -/
theorem tryTrack_pick (t : Nat) :
    ∃ s', s.tryTrack t = (s.geo.pickOn s.container.data t 0, s') ∧ Moved s s' := by
  obtain ⟨s₁, run, moved, nothing⟩ := getTrackFreeCount_zero s m tell t
  have empty : (s.getTrackFreeCount t).1 = 0 → s.geo.pickOn s.container.data t 0 = none := by
    intro zero
    by_contra some
    obtain ⟨b, found⟩ := Option.ne_none_iff_exists'.mp some
    obtain ⟨-, free, rfl⟩ := Geometry.pickOn_some m.valid found
    rw [nothing zero b.sector] at free
    cases free
  by_cases zero : (s.getTrackFreeCount t).1 = 0
  · refine ⟨s₁, ?_, moved⟩
    simp only [tryTrack, zero, run, empty zero, ne_eq, not_true, if_false]
  · obtain ⟨s₂, moved₂, run₂, found⟩ := findFreeSectorOnTrack_pick s₁ (moved.mounted m) t 0
    refine ⟨s₂, ?_, moved.trans (moved.data ▸ moved.fault ▸ moved₂)⟩
    simp only [tryTrack, run, if_pos zero, found, run₂, moved.geo, moved.data]

omit m tell in
theorem Moved.step {s s' s'' : D64} (h : Moved s s') (h' : Moved s' s'') : Moved s s'' := by
  unfold Moved at h'
  rw [h.data, h.fault] at h'
  exact h.trans h'

theorem sweepTracks_pick (ts : List Nat) :
    ∃ s', s.sweepTracks ts = (s.geo.sweep s.container.data ts, s') ∧ Moved s s' := by
  induction ts generalizing s with
  | nil => exact ⟨s, rfl, .refl s⟩
  | cons t ts ih =>
    by_cases skip : s.geo.format.dedicated_directory_track = true ∧ t = s.geo.directory_track
    · obtain ⟨s', run, moved⟩ := ih s m tell
      refine ⟨s', ?_, moved⟩
      simp only [sweepTracks, if_pos skip, run, Geometry.sweep, List.findSome?_cons]
    · obtain ⟨s₁, run, moved⟩ := tryTrack_pick s m tell t
      cases found : s.geo.pickOn s.container.data t 0 with
      | some b =>
        refine ⟨s₁, ?_, moved⟩
        simp only [sweepTracks, if_neg skip, run, found, Geometry.sweep, List.findSome?_cons]
      | none =>
        obtain ⟨s₂, run₂, moved₂⟩ := ih s₁ (moved.mounted m) (by rw [moved.geo, moved.data]; exact tell)
        refine ⟨s₂, ?_, moved.step moved₂⟩
        simp only [sweepTracks, if_neg skip, run, found, run₂, moved.geo, moved.data, Geometry.sweep,
          List.findSome?_cons]

theorem searchFirstBlock_pick :
    ∃ s', s.searchFirstBlock = (s.geo.pickFirst s.container.data, s') ∧ Moved s s' := by
  by_cases dedicated : s.geo.format.dedicated_directory_track = true
  · obtain ⟨s', run, moved⟩ := sweepTracks_pick s m tell
      (outward s.geo.first_track s.geo.directory_track s.geo.last_track)
    refine ⟨s', ?_, moved⟩
    simp only [searchFirstBlock, Geometry.pickFirst, if_pos dedicated, run, Option.none_or]
  · obtain ⟨s₁, run, moved⟩ := tryTrack_pick s m tell s.geo.directory_track
    cases found : s.geo.pickOn s.container.data s.geo.directory_track 0 with
    | some b =>
      refine ⟨s₁, ?_, moved⟩
      simp only [searchFirstBlock, Geometry.pickFirst, if_neg dedicated, run, found, Option.some_or]
    | none =>
      obtain ⟨s₂, run₂, moved₂⟩ := sweepTracks_pick s₁ (moved.mounted m)
        (by rw [moved.geo, moved.data]; exact tell)
        (outward s.geo.first_track s.geo.directory_track s.geo.last_track)
      refine ⟨s₂, ?_, moved.step moved₂⟩
      simp only [searchFirstBlock, Geometry.pickFirst, if_neg dedicated, run, found, run₂, moved.geo,
        moved.data, Option.none_or]

theorem searchNextBlock_pick (t x : Nat) :
    ∃ s', s.searchNextBlock t x = (s.geo.pickNext s.container.data t x, s') ∧ Moved s s' := by
  obtain ⟨s₁, moved, run, found⟩ := findFreeSectorOnTrack_pick s m t
    ((x + s.geo.format.interleave.2) % s.geo.getSectorCount t)
  unfold Geometry.pickNext
  rw [← found]
  cases result : s.findFreeSectorOnTrack t ((x + s.geo.format.interleave.2) % s.geo.getSectorCount t) with
  | mk r s₂ =>
    rw [result] at run
    subst run
    cases r with
    | some y =>
      refine ⟨s₂, ?_, moved⟩
      simp only [searchNextBlock, result, Option.map_some, Option.some_or]
    | none =>
      obtain ⟨s₃, run₃, moved₃⟩ := sweepTracks_pick s₂ (moved.mounted m)
        (by rw [moved.geo, moved.data]; exact tell) (s.geo.nextTracks t)
      refine ⟨s₃, ?_, moved.step moved₃⟩
      rw [moved.geo, moved.data] at run₃
      simp only [searchNextBlock, result, Option.map_none, Option.none_or]
      exact run₃

theorem findFreeBlock_data (t x : Nat) :
    ∃ s', s.findFreeBlock t x false = (s.geo.pickData s.container.data t x, s') ∧ Moved s s' := by
  unfold findFreeBlock Geometry.pickData
  simp only [Bool.false_eq_true, if_false]
  split
  · exact searchFirstBlock_pick s m tell
  · exact searchNextBlock_pick s m tell t x

theorem findFreeBlock_directory (t x : Nat) :
    ∃ s', s.findFreeBlock t x true = (s.geo.pickDirectory s.container.data t x, s') ∧ Moved s s' := by
  let u := if t ≠ 0 then t else s.geo.directory_track
  obtain ⟨s₁, moved, run, found⟩ := findFreeSectorOnTrack_pick s m u
    ((x + s.geo.format.interleave.1) % s.geo.getSectorCount u)
  have searched : s.searchDirectoryTrack t x = (s.geo.pickOn s.container.data u
      ((x + s.geo.format.interleave.1) % s.geo.getSectorCount u), s₁) := by
    rw [← found, ← run]
    rfl
  unfold findFreeBlock Geometry.pickDirectory
  simp only [if_true, searched]
  cases here : s.geo.pickOn s.container.data u ((x + s.geo.format.interleave.1) % s.geo.getSectorCount u) with
  | some b => exact ⟨s₁, rfl, moved⟩
  | none =>
    obtain ⟨s₂, run₂, moved₂⟩ := findFreeBlock_data s₁ (moved.mounted m)
      (by rw [moved.geo, moved.data]; exact tell) t x
    simp only [findFreeBlock, Bool.false_eq_true, if_false, moved.geo, moved.data] at run₂
    simp only [moved.geo, run₂]
    split
    · exact ⟨s₁, rfl, moved⟩
    · exact ⟨s₂, rfl, moved.step moved₂⟩

omit m tell in
theorem sweepTracks_append (ts us : List Nat) :
    s.sweepTracks (ts ++ us) =
      match s.sweepTracks ts with
      | (some b, s') => (some b, s')
      | (none, s') => s'.sweepTracks us := by
  induction ts generalizing s with
  | nil => rfl
  | cons t ts ih =>
    rw [List.cons_append, sweepTracks, sweepTracks]
    split
    · exact ih s
    · cases s.tryTrack t with
      | mk found s' =>
        cases found with
        | some b => rfl
        | none => exact ih s'

/- The tracks of the round with distance `n`. -/
def ring (first dir last n : Nat) : List Nat :=
  (if first + n ≤ dir then [dir - n] else []) ++ (if dir + n ≤ last then [dir + n] else [])

/- The loop over the distance, which leaves where neither track is on the medium. -/
def outwardLoop (s : D64) : Nat → Nat → Option (Option Block × D64)
  | 0, _ => none
  | fuel + 1, n =>
    let tracks := ring s.geo.first_track s.geo.directory_track s.geo.last_track n
    if tracks = [] then some (none, s)
    else
      match s.sweepTracks tracks with
      | (some b, s') => some (some b, s')
      | (none, s') => s'.outwardLoop fuel (n + 1)

omit s m tell in
theorem ring_gone {first dir last n k : Nat} (gone : ring first dir last n = []) (later : n ≤ k) :
    ring first dir last k = [] := by
  unfold ring at gone ⊢
  obtain ⟨below, above⟩ := List.append_eq_nil_iff.mp gone
  have low : ¬ first + k ≤ dir := by
    intro here
    rw [if_pos (by omega)] at below
    cases below
  have high : ¬ dir + k ≤ last := by
    intro here
    rw [if_pos (by omega)] at above
    cases above
  rw [if_neg low, if_neg high, List.append_nil]

omit s m tell in
/- The tracks of the rounds from `n` on. -/
def rings (first dir last n k : Nat) : List Nat := (List.range k).flatMap fun i => ring first dir last (n + i)

omit s m tell in
theorem rings_succ (first dir last n k : Nat) :
    rings first dir last n (k + 1) = ring first dir last n ++ rings first dir last (n + 1) k := by
  unfold rings
  rw [List.range_succ_eq_map, List.flatMap_cons, List.flatMap_map]
  congr 1
  apply List.flatMap_congr
  intro i _
  rw [Nat.add_assoc, Nat.add_comm 1 i]

omit s m tell in
theorem rings_gone {first dir last n : Nat} (gone : ring first dir last n = []) (k : Nat) :
    rings first dir last n k = [] := by
  apply List.flatMap_eq_nil_iff.mpr
  intro i _
  exact ring_gone gone (Nat.le_add_right n i)

omit s m tell in
theorem outward_rings (first dir last : Nat) : outward first dir last = rings first dir last 1 (max dir last) := by
  unfold outward rings
  rw [List.flatMap_map]
  apply List.flatMap_congr
  intro i _
  rw [Nat.add_comm i 1]
  rfl

/-- The loop comes to an end, and its rounds are a sweep over the tracks in their order. -/
theorem outwardLoop_rings (k n : Nat)
    (enough : ring s.geo.first_track s.geo.directory_track s.geo.last_track (n + k) = []) :
    s.outwardLoop (k + 1) n =
      some (s.sweepTracks (rings s.geo.first_track s.geo.directory_track s.geo.last_track n k)) := by
  induction k generalizing s n with
  | zero =>
    rw [Nat.add_zero] at enough
    rw [outwardLoop, if_pos enough]
    rfl
  | succ k ih =>
    rw [outwardLoop]
    split
    · rename_i gone
      rw [rings_gone gone]
      rfl
    · obtain ⟨s', run, moved⟩ := sweepTracks_pick s m tell
        (ring s.geo.first_track s.geo.directory_track s.geo.last_track n)
      rw [rings_succ, sweepTracks_append, run]
      cases s.geo.sweep s.container.data (ring s.geo.first_track s.geo.directory_track s.geo.last_track n) with
      | some b => rfl
      | none =>
        have more := ih s' (moved.mounted m) (by rw [moved.geo, moved.data]; exact tell) (n + 1)
          (by rw [moved.geo, show n + 1 + k = n + (k + 1) by omega]; exact enough)
        rw [moved.geo] at more
        exact more

theorem outwardLoop_ends : s.outwardLoop (max s.geo.directory_track s.geo.last_track + 1) 1 =
    some (s.sweepTracks (outward s.geo.first_track s.geo.directory_track s.geo.last_track)) := by
  rw [outward_rings]
  apply outwardLoop_rings s m tell
  unfold ring
  rw [if_neg (by omega), if_neg (by omega)]
  rfl

end D64

namespace Geometry

variable (g : Geometry) (d : Nat → UInt8)

/-- A block is found exactly where one of them is free, and the one found is such a block. -/
def Finds (found : Option Block) (eligible : Block → Prop) : Prop :=
  (found.isSome = true ↔ ∃ b, eligible b ∧ g.free d b = true) ∧
    ∀ b, found = some b → eligible b ∧ g.free d b = true

variable {g d}

theorem finds_of {found : Option Block} {eligible : Block → Prop}
    (some : ∀ b, found = some b → eligible b ∧ g.free d b = true)
    (none : found = none → ∀ b, eligible b → g.free d b = false) : g.Finds d found eligible := by
  refine ⟨⟨fun is => ?_, ?_⟩, some⟩
  · obtain ⟨b, found⟩ := Option.isSome_iff_exists.mp is
    exact ⟨b, some b found⟩
  · rintro ⟨b, usable, free⟩
    cases found with
    | some b => rfl
    | none =>
      rw [none rfl b usable] at free
      cases free

end Geometry

namespace D64

/-- The search for a file finds a block wherever a file may have one, and the search for the directory
one on the track it is given, or on the directory track where it is given none. -/
theorem findFreeBlock_finds (s : D64) (w : Whole s) (counted : s.geo.Counted s.container.data) (t x : Nat) :
    (t = 0 ∨ (1 ≤ t ∧ t ≤ s.geo.last_track ∧
        ¬ (s.geo.format.dedicated_directory_track = true ∧ t = s.geo.directory_track)) →
      s.geo.Finds s.container.data (s.findFreeBlock t x false).1 s.geo.Data) ∧
    (s.geo.format.dedicated_directory_track = true →
      s.geo.Finds s.container.data (s.findFreeBlock t x true).1 fun b =>
        s.geo.Inside b ∧ b.track = if t = 0 then s.geo.directory_track else t) := by
  have v := w.valid
  have m := w.mounted
  constructor
  · intro start
    obtain ⟨s', run, -⟩ := findFreeBlock_data s m counted.tell t x
    have usable : t ≠ 0 → ¬ (s.geo.format.dedicated_directory_track = true ∧ t = s.geo.directory_track) := by
      intro later
      rcases start with zero | ⟨-, -, off⟩
      · exact absurd zero later
      · exact off
    rw [run]
    exact Geometry.finds_of (fun b found => Geometry.pickData_some v usable found)
      fun none b data => Geometry.pickData_none v none data
  · intro dedicated
    obtain ⟨s', run, -⟩ := findFreeBlock_directory s m counted.tell t x
    have same : (if t ≠ 0 then t else s.geo.directory_track) = if t = 0 then s.geo.directory_track else t := by
      exact ite_not _ _ _
    have only : s.geo.pickDirectory s.container.data t x =
        s.geo.pickOn s.container.data (if t = 0 then s.geo.directory_track else t)
          ((x + s.geo.format.interleave.1) %
            s.geo.getSectorCount (if t = 0 then s.geo.directory_track else t)) := by
      unfold Geometry.pickDirectory
      rw [if_pos dedicated, Option.or_none, same]
    rw [run, only]
    apply Geometry.finds_of
    · intro b found
      obtain ⟨inside, free, track⟩ := Geometry.pickOn_some v found
      exact ⟨⟨inside, track⟩, free⟩
    · rintro none b ⟨inside, track⟩
      have below := inside.2.2
      rw [track] at below
      have taken := Geometry.pickOn_none none below
      rw [← track] at taken
      exact taken

/- A D64 on which only 5/0 is free. -/
def oneFree : D64 := D64.new .d64 { data := Store.put (fun _ => 0) 91412 [1, 1], size := 174848 }

theorem oneFree_whole : Whole oneFree where
  valid := Format.geometry_valid .d64 174848 (0, 0) (fun no => nomatch no)
  size := by decide

theorem oneFree_counted : oneFree.geo.Counted oneFree.container.data := by
  intro t low high _
  have last : oneFree.geo.last_track = 35 := rfl
  have all : ∀ t ∈ upTo 1 35, (oneFree.container.data (oneFree.geo.recordAddr t)).toNat =
      countBits (oneFree.geo.bitmap oneFree.container.data t) := by decide +kernel
  exact all t (Geometry.mem_upTo.mpr ⟨low, last ▸ high⟩)

/-- With a track to start from the search for the directory does not look at the directory track. -/
theorem findFreeBlock_elsewhere : ∃ s : D64, Whole s ∧ s.geo.Counted s.container.data ∧
    s.geo.format.dedicated_directory_track = true ∧ 1 ≤ 5 ∧ 5 ≤ s.geo.last_track ∧ 5 ≠ s.geo.directory_track ∧
      ¬ s.geo.Finds s.container.data (s.findFreeBlock 5 0 true).1 fun b =>
        s.geo.Inside b ∧ b.track = s.geo.directory_track := by
  refine ⟨oneFree, oneFree_whole, oneFree_counted, rfl, by decide, by decide, by decide, ?_⟩
  rintro ⟨-, right⟩
  have found : (oneFree.findFreeBlock 5 0 true).1 = some ⟨5, 0⟩ := by decide
  obtain ⟨⟨-, track⟩, -⟩ := right _ found
  exact absurd track (by decide +kernel)

theorem findFreeBlock_finds_sample :
    oneFree.geo.Finds oneFree.container.data (oneFree.findFreeBlock 0 0 false).1 oneFree.geo.Data ∧
      oneFree.geo.Finds oneFree.container.data (oneFree.findFreeBlock 18 0 true).1 fun b =>
        oneFree.geo.Inside b ∧ b.track = 18 :=
  ⟨(findFreeBlock_finds oneFree oneFree_whole oneFree_counted 0 0).1 (.inl rfl),
    (findFreeBlock_finds oneFree oneFree_whole oneFree_counted 18 0).2 rfl⟩

end D64

end Meatloaf.Disk
