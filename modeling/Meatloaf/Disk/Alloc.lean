import Meatloaf.Disk.Bam

/-! What the allocation operations of the stream do, in terms of free blocks. -/
namespace Meatloaf.Disk.D64

open Lib

section queries

variable (s : D64) (m : Mounted s)
include m

theorem readBAMRecord_inside (t : Nat) (ht : 1 ≤ t ∧ t ≤ s.geo.last_track) :
    ∃ s', s.readBAMRecord t = (some (s.geo.bamRecord t, s.geo.record s.container.data t), s') ∧
      Moved s s' := by
  have track := m.valid.track t ht.1 ht.2
  have fits : s.geo.addr (s.geo.recordBlock t) + (s.geo.bamRecord t).offset +
      (s.geo.bamRecord t).byte_count ≤ s.container.size := m.records t ht.1 ht.2
  have seek := seek_accepted s m.valid (s.geo.recordBlock t) track.inside (s.geo.bamRecord t).offset
  have read := read_inside s m.valid (s.geo.recordBlock t) track.inside (s.geo.bamRecord t).offset _ fits
  refine ⟨_, ?_, at_moved s (s.geo.addr (s.geo.recordBlock t) + (s.geo.bamRecord t).offset +
    (s.geo.bamRecord t).byte_count) (s.geo.recordBlock t).track (s.geo.recordBlock t).sector⟩
  unfold Geometry.recordBlock at seek read
  simp only [readBAMRecord, track.record, read, seek, if_true, Store.length_read]
  rfl

omit m in
theorem readBAMRecord_outside (v : s.geo.Valid) (t : Nat) (ht : t = 0 ∨ s.geo.last_track < t) :
    s.readBAMRecord t = (none, s) := by
  simp only [readBAMRecord, v.outside t ht]

theorem isBlockFree_eq (b : Block) :
    ∃ s', s.isBlockFree b = (s.geo.free s.container.data b, s') ∧ Moved s s' := by
  by_cases ht : 1 ≤ b.track ∧ b.track ≤ s.geo.last_track
  · obtain ⟨s', read, moved⟩ := readBAMRecord_inside s m b.track ht
    refine ⟨s', ?_, moved⟩
    simp only [isBlockFree, read]
    rfl
  · refine ⟨s, ?_, .refl s⟩
    have taken : s.geo.free s.container.data b = false := by
      by_contra free
      have represented := Geometry.Represented.of_free (Bool.eq_true_of_not_eq_false free)
      exact ht (represented.track m.valid)
    rw [taken]
    simp only [isBlockFree, readBAMRecord_outside s m.valid b.track (by omega)]

/- Allocated, free, or without a bit. -/
theorem queryBlockAllocation_eq (b : Block) :
    ∃ s', s.queryBlockAllocation b = (if D64.byteIndex (s.geo.bamRecord b.track) b.sector <
      (s.geo.bamRecord b.track).byte_count then some (!s.geo.free s.container.data b) else none, s') ∧
      Moved s s' := by
  by_cases ht : 1 ≤ b.track ∧ b.track ≤ s.geo.last_track
  · obtain ⟨s', read, moved⟩ := readBAMRecord_inside s m b.track ht
    refine ⟨s', ?_, moved⟩
    simp only [queryBlockAllocation, read, Geometry.free]
    split <;> simp_all
  · refine ⟨s, ?_, .refl s⟩
    have missing : ¬ byteIndex (s.geo.bamRecord b.track) b.sector <
        (s.geo.bamRecord b.track).byte_count :=
      fun represented => ht (Geometry.Represented.track m.valid represented)
    rw [if_neg missing]
    simp only [queryBlockAllocation, readBAMRecord_outside s m.valid b.track (by omega)]

theorem getTrackFreeCount_eq (ok : s.geo.BamOk s.container.data) (t : Nat)
    (ht : 1 ≤ t ∧ t ≤ s.geo.last_track) :
    ∃ s', s.getTrackFreeCount t = (s.geo.freeCount s.container.data t, s') ∧ Moved s s' := by
  obtain ⟨s', read, moved⟩ := readBAMRecord_inside s m t ht
  refine ⟨s', ?_, moved⟩
  have track := m.valid.track t ht.1 ht.2
  simp only [getTrackFreeCount, read]
  cases counted : (s.geo.bamRecord t).has_count with
  | true => rw [if_pos rfl, Geometry.record_head track.positive, ok.count t ht.1 ht.2 counted]
  | false =>
    rw [if_neg Bool.false_ne_true, Geometry.countBits_record track counted (ok.spare t)]

theorem findFreeSectorOnTrack_eq (t start : Nat) (ht : 1 ≤ t ∧ t ≤ s.geo.last_track) :
    ∃ s', s.findFreeSectorOnTrack t start =
      (((List.range (s.geo.getSectorCount t)).map fun i => (start + i) % s.geo.getSectorCount t).find?
        fun x => s.geo.free s.container.data ⟨t, x⟩, s') ∧ Moved s s' := by
  obtain ⟨s', read, moved⟩ := readBAMRecord_inside s m t ht
  refine ⟨s', ?_, moved⟩
  simp only [findFreeSectorOnTrack, read, moved.geo]
  rfl

end queries

section changes

variable (s : D64) (m : Mounted s) (b : Block)
include m

theorem base_allocate_used (used : s.geo.free s.container.data b = false) :
    ∃ s', s.setBlockAllocationBase b.track b.sector true = (false, s') ∧ Moved s s' := by
  by_cases ht : 1 ≤ b.track ∧ b.track ≤ s.geo.last_track
  · obtain ⟨s', read, moved⟩ := readBAMRecord_inside s m b.track ht
    refine ⟨s', ?_, moved⟩
    simp only [setBlockAllocationBase, read]
    split
    · rfl
    · rename_i inside
      have clear : recordBit (s.geo.bamRecord b.track) (s.geo.record s.container.data b.track) b.sector =
          false := by
        simpa [Geometry.free, Nat.lt_of_not_le inside] using used
      simp [clear]
  · refine ⟨s, ?_, .refl s⟩
    simp only [setBlockAllocationBase, readBAMRecord_outside s m.valid b.track (by omega)]

/- A change that is due comes down to one write, of the record to where it was
read from. -/
theorem base_writes (represented : s.geo.Represented b) (allocate : Bool)
    (due : s.geo.free s.container.data b = allocate) :
    ∃ s', Moved s s' ∧ (s.geo.bamRecord b.track).byte_count ≠ 0 ∧
      s'.geo.Inside (s.geo.recordBlock b.track) ∧
      s.setBlockAllocationBase b.track b.sector allocate =
        (let r := (s'.seekSector (s.geo.recordBlock b.track).track (s.geo.recordBlock b.track).sector
            (s.geo.bamRecord b.track).offset).2.writeContainer
          (if allocate then recordAllocate (s.geo.bamRecord b.track) (s.geo.record s.container.data b.track) b.sector
            else recordRelease (s.geo.bamRecord b.track) (s.geo.record s.container.data b.track) b.sector)
        (r.1 == (s.geo.bamRecord b.track).byte_count, r.2)) := by
  have ht := represented.track m.valid
  have track := m.valid.track b.track ht.1 ht.2
  have bit : recordBit (s.geo.bamRecord b.track) (s.geo.record s.container.data b.track) b.sector =
      allocate := by
    simpa [Geometry.free, show byteIndex _ _ < _ from represented] using due
  obtain ⟨s', read, moved⟩ := readBAMRecord_inside s m b.track ht
  have inside : s'.geo.Inside (s.geo.recordBlock b.track) := moved.geo ▸ track.inside
  have seek := seek_accepted s' (moved.mounted m).valid (s.geo.recordBlock b.track) inside
    (s.geo.bamRecord b.track).offset
  refine ⟨s', moved, Nat.ne_of_gt track.positive, inside, ?_⟩
  unfold Geometry.recordBlock at seek ⊢
  simp only [setBlockAllocationBase, read, if_neg (Nat.not_le_of_lt represented), bit, seek, if_true]
  cases allocate <;> rfl

theorem base_taken (represented : s.geo.Represented b) (allocate : Bool)
    (due : s.geo.free s.container.data b = allocate) (taken : s.container.fault ≠ some 0) :
    ∃ s', s.setBlockAllocationBase b.track b.sector allocate = (true, s') ∧
      Reaches s (s.geo.mark s.container.data b allocate) (s.container.fault.map (· - 1)) s' := by
  have ht := represented.track m.valid
  have length := Geometry.length_marked (g := s.geo) (d := s.container.data) b allocate
  obtain ⟨s₁, moved, _, inside, run⟩ := base_writes s m b represented allocate due
  obtain ⟨s₂, write, reach, _⟩ := write_inside s₁ (moved.mounted m).toGrowing _ inside
    (s.geo.bamRecord b.track).offset _ (by rw [length]; exact (m.valid.track _ ht.1 ht.2).offset)
    (moved.fault ▸ taken)
  refine ⟨s₂, ?_, ?_⟩
  · rw [run, write, length]
    simp
  · rw [moved.data, moved.fault, moved.geo] at reach
    exact moved.trans reach

theorem base_refused (represented : s.geo.Represented b) (allocate : Bool)
    (due : s.geo.free s.container.data b = allocate) (refused : s.container.fault = some 0) :
    ∃ s', s.setBlockAllocationBase b.track b.sector allocate = (false, s') ∧
      Reaches s s.container.data none s' := by
  obtain ⟨s₁, moved, positive, inside, run⟩ := base_writes s m b represented allocate due
  obtain ⟨s₂, write, reach⟩ := write_refused s₁ (moved.mounted m).valid _ inside
    (s.geo.bamRecord b.track).offset _ (moved.fault ▸ refused)
  refine ⟨s₂, ?_, ?_⟩
  · have short : ((0 : Nat) == (s.geo.bamRecord b.track).byte_count) = false := by
      simpa using Ne.symm positive
    rw [run, write]
    simp only [short]
  · rw [moved.data] at reach
    exact moved.trans reach

omit m in
theorem setBlockAllocation_plain (plain : s.geo.format ≠ .d71) (t x : Nat) (allocate : Bool) :
    s.setBlockAllocation t x allocate = s.setBlockAllocationBase t x allocate := by
  unfold setBlockAllocation
  split
  · contradiction
  · rfl

omit m in
theorem setBlockAllocation_side1 (low : b.track < SIDE2_FIRST_TRACK) (allocate : Bool) :
    s.setBlockAllocation b.track b.sector allocate =
      s.setBlockAllocationBase b.track b.sector allocate := by
  unfold setBlockAllocation
  split
  · cases h : s.setBlockAllocationBase b.track b.sector allocate with
    | mk r s' => cases r <;> simp [low]
  · rfl

/- A change off side 2 of a D71 is the base class's. -/
theorem setBlockAllocation_base (represented : s.geo.Represented b) (off : ¬ s.geo.Side2 b.track)
    (allocate : Bool) : s.setBlockAllocation b.track b.sector allocate =
      s.setBlockAllocationBase b.track b.sector allocate := by
  have ht := represented.track m.valid
  by_cases plain : s.geo.format = .d71
  · apply setBlockAllocation_side1
    by_contra high
    exact off ⟨plain, Nat.le_of_not_lt high, ht.2⟩
  · exact setBlockAllocation_plain s plain _ _ _

/- On side 2 of a D71 the count is written after the record. -/
theorem setBlockAllocation_side2 (side : s.geo.Side2 b.track) (allocate : Bool) (s₁ : D64)
    (run : s.setBlockAllocationBase b.track b.sector allocate = (true, s₁)) (same : s₁.geo = s.geo)
    (m₁ : Mounted s₁) :
    ∃ s', Moved s₁ s' ∧ s.setBlockAllocation b.track b.sector allocate =
      (let r := (s'.seekSector s.geo.headerBlock.track s.geo.headerBlock.sector
        (SIDE2_COUNT_OFFSET + (b.track - SIDE2_FIRST_TRACK))).2.writeContainer
          [UInt8.ofNat (countBits (s.geo.record s₁.container.data b.track))]
      (r.1 == 1, r.2)) := by
  have range : 1 ≤ b.track ∧ b.track ≤ s.geo.last_track := ⟨Nat.le_trans (by decide) side.2.1, side.2.2⟩
  have bare := ((m.valid.track _ range.1 range.2).side2 side).1
  obtain ⟨s', read, moved⟩ := readBAMRecord_inside s₁ m₁ b.track (by rw [same]; exact range)
  refine ⟨s', moved, ?_⟩
  have seek := seek_accepted s' (moved.mounted m₁).valid s.geo.headerBlock
    (by rw [moved.geo, same]; exact m.valid.header) (SIDE2_COUNT_OFFSET + (b.track - SIDE2_FIRST_TRACK))
  rw [same] at read
  have geo : s'.geo = s.geo := moved.geo.trans same
  unfold Geometry.headerBlock at seek ⊢
  simp only [setBlockAllocation, side.1, run, if_true, if_neg (Nat.not_lt_of_le side.2.1),
    getTrackFreeCount, read, bare, writeSide2FreeCount, m.valid.side2_offset side, geo, seek, Bool.false_eq_true,
    if_false]

theorem setBlockAllocation_taken (represented : s.geo.Represented b) (allocate : Bool)
    (due : s.geo.free s.container.data b = allocate)
    (taken : ∀ k < s.geo.bamWrites b.track, s.container.fault ≠ some k) :
    ∃ s', s.setBlockAllocation b.track b.sector allocate = (true, s') ∧
      Reaches s (s.geo.setFree s.container.data b allocate)
        (s.container.fault.map (· - s.geo.bamWrites b.track)) s' := by
  have first : s.container.fault ≠ some 0 := taken 0 (by unfold Geometry.bamWrites; split <;> decide)
  obtain ⟨s₁, run, reach⟩ := base_taken s m b represented allocate due first
  by_cases side : s.geo.Side2 b.track
  · have two : s.geo.bamWrites b.track = 2 := if_pos side
    rw [two] at taken ⊢
    have second : s.container.fault.map (· - 1) ≠ some 0 := by
      intro h
      obtain ⟨k, hk, low⟩ := Option.map_eq_some_iff.mp h
      exact taken k (by omega) hk
    obtain ⟨s₂, moved, run₂⟩ := setBlockAllocation_side2 s m b side allocate s₁ run reach.geo
      (reach.mounted m)
    have geo : s₂.geo = s.geo := moved.geo.trans reach.geo
    obtain ⟨s₃, write, reach₃, _⟩ := write_inside s₂ (moved.mounted (reach.mounted m)).toGrowing s.geo.headerBlock
      (geo ▸ m.valid.header) (SIDE2_COUNT_OFFSET + (b.track - SIDE2_FIRST_TRACK)) [UInt8.ofNat
        (countBits (s.geo.record s₁.container.data b.track))]
      (by
        have := m.valid.side2 side.1
        have := side.2.2
        unfold SIDE2_COUNT_OFFSET SIDE2_FIRST_TRACK
        simp only [List.length_singleton]
        omega)
      (by rw [moved.fault, reach.fault]; exact second)
    refine ⟨s₃, by rw [run₂, write]; rfl, ?_⟩
    rw [moved.fault, reach.fault, moved.data, reach.data, geo, Option.map_map] at reach₃
    have result : s.geo.setFree s.container.data b allocate =
        Store.put (s.geo.mark s.container.data b allocate)
          (s.geo.addr s.geo.headerBlock + (SIDE2_COUNT_OFFSET + (b.track - SIDE2_FIRST_TRACK)))
          [UInt8.ofNat (countBits (s.geo.record (s.geo.mark s.container.data b allocate) b.track))] :=
      if_pos side
    rw [result]
    exact reach.trans (moved.trans reach₃)
  · have one : s.geo.bamWrites b.track = 1 := if_neg side
    have result : s.geo.setFree s.container.data b allocate = s.geo.mark s.container.data b allocate :=
      if_neg side
    rw [one, result, setBlockAllocation_base s m b represented side]
    exact ⟨s₁, run, reach⟩

theorem allocateBlock_taken (free : s.geo.free s.container.data b = true)
    (taken : ∀ k < s.geo.bamWrites b.track, s.container.fault ≠ some k) :
    ∃ s', s.allocateBlock b = (true, s') ∧ Reaches s (s.geo.setFree s.container.data b true)
      (s.container.fault.map (· - s.geo.bamWrites b.track)) s' :=
  setBlockAllocation_taken s m b (Geometry.Represented.of_free free) true free taken

theorem allocateBlock_used (used : s.geo.free s.container.data b = false) :
    ∃ s', s.allocateBlock b = (false, s') ∧ Moved s s' := by
  obtain ⟨s', run, moved⟩ := base_allocate_used s m b used
  refine ⟨s', ?_, moved⟩
  unfold allocateBlock setBlockAllocation
  split
  · simp only [run, Bool.false_eq_true, if_false]
  · exact run

theorem allocateBlock_refused (free : s.geo.free s.container.data b = true)
    (refused : s.container.fault = some 0) :
    ∃ s', s.allocateBlock b = (false, s') ∧ Reaches s s.container.data none s' := by
  obtain ⟨s', run, reach⟩ := base_refused s m b (Geometry.Represented.of_free free) true free refused
  refine ⟨s', ?_, reach⟩
  unfold allocateBlock setBlockAllocation
  split
  · simp only [run, Bool.false_eq_true, if_false]
  · exact run

/-- The bitmap was written and the count was not: the block is gone although the
call failed. -/
theorem allocateBlock_unmirrored (free : s.geo.free s.container.data b = true)
    (side : s.geo.Side2 b.track) (refused : s.container.fault = some 1) :
    ∃ s', s.allocateBlock b = (false, s') ∧ Reaches s (s.geo.mark s.container.data b true) none s' := by
  obtain ⟨s₁, run, reach⟩ := base_taken s m b (Geometry.Represented.of_free free) true free
    (by rw [refused]; decide)
  obtain ⟨s₂, moved, run₂⟩ := setBlockAllocation_side2 s m b side true s₁ run reach.geo (reach.mounted m)
  have geo : s₂.geo = s.geo := moved.geo.trans reach.geo
  obtain ⟨s₃, write, reach₃⟩ := write_refused s₂ (moved.mounted (reach.mounted m)).valid s.geo.headerBlock
    (geo ▸ m.valid.header) (SIDE2_COUNT_OFFSET + (b.track - SIDE2_FIRST_TRACK)) [UInt8.ofNat
      (countBits (s.geo.record s₁.container.data b.track))]
    (by rw [moved.fault, reach.fault, refused]; rfl)
  refine ⟨s₃, ?_, ?_⟩
  · unfold allocateBlock
    rw [run₂, write]
    rfl
  · rw [moved.data, reach.data] at reach₃
    exact reach.trans (moved.trans reach₃)

theorem deallocateBlock_used (represented : s.geo.Represented b)
    (used : s.geo.free s.container.data b = false) (steady : s.container.fault = none) :
    ∃ s', s.deallocateBlock b = (true, s') ∧
      Reaches s (s.geo.setFree s.container.data b false) none s' := by
  obtain ⟨s', run, reach⟩ := setBlockAllocation_taken s m b represented false used
    (by intro k _; rw [steady]; simp)
  rw [steady] at reach
  exact ⟨s', run, reach⟩

end changes

end Meatloaf.Disk.D64
