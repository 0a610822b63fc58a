import Meatloaf.Disk.Fresh

/-! The image `formatImage` lays down is structurally sound. -/
namespace Meatloaf.Disk

open Lib

namespace Geometry

variable (g : Geometry)

/- A block for the directory or for files. -/
def Plain (b : Block) : Prop :=
  g.Inside b ∧ b ≠ g.headerBlock ∧ (∀ bam ∈ g.block_allocation_map, b ≠ bam.block) ∧
    g.isReservedBlock b = false ∧ ¬ (g.format = .d71 ∧ b.track = 53)

instance (b : Block) : Decidable (g.Plain b) := by unfold Plain; infer_instance

/- Blocks that are set aside along with the BAM. -/
def setAside : List Block :=
  match g.format with
  | .d71 => (List.range (g.getSectorCount 53)).map fun x => ⟨53, x⟩
  | .dnp => (List.range 34).map fun x => ⟨g.header_track, x⟩
  | _ => []

def finalBlock : Block := ⟨g.last_track, g.getSectorCount g.last_track - 1⟩

/- What formatting asks of the tables. -/
structure Formattable : Prop where
  valid : g.Valid
  maps : ∀ bam ∈ g.block_allocation_map, g.MapValid bam
  cover : ∀ t, 1 ≤ t → t ≤ g.last_track →
    ∃ bam ∈ g.block_allocation_map, bam.start_track ≤ t ∧ t ≤ bam.end_track
  title : 3 ≤ g.header_offset ∧ g.header_offset + 23 ≤ D64.SIDE2_COUNT_OFFSET
  header : ∀ bam ∈ g.block_allocation_map, bam.block = g.headerBlock →
    3 ≤ bam.offset ∧ bam.offset + bam.used ≤ g.header_offset
  links : g.format = .d80 ∨ g.format = .d82 → ∀ bam ∈ g.block_allocation_map, 6 ≤ bam.offset
  side2 : g.format = .d71 → g.last_track = 70 ∧ (g.block_allocation_map.getLast?.map (·.track)).getD 0 = 53
  directory : g.Plain g.directoryStart
  last : g.Plain g.finalBlock ∧ g.finalBlock ≠ g.directoryStart

variable {g}

theorem Formattable.recordBlock (h : g.Formattable) {t : Nat} (ht : 1 ≤ t) (ht' : t ≤ g.last_track) :
    ∃ bam ∈ g.block_allocation_map, g.recordBlock t = bam.block ∧
      g.addr bam.block + bam.offset ≤ g.recordAddr t ∧
      g.recordAddr t + (g.bamRecord t).byte_count ≤ g.addr bam.block + bam.offset + bam.used := by
  obtain ⟨bam, member, lower, upper⟩ := h.cover t ht ht'
  obtain ⟨place, block, count⟩ := (h.maps bam member).record t lower upper
  refine ⟨bam, member, block, by omega, ?_⟩
  have last : (t - bam.start_track) * bam.byte_count + bam.byte_count ≤ bam.used := by
    unfold BlockAllocationMap.used
    rw [← Nat.succ_mul]
    exact Nat.mul_le_mul_right _ (by omega)
  omega

theorem Formattable.plain (h : g.Formattable) {b : Block} (plain : g.Plain b) : ¬ g.Reserved b := by
  obtain ⟨_, header, maps, reserved, side⟩ := plain
  rintro ((same | ⟨t, ht, ht', same⟩ | area) | aside)
  · exact header same
  · obtain ⟨bam, member, block, _⟩ := h.recordBlock ht ht'
    exact maps bam member (same.trans block)
  · rw [reserved] at area
    exact Bool.false_ne_true area
  · exact side aside

/- The link and the title in the header block are no part of the BAM. -/
theorem Formattable.header_apart (h : g.Formattable) {a : Nat} (area : g.BamArea a) :
    (a < g.addr g.headerBlock ∨ g.addr g.headerBlock + 3 ≤ a) ∧
    (a < g.addr g.headerBlock + g.header_offset ∨ g.addr g.headerBlock + g.header_offset + 23 ≤ a) := by
  have title := h.title
  unfold D64.SIDE2_COUNT_OFFSET at title
  rcases area with ⟨t, ht, ht', lo, hi⟩ | ⟨t, side, same⟩
  · obtain ⟨bam, member, block, first, last⟩ := h.recordBlock ht ht'
    have fits := (h.maps bam member).fits
    by_cases here : bam.block = g.headerBlock
    · have room := h.header bam member here
      rw [here] at first last
      omega
    · rcases (h.maps bam member).inside.apart h.valid.header here with before | after <;> omega
  · unfold side2Addr D64.SIDE2_COUNT_OFFSET at same
    omega

end Geometry

namespace D64

/-- The map with everything free but what the format sets aside. -/
theorem initializeBlockAllocationMap_done (s : D64) (m : Growing s) (steady : s.container.fault = none)
    (h : s.geo.Formattable) :
    ∃ s' d', s.initializeBlockAllocationMap = (true, s') ∧ Reaches s d' none s' ∧ Mounted s' ∧
      s.geo.BamOk d' ∧ ∀ b, s.geo.free d' b = (decide (s.geo.Inside b) && decide (b ∉ s.geo.setAside)) := by
  obtain ⟨s₁, d₁, maps, reach, records⟩ := initializeMaps_done s.geo.block_allocation_map s m steady h.maps
    (fun _ => False) (by intro t _ _ done; cases done)
  have fresh : ∀ t, 1 ≤ t → t ≤ s.geo.last_track → s.geo.Fresh d₁ t :=
    fun t ht ht' => (records t ht ht' (.inr (h.cover t ht ht'))).1
  have mounted : Mounted s₁ := by
    refine ⟨reach.growing m, ?_⟩
    rw [reach.geo]
    exact fun t ht ht' => (records t ht ht' (.inr (h.cover t ht ht'))).2
  have allFree : ∀ d, (∀ t, 1 ≤ t → t ≤ s.geo.last_track → s.geo.Fresh d t) → s.geo.BamOk d →
      ∀ b, s.geo.free d b = decide (s.geo.Inside b) := by
    intro d fresh ok b
    by_cases ht : 1 ≤ b.track ∧ b.track ≤ s.geo.last_track
    · rw [(fresh b.track ht.1 ht.2).free (h.valid.track _ ht.1 ht.2), decide_eq_decide]
      unfold Geometry.Inside
      omega
    · rw [decide_eq_false (fun inside : s.geo.Inside b => ht ⟨inside.1, inside.2.1⟩)]
      by_contra free
      exact ht ((Geometry.Represented.of_free (Bool.eq_true_of_not_eq_false free)).track h.valid)
  have plain : s.geo.format ≠ .d71 → s.geo.BamOk d₁ := fun other =>
    .fresh h.valid fresh fun t side => absurd side.1 other
  have geo : s₁.geo = s.geo := reach.geo
  -- the classes that leave the map as it is, but for its surroundings
  have bare : ∀ q d, Reaches s₁ d none q → s.geo.format ≠ .d71 → s.geo.setAside = [] →
      (∀ a, s.geo.BamArea a → d a = d₁ a) → Reaches s d none q ∧ Mounted q ∧ s.geo.BamOk d ∧
      ∀ b, s.geo.free d b = (decide (s.geo.Inside b) && decide (b ∉ s.geo.setAside)) := by
    intro q d reach' other nothing same
    refine ⟨reach.trans reach', reach'.mounted mounted, (plain other).agree h.valid same, fun b => ?_⟩
    rw [Geometry.free_agree h.valid same, allFree d₁ fresh (plain other), nothing]
    simp
  have reserved : ∀ q d (bs : List Block), Reaches s d none q → s.geo.BamOk d → Mounted q →
      (∀ b, s.geo.free d b = decide (s.geo.Inside b)) → ∃ s' d', runSteps (bs.map reserveBlock) q = (true, s') ∧
      Reaches s d' none s' ∧ Mounted s' ∧ s.geo.BamOk d' ∧
      ∀ b, s.geo.free d' b = (decide (s.geo.Inside b) && decide (b ∉ bs)) := by
    intro q d bs reach' ok mounted' free
    obtain ⟨s', d', run, reach'', allocated⟩ := reserve_all q mounted' reach'.fault bs
    rw [reach'.geo, reach'.data] at allocated
    refine ⟨s', d', run, reach'.trans reach'', reach''.mounted mounted', allocated.bam ok, fun b => ?_⟩
    rw [allocated.free, free]
  unfold initializeBlockAllocationMap
  simp only [maps, if_true]
  cases format : s.geo.format with
  | d64 =>
    obtain ⟨r, mo, ok, free⟩ := bare s₁ d₁ (by rw [← reach.data]; exact .still s₁ reach.fault)
      (by rw [format]; decide) (by rw [Geometry.setAside, format]) (fun _ _ => rfl)
    exact ⟨s₁, d₁, rfl, r, mo, ok, free⟩
  | d81 =>
    obtain ⟨r, mo, ok, free⟩ := bare s₁ d₁ (by rw [← reach.data]; exact .still s₁ reach.fault)
      (by rw [format]; decide) (by rw [Geometry.setAside, format]) (fun _ _ => rfl)
    exact ⟨s₁, d₁, rfl, r, mo, ok, free⟩
  | d80 =>
    have other : s.geo.format ≠ .d71 := by rw [format]; decide
    obtain ⟨s₂, d₂, run, reach₂, same⟩ := writeBamBlockHeaders_done s.geo.block_allocation_map s₁
      mounted.toGrowing reach.fault (by rw [geo]; exact other)
      (by rw [geo]; exact fun bam hb => ⟨h.maps bam hb, h.links (.inl format) bam hb⟩)
    rw [geo] at run same
    rw [reach.data] at same
    obtain ⟨r, mo, ok, free⟩ := bare s₂ d₂ reach₂ other (by rw [Geometry.setAside, format]) same
    exact ⟨s₂, d₂, run, r, mo, ok, free⟩
  | d82 =>
    have other : s.geo.format ≠ .d71 := by rw [format]; decide
    obtain ⟨s₂, d₂, run, reach₂, same⟩ := writeBamBlockHeaders_done s.geo.block_allocation_map s₁
      mounted.toGrowing reach.fault (by rw [geo]; exact other)
      (by rw [geo]; exact fun bam hb => ⟨h.maps bam hb, h.links (.inr format) bam hb⟩)
    rw [geo] at run same
    rw [reach.data] at same
    obtain ⟨r, mo, ok, free⟩ := bare s₂ d₂ reach₂ other (by rw [Geometry.setAside, format]) same
    exact ⟨s₂, d₂, run, r, mo, ok, free⟩
  | dnp =>
    have ok := plain (by rw [format]; decide)
    obtain ⟨s₂, d₂, run, r, mo, ok', free⟩ := reserved s₁ d₁ s.geo.setAside reach ok mounted
      (allFree d₁ fresh ok)
    refine ⟨s₂, d₂, ?_, r, mo, ok', free⟩
    rw [Geometry.setAside, format, List.map_map] at run
    exact run
  | d71 =>
    obtain ⟨top, track⟩ := h.side2 format
    have sides : ∀ t, s.geo.Side2 t ↔ t ∈ upTo SIDE2_FIRST_TRACK s.geo.last_track := by
      intro t
      rw [Geometry.mem_upTo]
      unfold Geometry.Side2
      simp [format]
    obtain ⟨s₂, d₂, counts, reach₂, fresh₂, side2⟩ := writeSide2Counts_done s₁ mounted reach.fault
      (upTo SIDE2_FIRST_TRACK s.geo.last_track) (by rw [geo]; exact fun t ht => (sides t).mpr ht)
      (by rw [geo, reach.data]; exact fresh) (fun _ => False) (by intro t _ done; cases done)
    rw [geo] at fresh₂ side2
    have ok : s.geo.BamOk d₂ := .fresh h.valid fresh₂ fun t side => side2 t side (.inr ((sides t).mp side))
    obtain ⟨s₃, d₃, run, r, mo, ok', free⟩ := reserved s₂ d₂ s.geo.setAside (reach.trans reach₂) ok
      (reach₂.mounted mounted) (allFree d₂ fresh₂ ok)
    refine ⟨s₃, d₃, ?_, r, mo, ok', free⟩
    rw [Geometry.setAside, format, List.map_map] at run
    simp only [counts, if_true, track]
    exact run

/- Name and id fit their fields. -/
def Labelled (name id : Str) : Prop := (toPETSCII2 name).length ≤ 16 ∧ (toPETSCII2 id).length ≤ 5

theorem length_headerBytes (name id : Str) : (headerBytes name id).length = 23 := Store.length_read _ _ _

theorem writeHeader_done (s : D64) (m : Growing s) (steady : s.container.fault = none)
    (h : s.geo.Formattable) (name id : Str) :
    ∃ s' d', s.writeHeader name id = (true, s') ∧ Reaches s d' none s' ∧
      ∀ a, s.geo.BamArea a → d' a = s.container.data a := by
  have length := length_headerBytes (toPETSCII2 name) (toPETSCII2 id)
  have title := h.title
  unfold SIDE2_COUNT_OFFSET at title
  obtain ⟨s', run, reach, _⟩ := write_inside s m s.geo.headerBlock m.valid.header s.geo.header_offset
    (headerBytes (toPETSCII2 name) (toPETSCII2 id)) (by omega) (by rw [steady]; simp)
  rw [steady] at reach
  refine ⟨s', _, ?_, reach, ?_⟩
  · unfold Geometry.headerBlock at run
    simp only [writeHeader, run, beq_self_eq_true]
  · intro a area
    have apart := (h.header_apart area).2
    exact Store.put_outside _ _ _ _ (by omega)

/- The writes of `initializeDirectory`, before the map is brought up to date. -/
theorem initializeDirectory_writes (s : D64) (m : Growing s) (steady : s.container.fault = none)
    (h : s.geo.Formattable) :
    ∃ s' d', s.initializeDirectory =
        runSteps (s.geo.block_allocation_map.map (fun bam => reserveBlock ⟨bam.track, bam.sector⟩) ++
          [reserveBlock ⟨s.geo.header_track, s.geo.header_sector⟩,
            fun q => q.setBlockAllocation s.geo.directory_track s.geo.directory_sector true]) s' ∧
      Reaches s d' none s' ∧ (∀ a, s.geo.BamArea a → d' a = s.container.data a) ∧
      d' (s.geo.addr s.geo.headerBlock) = UInt8.ofNat s.geo.directory_track ∧
      d' (s.geo.addr s.geo.headerBlock + 1) = UInt8.ofNat s.geo.directory_sector ∧
      Store.read d' (s.geo.addr s.geo.directoryStart) 256 = blankSector := by
  let link := [UInt8.ofNat s.geo.directory_track, UInt8.ofNat s.geo.directory_sector, s.geo.format.dos_version]
  have insideH := m.valid.header
  have insideD := h.directory.1
  have endD := insideD.addr_end
  have apart := insideH.apart insideD (Ne.symm h.directory.2.1)
  -- the link in the header
  obtain ⟨s₁, run₁, reach₁, _, _⟩ := writeBytes_inside s m steady s.geo.headerBlock insideH 0 link
    (by simp [link])
  have geo₁ := reach₁.geo
  -- the first two bytes of the directory block
  obtain ⟨s₂, run₂, reach₂, pos₂, _⟩ := writeBytes_inside s₁ (reach₁.growing m) reach₁.fault
    s.geo.directoryStart (by rw [geo₁]; exact insideD) 0 [0x00, 0xFF] (by decide)
  rw [geo₁] at reach₂ pos₂
  have geo₂ : s₂.geo = s.geo := reach₂.geo.trans geo₁
  -- and the rest of it
  obtain ⟨s₃, run₃, reach₃, _, _⟩ := write_here s₂ (reach₂.growing (reach₁.growing m))
    (List.replicate (block_size - 2) 0) (by
      rw [pos₂, geo₂, List.length_replicate, List.length_cons, List.length_singleton]
      unfold block_size
      omega) (by rw [reach₂.fault]; simp)
  rw [reach₂.data, reach₂.fault, reach₁.data, pos₂, Nat.add_zero, Nat.add_zero, Store.put_append] at reach₃
  have data : [0x00, 0xFF] ++ List.replicate (block_size - 2) 0 = blankSector := rfl
  rw [data] at reach₃
  refine ⟨s₃, _, ?_, reach₁.trans (reach₂.trans reach₃), ?_, ?_, ?_, ?_⟩
  · have seekH := seek_accepted s m.valid s.geo.headerBlock insideH 0
    have seekD := seek_accepted s₁ (reach₁.growing m).valid s.geo.directoryStart (by rw [geo₁]; exact insideD) 0
    unfold Geometry.headerBlock at seekH run₁
    unfold Geometry.directoryStart at seekD run₂
    simp only [initializeDirectory, seekH, if_true, run₁, link, m.valid.offset, seekD, run₂, run₃]
  · intro a area
    have off := (h.header_apart area).1
    have three : link.length = 3 := rfl
    rw [Store.put_outside _ _ _ _ ?_, Store.put_outside _ _ _ _ (by omega)]
    rw [length_blankSector]
    by_contra hit
    obtain ⟨i, hi, rfl⟩ : ∃ i < 256, a = s.geo.addr s.geo.directoryStart + i :=
      ⟨a - s.geo.addr s.geo.directoryStart, by omega, by omega⟩
    exact m.valid.bamArea_outside insideD (fun system => h.plain h.directory (.inl system)) hi area
  · have byte := Store.put_inside s.container.data (s.geo.addr s.geo.headerBlock) link 0 (by simp [link])
    rw [Store.put_outside _ _ _ _ (by rw [length_blankSector]; omega)]
    exact byte
  · have byte := Store.put_inside s.container.data (s.geo.addr s.geo.headerBlock) link 1 (by simp [link])
    rw [Store.put_outside _ _ _ _ (by rw [length_blankSector]; omega)]
    exact byte
  · rw [← length_blankSector]
    exact Store.read_put_same _ _ _

/- What `formatImage` leaves behind. -/
structure Formatted (g : Geometry) (d : Nat → UInt8) : Prop where
  bam : g.BamOk d
  free : ∀ b, g.free d b = (decide (g.Inside b) && decide (b ∉ g.setAside ++
    (g.block_allocation_map.map BlockAllocationMap.block ++ [g.headerBlock, g.directoryStart])))
  track : d (g.addr g.headerBlock) = UInt8.ofNat g.directory_track
  sector : d (g.addr g.headerBlock + 1) = UInt8.ofNat g.directory_sector
  directory : Store.read d (g.addr g.directoryStart) 256 = blankSector

theorem initializeDirectory_done (s : D64) (m : Mounted s) (steady : s.container.fault = none)
    (h : s.geo.Formattable) (ok : s.geo.BamOk s.container.data)
    (free : ∀ b, s.geo.free s.container.data b =
      (decide (s.geo.Inside b) && decide (b ∉ s.geo.setAside)))
    (room : s.geo.directoryStart ∉ s.geo.setAside) :
    ∃ s' d', s.initializeDirectory = (true, s') ∧ Reaches s d' none s' ∧ Formatted s.geo d' := by
  obtain ⟨s₁, d₁, run, reach, same, track, sector, directory⟩ := initializeDirectory_writes s m.toGrowing steady h
  have geo : s₁.geo = s.geo := reach.geo
  obtain ⟨s₂, d₂, reserve, reach₂, allocated⟩ := reserve_all s₁ (reach.mounted m) reach.fault
    (s.geo.block_allocation_map.map BlockAllocationMap.block ++ [s.geo.headerBlock])
  rw [geo, reach.data] at allocated
  have before : ∀ b, s.geo.free d₂ b = _ := fun b => by
    rw [allocated.free, Geometry.free_agree h.valid same, free]
  have plain := h.directory
  obtain ⟨s₃, d₃, last, reach₃, allocated₃⟩ := allocateBlock_steady s₂ (reach₂.mounted (reach.mounted m))
    reach₂.fault s.geo.directoryStart (by
      rw [reach₂.geo, geo, reach₂.data, before]
      have maps : s.geo.directoryStart ∉ s.geo.block_allocation_map.map BlockAllocationMap.block := by
        intro member
        obtain ⟨bam, hb, block⟩ := List.mem_map.mp member
        exact plain.2.2.1 bam hb block.symm
      simp [plain.1, room, plain.2.1, maps])
  rw [reach₂.geo, geo, reach₂.data] at allocated₃
  have both := allocated.append allocated₃
  refine ⟨s₃, d₃, ?_, reach.trans (reach₂.trans reach₃), ?_, ?_, ?_, ?_, ?_⟩
  · have listed : s.geo.block_allocation_map.map (fun bam => reserveBlock ⟨bam.track, bam.sector⟩) ++
          [reserveBlock ⟨s.geo.header_track, s.geo.header_sector⟩,
            fun q => q.setBlockAllocation s.geo.directory_track s.geo.directory_sector true] =
        (s.geo.block_allocation_map.map BlockAllocationMap.block ++ [s.geo.headerBlock]).map reserveBlock ++
          [fun q => q.allocateBlock s.geo.directoryStart] := by
      rw [List.map_append, List.map_map, List.append_assoc]
      rfl
    rw [run, listed, runSteps_append _ _ _ _ reserve]
    simp only [runSteps, last, if_true]
  · exact both.bam (ok.agree h.valid same)
  · intro b
    rw [both.free, Geometry.free_agree h.valid same, free]
    simp [Bool.and_assoc]
  · rw [both.rest _ (fun area => by have := (h.header_apart area).1; omega), track]
  · rw [both.rest _ (fun area => by have := (h.header_apart area).1; omega), sector]
  · rw [← directory]
    apply Store.read_congr
    intro i hi
    exact both.rest _ (h.valid.bamArea_outside plain.1 (fun system => h.plain plain (.inl system)) hi)

theorem finalBlock_end {g : Geometry} (h : g.Formattable) :
    g.addr g.finalBlock + 256 = g.blockCount * 256 := by
  obtain ⟨low, _, sectors⟩ := h.last.1.1
  have last : 1 ≤ g.last_track := low
  have inside : g.getSectorCount g.last_track - 1 < g.getSectorCount g.last_track := sectors
  rw [Geometry.addr_eq]
  unfold Geometry.blockCount Geometry.finalBlock
  rw [g.sectorOffset_succ g.last_track last]
  dsimp only
  omega

/- The last byte of the image is in no block that matters. -/
theorem Formatted.pad {g : Geometry} {d : Nat → UInt8} (f : Formatted g d) (h : g.Formattable) :
    Formatted g (Store.put d (g.addr g.finalBlock + 255) [0x00]) := by
  have plain := h.last.1
  have same : ∀ a, g.BamArea a → Store.put d (g.addr g.finalBlock + 255) [0x00] a = d a :=
    Geometry.put_agree h.valid plain.1 (fun system => h.plain plain (.inl system)) 255 [0x00] (by simp)
  have header := h.valid.header.apart plain.1 (Ne.symm plain.2.1)
  have directory := h.directory.1.apart plain.1 (Ne.symm h.last.2)
  refine ⟨f.bam.agree h.valid same, ?_, ?_, ?_, ?_⟩
  · intro b
    rw [Geometry.free_agree h.valid same]
    exact f.free b
  · rw [Store.put_outside _ _ _ _ (by rw [List.length_singleton]; omega)]
    exact f.track
  · rw [Store.put_outside _ _ _ _ (by rw [List.length_singleton]; omega)]
    exact f.sector
  · rw [Store.read_put_disjoint _ _ _ _ _ (by rw [List.length_singleton]; omega)]
    exact f.directory

theorem blocks_eq (g : Geometry) : ((upTo 1 g.last_track).map g.getSectorCount).sum = g.blockCount := by
  unfold upTo Geometry.blockCount Geometry.sectorOffset
  rw [List.map_map, Nat.add_sub_cancel]
  congr 1
  apply List.map_congr_left
  intro i _
  exact congrArg g.getSectorCount (Nat.add_comm 1 i)

/-- Formatting succeeds and fills the container up to the end of the geometry. -/
theorem formatImage_done (s : D64) (m : Growing s) (steady : s.container.fault = none)
    (h : s.geo.Formattable) (room : s.geo.directoryStart ∉ s.geo.setAside) (name id : Str) :
    ∃ s' d', s.formatImage name id = (true, s') ∧ Reaches s d' none s' ∧ Formatted s.geo d' ∧
      s.geo.blockCount * 256 ≤ s'.container.size := by
  obtain ⟨s₁, d₁, run₁, reach₁⟩ := initializeBlocks_done s m steady
  have geo₁ := reach₁.geo
  obtain ⟨s₂, d₂, run₂, reach₂, mounted, ok, free⟩ := initializeBlockAllocationMap_done s₁ (reach₁.growing m)
    reach₁.fault (by rw [geo₁]; exact h)
  have geo₂ : s₂.geo = s.geo := reach₂.geo.trans geo₁
  rw [geo₁] at ok free
  obtain ⟨s₃, d₃, run₃, reach₃, same⟩ := writeHeader_done s₂ mounted.toGrowing reach₂.fault
    (by rw [geo₂]; exact h) name id
  have geo₃ : s₃.geo = s.geo := reach₃.geo.trans geo₂
  rw [geo₂, reach₂.data] at same
  obtain ⟨s₄, d₄, run₄, reach₄, formatted⟩ := initializeDirectory_done s₃ (reach₃.mounted mounted) reach₃.fault
    (by rw [geo₃]; exact h) (by rw [geo₃, reach₃.data]; exact ok.agree h.valid same)
    (by
      rw [geo₃, reach₃.data]
      intro b
      rw [Geometry.free_agree h.valid same]
      exact free b)
    (by rw [geo₃]; exact room)
  rw [geo₃] at formatted
  have geo₄ : s₄.geo = s.geo := reach₄.geo.trans geo₃
  have mounted₄ : Mounted s₄ := reach₄.mounted (reach₃.mounted mounted)
  have filled : s₄.container.size ≠ 0 := by
    have last : 1 ≤ s.geo.last_track := h.last.1.1.1
    have record := mounted₄.records 1 (Nat.le_refl 1) (by rw [geo₄]; exact last)
    have positive := (h.valid.track 1 (Nat.le_refl 1) last).positive
    rw [geo₄] at record
    omega
  have final := finalBlock_end h
  have place : s.geo.blockCount * 256 - 1 = s.geo.addr s.geo.finalBlock + 255 := by omega
  have moved := at_moved s₄ (s.geo.addr s.geo.finalBlock + 255) s₄.track s₄.sector
  obtain ⟨s₅, run₅, reach₅, size, _⟩ := write_here _ (moved.growing mounted₄.toGrowing) [0x00]
    (by
      rw [moved.geo, geo₄]
      show s.geo.addr s.geo.finalBlock + 255 + 1 ≤ s.geo.blockCount * 256
      omega)
    (by rw [moved.fault, reach₄.fault]; simp)
  have reach₅ : Reaches s₄ (Store.put d₄ (s.geo.addr s.geo.finalBlock + 255) [0x00]) none s₅ := by
    rw [moved.fault, reach₄.fault, moved.data, reach₄.data] at reach₅
    exact moved.trans reach₅
  refine ⟨s₅, _, ?_, reach₁.trans (reach₂.trans (reach₃.trans (reach₄.trans reach₅))), formatted.pad h, ?_⟩
  · have blocks : ((upTo 1 s₄.geo.last_track).map s₄.geo.getSectorCount).sum = s.geo.blockCount := by
      rw [blocks_eq, geo₄]
    have pad : s₄.padImage = (true, s₅) := by
      have write : ({ s₄ with container := s₄.container.seek (s.geo.addr s.geo.finalBlock + 255) } :
          D64).writeContainer [0x00] = (1, s₅) := run₅
      simp only [padImage, blocks, if_neg filled, block_size, place, write]
      rfl
    simp only [formatImage, runSteps, run₁, if_true, run₂, run₃, run₄, pad]
  · have ends : s.geo.addr s.geo.finalBlock + 255 + 1 ≤ s₅.container.size := size
    omega

/- Nothing is on a freshly formatted image. -/
theorem Formatted.dead {g : Geometry} {d : Nat → UInt8} (f : Formatted g d) (i : Nat) :
    ¬ g.LiveAt d [g.directoryStart] i := by
  rintro ⟨inside, live⟩
  apply live
  have slot : i < 8 := by simpa using inside
  have place : g.slotAddr [g.directoryStart] i + 2 = g.addr g.directoryStart + (32 * i + 2) := by
    unfold Geometry.slotAddr
    rw [Nat.div_eq_of_lt slot, Nat.mod_eq_of_lt slot, List.getD_cons_zero]
    omega
  have byte := Store.getD_read d (g.addr g.directoryStart) 256 (32 * i + 2) 0 (by omega)
  rw [f.directory, blankSector_byte _ (by omega)] at byte
  rw [← entryOf_type, place, ← byte]

/-- A freshly formatted image is sound. -/
theorem Formatted.sound {g : Geometry} {d : Nat → UInt8} (f : Formatted g d) (h : g.Formattable) :
    Sound g d [g.directoryStart] (fun _ => []) := by
  have ends : Ends (g.link d g.directoryStart) := by
    have first := Store.getD_read d (g.addr g.directoryStart) 256 0 0 (by omega)
    rw [f.directory, blankSector_byte 0 (by omega), Nat.add_zero] at first
    unfold Ends Geometry.link
    rw [← first]
    rfl
  have allocated : ∀ b, b ∈ g.setAside ++ (g.block_allocation_map.map BlockAllocationMap.block ++
      [g.headerBlock, g.directoryStart]) → g.free d b = false := by
    intro b member
    rw [f.free]
    simp only [member, not_true, decide_false, Bool.and_false]
  have start : ∀ b, OnChain [g.directoryStart] (fun _ => []) b ↔ b = g.directoryStart := by
    intro b
    simp [OnChain]
  refine ⟨f.bam, ?_, by simp, fun i live => absurd live (f.dead i), fun _ _ => rfl, ?_, ?_, ?_, ?_⟩
  · refine .step ?_ (.done ends)
    have := h.directory.1.1
    unfold Ends
    omega
  · intro b used
    obtain rfl := (start b).mp used
    exact ⟨h.directory.1, allocated _ (by simp), fun system => h.plain h.directory (.inl system)⟩
  · intro i b member
    cases member
  · intro b inside used
    have member : b ∈ g.setAside ++ (g.block_allocation_map.map BlockAllocationMap.block ++
        [g.headerBlock, g.directoryStart]) := by
      by_contra other
      rw [f.free, decide_eq_true inside, decide_eq_true other] at used
      cases used
    rcases List.mem_append.mp member with aside | member
    · left
      unfold Geometry.setAside at aside
      split at aside
      · rename_i format
        obtain ⟨x, _, rfl⟩ := List.mem_map.mp aside
        exact .inr ⟨format, rfl⟩
      · rename_i format
        obtain ⟨x, hx, rfl⟩ := List.mem_map.mp aside
        have := List.mem_range.mp hx
        refine .inl (.inr (.inr ?_))
        simp only [Geometry.isReservedBlock, format]
        simp
        omega
      · cases aside
    · rcases List.mem_append.mp member with map | rest
      · obtain ⟨bam, hb, rfl⟩ := List.mem_map.mp map
        have range := (h.maps bam hb).range
        obtain ⟨_, block, _⟩ := (h.maps bam hb).record bam.start_track (Nat.le_refl _) range.2.1
        exact .inl (.inl (.inr (.inl ⟨bam.start_track, range.1, by omega, block.symm⟩)))
      · simp only [List.mem_cons, List.not_mem_nil, or_false] at rest
        rcases rest with rfl | rfl
        · exact .inl (.inl (.inl rfl))
        · exact .inr ((start _).mpr rfl)
  · rintro b inside (rfl | ⟨t, ht, ht', rfl⟩ | reserved)
    · exact allocated _ (by simp)
    · obtain ⟨bam, member, block, _⟩ := h.recordBlock ht ht'
      apply allocated
      rw [block]
      simp only [List.mem_append, List.mem_map]
      exact .inr (.inl ⟨bam, member, rfl⟩)
    · apply allocated
      unfold Geometry.isReservedBlock at reserved
      split at reserved
      · rename_i format
        have range := of_decide_eq_true reserved
        rw [List.mem_append]
        left
        simp only [Geometry.setAside, format, List.mem_map, List.mem_range]
        refine ⟨b.sector, by omega, ?_⟩
        rw [← range.1]
      · cases reserved

end D64

/- `MapValid` as a test. -/
def mapCheck (g : Geometry) (bam : BlockAllocationMap) : Bool :=
  decide (g.Inside bam.block) && (decide (1 ≤ bam.start_track ∧ bam.start_track ≤ bam.end_track ∧
    bam.end_track ≤ g.last_track) && (decide (bam.offset + bam.used ≤ 256) &&
  (List.range (g.last_track + 1)).all fun t =>
    decide (bam.start_track ≤ t → t ≤ bam.end_track →
      g.recordAddr t = g.addr bam.block + bam.offset + (t - bam.start_track) * bam.byte_count ∧
      g.recordBlock t = bam.block ∧ (g.bamRecord t).byte_count = bam.byte_count) &&
    decide (1 ≤ t → t ≤ g.last_track → g.recordBlock t = bam.block →
      bam.start_track ≤ t ∧ t ≤ bam.end_track)))

theorem mapValid_of_check (g : Geometry) (bam : BlockAllocationMap) (check : mapCheck g bam = true) :
    g.MapValid bam := by
  simp only [mapCheck, Bool.and_eq_true, decide_eq_true_eq, List.all_eq_true, List.mem_range] at check
  obtain ⟨inside, range, fits, tracks⟩ := check
  refine ⟨inside, range, fits, ?_, ?_⟩
  · intro t lower upper
    exact (tracks t (by omega)).1 lower upper
  · intro t low high same
    exact (tracks t (by omega)).2 low high same

namespace Format

theorem supports_default (f : Format) : f.Supports f.defaultImageSize := by
  unfold Supports
  cases f <;> decide

theorem standard_formattable (f : Format) : f.standard.Formattable where
  valid := f.geometry_valid _ _ f.supports_default
  maps := by
    have check : (f.standard.block_allocation_map.all fun bam => mapCheck f.standard bam) = true := by
      cases f <;> decide +kernel
    exact fun bam member => mapValid_of_check _ bam (List.all_eq_true.mp check bam member)
  cover := by
    have check : ((List.range (f.standard.last_track + 1)).all fun t => decide (1 ≤ t →
        ∃ bam ∈ f.standard.block_allocation_map, bam.start_track ≤ t ∧ t ≤ bam.end_track)) = true := by
      cases f <;> decide +kernel
    intro t ht ht'
    have member := List.all_eq_true.mp check t (List.mem_range.mpr (by omega))
    exact of_decide_eq_true member ht
  title := by cases f <;> decide
  header := by cases f <;> decide
  links := by cases f <;> decide
  side2 := by cases f <;> decide
  directory := by cases f <;> decide
  last := by cases f <;> decide

theorem standard_room (f : Format) : f.standard.directoryStart ∉ f.standard.setAside := by
  cases f <;> decide

/- Only a native partition says in its header where the directory is. -/
theorem geometry_linked (f : Format) (link : UInt8 × UInt8)
    (linked : f = dnp → link = (UInt8.ofNat f.standard.directory_track, UInt8.ofNat f.standard.directory_sector)) :
    f.geometry f.defaultImageSize link = f.standard := by
  cases f with
  | dnp =>
    rw [linked rfl]
    rfl
  | d64 | d71 | d80 | d81 | d82 => rfl

end Format

/-- An image of the default size, on which the class finds its default geometry. -/
structure Standard (f : Format) (c : Container) : Prop where
  size : c.size = f.defaultImageSize
  steady : c.fault = none
  geo : (D64.new f c).geo = f.standard

theorem Standard.image {f : Format} {c : Container} (h : Standard f c) : Image f c where
  supported := by
    rw [h.size]
    exact f.supports_default
  size := by
    rw [h.geo, h.size, f.standard_size]
  steady := h.steady

/-- What the firmware finds when it opens a freshly formatted image. -/
theorem format_standard (f : Format) (name id : Str) (_labelled : D64.Labelled name id) :
    Standard f (D64.format f name id) ∧ D64.Formatted f.standard (D64.format f name id).data := by
  have h := f.standard_formattable
  have geo : (D64.new f ⟨fun _ => 0, 0, 0, none⟩).geo = f.standard := by cases f <;> rfl
  obtain ⟨s', d', run, reach, formatted, size⟩ := D64.formatImage_done (D64.new f ⟨fun _ => 0, 0, 0, none⟩)
    ⟨by rw [geo]; exact h.valid, fun _ _ _ => rfl⟩ rfl (by rw [geo]; exact h)
    (by rw [geo]; exact f.standard_room) name id
  rw [geo] at formatted size
  have container : D64.format f name id = s'.container := by
    unfold D64.format
    rw [run]
  have filled : s'.container.size = f.defaultImageSize := by
    have bound := reach.bounded
    rw [geo, f.standard_size] at bound
    rw [f.standard_size] at size
    have empty : (D64.new f ⟨fun _ => 0, 0, 0, none⟩).container.size = 0 := rfl
    omega
  rw [container, reach.data]
  refine ⟨⟨filled, reach.fault, ?_⟩, formatted⟩
  unfold D64.new
  dsimp only
  rw [filled]
  apply f.geometry_linked
  intro native
  have place : f.standard.addr f.standard.headerBlock = 0x100 := by
    rw [native, Geometry.addr_eq]
    decide
  have inside : 0x101 < s'.container.size := by
    rw [filled, native]
    decide
  have track := formatted.track
  have sector := formatted.sector
  rw [place] at track sector
  unfold Container.byte
  rw [if_pos (by omega), if_pos inside, reach.data, track, sector]

end Meatloaf.Disk
