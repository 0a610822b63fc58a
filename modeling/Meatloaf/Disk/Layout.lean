import Mathlib.Data.Finset.Card
import Meatloaf.Disk.Files
import Meatloaf.Disk.Format

/-! Where things lie in an image: blocks, BAM records, the split-off counts of a
D71. `Valid` collects what the constructors' tables have to satisfy for the
writers to stay out of each other's way; it is checked for each format below. -/
namespace Meatloaf.Disk

namespace Geometry

variable (g : Geometry)

/-- Blocks of the whole medium. -/
def blockCount : Nat := g.sectorOffset (g.last_track + 1)

/-- The block is inside the geometry. -/
def Inside (b : Block) : Prop :=
  1 ≤ b.track ∧ b.track ≤ g.last_track ∧ b.sector < g.getSectorCount b.track

instance (b : Block) : Decidable (g.Inside b) := by unfold Inside; infer_instance

/-- Byte address of a block. -/
def addr (b : Block) : Nat := (g.sectorOffset b.track + b.sector) * 256

theorem addr_eq (b : Block) : g.addr b = (g.sectorOffset b.track + b.sector) * 256 := rfl

def bamRecord (track : Nat) : BAMRecord := (g.getBAMRecord track).getD ⟨0, 0, 0, 0, false⟩

/-- The block that holds the record of a track. -/
def recordBlock (track : Nat) : Block := ⟨(g.bamRecord track).bam_track, (g.bamRecord track).bam_sector⟩

def recordAddr (track : Nat) : Nat := g.addr (g.recordBlock track) + (g.bamRecord track).offset

def headerBlock : Block := ⟨g.header_track, g.header_sector⟩

def directoryStart : Block := ⟨g.directory_track, g.directory_sector⟩

/-- The tracks whose free count is kept apart from the bitmap. -/
def Side2 (track : Nat) : Prop :=
  g.format = .d71 ∧ D64.SIDE2_FIRST_TRACK ≤ track ∧ track ≤ g.last_track

instance (t : Nat) : Decidable (g.Side2 t) := by unfold Side2; infer_instance

def side2Addr (track : Nat) : Nat :=
  g.addr g.headerBlock + (D64.SIDE2_COUNT_OFFSET + (track - D64.SIDE2_FIRST_TRACK))

/-- Blocks that hold no chain: the header, the BAM and the system area of a
native partition. -/
def System (b : Block) : Prop :=
  b = g.headerBlock ∨ (∃ t, 1 ≤ t ∧ t ≤ g.last_track ∧ b = g.recordBlock t) ∨
    g.isReservedBlock b = true

/-- Blocks that may be allocated without lying on a chain. A D71 sets the whole
of its side-2 BAM track aside. -/
def Reserved (b : Block) : Prop := g.System b ∨ (g.format = .d71 ∧ b.track = 53)

/-- What the tables have to say about one track. -/
structure TrackValid (t : Nat) : Prop where
  nonempty : 0 < g.getSectorCount t
  sectors : g.getSectorCount t ≤ 256
  record : g.getBAMRecord t = some (g.bamRecord t)
  inside : g.Inside (g.recordBlock t)
  offset : (g.bamRecord t).offset + (g.bamRecord t).byte_count ≤ 256
  fits : (if (g.bamRecord t).has_count then 1 else 0) + (g.getSectorCount t + 7) / 8 ≤
    (g.bamRecord t).byte_count
  count : (g.bamRecord t).has_count = true → g.getSectorCount t ≤ 255
  next : t < g.last_track → g.recordAddr t + (g.bamRecord t).byte_count ≤ g.recordAddr (t + 1)
  side2 : g.Side2 t → (g.bamRecord t).has_count = false ∧ g.getSectorCount t ≤ 255
  apart : g.format = .d71 →
    g.recordAddr t + (g.bamRecord t).byte_count ≤ g.addr g.headerBlock + D64.SIDE2_COUNT_OFFSET ∨
      g.addr g.headerBlock + 256 ≤ g.recordAddr t
  link : g.format = .dnp → g.recordBlock t ≠ ⟨1, 1⟩

structure Valid : Prop where
  first : g.first_track = 1
  last : g.last_track ≤ 255
  track : ∀ t, 1 ≤ t → t ≤ g.last_track → g.TrackValid t
  outside : ∀ t, (t = 0 ∨ g.last_track < t) → g.getBAMRecord t = none
  header : g.Inside g.headerBlock
  offset : g.directory_offset = 0
  side2 : g.format = .d71 → g.last_track ≤ 70
  link : g.format = .dnp → g.headerBlock = ⟨1, 1⟩

theorem sectorOffset_succ (t : Nat) (h : 1 ≤ t) :
    g.sectorOffset (t + 1) = g.sectorOffset t + g.getSectorCount t := by
  obtain ⟨n, rfl⟩ : ∃ n, t = n + 1 := ⟨t - 1, by omega⟩
  simp [sectorOffset, List.range_succ]

theorem sectorOffset_mono {t u : Nat} (ht : 1 ≤ t) (h : t < u) :
    g.sectorOffset t + g.getSectorCount t ≤ g.sectorOffset u := by
  induction u with
  | zero => omega
  | succ u ih =>
    have step := g.sectorOffset_succ u (by omega)
    rcases Nat.lt_or_ge t u with lt | ge
    · have := ih lt
      omega
    · have same : t = u := by omega
      subst same
      omega

theorem Inside.addr_end {g : Geometry} {b : Block} (h : g.Inside b) :
    g.addr b + 256 ≤ g.blockCount * 256 := by
  have mono := g.sectorOffset_mono h.1 (show b.track < g.last_track + 1 by have := h.2.1; omega)
  have := h.2.2
  unfold addr blockCount
  omega

/-- Different blocks do not overlap. -/
theorem Inside.apart {g : Geometry} {a b : Block} (ha : g.Inside a) (hb : g.Inside b) (ne : a ≠ b) :
    g.addr a + 256 ≤ g.addr b ∨ g.addr b + 256 ≤ g.addr a := by
  obtain ⟨ta, xa⟩ := a
  obtain ⟨tb, xb⟩ := b
  have hxa : xa < g.getSectorCount ta := ha.2.2
  have hxb : xb < g.getSectorCount tb := hb.2.2
  unfold addr
  rcases Nat.lt_trichotomy ta tb with lt | rfl | gt
  · have mono := g.sectorOffset_mono (t := ta) ha.1 lt
    simp only
    omega
  · have hx : xa ≠ xb := fun h => ne (by rw [h])
    simp only
    omega
  · have mono := g.sectorOffset_mono (t := tb) hb.1 gt
    simp only
    omega

theorem Inside.addr_inj {g : Geometry} {a b : Block} (ha : g.Inside a) (hb : g.Inside b)
    (same : g.addr a = g.addr b) : a = b := by
  by_contra ne
  rcases ha.apart hb ne with h | h <;> omega

/- A block number that is handed out is the one the address is made from. -/
theorem linearBlock_some {g : Geometry} {b : Block} {n : Nat}
    (found : g.linearBlock b.track b.sector = some n) : g.addr b = n * 256 := by
  unfold Geometry.linearBlock at found
  split at found
  · contradiction
  · split at found
    · contradiction
    · rw [addr_eq, Option.some.inj found]

theorem Inside.linearBlock {g : Geometry} (v : g.Valid) {b : Block} (h : g.Inside b) :
    g.linearBlock b.track b.sector = some (g.sectorOffset b.track + b.sector) := by
  have h₁ : ¬ (b.track < g.first_track ∨ b.track > g.last_track) := by
    rw [v.first]
    have := h.1
    have := h.2.1
    omega
  have h₂ : ¬ b.sector > g.getSectorCount b.track := by
    have := h.2.2
    omega
  simp only [Geometry.linearBlock, if_neg h₁, if_neg h₂]

/-- The records of different tracks do not overlap, and lie in track order. -/
theorem Valid.records_ordered {g : Geometry} (v : g.Valid) {t u : Nat} (ht : 1 ≤ t) (lt : t < u)
    (hu : u ≤ g.last_track) : g.recordAddr t + (g.bamRecord t).byte_count ≤ g.recordAddr u := by
  induction u with
  | zero => omega
  | succ u ih =>
    have step := (v.track u (by omega) (by omega)).next (by omega)
    rcases Nat.lt_or_ge t u with less | ge
    · have := ih less (by omega)
      omega
    · have same : t = u := by omega
      subst same
      exact step

theorem Valid.records_apart {g : Geometry} (v : g.Valid) {t u : Nat} (ht : 1 ≤ t)
    (ht' : t ≤ g.last_track) (hu : 1 ≤ u) (hu' : u ≤ g.last_track) (ne : t ≠ u) :
    g.recordAddr t + (g.bamRecord t).byte_count ≤ g.recordAddr u ∨
      g.recordAddr u + (g.bamRecord u).byte_count ≤ g.recordAddr t := by
  rcases Nat.lt_or_gt_of_ne ne with lt | gt
  · exact .inl (v.records_ordered ht lt hu')
  · exact .inr (v.records_ordered hu gt ht')

/-- Addresses the BAM writers touch. -/
def BamArea (a : Nat) : Prop :=
  (∃ t, 1 ≤ t ∧ t ≤ g.last_track ∧ g.recordAddr t ≤ a ∧
    a < g.recordAddr t + (g.bamRecord t).byte_count) ∨
  (∃ t, g.Side2 t ∧ a = g.side2Addr t)

/- The split-off counts fill the header block to its end. -/
theorem Valid.side2_offset {g : Geometry} (v : g.Valid) {t : Nat} (side : g.Side2 t) :
    (D64.SIDE2_COUNT_OFFSET + (t - D64.SIDE2_FIRST_TRACK)) % 256 =
      D64.SIDE2_COUNT_OFFSET + (t - D64.SIDE2_FIRST_TRACK) := by
  have range := v.side2 side.1
  have upper := side.2.2
  apply Nat.mod_eq_of_lt
  unfold D64.SIDE2_COUNT_OFFSET D64.SIDE2_FIRST_TRACK
  omega

/-- No block outside the reserved ones holds a byte of the BAM. -/
theorem Valid.bamArea_outside {g : Geometry} (v : g.Valid) {b : Block} (hb : g.Inside b)
    (free : ¬ g.System b) {i : Nat} (hi : i < 256) : ¬ g.BamArea (g.addr b + i) := by
  rintro (⟨t, ht, ht', lo, hi'⟩ | ⟨t, side, same⟩)
  · have track := v.track t ht ht'
    have fits := track.offset
    have ne : b ≠ g.recordBlock t := fun h => free (.inr (.inl ⟨t, ht, ht', h⟩))
    unfold recordAddr at lo hi'
    rcases hb.apart track.inside ne with h | h <;> omega
  · have ne : b ≠ g.headerBlock := fun h => free (.inl h)
    have range := v.side2 side.1
    have upper := side.2.2
    simp only [side2Addr, D64.SIDE2_COUNT_OFFSET, D64.SIDE2_FIRST_TRACK] at same
    rcases hb.apart v.header ne with h | h <;> omega

end Geometry

/- `TrackValid` as a test. -/
def trackCheck (g : Geometry) (t : Nat) : Bool :=
  let r := g.bamRecord t
  decide (0 < g.getSectorCount t) && (decide (g.getSectorCount t ≤ 256) &&
  (decide (g.getBAMRecord t = some r) && (decide (g.Inside (g.recordBlock t)) &&
  (decide (r.offset + r.byte_count ≤ 256) &&
  (decide ((if r.has_count then 1 else 0) + (g.getSectorCount t + 7) / 8 ≤ r.byte_count) &&
  (decide (r.has_count = true → g.getSectorCount t ≤ 255) &&
  (decide (t < g.last_track → g.recordAddr t + r.byte_count ≤ g.recordAddr (t + 1)) &&
  (decide (g.Side2 t → r.has_count = false ∧ g.getSectorCount t ≤ 255) &&
  (decide (g.format = .d71 →
    g.recordAddr t + r.byte_count ≤ g.addr g.headerBlock + D64.SIDE2_COUNT_OFFSET ∨
    g.addr g.headerBlock + 256 ≤ g.recordAddr t) &&
  decide (g.format = .dnp → g.recordBlock t ≠ ⟨1, 1⟩))))))))))

theorem trackValid_of_check (g : Geometry) (t : Nat) (check : trackCheck g t = true) :
    g.TrackValid t := by
  simp only [trackCheck, Bool.and_eq_true, decide_eq_true_eq] at check
  obtain ⟨c1, c2, c3, c4, c5, c6, c7, c8, c9, c10, c11⟩ := check
  exact ⟨c1, c2, c3, c4, c5, c6, c7, c8, c9, c10, c11⟩

/- A geometry with fixed tables is checked track by track. -/
theorem valid_of_check (g : Geometry) (n : Nat) (last : g.last_track = n)
    (bounds : g.first_track = 1 ∧ n ≤ 255 ∧ g.directory_offset = 0 ∧
      (g.format = .d71 → n ≤ 70) ∧ g.Inside g.headerBlock ∧
      (g.format = .dnp → g.headerBlock = ⟨1, 1⟩))
    (tracks : (List.range n).all (fun k => trackCheck g (k + 1)) = true)
    (maps : ∀ bam ∈ g.block_allocation_map, 1 ≤ bam.start_track ∧ bam.end_track ≤ n) : g.Valid := by
  subst last
  obtain ⟨first, last, offset, side2, header, link⟩ := bounds
  refine ⟨first, last, ?_, ?_, header, offset, side2, link⟩
  · intro t h h'
    have member := List.all_eq_true.mp tracks (t - 1) (List.mem_range.mpr (by omega))
    rw [Nat.sub_add_cancel h] at member
    exact trackValid_of_check g t member
  · intro t outside
    have none : g.block_allocation_map.find? (fun bam =>
        decide (bam.start_track ≤ t ∧ t ≤ bam.end_track)) = none := by
      rw [List.find?_eq_none]
      intro bam member
      have := maps bam member
      simp only [decide_eq_true_eq]
      omega
    simp only [Geometry.getBAMRecord, none, Option.map_none]

/- Nothing in `Valid` depends on where the directory starts. -/
theorem Geometry.Valid.directory {g : Geometry} (v : g.Valid) (t x : Nat) :
    Geometry.Valid { g with directory_track := t, directory_sector := x } where
  first := v.first
  last := v.last
  track u h h' :=
    let w := v.track u h h'
    ⟨w.nonempty, w.sectors, w.record, w.inside, w.offset, w.fits, w.count, w.next, w.side2, w.apart,
      w.link⟩
  outside := v.outside
  header := v.header
  offset := v.offset
  side2 := v.side2
  link := v.link

/- The medium is small enough for a 16-bit number of its directory entries. -/
def Geometry.Compact (g : Geometry) : Prop := 8 * g.blockCount < 65536

namespace Format

/- The geometry of an image of the size the class writes itself. -/
def standard (f : Format) : Geometry := f.geometry f.defaultImageSize (0, 0)

/- A native partition of `n` tracks. -/
def native (n : Nat) : Geometry := ⟨dnp, 1, 1, 0x04, 1, 34, 0, [⟨1, 2, 0x20, 1, n, 32⟩]⟩

theorem native_sectors (n t : Nat) : (native n).getSectorCount t = 256 := rfl

theorem native_record (n t : Nat) (h : 1 ≤ t) (h' : t ≤ n) : (native n).getBAMRecord t =
    some ⟨1, 2 + (0x20 + (t - 1) * 32) / 256, (0x20 + (t - 1) * 32) % 256, 32, false⟩ := by
  have range : 1 ≤ t ∧ t ≤ n := ⟨h, h'⟩
  simp [Geometry.getBAMRecord, native, range, Geometry.getSectorCount, sectorsPerTrack, speedZone, block_size]

theorem native_valid (n : Nat) (some : 1 ≤ n) (most : n ≤ 255) : (native n).Valid where
  first := rfl
  last := most
  track t h h' := by
    have record := native_record n t h h'
    have bam : (native n).bamRecord t =
        ⟨1, 2 + (0x20 + (t - 1) * 32) / 256, (0x20 + (t - 1) * 32) % 256, 32, false⟩ := by
      rw [Geometry.bamRecord, record]
      rfl
    have last : t ≤ n := h'
    refine ⟨Nat.zero_lt_succ 255, Nat.le_refl 256, ?_, ?_, ?_, ?_, ?_, ?_, ?_, ?_, ?_⟩
    · rw [record, bam]
    · refine ⟨?_, ?_, ?_⟩ <;> simp only [Geometry.recordBlock, bam]
      · decide
      · exact some
      · rw [native_sectors]
        omega
    · simp only [bam]
      omega
    · simp only [bam, native_sectors]
      decide
    · simp [bam]
    · intro lt
      have after : t + 1 ≤ n := lt
      have bam' : (native n).bamRecord (t + 1) =
          ⟨1, 2 + (0x20 + t * 32) / 256, (0x20 + t * 32) % 256, 32, false⟩ := by
        rw [Geometry.bamRecord, native_record n (t + 1) (by omega) after]
        rfl
      simp only [Geometry.recordAddr, Geometry.recordBlock, bam, bam', Geometry.addr_eq]
      omega
    · rintro ⟨side, _⟩
      cases side
    · intro side
      cases side
    · intro _ same
      simp only [Geometry.recordBlock, bam] at same
      have := congrArg Block.sector same
      simp only at this
      omega
  outside t outside := by
    have none : ¬ (1 ≤ t ∧ t ≤ n) := by
      have last : (native n).last_track = n := rfl
      omega
    simp [Geometry.getBAMRecord, native, none]
  header := ⟨Nat.le_refl 1, some, Nat.succ_lt_succ (Nat.zero_lt_succ 254)⟩
  offset := rfl
  side2 side := by cases side
  link _ := rfl

/- A native partition has at most 255 tracks. -/
def Supports (f : Format) (size : Nat) : Prop := f = dnp → size ≤ 255 * 65536

/-- The tables of every image the constructors accept. -/
theorem geometry_valid (f : Format) (size : Nat) (link : UInt8 × UInt8) (h : f.Supports size) :
    (f.geometry size link).Valid := by
  cases f with
  | d64 =>
    unfold geometry
    dsimp only
    split
    · exact valid_of_check _ 40 (by decide) (by decide) (by decide) (by decide)
    · split
      · exact valid_of_check _ 42 (by decide) (by decide) (by decide) (by decide)
      · exact valid_of_check _ 35 (by decide) (by decide) (by decide +kernel) (by decide)
  | d71 => exact valid_of_check d71.standard 70 (by decide) (by decide +kernel) (by decide +kernel) (by decide)
  | d80 => exact valid_of_check d80.standard 77 (by decide) (by decide +kernel) (by decide +kernel) (by decide)
  | d81 =>
    unfold geometry
    dsimp only
    split
    · exact valid_of_check _ 81 (by decide) (by decide) (by decide +kernel) (by decide)
    · exact valid_of_check _ 80 (by decide) (by decide) (by decide +kernel) (by decide)
  | d82 => exact valid_of_check d82.standard 154 (by decide) (by decide) (by decide +kernel) (by decide)
  | dnp =>
    have most := h rfl
    have tracks : ∃ n, (1 ≤ n ∧ n ≤ 255) ∧ ∃ t x, dnp.geometry size link =
        { native n with directory_track := t, directory_sector := x } := by
      refine ⟨_, ?_, _, _, rfl⟩
      split <;> split <;> omega
    obtain ⟨n, ⟨some, most⟩, t, x, same⟩ := tracks
    rw [same]
    exact (native_valid n some most).directory t x

/- Only the directory of a native partition is read from the image. -/
theorem geometry_directory (f : Format) (link : UInt8 × UInt8) :
    f.geometry f.defaultImageSize link = { f.standard with
      directory_track := (f.geometry f.defaultImageSize link).directory_track,
      directory_sector := (f.geometry f.defaultImageSize link).directory_sector } := by
  cases f <;> rfl

theorem standard_size (f : Format) : f.standard.blockCount * 256 = f.defaultImageSize := by
  cases f <;> decide +kernel

theorem default_size (f : Format) (link : UInt8 × UInt8) :
    (f.geometry f.defaultImageSize link).blockCount * 256 = f.defaultImageSize := by
  rw [geometry_directory, ← standard_size]
  rfl

theorem default_compact (f : Format) (link : UInt8 × UInt8) :
    (f.geometry f.defaultImageSize link).Compact := by
  have size := f.default_size link
  have bound : f.defaultImageSize < 8192 * 256 := by cases f <;> decide
  unfold Geometry.Compact
  omega

end Format

attribute [irreducible] Geometry.addr

end Meatloaf.Disk
