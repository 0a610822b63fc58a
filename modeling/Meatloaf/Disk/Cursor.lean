import Meatloaf.Disk.Layout

/-! What the sector primitives do inside the geometry. A stream is its medium, its
cursor and the rest; `Reaches` says that only medium and cursor have changed. -/
namespace Meatloaf.Disk.D64

open Lib

/-- `s'` is `s` with the cursor moved, the medium now `d` and the refusal counter
`f`. The container may have grown, but not past the geometry, and nothing changed
behind its new end. -/
structure Reaches (s : D64) (d : Nat → UInt8) (f : Option Nat) (s' : D64) : Prop where
  grows : s.container.size ≤ s'.container.size
  bounded : s'.container.size ≤ max s.container.size (s.geo.blockCount * 256)
  tail : ∀ k, s'.container.size ≤ k → d k = s.container.data k
  eq : s' = { s with container := ⟨d, s'.container.size, s'.container.pos, f⟩,
                     track := s'.track, sector := s'.sector }

/- Only the cursor has moved. -/
abbrev Moved (s s' : D64) : Prop := Reaches s s.container.data s.container.fault s'

/- What the container lacks of the geometry is zero. -/
structure Growing (s : D64) : Prop where
  valid : s.geo.Valid
  blank : ∀ k, s.container.size ≤ k → k < s.geo.blockCount * 256 → s.container.data k = 0

/-- The BAM can be read. -/
structure Mounted (s : D64) : Prop extends Growing s where
  records : ∀ t, 1 ≤ t → t ≤ s.geo.last_track →
    s.geo.recordAddr t + (s.geo.bamRecord t).byte_count ≤ s.container.size

/-- The container holds every block of the geometry. -/
structure Whole (s : D64) : Prop where
  valid : s.geo.Valid
  size : s.geo.blockCount * 256 ≤ s.container.size

namespace Reaches

variable {s s' s'' : D64} {d d' : Nat → UInt8} {f f' : Option Nat}

theorem geo (h : Reaches s d f s') : s'.geo = s.geo := by rw [h.eq]

theorem data (h : Reaches s d f s') : s'.container.data = d := by rw [h.eq]

theorem fault (h : Reaches s d f s') : s'.container.fault = f := by rw [h.eq]

theorem refl (s : D64) : Moved s s where
  grows := Nat.le_refl _
  bounded := Nat.le_max_left _ _
  tail _ _ := rfl
  eq := rfl

theorem still (s : D64) (steady : s.container.fault = none) : Reaches s s.container.data none s :=
  steady ▸ refl s

theorem trans (h : Reaches s d f s') (h' : Reaches s' d' f' s'') : Reaches s d' f' s'' where
  grows := Nat.le_trans h.grows h'.grows
  bounded := by
    have b := h'.bounded
    have c := h.bounded
    rw [h.geo] at b
    omega
  tail k hk := by
    rw [h'.tail k hk, h.data]
    exact h.tail k (Nat.le_trans h'.grows hk)
  eq := by
    conv_lhs => rw [h'.eq, h.eq]

theorem growing (h : Reaches s d f s') (m : Growing s) : Growing s' where
  valid := h.geo ▸ m.valid
  blank k lo hi := by
    rw [h.geo] at hi
    rw [h.data, h.tail k lo]
    exact m.blank k (Nat.le_trans h.grows lo) hi

theorem mounted (h : Reaches s d f s') (m : Mounted s) : Mounted s' where
  toGrowing := h.growing m.toGrowing
  records t ht ht' := by
    rw [h.geo] at ht' ⊢
    exact Nat.le_trans (m.records t ht ht') h.grows

theorem whole (h : Reaches s d f s') (w : Whole s) : Whole s' where
  valid := h.geo ▸ w.valid
  size := h.geo ▸ Nat.le_trans w.size h.grows

/- A container that holds the whole geometry keeps its size. -/
theorem size (h : Reaches s d f s') (w : Whole s) : s'.container.size = s.container.size := by
  have := h.grows
  have := h.bounded
  have := w.size
  omega

end Reaches

theorem Whole.mounted {s : D64} (w : Whole s) : Mounted s where
  valid := w.valid
  blank k lo hi := by
    have := w.size
    omega
  records t ht ht' := by
    have track := w.valid.track t ht ht'
    have := track.inside.addr_end
    have := track.offset
    have := w.size
    unfold Geometry.recordAddr
    omega

/- The stream with its cursor somewhere else. -/
def at_ (s : D64) (p t x : Nat) : D64 :=
  { s with container := s.container.seek p, track := t, sector := x }

theorem at_moved (s : D64) (p t x : Nat) : Moved s (s.at_ p t x) where
  grows := Nat.le_refl _
  bounded := Nat.le_max_left _ _
  tail _ _ := rfl
  eq := rfl

theorem seekSector_some (s : D64) (b : Block) {n : Nat}
    (found : s.geo.linearBlock b.track b.sector = some n) (o : Nat) :
    s.seekSector b.track b.sector o = (true, s.at_ (s.geo.addr b + o) b.track b.sector) := by
  simp only [seekSector, found, at_, Geometry.linearBlock_some found, block_size]

theorem seekSector_inside (s : D64) (v : s.geo.Valid) (b : Block) (inside : s.geo.Inside b)
    (o : Nat) : s.seekSector b.track b.sector o = (true, s.at_ (s.geo.addr b + o) b.track b.sector) := by
  exact seekSector_some s b (inside.linearBlock v) o

theorem seek_accepted (s : D64) (v : s.geo.Valid) (b : Block) (inside : s.geo.Inside b) (o : Nat) :
    (s.seekSector b.track b.sector o).1 = true := by
  rw [seekSector_inside s v b inside o]

theorem readContainer_full (s : D64) (n : Nat) (fits : s.container.pos + n ≤ s.container.size) :
    s.readContainer n = (Store.read s.container.data s.container.pos n,
      s.at_ (s.container.pos + n) s.track s.sector) := by
  simp only [readContainer, Container.read_full _ _ fits, at_, Container.seek]

/-- A complete read inside a block. -/
theorem read_inside (s : D64) (v : s.geo.Valid) (b : Block) (inside : s.geo.Inside b) (o n : Nat)
    (fits : s.geo.addr b + o + n ≤ s.container.size) :
    (s.seekSector b.track b.sector o).2.readContainer n =
      (Store.read s.container.data (s.geo.addr b + o) n,
        s.at_ (s.geo.addr b + o + n) b.track b.sector) := by
  rw [seekSector_inside s v b inside o, readContainer_full _ _ fits]
  rfl

/-- A write inside the geometry that the container takes. -/
theorem write_here (s : D64) (m : Growing s) (bytes : List UInt8)
    (fits : s.container.pos + bytes.length ≤ s.geo.blockCount * 256) (taken : s.container.fault ≠ some 0) :
    ∃ s', s.writeContainer bytes = (bytes.length, s') ∧
      Reaches s (Store.put s.container.data s.container.pos bytes) (s.container.fault.map (· - 1)) s' ∧
      s.container.pos + bytes.length ≤ s'.container.size ∧
      s'.container.pos = s.container.pos + bytes.length := by
  have blank : Container.extend s.container.data s.container.size s.container.pos = s.container.data := by
    funext k
    unfold Container.extend
    split
    · rename_i hole
      exact (m.blank k hole.1 (by omega)).symm
    · rfl
  refine ⟨{ s with container := s.container.store bytes }, ?_, ⟨?_, ?_, ?_, ?_⟩, ?_, rfl⟩
  · simp only [writeContainer, Container.write_taken s.container bytes taken]
  · exact Nat.le_max_left _ _
  · simp only [Container.store]
    omega
  · intro k hk
    simp only [Container.store] at hk
    exact Store.put_outside _ _ _ _ (by omega)
  · simp only [Container.store, blank]
  · exact Nat.le_max_right _ _

/-- A write inside a block that the container takes. -/
theorem write_inside (s : D64) (m : Growing s) (b : Block) (inside : s.geo.Inside b) (o : Nat)
    (bytes : List UInt8) (fits : o + bytes.length ≤ 256) (taken : s.container.fault ≠ some 0) :
    ∃ s', (s.seekSector b.track b.sector o).2.writeContainer bytes = (bytes.length, s') ∧
      Reaches s (Store.put s.container.data (s.geo.addr b + o) bytes)
        (s.container.fault.map (· - 1)) s' ∧
      s.geo.addr b + o + bytes.length ≤ s'.container.size := by
  have last := inside.addr_end
  have moved := at_moved s (s.geo.addr b + o) b.track b.sector
  obtain ⟨s', run, reach, size, _⟩ := write_here _ (moved.growing m) bytes
    (show s.geo.addr b + o + bytes.length ≤ s.geo.blockCount * 256 by omega) taken
  refine ⟨s', ?_, moved.trans reach, size⟩
  rw [seekSector_inside s m.valid b inside o]
  exact run

/-- A write inside a block that the container refuses. -/
theorem write_refused (s : D64) (v : s.geo.Valid) (b : Block) (inside : s.geo.Inside b) (o : Nat)
    (bytes : List UInt8) (refused : s.container.fault = some 0) :
    ∃ s', (s.seekSector b.track b.sector o).2.writeContainer bytes = (0, s') ∧
      Reaches s s.container.data none s' := by
  refine ⟨{ s with container := { s.container.seek (s.geo.addr b + o) with fault := none },
                   track := b.track, sector := b.sector }, ?_, ⟨?_, ?_, ?_, ?_⟩⟩
  · have write := Container.write_refused (s.at_ (s.geo.addr b + o) b.track b.sector).container bytes
      refused
    simp only [seekSector_inside s v b inside o, writeContainer, write]
    rfl
  · exact Nat.le_refl _
  · exact Nat.le_max_left _ _
  · exact fun _ _ => rfl
  · rfl

theorem readBlock_within (s : D64) (b : Block) {n : Nat}
    (found : s.geo.linearBlock b.track b.sector = some n) (fits : s.geo.addr b + 256 ≤ s.container.size) :
    s.readBlock b.track b.sector = (Store.read s.container.data (s.geo.addr b) 256,
      s.at_ (s.geo.addr b + 256) b.track b.sector) := by
  have read := readContainer_full (s.at_ (s.geo.addr b + 0) b.track b.sector) block_size fits
  simp only [readBlock, seekSector_some s b found 0, if_true, read, Store.length_read]
  rfl

theorem readBlock_inside (s : D64) (w : Whole s) (b : Block) (inside : s.geo.Inside b) :
    s.readBlock b.track b.sector = (Store.read s.container.data (s.geo.addr b) 256,
      s.at_ (s.geo.addr b + 256) b.track b.sector) :=
  readBlock_within s b (inside.linearBlock w.valid) (Nat.le_trans inside.addr_end w.size)

/- The padding and the cut leave a complete block alone. -/
theorem padded_block (data : Str) (full : data.length = 256) :
    (data ++ List.replicate (block_size - data.length) 0).take block_size = data := by
  have none : block_size - data.length = 0 := by
    unfold block_size
    omega
  rw [none, List.replicate_zero, List.append_nil, List.take_of_length_le (by unfold block_size; omega)]

theorem writeBlock_taken (s : D64) (m : Mounted s) (b : Block) (inside : s.geo.Inside b) (data : Str)
    (full : data.length = 256) (taken : s.container.fault ≠ some 0) :
    ∃ s', s.writeBlock b.track b.sector data = (true, s') ∧
      Reaches s (Store.put s.container.data (s.geo.addr b) data) (s.container.fault.map (· - 1)) s' := by
  obtain ⟨s', run, reach, _⟩ := write_inside s m.toGrowing b inside 0 data (by omega) taken
  rw [Nat.add_zero] at reach
  refine ⟨s', ?_, reach⟩
  have complete : (data.length == block_size) = true := by simp [full, block_size]
  simp only [writeBlock, padded_block data full, run, seek_accepted s m.valid b inside 0, if_true,
    complete]

/- A block inside the container can be overwritten whatever its number. -/
theorem writeBlock_within (s : D64) (b : Block) {n : Nat}
    (found : s.geo.linearBlock b.track b.sector = some n) (fits : s.geo.addr b + 256 ≤ s.container.size)
    (data : Str) (full : data.length = 256) (steady : s.container.fault = none) :
    ∃ s', s.writeBlock b.track b.sector data = (true, s') ∧
      Reaches s (Store.put s.container.data (s.geo.addr b) data) none s' := by
  have complete : (data.length == block_size) = true := by simp [full, block_size]
  have write := Container.write_taken (s.at_ (s.geo.addr b + 0) b.track b.sector).container data
    (by simp [at_, Container.seek, steady])
  have store := Container.store_inside (s.at_ (s.geo.addr b + 0) b.track b.sector).container data
    (by simp only [at_, Container.seek]; omega)
  refine ⟨{ s with container := ⟨Store.put s.container.data (s.geo.addr b) data, s.container.size,
                      s.geo.addr b + data.length, none⟩,
                    track := b.track, sector := b.sector }, ?_, ?_⟩
  · simp only [writeBlock, padded_block data full, seekSector_some s b found 0, if_true,
      writeContainer, write, complete, store]
    simp only [at_, Container.seek, steady, Nat.add_zero, Option.map_none]
  · refine ⟨Nat.le_refl _, Nat.le_max_left _ _, ?_, rfl⟩
    intro k hk
    have past : s.container.size ≤ k := hk
    exact Store.put_outside _ _ _ _ (by omega)

theorem writeBlock_refused (s : D64) (v : s.geo.Valid) (b : Block) (inside : s.geo.Inside b)
    (data : Str) (full : data.length = 256) (refused : s.container.fault = some 0) :
    ∃ s', s.writeBlock b.track b.sector data = (false, s') ∧ Reaches s s.container.data none s' := by
  obtain ⟨s', run, reach⟩ := write_refused s v b inside 0 data refused
  refine ⟨s', ?_, reach⟩
  simp only [writeBlock, padded_block data full, run, seek_accepted s v b inside 0, if_true]
  rfl

theorem readLink_inside (s : D64) (w : Whole s) (b : Block) (inside : s.geo.Inside b) :
    s.readLink b = (some ⟨(s.container.data (s.geo.addr b)).toNat,
      (s.container.data (s.geo.addr b + 1)).toNat⟩, s.at_ (s.geo.addr b + 2) b.track b.sector) := by
  have fits : s.geo.addr b + 0 + 2 ≤ s.container.size := by
    have := inside.addr_end
    have := w.size
    omega
  simp only [readLink, read_inside s w.valid b inside 0 2 fits, seek_accepted s w.valid b inside 0,
    Store.length_read, if_true, Nat.add_zero]
  rfl

end Meatloaf.Disk.D64
