import Meatloaf.Lib.Bitmap
import Meatloaf.Disk.Cursor

/-! The block allocation map as what it says about the medium: which blocks are
free and how many there are on a track. The three record shapes (count and bitmap,
bitmap only, bitmap with the count elsewhere) differ only in this module. -/
namespace Meatloaf.Disk

open Lib

namespace Geometry

variable (g : Geometry) (d : Nat → UInt8)

def record (t : Nat) : List UInt8 := Store.read d (g.recordAddr t) (g.bamRecord t).byte_count

/- The record without its leading count. -/
def bitmap (t : Nat) : List UInt8 := (g.record d t).drop (if (g.bamRecord t).has_count then 1 else 0)

/- Bit of a block in the record of its track. -/
def bitIndex (b : Block) : Nat := 8 * (if (g.bamRecord b.track).has_count then 1 else 0) + b.sector

/-- The BAM marks the block as free. -/
def free (b : Block) : Bool :=
  decide (D64.byteIndex (g.bamRecord b.track) b.sector < (g.bamRecord b.track).byte_count) &&
    D64.recordBit (g.bamRecord b.track) (g.record d b.track) b.sector

/-- Free sectors of a track. -/
def freeCount (t : Nat) : Nat := (List.range (g.getSectorCount t)).countP fun x => g.free d ⟨t, x⟩

/- The medium with the bit of one block changed. -/
def mark (b : Block) (allocate : Bool) : Nat → UInt8 :=
  Store.put d (g.recordAddr b.track)
    (if allocate then D64.recordAllocate (g.bamRecord b.track) (g.record d b.track) b.sector
      else D64.recordRelease (g.bamRecord b.track) (g.record d b.track) b.sector)

/- The medium with the count of a side-2 track brought up to date. -/
def mirror (t : Nat) : Nat → UInt8 :=
  if g.Side2 t then Store.put d (g.side2Addr t) [UInt8.ofNat (D64.countBits (g.record d t))] else d

def setFree (b : Block) (allocate : Bool) : Nat → UInt8 := g.mirror (g.mark d b allocate) b.track

/- Container writes one change of the BAM takes. -/
def bamWrites (t : Nat) : Nat := if g.Side2 t then 2 else 1

/-- The counts agree with the bitmaps, and no bit beyond the last sector of a
track is set. -/
structure BamOk : Prop where
  spare : ∀ t x, g.getSectorCount t ≤ x → g.free d ⟨t, x⟩ = false
  count : ∀ t, 1 ≤ t → t ≤ g.last_track → (g.bamRecord t).has_count = true →
    (d (g.recordAddr t)).toNat = g.freeCount d t
  side2 : ∀ t, g.Side2 t → (d (g.side2Addr t)).toNat = g.freeCount d t

/- The track has a record and the record has a bit for the block. -/
def Represented (b : Block) : Prop :=
  D64.byteIndex (g.bamRecord b.track) b.sector < (g.bamRecord b.track).byte_count

variable {g d}

theorem bitIndex_div (b : Block) :
    g.bitIndex b / 8 = D64.byteIndex (g.bamRecord b.track) b.sector := by
  unfold bitIndex D64.byteIndex
  omega

theorem recordBit_eq (row : List UInt8) (b : Block) :
    D64.recordBit (g.bamRecord b.track) row b.sector = Bitmap.test row (g.bitIndex b) := by
  have low : g.bitIndex b % 8 = b.sector % 8 := by
    unfold bitIndex
    omega
  unfold D64.recordBit Bitmap.test D64.bitmask Bitmap.mask
  rw [bitIndex_div, low]

@[simp] theorem length_record (t : Nat) : (g.record d t).length = (g.bamRecord t).byte_count := by
  simp [record]

theorem free_eq_test (b : Block) : g.free d b = Bitmap.test (g.record d b.track) (g.bitIndex b) := by
  unfold free
  rw [recordBit_eq]
  by_cases inside : D64.byteIndex (g.bamRecord b.track) b.sector < (g.bamRecord b.track).byte_count
  · simp [inside]
  · have beyond := Bitmap.test_beyond (g.record d b.track) (g.bitIndex b)
      (by rw [bitIndex_div, length_record]; omega)
    simp [inside, beyond]

theorem Represented.of_free {b : Block} (h : g.free d b = true) : g.Represented b := by
  unfold free at h
  simp only [Bool.and_eq_true, decide_eq_true_eq] at h
  exact h.1

/- Where there is no record nothing is represented. -/
theorem Represented.track {b : Block} (v : g.Valid) (h : g.Represented b) :
    1 ≤ b.track ∧ b.track ≤ g.last_track := by
  by_contra outside
  have none := v.outside b.track (by omega)
  unfold Represented bamRecord at h
  rw [none] at h
  exact Nat.not_lt_zero _ h

theorem Inside.represented {b : Block} (v : g.Valid) (h : g.Inside b) : g.Represented b := by
  have fits := (v.track b.track h.1 h.2.1).fits
  have lt := h.2.2
  unfold Represented D64.byteIndex
  omega

theorem free_congr {d' : Nat → UInt8} {b : Block} (same : g.record d' b.track = g.record d b.track) :
    g.free d' b = g.free d b := by
  unfold free
  rw [same]

theorem freeCount_congr {d' : Nat → UInt8} {t : Nat} (same : g.record d' t = g.record d t) :
    g.freeCount d' t = g.freeCount d t := by
  apply List.countP_congr
  intro x _
  rw [free_congr (b := ⟨t, x⟩) same]

/- The bits of a record, after one of them was cleared. -/
theorem test_recordAllocate (row : List UInt8) (b : Block) (x : Nat) :
    Bitmap.test (D64.recordAllocate (g.bamRecord b.track) row b.sector) (g.bitIndex ⟨b.track, x⟩) =
      (decide (x ≠ b.sector) && Bitmap.test row (g.bitIndex ⟨b.track, x⟩)) := by
  have cleared : row.modify (D64.byteIndex (g.bamRecord b.track) b.sector)
      (· &&& ~~~ D64.bitmask b.sector) = Bitmap.clear row (g.bitIndex b) := by
    have low : b.sector % 8 = g.bitIndex b % 8 := by
      unfold bitIndex
      omega
    unfold Bitmap.clear D64.bitmask Bitmap.mask
    rw [bitIndex_div, low]
  have other : (g.bitIndex ⟨b.track, x⟩ ≠ g.bitIndex b) ↔ x ≠ b.sector := by
    unfold bitIndex
    simp
  simp only [D64.recordAllocate, cleared]
  split
  · rename_i counted
    have high : g.bitIndex ⟨b.track, x⟩ / 8 ≠ 0 := by
      unfold bitIndex
      rw [if_pos counted.1]
      omega
    rw [Bitmap.test_eq, Bitmap.getD_modify, if_neg (fun h => high h.1.symm), ← Bitmap.test_eq,
      Bitmap.test_clear, decide_eq_decide.mpr other]
  · rw [Bitmap.test_clear, decide_eq_decide.mpr other]

theorem test_recordRelease (row : List UInt8) (b : Block) (x : Nat)
    (inside : D64.byteIndex (g.bamRecord b.track) b.sector < row.length) :
    Bitmap.test (D64.recordRelease (g.bamRecord b.track) row b.sector) (g.bitIndex ⟨b.track, x⟩) =
      (decide (x = b.sector) || Bitmap.test row (g.bitIndex ⟨b.track, x⟩)) := by
  have raised : row.modify (D64.byteIndex (g.bamRecord b.track) b.sector)
      (· ||| D64.bitmask b.sector) = Bitmap.set row (g.bitIndex b) := by
    have low : b.sector % 8 = g.bitIndex b % 8 := by
      unfold bitIndex
      omega
    unfold Bitmap.set D64.bitmask Bitmap.mask
    rw [bitIndex_div, low]
  have same : (g.bitIndex ⟨b.track, x⟩ = g.bitIndex b) ↔ x = b.sector := by
    unfold bitIndex
    simp
  have inside' : g.bitIndex b / 8 < row.length := by rwa [bitIndex_div]
  simp only [D64.recordRelease, raised]
  split
  · rename_i counted
    have high : g.bitIndex ⟨b.track, x⟩ / 8 ≠ 0 := by
      unfold bitIndex
      rw [if_pos counted]
      omega
    rw [Bitmap.test_eq, Bitmap.getD_modify, if_neg (fun h => high h.1.symm), ← Bitmap.test_eq,
      Bitmap.test_set _ _ _ inside', decide_eq_decide.mpr same]
  · rw [Bitmap.test_set _ _ _ inside', decide_eq_decide.mpr same]

theorem length_recordAllocate (rec : BAMRecord) (row : List UInt8) (x : Nat) :
    (D64.recordAllocate rec row x).length = row.length := by
  simp only [D64.recordAllocate]
  split <;> simp

theorem length_recordRelease (rec : BAMRecord) (row : List UInt8) (x : Nat) :
    (D64.recordRelease rec row x).length = row.length := by
  simp only [D64.recordRelease]
  split <;> simp

theorem record_outside (v : g.Valid) {t : Nat} (outside : t = 0 ∨ g.last_track < t) :
    g.record d t = [] := by
  unfold record bamRecord
  rw [v.outside t outside]
  rfl

theorem record_put_other (v : g.Valid) {t u : Nat} (ht : 1 ≤ t ∧ t ≤ g.last_track) (ne : u ≠ t)
    (row : List UInt8) (length : row.length = (g.bamRecord t).byte_count) :
    g.record (Store.put d (g.recordAddr t) row) u = g.record d u := by
  by_cases hu : 1 ≤ u ∧ u ≤ g.last_track
  · have apart := v.records_apart ht.1 ht.2 hu.1 hu.2 (Ne.symm ne)
    apply Store.read_put_disjoint
    omega
  · rw [record_outside v (by omega), record_outside v (by omega)]

theorem record_put_same {t : Nat} (row : List UInt8) (length : row.length = (g.bamRecord t).byte_count) :
    g.record (Store.put d (g.recordAddr t) row) t = row := by
  unfold record
  rw [← length, Store.read_put_same]

/- The split-off counts lie outside every record. -/
theorem record_mirror (v : g.Valid) (t u : Nat) : g.record (g.mirror d t) u = g.record d u := by
  unfold mirror
  split
  · rename_i side
    by_cases hu : 1 ≤ u ∧ u ≤ g.last_track
    · have apart := (v.track u hu.1 hu.2).apart side.1
      have range := v.side2 side.1
      have upper := side.2.2
      apply Store.read_put_disjoint
      unfold side2Addr D64.SIDE2_FIRST_TRACK
      unfold D64.SIDE2_COUNT_OFFSET at *
      simp only [List.length_singleton]
      omega
    · rw [record_outside v (by omega), record_outside v (by omega)]
  · rfl

theorem length_marked (b : Block) (allocate : Bool) :
    (if allocate then D64.recordAllocate (g.bamRecord b.track) (g.record d b.track) b.sector
      else D64.recordRelease (g.bamRecord b.track) (g.record d b.track) b.sector).length =
      (g.bamRecord b.track).byte_count := by
  cases allocate
  · simp [length_recordRelease]
  · simp [length_recordAllocate]

theorem record_setFree_other (v : g.Valid) {b : Block} (h : g.Represented b) (allocate : Bool) {u : Nat}
    (ne : u ≠ b.track) : g.record (g.setFree d b allocate) u = g.record d u := by
  unfold setFree mark
  rw [record_mirror v, record_put_other v (h.track v) ne _ (length_marked b allocate)]

theorem record_setFree_same (v : g.Valid) (b : Block) (allocate : Bool) :
    g.record (g.setFree d b allocate) b.track =
      if allocate then D64.recordAllocate (g.bamRecord b.track) (g.record d b.track) b.sector
      else D64.recordRelease (g.bamRecord b.track) (g.record d b.track) b.sector := by
  unfold setFree mark
  rw [record_mirror v, record_put_same _ (length_marked b allocate)]

/-- Allocating a block takes it, and nothing else, out of the free blocks. -/
theorem free_allocate (v : g.Valid) {b : Block} (h : g.Represented b) (c : Block) :
    g.free (g.setFree d b true) c = (decide (c ≠ b) && g.free d c) := by
  obtain ⟨t, x⟩ := c
  by_cases track : t = b.track
  · subst track
    have same : (⟨b.track, x⟩ : Block) = b ↔ x = b.sector := by
      cases b
      simp
    rw [free_eq_test, free_eq_test, record_setFree_same v b true, if_pos rfl, test_recordAllocate,
      decide_eq_decide.mpr (not_congr same)]
  · have other : (⟨t, x⟩ : Block) ≠ b := fun e => track (by rw [← e])
    rw [free_congr (record_setFree_other v h true track)]
    simp [other]

/-- Releasing a block adds it, and nothing else, to the free blocks. -/
theorem free_release (v : g.Valid) {b : Block} (h : g.Represented b) (c : Block) :
    g.free (g.setFree d b false) c = (decide (c = b) || g.free d c) := by
  obtain ⟨t, x⟩ := c
  by_cases track : t = b.track
  · subst track
    have same : (⟨b.track, x⟩ : Block) = b ↔ x = b.sector := by
      cases b
      simp
    rw [free_eq_test, free_eq_test, record_setFree_same v b false, if_neg Bool.false_ne_true,
      test_recordRelease _ _ _ (by rw [length_record]; exact h), decide_eq_decide.mpr same]
  · have other : (⟨t, x⟩ : Block) ≠ b := fun e => track (by rw [← e])
    rw [free_congr (record_setFree_other v h false track)]
    simp [other]

/-- Nothing but the BAM is written. -/
theorem setFree_outside (v : g.Valid) {b : Block} (h : g.Represented b) (allocate : Bool) {a : Nat}
    (outside : ¬ g.BamArea a) : g.setFree d b allocate a = d a := by
  have range := h.track v
  have marked : g.mark d b allocate a = d a := by
    apply Store.put_outside
    rw [length_marked]
    by_contra inside
    exact outside (.inl ⟨b.track, range.1, range.2, by omega, by omega⟩)
  unfold setFree mirror
  split
  · rename_i side
    rw [Store.put_outside, marked]
    by_contra inside
    simp only [List.length_singleton] at inside
    exact outside (.inr ⟨b.track, side, by omega⟩)
  · exact marked

/- The leading count of a record. -/
theorem record_head {t : Nat} (positive : 0 < (g.bamRecord t).byte_count) :
    (g.record d t).getD 0 0 = d (g.recordAddr t) := Store.getD_read d _ _ 0 0 positive

theorem TrackValid.positive {t : Nat} (v : g.TrackValid t) : 0 < (g.bamRecord t).byte_count := by
  have := v.fits
  have := v.nonempty
  omega

/-- The bits of a track's bitmap are its free sectors. -/
theorem countBits_bitmap (v : g.TrackValid t) (spare : ∀ x, g.getSectorCount t ≤ x → g.free d ⟨t, x⟩ = false) :
    D64.countBits (g.bitmap d t) = g.freeCount d t := by
  have fits := v.fits
  have bits : ∀ x, Bitmap.test (g.bitmap d t) x = g.free d ⟨t, x⟩ := by
    intro x
    rw [bitmap, Bitmap.test_drop, free_eq_test, bitIndex]
  have length : (g.bitmap d t).length =
      (g.bamRecord t).byte_count - (if (g.bamRecord t).has_count then 1 else 0) := by
    rw [bitmap, List.length_drop, length_record]
  obtain ⟨k, more⟩ : ∃ k, 8 * (g.bitmap d t).length = g.getSectorCount t + k :=
    ⟨8 * (g.bitmap d t).length - g.getSectorCount t, by omega⟩
  have none : ((List.range k).map (g.getSectorCount t + ·)).countP (Bitmap.test (g.bitmap d t)) = 0 := by
    rw [List.countP_eq_zero]
    intro x member
    obtain ⟨j, _, rfl⟩ := List.mem_map.mp member
    rw [bits, spare _ (Nat.le_add_right _ _)]
    simp
  have counted : D64.countBits (g.bitmap d t) = Bitmap.count (g.bitmap d t) := rfl
  rw [counted, Bitmap.count_eq_countP, more, List.range_add, List.countP_append, none]
  apply List.countP_congr
  intro x _
  rw [bits]

/- Without a leading count, these are the bits of the record. -/
theorem countBits_record (v : g.TrackValid t) (bare : (g.bamRecord t).has_count = false)
    (spare : ∀ x, g.getSectorCount t ≤ x → g.free d ⟨t, x⟩ = false) :
    D64.countBits (g.record d t) = g.freeCount d t := by
  have whole : g.bitmap d t = g.record d t := by
    rw [bitmap, bare]
    rfl
  rw [← whole]
  exact countBits_bitmap v spare

theorem freeCount_le (t : Nat) : g.freeCount d t ≤ g.getSectorCount t := by
  have bound := List.countP_le_length (p := fun x => g.free d ⟨t, x⟩) (l := List.range (g.getSectorCount t))
  simpa [freeCount] using bound

theorem freeCount_allocate (v : g.Valid) {b : Block} (inside : g.Inside b) (was : g.free d b = true) :
    g.freeCount d b.track = g.freeCount (g.setFree d b true) b.track + 1 := by
  have represented := inside.represented v
  apply Bitmap.countP_drop _ _ _ b.sector List.nodup_range (List.mem_range.mpr inside.2.2) was
  · rw [free_allocate v represented]
    simp
  · intro x _ ne
    have other : (⟨b.track, x⟩ : Block) ≠ b := fun e => ne (by rw [← e])
    rw [free_allocate v represented]
    simp [other]

theorem freeCount_release (v : g.Valid) {b : Block} (inside : g.Inside b) (was : g.free d b = false) :
    g.freeCount (g.setFree d b false) b.track = g.freeCount d b.track + 1 := by
  have represented := inside.represented v
  apply Bitmap.countP_drop _ _ _ b.sector List.nodup_range (List.mem_range.mpr inside.2.2)
  · rw [free_release v represented]
    simp
  · exact was
  · intro x _ ne
    have other : (⟨b.track, x⟩ : Block) ≠ b := fun e => ne (by rw [← e])
    rw [free_release v represented]
    simp [other]

/- A count of its own track does not lie in any record. -/
theorem side2Addr_apart (v : g.Valid) {t u : Nat} (side : g.Side2 t) (hu : 1 ≤ u ∧ u ≤ g.last_track) :
    g.side2Addr t < g.recordAddr u ∨ g.recordAddr u + (g.bamRecord u).byte_count ≤ g.side2Addr t := by
  have apart := (v.track u hu.1 hu.2).apart side.1
  have range := v.side2 side.1
  have upper := side.2.2
  unfold side2Addr D64.SIDE2_FIRST_TRACK
  unfold D64.SIDE2_COUNT_OFFSET at *
  omega

theorem setFree_side2_same (v : g.Valid) {b : Block} (side : g.Side2 b.track) (allocate : Bool) :
    g.setFree d b allocate (g.side2Addr b.track) =
      UInt8.ofNat (D64.countBits (g.record (g.setFree d b allocate) b.track)) := by
  unfold setFree
  rw [record_mirror v]
  unfold mirror
  rw [if_pos side]
  exact Store.put_inside _ _ _ 0 (by simp)

theorem setFree_side2_other (v : g.Valid) {b : Block} (h : g.Represented b) (allocate : Bool) {t : Nat}
    (side : g.Side2 t) (ne : t ≠ b.track) :
    g.setFree d b allocate (g.side2Addr t) = d (g.side2Addr t) := by
  have lower := side.2.1
  have marked : g.mark d b allocate (g.side2Addr t) = d (g.side2Addr t) := by
    apply Store.put_outside
    rw [length_marked]
    exact side2Addr_apart v side (h.track v)
  unfold setFree mirror
  split
  · rename_i side'
    have lower' := side'.2.1
    rw [Store.put_outside, marked]
    unfold side2Addr
    simp only [List.length_singleton]
    omega
  · exact marked

theorem setFree_head_other (v : g.Valid) {b : Block} (h : g.Represented b) (allocate : Bool) {t : Nat}
    (ht : 1 ≤ t ∧ t ≤ g.last_track) (ne : t ≠ b.track) :
    g.setFree d b allocate (g.recordAddr t) = d (g.recordAddr t) := by
  have positive := (v.track t ht.1 ht.2).positive
  rw [← record_head (d := g.setFree d b allocate) positive, ← record_head (d := d) positive,
    record_setFree_other v h allocate ne]

/- The leading count follows the bit. -/
theorem setFree_head (v : g.Valid) {b : Block} (h : g.Represented b) (allocate : Bool)
    (counted : (g.bamRecord b.track).has_count = true) :
    g.setFree d b allocate (g.recordAddr b.track) =
      if allocate then (if 0 < d (g.recordAddr b.track) then d (g.recordAddr b.track) - 1
        else d (g.recordAddr b.track)) else d (g.recordAddr b.track) + 1 := by
  have range := h.track v
  have positive := (v.track b.track range.1 range.2).positive
  have nonempty : 0 < (g.record d b.track).length := by rwa [length_record]
  have off : D64.byteIndex (g.bamRecord b.track) b.sector ≠ 0 := by
    unfold D64.byteIndex
    rw [if_pos counted]
    omega
  have kept : ∀ f, ((g.record d b.track).modify (D64.byteIndex (g.bamRecord b.track) b.sector) f).getD 0 0 =
      (g.record d b.track).getD 0 0 := by
    intro f
    rw [Bitmap.getD_modify, if_neg (fun e => off e.1)]
  rw [← record_head (d := g.setFree d b allocate) positive, ← record_head (d := d) positive,
    record_setFree_same v b allocate]
  cases allocate with
  | true =>
    simp only [D64.recordAllocate, if_true, counted, true_and, kept]
    split
    · rw [Bitmap.getD_modify, if_pos ⟨rfl, by simpa using nonempty⟩, kept]
    · exact kept _
  | false =>
    simp only [D64.recordRelease, Bool.false_eq_true, if_false, counted, if_true]
    rw [Bitmap.getD_modify, if_pos ⟨rfl, by simpa using nonempty⟩, kept]

theorem freeCount_other (v : g.Valid) {b : Block} (h : g.Represented b) (allocate : Bool) {t : Nat}
    (ne : t ≠ b.track) : g.freeCount (g.setFree d b allocate) t = g.freeCount d t :=
  freeCount_congr (record_setFree_other v h allocate ne)

/- What is left to show of a change: the spare bits, and the count of its track. -/
theorem BamOk.step (v : g.Valid) (ok : g.BamOk d) {b : Block} (inside : g.Inside b) (allocate : Bool)
    (spare : ∀ t x, g.getSectorCount t ≤ x → g.free (g.setFree d b allocate) ⟨t, x⟩ = false)
    (count : (g.bamRecord b.track).has_count = true →
      (g.setFree d b allocate (g.recordAddr b.track)).toNat =
        g.freeCount (g.setFree d b allocate) b.track) :
    g.BamOk (g.setFree d b allocate) := by
  have represented := inside.represented v
  refine ⟨spare, ?_, ?_⟩
  · intro t ht ht' counted
    by_cases same : t = b.track
    · subst same
      exact count counted
    · rw [setFree_head_other v represented allocate ⟨ht, ht'⟩ same,
        freeCount_other v represented allocate same]
      exact ok.count t ht ht' counted
  · intro t side
    by_cases same : t = b.track
    · subst same
      have track := v.track b.track inside.1 inside.2.1
      have bare := track.side2 side
      have bound := freeCount_le (g := g) (d := g.setFree d b allocate) b.track
      rw [setFree_side2_same v side allocate, countBits_record track bare.1 (spare _),
        UInt8.toNat_ofNat_of_lt' (by simp only [UInt8.size]; omega)]
    · rw [setFree_side2_other v represented allocate side same,
        freeCount_other v represented allocate same]
      exact ok.side2 t side

theorem BamOk.allocate (v : g.Valid) (ok : g.BamOk d) {b : Block} (inside : g.Inside b)
    (was : g.free d b = true) : g.BamOk (g.setFree d b true) := by
  have represented := inside.represented v
  apply ok.step v inside true
  · intro t x beyond
    rw [free_allocate v represented, ok.spare t x beyond, Bool.and_false]
  · intro counted
    have count := ok.count b.track inside.1 inside.2.1 counted
    have drop := freeCount_allocate v inside was
    have positive : 0 < d (g.recordAddr b.track) := by
      rw [UInt8.lt_iff_toNat_lt, count]
      exact drop ▸ Nat.succ_pos _
    rw [setFree_head v represented true counted, if_pos rfl, if_pos positive,
      UInt8.toNat_sub_of_le _ _ (by rw [UInt8.le_iff_toNat_le, count]; exact drop ▸ Nat.succ_pos _),
      count, drop]
    rfl

theorem BamOk.release (v : g.Valid) (ok : g.BamOk d) {b : Block} (inside : g.Inside b)
    (was : g.free d b = false) : g.BamOk (g.setFree d b false) := by
  have represented := inside.represented v
  apply ok.step v inside false
  · intro t x beyond
    have other : (⟨t, x⟩ : Block) ≠ b := by
      rintro rfl
      exact Nat.not_lt_of_le beyond inside.2.2
    rw [free_release v represented, ok.spare t x beyond]
    simp [other]
  · intro counted
    have count := ok.count b.track inside.1 inside.2.1 counted
    have rise := freeCount_release v inside was
    have bound := freeCount_le (g := g) (d := g.setFree d b false) b.track
    have small := (v.track b.track inside.1 inside.2.1).count counted
    rw [setFree_head v represented false counted, if_neg Bool.false_ne_true, UInt8.toNat_add, count,
      rise, UInt8.toNat_one]
    exact Nat.mod_eq_of_lt (by omega)

/- The BAM says the same when none of its bytes has changed. -/
theorem record_agree {d' : Nat → UInt8} (v : g.Valid) (agree : ∀ a, g.BamArea a → d' a = d a) (t : Nat) :
    g.record d' t = g.record d t := by
  by_cases ht : 1 ≤ t ∧ t ≤ g.last_track
  · apply Store.read_congr
    intro i hi
    exact agree _ (.inl ⟨t, ht.1, ht.2, by omega, by omega⟩)
  · rw [record_outside v (by omega), record_outside v (by omega)]

theorem free_agree {d' : Nat → UInt8} (v : g.Valid) (agree : ∀ a, g.BamArea a → d' a = d a) (b : Block) :
    g.free d' b = g.free d b := free_congr (record_agree v agree b.track)

theorem BamOk.agree {d' : Nat → UInt8} (v : g.Valid) (ok : g.BamOk d)
    (agree : ∀ a, g.BamArea a → d' a = d a) : g.BamOk d' where
  spare t x beyond := by
    rw [free_agree v agree]
    exact ok.spare t x beyond
  count t ht ht' counted := by
    have positive := (v.track t ht ht').positive
    rw [agree _ (.inl ⟨t, ht, ht', by omega, by omega⟩), freeCount_congr (record_agree v agree t)]
    exact ok.count t ht ht' counted
  side2 t side := by
    rw [agree _ (.inr ⟨t, side, rfl⟩), freeCount_congr (record_agree v agree t)]
    exact ok.side2 t side

/- A write into a block that holds no part of the BAM. -/
theorem put_agree (v : g.Valid) {b : Block} (inside : g.Inside b) (system : ¬ g.System b) (o : Nat)
    (bytes : List UInt8) (fits : o + bytes.length ≤ 256) (a : Nat) (area : g.BamArea a) :
    Store.put d (g.addr b + o) bytes a = d a := by
  apply Store.put_outside
  by_contra hit
  obtain ⟨i, hi, rfl⟩ : ∃ i < 256, a = g.addr b + i := ⟨a - g.addr b, by omega, by omega⟩
  exact v.bamArea_outside inside system hi area

/- A record is determined by its free blocks and its count. -/
theorem record_ext {d' : Nat → UInt8} (ok : g.BamOk d) (ok' : g.BamOk d') (v : g.Valid)
    (same : ∀ b, g.free d b = g.free d' b) {t : Nat} (ht : 1 ≤ t ∧ t ≤ g.last_track) (k : Nat) :
    (g.record d t).getD k 0 = (g.record d' t).getD k 0 := by
  have counts : g.freeCount d t = g.freeCount d' t := by
    apply List.countP_congr
    intro x _
    rw [same]
  have bytes : ∀ j, 8 * (if (g.bamRecord t).has_count then 1 else 0) + 8 * j = 8 * k →
      (g.record d t).getD k 0 = (g.record d' t).getD k 0 := by
    intro j index
    apply Bitmap.byte_ext
    intro i _
    have bit := same ⟨t, 8 * j + i⟩
    rw [free_eq_test, free_eq_test, bitIndex] at bit
    rw [show 8 * k + i = 8 * (if (g.bamRecord t).has_count then 1 else 0) + (8 * j + i) by omega]
    exact bit
  cases counted : (g.bamRecord t).has_count with
  | false => exact bytes k (by rw [counted]; simp)
  | true =>
    cases k with
    | zero =>
      have positive := (v.track t ht.1 ht.2).positive
      rw [record_head positive, record_head positive, ← UInt8.toNat_inj,
        ok.count t ht.1 ht.2 counted, ok'.count t ht.1 ht.2 counted, counts]
    | succ k => exact bytes k (by rw [counted]; simp; omega)

/-- Two media with the same free blocks and the same bytes outside the BAM are
the same. -/
theorem bam_ext {d' : Nat → UInt8} (v : g.Valid) (ok : g.BamOk d) (ok' : g.BamOk d')
    (same : ∀ b, g.free d b = g.free d' b) (rest : ∀ a, ¬ g.BamArea a → d a = d' a) : d = d' := by
  funext a
  by_cases area : g.BamArea a
  · rcases area with ⟨t, ht, ht', lo, hi⟩ | ⟨t, side, rfl⟩
    · obtain ⟨i, rfl⟩ : ∃ i, a = g.recordAddr t + i := ⟨a - g.recordAddr t, by omega⟩
      have byte := record_ext ok ok' v same ⟨ht, ht'⟩ i
      unfold record at byte
      rwa [Store.getD_read _ _ _ _ _ (by omega), Store.getD_read _ _ _ _ _ (by omega)] at byte
    · rw [← UInt8.toNat_inj, ok.side2 t side, ok'.side2 t side]
      apply List.countP_congr
      intro x _
      rw [same]
  · exact rest a area

end Geometry

end Meatloaf.Disk
