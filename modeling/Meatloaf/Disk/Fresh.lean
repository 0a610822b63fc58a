import Meatloaf.Disk.Recovery

/-! The allocation map `formatImage` lays down: the records of every map, the counts of
side 2 and the blocks set aside. -/
namespace Meatloaf.Disk

open Lib

namespace D64

/- What every step of a list keeps up the whole list keeps up. -/
theorem runSteps_keeps {P : D64 → Prop} (steps : List (D64 → Bool × D64))
    (each : ∀ step ∈ steps, ∀ s, P s → ∃ s', step s = (true, s') ∧ P s') (s : D64) (start : P s) :
    ∃ s', runSteps steps s = (true, s') ∧ P s' := by
  induction steps generalizing s with
  | nil => exact ⟨s, rfl, start⟩
  | cons step steps ih =>
    obtain ⟨s₁, run, kept⟩ := each step List.mem_cons_self s start
    obtain ⟨s₂, rest, last⟩ := ih (fun t ht => each t (List.mem_cons_of_mem _ ht)) s₁ kept
    refine ⟨s₂, ?_, last⟩
    simp only [runSteps, run, if_true, rest]

theorem length_fillBlock : fillBlock.length = 256 := by
  rw [fillBlock, List.length_cons, List.length_replicate]
  rfl

section writes

variable (s : D64) (m : Growing s) (steady : s.container.fault = none)
include m steady

theorem writeAt_inside (b : Block) (inside : s.geo.Inside b) (o : Nat) (bytes : List UInt8)
    (fits : o + bytes.length ≤ 256) :
    ∃ s', writeAt b.track b.sector o bytes s = (true, s') ∧
      Reaches s (Store.put s.container.data (s.geo.addr b + o) bytes) none s' := by
  obtain ⟨s', run, reach, _⟩ := write_inside s m b inside o bytes fits (by rw [steady]; simp)
  refine ⟨s', ?_, ?_⟩
  · simp only [writeAt, seek_accepted s m.valid b inside o, if_true, run, beq_self_eq_true]
  · rwa [steady] at reach

/- Bytes written one at a time. -/
theorem writeBytes_here (bytes : List UInt8)
    (fits : s.container.pos + bytes.length ≤ s.geo.blockCount * 256) :
    ∃ s', writeBytes bytes s = (true, s') ∧
      Reaches s (Store.put s.container.data s.container.pos bytes) none s' ∧
      s'.container.pos = s.container.pos + bytes.length ∧
      (bytes ≠ [] → s.container.pos + bytes.length ≤ s'.container.size) := by
  induction bytes generalizing s with
  | nil =>
    have same : Store.put s.container.data s.container.pos [] = s.container.data :=
      Store.put_eq_self _ _ _ rfl
    refine ⟨s, rfl, ?_, rfl, by simp⟩
    rw [same]
    exact .still s steady
  | cons b bytes ih =>
    rw [List.length_cons] at fits
    obtain ⟨s₁, run, reach, size, pos⟩ := write_here s m [b] (by rw [List.length_singleton]; omega)
      (by rw [steady]; simp)
    rw [steady] at reach
    rw [List.length_singleton] at pos size
    obtain ⟨s₂, rest, reach₂, pos₂, size₂⟩ := ih s₁ (reach.growing m) reach.fault
      (by rw [reach.geo, pos]; omega)
    refine ⟨s₂, ?_, ?_, ?_, ?_⟩
    · simp only [writeBytes, run, List.length_singleton, ne_eq, one_ne_zero, not_false_eq_true, if_true, rest]
    · rw [reach.data, pos] at reach₂
      have joined := Store.put_append s.container.data s.container.pos [b] bytes
      rw [List.length_singleton, List.singleton_append] at joined
      rw [← joined]
      exact reach.trans reach₂
    · rw [pos₂, pos, List.length_cons]
      omega
    · intro _
      rw [List.length_cons]
      cases bytes with
      | nil =>
        have := reach₂.grows
        exact Nat.le_trans size this
      | cons c bytes =>
        have last := size₂ (by simp)
        rw [pos] at last
        omega

/- Bytes written one at a time into a block. -/
theorem writeBytes_inside (b : Block) (inside : s.geo.Inside b) (o : Nat) (bytes : List UInt8)
    (fits : o + bytes.length ≤ 256) :
    ∃ s', writeBytes bytes (s.seekSector b.track b.sector o).2 = (true, s') ∧
      Reaches s (Store.put s.container.data (s.geo.addr b + o) bytes) none s' ∧
      s'.container.pos = s.geo.addr b + o + bytes.length ∧
      (bytes ≠ [] → s.geo.addr b + o + bytes.length ≤ s'.container.size) := by
  have last := inside.addr_end
  have moved := at_moved s (s.geo.addr b + o) b.track b.sector
  obtain ⟨s', run, reach, pos, size⟩ := writeBytes_here _ (moved.growing m) (moved.fault.trans steady) bytes
    (show s.geo.addr b + o + bytes.length ≤ s.geo.blockCount * 256 by omega)
  refine ⟨s', ?_, moved.trans reach, pos, size⟩
  rw [seekSector_inside s m.valid b inside o]
  exact run

theorem initializeBlocks_done : ∃ s' d', s.initializeBlocks = (true, s') ∧ Reaches s d' none s' := by
  have kept := runSteps_keeps (P := fun q => ∃ d, Reaches s d none q)
    ((upTo 1 s.geo.last_track).flatMap fun t =>
      if t = s.geo.header_track then []
      else (List.range (s.geo.getSectorCount t % 256)).map fun x => writeAt t x 0 fillBlock)
  obtain ⟨s', run, d', reach⟩ := kept (by
    intro step member q ⟨d, reach⟩
    obtain ⟨t, track, member⟩ := List.mem_flatMap.mp member
    split at member
    · cases member
    · obtain ⟨x, sector, rfl⟩ := List.mem_map.mp member
      have range : 1 ≤ t ∧ t ≤ s.geo.last_track := by
        obtain ⟨i, hi, rfl⟩ := List.mem_map.mp track
        have := List.mem_range.mp hi
        omega
      have inside : s.geo.Inside ⟨t, x⟩ :=
        ⟨range.1, range.2, Nat.lt_of_lt_of_le (List.mem_range.mp sector) (Nat.mod_le _ _)⟩
      obtain ⟨q', write, reach'⟩ := writeAt_inside q (reach.growing m) reach.fault ⟨t, x⟩
        (reach.geo.symm ▸ inside) 0 fillBlock (by rw [length_fillBlock])
      exact ⟨q', write, _, reach.trans reach'⟩) s ⟨_, .still s steady⟩
  exact ⟨s', d', run, reach⟩

end writes

end D64

namespace BlockAllocationMap

def block (bam : BlockAllocationMap) : Block := ⟨bam.track, bam.sector⟩

/- Bytes of all records of a map. -/
def used (bam : BlockAllocationMap) : Nat := (bam.end_track + 1 - bam.start_track) * bam.byte_count

end BlockAllocationMap

namespace Geometry

variable (g : Geometry)

/- A map lies in one block, record after record. -/
structure MapValid (bam : BlockAllocationMap) : Prop where
  inside : g.Inside bam.block
  range : 1 ≤ bam.start_track ∧ bam.start_track ≤ bam.end_track ∧ bam.end_track ≤ g.last_track
  fits : bam.offset + bam.used ≤ 256
  record : ∀ t, bam.start_track ≤ t → t ≤ bam.end_track →
    g.recordAddr t = g.addr bam.block + bam.offset + (t - bam.start_track) * bam.byte_count ∧
    g.recordBlock t = bam.block ∧ (g.bamRecord t).byte_count = bam.byte_count
  only : ∀ t, 1 ≤ t → t ≤ g.last_track → g.recordBlock t = bam.block →
    bam.start_track ≤ t ∧ t ≤ bam.end_track

/- The record of a track with every sector free. -/
def Fresh (d : Nat → UInt8) (t : Nat) : Prop :=
  g.record d t = D64.freeRecord g (g.bamRecord t).byte_count t

variable {g}

theorem length_freeBitmap (n sectors : Nat) : (D64.freeBitmap n sectors).length = n := by
  induction n generalizing sectors with
  | zero => rfl
  | succ n ih => rw [D64.freeBitmap, List.length_cons, ih]

theorem length_freeRecord {n t : Nat} (positive : 0 < n) : (D64.freeRecord g n t).length = n := by
  unfold D64.freeRecord
  dsimp only
  split
  · rw [List.length_cons, length_freeBitmap]
    omega
  · exact length_freeBitmap _ _

/- The bits of a byte whose lowest `n` bits are set. -/
theorem low_bits : ∀ n < 8, ∀ i < 8,
    (UInt8.ofNat (2 ^ n - 1)).toBitVec.getLsbD i = decide (i < n) := by decide

theorem test_cons (b : UInt8) (row : List UInt8) (i : Nat) :
    Bitmap.test (b :: row) (8 + i) = Bitmap.test row i := by
  have high : (8 + i) / 8 = i / 8 + 1 := by omega
  have low : (8 + i) % 8 = i % 8 := by omega
  rw [Bitmap.test_eq, Bitmap.test_eq, high, low, List.getD_cons_succ]

theorem test_freeBitmap (n sectors i : Nat) :
    Bitmap.test (D64.freeBitmap n sectors) i = decide (i < 8 * n ∧ i < sectors) := by
  induction n generalizing sectors i with
  | zero =>
    rw [Bitmap.test_beyond _ _ (by simp [D64.freeBitmap])]
    simp
  | succ n ih =>
    rw [D64.freeBitmap]
    by_cases first : i < 8
    · have here : i / 8 = 0 := by omega
      rw [Bitmap.test_eq, here, List.getD_cons_zero, Nat.mod_eq_of_lt first]
      split
      · rename_i all
        have set : (0xFF : UInt8).toBitVec.getLsbD i = true := by
          have bits : ∀ i < 8, (0xFF : UInt8).toBitVec.getLsbD i = true := by decide
          exact bits i first
        rw [set]
        simp
        omega
      · rename_i some
        rw [low_bits sectors (by omega) i first, decide_eq_decide]
        omega
    · obtain ⟨j, rfl⟩ : ∃ j, i = 8 + j := ⟨i - 8, by omega⟩
      rw [test_cons, ih, decide_eq_decide]
      omega

/-- Every block of a fresh track is free. -/
theorem Fresh.free {d : Nat → UInt8} {t : Nat} (h : g.Fresh d t) (v : g.TrackValid t) (x : Nat) :
    g.free d ⟨t, x⟩ = decide (x < g.getSectorCount t) := by
  have fits := v.fits
  have positive := v.positive
  have shape : (g.bamRecord t).has_count =
      decide ((g.getSectorCount t + 7) / 8 < (g.bamRecord t).byte_count) := by
    obtain ⟨bam, _, same⟩ := Option.map_eq_some_iff.mp v.record
    rw [← same]
  rw [free_eq_test, h]
  unfold D64.freeRecord bitIndex
  dsimp only
  by_cases counted : (g.getSectorCount t + 7) / 8 < (g.bamRecord t).byte_count
  · rw [if_pos counted, shape, decide_eq_true counted, if_pos rfl, Nat.mul_one, test_cons, test_freeBitmap,
      decide_eq_decide]
    omega
  · rw [if_neg counted, shape, decide_eq_false counted, if_neg Bool.false_ne_true, Nat.mul_zero, Nat.zero_add,
      test_freeBitmap, decide_eq_decide]
    rw [shape, decide_eq_false counted, if_neg Bool.false_ne_true] at fits
    omega

theorem Fresh.freeCount {d : Nat → UInt8} {t : Nat} (h : g.Fresh d t) (v : g.TrackValid t) :
    g.freeCount d t = g.getSectorCount t := by
  unfold Geometry.freeCount
  rw [List.countP_eq_length.mpr, List.length_range]
  intro x hx
  rw [h.free v, decide_eq_true (List.mem_range.mp hx)]

/- The count at the start of a fresh record. -/
theorem Fresh.head {d : Nat → UInt8} {t : Nat} (h : g.Fresh d t) (v : g.TrackValid t)
    (counted : (g.bamRecord t).has_count = true) : (d (g.recordAddr t)).toNat = g.getSectorCount t := by
  have small := v.count counted
  have shape : (g.getSectorCount t + 7) / 8 < (g.bamRecord t).byte_count := by
    obtain ⟨bam, _, same⟩ := Option.map_eq_some_iff.mp v.record
    rw [← same] at counted ⊢
    simpa using counted
  rw [← record_head (d := d) v.positive, h]
  unfold D64.freeRecord
  dsimp only
  rw [if_pos shape, List.getD_cons_zero, UInt8.toNat_ofNat']
  omega

theorem MapValid.positive {bam : BlockAllocationMap}
    (h : g.MapValid bam) (v : g.Valid) : 0 < bam.byte_count := by
  obtain ⟨low, order, high⟩ := h.range
  rw [← (h.record _ (Nat.le_refl _) order).2.2]
  exact (v.track _ low (by omega)).positive

/- A BAM with every block free. -/
theorem BamOk.fresh {d : Nat → UInt8} (v : g.Valid) (fresh : ∀ t, 1 ≤ t → t ≤ g.last_track → g.Fresh d t)
    (side2 : ∀ t, g.Side2 t → (d (g.side2Addr t)).toNat = g.getSectorCount t) : g.BamOk d where
  spare t x beyond := by
    by_cases ht : 1 ≤ t ∧ t ≤ g.last_track
    · rw [(fresh t ht.1 ht.2).free (v.track t ht.1 ht.2), decide_eq_false (by omega)]
    · rw [free_eq_test, record_outside v (by simp only; omega), Bitmap.test_beyond _ _ (by simp)]
  count t h h' counted := by
    have track := v.track t h h'
    rw [(fresh t h h').head track counted, (fresh t h h').freeCount track]
  side2 t side := by
    have h : 1 ≤ t := Nat.le_trans (by decide) side.2.1
    rw [side2 t side, (fresh t h side.2.2).freeCount (v.track t h side.2.2)]

end Geometry

namespace D64

theorem length_upTo (a b : Nat) : (upTo a b).length = b + 1 - a := by simp [upTo]

theorem length_records (g : Geometry) (bam : BlockAllocationMap) (positive : 0 < bam.byte_count) :
    ((upTo bam.start_track bam.end_track).flatMap fun t => freeRecord g bam.byte_count t).length =
      bam.used := by
  have lengths : ∀ t ∈ upTo bam.start_track bam.end_track,
      (freeRecord g bam.byte_count t).length = bam.byte_count := fun t _ => Geometry.length_freeRecord positive
  rw [List.length_flatMap, List.map_congr_left lengths]
  simp [length_upTo, BlockAllocationMap.used]

/- The records of a map are laid down together. -/
theorem records_put {g : Geometry} {bam : BlockAllocationMap} (h : g.MapValid bam) (v : g.Valid)
    (d : Nat → UInt8) (t : Nat) (ht : 1 ≤ t ∧ t ≤ g.last_track) :
    (bam.start_track ≤ t ∧ t ≤ bam.end_track →
      g.Fresh (Store.put d (g.addr bam.block + bam.offset)
        ((upTo bam.start_track bam.end_track).flatMap fun t => freeRecord g bam.byte_count t)) t) ∧
    (¬ (bam.start_track ≤ t ∧ t ≤ bam.end_track) →
      g.record (Store.put d (g.addr bam.block + bam.offset)
        ((upTo bam.start_track bam.end_track).flatMap fun t => freeRecord g bam.byte_count t)) t =
      g.record d t) := by
  obtain ⟨low, order, high⟩ := h.range
  have positive := h.positive v
  constructor
  · rintro ⟨lower, upper⟩
    obtain ⟨place, _, count⟩ := h.record t lower upper
    have read := Store.read_put_flatMap d (g.addr bam.block + bam.offset) bam.byte_count
      (upTo bam.start_track bam.end_track) (fun t => freeRecord g bam.byte_count t)
      (fun t _ => Geometry.length_freeRecord positive)
      (t - bam.start_track) (by rw [length_upTo]; omega)
    unfold Geometry.Fresh Geometry.record
    rw [place, count, read]
    congr 1
    simp only [upTo, List.get_eq_getElem, List.getElem_map, List.getElem_range]
    omega
  · intro outside
    obtain ⟨first, _, _⟩ := h.record bam.start_track (Nat.le_refl _) order
    obtain ⟨last, _, count⟩ := h.record bam.end_track order (Nat.le_refl _)
    have total := length_records g bam positive
    have used : bam.used = (bam.end_track - bam.start_track) * bam.byte_count + bam.byte_count := by
      unfold BlockAllocationMap.used
      rw [show bam.end_track + 1 - bam.start_track = bam.end_track - bam.start_track + 1 by omega, Nat.succ_mul]
    apply Store.read_put_disjoint
    rw [total]
    rcases Nat.lt_or_ge t bam.start_track with before | after
    · have := v.records_ordered ht.1 before (by omega)
      rw [first, Nat.sub_self, Nat.zero_mul] at this
      omega
    · have := v.records_ordered (t := bam.end_track) (u := t) (by omega) (by omega) ht.2
      rw [last, count] at this
      omega

/-- The maps are laid down one after the other, each in its block. -/
theorem initializeMaps_done (maps : List BlockAllocationMap) (s : D64) (m : Growing s)
    (steady : s.container.fault = none) (valid : ∀ bam ∈ maps, s.geo.MapValid bam) (done : Nat → Prop)
    (before : ∀ t, 1 ≤ t → t ≤ s.geo.last_track → done t → s.geo.Fresh s.container.data t ∧
      s.geo.recordAddr t + (s.geo.bamRecord t).byte_count ≤ s.container.size) :
    ∃ s' d', initializeMaps maps s = (true, s') ∧ Reaches s d' none s' ∧
      ∀ t, 1 ≤ t → t ≤ s.geo.last_track →
        (done t ∨ ∃ bam ∈ maps, bam.start_track ≤ t ∧ t ≤ bam.end_track) →
        s.geo.Fresh d' t ∧ s.geo.recordAddr t + (s.geo.bamRecord t).byte_count ≤ s'.container.size := by
  induction maps generalizing s done with
  | nil =>
    refine ⟨s, _, rfl, .still s steady, ?_⟩
    rintro t h h' (finished | ⟨_, member, _⟩)
    · exact before t h h' finished
    · cases member
  | cons bam maps ih =>
    have map := valid bam List.mem_cons_self
    obtain ⟨low, order, high⟩ := map.range
    have last := map.inside.addr_end
    have fits := map.fits
    let bytes := (upTo bam.start_track bam.end_track).flatMap fun t => freeRecord s.geo bam.byte_count t
    have positive := map.positive m.valid
    have total : bytes.length = bam.used := length_records s.geo bam positive
    obtain ⟨s₁, run, reach, _, size⟩ := writeBytes_inside s m steady bam.block map.inside bam.offset bytes
      (by omega)
    have ends : s.geo.addr bam.block + bam.offset + bam.used ≤ s₁.container.size := by
      rw [← total]
      apply size
      intro empty
      rw [empty, List.length_nil] at total
      unfold BlockAllocationMap.used at total
      have := Nat.mul_pos (show 0 < bam.end_track + 1 - bam.start_track by omega) positive
      omega
    obtain ⟨s₂, d', rest, reach', fresh⟩ := ih s₁ (reach.growing m) reach.fault
      (by
        rw [reach.geo]
        exact fun b hb => valid b (List.mem_cons_of_mem _ hb))
      (fun t => done t ∨ (bam.start_track ≤ t ∧ t ≤ bam.end_track)) (by
        rw [reach.geo, reach.data]
        intro t h h' finished
        obtain ⟨now, kept⟩ := records_put map m.valid s.container.data t ⟨h, h'⟩
        by_cases here : bam.start_track ≤ t ∧ t ≤ bam.end_track
        · obtain ⟨place, _, count⟩ := map.record t here.1 here.2
          refine ⟨now here, ?_⟩
          have inner : (t - bam.start_track) * bam.byte_count + bam.byte_count ≤ bam.used := by
            unfold BlockAllocationMap.used
            rw [← Nat.succ_mul]
            exact Nat.mul_le_mul_right _ (by omega)
          rw [place, count]
          omega
        · have old := before t h h' (finished.resolve_right here)
          refine ⟨?_, Nat.le_trans old.2 reach.grows⟩
          unfold Geometry.Fresh
          rw [kept here]
          exact old.1)
    rw [reach.geo] at fresh
    refine ⟨s₂, d', ?_, reach.trans reach', ?_⟩
    · unfold BlockAllocationMap.block at run
      simp only [initializeMaps, run, if_true, rest, bytes]
    · rintro t h h' (finished | ⟨b, member, range⟩)
      · exact fresh t h h' (.inl (.inl finished))
      · rcases List.mem_cons.mp member with rfl | later
        · exact fresh t h h' (.inl (.inr range))
        · exact fresh t h h' (.inr ⟨b, later, range⟩)

end D64

namespace Geometry

variable {g : Geometry} {d d' d'' : Nat → UInt8}

theorem Allocated.append {l l' : List Block} (h : g.Allocated d l d') (h' : g.Allocated d' l' d'') :
    g.Allocated d (l ++ l') d'' where
  bam ok := h'.bam (h.bam ok)
  free c := by
    rw [h'.free, h.free]
    simp [Bool.and_assoc]
  rest a outside := (h'.rest a outside).trans (h.rest a outside)

end Geometry

namespace D64

theorem runSteps_append (xs ys : List (D64 → Bool × D64)) (s s' : D64) (first : runSteps xs s = (true, s')) :
    runSteps (xs ++ ys) s = runSteps ys s' := by
  induction xs generalizing s with
  | nil =>
    obtain rfl := (Prod.mk.inj first).2
    rfl
  | cons x xs ih =>
    cases run : x s with
    | mk r q =>
      cases r with
      | false =>
        simp only [runSteps, run, Bool.false_eq_true, if_false] at first
        cases (Prod.mk.inj first).1
      | true =>
        simp only [runSteps, run, if_true] at first
        simp only [List.cons_append, runSteps, run, if_true]
        exact ih q first

section reserve

variable (s : D64) (m : Mounted s) (steady : s.container.fault = none)
include m steady

theorem allocateBlock_steady (b : Block) (free : s.geo.free s.container.data b = true) :
    ∃ s' d', s.allocateBlock b = (true, s') ∧ Reaches s d' none s' ∧
      s.geo.Allocated s.container.data [b] d' := by
  obtain ⟨s', run, reach⟩ := allocateBlock_taken s m b free (by intro k _; rw [steady]; simp)
  rw [steady] at reach
  exact ⟨s', _, run, reach, .cons m.valid free (.refl _)⟩

theorem reserveBlock_done (b : Block) :
    ∃ s' d', reserveBlock b s = (true, s') ∧ Reaches s d' none s' ∧
      s.geo.Allocated s.container.data [b] d' := by
  obtain ⟨s₁, query, moved⟩ := isBlockFree_eq s m b
  cases free : s.geo.free s.container.data b with
  | false =>
    refine ⟨s₁, s.container.data, ?_, steady ▸ moved, id, ?_, fun _ _ => rfl⟩
    · simp only [reserveBlock, query, free, Bool.false_eq_true, if_false]
    · intro c
      by_cases same : c = b
      · rw [same, free]
        rfl
      · simp [same]
  | true =>
    obtain ⟨s₂, d', run, reach, allocated⟩ := allocateBlock_steady s₁ (moved.mounted m)
      (moved.fault.trans steady) b (by rw [moved.geo, moved.data]; exact free)
    rw [moved.geo, moved.data] at allocated
    refine ⟨s₂, d', ?_, moved.trans reach, allocated⟩
    simp only [reserveBlock, query, free, if_true]
    exact run

theorem reserve_all (bs : List Block) :
    ∃ s' d', runSteps (bs.map reserveBlock) s = (true, s') ∧ Reaches s d' none s' ∧
      s.geo.Allocated s.container.data bs d' := by
  induction bs generalizing s with
  | nil => exact ⟨s, _, rfl, .still s steady, .refl _⟩
  | cons b bs ih =>
    obtain ⟨s₁, d₁, run, reach, allocated⟩ := reserveBlock_done s m steady b
    obtain ⟨s₂, d₂, rest, reach₂, allocated₂⟩ := ih s₁ (reach.mounted m) reach.fault
    rw [reach.geo, reach.data] at allocated₂
    refine ⟨s₂, d₂, ?_, reach.trans reach₂, allocated.append allocated₂⟩
    simp only [List.map_cons, runSteps, run, if_true, rest]

/- The counts of side 2, one after the other. -/
theorem writeSide2Counts_done (ts : List Nat) (side : ∀ t ∈ ts, s.geo.Side2 t)
    (fresh : ∀ t, 1 ≤ t → t ≤ s.geo.last_track → s.geo.Fresh s.container.data t)
    (done : Nat → Prop)
    (before : ∀ t, s.geo.Side2 t → done t →
      (s.container.data (s.geo.side2Addr t)).toNat = s.geo.getSectorCount t) :
    ∃ s' d', writeSide2Counts ts s = (true, s') ∧ Reaches s d' none s' ∧
      (∀ t, 1 ≤ t → t ≤ s.geo.last_track → s.geo.Fresh d' t) ∧
      ∀ t, s.geo.Side2 t → (done t ∨ t ∈ ts) → (d' (s.geo.side2Addr t)).toNat = s.geo.getSectorCount t := by
  induction ts generalizing s done with
  | nil =>
    refine ⟨s, _, rfl, .still s steady, fresh, ?_⟩
    rintro t side (finished | member)
    · exact before t side finished
    · cases member
  | cons t ts ih =>
    have here := side t List.mem_cons_self
    have low : 1 ≤ t := Nat.le_trans (by decide) here.2.1
    have track := m.valid.track t low here.2.2
    obtain ⟨bare, small⟩ := track.side2 here
    obtain ⟨s₁, read, moved⟩ := readBAMRecord_inside s m t ⟨low, here.2.2⟩
    have count : s.getTrackFreeCount t = (s.geo.getSectorCount t, s₁) := by
      simp only [getTrackFreeCount, read, bare, Bool.false_eq_true, if_false]
      rw [Geometry.countBits_record track bare
        (fun x beyond => by rw [(fresh t low here.2.2).free track, decide_eq_false (by omega)]),
        (fresh t low here.2.2).freeCount track]
    have range := m.valid.side2 here.1
    have upper := here.2.2
    obtain ⟨s₂, write, reach, _⟩ := write_inside s₁ (moved.mounted m).toGrowing s.geo.headerBlock
      (by rw [moved.geo]; exact m.valid.header) (SIDE2_COUNT_OFFSET + (t - SIDE2_FIRST_TRACK))
      [UInt8.ofNat (s.geo.getSectorCount t)]
      (by
        unfold SIDE2_COUNT_OFFSET SIDE2_FIRST_TRACK
        rw [List.length_singleton]
        omega)
      (by rw [moved.fault, steady]; simp)
    have reach : Reaches s (Store.put s.container.data (s.geo.side2Addr t)
        [UInt8.ofNat (s.geo.getSectorCount t)]) none s₂ := by
      rw [moved.fault, steady, moved.data, moved.geo] at reach
      exact moved.trans reach
    have records : ∀ u, 1 ≤ u → u ≤ s.geo.last_track → s.geo.Fresh (Store.put s.container.data
        (s.geo.side2Addr t) [UInt8.ofNat (s.geo.getSectorCount t)]) u := by
      intro u hu hu'
      have apart := Geometry.side2Addr_apart m.valid here ⟨hu, hu'⟩
      unfold Geometry.Fresh Geometry.record
      rw [Store.read_put_disjoint _ _ _ _ _ (by rw [List.length_singleton]; omega)]
      exact fresh u hu hu'
    obtain ⟨s₃, d', rest, reach₃, fresh₃, counts⟩ := ih s₂ (reach.mounted m) reach.fault
      (by rw [reach.geo]; exact fun u hu => side u (List.mem_cons_of_mem _ hu))
      (by rw [reach.geo, reach.data]; exact records) (fun u => done u ∨ u = t) (by
        rw [reach.geo, reach.data]
        intro u sideU finished
        by_cases same : u = t
        · subst same
          have byte := Store.put_inside s.container.data (s.geo.side2Addr u)
            [UInt8.ofNat (s.geo.getSectorCount u)] 0 (by simp)
          rw [Nat.add_zero] at byte
          rw [byte, List.getElem_cons_zero, UInt8.toNat_ofNat']
          omega
        · have := sideU.2.1
          have := here.2.1
          rw [Store.put_outside _ _ _ _ (by
            unfold Geometry.side2Addr
            unfold SIDE2_FIRST_TRACK at *
            rw [List.length_singleton]
            omega)]
          exact before u sideU (finished.resolve_right same))
    rw [reach.geo] at fresh₃ counts
    refine ⟨s₃, d', ?_, reach.trans reach₃, fresh₃, ?_⟩
    · have seek := seek_accepted s₁ (moved.mounted m).valid s.geo.headerBlock
        (by rw [moved.geo]; exact m.valid.header) (SIDE2_COUNT_OFFSET + (t - SIDE2_FIRST_TRACK))
      have geo := moved.geo
      unfold Geometry.headerBlock at seek write
      rw [← geo] at seek write
      have step : s₁.writeSide2FreeCount t (s.geo.getSectorCount t) = (true, s₂) := by
        simp only [writeSide2FreeCount, m.valid.side2_offset here, seek, if_true]
        rw [geo] at write ⊢
        simp only [write]
        rfl
      simp only [writeSide2Counts, count, step, if_true, rest]
    · rintro u sideU (finished | member)
      · exact counts u sideU (.inl (.inl finished))
      · rcases List.mem_cons.mp member with rfl | later
        · exact counts u sideU (.inl (.inr rfl))
        · exact counts u sideU (.inr later)

end reserve

end D64

/- A byte of the BAM in the block of a map belongs to one of its records. -/
theorem Geometry.MapValid.area {g : Geometry} {bam : BlockAllocationMap} (h : g.MapValid bam) (v : g.Valid)
    (format : g.format ≠ .d71) {a : Nat} (area : g.BamArea a) :
    a < g.addr bam.block ∨ g.addr bam.block + 256 ≤ a ∨
      (g.addr bam.block + bam.offset ≤ a ∧ a < g.addr bam.block + bam.offset + bam.used) := by
  rcases area with ⟨t, ht, ht', lo, hi⟩ | ⟨t, side, _⟩
  · have track := v.track t ht ht'
    have inner := track.offset
    by_cases same : g.recordBlock t = bam.block
    · obtain ⟨lower, upper⟩ := h.only t ht ht' same
      obtain ⟨place, _, count⟩ := h.record t lower upper
      have last : (t - bam.start_track) * bam.byte_count + bam.byte_count ≤ bam.used := by
        unfold BlockAllocationMap.used
        rw [← Nat.succ_mul]
        exact Nat.mul_le_mul_right _ (by omega)
      omega
    · unfold Geometry.recordAddr at lo hi
      rcases track.inside.apart h.inside same with before | after <;> omega
  · exact absurd side.1 format

namespace D64

/- Writes around the records of the maps, as the 8050 and 8250 want them. -/
theorem writeBamBlockHeaders_done (maps : List BlockAllocationMap) (s : D64) (m : Growing s)
    (steady : s.container.fault = none) (format : s.geo.format ≠ .d71)
    (valid : ∀ bam ∈ maps, s.geo.MapValid bam ∧ 6 ≤ bam.offset) :
    ∃ s' d', writeBamBlockHeaders s.geo maps s = (true, s') ∧ Reaches s d' none s' ∧
      ∀ a, s.geo.BamArea a → d' a = s.container.data a := by
  induction maps generalizing s with
  | nil => exact ⟨s, _, rfl, .still s steady, fun _ _ => rfl⟩
  | cons bam maps ih =>
    obtain ⟨map, room⟩ := valid bam List.mem_cons_self
    have fits := map.fits
    let P : D64 → Prop := fun q => ∃ d, Reaches s d none q ∧ ∀ a, s.geo.BamArea a → d a = s.container.data a
    have write : ∀ (o : Nat) (bytes : List UInt8), o + bytes.length ≤ 256 →
        (o + bytes.length ≤ bam.offset ∨ bam.offset + bam.used ≤ o) → ∀ q, P q →
        ∃ q', writeAt bam.track bam.sector o bytes q = (true, q') ∧ P q' := by
      rintro o bytes short off q ⟨d, reach, same⟩
      obtain ⟨q', run, reach'⟩ := writeAt_inside q (reach.growing m) reach.fault bam.block
        (reach.geo.symm ▸ map.inside) o bytes short
      rw [reach.geo, reach.data] at reach'
      refine ⟨q', run, _, reach.trans reach', ?_⟩
      intro a area
      have away := map.area m.valid format area
      rw [Store.put_outside _ _ _ _ (by omega), same a area]
    have used : (bam.offset + (bam.end_track + 65537 - bam.start_track) % 65536 * bam.byte_count) % 65536 =
        bam.offset + bam.used := by
      have range := map.range
      have last := m.valid.last
      have tracks : (bam.end_track + 65537 - bam.start_track) % 65536 = bam.end_track + 1 - bam.start_track := by
        omega
      rw [tracks]
      exact Nat.mod_eq_of_lt (show bam.offset + bam.used < 65536 by omega)
    obtain ⟨s₁, run, d₁, reach, same⟩ := runSteps_keeps (P := P)
      (writeAt bam.track bam.sector 0 (bamHeader s.geo bam maps) ::
        if bam.offset + bam.used < block_size then
          [writeAt bam.track bam.sector (bam.offset + bam.used)
            (List.replicate (block_size - (bam.offset + bam.used)) 0)] else [])
      (by
        intro step member
        rcases List.mem_cons.mp member with rfl | member
        · exact write 0 _ (by simp [bamHeader]) (.inl (by simpa [bamHeader] using room))
        · split at member
          · obtain rfl := List.mem_singleton.mp member
            exact write _ _ (by rw [List.length_replicate]; unfold block_size; omega) (.inr (Nat.le_refl _))
          · cases member)
      s ⟨_, .still s steady, fun _ _ => rfl⟩
    obtain ⟨s₂, d₂, rest, reach₂, same₂⟩ := ih s₁ (reach.growing m) reach.fault
      (by rw [reach.geo]; exact format)
      (by rw [reach.geo]; exact fun b hb => valid b (List.mem_cons_of_mem _ hb))
    rw [reach.geo] at rest same₂
    rw [reach.data] at same₂
    refine ⟨s₂, d₂, ?_, reach.trans reach₂, fun a area => (same₂ a area).trans (same a area)⟩
    simp only [writeBamBlockHeaders, used, run, if_true, rest]

end D64

end Meatloaf.Disk
