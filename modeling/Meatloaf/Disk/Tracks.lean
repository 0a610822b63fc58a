import Meatloaf.Lib.Loop
import Meatloaf.Text.Numbers
import Meatloaf.Disk.Access
import Meatloaf.Disk.Blank

/-! Formatting with a track count of the caller's. The count replaces the end of the last map, the loop over the
tracks counts in a byte, and the name is copied into the header whatever its length. -/
namespace Meatloaf.Disk

open Lib

structure D64FormatSpec where
  name : Str
  id : Str
  track_count : Nat
  error_info : Bool

/- A field that `strtol` reads to its end; a `long` has 32 bits on the device. -/
def wholeNumber (field : Str) : Option Int :=
  let s := field.dropWhile isspace
  let signed := match s with
    | 0x2d :: s => (true, s)
    | 0x2b :: s => (false, s)
    | s => (false, s)
  let digits := signed.2.takeWhile isdigit
  let value : Int := readDigits 0 digits
  if digits = [] ∨ (signed.2.drop digits.length).headD 0 ≠ 0 then none
  else some (if signed.1 then max (-2 ^ 31) (-value) else min (2 ^ 31 - 1) value)

/-- `parseD64FormatSpec`: what follows a fourth comma is ignored. -/
def parseD64FormatSpec (header_info : Str) : D64FormatSpec :=
  let field (n : Nat) : Str := (header_info.splitOn 0x2c).getD n []
  let tracks := (wholeNumber (field 2)).getD 0
  { name := field 0
    id := field 1
    track_count := if 0 < tracks ∧ tracks ≤ 255 then tracks.toNat else 0
    error_info := (wholeNumber (field 3)).getD 0 ≠ 0 }

theorem parseD64FormatSpec_tracks (header_info : Str) : (parseD64FormatSpec header_info).track_count ≤ 255 := by
  simp only [parseD64FormatSpec]
  split <;> omega

/-- The last map ends at the track asked for; 0 asks for nothing. -/
def Geometry.withTracks (g : Geometry) (track_count : Nat) : Geometry :=
  if track_count = 0 then g
  else { g with
    block_allocation_map := g.block_allocation_map.dropLast ++
      (g.block_allocation_map.getLast?.map ({ · with end_track := track_count % 256 })).toList }

namespace D64

/- One pass of the loop over the tracks. -/
def fillTrack (g : Geometry) (t : Nat) : D64 → Bool × D64 :=
  runSteps (if t = g.header_track then []
    else (List.range (g.getSectorCount t % 256)).map fun x => writeAt t x 0 fillBlock)

/-- `initializeBlocks`, with at most `fuel` tests of its counter. -/
def fillTracks (g : Geometry) (fuel : Nat) : D64 → Option (Bool × D64) :=
  Loop.upward (fillTrack g) 256 g.last_track fuel 1

/- `formatImage` up to the header. The loop of a D71 over the tracks of its second side counts in a byte too, but
with 255 tracks there is no way past the first loop. -/
def layOut (fuel : Nat) (s : D64) : Option (Bool × D64) :=
  (fillTracks s.geo fuel s).map fun r => if r.1 then r.2.initializeBlockAllocationMap else r

/- The final byte of the image; error info takes one byte more for each block. -/
def padTracks (track_count : Nat) (error_info : Bool) (s : D64) : Bool × D64 :=
  let blocks := ((upTo 1 s.geo.last_track).map s.geo.getSectorCount).sum
  let data := if track_count = 0 ∧ s.container.size = 0 then s.geo.format.defaultImageSize else blocks * block_size
  let image_size := if error_info then data + blocks else data
  let r := { s with container := s.container.seek (image_size - 1) }.writeContainer [0x00]
  (r.1 == 1, r.2)

def asked (s : D64) (track_count : Nat) : D64 := { s with geo := s.geo.withTracks track_count }

/-- `formatImage`. -/
def formatTracks (fuel : Nat) (s : D64) (name id : Str) (track_count : Nat) (error_info : Bool) : Option (Bool × D64) :=
  (layOut fuel (s.asked track_count)).map fun r =>
    if r.1 then runSteps [fun s => s.writeHeader name id, initializeDirectory, padTracks track_count error_info] r.2
    else r

theorem runSteps_flatMap (f : Nat → List (D64 → Bool × D64)) (ts : List Nat) (s : D64) :
    runSteps (ts.flatMap f) s = Loop.passes (fun t => runSteps (f t)) ts s := by
  have both : ∀ (xs ys : List (D64 → Bool × D64)) s, runSteps (xs ++ ys) s =
      if (runSteps xs s).1 then runSteps ys (runSteps xs s).2 else (false, (runSteps xs s).2) := by
    intro xs ys
    induction xs with
    | nil => exact fun _ => rfl
    | cons x xs ih =>
      intro s
      simp only [List.cons_append, runSteps]
      split
      · exact ih _
      · rfl
  induction ts generalizing s with
  | nil => rfl
  | cons t ts ih =>
    simp only [List.flatMap_cons, both, ih, Loop.passes]

/-- Left to the format, and without error info, it is the formatting of the other modules. -/
theorem formatTracks_default (s : D64) (small : s.geo.last_track < 255) (name id : Str) :
    formatTracks 256 s name id 0 false = some (s.formatImage name id) := by
  have fill : fillTracks s.geo 256 s = some s.initializeBlocks := by
    have run : fillTracks s.geo 256 s = some (Loop.passes (fillTrack s.geo) (List.range' 1 s.geo.last_track) s) :=
      Loop.upward_ends (by omega) (Nat.le_add_left 1 _) s (by omega)
    rw [run, List.range'_eq_map_range]
    exact congrArg some (runSteps_flatMap _ _ s).symm
  have lay : layOut 256 (s.asked 0) =
      some (if s.initializeBlocks.1 then s.initializeBlocks.2.initializeBlockAllocationMap else s.initializeBlocks) := by
    have same : s.asked 0 = s := rfl
    rw [same, layOut, fill, Option.map_some]
  have pad : padTracks 0 false = padImage := by
    funext q
    simp only [padTracks, padImage, true_and, Bool.false_eq_true, if_false]
  unfold formatTracks
  rw [lay, Option.map_some, pad]
  simp only [formatImage, runSteps]
  cases blocks : s.initializeBlocks with
  | mk ok q =>
    cases ok with
    | false => rfl
    | true =>
      simp only [if_true]
      cases map : q.initializeBlockAllocationMap with
      | mk ok q => cases ok <;> rfl

/- A container that holds nothing yet. -/
def blank (f : Format) : D64 := D64.new f ⟨fun _ => 0, 0, 0, none⟩

/-- Formatting comes to an end, no byte is copied past the 23 of `header`, they are written at the offset of
the header, and the image keeps them: sixteen bytes of the name, filled up, and five of the id. -/
structure Labels (s : D64) (name id : Str) (track_count : Nat) (error_info : Bool) : Prop where
  contained : ∀ memory i, 23 ≤ i → headerMemory (toPETSCII2 name) (toPETSCII2 id) memory i = memory i
  written : ∃ fuel q ok s',
    let g := s.geo.withTracks track_count
    let a := g.addr g.headerBlock + g.header_offset
    layOut fuel (s.asked track_count) = some (true, q) ∧
      (q.seekSector g.header_track g.header_sector g.header_offset).2.container.pos = a ∧
      formatTracks fuel s name id track_count error_info = some (ok, s') ∧
      Store.read s'.container.data a 16 =
        (toPETSCII2 name).take 16 ++ List.replicate (16 - (toPETSCII2 name).length) 0xA0 ∧
      (toPETSCII2 id).take 5 <+: Store.read s'.container.data (a + 18) 5

section memory

variable {name id : Str}

/- A byte that is copied does not depend on what the memory held. -/
theorem headerMemory_indep {i : Nat} (copied : i < 23 ∨ i < name.length ∨ i < 18 + id.length)
    (memory memory' : Nat → UInt8) : headerMemory name id memory i = headerMemory name id memory' i := by
  have put : ∀ (m m' : Nat → UInt8) (a : Nat) (xs : List UInt8),
      (m i = m' i ∨ (a ≤ i ∧ i < a + xs.length)) → Store.put m a xs i = Store.put m' a xs i := by
    intro m m' a xs same
    by_cases inside : a ≤ i ∧ i < a + xs.length
    · obtain ⟨k, rfl⟩ : ∃ k, i = a + k := ⟨i - a, by omega⟩
      rw [Store.put_inside _ _ _ k (by omega), Store.put_inside _ _ _ k (by omega)]
    · rw [Store.put_outside _ _ _ _ (by omega), Store.put_outside _ _ _ _ (by omega)]
      exact same.resolve_right inside
  unfold headerMemory
  apply put
  by_cases late : 18 ≤ i ∧ i < 18 + id.length
  · exact .inr late
  · left
    apply put
    by_cases early : i < name.length
    · exact .inr ⟨Nat.zero_le i, by omega⟩
    · left
      apply put
      right
      simp only [List.length_append, List.length_replicate, List.length_cons, List.length_nil]
      omega

/-- The copies stay in the header when name and id are no longer than the rest of it. -/
theorem headerMemory_contained :
    (∀ memory i, 23 ≤ i → headerMemory name id memory i = memory i) ↔ name.length ≤ 23 ∧ id.length ≤ 5 := by
  constructor
  · intro contained
    by_contra long
    have same := @headerMemory_indep name id 23 (by omega) (fun _ => 0) (fun _ => 1)
    rw [contained _ 23 (Nat.le_refl _), contained _ 23 (Nat.le_refl _)] at same
    exact absurd same (by decide)
  · rintro ⟨short, short'⟩ memory i behind
    unfold headerMemory
    rw [Store.put_outside _ _ _ _ (by omega), Store.put_outside _ _ _ _ (by omega), Store.put_outside _ _ _ _ ?_]
    simp only [List.length_append, List.length_replicate, List.length_cons, List.length_nil]
    omega

theorem headerMemory_name (memory : Nat → UInt8) :
    Store.read (headerMemory name id memory) 0 16 = name.take 16 ++ List.replicate (16 - name.length) 0xA0 := by
  apply List.ext_getElem?
  intro i
  by_cases inside : i < 16
  · rw [Store.getElem?_read _ _ _ _ inside, Nat.zero_add]
    unfold headerMemory
    rw [Store.put_outside _ _ _ _ (by omega)]
    by_cases named : i < name.length
    · have byte := Store.put_inside (Store.put memory 0 (List.replicate 18 0xA0 ++ [0x30, 0x30, 0xA0, 0x32, 0x41])) 0
        name i named
      rw [Nat.zero_add] at byte
      rw [byte, List.getElem?_append_left (by rw [List.length_take]; omega), List.getElem?_take_of_lt inside,
        List.getElem?_eq_getElem named]
    · have byte := Store.put_inside memory 0 (List.replicate 18 (0xA0 : UInt8) ++ [0x30, 0x30, 0xA0, 0x32, 0x41]) i
        (by simp only [List.length_append, List.length_replicate]; omega)
      rw [Nat.zero_add] at byte
      rw [Store.put_outside _ _ _ _ (by omega), byte, List.getElem_append_left (by rw [List.length_replicate]; omega),
        List.getElem_replicate, List.getElem?_append_right (by rw [List.length_take]; omega), List.getElem?_replicate,
        if_pos (by rw [List.length_take]; omega)]
  · rw [List.getElem?_eq_none (by rw [Store.length_read]; omega), List.getElem?_eq_none]
    rw [List.length_append, List.length_take, List.length_replicate]
    omega

theorem headerMemory_id (memory : Nat → UInt8) :
    id.take 5 <+: Store.read (headerMemory name id memory) 18 5 := by
  rw [List.prefix_iff_eq_take]
  apply List.ext_getElem?
  intro i
  rw [List.length_take, Store.take_read]
  by_cases inside : i < 5 ∧ i < id.length
  · rw [List.getElem?_take_of_lt inside.1, List.getElem?_eq_getElem inside.2, Store.getElem?_read _ _ _ _ (by omega)]
    unfold headerMemory
    rw [Store.put_inside _ _ _ i inside.2]
  · rw [List.getElem?_eq_none (by rw [List.length_take]; omega),
      List.getElem?_eq_none (by rw [Store.length_read]; omega)]

end memory

/-- A stretch of the container holds these bytes, and no write is refused. -/
structure Carries (g : Geometry) (a : Nat) (bytes : List UInt8) (s : D64) : Prop where
  geo : s.geo = g
  steady : s.container.fault = none
  inside : a + bytes.length ≤ s.container.size
  data : Store.read s.container.data a bytes.length = bytes

namespace Carries

variable {g : Geometry} {a : Nat} {bytes : List UInt8} {s s' : D64}

theorem looks (h : Carries g a bytes s) (looks : Looks s s') : Carries g a bytes s' where
  geo := looks.geo.trans h.geo
  steady := looks.fault.trans h.steady
  inside := by
    rw [looks.size]
    exact h.inside
  data := by
    rw [looks.data]
    exact h.data

theorem at_ (h : Carries g a bytes s) (p t x : Nat) : Carries g a bytes (s.at_ p t x) :=
  ⟨h.geo, h.steady, h.inside, h.data⟩

/- A write beside the stretch. -/
theorem write (h : Carries g a bytes s) (xs : List UInt8)
    (beside : s.container.pos + xs.length ≤ a ∨ a + bytes.length ≤ s.container.pos) :
    (s.writeContainer xs).1 = xs.length ∧ (s.writeContainer xs).2.container.pos = s.container.pos + xs.length ∧
      Carries g a bytes (s.writeContainer xs).2 := by
  have taken := Container.write_taken s.container xs (by rw [h.steady]; simp)
  unfold writeContainer
  rw [taken]
  refine ⟨rfl, rfl, h.geo, ?_, Nat.le_trans h.inside (Nat.le_max_left _ _), ?_⟩
  · show s.container.fault.map (· - 1) = none
    rw [h.steady]
    rfl
  · show Store.read (Store.put (Container.extend _ _ _) _ _) _ _ = _
    rw [Store.read_put_disjoint _ _ _ _ _ (by omega)]
    refine (Store.read_congr ?_).trans h.data
    intro i within
    have inside := h.inside
    exact if_neg (by omega)

theorem writeBytes (h : Carries g a bytes s) (xs : List UInt8)
    (beside : s.container.pos + xs.length ≤ a ∨ a + bytes.length ≤ s.container.pos) :
    (D64.writeBytes xs s).1 = true ∧ (D64.writeBytes xs s).2.container.pos = s.container.pos + xs.length ∧
      Carries g a bytes (D64.writeBytes xs s).2 := by
  induction xs generalizing s with
  | nil => exact ⟨rfl, rfl, h⟩
  | cons x xs ih =>
    rw [List.length_cons] at beside
    obtain ⟨count, pos, kept⟩ := h.write [x] (by rw [List.length_singleton]; omega)
    rw [List.length_singleton] at count pos
    obtain ⟨done, pos', kept'⟩ := ih kept (by rw [pos]; omega)
    simp only [D64.writeBytes, count, ne_eq, one_ne_zero, not_false_eq_true, if_true]
    refine ⟨done, ?_, kept'⟩
    rw [pos', pos, List.length_cons]
    omega

/- A write of these bytes, wherever it goes. -/
theorem write_here (h : Carries g 0 [] s) (xs : List UInt8) :
    (s.writeContainer xs).1 = xs.length ∧ Carries g s.container.pos xs (s.writeContainer xs).2 := by
  have taken := Container.write_taken s.container xs (by rw [h.steady]; simp)
  unfold writeContainer
  rw [taken]
  refine ⟨rfl, h.geo, ?_, Nat.le_max_right _ _, Store.read_put_same _ _ _⟩
  show s.container.fault.map (· - 1) = none
  rw [h.steady]
  rfl

theorem seeks (h : Carries g a bytes s) {b : Block} {p : Nat} (start : g.blockStart b = some p) (o : Nat) :
    s.seekSector b.track b.sector o = (true, s.at_ (p + o) b.track b.sector) := by
  rw [← h.geo] at start
  exact seekSector_start s b o start

/- A write into a block. -/
theorem writeAt (h : Carries g a bytes s) {b : Block} {p : Nat} (start : g.blockStart b = some p) (o : Nat)
    (xs : List UInt8) (beside : p + o + xs.length ≤ a ∨ a + bytes.length ≤ p + o) :
    (D64.writeAt b.track b.sector o xs s).1 = true ∧
      (D64.writeAt b.track b.sector o xs s).2.container.pos = p + o + xs.length ∧
        Carries g a bytes (D64.writeAt b.track b.sector o xs s).2 := by
  have seek := h.seeks start o
  obtain ⟨count, pos, kept⟩ := (h.at_ (p + o) b.track b.sector).write xs beside
  simp only [D64.writeAt, seek, if_true, count, beq_self_eq_true, true_and]
  exact ⟨pos, kept⟩

end Carries

end D64

namespace Geometry

variable (g : Geometry) (a n : Nat)

/- The record of a track lies beside the stretch, and so does its split-off count. -/
structure Beside (t : Nat) : Prop where
  record : ∀ rec p, g.getBAMRecord t = some rec → g.blockStart ⟨rec.bam_track, rec.bam_sector⟩ = some p →
    p + rec.offset + rec.byte_count ≤ a ∨ a + n ≤ p + rec.offset
  count : g.format = .d71 → D64.SIDE2_FIRST_TRACK ≤ t → ∀ p, g.blockStart g.headerBlock = some p →
    let o := (D64.SIDE2_COUNT_OFFSET + (t - D64.SIDE2_FIRST_TRACK)) % 256
    p + o + 1 ≤ a ∨ a + n ≤ p + o

/- Nothing lies in an empty stretch. -/
theorem beside_nothing (t : Nat) : g.Beside 0 0 t := ⟨fun _ _ _ _ => .inr (by omega), fun _ _ _ _ => .inr (by omega)⟩

end Geometry

namespace D64

section records

variable {s s' : D64} {t : Nat} {rec : Geometry.BAMRecord} {buf : List UInt8}

theorem readBAMRecord_found (run : s.readBAMRecord t = (some (rec, buf), s')) :
    s.geo.getBAMRecord t = some rec ∧ (∃ p, s.geo.blockStart ⟨rec.bam_track, rec.bam_sector⟩ = some p) ∧
      buf.length = rec.byte_count := by
  unfold readBAMRecord at run
  split at run
  · cases (Prod.mk.inj run).1
  · rename_i r found
    cases start : s.geo.blockStart ⟨r.bam_track, r.bam_sector⟩ with
    | none =>
      rw [seekSector_none s ⟨r.bam_track, r.bam_sector⟩ r.offset start] at run
      cases (Prod.mk.inj run).1
    | some p =>
      rw [seekSector_start s ⟨r.bam_track, r.bam_sector⟩ r.offset start] at run
      dsimp only at run
      split at run
      · have same := (Prod.mk.inj run).1
        split at same
        · rename_i whole
          obtain ⟨rfl, rfl⟩ := Prod.mk.inj (Option.some.inj same)
          exact ⟨found, ⟨p, start⟩, whole⟩
        · cases same
      · cases (Prod.mk.inj run).1

/- What is read depends on the medium alone. -/
theorem readBAMRecord_again (looks : Looks s s') (t : Nat) : (s'.readBAMRecord t).1 = (s.readBAMRecord t).1 := by
  unfold readBAMRecord
  rw [looks.geo]
  split
  · rfl
  · rename_i r _
    cases start : s.geo.blockStart ⟨r.bam_track, r.bam_sector⟩ with
    | none =>
      have start' := start
      rw [← looks.geo] at start'
      rw [seekSector_none s ⟨r.bam_track, r.bam_sector⟩ r.offset start,
        seekSector_none s' ⟨r.bam_track, r.bam_sector⟩ r.offset start']
      rfl
    | some p =>
      have start' := start
      rw [← looks.geo] at start'
      rw [seekSector_start s ⟨r.bam_track, r.bam_sector⟩ r.offset start,
        seekSector_start s' ⟨r.bam_track, r.bam_sector⟩ r.offset start']
      simp only [if_true, readContainer, Container.read, D64.at_, Container.seek, looks.size, looks.data]
      rfl

theorem isBlockFree_glances (s : D64) (b : Block) : Glances s (s.isBlockFree b).2 := by
  have read := readBAMRecord_glances s b.track
  unfold isBlockFree
  split
  · rename_i run
    rw [run] at read
    exact read
  · rename_i run
    rw [run] at read
    exact read

end records

namespace Carries

variable {g : Geometry} {a : Nat} {bytes : List UInt8} {s : D64}

theorem seekSector (h : Carries g a bytes s) (t x o : Nat) : Carries g a bytes (s.seekSector t x o).2 :=
  h.looks (seekSector_glances s t x o).reads.looks

/- The record is written back whole. -/
theorem base (h : Carries g a bytes s) {t : Nat} (beside : g.Beside a bytes.length t) (x : Nat) (allocate : Bool) :
    Carries g a bytes (s.setBlockAllocationBase t x allocate).2 := by
  have kept := h.looks (readBAMRecord_glances s t).reads.looks
  unfold setBlockAllocationBase
  split
  · rename_i run
    rw [run] at kept
    exact kept
  · rename_i rec buf s' run
    rw [run] at kept
    obtain ⟨found, ⟨p, start⟩, length⟩ := readBAMRecord_found run
    rw [h.geo] at found start
    have clear := beside.record rec p found start
    rw [← kept.geo] at start
    have both : (if allocate then recordAllocate rec buf x else recordRelease rec buf x).length = rec.byte_count := by
      cases allocate
      · exact (Geometry.length_recordRelease _ _ _).trans length
      · exact (Geometry.length_recordAllocate _ _ _).trans length
    split
    · exact kept
    · split
      · exact kept
      · split
        · exact kept
        · rw [seekSector_start s' ⟨rec.bam_track, rec.bam_sector⟩ rec.offset start]
          refine ((kept.at_ (p + rec.offset) rec.bam_track rec.bam_sector).write _ ?_).2.2
          rw [both]
          exact clear

theorem side2 (h : Carries g a bytes s) {t : Nat} (beside : g.Beside a bytes.length t) (native : g.format = .d71)
    (behind : SIDE2_FIRST_TRACK ≤ t) (count : Nat) :
    Carries g a bytes (s.writeSide2FreeCount t count).2 ∧
      (∀ p, g.blockStart g.headerBlock = some p → (s.writeSide2FreeCount t count).1 = true) := by
  cases start : g.blockStart g.headerBlock with
  | none =>
    have start' := start
    rw [← h.geo] at start'
    have seek := seekSector_none s s.geo.headerBlock
      ((SIDE2_COUNT_OFFSET + (t - SIDE2_FIRST_TRACK)) % 256) start'
    unfold Geometry.headerBlock at seek
    simp only [writeSide2FreeCount, seek]
    exact ⟨h, by simp⟩
  | some p =>
    have clear := beside.count native behind p start
    rw [← h.geo] at start
    have seek := seekSector_start s s.geo.headerBlock ((SIDE2_COUNT_OFFSET + (t - SIDE2_FIRST_TRACK)) % 256) start
    unfold Geometry.headerBlock at seek
    obtain ⟨one, -, kept⟩ := (h.at_ (p + (SIDE2_COUNT_OFFSET + (t - SIDE2_FIRST_TRACK)) % 256) s.geo.header_track
      s.geo.header_sector).write [UInt8.ofNat count] clear
    simp only [writeSide2FreeCount, seek, if_true, one, List.length_singleton]
    exact ⟨kept, fun _ _ => rfl⟩

theorem change (h : Carries g a bytes s) {t : Nat} (beside : g.Beside a bytes.length t) (x : Nat) (allocate : Bool) :
    Carries g a bytes (s.setBlockAllocation t x allocate).2 := by
  have kept := h.base beside x allocate
  unfold setBlockAllocation
  split
  · rename_i native
    rw [h.geo] at native
    dsimp only
    split
    · split
      · exact kept
      · rename_i behind
        exact ((kept.looks (getTrackFreeCount_glances _ t).reads.looks).side2 beside native (by omega) _).1
    · exact kept
  · exact kept

/-- A block found free is reserved. -/
theorem reserve (h : Carries g a bytes s) {b : Block} (beside : g.Beside a bytes.length b.track) :
    Carries g a bytes (reserveBlock b s).2 ∧
      ((g.format = .d71 → ∃ p, g.blockStart g.headerBlock = some p) → (reserveBlock b s).1 = true) := by
  have look := (isBlockFree_glances s b).reads.looks
  have seen := h.looks look
  unfold reserveBlock
  dsimp only
  split
  · rename_i free
    refine ⟨seen.change beside b.sector true, fun header => ?_⟩
    -- the record is read again as it was
    have again := readBAMRecord_again look b.track
    unfold isBlockFree at free
    split at free
    · cases free
    · rename_i rec buf s₁ run
      rw [run] at again
      obtain ⟨represented, bit⟩ := Bool.and_eq_true_iff.mp free
      have represented := of_decide_eq_true represented
      obtain ⟨found, ⟨p, start⟩, length⟩ := readBAMRecord_found run
      have based : ((s.isBlockFree b).2.setBlockAllocationBase b.track b.sector true).1 = true := by
        unfold setBlockAllocationBase
        split
        · rename_i none
          rw [none] at again
          cases again
        · rename_i rec' buf' s₂ run'
          rw [run'] at again
          obtain ⟨rfl, rfl⟩ := Prod.mk.inj (Option.some.inj again)
          have kept := seen.looks (readBAMRecord_glances _ b.track).reads.looks
          rw [run'] at kept
          rw [h.geo, ← kept.geo] at start
          have clear := beside.record rec' p (by rw [← h.geo]; exact found) (by rw [← kept.geo]; exact start)
          have whole := (Geometry.length_recordAllocate rec' buf' b.sector).trans length
          have write := ((kept.at_ (p + rec'.offset) rec'.bam_track rec'.bam_sector).write
            (recordAllocate rec' buf' b.sector) (by rw [whole]; exact clear)).1
          rw [if_neg (Nat.not_le_of_lt represented), bit]
          simp only [Bool.not_true, Bool.and_false, Bool.false_eq_true, if_false, Bool.false_and,
            seekSector_start s₂ ⟨rec'.bam_track, rec'.bam_sector⟩ rec'.offset start, if_true, write, whole,
            beq_self_eq_true]
      unfold setBlockAllocation
      split
      · rename_i native
        rw [seen.geo] at native
        obtain ⟨p, start⟩ := header native
        simp only [based, if_true]
        split
        · rfl
        · rename_i behind
          exact (((seen.base beside b.sector true).looks (getTrackFreeCount_glances _ b.track).reads.looks).side2 beside
            native (by omega) _).2 p start
      · exact based
  · exact ⟨seen, fun _ => rfl⟩

end Carries

end D64

namespace Geometry

variable (g : Geometry)

/- The record of a track is apart from the header. -/
def RecordApart (t : Nat) : Prop :=
  ∀ rec ∈ g.getBAMRecord t, g.Inside ⟨rec.bam_track, rec.bam_sector⟩ ∧ rec.offset + rec.byte_count ≤ 256 ∧
    ((⟨rec.bam_track, rec.bam_sector⟩ : Block) ≠ g.headerBlock ∨ rec.offset + rec.byte_count ≤ g.header_offset ∨
      g.header_offset + 23 ≤ rec.offset)

instance (t : Nat) : Decidable (g.RecordApart t) := by unfold RecordApart; infer_instance

/- The tracks whose records formatting changes behind the header. -/
def systemTracks : List Nat := g.block_allocation_map.map (·.track) ++ [g.header_track, g.directory_track]

/-- What formatting asks of the tables, whatever track the last map ends at. -/
structure Ready : Prop where
  first : g.first_track = 1
  last : g.last_track + 1 < 256
  header : g.Inside g.headerBlock
  directory : g.Inside g.directoryStart ∧ g.directoryStart ≠ g.headerBlock ∧ g.directory_offset = 0
  title : 3 ≤ g.header_offset ∧ g.header_offset + 23 < 256
  maps : g.format = .d80 ∨ g.format = .d82 → ∀ bam ∈ g.block_allocation_map, g.Inside bam.block
  records : ∀ t ∈ g.systemTracks, g.RecordApart t
  counts : g.format = .d71 → ∀ t ∈ g.systemTracks, D64.SIDE2_FIRST_TRACK ≤ t →
    g.header_offset + 23 ≤ (D64.SIDE2_COUNT_OFFSET + (t - D64.SIDE2_FIRST_TRACK)) % 256

/- `Ready` as a test. -/
def readyCheck : Bool :=
  decide (g.first_track = 1) && (decide (g.last_track + 1 < 256) && (decide (g.Inside g.headerBlock) &&
  (decide (g.Inside g.directoryStart ∧ g.directoryStart ≠ g.headerBlock ∧ g.directory_offset = 0) &&
  (decide (3 ≤ g.header_offset ∧ g.header_offset + 23 < 256) &&
  (decide (g.format = .d80 ∨ g.format = .d82 → ∀ bam ∈ g.block_allocation_map, g.Inside bam.block) &&
  (decide (∀ t ∈ g.systemTracks.dedup, g.RecordApart t) &&
  decide (g.format = .d71 → ∀ t ∈ g.systemTracks.dedup, D64.SIDE2_FIRST_TRACK ≤ t →
    g.header_offset + 23 ≤ (D64.SIDE2_COUNT_OFFSET + (t - D64.SIDE2_FIRST_TRACK)) % 256)))))))

theorem ready_of_check (check : g.readyCheck = true) : g.Ready := by
  simp only [readyCheck, Bool.and_eq_true, decide_eq_true_eq, List.mem_dedup] at check
  obtain ⟨c1, c2, c3, c4, c5, c6, c7, c8⟩ := check
  exact ⟨c1, c2, c3, c4, c5, c6, c7, c8⟩

variable {g}

theorem Inside.blockStart {b : Block} (inside : g.Inside b) (first : g.first_track = 1) :
    g.blockStart b = some (g.addr b) := by
  obtain ⟨low, high, sector⟩ := inside
  unfold Geometry.blockStart Geometry.linearBlock
  rw [if_neg (by omega), if_neg (by omega), Option.map_some, addr_eq]
  rfl

theorem blockStart_beyond {b : Block} (beyond : g.last_track < b.track) : g.blockStart b = none := by
  unfold Geometry.blockStart Geometry.linearBlock
  rw [if_pos (.inr beyond)]
  rfl

/- Only the end of the last map changes. -/
theorem withTracks_some {maps : List BlockAllocationMap} {bam : BlockAllocationMap} {n : Nat} (some : n ≠ 0)
    (small : n < 256) (split : g.block_allocation_map = maps ++ [bam]) :
    g.withTracks n = { g with block_allocation_map := maps ++ [{ bam with end_track := n }] } := by
  simp [Geometry.withTracks, some, split, Nat.mod_eq_of_lt small]

/-- The tables stay ready when the last map grows, once it covers the tracks of the system. -/
theorem Ready.longer {m n : Nat} (some : m ≠ 0) (longer : m ≤ n) (small : n < 255)
    (covered : ∀ t ∈ g.systemTracks, t ≤ m) (ready : (g.withTracks m).Ready) : (g.withTracks n).Ready := by
  rcases List.eq_nil_or_concat' g.block_allocation_map with empty | ⟨maps, bam, split⟩
  · have := ready.first
    simp [Geometry.withTracks, some, empty, Geometry.first_track] at this
  rw [withTracks_some some (by omega) split] at ready
  rw [withTracks_some (by omega) (by omega) split]
  have ends (k : Nat) : last_track { g with block_allocation_map := maps ++ [{ bam with end_track := k }] } = k := by
    simp [last_track]
  have inside {b : Block} (there : Inside { g with block_allocation_map := maps ++ [{ bam with end_track := m }] } b) :
      Inside { g with block_allocation_map := maps ++ [{ bam with end_track := n }] } b := by
    obtain ⟨low, high, sector⟩ := there
    rw [ends] at high
    exact ⟨low, by rw [ends]; omega, sector⟩
  have tracks (k : Nat) : systemTracks { g with block_allocation_map := maps ++ [{ bam with end_track := k }] } =
      g.systemTracks := by
    simp [systemTracks, split]
  have record {t : Nat} (system : t ≤ m) :
      getBAMRecord { g with block_allocation_map := maps ++ [{ bam with end_track := n }] } t =
        getBAMRecord { g with block_allocation_map := maps ++ [{ bam with end_track := m }] } t := by
    simp only [getBAMRecord, List.find?_append]
    cases maps.find? fun bam => decide (bam.start_track ≤ t ∧ t ≤ bam.end_track) with
    | some found => rfl
    | none =>
      by_cases start : bam.start_track ≤ t
      · have := system.trans longer
        simp only [List.find?_singleton, start, system, this, and_self, decide_true, if_true]
        rfl
      · simp [start]
  exact {
    first := by
      have first := ready.first
      cases maps with
      | nil => exact first
      | cons bam' maps => exact first
    last := by rw [ends]; omega
    header := inside ready.header
    directory := ⟨inside ready.directory.1, ready.directory.2⟩
    title := ready.title
    maps := by
      intro format bam' member
      rcases List.mem_append.mp member with before | last
      · exact inside (ready.maps format bam' (List.mem_append_left _ before))
      · obtain rfl := List.mem_singleton.mp last
        exact inside (ready.maps format { bam with end_track := m } (List.mem_append_right _ (List.mem_singleton_self _)))
    records := by
      intro t member rec found
      rw [tracks] at member
      rw [record (covered t member)] at found
      obtain ⟨there, rest⟩ := ready.records t (by rwa [tracks]) rec found
      exact ⟨inside there, rest⟩
    counts := by
      have := ready.counts
      rw [tracks] at this ⊢
      exact this }

/- What changes behind the header stays out of it. -/
theorem Ready.beside (ready : g.Ready) {t : Nat} (member : t ∈ g.systemTracks) :
    g.Beside (g.addr g.headerBlock + g.header_offset) 23 t := by
  have title := ready.title
  constructor
  · intro rec p found start
    obtain ⟨inside, fits, off⟩ := ready.records t member rec found
    rw [inside.blockStart ready.first] at start
    obtain rfl := Option.some.inj start
    by_cases here : (⟨rec.bam_track, rec.bam_sector⟩ : Block) = g.headerBlock
    · have off := off.resolve_left (fun other => other here)
      rw [here]
      omega
    · rcases inside.apart ready.header here with before | after <;> omega
  · intro native behind p start
    rw [ready.header.blockStart ready.first] at start
    obtain rfl := Option.some.inj start
    have off := ready.counts native t member behind
    dsimp only
    omega

end Geometry

namespace D64

namespace Carries

variable {g : Geometry} {a : Nat} {bytes : List UInt8} {s : D64}

/- Steps that all succeed, and what comes after them. -/
theorem steps (h : Carries g a bytes s) (steps : List (D64 → Bool × D64))
    (each : ∀ step ∈ steps, ∀ q, Carries g a bytes q → (step q).1 = true ∧ Carries g a bytes (step q).2) :
    (runSteps steps s).1 = true ∧ Carries g a bytes (runSteps steps s).2 := by
  obtain ⟨q, run, kept⟩ := runSteps_keeps (P := Carries g a bytes) steps
    (fun step member q carries => ⟨_, Prod.ext (each step member q carries).1 rfl, (each step member q carries).2⟩) s h
  rw [run]
  exact ⟨rfl, kept⟩

theorem after (h : Carries g a bytes s) {steps : List (D64 → Bool × D64)} {next : D64 → Bool × D64}
    (each : ∀ step ∈ steps, ∀ q, Carries g a bytes q → (step q).1 = true ∧ Carries g a bytes (step q).2)
    (last : ∀ q, Carries g a bytes q → (next q).1 = true ∧ Carries g a bytes (next q).2) :
    let r := runSteps steps s
    let r' := if r.1 then next r.2 else (false, r.2)
    r'.1 = true ∧ Carries g a bytes r'.2 := by
  obtain ⟨done, kept⟩ := h.steps steps each
  simp only [done, if_true]
  exact last _ kept

/- Steps of which one may fail. -/
theorem along (h : Carries g a bytes s) (steps : List (D64 → Bool × D64))
    (each : ∀ step ∈ steps, ∀ q, Carries g a bytes q → Carries g a bytes (step q).2) :
    Carries g a bytes (runSteps steps s).2 := by
  induction steps generalizing s with
  | nil => exact h
  | cons step steps ih =>
    have kept := each step List.mem_cons_self s h
    simp only [runSteps]
    split
    · exact ih kept fun next member => each next (List.mem_cons_of_mem _ member)
    · exact kept

end Carries

section layout

variable {g : Geometry} {s : D64} (ready : g.Ready) (h : Carries g 0 [] s)
include ready h

omit ready in
theorem fillTrack_laid (first : g.first_track = 1) {t : Nat} (range : 1 ≤ t ∧ t ≤ g.last_track) :
    (fillTrack g t s).1 = true ∧ Carries g 0 [] (fillTrack g t s).2 := by
  apply h.steps
  intro step member q carries
  split at member
  · cases member
  · obtain ⟨x, sector, rfl⟩ := List.mem_map.mp member
    have inside : g.Inside ⟨t, x⟩ :=
      ⟨range.1, range.2, Nat.lt_of_lt_of_le (List.mem_range.mp sector) (Nat.mod_le _ _)⟩
    obtain ⟨done, -, kept⟩ := carries.writeAt (inside.blockStart first) 0 fillBlock (.inr (Nat.zero_le _))
    exact ⟨done, kept⟩

theorem fillTracks_laid : ∃ q, fillTracks g 256 s = some (true, q) ∧ Carries g 0 [] q := by
  have last := ready.last
  have run : fillTracks g 256 s = some (Loop.passes (fillTrack g) (List.range' 1 (g.last_track + 1 - 1)) s) :=
    Loop.upward_ends last (Nat.le_add_left 1 _) s (by omega)
  obtain ⟨done, kept⟩ := Loop.passes_keeps (P := Carries g 0 [])
    (List.range' 1 (g.last_track + 1 - 1)) (by
      intro t member q carries
      have range := List.mem_range'_1.mp member
      exact fillTrack_laid carries ready.first ⟨range.1, by omega⟩) h
  exact ⟨_, run.trans (congrArg some (Prod.ext done rfl)), kept⟩

omit ready in
theorem initializeMaps_laid (maps : List BlockAllocationMap) :
    (initializeMaps maps s).1 = true ∧ Carries g 0 [] (initializeMaps maps s).2 := by
  induction maps generalizing s with
  | nil => exact ⟨rfl, h⟩
  | cons bam maps ih =>
    have moved := h.seekSector bam.track bam.sector bam.offset
    obtain ⟨done, -, kept⟩ := moved.writeBytes
      ((upTo bam.start_track bam.end_track).flatMap fun t => freeRecord s.geo bam.byte_count t) (.inr (Nat.zero_le _))
    simp only [initializeMaps, done, if_true]
    exact ih kept

theorem writeBamBlockHeaders_laid (maps : List BlockAllocationMap) (inside : ∀ bam ∈ maps, g.Inside bam.block) :
    (writeBamBlockHeaders g maps s).1 = true ∧ Carries g 0 [] (writeBamBlockHeaders g maps s).2 := by
  induction maps generalizing s with
  | nil => exact ⟨rfl, h⟩
  | cons bam maps ih =>
    have start := (inside bam List.mem_cons_self).blockStart ready.first
    have write : ∀ o xs q, Carries g 0 [] q → (D64.writeAt bam.track bam.sector o xs q).1 = true ∧
        Carries g 0 [] (D64.writeAt bam.track bam.sector o xs q).2 := by
      intro o xs q carries
      obtain ⟨done, -, kept⟩ := carries.writeAt start o xs (.inr (Nat.zero_le _))
      exact ⟨done, kept⟩
    unfold writeBamBlockHeaders
    apply h.after
    · intro step member
      rcases List.mem_cons.mp member with rfl | later
      · exact write _ _
      · split at later
        · rw [List.mem_singleton.mp later]
          exact write _ _
        · cases later
    · exact fun q kept => ih kept fun b member => inside b (List.mem_cons_of_mem _ member)

theorem writeSide2Counts_laid (native : g.format = .d71) (ts : List Nat) (behind : ∀ t ∈ ts, SIDE2_FIRST_TRACK ≤ t) :
    (writeSide2Counts ts s).1 = true ∧ Carries g 0 [] (writeSide2Counts ts s).2 := by
  induction ts generalizing s with
  | nil => exact ⟨rfl, h⟩
  | cons t ts ih =>
    have counted := h.looks (getTrackFreeCount_glances s t).reads.looks
    obtain ⟨kept, done⟩ := counted.side2 (g.beside_nothing t) native (behind t List.mem_cons_self)
      (s.getTrackFreeCount t).1
    simp only [writeSide2Counts, done _ (ready.header.blockStart ready.first), if_true]
    exact ih kept fun u member => behind u (List.mem_cons_of_mem _ member)

theorem reserve_laid (bs : List Block) :
    (runSteps (bs.map reserveBlock) s).1 = true ∧ Carries g 0 [] (runSteps (bs.map reserveBlock) s).2 := by
  apply h.steps
  intro step member q carries
  obtain ⟨b, -, rfl⟩ := List.mem_map.mp member
  obtain ⟨kept, done⟩ := carries.reserve (g.beside_nothing b.track)
  exact ⟨done fun _ => ⟨_, ready.header.blockStart ready.first⟩, kept⟩

theorem initializeBlockAllocationMap_laid :
    s.initializeBlockAllocationMap.1 = true ∧ Carries g 0 [] s.initializeBlockAllocationMap.2 := by
  obtain ⟨done, kept⟩ := initializeMaps_laid h g.block_allocation_map
  unfold initializeBlockAllocationMap
  simp only [h.geo, done, if_true]
  split
  · exact ⟨done, kept⟩
  · exact ⟨done, kept⟩
  · rename_i format
    exact writeBamBlockHeaders_laid ready kept _ (ready.maps (.inl format))
  · rename_i format
    exact writeBamBlockHeaders_laid ready kept _ (ready.maps (.inr format))
  · rename_i native
    obtain ⟨done', kept'⟩ := writeSide2Counts_laid ready kept native (upTo SIDE2_FIRST_TRACK g.last_track)
      (fun t member => (Geometry.mem_upTo.mp member).1)
    simp only [done', if_true]
    have all := reserve_laid ready kept' ((List.range (g.getSectorCount
      ((g.block_allocation_map.getLast?.map (·.track)).getD 0))).map
        fun x => ⟨(g.block_allocation_map.getLast?.map (·.track)).getD 0, x⟩)
    rw [List.map_map] at all
    exact all
  · have all := reserve_laid ready kept ((List.range 34).map fun x => ⟨g.header_track, x⟩)
    rw [List.map_map] at all
    exact all

theorem writeHeader_laid (name id : Str) :
    let a := g.addr g.headerBlock + g.header_offset
    (s.seekSector g.header_track g.header_sector g.header_offset).2.container.pos = a ∧
      (s.writeHeader name id).1 = true ∧
        Carries g a (headerBytes (toPETSCII2 name) (toPETSCII2 id)) (s.writeHeader name id).2 := by
  have seek := h.seeks (ready.header.blockStart ready.first) g.header_offset
  unfold Geometry.headerBlock at seek
  obtain ⟨count, kept⟩ := (h.at_ (g.addr g.headerBlock + g.header_offset) g.header_track g.header_sector).write_here
    (headerBytes (toPETSCII2 name) (toPETSCII2 id))
  unfold Geometry.headerBlock at count kept ⊢
  unfold writeHeader
  simp only [h.geo, seek, count, beq_self_eq_true, true_and]
  exact ⟨rfl, kept⟩

end layout

section behind

variable {g : Geometry} {bytes : List UInt8} {s : D64} (ready : g.Ready) (length : bytes.length = 23)
  (h : Carries g (g.addr g.headerBlock + g.header_offset) bytes s)
include ready length h

/- The directory is laid down around the header. -/
theorem initializeDirectory_beside :
    Carries g (g.addr g.headerBlock + g.header_offset) bytes s.initializeDirectory.2 := by
  have title := ready.title
  have apart := ready.header.apart ready.directory.1 (Ne.symm ready.directory.2.1)
  have startH := ready.header.blockStart ready.first
  have startD := ready.directory.1.blockStart ready.first
  have beside : ∀ t ∈ g.systemTracks, g.Beside (g.addr g.headerBlock + g.header_offset) bytes.length t := by
    rw [length]
    exact fun t => ready.beside
  have seekH := h.seeks startH 0
  obtain ⟨linked, -, h₁⟩ := (h.at_ (g.addr g.headerBlock + 0) g.header_track g.header_sector).writeBytes
    [UInt8.ofNat g.directory_track, UInt8.ofNat g.directory_sector, g.format.dos_version]
    (.inl (show g.addr g.headerBlock + 0 + 3 ≤ _ by omega))
  have seekD := h₁.seeks startD 0
  obtain ⟨begun, pos, h₂⟩ := (h₁.at_ (g.addr g.directoryStart + 0) g.directory_track g.directory_sector).writeBytes
    [0x00, 0xFF] (by
      show g.addr g.directoryStart + 0 + 2 ≤ _ ∨ _ ≤ g.addr g.directoryStart + 0
      omega)
  have here : ∀ p, (p : D64).container.pos = g.addr g.directoryStart + 0 + 2 →
      p.container.pos + (List.replicate (block_size - 2) (0 : UInt8)).length ≤ g.addr g.headerBlock + g.header_offset ∨
        g.addr g.headerBlock + g.header_offset + bytes.length ≤ p.container.pos := by
    intro p at_
    rw [at_, List.length_replicate]
    unfold block_size
    omega
  obtain ⟨cleared, -, h₃⟩ := h₂.write (List.replicate (block_size - 2) 0) (here _ pos)
  unfold Geometry.headerBlock at seekH linked h₁ seekD begun h₂ cleared h₃
  unfold Geometry.directoryStart at seekD begun h₂ cleared h₃
  unfold initializeDirectory
  simp only [h.geo, seekH, if_true]
  unfold Geometry.headerBlock
  simp only [linked, ready.directory.2.2, if_true, seekD, begun, cleared]
  apply h₃.along
  intro step member q carries
  rcases List.mem_append.mp member with maps | last
  · obtain ⟨bam, listed, rfl⟩ := List.mem_map.mp maps
    exact (carries.reserve (beside _ (List.mem_append_left _ (List.mem_map_of_mem listed)))).1
  · rcases List.mem_cons.mp last with rfl | last
    · exact (carries.reserve (beside _ (by simp [Geometry.systemTracks]))).1
    · rw [List.mem_singleton.mp last]
      exact carries.change (beside _ (by simp [Geometry.systemTracks])) _ _

/- The last byte of the image is not one of the header. -/
theorem padTracks_beside (track_count : Nat) (error_info : Bool) :
    Carries g (g.addr g.headerBlock + g.header_offset) bytes (s.padTracks track_count error_info).2 := by
  obtain rfl := h.geo
  have title := ready.title
  have ends := ready.header.addr_end
  have filled : s.container.size ≠ 0 := by
    have := h.inside
    omega
  have blocks := blocks_eq s.geo
  have seek : Carries s.geo (s.geo.addr s.geo.headerBlock + s.geo.header_offset) bytes
      { s with container := s.container.seek ((if error_info then s.geo.blockCount * 256 + s.geo.blockCount
        else s.geo.blockCount * 256) - 1) } := ⟨rfl, h.steady, h.inside, h.data⟩
  have write := (seek.write [0x00] (.inr (by
    show _ ≤ (if error_info then s.geo.blockCount * 256 + s.geo.blockCount else s.geo.blockCount * 256) - 1
    split <;> omega))).2.2
  unfold padTracks
  simp only [blocks, filled, and_false, if_false, block_size]
  exact write

end behind

/-- The header is laid down and kept wherever the tables are ready. -/
theorem formatTracks_labels {s : D64} (steady : s.container.fault = none) {track_count : Nat}
    (ready : (s.geo.withTracks track_count).Ready) {name id : Str} (short : (toPETSCII2 name).length ≤ 23)
    (short' : (toPETSCII2 id).length ≤ 5) (error_info : Bool) : s.Labels name id track_count error_info := by
  have start : Carries (s.geo.withTracks track_count) 0 [] (s.asked track_count) :=
    ⟨rfl, steady, Nat.zero_le _, rfl⟩
  obtain ⟨q₁, fill, h₁⟩ := fillTracks_laid ready start
  obtain ⟨done, h₂⟩ := initializeBlockAllocationMap_laid ready h₁
  obtain ⟨place, written, h₃⟩ := writeHeader_laid ready h₂ name id
  have lay : layOut 256 (s.asked track_count) = some (true, q₁.initializeBlockAllocationMap.2) := by
    unfold layOut
    rw [show (s.asked track_count).geo = s.geo.withTracks track_count from rfl, fill]
    exact congrArg some (Prod.ext done rfl)
  have rest := h₃.along [initializeDirectory, padTracks track_count error_info] (by
    intro step member q carries
    rcases List.mem_cons.mp member with rfl | last
    · exact initializeDirectory_beside ready (length_headerBytes _ _) carries
    · rw [List.mem_singleton.mp last]
      exact padTracks_beside ready (length_headerBytes _ _) carries track_count error_info)
  have run : formatTracks 256 s name id track_count error_info = some
      (runSteps [initializeDirectory, padTracks track_count error_info]
        (q₁.initializeBlockAllocationMap.2.writeHeader name id).2) := by
    unfold formatTracks
    rw [lay, Option.map_some, if_pos rfl, runSteps, written, if_pos rfl]
  generalize runSteps [initializeDirectory, padTracks track_count error_info]
    (q₁.initializeBlockAllocationMap.2.writeHeader name id).2 = r at rest run
  have head := rest.data
  rw [length_headerBytes] at head
  refine ⟨headerMemory_contained.mpr ⟨short, short'⟩, 256, _, r.1, r.2, lay, place, run, ?_, ?_⟩
  · rw [← @headerMemory_name _ (toPETSCII2 id) (fun _ => 0)]
    have first := congrArg (List.take 16) head
    rw [headerBytes, Store.take_read, Store.take_read] at first
    exact first
  · have last := congrArg (List.drop 18) head
    rw [headerBytes, Store.drop_read _ _ _ _ (by decide), Store.drop_read _ _ _ _ (by decide)] at last
    rw [show (5 : Nat) = 23 - 18 from rfl, last]
    exact headerMemory_id _

end D64

namespace Geometry

variable (g : Geometry)

/- Where the container stands once the maps have been written behind the last track. -/
def mapsEnd : Nat :=
  g.sectorOffset (g.last_track + 1) * 256 + (g.block_allocation_map.map BlockAllocationMap.used).sum

/- The medium ends before the track of the header, and the header ends up elsewhere. -/
structure Missed : Prop where
  first : g.first_track = 1
  last : 1 ≤ g.last_track ∧ g.last_track + 1 < 256 ∧ g.last_track < g.header_track
  sectors : 0 < g.getSectorCount g.last_track ∧ g.getSectorCount g.last_track < 256
  maps : g.format = .d64 ∨ g.format = .d71 ∨ g.format = .d81 → (∀ bam ∈ g.block_allocation_map,
    g.blockStart bam.block = none ∧ 0 < bam.byte_count) ∧ g.mapsEnd ≠ g.addr g.headerBlock + g.header_offset
  side2 : g.format = .d71 → g.last_track < D64.SIDE2_FIRST_TRACK ∧
    g.getBAMRecord ((g.block_allocation_map.getLast?.map (·.track)).getD 0) = none
  links : g.format = .d80 ∨ g.format = .d82 → g.block_allocation_map ≠ [] ∧ ∀ bam ∈ g.block_allocation_map,
    ∀ p ∈ g.blockStart bam.block, p + 256 < g.addr g.headerBlock + g.header_offset
  other : g.format ≠ .dnp

/- `Missed` as a test. -/
def missedCheck : Bool :=
  decide (g.first_track = 1) &&
  (decide (1 ≤ g.last_track ∧ g.last_track + 1 < 256 ∧ g.last_track < g.header_track) &&
  (decide (0 < g.getSectorCount g.last_track ∧ g.getSectorCount g.last_track < 256) &&
  (decide (g.format = .d64 ∨ g.format = .d71 ∨ g.format = .d81 → (∀ bam ∈ g.block_allocation_map,
    g.blockStart bam.block = none ∧ 0 < bam.byte_count) ∧ g.mapsEnd ≠ g.addr g.headerBlock + g.header_offset) &&
  (decide (g.format = .d71 → g.last_track < D64.SIDE2_FIRST_TRACK ∧
    g.getBAMRecord ((g.block_allocation_map.getLast?.map (·.track)).getD 0) = none) &&
  (decide (g.format = .d80 ∨ g.format = .d82 → g.block_allocation_map ≠ [] ∧ ∀ bam ∈ g.block_allocation_map,
    ∀ p ∈ g.blockStart bam.block, p + 256 < g.addr g.headerBlock + g.header_offset) &&
  decide (g.format ≠ .dnp))))))

theorem missed_of_check (check : g.missedCheck = true) : g.Missed := by
  simp only [missedCheck, Bool.and_eq_true, decide_eq_true_eq] at check
  obtain ⟨c1, c2, c3, c4, c5, c6, c7⟩ := check
  exact ⟨c1, c2, c3, c4, c5, c6, c7⟩

end Geometry

namespace Format

/-- From the track of the header on, and below 255, every track count will do. -/
theorem ready (f : Format) (n : Nat) (range : n = 0 ∨ f.standard.header_track ≤ n ∧ n < 255) :
    (f.standard.withTracks n).Ready := by
  -- no track of the system lies behind track 53
  have check : ((List.range 54).all fun n =>
      decide (n ≠ 0 ∧ n < f.standard.header_track) || (f.standard.withTracks n).readyCheck) = true := by
    cases f <;> decide +kernel
  have low (m : Nat) (few : m ≤ 53) (range : m = 0 ∨ f.standard.header_track ≤ m) :
      (f.standard.withTracks m).Ready := by
    have this := List.all_eq_true.mp check m (List.mem_range.mpr (by omega))
    rcases Bool.or_eq_true_iff.mp this with below | ready
    · have := of_decide_eq_true below
      omega
    · exact Geometry.ready_of_check _ ready
  have covered : f.standard.header_track ≤ 53 ∧ ∀ t ∈ f.standard.systemTracks, t ≤ 53 := by cases f <;> decide
  rcases Nat.lt_or_ge 53 n with many | few
  · exact (low 53 (Nat.le_refl _) (.inr covered.1)).longer (by decide) (by omega) (by omega) covered.2
  · exact low n few (range.imp_right And.left)

theorem missed (f : Format) (n : Nat) (some : n ≠ 0) (below : n < f.standard.header_track) :
    (f.standard.withTracks n).Missed := by
  have check : ((List.range f.standard.header_track).all fun n =>
      decide (n = 0) || (f.standard.withTracks n).missedCheck) = true := by
    cases f <;> decide +kernel
  have this := List.all_eq_true.mp check n (List.mem_range.mpr below)
  rcases Bool.or_eq_true_iff.mp this with zero | missed
  · exact absurd (of_decide_eq_true zero) some
  · exact Geometry.missed_of_check _ missed

end Format

namespace D64

section missed

variable {g : Geometry} {s : D64} (missed : g.Missed) (h : Carries g 0 [] s)
include missed h

/- The last track is filled to its end. -/
theorem fillTracks_pos {fuel : Nat} {r : D64} (run : fillTracks g fuel s = some (true, r)) :
    r.container.pos = g.sectorOffset (g.last_track + 1) * 256 ∧ Carries g 0 [] r := by
  obtain ⟨low, high, below⟩ := missed.last
  obtain ⟨positive, small⟩ := missed.sectors
  have result := Loop.upward_result high (Nat.le_add_left 1 _) run
  have range : List.range' 1 (g.last_track + 1 - 1) = List.range' 1 (g.last_track - 1) ++ [g.last_track] := by
    rw [show g.last_track + 1 - 1 = g.last_track - 1 + 1 by omega, List.range'_concat]
    congr 2
    omega
  obtain ⟨done, kept⟩ := Loop.passes_keeps (P := Carries g 0 []) (List.range' 1 (g.last_track - 1)) (by
      intro t member q carries
      have range := List.mem_range'_1.mp member
      exact fillTrack_laid carries missed.first ⟨range.1, by omega⟩) h
  rw [range, Loop.passes_append, if_pos done] at result
  generalize (Loop.passes (fillTrack g) (List.range' 1 (g.last_track - 1)) s).2 = q at kept result
  obtain ⟨last, carries⟩ := fillTrack_laid kept missed.first ⟨low, Nat.le_refl _⟩
  simp only [Loop.passes, last, if_true] at result
  obtain rfl := (Prod.mk.inj result).2
  refine ⟨?_, carries⟩
  -- the write into its last sector
  obtain ⟨n, count⟩ : ∃ n, g.getSectorCount g.last_track = n + 1 := ⟨g.getSectorCount g.last_track - 1, by omega⟩
  have inside : ∀ x, x < n + 1 → g.Inside ⟨g.last_track, x⟩ := fun x less => ⟨low, Nat.le_refl _, by
    dsimp only
    omega⟩
  obtain ⟨before, kept'⟩ := kept.steps ((List.range n).map fun x => D64.writeAt g.last_track x 0 fillBlock) (by
    intro step member q carries
    obtain ⟨x, sector, rfl⟩ := List.mem_map.mp member
    have less := List.mem_range.mp sector
    obtain ⟨done, -, kept⟩ := carries.writeAt ((inside x (by omega)).blockStart missed.first) 0 fillBlock
      (.inr (Nat.zero_le _))
    exact ⟨done, kept⟩)
  obtain ⟨-, pos, -⟩ := kept'.writeAt ((inside n (by omega)).blockStart missed.first) 0 fillBlock (.inr (Nat.zero_le _))
  have whole : (fillTrack g g.last_track q).2.container.pos =
      g.addr ⟨g.last_track, n⟩ + 0 + fillBlock.length := by
    unfold fillTrack
    rw [if_neg (by omega), Nat.mod_eq_of_lt small, count, List.range_succ, List.map_append,
      runSteps_append _ _ _ _ (Prod.ext before rfl), ← pos]
    simp only [List.map_cons, List.map_nil, runSteps]
    split <;> rfl
  rw [whole, length_fillBlock, Geometry.addr_eq, g.sectorOffset_succ _ low, count]
  dsimp only
  omega

omit missed in
/- A map that is not on the medium is written where the container stands. -/
theorem initializeMaps_pos (maps : List BlockAllocationMap)
    (off : ∀ bam ∈ maps, g.blockStart bam.block = none ∧ 0 < bam.byte_count) :
    (initializeMaps maps s).2.container.pos =
      s.container.pos + (maps.map BlockAllocationMap.used).sum := by
  induction maps generalizing s with
  | nil => rfl
  | cons bam maps ih =>
    obtain ⟨none, positive⟩ := off bam List.mem_cons_self
    rw [← h.geo] at none
    have seek := seekSector_none s bam.block bam.offset none
    unfold BlockAllocationMap.block at seek
    obtain ⟨done, pos, kept⟩ := h.writeBytes
      ((upTo bam.start_track bam.end_track).flatMap fun t => freeRecord s.geo bam.byte_count t) (.inr (Nat.zero_le _))
    rw [length_records s.geo bam positive] at pos
    simp only [initializeMaps, seek, done, if_true]
    rw [ih kept fun b member => off b (List.mem_cons_of_mem _ member), pos, List.map_cons, List.sum_cons, Nat.add_assoc]

omit missed h in
/- One pass over the maps, whatever the length of the header. -/
theorem writeBamBlockHeaders_cons (bam : BlockAllocationMap) (maps : List BlockAllocationMap) (s : D64) :
    ∃ used, writeBamBlockHeaders g (bam :: maps) s =
      let r := runSteps (D64.writeAt bam.track bam.sector 0 (bamHeader g bam maps) ::
        if used < block_size then [D64.writeAt bam.track bam.sector used (List.replicate (block_size - used) 0)]
        else []) s
      if r.1 then writeBamBlockHeaders g maps r.2 else (false, r.2) :=
  ⟨_, rfl⟩

omit missed in
/- The headers of the BAM blocks leave the container in one of these blocks. -/
theorem writeBamBlockHeaders_pos (maps : List BlockAllocationMap) (some : maps ≠ [])
    (done : (writeBamBlockHeaders g maps s).1 = true) :
    Carries g 0 [] (writeBamBlockHeaders g maps s).2 ∧ ∃ bam ∈ maps, ∃ p, g.blockStart bam.block = Option.some p ∧
      (writeBamBlockHeaders g maps s).2.container.pos ≤ p + 256 := by
  induction maps generalizing s with
  | nil => exact absurd rfl some
  | cons bam maps ih =>
    obtain ⟨used, turn⟩ := writeBamBlockHeaders_cons (g := g) bam maps s
    cases start : g.blockStart bam.block with
    | none =>
      rw [← h.geo] at start
      have seek := seekSector_none s bam.block 0 start
      unfold BlockAllocationMap.block at seek
      simp [turn, runSteps, D64.writeAt, seek] at done
    | some p =>
      obtain ⟨first, pos, kept⟩ := h.writeAt start 0 (bamHeader g bam maps) (.inr (Nat.zero_le _))
      unfold BlockAllocationMap.block at first pos kept
      have near : (D64.writeAt bam.track bam.sector 0 (bamHeader g bam maps) s).2.container.pos ≤ p + 256 := by
        rw [pos]
        simp only [bamHeader, List.length_cons, List.length_nil]
        omega
      -- the tail of the block, when there is one
      obtain ⟨q, rest, carries, there⟩ : ∃ q, runSteps (if used < block_size then
          [D64.writeAt bam.track bam.sector used (List.replicate (block_size - used) 0)] else [])
          (D64.writeAt bam.track bam.sector 0 (bamHeader g bam maps) s).2 = (true, q) ∧ Carries g 0 [] q ∧
            q.container.pos ≤ p + 256 := by
        split
        · rename_i room
          obtain ⟨last, pos', kept'⟩ := kept.writeAt start used (List.replicate (block_size - used) 0)
            (.inr (Nat.zero_le _))
          unfold BlockAllocationMap.block at last pos' kept'
          refine ⟨_, ?_, kept', ?_⟩
          · simp only [runSteps, last, if_true]
          · rw [pos', List.length_replicate]
            unfold block_size at room ⊢
            omega
        · exact ⟨_, rfl, kept, near⟩
      have run : writeBamBlockHeaders g (bam :: maps) s = writeBamBlockHeaders g maps q := by
        simp only [turn, runSteps, first, if_true, rest]
      rw [run] at done ⊢
      cases maps with
      | nil => exact ⟨carries, bam, List.mem_cons_self, p, start, there⟩
      | cons next maps =>
        obtain ⟨carries', b, member, found⟩ := ih carries (List.cons_ne_nil _ _) done
        exact ⟨carries', b, List.mem_cons_of_mem _ member, found⟩

omit missed h in
theorem runSteps_idle {steps : List (D64 → Bool × D64)} (idle : ∀ step ∈ steps, step s = (true, s)) :
    runSteps steps s = (true, s) := by
  induction steps with
  | nil => rfl
  | cons step steps ih =>
    simp only [runSteps, idle step List.mem_cons_self, if_true]
    exact ih fun next member => idle next (List.mem_cons_of_mem _ member)

/-- What is laid down leaves the container away from the place of the header. -/
theorem layOut_missed {fuel : Nat} {q : D64} (run : layOut fuel s = some (true, q)) :
    (q.seekSector g.header_track g.header_sector g.header_offset).2.container.pos ≠
      g.addr g.headerBlock + g.header_offset := by
  obtain ⟨r, fill, rest⟩ := Option.map_eq_some_iff.mp run
  cases r with
  | mk ok r =>
    cases ok with
    | false => cases rest
    | true =>
      simp only [if_true] at rest
      rw [h.geo] at fill
      obtain ⟨pos, kept⟩ := fillTracks_pos missed h fill
      obtain ⟨done, kept'⟩ := initializeMaps_laid kept g.block_allocation_map
      have away : ∀ q, Carries g 0 [] q → q.container.pos ≠ g.addr g.headerBlock + g.header_offset →
          (q.seekSector g.header_track g.header_sector g.header_offset).2.container.pos ≠
            g.addr g.headerBlock + g.header_offset := by
        intro q carries other
        have none := @Geometry.blockStart_beyond g g.headerBlock missed.last.2.2
        rw [← carries.geo] at none
        have seek := seekSector_none q q.geo.headerBlock g.header_offset (by rw [carries.geo] at none ⊢; exact none)
        unfold Geometry.headerBlock at seek
        rw [carries.geo] at seek
        rw [seek]
        exact other
      have maps : g.format = .d64 ∨ g.format = .d71 ∨ g.format = .d81 →
          (initializeMaps g.block_allocation_map r).2.container.pos ≠ g.addr g.headerBlock + g.header_offset := by
        intro format
        obtain ⟨off, other⟩ := missed.maps format
        rw [initializeMaps_pos kept g.block_allocation_map off, pos]
        exact other
      have links : ∀ u, g.format = .d80 ∨ g.format = .d82 →
          writeBamBlockHeaders g g.block_allocation_map (initializeMaps g.block_allocation_map r).2 = (true, u) →
          Carries g 0 [] u ∧ u.container.pos ≠ g.addr g.headerBlock + g.header_offset := by
        intro u format run
        obtain ⟨some, before⟩ := missed.links format
        obtain ⟨carries, bam, member, p, start, near⟩ := writeBamBlockHeaders_pos kept' _ some (by rw [run])
        have := before bam member p start
        rw [run] at carries near
        exact ⟨carries, Nat.ne_of_lt (Nat.lt_of_le_of_lt near this)⟩
      unfold initializeBlockAllocationMap at rest
      simp only [kept.geo, done, if_true] at rest
      cases format : g.format with
      | d64 =>
        simp only [format] at rest
        obtain rfl := (Prod.mk.inj (Option.some.inj (congrArg some rest))).2
        exact away _ kept' (maps (.inl format))
      | d81 =>
        simp only [format] at rest
        obtain rfl := (Prod.mk.inj (Option.some.inj (congrArg some rest))).2
        exact away _ kept' (maps (.inr (.inr format)))
      | d80 =>
        simp only [format] at rest
        obtain ⟨carries, other⟩ := links q (.inl format) rest
        exact away q carries other
      | d82 =>
        simp only [format] at rest
        obtain ⟨carries, other⟩ := links q (.inr format) rest
        exact away q carries other
      | d71 =>
        obtain ⟨side, none⟩ := missed.side2 format
        have nothing : upTo SIDE2_FIRST_TRACK g.last_track = [] := by
          unfold upTo
          rw [Nat.sub_eq_zero_of_le side]
          rfl
        simp only [format, nothing, writeSide2Counts, if_true] at rest
        have still : ∀ step ∈ (List.range (g.getSectorCount ((g.block_allocation_map.getLast?.map (·.track)).getD 0))).map
            fun x => reserveBlock ⟨(g.block_allocation_map.getLast?.map (·.track)).getD 0, x⟩,
            step (initializeMaps g.block_allocation_map r).2 = (true, (initializeMaps g.block_allocation_map r).2) := by
          intro step member
          obtain ⟨x, -, rfl⟩ := List.mem_map.mp member
          simp only [reserveBlock, isBlockFree, readBAMRecord, kept'.geo, none, Bool.false_eq_true, if_false]
        obtain rfl := (Prod.mk.inj ((runSteps_idle still).symm.trans rest)).2
        exact away _ kept' (maps (.inr (.inl format)))
      | dnp => exact absurd format missed.other

end missed

/- With 255 tracks the loop over the tracks does not reach its end. -/
theorem layOut_full {s : D64} (full : s.geo.last_track = 255) (fuel : Nat) (q : D64) : layOut fuel s ≠ some (true, q) := by
  intro run
  obtain ⟨r, fill, rest⟩ := Option.map_eq_some_iff.mp run
  cases r with
  | mk ok r =>
    cases ok with
    | false => cases rest
    | true =>
      unfold fillTracks at fill
      rw [full] at fill
      exact Loop.upward_unfinished rfl fuel (by decide) s r fill

/-- The image gets its label exactly when name and id fit the 23 bytes of the header and the track count, unless
it is left to the format, reaches the track of the header and stays below 255. -/
theorem labels_iff (f : Format) (name id : Str) (track_count : Nat)
    (produced : ∃ header_info, (parseD64FormatSpec header_info).track_count = track_count) (error_info : Bool) :
    (blank f).Labels name id track_count error_info ↔
      (toPETSCII2 name).length ≤ 23 ∧ (toPETSCII2 id).length ≤ 5 ∧
        (track_count = 0 ∨ f.standard.header_track ≤ track_count ∧ track_count < 255) := by
  have geo : (blank f).geo = f.standard := by cases f <;> rfl
  obtain ⟨header_info, rfl⟩ := produced
  have range := parseD64FormatSpec_tracks header_info
  generalize (parseD64FormatSpec header_info).track_count = n at range
  constructor
  · rintro ⟨contained, fuel, q, ok, s', lay, place, -⟩
    obtain ⟨short, short'⟩ := headerMemory_contained.mp contained
    refine ⟨short, short', ?_⟩
    rw [geo] at place
    by_contra outside
    rcases Nat.lt_or_ge n f.standard.header_track with below | above
    · have start : Carries (f.standard.withTracks n) 0 [] ((blank f).asked n) :=
        ⟨congrArg (·.withTracks n) geo, rfl, Nat.zero_le _, rfl⟩
      exact layOut_missed (f.missed n (by omega) below) start lay place
    · have full : n = 255 := by omega
      have last : ((blank f).asked n).geo.last_track = 255 := by
        rw [full]
        cases f <;> rfl
      exact layOut_full last fuel q lay
  · rintro ⟨short, short', tracks⟩
    exact formatTracks_labels rfl (by rw [geo]; exact f.ready n tracks) short short' error_info

/-- A native partition of 255 tracks is never done. -/
theorem formatTracks_endless : ∃ (f : Format) (name id : Str) (track_count : Nat) (error_info : Bool),
    (∃ header_info, (parseD64FormatSpec header_info).track_count = track_count) ∧
      ¬ (blank f).Labels name id track_count error_info ∧
        ∀ fuel, formatTracks fuel (blank f) name id track_count error_info = none := by
  refine ⟨.dnp, [0x41], [0x42], 255, false, ⟨[0x41, 0x2c, 0x42, 0x2c, 0x32, 0x35, 0x35], by decide⟩, ?_, fun fuel => ?_⟩
  · rintro ⟨-, fuel, q, ok, s', lay, -⟩
    exact layOut_full rfl fuel q lay
  · have idle : ∀ t s, True → (fillTrack ((blank .dnp).geo.withTracks 255) t s).1 = true ∧ True := by
      intro t s _
      have nothing : (if t = 1 then [] else (List.range (256 % 256)).map fun x => writeAt t x 0 fillBlock) = [] := by
        split <;> rfl
      exact ⟨congrArg (fun l => (runSteps l s).1) nothing, trivial⟩
    have fill : fillTracks ((blank .dnp).asked 255).geo fuel ((blank .dnp).asked 255) = none :=
      Loop.upward_endless rfl idle fuel (by decide) trivial
    unfold formatTracks layOut
    rw [fill]
    rfl

theorem labels_iff_sample : (blank .d64).Labels [0x41] [0x42] 40 true := by
  apply (labels_iff .d64 [0x41] [0x42] 40 ⟨[0x41, 0x2c, 0x42, 0x2c, 0x34, 0x30], by decide⟩ true).mpr
  decide

end D64

end Meatloaf.Disk
