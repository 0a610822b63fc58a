import Meatloaf.Disk.Alloc
import Meatloaf.Disk.Sound

/-! Which bytes of an image a change of the BAM touches. The record of a track is written back whole, with
one byte of its bitmap and its count changed. -/
namespace Meatloaf.Disk

open Lib

namespace Geometry

variable (g : Geometry) (d : Nat → UInt8)

/- The sectors of the directory, as far as its links lead to sectors. -/
inductive DirectoryBlock : Block → Prop where
  | start : DirectoryBlock g.directoryStart
  | next {b : Block} (before : DirectoryBlock b) (runs : (g.link d b).track ≠ 0)
      (found : (g.linearBlock (g.link d b).track (g.link d b).sector).isSome = true) : DirectoryBlock (g.link d b)

/- The 23 bytes of the header. -/
def HeaderByte (a : Nat) : Prop :=
  g.addr g.headerBlock + g.header_offset ≤ a ∧ a < g.addr g.headerBlock + g.header_offset + 23

instance (a : Nat) : Decidable (g.HeaderByte a) := by unfold HeaderByte; infer_instance

/-- The bytes that belong to the header or the directory. -/
def Spared (a : Nat) : Prop := g.HeaderByte a ∨ ∃ b, g.DirectoryBlock d b ∧ g.addr b ≤ a ∧ a < g.addr b + 256

def RecordByte (t a : Nat) : Prop := g.recordAddr t ≤ a ∧ a < g.recordAddr t + (g.bamRecord t).byte_count

/-- The bytes that get another value: the one with the bit, and the count unless it stays at zero. -/
def Touched (b : Block) (allocate : Bool) (a : Nat) : Prop :=
  a = g.recordAddr b.track + D64.byteIndex (g.bamRecord b.track) b.sector ∨
    (a = g.recordAddr b.track ∧ (g.bamRecord b.track).has_count = true ∧
      (allocate = true → d (g.recordAddr b.track) ≠ 0))

/- Clearing a bit that is set changes the byte, and so does setting one that is not. -/
theorem byte_cleared {x : UInt8} {n : Nat} (set : (x &&& D64.bitmask n == D64.bitmask n) = true) :
    x &&& ~~~ D64.bitmask n ≠ x := by
  have high : (x &&& Bitmap.mask n == Bitmap.mask n) = true := set
  rw [Bitmap.byte_test] at high
  intro same
  have low := congrArg (fun y : UInt8 => y.toBitVec.getLsbD (n % 8)) same
  have bit : (Bitmap.mask n).toBitVec.getLsbD (n % 8) = true := by simp [Bitmap.mask_bit]
  have seven : n % 8 < 8 := Nat.mod_lt n (by decide)
  change (x &&& ~~~ Bitmap.mask n).toBitVec.getLsbD (n % 8) = _ at low
  rw [UInt8.toBitVec_and, UInt8.toBitVec_not, BitVec.getLsbD_and, BitVec.getLsbD_not, bit, high] at low
  simp [seven] at low

theorem byte_raised {x : UInt8} {n : Nat} (clear : (x &&& D64.bitmask n == D64.bitmask n) = false) :
    x ||| D64.bitmask n ≠ x := by
  have low : (x &&& Bitmap.mask n == Bitmap.mask n) = false := clear
  rw [Bitmap.byte_test] at low
  intro same
  have high := congrArg (fun y : UInt8 => y.toBitVec.getLsbD (n % 8)) same
  have bit : (Bitmap.mask n).toBitVec.getLsbD (n % 8) = true := by simp [Bitmap.mask_bit]
  change (x ||| Bitmap.mask n).toBitVec.getLsbD (n % 8) = _ at high
  rw [UInt8.toBitVec_or, BitVec.getLsbD_or, bit, low] at high
  simp at high

theorem byte_lowered (x : UInt8) : x - 1 ≠ x := by grind

theorem byte_counted (x : UInt8) : x + 1 ≠ x := by grind

/- The bytes that a modification changes. -/
theorem modify_byte {row : List UInt8} {f : UInt8 → UInt8} {k i : Nat} (fits : k < row.length)
    (changes : f (row.getD k 0) ≠ row.getD k 0) : (row.modify k f).getD i 0 ≠ row.getD i 0 ↔ i = k := by
  rw [Bitmap.getD_modify]
  constructor
  · intro differs
    by_contra other
    rw [if_neg (fun here => other here.1.symm)] at differs
    exact differs rfl
  · rintro rfl
    rw [if_pos ⟨rfl, fits⟩]
    exact changes

theorem modify_bytes {row : List UInt8} {f h : UInt8 → UInt8} {k i : Nat} (fits : k < row.length) (later : k ≠ 0)
    (changes : f (row.getD k 0) ≠ row.getD k 0) (changes' : h (row.getD 0 0) ≠ row.getD 0 0) :
    ((row.modify k f).modify 0 h).getD i 0 ≠ row.getD i 0 ↔ i = k ∨ i = 0 := by
  have head : (row.modify k f).getD 0 0 = row.getD 0 0 := by
    rw [Bitmap.getD_modify, if_neg (fun here => later here.1)]
  by_cases zero : i = 0
  · subst zero
    rw [Bitmap.getD_modify, if_pos ⟨rfl, by rw [List.length_modify]; omega⟩, head]
    exact ⟨fun _ => .inr rfl, fun _ => changes'⟩
  · rw [Bitmap.getD_modify, if_neg (fun here => zero here.1.symm), modify_byte fits changes]
    exact ⟨.inl, fun found => found.resolve_right zero⟩

/-- Of a record, the byte with the bit changes, and the count that is not at zero. -/
theorem recordAllocate_byte {rec : BAMRecord} {row : List UInt8} {n : Nat} (i : Nat)
    (fits : D64.byteIndex rec n < row.length) (bit : D64.recordBit rec row n = true) :
    (D64.recordAllocate rec row n).getD i 0 ≠ row.getD i 0 ↔
      i = D64.byteIndex rec n ∨ (i = 0 ∧ rec.has_count = true ∧ row.getD 0 0 ≠ 0) := by
  have changed := byte_cleared bit
  have later : rec.has_count = true → D64.byteIndex rec n ≠ 0 := by
    intro counted
    unfold D64.byteIndex
    rw [if_pos counted]
    omega
  have head : rec.has_count = true →
      (row.modify (D64.byteIndex rec n) (· &&& ~~~ D64.bitmask n)).getD 0 0 = row.getD 0 0 := by
    intro counted
    rw [Bitmap.getD_modify, if_neg (fun here => later counted here.1)]
  simp only [D64.recordAllocate]
  split
  · rename_i lowered
    obtain ⟨counted, positive⟩ := lowered
    rw [head counted] at positive
    have some : row.getD 0 0 ≠ 0 := UInt8.pos_iff_ne_zero.mp positive
    rw [modify_bytes fits (later counted) changed (byte_lowered _)]
    simp only [counted, some, ne_eq, not_false_eq_true, and_true]
  · rename_i kept
    rw [modify_byte fits changed]
    refine ⟨.inl, fun found => found.resolve_right ?_⟩
    rintro ⟨-, counted, some⟩
    apply kept
    rw [head counted]
    exact ⟨counted, UInt8.pos_iff_ne_zero.mpr some⟩

theorem recordRelease_byte {rec : BAMRecord} {row : List UInt8} {n : Nat} (i : Nat)
    (fits : D64.byteIndex rec n < row.length) (bit : D64.recordBit rec row n = false) :
    (D64.recordRelease rec row n).getD i 0 ≠ row.getD i 0 ↔
      i = D64.byteIndex rec n ∨ (i = 0 ∧ rec.has_count = true) := by
  have changed := byte_raised bit
  simp only [D64.recordRelease]
  split
  · rename_i counted
    have later : D64.byteIndex rec n ≠ 0 := by
      unfold D64.byteIndex
      rw [if_pos counted]
      omega
    rw [modify_bytes fits later changed (byte_counted _)]
    simp only [counted, and_true]
  · rename_i bare
    rw [modify_byte fits changed]
    exact ⟨.inl, fun found => found.resolve_right fun here => bare here.2⟩

/-- What a change of the BAM touches. -/
theorem mark_byte {b : Block} (represented : g.Represented b) {allocate : Bool} (bit : g.free d b = allocate) (a : Nat) :
    g.mark d b allocate a ≠ d a ↔ g.Touched d b allocate a := by
  have fits : D64.byteIndex (g.bamRecord b.track) b.sector < (g.record d b.track).length := by
    rw [length_record]
    exact represented
  have bit' : D64.recordBit (g.bamRecord b.track) (g.record d b.track) b.sector = allocate := by
    rw [← bit]
    simp [free, show D64.byteIndex _ _ < _ from represented]
  have length := length_marked (g := g) (d := d) b allocate
  have head : (g.record d b.track).getD 0 0 = d (g.recordAddr b.track) := record_head (by
    rw [length_record] at fits
    omega)
  unfold Touched
  by_cases here : g.recordAddr b.track ≤ a ∧ a < g.recordAddr b.track + (g.bamRecord b.track).byte_count
  · obtain ⟨i, rfl⟩ : ∃ i, a = g.recordAddr b.track + i := ⟨a - g.recordAddr b.track, by omega⟩
    have inside : i < (g.bamRecord b.track).byte_count := by omega
    have was : d (g.recordAddr b.track + i) = (g.record d b.track).getD i 0 :=
      (Store.getD_read d _ _ i 0 inside).symm
    unfold mark
    rw [Store.put_getD d _ _ i 0 (by rw [length]; exact inside), was, ← head]
    cases allocate with
    | true =>
      refine (recordAllocate_byte i fits bit').trans ?_
      simp
    | false =>
      refine (recordRelease_byte i fits bit').trans ?_
      simp
  · have same : g.mark d b allocate a = d a := by
      apply Store.put_outside
      rw [length]
      omega
    refine ⟨fun differs => absurd same differs, fun touched => absurd ?_ here⟩
    rw [length_record] at fits
    rcases touched with rfl | ⟨rfl, -⟩
    · omega
    · omega

end Geometry

namespace D64

/-- The change is made: the bit can be read and is the other one, and the container takes the write. -/
def Due (s : D64) (b : Block) (allocate : Bool) : Prop :=
  s.geo.recordAddr b.track + (s.geo.bamRecord b.track).byte_count ≤ s.container.size ∧
    s.geo.free s.container.data b = allocate ∧ s.container.fault ≠ some 0

/-- The change stays inside the record of the track, out of the header and of the directory, and the
records of two tracks have no byte in common. -/
def StaysInBam (s : D64) (b : Block) (allocate : Bool) : Prop :=
  let d' := (s.setBlockAllocation b.track b.sector allocate).2.container.data
  (∀ a, d' a ≠ s.container.data a → s.geo.RecordByte b.track a) ∧
    (∀ a, s.geo.Spared s.container.data a → d' a = s.container.data a) ∧
      ∀ t u a, 1 ≤ t → t ≤ s.geo.last_track → 1 ≤ u → u ≤ s.geo.last_track → s.geo.RecordByte t a →
        s.geo.RecordByte u a → t = u

variable {s : D64} {b : Block}

/- The record is read where the container reaches so far. -/
theorem readBAMRecord_fits (v : s.geo.Valid) {t : Nat} (range : 1 ≤ t ∧ t ≤ s.geo.last_track)
    (fits : s.geo.recordAddr t + (s.geo.bamRecord t).byte_count ≤ s.container.size) :
    s.readBAMRecord t = (some (s.geo.bamRecord t, s.geo.record s.container.data t),
      s.at_ (s.geo.recordAddr t + (s.geo.bamRecord t).byte_count) (s.geo.bamRecord t).bam_track
        (s.geo.bamRecord t).bam_sector) := by
  have track := v.track t range.1 range.2
  have seek := seekSector_inside s v (s.geo.recordBlock t) track.inside (s.geo.bamRecord t).offset
  have read := read_inside s v (s.geo.recordBlock t) track.inside (s.geo.bamRecord t).offset _ fits
  unfold Geometry.recordBlock at seek read
  simp only [readBAMRecord, track.record, read]
  simp only [seek, if_true, Store.length_read]
  rfl

theorem readBAMRecord_short (v : s.geo.Valid) {t : Nat} (range : 1 ≤ t ∧ t ≤ s.geo.last_track)
    (short : ¬ s.geo.recordAddr t + (s.geo.bamRecord t).byte_count ≤ s.container.size) :
    (s.readBAMRecord t).1 = none ∧ (s.readBAMRecord t).2.container.data = s.container.data := by
  have track := v.track t range.1 range.2
  have seek := seekSector_inside s v (s.geo.recordBlock t) track.inside (s.geo.bamRecord t).offset
  have few : min (s.geo.bamRecord t).byte_count (s.container.size - s.geo.recordAddr t) ≠
      (s.geo.bamRecord t).byte_count := by
    have positive := track.positive
    omega
  unfold Geometry.recordBlock at seek
  unfold readBAMRecord
  rw [track.record]
  dsimp only
  rw [seek]
  refine ⟨?_, rfl⟩
  show (if (Store.read _ _ _).length = _ then _ else none) = none
  rw [Store.length_read]
  exact if_neg few

/- An overwrite, or none. -/
theorem writeContainer_data (t : D64) (bytes : List UInt8)
    (fits : t.container.pos + bytes.length ≤ t.container.size) :
    (t.writeContainer bytes).2.container.data =
      if t.container.fault = some 0 then t.container.data else Store.put t.container.data t.container.pos bytes := by
  show (t.container.write bytes).2.data = _
  split
  · rename_i refused
    rw [Container.write_refused _ _ refused]
  · rename_i taken
    rw [Container.write_taken _ _ taken, Container.store_inside _ _ fits]

/- A change that is to be made writes the record back. -/
theorem base_write (v : s.geo.Valid) (inside : s.geo.Inside b)
    (fits : s.geo.recordAddr b.track + (s.geo.bamRecord b.track).byte_count ≤ s.container.size) {allocate : Bool}
    (other : s.geo.free s.container.data b = allocate) :
    (s.setBlockAllocationBase b.track b.sector allocate).2 =
      ((s.at_ (s.geo.recordAddr b.track) (s.geo.bamRecord b.track).bam_track
        (s.geo.bamRecord b.track).bam_sector).writeContainer
          (if allocate then recordAllocate (s.geo.bamRecord b.track) (s.geo.record s.container.data b.track) b.sector
            else recordRelease (s.geo.bamRecord b.track) (s.geo.record s.container.data b.track) b.sector)).2 := by
  have range : 1 ≤ b.track ∧ b.track ≤ s.geo.last_track := ⟨inside.1, inside.2.1⟩
  have represented := inside.represented v
  have bit : recordBit (s.geo.bamRecord b.track) (s.geo.record s.container.data b.track) b.sector = allocate := by
    rw [← other]
    simp [Geometry.free, show byteIndex _ _ < _ from represented]
  have seek := seekSector_inside
    (s.at_ (s.geo.recordAddr b.track + (s.geo.bamRecord b.track).byte_count) (s.geo.bamRecord b.track).bam_track
      (s.geo.bamRecord b.track).bam_sector) v (s.geo.recordBlock b.track) (v.track _ range.1 range.2).inside
    (s.geo.bamRecord b.track).offset
  unfold Geometry.recordBlock at seek
  unfold setBlockAllocationBase
  rw [readBAMRecord_fits v range fits]
  dsimp only
  rw [if_neg (Nat.not_le_of_lt represented), bit, if_neg (by cases allocate <;> decide),
    if_neg (by cases allocate <;> decide), seek]
  rfl

/- Whatever the container holds, a change is the one of the record or none. -/
theorem base_data (v : s.geo.Valid) (inside : s.geo.Inside b) (allocate : Bool) :
    (s.Due b allocate → (s.setBlockAllocationBase b.track b.sector allocate).2.container.data =
        s.geo.mark s.container.data b allocate) ∧
      (¬ s.Due b allocate → (s.setBlockAllocationBase b.track b.sector allocate).2.container.data =
        s.container.data) := by
  have range : 1 ≤ b.track ∧ b.track ≤ s.geo.last_track := ⟨inside.1, inside.2.1⟩
  have represented := inside.represented v
  have bit : recordBit (s.geo.bamRecord b.track) (s.geo.record s.container.data b.track) b.sector =
      s.geo.free s.container.data b := by
    simp [Geometry.free, show byteIndex _ _ < _ from represented]
  unfold Due
  by_cases fits : s.geo.recordAddr b.track + (s.geo.bamRecord b.track).byte_count ≤ s.container.size
  · have read := readBAMRecord_fits v range fits
    by_cases other : s.geo.free s.container.data b = allocate
    · have run := base_write v inside fits other
      have length := Geometry.length_marked (g := s.geo) (d := s.container.data) b allocate
      have fits' := fits
      rw [← length] at fits'
      by_cases refused : s.container.fault = some 0
      · refine ⟨fun due => absurd refused due.2.2, fun _ => ?_⟩
        rw [run, writeContainer_data _ _ fits', if_pos (by exact refused)]
        rfl
      · refine ⟨fun _ => ?_, fun idle => absurd ⟨fits, other, refused⟩ idle⟩
        rw [run, writeContainer_data _ _ fits', if_neg (by exact refused)]
        rfl
    · -- the bit is as it should be already
      refine ⟨fun due => absurd due.2.1 other, fun _ => ?_⟩
      unfold setBlockAllocationBase
      rw [read]
      dsimp only
      rw [if_neg (Nat.not_le_of_lt represented), bit]
      cases allocate with
      | true =>
        rw [Bool.eq_false_of_not_eq_true other]
        rfl
      | false =>
        rw [Bool.eq_true_of_not_eq_false other]
        rfl
  · obtain ⟨none, same⟩ := readBAMRecord_short v range fits
    refine ⟨fun due => absurd due.1 fits, fun _ => ?_⟩
    unfold setBlockAllocationBase
    split
    · rename_i s' read
      rw [read] at same
      exact same
    · rename_i read
      rw [read] at none
      cases none

/-- A change of the BAM stays there exactly when no byte it touches belongs to the header or the
directory. -/
theorem staysInBam_iff (f : Format) (family : f = .d64 ∨ f = .d81) (n : Nat) (link : UInt8 × UInt8) (s : D64)
    (made : s.geo = f.geometry n link) (b : Block) (inside : s.geo.Inside b) (allocate : Bool) :
    s.StaysInBam b allocate ↔
      (s.Due b allocate → ∀ a, s.geo.Touched s.container.data b allocate a → ¬ s.geo.Spared s.container.data a) := by
  have v : s.geo.Valid := by
    rw [made]
    apply Format.geometry_valid
    rintro rfl
    rcases family with no | no
    · cases no
    · cases no
  have plain : s.geo.format ≠ .d71 := by
    rw [made]
    rcases family with rfl | rfl
    · exact fun no => nomatch no
    · exact fun no => nomatch no
  have represented := inside.represented v
  obtain ⟨changed, kept⟩ := base_data v inside allocate
  have apart : ∀ t u a, 1 ≤ t → t ≤ s.geo.last_track → 1 ≤ u → u ≤ s.geo.last_track → s.geo.RecordByte t a →
      s.geo.RecordByte u a → t = u := by
    intro t u a low high low' high' here here'
    by_contra other
    unfold Geometry.RecordByte at here here'
    rcases v.records_apart low high low' high' other with before | behind
    · omega
    · omega
  have run := setBlockAllocation_plain s plain b.track b.sector allocate
  unfold StaysInBam
  dsimp only
  rw [run]
  by_cases due : s.Due b allocate
  · have touched := s.geo.mark_byte s.container.data represented due.2.1
    rw [changed due]
    constructor
    · rintro ⟨-, spared, -⟩ _ a here belongs
      exact (touched a).mpr here (spared a belongs)
    · intro clear
      refine ⟨?_, ?_, apart⟩
      · intro a differs
        by_contra outside
        apply differs
        apply Store.put_outside
        rw [Geometry.length_marked]
        unfold Geometry.RecordByte at outside
        omega
      · intro a belongs
        by_contra differs
        exact clear due a ((touched a).mp differs) belongs
  · rw [kept due]
    exact ⟨fun _ is => absurd is due, fun _ => ⟨fun a differs => absurd rfl differs, fun a _ => rfl, apart⟩⟩

/- A record and a stretch of other bytes. -/
theorem record_meets (g : Geometry) {t lo n : Nat} :
    (∃ a, g.RecordByte t a ∧ lo ≤ a ∧ a < lo + n) ↔
      max lo (g.recordAddr t) < min (lo + n) (g.recordAddr t + (g.bamRecord t).byte_count) := by
  unfold Geometry.RecordByte
  constructor
  · rintro ⟨a, here, there⟩
    omega
  · intro meet
    exact ⟨max lo (g.recordAddr t), by omega, by omega⟩

/- Where the records of the two classes lie. -/
theorem d64_record (n : Nat) (link : UInt8 × UInt8) {t : Nat} (low : 1 ≤ t)
    (high : t ≤ (Format.d64.geometry n link).last_track) :
    t ≤ 42 ∧ (Format.d64.geometry n link).recordAddr t = (Format.d64.geometry n link).addr ⟨18, 0⟩ + (4 + (t - 1) * 4) ∧
      ((Format.d64.geometry n link).bamRecord t).byte_count = 4 := by
  have most : t ≤ 42 := by
    refine Nat.le_trans high ?_
    show (if n = 196608 ∨ n = 197376 then 40 else if n = 205312 ∨ n = 206114 then 42 else 35) ≤ 42
    split
    · decide
    · split <;> decide
  have small : 4 + (t - 1) * 4 < 256 := by omega
  have found : (Format.d64.geometry n link).getBAMRecord t = some ⟨18, 0 + (4 + (t - 1) * 4) / 256,
      (4 + (t - 1) * 4) % 256, 4, decide (((Format.d64.geometry n link).getSectorCount t + 7) / 8 < 4)⟩ := by
    have high' : t ≤ if n = 196608 ∨ n = 197376 then 40 else if n = 205312 ∨ n = 206114 then 42 else 35 := high
    unfold Geometry.getBAMRecord
    simp only [Format.geometry, List.find?_cons, low, high', and_self, decide_true, Option.map_some, block_size]
  unfold Geometry.recordAddr Geometry.recordBlock Geometry.bamRecord
  rw [found, Nat.div_eq_of_lt small, Nat.mod_eq_of_lt small]
  exact ⟨most, rfl, rfl⟩

/-- The records of a D64 run into the header from track 36 to track 41. -/
theorem d64_record_header (n : Nat) (link : UInt8 × UInt8) {t : Nat} (low : 1 ≤ t)
    (high : t ≤ (Format.d64.geometry n link).last_track) :
    (∃ a, (Format.d64.geometry n link).RecordByte t a ∧ (Format.d64.geometry n link).HeaderByte a) ↔
      36 ≤ t ∧ t ≤ 41 := by
  obtain ⟨most, start, count⟩ := d64_record n link low high
  have header : (Format.d64.geometry n link).headerBlock = ⟨18, 0⟩ := rfl
  unfold Geometry.HeaderByte
  rw [record_meets, start, count, header, show (Format.d64.geometry n link).header_offset = 144 from rfl]
  omega

theorem d81_record (n : Nat) (link : UInt8 × UInt8) {t : Nat} (low : 1 ≤ t)
    (high : t ≤ (Format.d81.geometry n link).last_track) :
    t ≤ 81 ∧ ((Format.d81.geometry n link).bamRecord t).byte_count = 6 ∧
      (Format.d81.geometry n link).recordAddr t = (Format.d81.geometry n link).addr ⟨40, 0⟩ +
        if t ≤ 40 then 256 + (16 + (t - 1) * 6) else 512 + (16 + (t - 41) * 6) := by
  have most : t ≤ 81 := by
    refine Nat.le_trans high ?_
    show (if n = 829440 then 81 else 80) ≤ 81
    split <;> decide
  have high' : t ≤ if n = 829440 then 81 else 80 := high
  unfold Geometry.recordAddr Geometry.recordBlock Geometry.bamRecord Geometry.getBAMRecord
  split
  · rename_i side1
    have small : 16 + (t - 1) * 6 < 256 := by omega
    simp only [Format.geometry, List.find?_cons, low, side1, and_self, decide_true, Option.map_some,
      Option.getD_some, block_size, Nat.div_eq_of_lt small, Nat.mod_eq_of_lt small, Geometry.addr_eq]
    exact ⟨most, trivial, by omega⟩
  · rename_i side2
    have low' : 41 ≤ t := by omega
    have apart : ¬ (1 ≤ t ∧ t ≤ 40) := fun here => side2 here.2
    simp only [Format.geometry, List.find?_cons, apart, low', high', and_self, decide_true, decide_false,
      Option.map_some, Option.getD_some, block_size, Geometry.addr_eq]
    exact ⟨most, trivial, by omega⟩

/-- Of a D81 the record of track 81 lies at the start of the directory, and none in the header. -/
theorem d81_record_directory (n : Nat) (link : UInt8 × UInt8) {t : Nat} (low : 1 ≤ t)
    (high : t ≤ (Format.d81.geometry n link).last_track) :
    ((∃ a, (Format.d81.geometry n link).RecordByte t a ∧
        (Format.d81.geometry n link).addr ⟨40, 3⟩ ≤ a ∧ a < (Format.d81.geometry n link).addr ⟨40, 3⟩ + 256) ↔ t = 81) ∧
      ¬ ∃ a, (Format.d81.geometry n link).RecordByte t a ∧ (Format.d81.geometry n link).HeaderByte a := by
  obtain ⟨most, count, start⟩ := d81_record n link low high
  have header : (Format.d81.geometry n link).headerBlock = ⟨40, 0⟩ := rfl
  have sector : (Format.d81.geometry n link).addr ⟨40, 3⟩ = (Format.d81.geometry n link).addr ⟨40, 0⟩ + 768 := by
    rw [Geometry.addr_eq, Geometry.addr_eq]
    dsimp only
    omega
  unfold Geometry.HeaderByte
  rw [record_meets, record_meets, start, count, header, sector,
    show (Format.d81.geometry n link).header_offset = 4 from rfl]
  split
  · omega
  · omega

/- A 40-track D64 with nothing in it. -/
def fortyTracks : D64 := D64.new .d64 { data := fun _ => 0, size := 196608 }

/-- Releasing a sector of track 36 writes into the header of a 40-track D64. -/
theorem release_overwrites_header : ∃ (s : D64) (b : Block), s.geo = Format.d64.geometry 196608 (0, 0) ∧
    s.geo.Inside b ∧ ¬ s.StaysInBam b false := by
  refine ⟨fortyTracks, ⟨36, 0⟩, rfl, by decide, ?_⟩
  rintro ⟨-, spared, -⟩
  have same := spared 91536 (.inl (by decide +kernel))
  exact absurd same (by decide)

theorem fortyTracks_directory {b : Block} (h : fortyTracks.geo.DirectoryBlock fortyTracks.container.data b) :
    b = ⟨18, 1⟩ := by
  induction h with
  | start => rfl
  | next _ runs _ ih =>
    rw [ih] at runs
    exact absurd (by decide) runs

theorem staysInBam_iff_sample : fortyTracks.StaysInBam ⟨35, 0⟩ false := by
  refine (staysInBam_iff .d64 (.inl rfl) 196608 (0, 0) fortyTracks rfl ⟨35, 0⟩ (by decide +kernel) false).mpr ?_
  intro _ a touched spared
  have record : fortyTracks.geo.recordAddr 35 = 91532 := by decide +kernel
  have byte : byteIndex (fortyTracks.geo.bamRecord 35) 0 = 1 := by decide +kernel
  have here : 91532 ≤ a ∧ a < 91534 := by
    unfold Geometry.Touched at touched
    rw [record, byte] at touched
    omega
  rcases spared with header | ⟨b, directory, low, -⟩
  · have start : fortyTracks.geo.addr fortyTracks.geo.headerBlock + fortyTracks.geo.header_offset = 91536 := by
      decide +kernel
    unfold Geometry.HeaderByte at header
    rw [start] at header
    omega
  · have start : fortyTracks.geo.addr ⟨18, 1⟩ = 91648 := by decide +kernel
    rw [fortyTracks_directory directory, start] at low
    omega

end D64

end Meatloaf.Disk
