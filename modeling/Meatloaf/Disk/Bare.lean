import Mathlib.Data.Nat.Periodic
import Meatloaf.Disk.MfmTrack
import Meatloaf.Disk.Written

/-! A track of a 1581 that ends in the middle of its first sector: the header and the data mark are there, and no more. The
sector is read, as zeros with a wrong checksum; no other sector is found. -/
namespace Meatloaf.Disk

open Lib

namespace Mfm

variable {bits : List UInt8} {f : Nat → Bool} {p limit d : Nat}

instance (f : Nat → Bool) (x : Nat) : Decidable (SyncAt f x) := inferInstanceAs (Decidable (_ = _))

/-- A search ends behind the first sync. -/
theorem Plays.findSync_here (plays : Plays bits f) (inside : p < cells bits) (here : SyncAt f (p + d))
    (first : ∀ j < d, ¬ SyncAt f (p + j)) (room : d + 16 ≤ limit) :
    findSync bits p limit = some ((p + d + 16) % cells bits) := by
  have search := findSync_search plays inside limit
  generalize findSync bits p limit = answer at search ⊢
  cases search with
  | found x after within sync next =>
    have least : p + d ≤ x := by
      by_contra less
      obtain ⟨j, rfl⟩ : ∃ j, x = p + j := ⟨x - p, by omega⟩
      exact first j (by omega) sync
    have most : x ≤ p + d := by
      by_contra less
      exact next (p + d) (by omega) (by omega) here
    rw [Nat.le_antisymm most least]
  | missed never => exact absurd here (never (p + d) (by omega) (by omega))

/- A run of syncs ends where there is none. -/
theorem Plays.skip_end (plays : Plays bits f) (inside : p < cells bits) (other : ¬ SyncAt f p) (fuel marks : Nat) :
    skipExtraSyncs bits (fuel + 1) p marks = (p, marks) := by
  have search := findSync_search plays inside 16
  rw [skipExtraSyncs, if_neg]
  intro same
  generalize findSync bits p 16 = answer at search same
  cases search with
  | found x after within sync next =>
    obtain rfl : x = p := by omega
    exact other sync
  | missed never => cases same

theorem Plays.skip_next (plays : Plays bits f) (inside : p + 16 < cells bits) (here : SyncAt f p) (fuel marks : Nat) :
    skipExtraSyncs bits (fuel + 1) p marks = skipExtraSyncs bits fuel (p + 16) (marks + 1) := by
  have found := plays.findSync_here (d := 0) (show p < cells bits by omega) here (fun j none_ => by omega)
    (Nat.le_refl 16)
  rw [Nat.add_zero, Nat.mod_eq_of_lt inside] at found
  rw [skipExtraSyncs, if_pos found]

theorem Plays.readBytes_eq (plays : Plays bits f) (some_ : 0 < cells bits) (p count : Nat) : readBytes bits p count =
    (List.range count).map fun i => UInt8.ofNat (word (fun bit => f (p + i * 16 + bit * 2 + 1)) 0 8) := by
  simp only [readBytes, plays.read some_]

/- A shift of the checksum does not lose all of it. -/
theorem crcShift_ne {crc : UInt16} (some_ : crc ≠ 0) :
    (if crc &&& 0x8000 ≠ 0 then (crc <<< 1) ^^^ 0x1021 else crc <<< 1) ≠ 0 := by
  have doubled : (crc <<< 1).toNat = crc.toNat * 2 % 2 ^ 16 := by
    rw [UInt16.toNat_shiftLeft, Nat.shiftLeft_eq]
    rfl
  split
  · -- the polynomial ends with a one
    intro zero
    have bit := congrArg (fun c : UInt16 => c.toNat.testBit 0) zero
    have even : (crc <<< 1).toNat.testBit 0 = false := by
      rw [doubled, Nat.testBit_zero, decide_eq_false_iff_not]
      omega
    have odd : (0x1021 : UInt16).toNat.testBit 0 = true := by decide
    simp only [UInt16.toNat_xor, Nat.testBit_xor, even, odd] at bit
    exact absurd bit (by decide)
  · rename_i low
    intro zero
    have none_ := congrArg UInt16.toNat (not_not.mp low)
    have top : crc.toNat &&& 2 ^ 15 = 0 := none_
    have double := congrArg UInt16.toNat zero
    have small := crc.toNat_lt
    rw [doubled] at double
    rw [Nat.and_two_pow, Nat.testBit_eq_decide_div_mod_eq] at top
    have positive : crc.toNat ≠ 0 := fun same => some_ (UInt16.toNat_inj.mp same)
    have halves : crc.toNat / 2 ^ 15 % 2 ≠ 1 := fun same => by
      rw [decide_eq_true same] at top
      exact absurd top (by decide)
    have zero_ : (0 : UInt16).toNat = 0 := rfl
    omega

theorem crcByte_ne {crc : UInt16} (some_ : crc ≠ 0) : crcByte crc 0 ≠ 0 := by
  have shifts : ∀ (l : List Nat) (c : UInt16), c ≠ 0 →
      l.foldl (fun (c : UInt16) _ => if c &&& 0x8000 ≠ 0 then (c <<< 1) ^^^ 0x1021 else c <<< 1) c ≠ 0 := by
    intro l
    induction l with
    | nil => exact fun c kept => kept
    | cons x l ih => exact fun c kept => ih _ (crcShift_ne kept)
  have same : crc ^^^ ((0 : UInt8).toUInt16 <<< 8) = crc := by simp
  rw [crcByte, same]
  exact shifts _ crc some_

theorem crc16_zeros {crc : UInt16} (some_ : crc ≠ 0) (n : Nat) : crc16 (List.replicate n 0) crc ≠ 0 := by
  induction n generalizing crc with
  | zero => exact some_
  | succ n ih => exact ih (crcByte_ne some_)

end Mfm

namespace P81

/- Three syncs and the id of the first sector of the disk, a sync and a data mark: nothing is written behind it. -/
def bareGaps : List Nat :=
  [2, 4, 3, 4, 3, 2, 4, 3, 4, 3, 2, 4, 3, 4, 3, 2, 2, 2, 2, 2, 2, 2, 3, 2, 2, 2, 2, 2, 2, 2, 2, 2, 2, 2, 2, 2, 2, 2, 2, 2,
    2, 2, 2, 2, 2, 3, 3, 2, 2, 2, 2, 3, 4, 2, 3, 3, 4, 3, 3, 2, 4, 2, 2, 2, 2, 4, 3, 4, 3, 2, 2, 2, 2, 2, 4, 2]

def bareId : List UInt8 := [0xFE, 0, 0, 1, 2, 0xCA, 0x6F]

/- The cells of the track, as a loop. -/
def bareCell (q : Nat) : Bool := decide (q % 16576 ∈ peaks 0 bareGaps)

open Mfm

theorem bare_quiet {q : Nat} (behind : 192 ≤ q) (inside : q ≤ 16576) : bareCell q = false := by
  have front : ∀ one ∈ peaks 0 bareGaps, 0 < one ∧ one < 192 := by decide
  rw [bareCell, decide_eq_false_iff_not]
  intro member
  obtain ⟨positive, small⟩ := front _ member
  omega

def bareBlock : Block := ⟨1, 0, by decide, by decide, by decide⟩

def missingBlock : Block := ⟨1, 2, by decide, by decide, by decide⟩

/- The checksums: that of the header, and that of the data, for which there is none. -/
theorem bare_checksum :
    crc16 ([0xa1, 0xa1, 0xa1] ++ bareId.take 5) 0xffff = pair (bareId.getD 5 0) (bareId.getD 6 0) := by decide +kernel

theorem bare_unchecked :
    crc16 (List.replicate 512 0) (crc16 [MARK_DATA] (crc16 [0xa1, 0xa1, 0xa1] 0xffff)) ≠ pair 0 0 :=
  crc16_zeros (by decide +kernel) 512

variable {bits : List UInt8} (length : bits.length = 2072)
  (ones : ∀ q < cells bits, bitAt bits q = decide (q ∈ peaks 0 bareGaps))

include length ones

theorem bare_plays : Plays bits bareCell ∧ cells bits = 16576 := by
  have size : cells bits = 16576 := by rw [cells, length]
  refine ⟨⟨fun p inside => ?_, fun p => ?_⟩, size⟩
  · rw [ones p inside, bareCell, Nat.mod_eq_of_lt (size ▸ inside)]
  · rw [size, bareCell, bareCell, Nat.add_mod_right]

theorem bare_sync {p d limit : Nat} (inside : p < 16576) (here : SyncAt bareCell (p + d))
    (first : ∀ j < d, ¬ SyncAt bareCell (p + j)) (room : d + 16 ≤ limit) :
    findSync bits p limit = some ((p + d + 16) % 16576) := by
  obtain ⟨plays, size⟩ := bare_plays length ones
  exact size ▸ plays.findSync_here (size ▸ inside) here first room

/-- The header of the sector is found first. -/
theorem bare_header : findSync bits 0 16576 = some 16 ∧ skipExtraSyncs bits 16576 16 1 = (48, 3) ∧
    readBytes bits 48 7 = bareId := by
  obtain ⟨plays, size⟩ := bare_plays length ones
  refine ⟨bare_sync length ones (d := 0) (by decide) (by decide) (by decide) (by decide), ?_, ?_⟩
  · show skipExtraSyncs bits (16573 + 1 + 1 + 1) 16 1 = (48, 3)
    rw [plays.skip_next (by omega) (by decide), plays.skip_next (by omega) (by decide),
      plays.skip_end (by omega) (by decide)]
  · rw [plays.readBytes_eq (by omega)]
    decide

/-- The data mark follows, and behind it there are only zeros. -/
theorem bare_data : findSync bits 160 1600 = some 176 ∧ findSync bits 160 16576 = some 176 ∧
    skipExtraSyncs bits 16576 176 1 = (176, 1) ∧ readBytes bits 176 1 = [MARK_DATA] ∧
      readBytes bits 192 512 = List.replicate 512 0 ∧ readBytes bits 8384 2 = [0, 0] := by
  obtain ⟨plays, size⟩ := bare_plays length ones
  have zeros (p count : Nat) (behind : 192 ≤ p) (inside : p + 16 * count ≤ 16576) :
      readBytes bits p count = List.replicate count 0 := by
    rw [plays.readBytes_eq (by omega), List.eq_replicate_iff]
    refine ⟨by simp, fun b member => ?_⟩
    obtain ⟨i, few, rfl⟩ := List.mem_map.mp member
    have less := List.mem_range.mp few
    have zero : word (fun bit => bareCell (p + i * 16 + bit * 2 + 1)) 0 8 = word (fun _ => false) 0 8 :=
      word_congr fun bit inside => bare_quiet (by omega) (by omega)
    rw [zero]
    rfl
  refine ⟨bare_sync length ones (d := 0) (by decide) (by decide) (by decide) (by decide),
    bare_sync length ones (d := 0) (by decide) (by decide) (by decide) (by decide), ?_, ?_, zeros 192 512 (by decide) (by decide),
    zeros 8384 2 (by decide) (by decide)⟩
  · exact plays.skip_end (by omega) (by decide) 16575 1
  · rw [plays.readBytes_eq (by omega)]
    decide

/-- Behind the data mark, the next sync is that of the header. -/
theorem bare_round : findSync bits 176 16576 = some 16 := by
  have none_ : ∀ j < 16400, ¬ SyncAt bareCell (176 + j) := by
    intro j less sync
    by_cases close : j < 15
    · exact absurd sync ((by decide : ∀ j < 15, ¬ SyncAt bareCell (176 + j)) j close)
    · -- the second cell of a sync is a one
      have second := (syncAt_iff bareCell (176 + j)).mp sync 1 (by decide)
      rw [bare_quiet (by omega) (by omega)] at second
      exact absurd second (by decide)
  exact bare_sync length ones (by decide) (by decide) none_ (by decide)

theorem bare_bad : readSector bits 0 0 1 P81_SECTOR_BYTES = some (false, List.replicate 512 0) := by
  obtain ⟨plays, size⟩ := bare_plays length ones
  obtain ⟨found, run, header⟩ := bare_header length ones
  obtain ⟨mark, -, alone, byte, data, tail⟩ := bare_data length ones
  have mark_ : readBytes bits 48 1 = [MARK_ID] := by
    rw [plays.readBytes_eq (by omega)]
    decide
  show Mfm.scan bits 0 0 1 512 (255 + 1) 0 none = _
  rw [Mfm.scan, size, found]
  dsimp only
  rw [if_neg (by decide), run]
  dsimp only
  rw [mark_, if_neg (by decide), header, if_neg (not_not.mpr bare_checksum), if_neg (by decide), readData, mark]
  dsimp only
  rw [size, alone]
  dsimp only
  rw [byte, if_neg (by decide), data, tail]
  exact congrArg some (congrArg (·, List.replicate 512 0) (beq_eq_false_iff_ne.mpr bare_unchecked))

theorem bare_missing : readSector bits 0 0 2 P81_SECTOR_BYTES = none := by
  obtain ⟨plays, size⟩ := bare_plays length ones
  obtain ⟨found, run, header⟩ := bare_header length ones
  obtain ⟨-, mark, alone, byte, -, -⟩ := bare_data length ones
  have mark_ : readBytes bits 48 1 = [MARK_ID] := by
    rw [plays.readBytes_eq (by omega)]
    decide
  show Mfm.scan bits 0 0 2 512 (253 + 1 + 1 + 1) 0 none = _
  rw [Mfm.scan, size, found]
  dsimp only
  rw [if_neg (by decide), run]
  dsimp only
  rw [mark_, if_neg (by decide), header, if_neg (not_not.mpr bare_checksum), if_pos (by decide), Mfm.scan, size, mark]
  dsimp only
  rw [if_neg (by decide), alone]
  dsimp only
  rw [byte, if_pos (by decide), Mfm.scan, size, bare_round length ones]
  dsimp only
  rw [if_pos (by decide)]

omit length ones in
/-- The sector of bad data, one that is not found, and the sector again: it is said to be right. -/
theorem loadSector_stale : ∃ p c, P64.parseChunks p 2 {} = some (true, c) ∧
    ¬ Transparent p c bareBlock [bareBlock, missingBlock] := by
  have sum : bareGaps.sum = 192 := by decide
  obtain ⟨p, c, bits, parsed, cells, length, ones⟩ :=
    track_written bareBlock bareGaps (by decide) (by decide) (by rw [sum]; decide)
  have size : bits.length = 2072 := by rw [length, sum]; rfl
  have bad : sectorOf p c bareBlock = some (false, List.replicate 512 0) := by
    rw [sectorOf, cells, Option.bind_some]
    exact bare_bad size ones
  have track : missingBlock.cache_id = bareBlock.cache_id := rfl
  have missing : sectorOf p c missingBlock = none := by
    rw [sectorOf, cellsOf_congr track, cells, Option.bind_some]
    exact bare_missing size ones
  refine ⟨p, c, parsed, Stale.not_transparent ⟨⟨_, bad⟩, [], bareBlock, [missingBlock], rfl, rfl, rfl, ?_, ?_⟩⟩
  · exact List.forall_mem_singleton.mpr (.inr ⟨track, .inr missing⟩)
  · exact ⟨missingBlock, List.mem_singleton_self _, track, missing⟩

end P81

end Meatloaf.Disk
