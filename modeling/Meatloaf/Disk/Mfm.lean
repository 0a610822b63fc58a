import Mathlib.Data.Nat.Periodic
import Meatloaf.Lib.Bits

/-! The `mfm` functions: sectors read out of a stream of MFM cells. A byte is sixteen cells, a clock bit before every
data bit; the stream is packed into bytes, most significant bit first, and is taken for a loop. -/
namespace Meatloaf.Disk.Mfm

open Lib

def SYNC_PATTERN : Nat := 0x4489
def MARK_ID : UInt8 := 0xFE
def MARK_DATA : UInt8 := 0xFB
def MARK_DELETED_DATA : UInt8 := 0xF8

/- How many cells there are. They are numbered by an `int`; the longest track a caller hands over has 16384 bytes. -/
def cells (bits : List UInt8) : Nat := bits.length * 8

def bitAt (bits : List UInt8) (p : Nat) : Bool := (bits.getD (p / 8) 0).toNat.testBit (7 - p % 8)

/- The loop of `findSync`. -/
def rollOn (bits : List UInt8) : Nat → Nat → Nat → Nat → Option Nat
  | 0, _, _, _ => none
  | limit + 1, p, window, filled =>
    let window := (window <<< 1 ||| (bitAt bits p).toNat) &&& 0xffff
    let p := if cells bits ≤ p + 1 then 0 else p + 1
    if 16 ≤ filled + 1 ∧ window = SYNC_PATTERN then some p else rollOn bits limit p window (filled + 1)

/-- `findSync`: the cell behind the next sync, within `limit` cells. -/
def findSync (bits : List UInt8) (p limit : Nat) : Option Nat :=
  if bits = [] then none else rollOn bits limit (if cells bits ≤ p then 0 else p) 0 0

/-- `readBytes`, which takes the second cell of each pair. -/
def readBytes (bits : List UInt8) (p count : Nat) : List UInt8 :=
  (List.range count).map fun i =>
    UInt8.ofNat (word (fun bit => bitAt bits ((p + i * 16 + bit * 2 + 1) % cells bits)) 0 8)

def crcByte (crc : UInt16) (b : UInt8) : UInt16 :=
  (List.range 8).foldl (fun crc _ => if crc &&& 0x8000 ≠ 0 then (crc <<< 1) ^^^ 0x1021 else crc <<< 1)
    (crc ^^^ (b.toUInt16 <<< 8))

def crc16 (data : List UInt8) (crc : UInt16) : UInt16 := data.foldl crcByte crc

/-- `skipExtraSyncs`: the cell behind the last sync of a run, and how many there are. -/
def skipExtraSyncs (bits : List UInt8) : Nat → Nat → Nat → Nat × Nat
  | 0, p, marks => (p, marks)
  | fuel + 1, p, marks =>
    if findSync bits p 16 = some (p + 16) then skipExtraSyncs bits fuel (p + 16) (marks + 1) else (p, marks)

/- Two bytes as they stand on the track. -/
def pair (high low : UInt8) : UInt16 := high.toUInt16 <<< 8 ||| low.toUInt16

/- What `readSector` does once it has found the header whose id block starts at `p`: whether the checksum of the data
is right, and the data. -/
def readData (bits : List UInt8) (p size : Nat) : Option (Bool × List UInt8) :=
  match findSync bits (p + 7 * 16) (100 * 16) with
  | none => none
  | some d =>
    let d := (skipExtraSyncs bits (cells bits) d 1).1
    let data_mark := (readBytes bits d 1).getD 0 0
    if data_mark ≠ MARK_DATA ∧ data_mark ≠ MARK_DELETED_DATA then none
    else
      let out := readBytes bits (d + 16) size
      let tail := readBytes bits (d + 16 + size * 16) 2
      let running := crc16 out (crc16 [data_mark] (crc16 [0xa1, 0xa1, 0xa1] 0xffff))
      some (running == pair (tail.getD 0 0) (tail.getD 1 0), out)

/- The loop of `readSector`. `first` is the first place a search ended at. -/
def scan (bits : List UInt8) (cylinder head sector : UInt8) (size : Nat) :
    Nat → Nat → Option Nat → Option (Bool × List UInt8)
  | 0, _, _ => none
  | guard + 1, p, first =>
    match findSync bits p (cells bits) with
    | none => none
    | some p =>
      if first = some p then none
      else
        let first := some (first.getD p)
        let run := skipExtraSyncs bits (cells bits) p 1
        if (readBytes bits run.1 1).getD 0 0 ≠ MARK_ID ∨ run.2 < 3 then
          scan bits cylinder head sector size guard run.1 first
        else
          let id := readBytes bits run.1 7
          if crc16 ([0xa1, 0xa1, 0xa1] ++ id.take 5) 0xffff ≠ pair (id.getD 5 0) (id.getD 6 0) then
            scan bits cylinder head sector size guard run.1 first
          else if id.getD 1 0 ≠ cylinder ∨ id.getD 2 0 ≠ head ∨ id.getD 3 0 ≠ sector then
            scan bits cylinder head sector size guard (run.1 + 7 * 16) first
          else readData bits run.1 size

/-- `readSector`; `none` where it returns false. -/
def readSector (bits : List UInt8) (cylinder head sector : UInt8) (size : Nat) : Option (Bool × List UInt8) :=
  scan bits cylinder head sector size 256 0 none

variable {bits : List UInt8} {f : Nat → Bool} {p limit x y lo hi : Nat} {r : Option Nat}

/- The loop as an endless stream of cells. -/
structure Plays (bits : List UInt8) (f : Nat → Bool) : Prop where
  stored : ∀ p < cells bits, bitAt bits p = f p
  period : Function.Periodic f (cells bits)

theorem Plays.read (plays : Plays bits f) (some_ : 0 < cells bits) (x : Nat) : bitAt bits (x % cells bits) = f x := by
  rw [plays.stored _ (Nat.mod_lt x some_), plays.period.map_mod_nat]

/- The sync pattern starts at cell `x`. -/
def SyncAt (f : Nat → Bool) (x : Nat) : Prop := word f x 16 = SYNC_PATTERN

/- The answer of a search through the cells from `lo` up to `hi` of the stream. -/
inductive Search (f : Nat → Bool) (n lo hi : Nat) : Option Nat → Prop
  | found (x : Nat) (after : lo ≤ x) (inside : x + 16 ≤ hi) (here : SyncAt f x)
      (next : ∀ y, lo ≤ y → y < x → ¬ SyncAt f y) : Search f n lo hi (some ((x + 16) % n))
  | missed (never : ∀ y, lo ≤ y → y + 16 ≤ hi → ¬ SyncAt f y) : Search f n lo hi none

theorem Search.before {n : Nat} (search : Search f n (lo + 1) hi r) (other : ¬ SyncAt f lo) : Search f n lo hi r := by
  cases search with
  | found x after inside here next =>
    refine .found x (by omega) inside here fun y later earlier => ?_
    by_cases first : y = lo
    · exact first ▸ other
    · exact next y (by omega) earlier
  | missed never =>
    refine .missed fun y later inside => ?_
    by_cases first : y = lo
    · exact first ▸ other
    · exact never y (by omega) inside

theorem window_roll (f : Nat → Bool) (x t : Nat) :
    ((word f x t % 2 ^ 16) <<< 1 ||| (f (x + t)).toNat) &&& 0xffff = word f x (t + 1) % 2 ^ 16 := by
  have low : (f (x + t)).toNat < 2 ^ 1 := Bool.toNat_lt _
  rw [← Nat.shiftLeft_add_eq_or_of_lt low, Nat.shiftLeft_eq, ← word_roll]
  exact Nat.and_two_pow_sub_one_eq_mod _ 16

theorem behind_mod {n : Nat} (some_ : 0 < n) (x : Nat) : (if n ≤ x % n + 1 then 0 else x % n + 1) = (x + 1) % n := by
  have inside := Nat.mod_lt x some_
  have reduced : (x + 1) % n = (x % n + 1) % n := (Nat.mod_add_mod x n 1).symm
  by_cases last : n ≤ x % n + 1
  · have full : x % n + 1 = n := by omega
    simp [reduced, full]
  · rw [if_neg last, reduced]
    exact (Nat.mod_eq_of_lt (by omega)).symm

/- The loop after `t` cells: the windows that start before `x + (t + 1 - 16)` have been seen. -/
theorem rollOn_search (plays : Plays bits f) (some_ : 0 < cells bits) (x limit t : Nat) :
    Search f (cells bits) (x + (t + 1 - 16)) (x + t + limit)
      (rollOn bits limit ((x + t) % cells bits) (word f x t % 2 ^ 16) t) := by
  induction limit generalizing t with
  | zero => exact .missed fun y later inside => by omega
  | succ limit ih =>
    have further := ih (t + 1)
    have stop : x + (t + 1) + limit = x + t + (limit + 1) := by omega
    rw [stop] at further
    have window (d : Nat) (far : t = d + 15) : SyncAt f (x + d) ↔ word f x (t + 1) % 2 ^ 16 = SYNC_PATTERN := by
      rw [SyncAt, ← word_window f x d 16, far]
    simp only [rollOn, plays.read some_, window_roll, behind_mod some_]
    by_cases filled : 16 ≤ t + 1
    · obtain ⟨d, far⟩ : ∃ d, t = d + 15 := ⟨t - 15, by omega⟩
      have start : t + 1 - 16 = d := by omega
      have later : t + 1 + 1 - 16 = d + 1 := by omega
      rw [later] at further
      rw [start]
      by_cases here : SyncAt f (x + d)
      · have found : Search f (cells bits) (x + d) (x + t + (limit + 1)) (some ((x + d + 16) % cells bits)) :=
          .found (x + d) (by omega) (by omega) here fun y later earlier => by omega
        have end_ : x + d + 16 = x + t + 1 := by omega
        rw [if_pos ⟨filled, (window d far).mp here⟩]
        rwa [end_] at found
      · rw [if_neg fun both => here ((window d far).mpr both.2)]
        exact further.before here
    · have start : t + 1 - 16 = 0 := by omega
      have later : t + 1 + 1 - 16 = 0 := by omega
      rw [later] at further
      rw [start, if_neg fun both => filled both.1]
      exact further

theorem findSync_search (plays : Plays bits f) (inside : p < cells bits) (limit : Nat) :
    Search f (cells bits) p (p + limit) (findSync bits p limit) := by
  have some_ : 0 < cells bits := by omega
  have nonempty : bits ≠ [] := by
    rintro rfl
    simp [cells] at some_
  have search := rollOn_search plays some_ p limit 0
  rw [Nat.add_zero, Nat.mod_eq_of_lt inside] at search
  rw [findSync, if_neg nonempty, if_neg (by omega)]
  exact search

/- A search from behind the end starts at the beginning. -/
theorem findSync_over (exceeds : cells bits ≤ p) (limit : Nat) : findSync bits p limit = findSync bits 0 limit := by
  simp [findSync, exceeds]

theorem rollOn_lt (some_ : 0 < cells bits) (limit p window filled : Nat) :
    ∀ q, rollOn bits limit p window filled = some q → q < cells bits := by
  induction limit generalizing p window filled with
  | zero => simp [rollOn]
  | succ limit ih =>
    intro q answer
    simp only [rollOn] at answer
    split at answer
    next =>
      cases answer
      split <;> omega
    next => exact ih _ _ _ q answer

theorem findSync_lt {q : Nat} (answer : findSync bits p limit = some q) : q < cells bits := by
  rw [findSync] at answer
  split at answer
  next => cases answer
  next nonempty =>
    have some_ : 0 < cells bits := Nat.mul_pos (List.length_pos_iff.mpr nonempty) (by decide)
    exact rollOn_lt some_ _ _ _ _ q answer

/- The loop of `skipExtraSyncs` ends where it does in the source: a step is sixteen cells, and none leads over the
end. -/
theorem skipExtraSyncs_ends (fuel p marks : Nat) (enough : cells bits ≤ p + 16 * fuel) :
    findSync bits (skipExtraSyncs bits fuel p marks).1 16 ≠ some ((skipExtraSyncs bits fuel p marks).1 + 16) := by
  induction fuel generalizing p marks with
  | zero =>
    intro answer
    have := findSync_lt answer
    simp only [skipExtraSyncs] at this
    omega
  | succ fuel ih =>
    rw [skipExtraSyncs]
    split
    next => exact ih (p + 16) (marks + 1) (by omega)
    next ended => exact ended

end Meatloaf.Disk.Mfm
