import Mathlib.Data.List.Rotate
import Meatloaf.Disk.Mfm

/-! The tracks that hold the standard encoding of a list of sectors, as loops of items: a sync, or a byte of data. A
clock bit is written between two zero bits, but for the one that is missing from a sync. -/
namespace Meatloaf.Disk.Mfm

open Lib

inductive Item
  | sync
  | byte (b : UInt8)
  deriving DecidableEq

namespace Item

/- The data bits of an item. A sync is an `A1`. -/
def value : Item → UInt8
  | sync => 0xa1
  | byte b => b

end Item

def crcBytes (crc : UInt16) : List UInt8 := [(crc >>> 8).toUInt8, crc.toUInt8]

def syncs : List Item := List.replicate 3 .sync

/- A sector as it is written: its id with the size code, the gap before the data, the mark and the data, and what comes
before the next sector. -/
structure Sector where
  cylinder : UInt8
  head : UInt8
  sector : UInt8
  code : UInt8
  gap : List UInt8
  deleted : Bool
  data : List UInt8
  after : List UInt8

namespace Sector

variable (x : Sector)

def id : UInt8 × UInt8 × UInt8 := (x.cylinder, x.head, x.sector)

def idBlock : List UInt8 := [MARK_ID, x.cylinder, x.head, x.sector, x.code]

def mark : UInt8 := if x.deleted then MARK_DELETED_DATA else MARK_DATA

/- A checksum is that of the block behind three `A1`. -/
def header : List UInt8 := x.idBlock ++ crcBytes (crc16 ([0xa1, 0xa1, 0xa1] ++ x.idBlock) 0xffff)

def body : List UInt8 := x.mark :: x.data ++ crcBytes (crc16 ([0xa1, 0xa1, 0xa1] ++ x.mark :: x.data) 0xffff)

def items : List Item := syncs ++ (x.header ++ x.gap).map .byte ++ (syncs ++ (x.body ++ x.after).map .byte)

end Sector

/- The loop of the items of a list, and its cells. -/
section Loop

variable (items : List Item)

def item (m : Nat) : Item := items.getD (m % items.length) .sync

def dataBit (t : Nat) : Bool := (item items (t / 8)).value.toNat.testBit (7 - t % 8)

/- The clock bit before a data bit. -/
def clockBit (t : Nat) : Bool :=
  !(dataBit items (t + (8 * items.length - 1)) || dataBit items t) &&
    !(item items (t / 8) = .sync ∧ t % 8 = 5 : Bool)

def cell (q : Nat) : Bool := if q % 2 = 1 then dataBit items (q / 2) else clockBit items (q / 2)

/- The cells of the loop, packed into bytes. -/
def pack : List UInt8 := (List.range (items.length * 2)).map fun j => UInt8.ofNat (word (cell items) (j * 8) 8)

end Loop

def track (sectors : List Sector) : List Item := sectors.flatMap Sector.items

def encode (sectors : List Sector) : List UInt8 := pack (track sectors)

variable {items : List Item}

theorem item_period : Function.Periodic (item items) items.length := fun m => by
  simp [item]

theorem dataBit_period : Function.Periodic (dataBit items) (8 * items.length) := fun t => by
  have whole : (t + 8 * items.length) / 8 = t / 8 + items.length := by omega
  have bit : (t + 8 * items.length) % 8 = t % 8 := by omega
  rw [dataBit, whole, bit, item_period, dataBit]

/- The data bit before this one. -/
theorem dataBit_before (nonempty : 0 < items.length) (t : Nat) :
    dataBit items (t + 1 + (8 * items.length - 1)) = dataBit items t := by
  have whole : t + 1 + (8 * items.length - 1) = t + 8 * items.length := by omega
  rw [whole, dataBit_period]

theorem cell_period : Function.Periodic (cell items) (items.length * 16) := fun q => by
  have half : (q + items.length * 16) / 2 = q / 2 + 8 * items.length := by omega
  have parity : (q + items.length * 16) % 2 = q % 2 := by omega
  have eighth : (q / 2 + 8 * items.length) / 8 = q / 2 / 8 + items.length := by omega
  have bit : (q / 2 + 8 * items.length) % 8 = q / 2 % 8 := by omega
  have before : q / 2 + 8 * items.length + (8 * items.length - 1) =
      q / 2 + (8 * items.length - 1) + 8 * items.length := by omega
  simp only [cell, clockBit, half, parity, eighth, bit, before, dataBit_period _, item_period _]

theorem cell_data (t : Nat) : cell items (t * 2 + 1) = dataBit items t := by
  have half : (t * 2 + 1) / 2 = t := by omega
  have parity : (t * 2 + 1) % 2 = 1 := by omega
  rw [cell, if_pos parity, half]

theorem cell_clock (t : Nat) : cell items (t * 2) = clockBit items t := by
  simp [cell]

/- The byte of an item, bit by bit. -/
theorem dataBit_item (m i : Nat) (inside : i < 8) :
    dataBit items (m * 8 + i) = (item items m).value.toNat.testBit (7 - i) := by
  have whole : (m * 8 + i) / 8 = m := by omega
  have bit : (m * 8 + i) % 8 = i := by omega
  rw [dataBit, whole, bit]

/- A clock bit that is missing between two zeros is that of a sync. -/
theorem clock_missing (nonempty : 0 < items.length) (t : Nat) (zero : dataBit items t = false)
    (next : dataBit items (t + 1) = false) (missing : clockBit items (t + 1) = false) :
    item items ((t + 1) / 8) = .sync ∧ (t + 1) % 8 = 5 := by
  simpa [clockBit, dataBit_before nonempty, zero, next] using missing

/- What makes the syncs of a loop the only ones: behind each there is another, or a byte whose top bit is set. -/
def Marked (items : List Item) : Prop := ∀ m, item items m = .sync → (item items (m + 1)).value.toNat.testBit 7 = true

theorem syncAt_iff (f : Nat → Bool) (x : Nat) : SyncAt f x ↔ ∀ i < 16, f (x + i) = SYNC_PATTERN.testBit (15 - i) := by
  have spelt : word (fun i => SYNC_PATTERN.testBit (16 - 1 - i)) 0 16 = SYNC_PATTERN :=
    word_testBit SYNC_PATTERN 16 (by decide) 16 (by decide)
  constructor
  · intro here i inside
    have same : word f x 16 = word (fun i => SYNC_PATTERN.testBit (16 - 1 - i)) 0 16 := here.trans spelt.symm
    simpa using word_inj same i inside
  · intro bits
    rw [SyncAt, ← spelt]
    exact word_congr fun i inside => by simpa using bits i inside

/- A sync is written as its pattern. -/
theorem sync_written (nonempty : 0 < items.length) (m : Nat) (here : item items m = .sync) :
    SyncAt (cell items) (m * 16) := by
  have data (i : Nat) (inside : i < 8) : dataBit items (m * 8 + i) = (0xa1 : Nat).testBit (7 - i) := by
    rw [dataBit_item m i inside, here]
    rfl
  have clock : ∀ i < 8, clockBit items (m * 8 + i) = SYNC_PATTERN.testBit (15 - i * 2) := by
    intro i inside
    have whole : (m * 8 + i) / 8 = m := by omega
    have bit : (m * 8 + i) % 8 = i := by omega
    cases i with
    | zero =>
      have first : dataBit items (m * 8 + 0) = true := data 0 (by decide)
      simp only [clockBit, first, Bool.or_true, Bool.not_true, Bool.false_and]
      rfl
    | succ i =>
      have table : ∀ i < 7, (!((0xa1 : Nat).testBit (7 - i) || (0xa1 : Nat).testBit (7 - (i + 1))) &&
          !(i + 1 = 5 : Bool)) = SYNC_PATTERN.testBit (15 - (i + 1) * 2) := by decide
      rw [← table i (by omega), clockBit, whole, bit, ← Nat.add_assoc, dataBit_before nonempty, data i (by omega),
        Nat.add_assoc, data (i + 1) inside, here]
      simp
  rw [syncAt_iff]
  intro i inside
  obtain ⟨t, rfl | rfl⟩ : ∃ t, i = t * 2 ∨ i = t * 2 + 1 := ⟨i / 2, by omega⟩
  · have place : m * 16 + t * 2 = (m * 8 + t) * 2 := by omega
    rw [place, cell_clock, clock t (by omega)]
  · have place : m * 16 + (t * 2 + 1) = (m * 8 + t) * 2 + 1 := by omega
    have table : ∀ t < 8, (0xa1 : Nat).testBit (7 - t) = SYNC_PATTERN.testBit (15 - (t * 2 + 1)) := by decide
    rw [place, cell_data, data t (by omega), table t (by omega)]

/- Nothing else on a marked loop looks like one. A window that starts at a clock bit has its missing clock where a sync
has it; one that starts at a data bit would have the missing clock too, and a zero where the next item starts. -/
theorem sync_only (nonempty : 0 < items.length) (marked : Marked items) (x : Nat) (here : SyncAt (cell items) x) :
    x % 16 = 0 ∧ item items (x / 16) = .sync := by
  rw [syncAt_iff] at here
  obtain ⟨t, rfl | rfl⟩ : ∃ t, x = t * 2 ∨ x = t * 2 + 1 := ⟨x / 2, by omega⟩
  · have zero : dataBit items (t + 4) = false := by
      rw [← cell_data]
      exact (congrArg (cell items) (by omega)).trans (here 9 (by decide))
    have next : dataBit items (t + 4 + 1) = false := by
      rw [← cell_data]
      exact (congrArg (cell items) (by omega)).trans (here 11 (by decide))
    have missing : clockBit items (t + 4 + 1) = false := by
      rw [← cell_clock]
      exact (congrArg (cell items) (by omega)).trans (here 10 (by decide))
    obtain ⟨sync, bit⟩ := clock_missing nonempty (t + 4) zero next missing
    have same : t * 2 / 16 = (t + 4 + 1) / 8 := by omega
    exact ⟨by omega, same ▸ sync⟩
  · exfalso
    have zero : dataBit items (t + 1) = false := by
      rw [← cell_data]
      exact (congrArg (cell items) (by omega)).trans (here 2 (by decide))
    have next : dataBit items (t + 1 + 1) = false := by
      rw [← cell_data]
      exact (congrArg (cell items) (by omega)).trans (here 4 (by decide))
    have missing : clockBit items (t + 1 + 1) = false := by
      rw [← cell_clock]
      exact (congrArg (cell items) (by omega)).trans (here 3 (by decide))
    obtain ⟨sync, bit⟩ := clock_missing nonempty (t + 1) zero next missing
    have top := marked _ sync
    have first : t + 5 = ((t + 1 + 1) / 8 + 1) * 8 + 0 := by omega
    have low : dataBit items (t + 5) = false := by
      rw [← cell_data]
      exact (congrArg (cell items) (by omega)).trans (here 10 (by decide))
    rw [first, dataBit_item _ 0 (by decide), top] at low
    cases low

theorem syncAt_cell (nonempty : 0 < items.length) (marked : Marked items) (x : Nat) :
    SyncAt (cell items) x ↔ ∃ m, x = m * 16 ∧ item items m = .sync := by
  constructor
  · intro here
    obtain ⟨aligned, sync⟩ := sync_only nonempty marked x here
    exact ⟨x / 16, by omega, sync⟩
  · rintro ⟨m, rfl, sync⟩
    exact sync_written nonempty m sync

theorem cells_pack (k : Nat) : cells ((pack items).rotate k) = items.length * 16 := by
  simp [cells, pack]
  omega

/- What is stored is the loop, from cell `8k` on. -/
theorem plays_pack (k : Nat) : Plays ((pack items).rotate k) fun p => cell items (p + 8 * k) := by
  have length : (pack items).length = items.length * 2 := by simp [pack]
  refine ⟨fun p inside => ?_, fun p => ?_⟩
  · rw [cells_pack] at inside
    have place : p / 8 < ((pack items).rotate k).length := by
      rw [List.length_rotate, length]
      omega
    have byte : ((pack items).rotate k).getD (p / 8) 0 =
        UInt8.ofNat (word (cell items) ((p / 8 + k) % (items.length * 2) * 8) 8) := by
      rw [List.getD_eq_getElem _ _ place, List.getElem_rotate]
      simp [pack]
    have small := word_lt (cell items) ((p / 8 + k) % (items.length * 2) * 8) 8
    have bit : 7 - p % 8 = 8 - 1 - p % 8 := by omega
    have turned : (p / 8 + k) % (items.length * 2) * 8 + p % 8 + (p / 8 + k) / (items.length * 2) *
        (items.length * 16) = p + 8 * k := by
      have split := Nat.div_add_mod' (p / 8 + k) (items.length * 2)
      have turns : (p / 8 + k) / (items.length * 2) * (items.length * 16) =
          (p / 8 + k) / (items.length * 2) * (items.length * 2) * 8 := by ring
      omega
    rw [bitAt, byte, UInt8.toNat_ofNat_of_lt' small, bit, testBit_word _ _ 8 _ (Nat.mod_lt p (by decide)), ← turned]
    exact (cell_period.nat_mul _ _).symm
  · rw [cells_pack]
    exact (congrArg (cell items) (by omega)).trans (cell_period (p + 8 * k))

/- An item is read back from its cells. -/
theorem word_item (m : Nat) : UInt8.ofNat (word (fun bit => cell items (m * 16 + bit * 2 + 1)) 0 8) =
    (item items m).value := by
  have spelt := word_testBit (item items m).value.toNat 8 (item items m).value.toNat_lt 8 (by decide)
  have same : word (fun bit => cell items (m * 16 + bit * 2 + 1)) 0 8 = (item items m).value.toNat := by
    rw [← Nat.div_one (item items m).value.toNat]
    refine Eq.trans (word_congr fun i inside => ?_) spelt
    have place : m * 16 + i * 2 + 1 = (m * 8 + i) * 2 + 1 := by omega
    simp only [Nat.zero_add, place, cell_data, dataBit_item m i inside]
  rw [same, UInt8.ofNat_toNat]

/- A buffer that holds a marked loop, from cell `o` on. -/
structure Ring (bits : List UInt8) (items : List Item) (o : Nat) : Prop where
  plays : Plays bits fun p => cell items (p + o)
  length : cells bits = items.length * 16
  nonempty : 0 < items.length
  marked : Marked items

/- Cell `p` of the buffer is the first of item `m`. -/
def Sits (items : List Item) (o p m : Nat) : Prop := ∃ t, p + o + t * (items.length * 16) = m * 16

variable {bits : List UInt8} {o p q m j limit : Nat}

theorem Sits.shift (sits : Sits items o p m) (j : Nat) : Sits items o (p + 16 * j) (m + j) := by
  obtain ⟨t, place⟩ := sits
  exact ⟨t, by omega⟩

theorem item_turn (m t i : Nat) : item items (m + t * items.length + i) = item items (m + i) := by
  rw [Nat.add_right_comm]
  exact item_period.nat_mul t _

theorem Sits.turn (sits : Sits items o p m) (u : Nat) : Sits items o p (m + u * items.length) := by
  obtain ⟨t, place⟩ := sits
  have more : (t + u) * (items.length * 16) = t * (items.length * 16) + u * items.length * 16 := by ring
  exact ⟨t + u, by omega⟩

theorem Sits.base (sits : Sits items o p m) : ∃ m₀ t, p + o = m₀ * 16 ∧ m = m₀ + t * items.length := by
  obtain ⟨t, place⟩ := sits
  have turns : t * (items.length * 16) = t * items.length * 16 := by ring
  exact ⟨m - t * items.length, t, by omega, by omega⟩

namespace Ring

variable (ring : Ring bits items o)

include ring

theorem some_ : 0 < cells bits := by
  have := ring.length
  have := ring.nonempty
  omega

theorem sits_mod (x m : Nat) (place : x + o = m * 16) : Sits items o (x % cells bits) m := by
  refine ⟨x / cells bits, ?_⟩
  have := Nat.mod_add_div' x (cells bits)
  rw [← ring.length]
  omega

theorem readBytes_items (sits : Sits items o p m) (count : Nat) :
    readBytes bits p count = (List.range count).map fun i => (item items (m + i)).value := by
  obtain ⟨m₀, t, place, rfl⟩ := sits.base
  refine List.map_congr_left fun i _ => ?_
  rw [item_turn, ← word_item]
  refine congrArg UInt8.ofNat (word_congr fun bit _ => ?_)
  rw [ring.plays.read ring.some_]
  exact congrArg (cell items) (by omega)

theorem readBytes_one (sits : Sits items o p m) : (readBytes bits p 1).getD 0 0 = (item items m).value := by
  simp [ring.readBytes_items sits 1]

theorem syncAt_item (x : Nat) : SyncAt (fun p => cell items (p + o)) x ↔ ∃ m, x + o = m * 16 ∧ item items m = .sync := by
  rw [← syncAt_cell ring.nonempty ring.marked]
  have same : word (fun p => cell items (p + o)) x 16 = word (cell items) (x + o) 16 :=
    word_congr fun i _ => congrArg (cell items) (by omega)
  rw [SyncAt, SyncAt, same]

/- A search that finds something ends behind a sync. -/
theorem findSync_some (answer : findSync bits p limit = some q) :
    q < cells bits ∧ ∃ m, item items m = .sync ∧ Sits items o q (m + 1) := by
  refine ⟨findSync_lt answer, ?_⟩
  obtain ⟨p', inside, same⟩ : ∃ p', p' < cells bits ∧ findSync bits p' limit = some q := by
    by_cases exceeds : cells bits ≤ p
    · exact ⟨0, ring.some_, findSync_over exceeds limit ▸ answer⟩
    · exact ⟨p, by omega, answer⟩
  have search := findSync_search ring.plays inside limit
  rw [same] at search
  obtain ⟨x, -, -, here, -⟩ := search
  obtain ⟨m, place, sync⟩ := (ring.syncAt_item x).mp here
  exact ⟨m, sync, ring.sits_mod (x + 16) (m + 1) (by omega)⟩

/- The first sync from `p` on is found if it lies within the limit. -/
theorem findSync_first (inside : p < cells bits) (after : p + o ≤ m * 16) (sync : item items m = .sync)
    (first : ∀ j, p + o ≤ j * 16 → j < m → item items j ≠ .sync) (limit : Nat) :
    findSync bits p limit =
      if m * 16 + 16 ≤ p + o + limit then some ((m * 16 + 16 - o) % cells bits) else none := by
  have search := findSync_search ring.plays inside limit
  have here : SyncAt (fun p => cell items (p + o)) (m * 16 - o) := (ring.syncAt_item _).mpr ⟨m, by omega, sync⟩
  have least (x : Nat) (later : p ≤ x) (found : SyncAt (fun p => cell items (p + o)) x) : m * 16 - o ≤ x := by
    obtain ⟨j, place, sync⟩ := (ring.syncAt_item x).mp found
    by_contra earlier
    exact first j (by omega) (by omega) sync
  generalize findSync bits p limit = r at search
  cases search with
  | found x later inside found next =>
    have := least x later found
    have same : x = m * 16 - o := by
      by_contra other
      exact next _ (by omega) (by omega) here
    rw [if_pos (by omega)]
    exact congrArg (fun x => some (x % cells bits)) (by omega)
  | missed never =>
    rw [if_neg]
    intro reach
    exact never _ (by omega) (by omega) here

/- One more sync is taken if it follows at once and the end of the buffer does not. -/
theorem findSync_next (inside : p < cells bits) (sits : Sits items o p m) :
    findSync bits p 16 = some (p + 16) ↔ item items m = .sync ∧ p + 16 < cells bits := by
  obtain ⟨m₀, t, place, rfl⟩ := sits.base
  have same : item items (m₀ + t * items.length) = item items m₀ := item_turn m₀ t 0
  rw [same]
  constructor
  · intro answer
    refine ⟨?_, findSync_lt answer⟩
    have search := findSync_search ring.plays inside 16
    rw [answer] at search
    obtain ⟨x, later, reach, here, -⟩ : ∃ x, p ≤ x ∧ x + 16 ≤ p + 16 ∧
        SyncAt (fun p => cell items (p + o)) x ∧ True := by
      generalize found : some (p + 16) = r at search
      cases search with
      | found x later reach here => exact ⟨x, later, reach, here, trivial⟩
      | missed never => cases found
    obtain ⟨j, spot, sync⟩ := (ring.syncAt_item x).mp here
    have here : j = m₀ := by omega
    exact here ▸ sync
  · rintro ⟨sync, room⟩
    rw [ring.findSync_first inside (m := m₀) (by omega) sync (by omega) 16, if_pos (by omega)]
    congr 1
    rw [Nat.mod_eq_of_lt (by omega)]
    omega

/- What is left of a run: `j` syncs, up to its end or the end of the buffer. -/
theorem skipExtraSyncs_run (j : Nat) (sits : Sits items o p m) (syncs : ∀ i < j, item items (m + i) = .sync)
    (inside : p + 16 * j < cells bits) (stop : item items (m + j) ≠ .sync ∨ cells bits ≤ p + 16 * j + 16)
    (fuel marks : Nat) (enough : j < fuel) : skipExtraSyncs bits fuel p marks = (p + 16 * j, marks + j) := by
  induction j generalizing p m fuel marks with
  | zero =>
    obtain ⟨fuel, rfl⟩ : ∃ k, fuel = k + 1 := ⟨fuel - 1, by omega⟩
    have stops : ¬ findSync bits p 16 = some (p + 16) := by
      rw [ring.findSync_next (by omega) sits]
      rintro ⟨sync, room⟩
      exact stop.elim (fun other => other sync) (by omega)
    rw [skipExtraSyncs, if_neg stops]
    rfl
  | succ j ih =>
    obtain ⟨fuel, rfl⟩ : ∃ k, fuel = k + 1 := ⟨fuel - 1, by omega⟩
    have goes : findSync bits p 16 = some (p + 16) :=
      (ring.findSync_next (by omega) sits).mpr ⟨syncs 0 (by omega), by omega⟩
    have place : p + 16 * (j + 1) = p + 16 + 16 * j := by omega
    have behind (i : Nat) : m + 1 + i = m + (i + 1) := by omega
    rw [skipExtraSyncs, if_pos goes, place]
    rw [place] at inside stop
    rw [ih (sits.shift 1) (fun i less => behind i ▸ syncs (i + 1) (by omega)) inside (behind j ▸ stop) fuel
      (marks + 1) (by omega)]
    congr 1
    omega

/- Whatever is skipped is a run of syncs that the end of the buffer does not break. -/
theorem skipExtraSyncs_skips (sits : Sits items o p m) (inside : p < cells bits) (fuel marks : Nat) :
    ∃ j, skipExtraSyncs bits fuel p marks = (p + 16 * j, marks + j) ∧ p + 16 * j < cells bits ∧
      ∀ i < j, item items (m + i) = .sync := by
  induction fuel generalizing p m marks with
  | zero => exact ⟨0, rfl, inside, by simp⟩
  | succ fuel ih =>
    rw [skipExtraSyncs]
    split
    next goes =>
      obtain ⟨sync, room⟩ := (ring.findSync_next inside sits).mp goes
      obtain ⟨j, result, within, syncs⟩ := ih (sits.shift 1) room (marks + 1)
      refine ⟨j + 1, ?_, by omega, fun i less => ?_⟩
      · rw [result]
        congr 1 <;> omega
      · cases i with
        | zero => exact sync
        | succ i =>
          have behind : m + (i + 1) = m + 1 + i := by omega
          exact behind ▸ syncs i (by omega)
    next => exact ⟨0, rfl, inside, by simp⟩

end Ring

end Meatloaf.Disk.Mfm
