import Mathlib.Algebra.GroupWithZero.Nat
import Mathlib.Data.List.Infix
import Meatloaf.Lib.Store

/-! `MSession::CachedFile`: a file in a buffer of the heap, or in blocks of memory that are mapped one at a time. -/
namespace Meatloaf

open Lib

def ESP_HIMEM_BLKSZ : Nat := 0x8000

/-- The driver of the blocks. `map` shows one of them, from an offset of the handle on, and `unmap` keeps what was
written to it. -/
structure Himem (σ : Type*) where
  map : σ → Nat → Option (Nat → UInt8)
  unmap : σ → Nat → (Nat → UInt8) → σ

variable {σ : Type*}

/-- What a driver is for: the blocks are one piece of memory. -/
structure Himem.Lawful (driver : Himem σ) (content : σ → Nat → UInt8) (blocks : Nat) : Prop where
  map : ∀ s block, block < blocks →
    driver.map s (block * ESP_HIMEM_BLKSZ) = some fun i => content s (block * ESP_HIMEM_BLKSZ + i)
  unmap : ∀ s block ptr, block < blocks → content (driver.unmap s (block * ESP_HIMEM_BLKSZ) ptr) =
    Store.put (content s) (block * ESP_HIMEM_BLKSZ) (Store.read ptr 0 ESP_HIMEM_BLKSZ)

namespace CachedFile

inductive Direction
  | read
  | write

/-- `memcpy` between a place of the store and a place of the caller's buffer: both afterwards. -/
def memcpy (dir : Direction) (store buf : Nat → UInt8) (place taken n : Nat) : (Nat → UInt8) × (Nat → UInt8) :=
  match dir with
  | .read => (store, Store.put buf taken (Store.read store place n))
  | .write => (Store.put store place (Store.read buf taken n), buf)

/-- The variables of a transfer, with the places of the file that it has touched. -/
structure Transfer (σ : Type*) where
  offset : UInt32
  count : UInt32
  num : UInt32 := 0
  store : σ
  buf : Nat → UInt8
  touched : List Nat := []

/- The loop over the blocks; `none` where a block cannot be mapped. A block takes a byte at least. -/
def blocksLoop (driver : Himem σ) (dir : Direction) : Nat → Transfer σ → Option (Transfer σ)
  | 0, _ => none
  | fuel + 1, t =>
    if t.count = 0 then some t
    else
      let pageStart := t.offset / ESP_HIMEM_BLKSZ.toUInt32 * ESP_HIMEM_BLKSZ.toUInt32
      let pageOffset := t.offset - pageStart
      let n := min t.count (ESP_HIMEM_BLKSZ.toUInt32 - pageOffset)
      (driver.map t.store pageStart.toNat).bind fun ptr =>
        let moved := memcpy dir ptr t.buf pageOffset.toNat t.num.toNat n.toNat
        blocksLoop driver dir fuel
          { offset := t.offset + n
            count := t.count - n
            num := t.num + n
            store := driver.unmap t.store pageStart.toNat moved.1
            buf := moved.2
            touched := t.touched ++ List.range' (pageStart + pageOffset).toNat n.toNat }

/- The test in front of both. -/
def bounded (size offset count : UInt32) : UInt32 :=
  if size ≤ offset then 0 else if size < offset + count then size - offset else count

/-- `read` and `write` of a file in mapped blocks. The count that is returned is `num`. -/
def paged (driver : Himem σ) (dir : Direction) (size offset count : UInt32) (store : σ) (buf : Nat → UInt8) :
    Option (Transfer σ) :=
  let count := bounded size offset count
  blocksLoop driver dir (count.toNat + 1) { offset, count, store, buf }

/-- and of one in a buffer, `m_data`. -/
def flat (dir : Direction) (size offset count : UInt32) (m_data buf : Nat → UInt8) : Transfer (Nat → UInt8) :=
  let count := bounded size offset count
  let moved := memcpy dir m_data buf offset.toNat 0 count.toNat
  { offset, count := 0, num := count, store := moved.1, buf := moved.2, touched := List.range' offset.toNat count.toNat }

/-- How many bytes are to be transferred. -/
def wanted (size offset count : UInt32) : Nat := min count.toNat (size.toNat - offset.toNat)

/-- Both stores transfer the bytes that are wanted, and no others. -/
def Agree (driver : Himem σ) (content : σ → Nat → UInt8) (dir : Direction) (size offset count : UInt32) (store : σ)
    (m_data buf : Nat → UInt8) : Prop :=
  let heap := flat dir size offset count m_data buf
  heap.num.toNat = wanted size offset count ∧
    (heap.store, heap.buf) = memcpy dir m_data buf offset.toNat 0 (wanted size offset count) ∧
    (∀ i ∈ heap.touched, i < size.toNat) ∧
    ∃ t, paged driver dir size offset count store buf = some t ∧ t.num = heap.num ∧ t.buf = heap.buf ∧
      (∀ i < size.toNat, content t.store i = heap.store i) ∧
      (∀ i, size.toNat ≤ i → content t.store i = content store i) ∧ ∀ i ∈ t.touched, i < size.toNat

variable {driver : Himem σ} {content : σ → Nat → UInt8} {blocks : Nat} {dir : Direction} {size offset count : UInt32}
  {t r : Transfer σ} {store : σ} {m_data buf : Nat → UInt8}

/- Two pieces one behind the other. -/
theorem memcpy_add (dir : Direction) (m buf : Nat → UInt8) (place taken n k : Nat) :
    memcpy dir (memcpy dir m buf place taken n).1 (memcpy dir m buf place taken n).2 (place + n) (taken + n) k =
      memcpy dir m buf place taken (n + k) := by
  have behind (m : Nat → UInt8) (a : Nat) (xs ys : List UInt8) (length : xs.length = n) :
      Store.put (Store.put m a xs) (a + n) ys = Store.put m a (xs ++ ys) := length ▸ Store.put_append m a xs ys
  cases dir with
  | read => rw [memcpy, memcpy, memcpy, behind _ _ _ _ (Store.length_read ..), ← Store.read_add]
  | write => rw [memcpy, memcpy, memcpy, behind _ _ _ _ (Store.length_read ..), ← Store.read_add]

theorem memcpy_zero (dir : Direction) (m buf : Nat → UInt8) (place taken : Nat) :
    memcpy dir m buf place taken 0 = (m, buf) := by
  have nothing (m : Nat → UInt8) (a : Nat) : Store.put m a [] = m := Store.put_eq_self m a [] rfl
  cases dir <;> rw [memcpy, Store.read_zero, nothing]

/- A piece of one block. -/
theorem memcpy_block (dir : Direction) (m buf : Nat → UInt8) (start taken : Nat) {place n : Nat}
    (fits : place + n ≤ ESP_HIMEM_BLKSZ) :
    (Store.put m start (Store.read (memcpy dir (fun i => m (start + i)) buf place taken n).1 0 ESP_HIMEM_BLKSZ),
      (memcpy dir (fun i => m (start + i)) buf place taken n).2) = memcpy dir m buf (start + place) taken n := by
  have shifted (a k : Nat) : Store.read (fun i => m (start + i)) a k = Store.read m (start + a) k := by
    simp only [Store.read, Nat.add_assoc]
  cases dir with
  | read =>
    simp only [memcpy, shifted, Nat.add_zero]
    rw [Store.put_read]
  | write =>
    simp only [memcpy, Prod.mk.injEq, and_true]
    funext k
    by_cases inside : start ≤ k ∧ k < start + ESP_HIMEM_BLKSZ
    · obtain ⟨i, rfl⟩ : ∃ i, k = start + i := ⟨k - start, by omega⟩
      rw [Store.put_getD _ _ _ _ 0 (by rw [Store.length_read]; omega), Store.getD_read _ _ _ _ _ (by omega), Nat.zero_add]
      simp only [Store.put, Nat.add_le_add_iff_left, Nat.add_sub_add_left]
    · rw [Store.put_outside _ _ _ _ (by rw [Store.length_read]; omega),
        Store.put_outside _ _ _ _ (by rw [Store.length_read]; omega)]

theorem toNat_min (a b : UInt32) : (min a b).toNat = min a.toNat b.toNat := by
  simp only [min, UInt32.le_iff_toNat_le]
  split <;> rfl

/- Where a pass of the loop is, in numbers. -/
theorem block_numbers (offset count : UInt32) :
    (offset / ESP_HIMEM_BLKSZ.toUInt32 * ESP_HIMEM_BLKSZ.toUInt32).toNat =
        offset.toNat / ESP_HIMEM_BLKSZ * ESP_HIMEM_BLKSZ ∧
      (offset - offset / ESP_HIMEM_BLKSZ.toUInt32 * ESP_HIMEM_BLKSZ.toUInt32).toNat = offset.toNat % ESP_HIMEM_BLKSZ ∧
      (min count (ESP_HIMEM_BLKSZ.toUInt32 - (offset - offset / ESP_HIMEM_BLKSZ.toUInt32 * ESP_HIMEM_BLKSZ.toUInt32))).toNat =
        min count.toNat (ESP_HIMEM_BLKSZ - offset.toNat % ESP_HIMEM_BLKSZ) := by
  have small := offset.toNat_lt
  have size : ESP_HIMEM_BLKSZ.toUInt32.toNat = ESP_HIMEM_BLKSZ := rfl
  have start : (offset / ESP_HIMEM_BLKSZ.toUInt32 * ESP_HIMEM_BLKSZ.toUInt32).toNat =
      offset.toNat / ESP_HIMEM_BLKSZ * ESP_HIMEM_BLKSZ := by
    rw [UInt32.toNat_mul, UInt32.toNat_div, size, ESP_HIMEM_BLKSZ]
    omega
  have place : (offset - offset / ESP_HIMEM_BLKSZ.toUInt32 * ESP_HIMEM_BLKSZ.toUInt32).toNat =
      offset.toNat % ESP_HIMEM_BLKSZ := by
    rw [UInt32.toNat_sub, start, ESP_HIMEM_BLKSZ]
    omega
  refine ⟨start, place, ?_⟩
  have left : (ESP_HIMEM_BLKSZ.toUInt32 - (offset - offset / ESP_HIMEM_BLKSZ.toUInt32 * ESP_HIMEM_BLKSZ.toUInt32)).toNat =
      ESP_HIMEM_BLKSZ - offset.toNat % ESP_HIMEM_BLKSZ := by
    rw [UInt32.toNat_sub, place, size, ESP_HIMEM_BLKSZ]
    omega
  rw [← left]
  exact toNat_min _ _

/-- The loop moves what it is asked to move, a block at a time. -/
theorem blocksLoop_moves (dir : Direction) (lawful : driver.Lawful content blocks) {fuel : Nat} (enough : t.count.toNat < fuel)
    (inside : t.count.toNat = 0 ∨ t.offset.toNat + t.count.toNat ≤ blocks * ESP_HIMEM_BLKSZ)
    (small : t.offset.toNat + t.count.toNat < 2 ^ 32) (small' : t.num.toNat + t.count.toNat < 2 ^ 32) :
    ∃ r, blocksLoop driver dir fuel t = some r ∧
      (content r.store, r.buf) = memcpy dir (content t.store) t.buf t.offset.toNat t.num.toNat t.count.toNat ∧
      r.touched = t.touched ++ List.range' t.offset.toNat t.count.toNat := by
  induction fuel generalizing t with
  | zero => omega
  | succ fuel ih =>
    by_cases finished : t.count = 0
    · refine ⟨t, by rw [blocksLoop, if_pos finished], ?_, ?_⟩
      · rw [finished]
        exact (memcpy_zero ..).symm
      · simp [finished]
    · have positive : 0 < t.count.toNat := Nat.pos_of_ne_zero fun zero => finished (UInt32.toNat_inj.mp zero)
      obtain ⟨start, place, piece⟩ := block_numbers t.offset t.count
      rw [blocksLoop, if_neg finished]
      dsimp only
      generalize t.offset / ESP_HIMEM_BLKSZ.toUInt32 * ESP_HIMEM_BLKSZ.toUInt32 = pageStart at *
      generalize t.offset - pageStart = pageOffset at *
      generalize min t.count (ESP_HIMEM_BLKSZ.toUInt32 - pageOffset) = n at *
      have blksz : ESP_HIMEM_BLKSZ = 0x8000 := rfl
      have here : t.offset.toNat = t.offset.toNat / ESP_HIMEM_BLKSZ * ESP_HIMEM_BLKSZ + t.offset.toNat % ESP_HIMEM_BLKSZ :=
        (Nat.div_add_mod' _ _).symm
      have rest := Nat.mod_lt t.offset.toNat (show 0 < ESP_HIMEM_BLKSZ by decide)
      have mapped : t.offset.toNat / ESP_HIMEM_BLKSZ < blocks := by
        rw [Nat.div_lt_iff_lt_mul (by decide)]
        omega
      have offset' : (t.offset + n).toNat = t.offset.toNat + n.toNat := by
        rw [UInt32.toNat_add]
        omega
      have num' : (t.num + n).toNat = t.num.toNat + n.toNat := by
        rw [UInt32.toNat_add]
        omega
      have count' : (t.count - n).toNat = t.count.toNat - n.toNat := by
        rw [UInt32.toNat_sub]
        omega
      have first : (pageStart + pageOffset).toNat = t.offset.toNat := by
        rw [UInt32.toNat_add, start, place]
        omega
      rw [start, lawful.map _ _ mapped, Option.bind_some, place, first]
      have fits : t.offset.toNat % ESP_HIMEM_BLKSZ + n.toNat ≤ ESP_HIMEM_BLKSZ := by omega
      have moved := memcpy_block dir (content t.store) t.buf (t.offset.toNat / ESP_HIMEM_BLKSZ * ESP_HIMEM_BLKSZ)
        t.num.toNat fits
      rw [← lawful.unmap _ _ _ mapped, ← here] at moved
      obtain ⟨stored, filled⟩ := Prod.ext_iff.mp moved
      dsimp only at stored filled
      obtain ⟨r, ended, copied, touched⟩ := ih (t := ⟨t.offset + n, t.count - n, t.num + n, _, _, _⟩)
        (by dsimp only; omega) (by dsimp only; omega) (by dsimp only; omega) (by dsimp only; omega)
      refine ⟨r, ended, ?_, ?_⟩
      · rw [copied]
        dsimp only
        rw [offset', num', count', stored, filled, memcpy_add]
        congr 1
        omega
      · rw [touched]
        dsimp only
        rw [offset', count', List.append_assoc, List.range'_append_1]
        congr 2
        omega

/-- It counts what it was asked for, wherever that is. -/
theorem blocksLoop_num {fuel : Nat} (ended : blocksLoop driver dir fuel t = some r) : r.num = t.num + t.count := by
  induction fuel generalizing t with
  | zero => cases ended
  | succ fuel ih =>
    rw [blocksLoop] at ended
    split at ended
    · rename_i finished
      obtain rfl := Option.some.inj ended
      rw [finished, UInt32.add_zero]
    · obtain ⟨ptr, -, rest⟩ := Option.bind_eq_some_iff.mp ended
      rw [ih rest]
      dsimp only
      rw [UInt32.add_assoc, UInt32.add_comm _ (t.count - _), UInt32.sub_add_cancel]

/- The sum of the test wraps, to a place inside the file. -/
def Wraps (size offset count : UInt32) : Prop :=
  offset < size ∧ 2 ^ 32 ≤ offset.toNat + count.toNat ∧ offset + count ≤ size

theorem bounded_wraps (wraps : Wraps size offset count) :
    bounded size offset count = count ∧ wanted size offset count < count.toNat := by
  obtain ⟨inside, far, back⟩ := wraps
  rw [UInt32.lt_iff_toNat_lt] at inside
  have small := size.toNat_lt
  rw [bounded, if_neg (by rw [UInt32.le_iff_toNat_le]; omega), if_neg (UInt32.not_lt.mpr back)]
  refine ⟨rfl, ?_⟩
  rw [wanted]
  omega

theorem bounded_wanted (fits : ¬ Wraps size offset count) :
    (bounded size offset count).toNat = wanted size offset count := by
  rw [bounded, wanted]
  by_cases outside : size ≤ offset
  · rw [if_pos outside]
    rw [UInt32.le_iff_toNat_le] at outside
    rw [Nat.sub_eq_zero_of_le outside, Nat.min_zero]
    rfl
  · rw [if_neg outside]
    rw [UInt32.le_iff_toNat_le] at outside
    have small := size.toNat_lt
    split
    · rename_i long
      rw [UInt32.lt_iff_toNat_lt, UInt32.toNat_add] at long
      rw [UInt32.toNat_sub]
      omega
    · rename_i short
      have near : ¬ 2 ^ 32 ≤ offset.toNat + count.toNat := by
        intro far
        refine fits ⟨?_, far, UInt32.not_lt.mp short⟩
        rw [UInt32.lt_iff_toNat_lt]
        omega
      rw [UInt32.not_lt, UInt32.le_iff_toNat_le, UInt32.toNat_add] at short
      omega

/- Nothing at the end of the file or behind it changes. -/
theorem memcpy_outside (dir : Direction) (m buf : Nat → UInt8) {place taken n i : Nat} (outside : place + n ≤ i) :
    (memcpy dir m buf place taken n).1 i = m i := by
  cases dir with
  | read => rfl
  | write => exact Store.put_outside _ _ _ _ (.inr (by rwa [Store.length_read]))

/- Two stores that hold the same file hold the same file afterwards, and the buffers are equal. -/
theorem memcpy_congr (dir : Direction) {m m' : Nat → UInt8} (buf : Nat → UInt8) (taken : Nat) {place n size : Nat}
    (fits : n ≤ size - place) (same : ∀ i < size, m i = m' i) :
    (memcpy dir m buf place taken n).2 = (memcpy dir m' buf place taken n).2 ∧
      ∀ i < size, (memcpy dir m buf place taken n).1 i = (memcpy dir m' buf place taken n).1 i := by
  cases dir with
  | read =>
    have bytes : Store.read m place n = Store.read m' place n := Store.read_congr fun i below => same _ (by omega)
    exact ⟨by rw [memcpy, memcpy, bytes], same⟩
  | write =>
    refine ⟨rfl, fun i below => ?_⟩
    simp only [memcpy, Store.put, same i below]

/-- Inside the bounds both stores do the same. -/
theorem agree_of_fits (lawful : driver.Lawful content blocks) (covers : size.toNat ≤ blocks * ESP_HIMEM_BLKSZ)
    (same : ∀ i < size.toNat, content store i = m_data i) (fits : ¬ Wraps size offset count) (dir : Direction) :
    Agree driver content dir size offset count store m_data buf := by
  have number := bounded_wanted fits
  have limit : wanted size offset count ≤ size.toNat - offset.toNat := Nat.min_le_right _ _
  have small := size.toNat_lt
  have start := offset.toNat_lt
  have bound : wanted size offset count = 0 ∨ offset.toNat + wanted size offset count ≤ size.toNat := by omega
  obtain ⟨r, ended, moved, touched⟩ := blocksLoop_moves dir
    (t := { offset, count := bounded size offset count, store, buf }) lawful (Nat.lt_succ_self _)
    (by dsimp only; omega) (by dsimp only; omega) (by simp only [UInt32.toNat_zero]; omega)
  have counted := blocksLoop_num ended
  dsimp only at moved touched counted
  rw [number, UInt32.toNat_zero] at moved
  rw [number, List.nil_append] at touched
  obtain ⟨stored, filled⟩ := Prod.ext_iff.mp moved
  dsimp only at stored filled
  obtain ⟨buffers, files⟩ := memcpy_congr dir buf 0 limit same
  have near (i : Nat) (member : i ∈ List.range' offset.toNat (wanted size offset count)) : i < size.toNat := by
    rw [List.mem_range'_1] at member
    omega
  refine ⟨number, by rw [flat, number], by rw [flat, number]; exact near, r, ended, ?_, ?_, fun i below => ?_,
    fun i behind => ?_, ?_⟩
  · rw [counted, flat, UInt32.zero_add]
  · rw [filled, buffers, flat, number]
  · rw [stored, files i below, flat, number]
  · rw [stored]
    rcases bound with none | inside
    · rw [none, memcpy_zero]
    · exact memcpy_outside dir _ _ (inside.trans behind)
  · rw [touched]
    exact near

/-- and outside of them neither does what is wanted. -/
theorem not_agree_of_wraps (wraps : Wraps size offset count) (dir : Direction) :
    ¬ Agree driver content dir size offset count store m_data buf := by
  obtain ⟨kept, less⟩ := bounded_wraps wraps
  rintro ⟨number, -⟩
  rw [flat, kept] at number
  exact absurd number (Nat.ne_of_gt less)

/-- A file in mapped blocks and one in a buffer are read and written alike, inside their bounds, if and only if the
sum of offset and count does not wrap to a place inside the file. -/
theorem paged_flat_iff (lawful : driver.Lawful content blocks) (covers : size.toNat ≤ blocks * ESP_HIMEM_BLKSZ)
    (same : ∀ i < size.toNat, content store i = m_data i) :
    (∀ dir, Agree driver content dir size offset count store m_data buf) ↔ ¬ Wraps size offset count :=
  ⟨fun agree wraps => not_agree_of_wraps wraps .read (agree .read), fun fits => agree_of_fits lawful covers same fits⟩

/- A driver with one block. -/
def oneBlock : Himem (Nat → UInt8) where
  map s pageStart := if pageStart + ESP_HIMEM_BLKSZ ≤ ESP_HIMEM_BLKSZ then some fun i => s (pageStart + i) else none
  unmap s pageStart ptr := Store.put s pageStart (Store.read ptr 0 ESP_HIMEM_BLKSZ)

theorem oneBlock_lawful : oneBlock.Lawful (fun s => s) 1 where
  map s block inside := by
    obtain rfl := Nat.lt_one_iff.mp inside
    have whole : 0 * ESP_HIMEM_BLKSZ + ESP_HIMEM_BLKSZ ≤ ESP_HIMEM_BLKSZ := by decide
    simp only [oneBlock, if_pos whole]
  unmap _ _ _ _ := rfl

theorem paged_flat_sixteen : Agree oneBlock (fun s => s) .write 16 8 4 (fun _ => 0x41) (fun _ => 0x41) fun _ => 0 :=
  have fits : ¬ Wraps 16 8 4 := fun wraps => absurd wraps.2.1 (by decide)
  (paged_flat_iff oneBlock_lawful (by decide) fun _ _ => rfl).mpr fits .write

/-- A count that brings the sum round to zero. -/
theorem transfer_wraps :
    ¬ ∀ dir, Agree oneBlock (fun s => s) dir 16 8 0xfffffff8 (fun _ => 0x41) (fun _ => 0x41) fun _ => 0 :=
  have wraps : Wraps 16 8 0xfffffff8 := ⟨by decide, by decide, by decide⟩
  fun agree => not_agree_of_wraps wraps .read (agree .read)

end CachedFile

end Meatloaf
