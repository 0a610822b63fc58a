import Mathlib.Tactic.Ring
import Meatloaf.Archive.Arc

/-! The bit reader of the ARC decoder gives the bits of its bytes, each byte from its lowest bit on. -/
namespace Meatloaf.Archive

open Lib

def byteBits (b : UInt8) : List Bool := (List.range 8).map b.toNat.testBit

def bytesBits (bytes : List UInt8) : List Bool := bytes.flatMap byteBits

/- A number from its bits, the lowest first. -/
def numberLE : List Bool → Nat
  | [] => 0
  | b :: bits => b.toNat + 2 * numberLE bits

/- A number from its bits, the highest first, behind the number `v`. -/
def numberBE (v : Nat) (bits : List Bool) : Nat := bits.foldl (fun v b => v * 2 + b.toNat) v

/- The bits of a number, the highest first. -/
def bitsBE : Nat → Nat → List Bool
  | 0, _ => []
  | n + 1, v => bitsBE n (v / 2) ++ [v.testBit 0]

/- Bits in bytes, with zeros at the end. -/
def packIn : Nat → List Bool → List UInt8
  | 0, _ => []
  | n + 1, bits => UInt8.ofNat (numberLE (bits.take 8)) :: packIn n (bits.drop 8)

def pack (bits : List Bool) : List UInt8 := packIn ((bits.length + 7) / 8) bits

theorem length_bitsBE (n v : Nat) : (bitsBE n v).length = n := by
  induction n generalizing v with
  | zero => rfl
  | succ n ih => rw [bitsBE, List.length_append, ih, List.length_singleton]

/-- The bits of a number spell it. -/
theorem numberBE_bitsBE (n v : Nat) (small : v < 2 ^ n) : numberBE 0 (bitsBE n v) = v := by
  induction n generalizing v with
  | zero =>
    have : v = 0 := by simpa using small
    simp [this, bitsBE, numberBE]
  | succ n ih =>
    have half : v / 2 < 2 ^ n := by rw [pow_succ] at small; omega
    have front := ih (v / 2) half
    have last : (v.testBit 0).toNat = v % 2 := by simpa using Nat.toNat_testBit v 0
    simp only [numberBE, bitsBE, List.foldl_append, List.foldl_cons, List.foldl_nil] at front ⊢
    rw [front, last]
    omega

theorem numberLE_lt (bits : List Bool) : numberLE bits < 2 ^ bits.length := by
  induction bits with
  | nil => simp [numberLE]
  | cons b bits ih =>
    have := Bool.toNat_lt b
    rw [numberLE, List.length_cons, pow_succ]
    omega

/- The bits of a number made of bits; zeros above them. -/
theorem range_testBit (bits : List Bool) {m : Nat} (short : bits.length ≤ m) :
    (List.range m).map (numberLE bits).testBit = bits ++ List.replicate (m - bits.length) false := by
  induction bits generalizing m with
  | nil =>
    have zeros : (Nat.testBit 0) = fun _ => false := funext Nat.zero_testBit
    rw [numberLE, zeros, List.map_const', List.length_range]
    rfl
  | cons b bits ih =>
    obtain ⟨m, rfl⟩ : ∃ n, m = n + 1 := ⟨m - 1, by rw [List.length_cons] at short; omega⟩
    have shift : ∀ i, (numberLE (b :: bits)).testBit (i + 1) = (numberLE bits).testBit i := by
      intro i
      have := Bool.toNat_lt b
      rw [Nat.testBit_succ, numberLE]
      congr 1
      omega
    have low : (numberLE (b :: bits)).testBit 0 = b := by
      cases b <;> simp [numberLE, Nat.testBit_zero]
    rw [List.range_succ_eq_map, List.map_cons, low, List.map_map]
    simp only [List.length_cons, Nat.add_sub_add_right, List.cons_append] at short ⊢
    rw [← ih (by omega)]
    congr 1
    exact List.map_congr_left fun i _ => shift i

theorem bytesBits_packIn (n : Nat) (bits : List Bool) (short : bits.length ≤ 8 * n) :
    bytesBits (packIn n bits) = bits ++ List.replicate (8 * n - bits.length) false := by
  induction n generalizing bits with
  | zero =>
    have : bits = [] := List.length_eq_zero_iff.mp (by omega)
    simp [this, bytesBits, packIn]
  | succ n ih =>
    have few : (bits.take 8).length ≤ 8 := by rw [List.length_take]; omega
    have byte := (numberLE_lt (bits.take 8)).trans_le (Nat.pow_le_pow_right (by decide) few)
    have first : byteBits (UInt8.ofNat (numberLE (bits.take 8))) =
        bits.take 8 ++ List.replicate (8 - (bits.take 8).length) false := by
      rw [byteBits, UInt8.toNat_ofNat', Nat.mod_eq_of_lt byte, range_testBit _ few]
    have rest := ih (bits.drop 8) (by rw [List.length_drop]; omega)
    simp only [bytesBits, packIn, List.flatMap_cons] at rest ⊢
    rw [rest, first]
    by_cases long : 8 ≤ bits.length
    · rw [List.length_take, Nat.min_eq_left long, Nat.sub_self, List.replicate_zero, List.append_nil,
        ← List.append_assoc, List.take_append_drop, List.length_drop]
      congr 2
      omega
    · rw [List.take_of_length_le (by omega), List.drop_eq_nil_of_le (by omega), List.nil_append, List.append_assoc,
        List.replicate_append_replicate, List.length_nil]
      congr 2
      omega

/-- The bits that were packed, and less than a byte of zeros. -/
theorem bytesBits_pack (bits : List Bool) : ∃ rest, bytesBits (pack bits) = bits ++ rest :=
  ⟨_, bytesBits_packIn _ bits (by omega)⟩

namespace ArcReader

/- The bits that are left for a reader: those below the marker of its buffer, and those of the bytes behind. -/
def Holds (r : ArcReader) (bits : List Bool) : Prop :=
  r.eof = false ∧ ∃ k x, r.bit_buffer / 2 = 2 ^ k + x ∧ x < 2 ^ k ∧
    bits = (List.range k).map x.testBit ++ bytesBits (r.input.drop r.input_pos)

variable {r : ArcReader} {b : Bool} {bits rest : List Bool}

theorem holds_start (input : List UInt8) (pos : Nat) :
    Holds { input := input, input_pos := pos } (bytesBits (input.drop pos)) :=
  ⟨rfl, 0, 0, show 2 / 2 = 1 by decide, Nat.one_pos, rfl⟩

theorem range_succ_testBit (k x : Nat) :
    (List.range (k + 1)).map x.testBit = x.testBit 0 :: (List.range k).map (x / 2).testBit := by
  rw [List.range_succ_eq_map, List.map_cons, List.map_map]
  congr 1
  exact List.map_congr_left fun i _ => Nat.testBit_succ x i

/-- The next bit. -/
theorem Holds.getBit (holds : r.Holds (b :: bits)) : r.getBit.1 = b ∧ r.getBit.2.Holds bits := by
  obtain ⟨alive, k, x, buffer, small, all⟩ := holds
  have shifted : r.bit_buffer >>> 1 = 2 ^ k + x := buffer
  cases k with
  | zero =>
    -- the buffer is empty, and a byte comes into it
    have none : x = 0 := by simpa using small
    subst none
    cases left : r.input.drop r.input_pos with
    | nil => simp [left, bytesBits] at all
    | cons c cs =>
      have inside : r.input_pos < r.input.length := by
        have := congrArg List.length left
        simp only [List.length_drop, List.length_cons] at this
        omega
      have here : r.input.getD r.input_pos 0 = c := by
        have := congrArg List.head? left
        rw [List.head?_drop, List.head?_cons] at this
        rw [List.getD_eq_getElem?_getD, this, Option.getD_some]
      have after : r.input.drop (r.input_pos + 1) = cs := by
        have := congrArg List.tail left
        rwa [List.tail_drop, List.tail_cons] at this
      have byte := c.toNat_lt
      have filled : c.toNat ||| 0x100 = 2 ^ 8 * 1 + c.toNat := by
        rw [Nat.or_comm, Nat.two_pow_add_eq_or_of_lt byte]
      have read : r.getByte = (c, { r with input_pos := r.input_pos + 1 }) := by
        rw [getByte, if_neg (by simp [alive]; omega), here]
      have result : r.getBit = (c.toNat.testBit 0, { r with input_pos := r.input_pos + 1, bit_buffer := c.toNat ||| 0x100 }) := by
        rw [ArcReader.getBit, shifted]
        have low : (c.toNat ||| 0x100).testBit 0 = c.toNat.testBit 0 := by
          rw [Nat.testBit_or]
          simp
        simp only [pow_zero, Nat.add_zero, if_true, read, low]
      have bitsOf : bytesBits (c :: cs) = c.toNat.testBit 0 :: ((List.range 7).map (c.toNat / 2).testBit ++ bytesBits cs) := by
        rw [bytesBits, List.flatMap_cons, byteBits, range_succ_testBit]
        rfl
      rw [left, bitsOf] at all
      simp only [List.range_zero, List.map_nil, List.nil_append, List.cons.injEq] at all
      rw [result]
      refine ⟨all.1.symm, alive, 7, c.toNat / 2, ?_, by omega, ?_⟩
      · dsimp only
        omega
      · dsimp only
        rw [after]
        exact all.2
  | succ k =>
    rw [range_succ_testBit, List.cons_append, List.cons.injEq] at all
    have more : 2 ^ (k + 1) + x ≠ 1 := by
      have := Nat.two_pow_pos k
      rw [pow_succ]
      omega
    have result : r.getBit = ((2 ^ (k + 1) + x).testBit 0, { r with bit_buffer := 2 ^ (k + 1) + x }) := by
      rw [ArcReader.getBit, shifted]
      exact if_neg more
    rw [result]
    refine ⟨?_, alive, k, x / 2, ?_, ?_, all.2⟩
    · have same : (2 ^ (k + 1) + x) % 2 = x % 2 := by
        rw [pow_succ]
        omega
      rw [all.1, Nat.testBit_zero, Nat.testBit_zero, same]
    · dsimp only
      rw [pow_succ]
      omega
    · rw [pow_succ] at small
      omega

/-- The next number, its highest bit first. -/
theorem Holds.getNumber (bits : List Bool) (v : Nat) (holds : r.Holds (bits ++ rest)) :
    (r.getNumber bits.length v).1 = numberBE v bits ∧ (r.getNumber bits.length v).2.Holds rest := by
  induction bits generalizing r v with
  | nil => exact ⟨rfl, holds⟩
  | cons b bits ih =>
    obtain ⟨bit, next⟩ := holds.getBit
    have joined : (v <<< 1 ||| b.toNat) = v * 2 + b.toNat := by
      rw [← Nat.shiftLeft_add_eq_or_of_lt (by simpa using Bool.toNat_lt b), Nat.shiftLeft_eq]
    rw [List.length_cons, ArcReader.getNumber, bit, joined]
    exact ih _ next

/- A bit of weight `2 ^ k` above a number. -/
theorem or_bit {k v : Nat} (b : Bool) (below : v < 2 ^ k) (short : k < 32) :
    (if b then v ||| 2 ^ k % 2 ^ 32 else v) = v + 2 ^ k * b.toNat := by
  cases b with
  | false => simp
  | true =>
    have sum := Nat.two_pow_add_eq_or_of_lt below 1
    rw [Nat.mul_one] at sum
    rw [if_pos rfl, Nat.mod_eq_of_lt (Nat.pow_lt_pow_right (by decide) short), Nat.or_comm, ← sum, Bool.toNat_true,
      Nat.mul_one, Nat.add_comm]

/- The next weight. -/
theorem shift_mask {k : Nat} (short : k < 32) : ((2 ^ k % 2 ^ 32) <<< 1) % 2 ^ 32 = 2 ^ (k + 1) % 2 ^ 32 := by
  rw [Nat.mod_eq_of_lt (Nat.pow_lt_pow_right (by decide) short), Nat.shiftLeft_eq, pow_one, ← pow_succ]

theorem add_bit_lt {k v : Nat} (b : Bool) (below : v < 2 ^ k) : v + 2 ^ k * b.toNat < 2 ^ (k + 1) := by
  have := Nat.mul_le_mul_left (2 ^ k) (Nat.le_of_lt_succ (Bool.toNat_lt b))
  rw [pow_succ]
  omega

/-- The next number, its lowest bit first, above what is there. -/
theorem Holds.getMasked (bits : List Bool) {k v : Nat} (holds : r.Holds (bits ++ rest)) (below : v < 2 ^ k)
    (short : k + bits.length ≤ 32) :
    (r.getMasked bits.length (2 ^ k % 2 ^ 32) v).1 = v + 2 ^ k * numberLE bits ∧
      (r.getMasked bits.length (2 ^ k % 2 ^ 32) v).2.Holds rest := by
  induction bits generalizing r k v with
  | nil => exact ⟨by simp [ArcReader.getMasked, numberLE], holds⟩
  | cons b bits ih =>
    rw [List.length_cons] at short
    obtain ⟨bit, next⟩ := holds.getBit
    obtain ⟨number, left⟩ := ih (k := k + 1) next (add_bit_lt b below) (by omega)
    rw [List.length_cons, ArcReader.getMasked, bit, or_bit b below (by omega), shift_mask (by omega)]
    refine ⟨?_, left⟩
    rw [number, numberLE, pow_succ]
    ring

end ArcReader

end Meatloaf.Archive
