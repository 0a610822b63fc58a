import Mathlib.Data.List.Induction
import Meatloaf.Lib.Window
import Meatloaf.Archive.ArcBits
import Meatloaf.Archive.WraScan

/-! The tokens of a Wraptor entry: what they stand for, how they are written, and that the decoder
takes the written tokens, and nothing else, for what they stand for. -/
namespace Meatloaf.Archive

open Lib

inductive WraToken
  | literal (v : UInt8)
  | copy (index length : Nat)
  | widen
deriving DecidableEq

namespace WraToken

/- A token in the width of the moment, its highest bits first. -/
def code (width : Nat) : WraToken → List Bool
  | literal v => false :: bitsBE 8 v.toNat
  | copy index length => true :: (bitsBE width index ++ bitsBE 5 length)
  | widen => true :: (bitsBE width 0 ++ [true])

/- The end of the tokens. -/
def finish (width : Nat) : List Bool := true :: (bitsBE width 0 ++ [false])

/- The width behind a token. -/
def widened (width : Nat) : WraToken → Nat
  | widen => width + 1
  | _ => width

/- The index of a copy counts from one and has the width. A width of 16 is the last one: the eighth. -/
def Fits (width : Nat) : WraToken → Prop
  | literal _ => True
  | copy index length => 1 ≤ index ∧ index < 2 ^ width ∧ length ≤ 31
  | widen => width < WRA_MAX_BITS

/- The text with what the token stands for. -/
def append (out : Str) : WraToken → Str
  | literal v => out ++ [v]
  | copy index length => Window.copy WRA_WINDOW 0 length (index - 1) out
  | widen => out

/- Tokens, and their end. -/
def encode : Nat → List WraToken → List Bool
  | width, [] => finish width
  | width, t :: ts => t.code width ++ encode (t.widened width) ts

def AllFit : Nat → List WraToken → Prop
  | _, [] => True
  | width, t :: ts => t.Fits width ∧ AllFit (t.widened width) ts

def expand (ts : List WraToken) (out : Str) : Str := ts.foldl append out

theorem length_append_le (t : WraToken) (out : Str) : out.length ≤ (t.append out).length := by
  cases t with
  | literal v => simp [append]
  | copy index length =>
    rw [append, Window.length_copy]
    omega
  | widen => exact Nat.le_refl _

theorem length_expand_le (ts : List WraToken) (out : Str) : out.length ≤ (expand ts out).length := by
  induction ts generalizing out with
  | nil => exact Nat.le_refl _
  | cons t ts ih => exact (t.length_append_le out).trans (ih _)

end WraToken

/- The bits of the bytes, each byte from its highest bit on. -/
def bitsMSB (bytes : Str) : List Bool := bytes.flatMap fun b => bitsBE 8 b.toNat

open WraToken in
/-- The bits are those of tokens that stand for a text of at most 1 MiB, and more behind their end. -/
def WraEncodes (bits : List Bool) (out : Str) : Prop :=
  ∃ ts rest, bits = encode WRA_START_BITS ts ++ rest ∧ AllFit WRA_START_BITS ts ∧ expand ts [] = out ∧
    out.length ≤ WRA_MAX_OUTPUT

section Bits

theorem bitsBE_get {n k : Nat} (v : Nat) (below : k < n) : (bitsBE n v)[k]? = some (v.testBit (n - 1 - k)) := by
  induction n generalizing v with
  | zero => omega
  | succ n ih =>
    rw [bitsBE]
    by_cases last : k = n
    · subst last
      rw [List.getElem?_append_right (by rw [length_bitsBE]), length_bitsBE]
      simp
    · have inner : k < n := by omega
      have place : n + 1 - 1 - k = n - 1 - k + 1 := by omega
      rw [List.getElem?_append_left (by rw [length_bitsBE]; exact inner), ih _ inner, place, Nat.testBit_succ]

theorem numberBE_snoc (v : Nat) (w : List Bool) (b : Bool) : numberBE v (w ++ [b]) = numberBE v w * 2 + b.toNat := by
  simp [numberBE]

/-- The number that bits spell has these bits. -/
theorem bitsBE_numberBE (w : List Bool) : bitsBE w.length (numberBE 0 w) = w ∧ numberBE 0 w < 2 ^ w.length := by
  induction w using List.reverseRecOn with
  | nil => exact ⟨rfl, Nat.one_pos⟩
  | append_singleton w b ih =>
    have bit := Bool.toNat_lt b
    have half : (numberBE 0 w * 2 + b.toNat) / 2 = numberBE 0 w := by omega
    have low : (numberBE 0 w * 2 + b.toNat).testBit 0 = b := by cases b <;> simp [Nat.testBit_zero]
    rw [numberBE_snoc, List.length_append, List.length_singleton, bitsBE, half, low, ih.1, pow_succ]
    exact ⟨rfl, by omega⟩

theorem split_number {n : Nat} {bits : List Bool} (long : n ≤ bits.length) :
    ∃ v rest, v < 2 ^ n ∧ bits = bitsBE n v ++ rest := by
  have length : (bits.take n).length = n := by rw [List.length_take, Nat.min_eq_left long]
  have spelled := bitsBE_numberBE (bits.take n)
  rw [length] at spelled
  exact ⟨_, bits.drop n, spelled.2, by rw [spelled.1, List.take_append_drop]⟩

theorem length_bitsMSB (bytes : Str) : (bitsMSB bytes).length = 8 * bytes.length := by
  induction bytes with
  | nil => rfl
  | cons b bytes ih =>
    rw [bitsMSB, List.flatMap_cons, ← bitsMSB, List.length_append, ih, length_bitsBE, List.length_cons]
    omega

theorem bitsMSB_get (bytes : Str) {p k : Nat} (inside : p < bytes.length) (below : k < 8) :
    (bitsMSB bytes)[8 * p + k]? = some ((bytes.getD p 0).toNat.testBit (7 - k)) := by
  induction bytes generalizing p with
  | nil => cases inside
  | cons b bytes ih =>
    rw [bitsMSB, List.flatMap_cons, ← bitsMSB]
    cases p with
    | zero =>
      rw [List.getElem?_append_left (by rw [length_bitsBE]; omega), Nat.mul_zero, Nat.zero_add, bitsBE_get _ below]
      rfl
    | succ p =>
      have place : 8 * (p + 1) + k - 8 = 8 * p + k := by omega
      rw [List.getElem?_append_right (by rw [length_bitsBE]; omega), length_bitsBE, place,
        ih (Nat.lt_of_succ_lt_succ inside)]
      rfl

end Bits

namespace WraDecoder

variable {d : WraDecoder} {b : Bool} {bits rest : List Bool} {n v : Nat}

/- The bits before the decoder. -/
def unread (d : WraDecoder) : List Bool := (bitsMSB d.input).drop (8 * d.pos + d.bit)

structure Holds (d : WraDecoder) (bits : List Bool) : Prop where
  alive : d.ran_out = false
  inByte : d.bit < 8
  unread : d.unread = bits

/- The bit cursor one further. -/
def advance (d : WraDecoder) : WraDecoder :=
  if d.bit + 1 = 8 then { d with bit := 0, pos := d.pos + 1 } else { d with bit := d.bit + 1 }

/-- The bits that are left end with the bytes. -/
theorem Holds.outside (holds : d.Holds bits) : d.input.length ≤ d.pos ↔ bits = [] := by
  have inByte := holds.inByte
  rw [← holds.unread, WraDecoder.unread, List.drop_eq_nil_iff, length_bitsMSB]
  omega

/-- The next bit. -/
theorem Holds.advance (holds : d.Holds (b :: bits)) :
    ((d.input.getD d.pos 0).toNat >>> (7 - d.bit)) &&& 1 = b.toNat ∧ d.advance.Holds bits := by
  obtain ⟨alive, inByte, left⟩ := holds
  have inside : d.pos < d.input.length := by
    rw [← Nat.not_le, Holds.outside ⟨alive, inByte, left⟩]
    exact List.cons_ne_nil _ _
  have here : (d.input.getD d.pos 0).toNat.testBit (7 - d.bit) = b := by
    have first := congrArg List.head? left
    rw [WraDecoder.unread, List.head?_drop, bitsMSB_get _ inside inByte] at first
    exact Option.some.inj first
  have behind : d.advance.unread = bits := by
    have tail := congrArg List.tail left
    rw [WraDecoder.unread, List.tail_drop] at tail
    rw [WraDecoder.unread, WraDecoder.advance]
    split
    · rw [← @List.tail_cons _ b bits, ← tail]
      dsimp only
      congr 1
      omega
    · exact tail
  refine ⟨?_, ?_, ?_, behind⟩
  · rw [← here, Nat.toNat_testBit, Nat.and_one_is_mod, Nat.shiftRight_eq_div_pow]
  · rw [WraDecoder.advance]
    split <;> exact alive
  · rw [WraDecoder.advance]
    split
    · exact Nat.zero_lt_succ 7
    · dsimp only
      omega

theorem getBitsFrom_succ (inside : ¬ d.input.length ≤ d.pos) :
    getBitsFrom (n + 1) v d =
      getBitsFrom n (v <<< 1 ||| ((d.input.getD d.pos 0).toNat >>> (7 - d.bit)) &&& 1) d.advance :=
  if_neg inside

/-- Bits that are there make a number. -/
theorem Holds.getBitsFrom {w : List Bool} (holds : d.Holds (w ++ rest)) :
    (getBitsFrom w.length v d).1 = numberBE v w ∧ (getBitsFrom w.length v d).2.Holds rest := by
  induction w generalizing v d with
  | nil => exact ⟨rfl, holds⟩
  | cons b w ih =>
    obtain ⟨bit, next⟩ := holds.advance
    have inside : ¬ d.input.length ≤ d.pos := fun outside => by cases holds.outside.mp outside
    have joined : (v <<< 1 ||| b.toNat) = v * 2 + b.toNat := by
      rw [← Nat.shiftLeft_add_eq_or_of_lt (by simpa using Bool.toNat_lt b), Nat.shiftLeft_eq, pow_one]
    rw [List.length_cons, getBitsFrom_succ inside, bit, joined]
    exact ih next

/-- Where bits are missing the decoder runs out. -/
theorem Holds.short (holds : d.Holds bits) (missing : bits.length < n) : (WraDecoder.getBitsFrom n v d).2.ran_out = true := by
  induction n generalizing v d bits with
  | zero => omega
  | succ n ih =>
    by_cases outside : d.input.length ≤ d.pos
    · rw [WraDecoder.getBitsFrom, if_pos outside]
    · rw [getBitsFrom_succ outside]
      cases bits with
      | nil => exact absurd (holds.outside.mpr rfl) outside
      | cons b bits => exact ih holds.advance.2 (by rw [List.length_cons] at missing; omega)

/- The window has no part in it. -/
theorem getBitsFrom_window (n v : Nat) (d : WraDecoder) :
    (WraDecoder.getBitsFrom n v d).2.window = d.window ∧ (WraDecoder.getBitsFrom n v d).2.wpos = d.wpos := by
  induction n generalizing v d with
  | zero => exact ⟨rfl, rfl⟩
  | succ n ih =>
    by_cases outside : d.input.length ≤ d.pos
    · rw [WraDecoder.getBitsFrom, if_pos outside]
      exact ⟨rfl, rfl⟩
    · obtain ⟨window, wpos⟩ := ih (v <<< 1 ||| ((d.input.getD d.pos 0).toNat >>> (7 - d.bit)) &&& 1) d.advance
      rw [getBitsFrom_succ outside, window, wpos, advance]
      split <;> exact ⟨rfl, rfl⟩

/-- A number in its bits. -/
theorem Holds.getBits (holds : d.Holds (bitsBE n v ++ rest)) (small : v < 2 ^ n) :
    (d.getBits n).1 = v ∧ (d.getBits n).2.Holds rest := by
  have read := holds.getBitsFrom (v := 0)
  rw [length_bitsBE, numberBE_bitsBE n v small] at read
  exact read

/-- A single bit. -/
theorem Holds.getBit (holds : d.Holds (b :: rest)) : (d.getBits 1).1 = b.toNat ∧ (d.getBits 1).2.Holds rest := by
  obtain ⟨bit, left⟩ := Holds.getBitsFrom (w := [b]) (v := 0) holds
  exact ⟨bit.trans (by simp [numberBE]), left⟩

end WraDecoder

end Meatloaf.Archive
