import Mathlib.Data.List.Basic
import Mathlib.Data.Nat.Bitwise
import Meatloaf.Lib.Bits
import Meatloaf.Lib.Scan

/-! Names are PETSCII on a medium and UTF-8 inside the firmware. The table and
both conversions follow `U8Char` and `mstr::toUTF8` / `mstr::toPETSCII2`. -/
namespace Meatloaf

/-- The contents of a `std::string`. -/
abbrev Str := List UInt8

/-- `U8Char::utf8map`, the code point of each PETSCII byte. -/
def utf8map : List Nat := [
  0x00, 0x01, 0x02, 0x03, 0x04, 0x05, 0x06, 0x07, 0x08, 0x09, 0x0a, 0x0b, 0x0c, 0x0d, 0x0e, 0x0f,
  0x10, 0x11, 0x12, 0x13, 0x14, 0x15, 0x16, 0x17, 0x18, 0x19, 0x1a, 0x1b, 0x1c, 0x1d, 0x1e, 0x1f,
  0x20, 0x21, 0x22, 0x23, 0x24, 0x25, 0x26, 0x27, 0x28, 0x29, 0x2a, 0x2b, 0x2c, 0x2d, 0x2e, 0x2f,
  0x30, 0x31, 0x32, 0x33, 0x34, 0x35, 0x36, 0x37, 0x38, 0x39, 0x3a, 0x3b, 0x3c, 0x3d, 0x3e, 0x3f,
  0x40, 0x61, 0x62, 0x63, 0x64, 0x65, 0x66, 0x67, 0x68, 0x69, 0x6a, 0x6b, 0x6c, 0x6d, 0x6e, 0x6f,
  0x70, 0x71, 0x72, 0x73, 0x74, 0x75, 0x76, 0x77, 0x78, 0x79, 0x7a, 0x5b, 0x5c, 0x5d, 0x5e, 0x5f,
  0x60, 0xe021, 0xe022, 0xe023, 0xe024, 0xe025, 0xe026, 0xe027, 0xe028, 0xe029, 0xe02a, 0xe02b,
  0xe02c, 0xe02d, 0xe02e, 0xe02f, 0xe030, 0xe031, 0xe032, 0xe033, 0xe034, 0xe035, 0xe036, 0xe037,
  0xe038, 0xe039, 0xe03a, 0x7b, 0x7c, 0x7d, 0x7e, 0x7f,
  0xe000, 0xe001, 0xe002, 0xe003, 0xe004, 0xe005, 0xe006, 0xe007, 0xe008, 0xe009, 0xe00a, 0xe00b,
  0xe00c, 0xe00d, 0xe00e, 0xe00f, 0xe010, 0xe011, 0xe012, 0xe013, 0xe014, 0xe015, 0xe016, 0xe017,
  0xe018, 0xe019, 0xe01a, 0xe01b, 0xe01c, 0xe01d, 0xe01e, 0xe01f,
  0xa0, 0x258c, 0x2584, 0x2594, 0x2581, 0x258e, 0x2592, 0xe067, 0xe068, 0xe069, 0xe06a, 0x251c,
  0x2597, 0x2514, 0x2510, 0x2582, 0x250c, 0x2534, 0x252c, 0x2524, 0xe074, 0x258d, 0xe076, 0xe077,
  0xe078, 0x2583, 0x2713, 0x2596, 0x259d, 0x2518, 0x2598, 0x259a,
  0xe020, 0x41, 0x42, 0x43, 0x44, 0x45, 0x46, 0x47, 0x48, 0x49, 0x4a, 0x4b, 0x4c, 0x4d, 0x4e, 0x4f,
  0x50, 0x51, 0x52, 0x53, 0x54, 0x55, 0x56, 0x57, 0x58, 0x59, 0x5a, 0xe03b, 0xe03c, 0xe03d, 0xe03e,
  0xe03f, 0xe040, 0xe041, 0xe042, 0xe043, 0xe044, 0xe045, 0xe046, 0xe047, 0xe048, 0xe049, 0xe04a,
  0xe04b, 0xe04c, 0xe04d, 0xe04e, 0xe04f, 0xe050, 0xe051, 0xe052, 0xe053, 0xe054, 0xe055, 0xe056,
  0xe057, 0xe058, 0xe059, 0xe05a, 0xe05b, 0xe05c, 0xe05d, 0xe05e, 0xe05f]

/-- `U8Char(const char petscii)`. -/
def codePoint (petscii : UInt8) : Nat := utf8map.getD petscii.toNat 0

namespace U8Char

/-- `U8Char::missing`. -/
def missing : UInt8 := 0x3f

/-- `U8Char::fromCharArray`: the code unit and how many bytes it took. A byte
read past the end of the string is its terminator. -/
def fromCharArray (reader : Str) : Nat × Nat :=
  let byte := (reader.getD 0 0).toNat
  if byte ≤ 0x7f then (byte, 1)
  else if byte &&& 0b11100000 = 0b11000000 then
    let hi := (byte &&& 0b11111) <<< 6
    let lo := (reader.getD 1 0).toNat &&& 0b111111
    (hi ||| lo, 2)
  else if byte &&& 0b11110000 = 0b11100000 then
    let hi := (byte &&& 0b1111) <<< 12
    let mi := ((reader.getD 1 0).toNat &&& 0b111111) <<< 6
    let lo := (reader.getD 2 0).toNat &&& 0b111111
    (hi ||| mi ||| lo, 3)
  else (0, 1)

/-- `U8Char::toUtf8`. -/
def toUtf8 (ch : Nat) : Str :=
  if ch ≤ 0x7f then [UInt8.ofNat ch]
  else if ch ≤ 0x7ff then
    [UInt8.ofNat (((ch >>> 6) &&& 0b11111) ||| 0b11000000),
     UInt8.ofNat ((ch &&& 0b111111) ||| 0b10000000)]
  else
    [UInt8.ofNat (((ch >>> 12) &&& 0b1111) ||| 0b11100000),
     UInt8.ofNat (((ch >>> 6) &&& 0b111111) ||| 0b10000000),
     UInt8.ofNat ((ch &&& 0b111111) ||| 0b10000000)]

/-- `U8Char::toPetscii`: the first table index that holds the code unit. -/
def toPetscii (ch : Nat) : UInt8 :=
  if utf8map.idxOf ch < 256 then UInt8.ofNat (utf8map.idxOf ch) else missing

end U8Char

/-- `mstr::toUTF8`. A NUL produces nothing. -/
def toUTF8 (petsciiInput : Str) : Str :=
  petsciiInput.flatMap fun petscii =>
    if petscii ≠ 0 then U8Char.toUtf8 (codePoint petscii) else []

/-- One turn of the loop of `mstr::toPETSCII2`. -/
def nextPetscii (utfInput : Str) : UInt8 × Nat :=
  let r := U8Char.fromCharArray utfInput
  (U8Char.toPetscii r.1, r.2)

/-- `mstr::toPETSCII2`. -/
def toPETSCII2 (utfInput : Str) : Str :=
  Lib.scan nextPetscii utfInput.length utfInput

/-- A property of every byte can be checked by running through the 256 values. -/
theorem forall_byte (P : UInt8 → Prop) (h : ∀ n < 256, P (UInt8.ofNat n)) (b : UInt8) : P b := by
  have hb := h b.toNat b.toNat_lt
  rwa [UInt8.ofNat_toNat] at hb

namespace U8Char

/-! The bytes of one code point. -/

/- Bits that are put below a mark. -/
theorem or_mark {a k : Nat} (i : Nat) (small : a < 2 ^ i) : a ||| 2 ^ i * k = 2 ^ i * k + a := by
  rw [Nat.or_comm, Nat.two_pow_add_eq_or_of_lt small]

theorem toUtf8_bytes (ch : Nat) :
    toUtf8 ch = if ch ≤ 0x7f then [UInt8.ofNat ch]
      else if ch ≤ 0x7ff then [UInt8.ofNat (ch / 64 % 32 + 0xc0), UInt8.ofNat (ch % 64 + 0x80)]
      else [UInt8.ofNat (ch / 4096 % 16 + 0xe0), UInt8.ofNat (ch / 64 % 64 + 0x80), UInt8.ofNat (ch % 64 + 0x80)] := by
  have low (x : Nat) : x &&& 0b111111 = x % 64 := Nat.and_two_pow_sub_one_eq_mod x 6
  have lead (x : Nat) : x &&& 0b11111 = x % 32 := Nat.and_two_pow_sub_one_eq_mod x 5
  have top (x : Nat) : x &&& 0b1111 = x % 16 := Nat.and_two_pow_sub_one_eq_mod x 4
  have two (x : Nat) : x % 32 ||| 0b11000000 = x % 32 + 0xc0 :=
    (or_mark (k := 3) 6 (by omega)).trans (Nat.add_comm _ _)
  have three (x : Nat) : x % 16 ||| 0b11100000 = x % 16 + 0xe0 :=
    (or_mark (k := 7) 5 (by omega)).trans (Nat.add_comm _ _)
  have more (x : Nat) : x % 64 ||| 0b10000000 = x % 64 + 0x80 :=
    (or_mark (k := 2) 6 (by omega)).trans (Nat.add_comm _ _)
  unfold toUtf8
  simp only [low, lead, top, two, three, more, Nat.shiftRight_eq_div_pow]

/- What the marks of the first byte and of the others leave. -/
theorem lead_two : ∀ x < 32, (x + 0xc0) &&& 0b11100000 = 0b11000000 ∧ (x + 0xc0) &&& 0b11111 = x := by decide

theorem lead_three : ∀ x < 16, (x + 0xe0) &&& 0b11100000 ≠ 0b11000000 ∧ (x + 0xe0) &&& 0b11110000 = 0b11100000 ∧
    (x + 0xe0) &&& 0b1111 = x := by decide

theorem tail_bits : ∀ x < 64, (x + 0x80) &&& 0b111111 = x := by decide

/-- A code point of 16 bits survives its UTF-8 form. -/
theorem fromCharArray_toUtf8 {v : Nat} (code : v < 0x10000) (rest : Str) :
    fromCharArray (toUtf8 v ++ rest) = (v, (toUtf8 v).length) := by
  rw [toUtf8_bytes]
  have byte {n : Nat} (small : n < 256) : (UInt8.ofNat n).toNat = n := UInt8.toNat_ofNat_of_lt small
  by_cases one : v ≤ 0x7f
  · simp [fromCharArray, byte (show v < 256 by omega), one]
  · rw [if_neg one]
    have low := tail_bits (v % 64) (Nat.mod_lt _ (by decide))
    by_cases two : v ≤ 0x7ff
    · have first := lead_two (v / 64 % 32) (Nat.mod_lt _ (by decide))
      have high : ¬ v / 64 % 32 + 0xc0 ≤ 0x7f := by omega
      have whole : (v / 64 % 32) <<< 6 ||| v % 64 = v := by
        rw [Nat.shiftLeft_eq, Nat.mul_comm, ← Nat.two_pow_add_eq_or_of_lt (Nat.mod_lt _ (by decide))]
        omega
      rw [if_pos two]
      simp only [fromCharArray, List.cons_append, List.nil_append, List.getD_cons_zero, List.getD_cons_succ,
        byte (show v / 64 % 32 + 0xc0 < 256 by omega), byte (show v % 64 + 0x80 < 256 by omega), if_neg high, first.1,
        first.2, low, whole, if_true]
      rfl
    · have first := lead_three (v / 4096 % 16) (Nat.mod_lt _ (by decide))
      have middle := tail_bits (v / 64 % 64) (Nat.mod_lt _ (by decide))
      have high : ¬ v / 4096 % 16 + 0xe0 ≤ 0x7f := by omega
      have upper : (v / 4096 % 16) <<< 12 ||| (v / 64 % 64) <<< 6 = v / 64 * 64 := by
        rw [Nat.shiftLeft_eq, Nat.shiftLeft_eq, Nat.mul_comm, ← Nat.two_pow_add_eq_or_of_lt (by omega)]
        omega
      have whole : v / 64 * 64 ||| v % 64 = v := by
        rw [Nat.mul_comm, ← Nat.two_pow_add_eq_or_of_lt (i := 6) (Nat.mod_lt _ (by decide))]
        omega
      rw [if_neg two]
      simp only [fromCharArray, List.cons_append, List.nil_append, List.getD_cons_zero, List.getD_cons_succ,
        byte (show v / 4096 % 16 + 0xe0 < 256 by omega), byte (show v / 64 % 64 + 0x80 < 256 by omega),
        byte (show v % 64 + 0x80 < 256 by omega), if_neg high, if_neg first.1, first.2.1, first.2.2, middle, low, upper,
        whole, if_true]
      rfl

theorem codePoint_lt (p : UInt8) : codePoint p < 0x10000 := by
  have small : ∀ c ∈ utf8map, c < 0x10000 := by decide +kernel
  rcases Nat.lt_or_ge p.toNat utf8map.length with inside | outside
  · rw [codePoint, List.getD_eq_getElem _ _ inside]
    exact small _ (List.getElem_mem _)
  · rw [codePoint, List.getD_eq_default _ _ outside]
    decide

/-- The table has no duplicates: a search for an entry stops at that entry. -/
theorem table_index : ∀ n < 256, toPetscii (codePoint (UInt8.ofNat n)) = UInt8.ofNat n := by
  have distinct : Lib.distinctFrom 0 utf8map = true := by decide +kernel
  have nodup := (Lib.distinctFrom_spec distinct).1
  have length : utf8map.length = 256 := by decide +kernel
  intro n small
  have place : (UInt8.ofNat n).toNat = n := by rw [UInt8.toNat_ofNat', Nat.mod_eq_of_lt small]
  have inside : n < utf8map.length := length ▸ small
  have entry : codePoint (UInt8.ofNat n) = utf8map[n] := by rw [codePoint, place, List.getD_eq_getElem _ _ inside]
  rw [toPetscii, entry, nodup.idxOf_getElem, if_pos small]

theorem toUtf8_ne_nil (ch : Nat) : toUtf8 ch ≠ [] := by
  unfold toUtf8
  split
  · simp
  · split <;> simp

theorem toPetscii_codePoint (p : UInt8) : toPetscii (codePoint p) = p :=
  forall_byte (fun b => toPetscii (codePoint b) = b) table_index p

theorem fromCharArray_codePoint (p : UInt8) (rest : Str) :
    fromCharArray (toUtf8 (codePoint p) ++ rest) =
      (codePoint p, (toUtf8 (codePoint p)).length) :=
  fromCharArray_toUtf8 (codePoint_lt p) rest

end U8Char

theorem toUTF8_eq_filter (s : Str) :
    toUTF8 s = (s.filter (· ≠ 0)).flatMap fun p => U8Char.toUtf8 (codePoint p) := by
  induction s with
  | nil => rfl
  | cons p s ih =>
    rw [toUTF8, List.flatMap_cons, ← toUTF8, ih]
    by_cases hp : p = 0
    · simp [hp]
    · simp [hp]

theorem recognises_petscii (s : Str) :
    Lib.Recognises nextPetscii (fun p => U8Char.toUtf8 (codePoint p)) id s := by
  intro p _
  refine ⟨U8Char.toUtf8_ne_nil _, fun rest => ?_⟩
  rw [nextPetscii, U8Char.fromCharArray_codePoint]
  exact congrArg (·, _) (U8Char.toPetscii_codePoint p)

/-- Converting to UTF-8 loses the NUL bytes and nothing else. -/
theorem toPETSCII2_toUTF8 (s : Str) : toPETSCII2 (toUTF8 s) = s.filter (· ≠ 0) := by
  rw [toUTF8_eq_filter, toPETSCII2,
    Lib.scan_flatMap _ _ id _ (recognises_petscii _) _ (recognises_petscii _).length_le, List.map_id]

theorem toUTF8_filter (s : Str) : toUTF8 (s.filter (· ≠ 0)) = toUTF8 s := by
  rw [toUTF8_eq_filter, toUTF8_eq_filter, List.filter_filter]
  simp

theorem toUTF8_toPETSCII2_toUTF8 (s : Str) : toUTF8 (toPETSCII2 (toUTF8 s)) = toUTF8 s := by
  rw [toPETSCII2_toUTF8, toUTF8_filter]

/-- Name conversion is lossless in both directions. -/
theorem name_conversion_lossless :
    (∀ s : Str, (0 : UInt8) ∉ s → toPETSCII2 (toUTF8 s) = s) ∧
    (∀ u : Str, (∃ s, u = toUTF8 s) → toUTF8 (toPETSCII2 u) = u) := by
  constructor
  · intro s noNul
    rw [toPETSCII2_toUTF8, List.filter_eq_self]
    intro p hp
    have : p ≠ 0 := fun h => noNul (h ▸ hp)
    simpa using this
  · rintro u ⟨s, rfl⟩
    exact toUTF8_toPETSCII2_toUTF8 s

/-- A name with a letter, a shifted letter, a shifted space and a graphics character. -/
theorem name_conversion_lossless_mixed :
    toPETSCII2 (toUTF8 [0x41, 0xc1, 0xa0, 0xba]) = [0x41, 0xc1, 0xa0, 0xba] ∧
    toUTF8 (toPETSCII2 (toUTF8 [0x00, 0x41])) = toUTF8 [0x00, 0x41] :=
  ⟨name_conversion_lossless.1 _ (by decide), name_conversion_lossless.2 _ ⟨_, rfl⟩⟩

end Meatloaf
