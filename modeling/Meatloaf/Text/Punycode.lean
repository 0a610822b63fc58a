import Mathlib.Data.List.Dedup
import Mathlib.Data.List.DropRight
import Mathlib.Data.List.Sort
import Meatloaf.Lib.Numeral
import Meatloaf.Text.U8Char
import Meatloaf.Text.Wildcard

/-! Punycode, and the names that carry it behind a prefix. A name is its basic code points, a delimiter, and
numbers that say where the others go. -/
namespace Meatloaf

open Lib

namespace Punycode

def BASE : Nat := 36
def TMIN : Nat := 1
def TMAX : Nat := 26
def SKEW : Nat := 38
def DAMP : Nat := 700
def INITIAL_N : Nat := 128
def INITIAL_BIAS : Nat := 72
def UINT32_MAX : Nat := 2 ^ 32 - 1

/-- The last code point. -/
def MAX_CODE : Nat := 0x10ffff

def delimiter : UInt8 := 0x2d

/- The loop of `adapt_bias`. Every turn makes `delta` smaller. -/
def scaleDelta : Nat → Nat → Nat → Nat × Nat
  | 0, delta, k => (delta, k)
  | turns + 1, delta, k =>
    if (BASE - TMIN) * TMAX / 2 < delta then scaleDelta turns (delta / (BASE - TMIN)) (k + BASE) else (delta, k)

/-- `adapt_bias`. The encoder has the same in its loop. -/
def adapt_bias (delta n_points : Nat) (is_first : Bool) : Nat :=
  let delta := delta / if is_first then DAMP else 2
  let delta := delta + delta / n_points
  let r := scaleDelta delta delta 0
  r.2 + (BASE - TMIN + 1) * r.1 / (r.1 + SKEW)

def threshold (k bias : Nat) : Nat :=
  if k ≤ bias then TMIN else if bias + TMAX ≤ k then TMAX else k - bias

def toupper (c : UInt8) : UInt8 := if 0x61 ≤ c ∧ c ≤ 0x7a then c - 0x20 else c

/- The digits of the decoder, in capitals. -/
def digitOf (ch : UInt8) : Option Nat :=
  if 0x41 ≤ ch ∧ ch ≤ 0x5a then some (ch.toNat - 0x41)
  else if 0x30 ≤ ch ∧ ch ≤ 0x39 then some (ch.toNat - 0x30 + 26)
  else none

/- One number of the text, added to `i`; `none` where `punycode_decode` leaves. -/
def decodeNumber (bias : Nat) : Nat → Nat → Nat → Str → Option (Nat × Str)
  | _, _, _, [] => none
  | k, w, i, ch :: rest =>
    match digitOf ch with
    | none => none
    | some digit =>
      if (UINT32_MAX - i) / w < digit then none
      else
        let t := threshold k bias
        if digit < t then some (i + digit * w, rest)
        else if UINT32_MAX / (BASE - t) < w then none
        else decodeNumber bias (k + BASE) (w * (BASE - t)) (i + digit * w) rest

/-- What the decoder carries from one number to the next. -/
structure Progress where
  out : List Nat
  n : Nat := INITIAL_N
  bias : Nat := INITIAL_BIAS
  i : Nat := 0

/- Behind the place where a code point is put among so many. -/
def nextIndex (i len : Nat) : Nat := (i % (len + 1) + 1) % 2 ^ 32

/- The end of a turn: a code point is put in its place. -/
def Progress.insert (s : Progress) (i : Nat) : Progress :=
  let outlen_plus1 := s.out.length + 1
  { out := s.out.insertIdx (i % outlen_plus1) (s.n + i / outlen_plus1)
    n := s.n + i / outlen_plus1
    bias := adapt_bias (i - s.i) outlen_plus1 (s.i == 0)
    i := nextIndex i s.out.length }

/- The loop over the numbers: whether it got to the end, and what was put out until then. Every turn takes
a character. -/
def decodeLoop : Nat → Progress → Str → Bool × List Nat
  | 0, s, _ => (true, s.out)
  | _ + 1, s, [] => (true, s.out)
  | turns + 1, s, ch :: rest =>
    match decodeNumber s.bias BASE 1 s.i (ch :: rest) with
    | none => (false, s.out)
    | some (i, rest) =>
      let add := i / (s.out.length + 1)
      if MAX_CODE - s.n < add ∨ MAX_CODE < s.n + add then (false, s.out) else decodeLoop turns (s.insert i) rest

/-- What `punycode_decode` returns, the elements of `dst` that it has written, from the first one on, and what
it has put into `dstlen`. -/
structure Decoded where
  ret : Nat
  dst : List Nat
  dstlen : Nat

/- The code points before the last delimiter. -/
def basicPart (src : Str) : Str := (src.rdropWhile (· ≠ delimiter)).dropLast

/- The numbers behind it, in capitals. -/
def extendedPart (src : Str) : Str := (src.rtakeWhile (· ≠ delimiter)).map toupper

/-- `punycode_decode`. Where it leaves early it copies nothing. -/
def punycode_decode (src : Str) (dstlen : Nat) : Decoded :=
  if src.any (0x80 ≤ ·) then ⟨0, [], 0⟩
  else
    let extended := extendedPart src
    let r := decodeLoop extended.length { out := (basicPart src).map UInt8.toNat } extended
    if r.1 then ⟨extended.length, r.2.take dstlen, min dstlen r.2.length⟩ else ⟨0, [], r.2.length⟩

/- The next place of a code point among those up to it, and what follows it in the text. -/
def selective_find (ch : Nat) : Int → List Nat → Option (Int × List Nat)
  | _, [] => none
  | index, c :: rest =>
    if c = ch then some (index + 1, rest)
    else if c < ch then selective_find ch (index + 1) rest
    else selective_find ch index rest

/- A number that is kept in a `size_t`. -/
def size_t (x : Int) : Nat := (x % 2 ^ 32).toNat

/- The distances to all places of one code point, and the last place. Every turn but the last finds one. -/
def unsortChar (ch : Nat) : Nat → Int → Int → Int → List Nat → List Nat × Int
  | 0, _, oldindex, _, _ => ([], oldindex)
  | turns + 1, index, oldindex, delta, rest =>
    match selective_find ch index rest with
    | none => ([], oldindex)
    | some (out_index, rest) =>
      let r := unsortChar ch turns out_index out_index 0 rest
      (size_t (delta + (out_index - oldindex) - 1) :: r.1, r.2)

/-- The insertion unsort of the encoder. -/
def insertionUnsort (srcv : List Nat) : List Nat → Nat → Int → List Nat
  | [], _, _ => []
  | ch :: extended_chars, oldchar, oldindex =>
    let curlen := srcv.countP (· < ch)
    let r := unsortChar ch (srcv.length + 1) (-1) oldindex ((curlen + 1) * (ch - oldchar) : Nat) srcv
    r.1 ++ insertionUnsort srcv extended_chars ch r.2

/- The digits of the encoder. -/
def encodeDigit (c : Nat) : UInt8 := if c ≤ 25 then UInt8.ofNat (0x61 + c) else UInt8.ofNat (0x30 + (c - 26))

/- The threshold of the encoder. -/
def clampedThreshold (j bias : Nat) : Nat :=
  let t : Int := BASE * (j + 1) - bias
  if t < TMIN then TMIN else if TMAX < t then TMAX else t.toNat

def encodeNumber (bias : Nat) : Nat → Nat → Nat → Str
  | 0, _, _ => []
  | turns + 1, j, N =>
    let t := clampedThreshold j bias
    if N < t then [encodeDigit N]
    else encodeDigit (t + (N - t) % (BASE - t)) :: encodeNumber bias turns (j + 1) ((N - t) / (BASE - t))

/-- The generalized integers of the encoder. A number makes less than one turn for each of its units. -/
def generateIntegers (base_size : Nat) : Nat → Nat → List Nat → Str
  | _, _, [] => []
  | points, bias, N :: deltas =>
    encodeNumber bias (N + 1) 0 N ++
      generateIntegers base_size (points + 1) (adapt_bias N (base_size + points + 1) (points == 0)) deltas

def baseBytes (srcv : List Nat) : List Nat := srcv.filter (· < 0x80)

/- Sorted, and each once. -/
def extendedChars (srcv : List Nat) : List Nat :=
  ((srcv.filter (0x80 ≤ ·)).insertionSort (· ≤ ·)).dedup

/- The whole text of the encoder. -/
def encoded (srcv : List Nat) : Str :=
  let base := (baseBytes srcv).map UInt8.ofNat
  let deltas := insertionUnsort srcv (extendedChars srcv) 0x80 (-1)
  let extended := generateIntegers base.length 0 INITIAL_BIAS deltas
  if base ≠ [] then base ++ delimiter :: extended else extended

/-- `punycode_encode`: what it returns, and the bytes that fit. -/
def punycode_encode (src : List Nat) (dstlen : Nat) : Nat × Str := (src.length, (encoded src).take dstlen)

/-! The numbers -/

theorem threshold_pos (k bias : Nat) : 0 < threshold k bias := by
  unfold threshold TMIN TMAX
  split
  · omega
  · split <;> omega

theorem threshold_lt (k bias : Nat) : threshold k bias < BASE := by
  unfold threshold TMIN TMAX BASE
  split
  · omega
  · split <;> omega

/-- The threshold of a place. -/
def place (bias j : Nat) : Nat := threshold (BASE * (j + 1)) bias

theorem place_pos (bias j : Nat) : 0 < place bias j := threshold_pos _ bias

theorem place_lt (bias j : Nat) : place bias j < BASE := threshold_lt _ bias

theorem clampedThreshold_eq (bias j : Nat) : clampedThreshold j bias = place bias j := by
  unfold clampedThreshold place threshold TMIN TMAX BASE
  dsimp only
  split
  · split
    · rfl
    · split <;> omega
  · split
    · split
      · omega
      · split <;> omega
    · split
      · omega
      · split <;> omega

/-- The decoder reads a numeral, -/
theorem decodeNumber_eq (bias j w i : Nat) (s : Str) :
    decodeNumber bias (BASE * (j + 1)) w i s = readNumeral digitOf (place bias) BASE UINT32_MAX j w i s := by
  induction s generalizing j w i with
  | nil => rfl
  | cons ch rest ih =>
    have next : BASE * (j + 1) + BASE = BASE * (j + 1 + 1) := by ring
    rw [decodeNumber, readNumeral]
    cases digitOf ch with
    | none => rfl
    | some digit =>
      simp only [next, ih]
      rfl

/-- and the encoder writes one. -/
theorem encodeNumber_eq (bias turns j N : Nat) :
    encodeNumber bias turns j N = (writeNumeral (place bias) BASE turns j N).map encodeDigit := by
  induction turns generalizing j N with
  | zero => rfl
  | succ turns ih =>
    rw [encodeNumber, writeNumeral, clampedThreshold_eq]
    split
    · rfl
    · rw [ih, List.map_cons]

/-! Text that is no Punycode -/

/-- A number that is complete and fits, and so does the code point that it leads to. -/
structure First (bias n i len : Nat) (text : Str) (v : Nat) : Prop where
  numeral : ∃ weight, Lib.Numeral digitOf (place bias) BASE 0 text v weight ∧ weight ≤ UINT32_MAX
  sum : i + v ≤ UINT32_MAX
  code : n + (i + v) / (len + 1) ≤ MAX_CODE

/-- A text is all numbers, each complete, in range, and of a code point that there is. -/
inductive Wellformed : Nat → Nat → Nat → Nat → Str → Prop
  | done {bias n i len : Nat} : Wellformed bias n i len []
  | number {bias n i len : Nat} {text rest : Str} {v : Nat} : First bias n i len text v →
      Wellformed (adapt_bias v (len + 1) (i == 0)) (n + (i + v) / (len + 1)) (nextIndex (i + v) len) (len + 1) rest →
      Wellformed bias n i len (text ++ rest)

/- A text begins with such a number. -/
def Starts (bias n i len : Nat) (s : Str) : Prop := ∃ text rest v, s = text ++ rest ∧ First bias n i len text v

variable {bias n i len v turns x : Nat} {text rest s : Str} {p : Progress}

/- What is well formed ends, or it starts with a number and goes on so. -/
theorem Wellformed.cases (wellformed : Wellformed bias n i len s) :
    s = [] ∨ ∃ text rest v, s = text ++ rest ∧ First bias n i len text v ∧
      Wellformed (adapt_bias v (len + 1) (i == 0)) (n + (i + v) / (len + 1)) (nextIndex (i + v) len) (len + 1) rest := by
  cases wellformed with
  | done => exact .inl rfl
  | number first next => exact .inr ⟨_, _, _, rfl, first, next⟩

theorem First.ne_nil (first : First bias n i len text v) : text ≠ [] :=
  first.numeral.choose_spec.1.ne_nil

/- Such a number is decoded, -/
theorem First.decode (first : First bias n i len text v) (rest : Str) :
    decodeNumber bias BASE 1 i (text ++ rest) = some (i + v, rest) := by
  obtain ⟨weight, numeral, light⟩ := first.numeral
  have eq := decodeNumber_eq bias 0 1 i (text ++ rest)
  have value : i + 1 * v ≤ UINT32_MAX := by rw [Nat.one_mul]; exact first.sum
  have read := numeral.read (place_lt bias) Nat.one_pos value (by rw [Nat.one_mul]; exact light) rest
  rw [Nat.one_mul] at read
  exact eq.trans read

/- and what is decoded is one. -/
theorem First.of_decode (inside : i ≤ UINT32_MAX) (read : decodeNumber bias BASE 1 i s = some (x, rest))
    (code : n + x / (len + 1) ≤ MAX_CODE) : ∃ text v, s = text ++ rest ∧ x = i + v ∧ First bias n i len text v := by
  have eq : decodeNumber bias BASE 1 i s = readNumeral digitOf (place bias) BASE UINT32_MAX 0 1 i s :=
    decodeNumber_eq bias 0 1 i s
  rw [eq] at read
  obtain ⟨text, v, weight, join, numeral, value, within, light⟩ :=
    readNumeral_some (place_lt bias) Nat.one_pos inside (by decide) read
  rw [Nat.one_mul] at value light
  exact ⟨text, v, join, value, ⟨weight, numeral, light⟩, value ▸ within, value ▸ code⟩

theorem nextIndex_le (i len : Nat) : nextIndex i len ≤ UINT32_MAX :=
  Nat.le_sub_one_of_lt (Nat.mod_lt _ (by decide))

/- A turn of the loop: the text begins with a number, which is inserted, or the decoder leaves. -/
theorem decodeLoop_first (first : First p.bias p.n p.i p.out.length text v) (rest : Str) :
    decodeLoop (turns + 1) p (text ++ rest) = decodeLoop turns (p.insert (p.i + v)) rest := by
  obtain ⟨ch, tail, cons⟩ := List.exists_cons_of_ne_nil first.ne_nil
  have read := first.decode rest
  have code := first.code
  rw [cons, List.cons_append] at read ⊢
  rw [decodeLoop, read]
  exact if_neg (by omega)

theorem decodeLoop_stuck (inside : p.i ≤ UINT32_MAX) (some : s ≠ []) (stuck : ¬ Starts p.bias p.n p.i p.out.length s) :
    decodeLoop (turns + 1) p s = (false, p.out) := by
  obtain ⟨ch, tail, rfl⟩ := List.exists_cons_of_ne_nil some
  rw [decodeLoop]
  cases read : decodeNumber p.bias BASE 1 p.i (ch :: tail) with
  | none => rfl
  | some r =>
    obtain ⟨x, rest⟩ := r
    refine if_pos ?_
    by_contra high
    obtain ⟨text, v, join, -, first⟩ := @First.of_decode p.bias p.n p.i p.out.length x rest (ch :: tail) inside read (by omega)
    exact stuck ⟨text, rest, v, join, first⟩

theorem Progress.insert_length (p : Progress) (i : Nat) : (p.insert i).out.length = p.out.length + 1 := by
  refine List.length_insertIdx_of_le_length (Nat.le_of_lt_succ (Nat.mod_lt _ (Nat.succ_pos _))) _

/-- The decoder gets to the end of a well-formed text, and of no other. -/
theorem decodeLoop_iff (enough : s.length ≤ turns) (inside : p.i ≤ UINT32_MAX) :
    (decodeLoop turns p s).1 = true ↔ Wellformed p.bias p.n p.i p.out.length s := by
  induction turns generalizing p s with
  | zero =>
    have none : s = [] := List.eq_nil_of_length_eq_zero (Nat.le_zero.mp enough)
    exact iff_of_true rfl (none ▸ .done)
  | succ turns ih =>
    by_cases none : s = []
    · rw [none]
      exact iff_of_true rfl .done
    · by_cases starts : Starts p.bias p.n p.i p.out.length s
      · obtain ⟨text, rest, v, rfl, first⟩ := starts
        have shorter : rest.length ≤ turns := by
          have := List.length_pos_iff.mpr first.ne_nil
          rw [List.length_append] at enough
          omega
        have next := ih (p := p.insert (p.i + v)) shorter (nextIndex_le _ _)
        have bias : (p.insert (p.i + v)).bias = adapt_bias v (p.out.length + 1) (p.i == 0) := by
          simp [Progress.insert]
        rw [decodeLoop_first first, next, p.insert_length, bias]
        refine ⟨.number first, fun wellformed => ?_⟩
        rcases wellformed.cases with empty | ⟨text', rest', v', join, first', going⟩
        · exact absurd empty none
        · -- the number is read in one way
          have both := first'.decode rest'
          rw [← join, first.decode rest] at both
          simp only [Option.some.injEq, Prod.mk.injEq, Nat.add_left_cancel_iff] at both
          rw [← both.1, ← both.2] at going
          exact going
      · rw [decodeLoop_stuck inside none starts]
        refine iff_of_false Bool.false_ne_true fun wellformed => ?_
        rcases wellformed.cases with empty | ⟨text, rest, v, join, first, -⟩
        · exact none empty
        · exact starts ⟨text, rest, v, join, first⟩

/- What is put out only grows. -/
theorem decodeLoop_grows (turns : Nat) (p : Progress) (s : Str) (inside : p.i ≤ UINT32_MAX) :
    p.out.length ≤ (decodeLoop turns p s).2.length := by
  induction turns generalizing p s with
  | zero => exact Nat.le_refl _
  | succ turns ih =>
    by_cases none : s = []
    · rw [none]
      exact Nat.le_refl _
    · by_cases starts : Starts p.bias p.n p.i p.out.length s
      · obtain ⟨text, rest, v, rfl, first⟩ := starts
        have next := ih (p.insert (p.i + v)) rest (nextIndex_le _ _)
        rw [p.insert_length] at next
        rw [decodeLoop_first first]
        omega
      · rw [decodeLoop_stuck inside none starts]

/- Nothing has been put out where the decoder leaves, if and only if it had nothing and leaves at once. -/
theorem decodeLoop_nothing (some : s ≠ []) (inside : p.i ≤ UINT32_MAX) (enough : s.length ≤ turns) :
    (decodeLoop turns p s).2 = [] ↔ p.out = [] ∧ ¬ Starts p.bias p.n p.i p.out.length s := by
  obtain ⟨turns, rfl⟩ : ∃ k, turns = k + 1 := ⟨turns - 1, by have := List.length_pos_iff.mpr some; omega⟩
  by_cases starts : Starts p.bias p.n p.i p.out.length s
  · refine iff_of_false (fun empty => ?_) fun no => no.2 starts
    obtain ⟨text, rest, v, rfl, first⟩ := starts
    have grows := decodeLoop_grows turns (p.insert (p.i + v)) rest (nextIndex_le _ _)
    rw [decodeLoop_first first] at empty
    rw [empty, p.insert_length] at grows
    cases grows
  · rw [decodeLoop_stuck inside some starts]
    exact ⟨fun empty => ⟨empty, starts⟩, And.left⟩

end Punycode

namespace U8Char

open Punycode

/-- The elements of `asU32`, and the bytes of `asPunycode`. -/
def CAPACITY : Nat := 1024

/-- `toUnicode32`: the loop ends with the text, or when the output is full. -/
def toUnicode32 (input_utf8 : Str) (max_output_length : Nat) : List Nat :=
  Lib.scan fromCharArray max_output_length input_utf8

/-- `fromUnicode32`. A code point is cut to 16 bits. -/
def fromUnicode32 (input_unicode32 : List Nat) : Str := input_unicode32.flatMap fun c => toUtf8 (c % 2 ^ 16)

def toPunycode (utf8String : Str) : Str := (punycode_encode (toUnicode32 utf8String CAPACITY) CAPACITY).2

/-- `fromPunycode`. An element that was not written has what the stack had there. -/
def fromPunycode (stack : Nat → Nat) (punycodeString : Str) : Str :=
  if punycodeString = [] then []
  else
    let r := punycode_decode punycodeString CAPACITY
    fromUnicode32 ((List.range r.dstlen).map fun k => r.dst.getD k (stack k))

/-- "xn--" -/
def acePrefix : Str := [0x78, 0x6e, 0x2d, 0x2d]

def encodeACE (utf8String : Str) : Str :=
  if utf8String.any (0x7f < ·) then
    let puny := toPunycode utf8String
    if puny = [] then utf8String else acePrefix ++ puny
  else utf8String

/- A name with the prefix, in letters of either case. -/
def hasPrefix (s : Str) : Bool := 4 ≤ s.length && (s.take 4).map Mstr.tolower == acePrefix

def decodeACE (stack : Nat → Nat) (aceOrPunycode : Str) : Str :=
  if hasPrefix aceOrPunycode then fromPunycode stack (aceOrPunycode.drop 4) else aceOrPunycode

/-- Every element of the buffer that `fromPunycode` converts was written by the decoder. -/
def ReadsWritten (p : Str) : Prop :=
  p ≠ [] → ∀ k < (punycode_decode p CAPACITY).dstlen, k < CAPACITY → k < (punycode_decode p CAPACITY).dst.length

/-- What is converted was written, if and only if the name has a byte that is not ASCII, or is well formed, or
has no basic code points and begins with no number that can be inserted. -/
theorem readsWritten_iff (p : Str) :
    ReadsWritten p ↔ (∃ b ∈ p, 0x80 ≤ b) ∨
      Wellformed INITIAL_BIAS INITIAL_N 0 (basicPart p).length (extendedPart p) ∨
      basicPart p = [] ∧ ¬ Starts INITIAL_BIAS INITIAL_N 0 0 (extendedPart p) := by
  unfold ReadsWritten punycode_decode
  by_cases high : p.any (0x80 ≤ ·)
  · rw [if_pos high]
    refine iff_of_true (fun _ k no => absurd no (Nat.not_lt_zero k)) (.inl ?_)
    simpa using high
  · rw [if_neg high]
    have low : ¬ ∃ b ∈ p, 0x80 ≤ b := by simpa using high
    have basics : ((basicPart p).map UInt8.toNat).length = (basicPart p).length := List.length_map ..
    have passes := decodeLoop_iff (p := { out := (basicPart p).map UInt8.toNat }) (Nat.le_refl (extendedPart p).length)
      (Nat.zero_le _)
    rw [basics] at passes
    by_cases through : (decodeLoop (extendedPart p).length { out := (basicPart p).map UInt8.toNat } (extendedPart p)).1
    · refine iff_of_true (fun _ k inside _ => ?_) (.inr (.inl (passes.mp through)))
      simp only [if_pos through, List.length_take] at inside ⊢
      exact inside
    · have malformed := mt passes.mpr through
      have more : extendedPart p ≠ [] := fun empty => malformed (empty ▸ .done)
      have nothing := decodeLoop_nothing (p := { out := (basicPart p).map UInt8.toNat }) more (Nat.zero_le _)
        (Nat.le_refl _)
      rw [List.map_eq_nil_iff, basics] at nothing
      have some : p ≠ [] := fun empty => more (by rw [empty]; rfl)
      simp only [if_neg through, low, malformed, false_or]
      constructor
      · intro written
        have empty := List.eq_nil_iff_length_eq_zero.mpr (Nat.eq_zero_of_not_pos fun positive =>
          absurd (written some 0 positive (by decide)) (Nat.not_lt_zero 0))
        obtain ⟨none, stuck⟩ := nothing.mp empty
        exact ⟨none, by rw [none] at stuck; exact stuck⟩
      · rintro ⟨none, stuck⟩ _ k inside -
        rw [nothing.mpr ⟨none, by rw [none]; exact stuck⟩] at inside
        exact inside

/-- "a-!" has a basic code point and no number behind the delimiter: one element is converted, and none was
written. -/
theorem reads_unwritten : ¬ ReadsWritten [0x61, 0x2d, 0x21] := fun written =>
  absurd (written (by decide) 0 (by decide +kernel) (by decide)) (by decide +kernel)

end U8Char

end Meatloaf
