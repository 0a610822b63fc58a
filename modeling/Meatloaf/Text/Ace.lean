import Meatloaf.Lib.Insertion
import Meatloaf.Lib.Run
import Meatloaf.Text.Punycode

/-! Names behind the prefix, there and back. The decoder is one insertion for each number of the encoder, and
the bias of both is the same at each. -/
namespace Meatloaf

open Lib

namespace Punycode

/- A turn of the decoder on the number `d`. -/
def insertion (p : Progress) (d : Nat) : Progress := p.insert (p.i + d)

/-- A number that the decoder does not overflow on. -/
structure Small (p : Progress) (d : Nat) : Prop where
  scaled : BASE * d ≤ UINT32_MAX
  sum : p.i + d ≤ UINT32_MAX
  code : p.n + (p.i + d) / (p.out.length + 1) ≤ MAX_CODE
  room : p.out.length + 1 ≤ UINT32_MAX

/-! The numbers -/

theorem digit_known : ∀ d < BASE, digitOf (toupper (encodeDigit d)) = some d := by decide +kernel

theorem digit_plain : ∀ d < BASE, encodeDigit d ≠ delimiter ∧ encodeDigit d < 0x80 := by decide

/- The text of a number, in capitals, is the first one that the decoder finds. -/
theorem first_encoded {p : Progress} {d : Nat} (small : Small p d) :
    First p.bias p.n p.i p.out.length ((encodeNumber p.bias (d + 1) 0 d).map toupper) d := by
  obtain ⟨weight, numeral, light⟩ := writeNumeral_numeral (place_pos p.bias) (place_lt p.bias) digit_known
    (j := 0) (Nat.lt_succ_self d)
  rw [encodeNumber_eq, List.map_map]
  refine ⟨⟨weight, numeral, Nat.le_trans light (Nat.max_le.mpr ⟨by decide, small.scaled⟩)⟩, small.sum, small.code⟩

theorem nextIndex_eq {i len : Nat} (room : len + 1 ≤ UINT32_MAX) : nextIndex i len = i % (len + 1) + 1 := by
  have inside : i % (len + 1) < len + 1 := Nat.mod_lt i (Nat.succ_pos len)
  refine Nat.mod_eq_of_lt ?_
  unfold UINT32_MAX at room
  omega

/-- The decoder inserts the numbers that the encoder has written, one by one. -/
theorem decodeLoop_generate {deltas : List Nat} {p : Progress} {base_size points turns : Nat}
    (filled : p.out.length = base_size + points) (fresh : p.i = 0 ↔ points = 0)
    (small : Along insertion Small p deltas)
    (enough : ((generateIntegers base_size points p.bias deltas).map toupper).length ≤ turns) :
    decodeLoop turns p ((generateIntegers base_size points p.bias deltas).map toupper) =
      (true, (deltas.foldl insertion p).out) := by
  induction deltas generalizing p points turns with
  | nil => cases turns <;> rfl
  | cons d deltas ih =>
    obtain ⟨here, rest⟩ := small
    have first := first_encoded here
    have some := List.length_pos_iff.mpr first.ne_nil
    rw [generateIntegers, List.map_append] at enough ⊢
    rw [List.length_append] at enough
    obtain ⟨turns, rfl⟩ : ∃ k, turns = k + 1 := ⟨turns - 1, by omega⟩
    rw [decodeLoop_first first]
    have bias : (insertion p d).bias = adapt_bias d (base_size + points + 1) (points == 0) := by
      have start : (p.i == 0) = (points == 0) := by
        rw [Bool.eq_iff_iff, beq_iff_eq, beq_iff_eq]
        exact fresh
      simp [insertion, Progress.insert, filled, start]
    rw [← bias] at enough ⊢
    have grown : (insertion p d).out.length = base_size + (points + 1) := by
      rw [insertion, Progress.insert_length, filled, Nat.add_assoc]
    have started : (insertion p d).i = 0 ↔ points + 1 = 0 := by
      have next : (insertion p d).i = nextIndex (p.i + d) p.out.length := rfl
      rw [next, nextIndex_eq here.room]
      omega
    exact ih (p := insertion p d) grown started rest (by omega)

/-! The places -/

theorem selective_find_append {ch : Nat} {mid : List Nat} (absent : ch ∉ mid) (index : Int) (rest : List Nat) :
    selective_find ch index (mid ++ ch :: rest) = some (index + mid.countP (· < ch) + 1, rest) := by
  induction mid generalizing index with
  | nil => simp [selective_find]
  | cons c mid ih =>
    rw [List.mem_cons, not_or] at absent
    rw [List.cons_append, selective_find, if_neg (Ne.symm absent.1), List.countP_cons]
    by_cases below : c < ch
    · rw [if_pos below, ih absent.2]
      simp only [decide_eq_true below, if_true]
      congr 2
      push_cast
      omega
    · rw [if_neg below, ih absent.2]
      simp [below]

theorem selective_find_none {ch : Nat} {rest : List Nat} (absent : ch ∉ rest) (index : Int) :
    selective_find ch index rest = none := by
  induction rest generalizing index with
  | nil => rfl
  | cons c rest ih =>
    rw [List.mem_cons, not_or] at absent
    rw [selective_find, if_neg (Ne.symm absent.1)]
    split
    · exact ih absent.2 _
    · exact ih absent.2 _

theorem size_t_natCast {n : Nat} (small : n < 2 ^ 32) : size_t n = n := by
  unfold size_t
  omega

/- A code point goes in at its place: what is to be added, and what it leaves. -/
theorem insertion_at {p : Progress} {ch k d : Nat} (inside : k ≤ p.out.length) (above : p.n ≤ ch)
    (sum : p.i + d = (ch - p.n) * (p.out.length + 1) + k) (room : p.out.length + 1 ≤ UINT32_MAX) :
    (insertion p d).out = p.out.insertIdx k ch ∧ (insertion p d).n = ch ∧ (insertion p d).i = k + 1 := by
  have quotient : (p.i + d) / (p.out.length + 1) = ch - p.n := by
    rw [sum, Nat.mul_comm, Nat.mul_add_div (Nat.succ_pos _), Nat.div_eq_of_lt (Nat.lt_succ_of_le inside), Nat.add_zero]
  have remainder : (p.i + d) % (p.out.length + 1) = k := by
    rw [sum, Nat.mul_comm, Nat.mul_add_mod, Nat.mod_eq_of_lt (Nat.lt_succ_of_le inside)]
  have code : p.n + (p.i + d) / (p.out.length + 1) = ch := by omega
  refine ⟨?_, code, ?_⟩
  · have out : (insertion p d).out =
        p.out.insertIdx ((p.i + d) % (p.out.length + 1)) (p.n + (p.i + d) / (p.out.length + 1)) := rfl
    rw [out, remainder, code]
  · have next : (insertion p d).i = nextIndex (p.i + d) p.out.length := rfl
    rw [next, nextIndex_eq room, remainder]

/-- Between two places of one code point: the decoder has what is up to it in the first part of the text, and
below it in the second. -/
structure Unsorting (p : Progress) (ch : Nat) (pre suf : List Nat) (index oldindex delta : Int) : Prop where
  out : p.out = partway ch pre suf
  behind : (p.i : Int) = oldindex + 1
  place : index + 1 = (pre.filter (· ≤ ch)).length
  distance : delta = ((ch - p.n) * (p.out.length + 1) : Nat)
  order : p.n < ch ∨ p.n = ch ∧ oldindex = index
  inside : p.i ≤ p.out.length
  short : pre.length + suf.length < 1024
  code : ch < 0x10000

/- The next place. -/
theorem Unsorting.next {p : Progress} {ch : Nat} {pre mid suf : List Nat} {index oldindex delta : Int}
    (unsorting : Unsorting p ch pre (mid ++ ch :: suf) index oldindex delta) (absent : ch ∉ mid) :
    let out_index := index + mid.countP (· < ch) + 1
    let d := size_t (delta + (out_index - oldindex) - 1)
    Small p d ∧ (insertion p d).n = ch ∧
      Unsorting (insertion p d) ch (pre ++ mid ++ [ch]) suf out_index out_index 0 := by
  obtain ⟨out, behind, place, distance, order, inside, short, code⟩ := unsorting
  intro out_index d
  obtain ⟨k, place_⟩ : ∃ k, k = (pre.filter (· ≤ ch)).length + mid.countP (· < ch) := ⟨_, rfl⟩
  have index_ : out_index = k := by
    simp only [out_index]
    push_cast [place_]
    omega
  have length := partway_length_le ch pre (mid ++ ch :: suf)
  rw [← out] at length
  have fits : k ≤ p.out.length := by
    have cut : p.out = (pre.filter (· ≤ ch) ++ mid.filter (· < ch)) ++ suf.filter (· < ch) := by
      simp [out, partway]
    rw [cut, List.length_append, List.length_append, place_, List.countP_eq_length_filter]
    omega
  have above : p.n ≤ ch := by omega
  obtain ⟨far, far_⟩ : ∃ far, far = (ch - p.n) * (p.out.length + 1) := ⟨_, rfl⟩
  have far_lt : far ≤ 65535 * 1024 := by
    rw [far_]
    exact Nat.mul_le_mul (by omega) (by omega)
  have reach : p.i ≤ far + k := by
    rcases order with less | ⟨same, at_⟩
    · have one : 1 * (p.out.length + 1) ≤ far := by
        rw [far_]
        exact Nat.mul_le_mul_right _ (by omega)
      omega
    · omega
  have d_ : d = far + k - p.i := by
    have value : delta + (out_index - oldindex) - 1 = ((far + k - p.i : Nat) : Int) := by
      rw [distance, ← far_, index_]
      omega
    simp only [d, value]
    exact size_t_natCast (by omega)
  have sum : p.i + d = far + k := by omega
  have room : p.out.length + 1 ≤ UINT32_MAX := by
    unfold UINT32_MAX
    omega
  obtain ⟨inserted, n, i⟩ := insertion_at fits above (far_ ▸ sum) room
  have grown : (insertion p d).out.length = p.out.length + 1 := p.insert_length _
  refine ⟨⟨?_, ?_, ?_, room⟩, n, ?_, ?_, ?_, ?_, ?_, ?_, ?_, code⟩
  · unfold BASE UINT32_MAX
    omega
  · unfold UINT32_MAX
    omega
  · have code_ : (insertion p d).n = p.n + (p.i + d) / (p.out.length + 1) := rfl
    rw [← code_, n]
    unfold MAX_CODE
    omega
  · rw [inserted, out, place_]
    exact partway_insert absent
  · rw [i, index_]
    rfl
  · rw [index_, place_]
    simp [filter_le_of_notMem absent, List.countP_eq_length_filter]
    omega
  · simp [n]
  · exact .inr ⟨n, rfl⟩
  · rw [i, grown]
    omega
  · simp only [List.length_append, List.length_cons, List.length_nil] at short ⊢
    omega

/-- Behind the last place the decoder has everything up to the code point. -/
theorem unsortChar_run {turns : Nat} {p : Progress} {ch : Nat} {pre suf : List Nat} {index oldindex delta : Int}
    (unsorting : Unsorting p ch pre suf index oldindex delta) (enough : suf.length < turns) :
    let r := unsortChar ch turns index oldindex delta suf
    let q := r.1.foldl insertion p
    Along insertion Small p r.1 ∧ q.out = (pre ++ suf).filter (· ≤ ch) ∧ (q.i : Int) = r.2 + 1 ∧
      q.i ≤ q.out.length ∧ (ch ∈ suf ∨ p.n = ch → q.n = ch) := by
  induction turns generalizing p pre suf index oldindex delta with
  | zero => omega
  | succ turns ih =>
    dsimp only
    rw [unsortChar]
    by_cases occurs : ch ∈ suf
    · obtain ⟨mid, rest, rfl, absent⟩ := List.eq_append_cons_of_mem occurs
      obtain ⟨small, n, next⟩ := unsorting.next absent
      rw [List.length_append, List.length_cons] at enough
      obtain ⟨along, out, i, inside, code⟩ := ih next (by omega)
      rw [selective_find_append absent]
      refine ⟨⟨small, along⟩, ?_, i, inside, fun _ => code (.inr n)⟩
      rw [List.foldl_cons, out]
      simp
    · rw [selective_find_none occurs]
      refine ⟨trivial, ?_, unsorting.behind, unsorting.inside, fun known => known.resolve_left occurs⟩
      rw [List.foldl_nil, unsorting.out, partway_absent occurs, partway]
      simp

/-- Before a code point is unsorted: the decoder has what is not in the list of those that are left. -/
structure Remaining (p : Progress) (srcv chars : List Nat) (oldchar : Nat) (oldindex : Int) : Prop where
  out : p.out = srcv.filter (· ∉ chars)
  behind : (p.i : Int) = oldindex + 1
  inside : p.i ≤ p.out.length
  n : p.n = oldchar
  above : ∀ c ∈ chars, oldchar < c ∨ p.i = 0 ∧ oldchar = c
  apart : ∀ x ∈ srcv, x ∉ chars → ∀ c ∈ chars, x < c

/-- The numbers of the encoder put the whole text together. -/
theorem insertionUnsort_run {srcv chars : List Nat} (short : srcv.length < 1024) (code : ∀ c ∈ srcv, c < 0x10000)
    (sorted : chars.Pairwise (· < ·)) (occur : ∀ c ∈ chars, c ∈ srcv) {p : Progress} {oldchar : Nat} {oldindex : Int}
    (remaining : Remaining p srcv chars oldchar oldindex) :
    Along insertion Small p (insertionUnsort srcv chars oldchar oldindex) ∧
      ((insertionUnsort srcv chars oldchar oldindex).foldl insertion p).out = srcv := by
  induction chars generalizing p oldchar oldindex with
  | nil => exact ⟨trivial, by simp [insertionUnsort, remaining.out]⟩
  | cons ch chars ih =>
    obtain ⟨out, behind, inside, n, above, apart⟩ := remaining
    rw [List.pairwise_cons] at sorted
    have absent : ch ∉ chars := fun member => absurd (sorted.1 ch member) (Nat.lt_irrefl ch)
    have below : srcv.filter (· ∉ ch :: chars) = srcv.filter (· < ch) := by
      refine List.filter_congr fun x member => decide_eq_decide.mpr ⟨fun left => ?_, fun less left => ?_⟩
      · exact apart x member left ch List.mem_cons_self
      · rcases List.mem_cons.mp left with same | later
        · omega
        · have := sorted.1 x later
          omega
    have upto : srcv.filter (· ≤ ch) = srcv.filter (· ∉ chars) := by
      refine List.filter_congr fun x member => decide_eq_decide.mpr ⟨fun le later => ?_, fun left => ?_⟩
      · have := sorted.1 x later
        omega
      · by_cases same : x = ch
        · exact Nat.le_of_eq same
        · have notMem : x ∉ ch :: chars := by simp [same, left]
          exact Nat.le_of_lt (apart x member notMem ch List.mem_cons_self)
    have here : ch ∈ srcv := occur ch List.mem_cons_self
    have unsorting : Unsorting p ch [] srcv (-1) oldindex
        ((srcv.countP (· < ch) + 1) * (ch - oldchar) : Nat) := by
      refine ⟨?_, behind, by simp, ?_, ?_, inside, by simpa using short, code ch here⟩
      · rw [out, below]
        simp [partway]
      · rw [out, below, n, List.countP_eq_length_filter, Nat.mul_comm]
      · rcases above ch List.mem_cons_self with less | ⟨start, same⟩
        · exact .inl (n.trans_lt less)
        · exact .inr ⟨n.trans same, by omega⟩
    have run := unsortChar_run unsorting (Nat.lt_succ_self srcv.length)
    rw [insertionUnsort]
    dsimp only at run ⊢
    generalize unsortChar ch (srcv.length + 1) (-1) oldindex
      ((srcv.countP (· < ch) + 1) * (ch - oldchar) : Nat) srcv = r at run ⊢
    obtain ⟨along, out', behind', inside', n'⟩ := run
    have next : Remaining (r.1.foldl insertion p) srcv chars ch r.2 := by
      refine ⟨out'.trans ((congrArg _ (List.nil_append srcv)).trans upto), behind', inside', n' (.inl here),
        fun c later => .inl (sorted.1 c later), fun x member left c later => ?_⟩
      by_cases same : x = ch
      · exact same ▸ sorted.1 c later
      · exact apart x member (by simp [same, left]) c (List.mem_cons_of_mem ch later)
    obtain ⟨rest, whole⟩ := ih sorted.2 (fun c later => occur c (List.mem_cons_of_mem ch later)) next
    refine ⟨along.append rest, ?_⟩
    rw [List.foldl_append]
    exact whole

/-! The text -/

theorem extendedChars_sorted (srcv : List Nat) : (extendedChars srcv).Pairwise (· < ·) := by
  have sorted : ((srcv.filter (0x80 ≤ ·)).insertionSort (· ≤ ·)).Pairwise (· ≤ ·) := List.pairwise_insertionSort _ _
  have each := List.nodup_dedup ((srcv.filter (0x80 ≤ ·)).insertionSort (· ≤ ·))
  exact ((sorted.sublist (List.dedup_sublist _)).and each).imp fun both => Nat.lt_of_le_of_ne both.1 both.2

theorem mem_extendedChars {srcv : List Nat} {c : Nat} : c ∈ extendedChars srcv ↔ c ∈ srcv ∧ 0x80 ≤ c := by
  simp [extendedChars]

/- The numbers of the encoder are plain, as is the delimiter, -/
theorem generateIntegers_plain (base_size points bias : Nat) (deltas : List Nat) :
    ∀ b ∈ generateIntegers base_size points bias deltas, b ≠ delimiter ∧ b < 0x80 := by
  induction deltas generalizing points bias with
  | nil => simp [generateIntegers]
  | cons d deltas ih =>
    intro b member
    rw [generateIntegers, encodeNumber_eq, List.mem_append, List.mem_map] at member
    rcases member with ⟨digit, inside, rfl⟩ | later
    · exact digit_plain digit (writeNumeral_lt (place_lt bias) _ _ _ digit inside)
    · exact ih _ _ b later

/- and so the parts of a text are found again. -/
theorem parts {base extended : Str} (plain : ∀ b ∈ extended, b ≠ delimiter) :
    basicPart (base ++ delimiter :: extended) = base ∧
      extendedPart (base ++ delimiter :: extended) = extended.map toupper := by
  have all : ∀ b ∈ extended.reverse, decide (b ≠ delimiter) = true := by simpa using plain
  have reversed : (base ++ delimiter :: extended).reverse = extended.reverse ++ delimiter :: base.reverse := by simp
  constructor
  · rw [basicPart, List.rdropWhile, reversed, List.dropWhile_append_of_pos all]
    simp
  · rw [extendedPart, List.rtakeWhile, reversed, List.takeWhile_append_of_pos all]
    simp

theorem parts_nil {extended : Str} (plain : ∀ b ∈ extended, b ≠ delimiter) :
    basicPart extended = [] ∧ extendedPart extended = extended.map toupper := by
  have all : ∀ b ∈ extended, decide (b ≠ delimiter) = true := by simpa using plain
  rw [basicPart, extendedPart, List.rdropWhile_eq_nil_iff.mpr all, List.rtakeWhile_eq_self_iff.mpr all]
  exact ⟨rfl, rfl⟩

/- Of what the encoder writes, the decoder sees the basic code points and the numbers. -/
theorem parts_encoded (srcv : List Nat) :
    basicPart (encoded srcv) = (baseBytes srcv).map UInt8.ofNat ∧
      extendedPart (encoded srcv) = (generateIntegers (baseBytes srcv).length 0 INITIAL_BIAS
        (insertionUnsort srcv (extendedChars srcv) 0x80 (-1))).map toupper := by
  have plain := generateIntegers_plain (baseBytes srcv).length 0 INITIAL_BIAS
    (insertionUnsort srcv (extendedChars srcv) 0x80 (-1))
  unfold encoded
  dsimp only
  rw [List.length_map]
  split
  · exact parts fun b member => (plain b member).1
  · rename_i none
    rw [not_not.mp none]
    exact parts_nil fun b member => (plain b member).1

theorem baseBytes_low (srcv : List Nat) : ∀ c ∈ baseBytes srcv, c < 0x80 := by simp [baseBytes]

theorem encoded_low (srcv : List Nat) : ∀ b ∈ encoded srcv, b < 0x80 := by
  have base : ∀ b ∈ (baseBytes srcv).map UInt8.ofNat, b < 0x80 := by
    intro b member
    obtain ⟨c, inside, rfl⟩ := List.mem_map.mp member
    have low := baseBytes_low srcv c inside
    rw [UInt8.lt_iff_toNat_lt, UInt8.toNat_ofNat']
    have cut : c % 2 ^ 8 = c := Nat.mod_eq_of_lt (by omega)
    rw [cut]
    exact low
  have plain (base_size : Nat) := generateIntegers_plain base_size 0 INITIAL_BIAS
    (insertionUnsort srcv (extendedChars srcv) 0x80 (-1))
  unfold encoded
  dsimp only
  split
  · intro b member
    rcases List.mem_append.mp member with first | behind
    · exact base b first
    · rcases List.mem_cons.mp behind with rfl | later
      · decide
      · exact (plain _ b later).2
  · exact fun b member => (plain _ b member).2

/-- The decoder gets back what the encoder was given. -/
theorem punycode_decode_encoded {srcv : List Nat} (short : srcv.length < 1024) (code : ∀ c ∈ srcv, c < 0x10000) :
    ∃ ret, punycode_decode (encoded srcv) 1024 = ⟨ret, srcv, srcv.length⟩ := by
  obtain ⟨basic, extended⟩ := parts_encoded srcv
  have low : ¬ (encoded srcv).any (0x80 ≤ ·) := by
    simpa using encoded_low srcv
  have bytes : ((baseBytes srcv).map UInt8.ofNat).map UInt8.toNat = baseBytes srcv := by
    rw [List.map_map]
    refine (List.map_congr_left fun c inside => ?_).trans (List.map_id _)
    have small := baseBytes_low srcv c inside
    exact UInt8.toNat_ofNat_of_lt (Nat.lt_trans small (by decide))
  have start : Remaining { out := baseBytes srcv } srcv (extendedChars srcv) 0x80 (-1) := by
    refine ⟨?_, rfl, Nat.zero_le _, rfl, fun c member => ?_, fun x member left c there => ?_⟩
    · exact List.filter_congr fun x member => by simp [mem_extendedChars, member]
    · have high := (mem_extendedChars.mp member).2
      rcases Nat.lt_or_eq_of_le high with less | same
      · exact .inl less
      · exact .inr ⟨rfl, same⟩
    · have high := (mem_extendedChars.mp there).2
      have below : ¬ 0x80 ≤ x := fun high => left (mem_extendedChars.mpr ⟨member, high⟩)
      omega
  obtain ⟨small, whole⟩ := insertionUnsort_run short code (extendedChars_sorted srcv)
    (fun c member => (mem_extendedChars.mp member).1) start
  have through := decodeLoop_generate (p := { out := baseBytes srcv }) (Nat.add_zero _).symm (iff_of_true rfl rfl) small
    (Nat.le_refl _)
  rw [whole] at through
  refine ⟨(extendedPart (encoded srcv)).length, ?_⟩
  unfold punycode_decode
  rw [if_neg low, basic, extended, bytes]
  dsimp only
  rw [through, if_pos rfl, List.take_of_length_le (Nat.le_of_lt short), Nat.min_eq_right (Nat.le_of_lt short)]

end Punycode

namespace U8Char

open Punycode

/-- The bytes of a text. -/
def utf8 (s : String) : Str := s.toList.flatMap String.utf8EncodeChar

/- The code points of a text. -/
def codePoints (s : String) : List Nat := s.toList.map Char.toNat

theorem codePoints_length (s : String) : (codePoints s).length = s.length := by
  rw [codePoints, List.length_map, String.length_toList]

/-! The bytes of one code point. -/

theorem toUtf8_eq {c : Char} (code : c.toNat < 0x10000) : toUtf8 c.toNat = String.utf8EncodeChar c := by
  have value : c.toNat = c.val.toNat := rfl
  unfold String.utf8EncodeChar
  rw [toUtf8_bytes]
  rw [value] at code ⊢
  have last : c.val.toNat ≤ 0xffff := Nat.le_of_lt_succ code
  simp only [last, if_true]

theorem fromCharArray_utf8 {c : Char} (code : c.toNat < 0x10000) (rest : Str) :
    fromCharArray (String.utf8EncodeChar c ++ rest) = (c.toNat, (String.utf8EncodeChar c).length) := by
  rw [← toUtf8_eq code, fromCharArray_toUtf8 code]

variable {s : String} (bmp : ∀ c ∈ s.toList, c.toNat < 0x10000)
include bmp

theorem toUnicode32_utf8 {n : Nat} (short : s.length ≤ n) : toUnicode32 (utf8 s) n = codePoints s := by
  have known : Recognises fromCharArray String.utf8EncodeChar Char.toNat s.toList :=
    fun c member => ⟨String.utf8EncodeChar_ne_nil, fromCharArray_utf8 (bmp c member)⟩
  exact scan_flatMap fromCharArray String.utf8EncodeChar Char.toNat s.toList known n (by rwa [String.length_toList])

theorem fromUnicode32_codePoints : fromUnicode32 (codePoints s) = utf8 s := by
  rw [fromUnicode32, codePoints, utf8, List.flatMap_map]
  refine List.flatMap_congr fun c member => ?_
  have whole : c.toNat % 2 ^ 16 = c.toNat := Nat.mod_eq_of_lt (bmp c member)
  rw [whole, toUtf8_eq (bmp c member)]

theorem codePoints_lt : ∀ c ∈ codePoints s, c < 0x10000 := by
  simpa [codePoints] using bmp

/- What `fromPunycode` makes of the numbers of a text, whatever was on the stack. -/
theorem fromPunycode_encoded (stack : Nat → Nat) (short : s.length < 1024) :
    fromPunycode stack (encoded (codePoints s)) = utf8 s := by
  obtain ⟨ret, decoded⟩ := punycode_decode_encoded ((codePoints_length s).trans_lt short) (codePoints_lt bmp)
  have whole : ((List.range (codePoints s).length).map fun k => (codePoints s).getD k (stack k)) = codePoints s := by
    refine List.ext_getElem (by simp) fun k inside inside' => ?_
    simp [List.getElem?_eq_getElem inside']
  unfold fromPunycode
  split
  · rename_i none
    rw [none] at decoded
    have empty : ([] : List Nat) = codePoints s := congrArg Decoded.dst decoded
    rw [← fromUnicode32_codePoints bmp, ← empty]
    rfl
  · have capacity : CAPACITY = 1024 := rfl
    rw [capacity, decoded]
    dsimp only
    rw [whole, fromUnicode32_codePoints bmp]

omit bmp

/-! Names that are taken for encoded ones -/

/- A code point whose bytes are ASCII has one. -/
theorem toUtf8_low {ch : Nat} (low : ∀ b ∈ toUtf8 ch, b < 0x80) : (toUtf8 ch).length = 1 := by
  -- the last byte of a longer one is marked
  have marked : ¬ UInt8.ofNat ((ch &&& 0b111111) ||| 0b10000000) < 0x80 := by
    have bits : (ch &&& 0b111111) ||| 0b10000000 = 128 + ch % 64 := by
      have tail : ch &&& 0b111111 = ch % 64 := Nat.and_two_pow_sub_one_eq_mod ch 6
      rw [tail]
      exact or_mark (k := 2) 6 (by omega)
    have value : (UInt8.ofNat (128 + ch % 64)).toNat = 128 + ch % 64 :=
      UInt8.toNat_ofNat_of_lt (show 128 + ch % 64 < 256 by omega)
    rw [bits, UInt8.lt_iff_toNat_lt, value]
    exact Nat.not_lt.mpr (Nat.le_add_right 128 _)
  unfold toUtf8 at low ⊢
  split
  · rfl
  · rename_i one
    rw [if_neg one] at low
    exfalso
    split at low
    · exact marked (low _ (by simp))
    · exact marked (low _ (by simp))

/- Code points of one byte each. -/
theorem length_of_low {codes : List Nat} (low : ∀ b ∈ fromUnicode32 codes, b < 0x80) :
    (fromUnicode32 codes).length = codes.length := by
  induction codes with
  | nil => rfl
  | cons c codes ih =>
    have cut : fromUnicode32 (c :: codes) = toUtf8 (c % 2 ^ 16) ++ fromUnicode32 codes := rfl
    rw [cut, List.forall_mem_append] at low
    rw [cut, List.length_append, ih low.2, List.length_cons]
    have one := toUtf8_low low.1
    omega

/- No more is put out than there is to read. -/
theorem decodeLoop_length (turns : Nat) (p : Progress) (text : Str) (inside : p.i ≤ UINT32_MAX) :
    (decodeLoop turns p text).2.length ≤ p.out.length + text.length := by
  induction turns generalizing p text with
  | zero => exact Nat.le_add_right _ _
  | succ turns ih =>
    by_cases none : text = []
    · rw [none]
      exact Nat.le_refl _
    · by_cases starts : Starts p.bias p.n p.i p.out.length text
      · obtain ⟨first_, rest, v, rfl, first⟩ := starts
        have next := ih (p.insert (p.i + v)) rest (nextIndex_le _ _)
        have some := List.length_pos_iff.mpr first.ne_nil
        rw [p.insert_length] at next
        rw [decodeLoop_first first, List.length_append]
        omega
      · rw [decodeLoop_stuck inside none starts]
        exact Nat.le_add_right _ _

theorem parts_length (p : Str) : (basicPart p).length + (extendedPart p).length ≤ p.length := by
  have whole := congrArg List.length (List.rdropWhile_append_rtakeWhile (p := (· ≠ delimiter)) (l := p))
  rw [List.length_append] at whole
  rw [basicPart, extendedPart, List.length_dropLast, List.length_map]
  omega

theorem punycode_decode_dstlen (p : Str) (dstlen : Nat) : (punycode_decode p dstlen).dstlen ≤ p.length := by
  have long := decodeLoop_length (extendedPart p).length { out := (basicPart p).map UInt8.toNat } (extendedPart p)
    (Nat.zero_le _)
  have within := parts_length p
  rw [List.length_map] at long
  unfold punycode_decode
  split
  · exact Nat.zero_le _
  · dsimp only
    split
    · exact Nat.le_trans (Nat.min_le_right _ _) (Nat.le_trans long within)
    · exact Nat.le_trans long within

/- A name never decodes to an ASCII text that is longer. -/
theorem fromPunycode_ne (stack : Nat → Nat) {text rest : Str} (low : ∀ b ∈ text, b < 0x80)
    (longer : rest.length < text.length) : fromPunycode stack rest ≠ text := by
  intro same
  unfold fromPunycode at same
  split at same
  · rw [← same] at longer
    cases longer
  · dsimp only at same
    rw [← same] at low longer
    rw [length_of_low low, List.length_map, List.length_range] at longer
    exact absurd longer (Nat.not_lt.mpr (punycode_decode_dstlen rest CAPACITY))

/-- A text is got back from its name, whatever was on the stack, if and only if it has a byte that is not
ASCII, or does not have the prefix of a name. -/
theorem decodeACE_encodeACE (stack : Nat → Nat) (s : String) (short : s.length < 1024)
    (bmp : ∀ c ∈ s.toList, c.toNat < 0x10000)
    (fits : (∃ b ∈ utf8 s, 0x7f < b) → (encoded (codePoints s)).length ≤ CAPACITY) :
    decodeACE stack (encodeACE (utf8 s)) = utf8 s ↔ (∃ b ∈ utf8 s, 0x7f < b) ∨ hasPrefix (utf8 s) = false := by
  unfold encodeACE
  by_cases wide : ∃ b ∈ utf8 s, 0x7f < b
  · refine iff_of_true ?_ (.inl wide)
    have any : (utf8 s).any (0x7f < ·) := by simpa using wide
    have puny : toPunycode (utf8 s) = encoded (codePoints s) := by
      rw [toPunycode, toUnicode32_utf8 (n := CAPACITY) bmp (Nat.le_of_lt short)]
      exact List.take_of_length_le (fits wide)
    rw [if_pos any, puny]
    dsimp only
    split
    · rename_i none
      have back := fromPunycode_encoded bmp stack short
      rw [none] at back
      obtain ⟨b, member, -⟩ := wide
      rw [← back] at member
      cases member
    · have marked : hasPrefix (acePrefix ++ encoded (codePoints s)) = true := by
        simp [hasPrefix, acePrefix]
        decide
      rw [decodeACE, if_pos marked]
      exact fromPunycode_encoded bmp stack short
  · have low : ∀ b ∈ utf8 s, b < 0x80 := by
      intro b member
      have below : ¬ 0x7f < b := fun high => wide ⟨b, member, high⟩
      rw [UInt8.lt_iff_toNat_lt] at below ⊢
      exact Nat.lt_succ_of_le (Nat.not_lt.mp below)
    have any : ¬ (utf8 s).any (0x7f < ·) := by simpa using wide
    rw [if_neg any, decodeACE]
    split
    · rename_i marked
      refine iff_of_false (fromPunycode_ne stack low ?_) ?_
      · simp [hasPrefix] at marked
        rw [List.length_drop]
        omega
      · simp [wide, marked]
    · rename_i plain
      exact iff_of_true rfl (.inr (eq_false_of_ne_true plain))

/-- `decodeACE_encodeACE` applies to a word with an umlaut. -/
theorem decodeACE_umlaut :
    decodeACE (fun _ => 0) (encodeACE (utf8 "bücher")) = utf8 "bücher" :=
  (decodeACE_encodeACE (fun _ => 0) "bücher" (by decide) (by simp) fun _ => by decide).mpr
    (.inl ⟨0xc3, by decide, by decide⟩)

/-- "xn--a-" is ASCII and is not encoded, and is decoded to "a". -/
theorem decodeACE_of_plain :
    decodeACE (fun _ => 0) (encodeACE (utf8 "xn--a-")) = utf8 "a" ∧ utf8 "a" ≠ utf8 "xn--a-" := by
  decide

end U8Char

end Meatloaf
