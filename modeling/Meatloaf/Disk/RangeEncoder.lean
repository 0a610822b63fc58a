import Meatloaf.Disk.RangeDecoder

/-! `RangeDecoder` backwards: whatever it is asked, there are bytes that give the answers. They are found from the last
answer to the first, since what is behind an answer only has to leave a code in the interval. -/
namespace Meatloaf.Disk.RangeDecoder

open Lib Function

variable {α β : Type*} {d e f : RangeDecoder} {a : α} {b : β} {bit n m : Nat}

/- The decoder somewhere else, in a buffer of its own. -/
def reading (d : RangeDecoder) (data : List UInt8) (pos code : Nat) : RangeDecoder :=
  { d with buffer := data, buffer_pos := pos, code := code }

/- From a code of the first interval, and with at most `n` bytes, the request gives this answer and leaves any code that
is wanted of the second interval. -/
def Steers (n : Nat) (request : RangeDecoder → Option (α × RangeDecoder)) (d : RangeDecoder) (a : α)
    (e : RangeDecoder) : Prop :=
  ∀ wanted, e.low ≤ wanted → wanted ≤ e.high → ∃ code bytes, bytes.length ≤ n ∧ d.low ≤ code ∧ code ≤ d.high ∧
    ∀ data pos rest, data.drop pos = bytes ++ rest →
      request (d.reading data pos code) = some (a, e.reading data (pos + bytes.length) wanted)

theorem Steers.bind {request : RangeDecoder → Option (α × RangeDecoder)}
    {next : α × RangeDecoder → Option (β × RangeDecoder)} (first : Steers n request d a e)
    (second : Steers m (fun e => next (a, e)) e b f) : Steers (n + m) (fun d => (request d).bind next) d b f := by
  intro wanted above below
  obtain ⟨between, later, few', above, below, there⟩ := second wanted above below
  obtain ⟨code, bytes, few, least, most, here⟩ := first between above below
  refine ⟨code, bytes ++ later, (List.length_append ..).trans_le (Nat.add_le_add few few'), least, most,
    fun data pos rest stored => ?_⟩
  rw [List.append_assoc] at stored
  have behind : data.drop (pos + bytes.length) = later ++ rest := by
    rw [← List.drop_drop, stored, List.drop_left' rfl]
  dsimp only
  rw [here data pos _ stored, Option.bind_some, List.length_append, ← Nat.add_assoc]
  exact there data _ rest behind

/- What is done with the answer leaves the interval as it is. -/
theorem Steers.map {request : RangeDecoder → Option (α × RangeDecoder)} {g : α × RangeDecoder → β × RangeDecoder}
    (first : Steers n request d a e) (low : f.low = e.low) (high : f.high = e.high)
    (done : ∀ data pos code, g (a, e.reading data pos code) = (b, f.reading data pos code)) :
    Steers n (fun d => (request d).map g) d b f := by
  intro wanted above below
  obtain ⟨code, bytes, few, least, most, here⟩ := first wanted (low ▸ above) (high ▸ below)
  refine ⟨code, bytes, few, least, most, fun data pos rest stored => ?_⟩
  dsimp only
  rw [here data pos rest stored, Option.map_some, done]

theorem Steers.congr {request request' : RangeDecoder → Option (α × RangeDecoder)} (steers : Steers n request d a e)
    (same : ∀ data pos code, request' (d.reading data pos code) = request (d.reading data pos code)) :
    Steers n request' d a e := by
  intro wanted above below
  obtain ⟨code, bytes, few, least, most, here⟩ := steers wanted above below
  exact ⟨code, bytes, few, least, most, fun data pos rest stored => (same data pos code).trans (here data pos rest stored)⟩

/- The invariant without the code: the interval can be cut. -/
structure Wide (d : RangeDecoder) : Prop where
  low_lt : d.low < d.high
  high_lt : d.high < 2 ^ 32
  probability : ∀ index, 15 ≤ d.probabilities index ∧ d.probabilities index ≤ 4080

theorem Wide.remember (wide : d.Wide) (model value : Nat) : (d.remember model value).Wide :=
  ⟨wide.low_lt, wide.high_lt, wide.probability⟩

/-- Both parts of the interval have codes. -/
theorem Wide.middle (wide : d.Wide) (index : Nat) : d.low ≤ d.middle index ∧ d.middle index < d.high := by
  have order := wide.low_lt
  have small := wide.high_lt
  have most := (wide.probability index).2
  have whole := Nat.div_mul_le_self (d.high - d.low) (2 ^ 12)
  have part : (d.high - d.low) / 2 ^ 12 * d.probabilities index < d.high - d.low := by
    rcases Nat.eq_zero_or_pos ((d.high - d.low) / 2 ^ 12) with narrow | some_
    · rw [narrow, Nat.zero_mul]
      omega
    · exact (Nat.mul_lt_mul_of_pos_left (by omega) some_).trans_le whole
  have spread : (d.high + 2 ^ 32 - d.low) % 2 ^ 32 = d.high - d.low := by omega
  simp only [RangeDecoder.middle, spread, Nat.shiftRight_eq_div_pow]
  rw [Nat.mod_eq_of_lt (show (d.high - d.low) / 2 ^ 12 * d.probabilities index < 2 ^ 32 by omega), Nat.mod_eq_of_lt (by omega)]
  omega

/- The interval behind a pass of the loop. -/
def shifted (d : RangeDecoder) : RangeDecoder :=
  { d with low := (d.low <<< 8) % 2 ^ 32, high := (d.high <<< 8 ||| 0xff) % 2 ^ 32 }

/-- A pass backwards: the last byte of the code that is wanted is read, and the others were there before. -/
theorem renormalise_back (order : d.low ≤ d.high) (small : d.high < 2 ^ 32) (same : (d.low ^^^ d.high) &&& 0xff000000 = 0)
    {wanted : Nat} (above : d.shifted.low ≤ wanted) (below : wanted ≤ d.shifted.high) :
    ∃ (code : Nat) (byte : UInt8), d.low ≤ code ∧ code ≤ d.high ∧ ∀ data pos rest, data.drop pos = byte :: rest →
      (d.reading data pos code).renormalise = some (d.shifted.reading data (pos + 1) wanted) := by
  have top := same_top (show d.low < 2 ^ 32 by omega) small same
  rw [shifted, Nat.shiftLeft_eq] at above
  rw [shifted, shift_or d.high 0xff (by decide)] at below
  dsimp only at above below
  have byte : (UInt8.ofNat (wanted % 256)).toNat = wanted % 256 := UInt8.toNat_ofNat_of_lt' (Nat.mod_lt _ (by decide))
  refine ⟨d.low / 2 ^ 24 * 2 ^ 24 + wanted / 256, UInt8.ofNat (wanted % 256), by omega, by omega, ?_⟩
  intro data pos rest stored
  have here : data[pos]? = some (UInt8.ofNat (wanted % 256)) := by
    have first : (data.drop pos)[0]? = data[pos]? := List.getElem?_drop
    rw [← first, stored]
    rfl
  have code : ((d.low / 2 ^ 24 * 2 ^ 24 + wanted / 256) <<< 8 ||| wanted % 256) % 2 ^ 32 = wanted := by
    rw [shift_or _ _ (Nat.mod_lt _ (by decide))]
    omega
  simp only [renormalise, reading, if_pos same, nextCode, nextByte, here, shifted, byte, code]

/-- The loop backwards. -/
theorem loop_back (fuel : Nat) (order : d.low ≤ d.high) (small : d.high < 2 ^ 32) (enough : d.shared < fuel) :
    ∃ e : RangeDecoder, e.low < e.high ∧ e.high < 2 ^ 32 ∧ e.probabilities = d.probabilities ∧ e.states = d.states ∧
      ∀ wanted, e.low ≤ wanted → wanted ≤ e.high → ∃ code bytes, bytes.length ≤ d.shared ∧ d.low ≤ code ∧ code ≤ d.high ∧
        ∀ data pos rest, data.drop pos = bytes ++ rest →
          loop renormalise fuel (d.reading data pos code) = some (e.reading data (pos + bytes.length) wanted) := by
  induction fuel generalizing d with
  | zero => omega
  | succ fuel ih =>
    by_cases same : (d.low ^^^ d.high) &&& 0xff000000 = 0
    · have within : (d.reading [] 0 d.low).Within := ⟨Nat.le_refl _, order, small⟩
      have turned : ∃ t, (d.reading [] 0 d.low).renormalise = some t ∧ t.low = d.shifted.low ∧ t.high = d.shifted.high :=
        ⟨_, if_pos same, rfl, rfl⟩
      obtain ⟨t, next, low, high⟩ := turned
      obtain ⟨kept, fewer⟩ := within.renormalise next
      have ends : d.shifted.low ≤ d.shifted.high ∧ d.shifted.high < 2 ^ 32 :=
        ⟨low ▸ high ▸ kept.low_le.trans kept.le_high, high ▸ kept.high_lt⟩
      have shared : t.shared = d.shifted.shared := by rw [RangeDecoder.shared, RangeDecoder.shared, low, high]
      have less : d.shifted.shared < d.shared := shared ▸ fewer
      obtain ⟨e, open_, short, probabilities, states, back⟩ := ih ends.1 ends.2 (by omega)
      refine ⟨e, open_, short, probabilities, states, fun wanted above below => ?_⟩
      obtain ⟨between, bytes, few, above, below, rest_⟩ := back wanted above below
      obtain ⟨code, byte, least, most, first⟩ := renormalise_back order small same above below
      refine ⟨code, byte :: bytes, by rw [List.length_cons]; omega, least, most, fun data pos rest stored => ?_⟩
      have behind : data.drop (pos + 1) = bytes ++ rest := by
        rw [← List.drop_drop, stored]
        rfl
      rw [loop_next (first data pos _ stored), rest_ data _ rest behind, List.length_cons, Nat.add_assoc, Nat.add_comm 1]
    · have apart : d.low ≠ d.high := fun equal => same (by rw [equal, Nat.xor_self, Nat.zero_and])
      refine ⟨d, by omega, small, rfl, rfl, fun wanted above below =>
        ⟨wanted, [], Nat.zero_le _, above, below, fun data pos _ _ => ?_⟩⟩
      have last : (d.reading data pos wanted).renormalise = none := if_neg same
      rw [loop, last]
      rfl

/-- Either bit can be asked for. -/
theorem Wide.decodeBit (wide : d.Wide) (index : Nat) (small : bit ≤ 1) :
    ∃ e : RangeDecoder, Steers 4 (decodeBit 16 5 index) d bit e ∧ e.Wide ∧ e.states = d.states := by
  have cut := wide.middle index
  have order := wide.low_lt
  have short := wide.high_lt
  have known := wide.probability index
  have adapted (i : Nat) : 15 ≤ update d.probabilities index (adapt 16 bit (d.probabilities index)) i ∧
      update d.probabilities index (adapt 16 bit (d.probabilities index)) i ≤ 4080 := by
    by_cases here : i = index
    · subst here
      simpa only [update_self] using adapt_bounds known.1 known.2
    · simpa only [update_of_ne here] using wide.probability i
  obtain rfl | rfl : bit = 1 ∨ bit = 0 := by omega
  · let part : RangeDecoder :=
      { d with probabilities := update d.probabilities index (adapt 16 1 (d.probabilities index)), high := d.middle index }
    obtain ⟨e, open_, high, probabilities, states, back⟩ :=
      @loop_back part 5 cut.1 (show d.middle index < 2 ^ 32 by omega) (shared_lt part)
    refine ⟨e, fun wanted above below => ?_, ⟨open_, high, probabilities ▸ adapted⟩, states⟩
    obtain ⟨code, bytes, few, least, most, left⟩ := back wanted above below
    refine ⟨code, bytes, few.trans (Nat.le_of_lt_succ (shared_lt part)), least, (show code ≤ d.middle index from most).trans cut.2.le,
      fun data pos rest stored => ?_⟩
    have side : (d.reading data pos code).code ≤ (d.reading data pos code).middle index := most
    have left := left data pos rest stored
    rw [RangeDecoder.decodeBit, if_pos side, if_pos side]
    exact congrArg (Option.map _) left
  · let part : RangeDecoder :=
      { d with probabilities := update d.probabilities index (adapt 16 0 (d.probabilities index))
               low := (d.middle index + 1) % 2 ^ 32 }
    have next : (d.middle index + 1) % 2 ^ 32 = d.middle index + 1 := Nat.mod_eq_of_lt (by omega)
    obtain ⟨e, open_, high, probabilities, states, back⟩ :=
      @loop_back part 5 (show (d.middle index + 1) % 2 ^ 32 ≤ d.high by omega) short (shared_lt part)
    refine ⟨e, fun wanted above below => ?_, ⟨open_, high, probabilities ▸ adapted⟩, states⟩
    obtain ⟨code, bytes, few, least, most, left⟩ := back wanted above below
    have least : (d.middle index + 1) % 2 ^ 32 ≤ code := least
    refine ⟨code, bytes, few.trans (Nat.le_of_lt_succ (shared_lt part)), by omega, most, fun data pos rest stored => ?_⟩
    have side : ¬ (d.reading data pos code).code ≤ (d.reading data pos code).middle index := by
      show ¬ code ≤ d.middle index
      omega
    have left := left data pos rest stored
    rw [RangeDecoder.decodeBit, if_neg side, if_neg side]
    exact congrArg (Option.map _) left

variable {value : Nat}

theorem Wide.readFlag (wide : d.Wide) (model : Nat) (small : value ≤ 1) :
    ∃ e : RangeDecoder, Steers 4 (readFlag 16 5 model) d value e ∧ e.Wide := by
  obtain ⟨e, steers, kept, -⟩ := wide.decodeBit (offsets model + d.states model) small
  have here : Steers 4 (fun d => d.decodeBit 16 5 (offsets model + d.states model)) d value e :=
    steers.congr fun _ _ _ => rfl
  exact ⟨e.remember model value, here.map rfl rfl fun _ _ _ => rfl, kept.remember model value⟩

/-- Any first bits of a byte. -/
theorem Wide.readBits (wide : d.Wide) (model : Nat) (few : n ≤ 8) (small : value < 2 ^ n) :
    ∃ e : RangeDecoder, Steers (4 * n) (fun d => d.readBits 16 5 model n) d (2 ^ n + value) e ∧ e.Wide := by
  induction n generalizing value with
  | zero =>
    obtain rfl := Nat.lt_one_iff.mp small
    exact ⟨d, fun wanted above below => ⟨wanted, [], Nat.zero_le _, above, below, fun _ _ _ _ => rfl⟩, wide⟩
  | succ n ih =>
    rw [Nat.pow_succ] at small
    obtain ⟨e, first, kept⟩ := ih (by omega) (show value / 2 < 2 ^ n by omega)
    obtain ⟨f, last, wide', -⟩ :=
      kept.decodeBit (offsets model + e.slot model (2 ^ n + value / 2)) (show value % 2 ≤ 1 by omega)
    have room : 2 ^ n ≤ 2 ^ 8 := Nat.pow_le_pow_right (by decide) (by omega)
    have context : ((2 ^ n + value / 2) <<< 1 ||| value % 2) % 2 ^ 32 = 2 ^ (n + 1) + value := by
      rw [← Nat.shiftLeft_add_eq_or_of_lt (show value % 2 < 2 ^ 1 by omega), Nat.shiftLeft_eq, Nat.pow_succ]
      omega
    have here : Steers 4 (fun e => e.decodeBit 16 5 (offsets model + e.slot model (2 ^ n + value / 2))) e (value % 2) f :=
      last.congr fun _ _ _ => rfl
    have whole := here.map (b := 2 ^ (n + 1) + value) (f := f)
      (g := fun b => (((2 ^ n + value / 2) <<< 1 ||| b.1) % 2 ^ 32, b.2)) rfl rfl fun _ _ _ => by rw [context]
    exact ⟨f, first.bind whole, wide'⟩

/-- Any first bytes of a number. -/
theorem Wide.readBytes (wide : d.Wide) (model : Nat) (small : value < 256 ^ n) :
    ∃ e : RangeDecoder, Steers (32 * n) (fun d => d.readBytes 16 5 model n) d value e ∧ e.Wide := by
  induction n generalizing value with
  | zero =>
    obtain rfl := Nat.lt_one_iff.mp small
    exact ⟨d, fun wanted above below => ⟨wanted, [], Nat.zero_le _, above, below, fun _ _ _ _ => rfl⟩, wide⟩
  | succ n ih =>
    obtain ⟨e, first, kept⟩ := ih (Nat.mod_lt value (Nat.pow_pos (by decide) : 0 < 256 ^ n))
    have top : value / 256 ^ n < 2 ^ 8 := Nat.div_lt_of_lt_mul (by rwa [show 2 ^ 8 = 256 from rfl, ← Nat.pow_succ])
    obtain ⟨f, last, wide'⟩ := kept.readBits (model + n) (Nat.le_refl 8) top
    have byte_value : (2 ^ 8 + value / 256 ^ n) &&& 0xff = value / 256 ^ n := by
      rw [show 0xff = 2 ^ 8 - 1 from rfl, Nat.and_two_pow_sub_one_eq_mod, Nat.add_mod_left, Nat.mod_eq_of_lt top]
    have place : 256 ^ n = 2 ^ (n <<< 3) := by
      rw [Nat.shiftLeft_eq, show 256 = 2 ^ 8 from rfl, ← Nat.pow_mul, Nat.mul_comm]
    have whole : value % 256 ^ n ||| (value / 256 ^ n) <<< (n <<< 3) = value := by
      have low : value % 256 ^ n < 2 ^ (n <<< 3) := place ▸ Nat.mod_lt value (Nat.pow_pos (by decide))
      rw [Nat.or_comm, ← Nat.shiftLeft_add_eq_or_of_lt low, Nat.shiftLeft_eq, ← place]
      exact Nat.div_add_mod' value _
    have done := last.map (b := value) (f := f.remember (model + n) (value / 256 ^ n))
      (g := fun b => (value % 256 ^ n ||| (b.1 &&& 0xff) <<< (n <<< 3), b.2.remember (model + n) (b.1 &&& 0xff))) rfl rfl
      fun _ _ _ => by
        dsimp only
        rw [byte_value, whole]
        rfl
    exact ⟨_, first.bind done, wide'.remember _ _⟩

theorem Wide.readDWord (wide : d.Wide) (model : Nat) (small : value < 2 ^ 32) :
    ∃ e : RangeDecoder, Steers 128 (readDWord 16 5 model) d value e ∧ e.Wide :=
  wide.readBytes model (n := 4) small

/- The answers, pulse by pulse, of a chunk that sends every distance and every change of the strength. -/
def Sends : RangeDecoder → List (Nat × Nat) → Prop
  | _, [] => True
  | d, (distance, change) :: pulses => ∃ d₁ d₂ d₃ e,
    d.readFlag 16 5 MODEL_POSITION_FLAG = some (1, d₁) ∧ d₁.readDWord 16 5 MODEL_POSITION = some (distance, d₂) ∧
      d₂.readFlag 16 5 MODEL_STRENGTH_FLAG = some (1, d₃) ∧ d₃.readDWord 16 5 MODEL_STRENGTH = some (change, e) ∧
        Sends e pulses

theorem Wide.sends (wide : d.Wide) (pulses : List (Nat × Nat)) (small : ∀ p ∈ pulses, p.1 < 2 ^ 32 ∧ p.2 < 2 ^ 32) :
    ∃ code bytes, bytes.length ≤ 264 * pulses.length ∧ d.low ≤ code ∧ code ≤ d.high ∧
      ∀ data pos rest, data.drop pos = bytes ++ rest → Sends (d.reading data pos code) pulses := by
  induction pulses generalizing d with
  | nil => exact ⟨d.low, [], Nat.zero_le _, Nat.le_refl _, wide.low_lt.le, fun _ _ _ _ => trivial⟩
  | cons p pulses ih =>
    obtain ⟨here, later⟩ := List.forall_mem_cons.mp small
    obtain ⟨d₁, flag, wide₁⟩ := wide.readFlag MODEL_POSITION_FLAG (Nat.le_refl 1)
    obtain ⟨d₂, distance, wide₂⟩ := wide₁.readDWord MODEL_POSITION here.1
    obtain ⟨d₃, flag', wide₃⟩ := wide₂.readFlag MODEL_STRENGTH_FLAG (Nat.le_refl 1)
    obtain ⟨e, change, wide₄⟩ := wide₃.readDWord MODEL_STRENGTH here.2
    obtain ⟨c₄, b₅, few₅, above, below, sends⟩ := ih wide₄ later
    obtain ⟨c₃, b₄, few₄, above, below, changes⟩ := change c₄ above below
    obtain ⟨c₂, b₃, few₃, above, below, flags'⟩ := flag' c₃ above below
    obtain ⟨c₁, b₂, few₂, above, below, goes⟩ := distance c₂ above below
    obtain ⟨code, b₁, few₁, above, below, flags⟩ := flag c₁ above below
    refine ⟨code, b₁ ++ (b₂ ++ (b₃ ++ (b₄ ++ b₅))), ?_, above, below, fun data pos rest stored => ?_⟩
    · simp only [List.length_append, List.length_cons]
      omega
    have behind {pos : Nat} {bytes more : List UInt8} (stored : data.drop pos = bytes ++ more) :
        data.drop (pos + bytes.length) = more := by
      rw [← List.drop_drop, stored, List.drop_left' rfl]
    simp only [List.append_assoc] at stored
    have second := behind stored
    have third := behind second
    have fourth := behind third
    exact ⟨_, _, _, _, flags data pos _ stored, goes data _ _ second, flags' data _ _ third, changes data _ _ fourth,
      sends data _ rest (behind fourth)⟩

theorem nextCode_reading {data : List UInt8} {pos code : Nat} {byte : UInt8} (here : data[pos]? = some byte) :
    (d.reading data pos code).nextCode = d.reading data (pos + 1) ((code * 256 + byte.toNat) % 2 ^ 32) := by
  simp [nextCode, nextByte, reading, here, shift_or code byte.toNat byte.toNat_lt]

/-- There is a chunk for every list of pulses. -/
theorem sends_exists (pulses : List (Nat × Nat)) (small : ∀ p ∈ pulses, p.1 < 2 ^ 32 ∧ p.2 < 2 ^ 32) :
    ∃ data : List UInt8, 4 ≤ data.length ∧ data.length ≤ 264 * pulses.length + 4 ∧ Sends (start data) pulses := by
  let d : RangeDecoder := { buffer := [], probabilities := fun _ => 2048 }
  have wide : d.Wide := ⟨by decide, by decide, fun _ => ⟨show 15 ≤ 2048 by decide, show 2048 ≤ 4080 by decide⟩⟩
  obtain ⟨code, bytes, few, -, below, sends⟩ := wide.sends pulses small
  have below : code ≤ 0xffffffff := below
  -- the first code is read from four bytes of its own
  let digit (k : Nat) : UInt8 := UInt8.ofNat (code / 2 ^ k % 256)
  have value (k : Nat) : (digit k).toNat = code / 2 ^ k % 256 := UInt8.toNat_ofNat_of_lt' (Nat.mod_lt _ (by decide))
  refine ⟨digit 24 :: digit 16 :: digit 8 :: digit 0 :: bytes, by simp, by simp only [List.length_cons]; omega, ?_⟩
  have started : start (digit 24 :: digit 16 :: digit 8 :: digit 0 :: bytes) =
      d.reading (digit 24 :: digit 16 :: digit 8 :: digit 0 :: bytes) 4 code := by
    have first : start (digit 24 :: digit 16 :: digit 8 :: digit 0 :: bytes) =
        (d.reading (digit 24 :: digit 16 :: digit 8 :: digit 0 :: bytes) 0 0).nextCode.nextCode.nextCode.nextCode := rfl
    rw [first, nextCode_reading rfl, nextCode_reading rfl, nextCode_reading rfl, nextCode_reading rfl]
    have whole : ((((0 * 256 + (digit 24).toNat) % 2 ^ 32 * 256 + (digit 16).toNat) % 2 ^ 32 * 256 + (digit 8).toNat) % 2 ^ 32 *
        256 + (digit 0).toNat) % 2 ^ 32 = code := by
      simp only [value]
      omega
    rw [whole]
  rw [started]
  exact sends _ 4 [] (by simp)

end Meatloaf.Disk.RangeDecoder
