import Mathlib.Logic.Function.Basic
import Mathlib.Algebra.GroupWithZero.Nat
import Meatloaf.Lib.While

/-! `RangeDecoder`: the pulses of a P64 chunk. A carryless range coder whose models adapt to the bits they give, one
model for each byte of a number and one for each flag. -/
namespace Meatloaf.Disk

open Lib Function

def MODEL_POSITION : Nat := 0
def MODEL_STRENGTH : Nat := 4
def MODEL_POSITION_FLAG : Nat := 8
def MODEL_STRENGTH_FLAG : Nat := 9

def model_sizes : List Nat := [65536, 65536, 65536, 65536, 65536, 65536, 65536, 65536, 4, 4]

/- The probabilities lie model after model in one table. -/
structure RangeDecoder where
  buffer : List UInt8
  buffer_pos : Nat := 0
  code : Nat := 0
  low : Nat := 0
  high : Nat := 0xffffffff
  probabilities : Nat → Nat
  states : Nat → Nat := fun _ => 0

namespace RangeDecoder

def offsets (model : Nat) : Nat := (model_sizes.take model).sum

/-- `nextByte`: zeros once the buffer is used up. -/
def nextByte (d : RangeDecoder) : Nat × RangeDecoder :=
  match d.buffer[d.buffer_pos]? with
  | some b => (b.toNat, { d with buffer_pos := d.buffer_pos + 1 })
  | none => (0, d)

/- A byte more of the code. -/
def nextCode (d : RangeDecoder) : RangeDecoder :=
  let r := d.nextByte
  { r.2 with code := (d.code <<< 8 ||| r.1) % 2 ^ 32 }

/-- `start`, with the models that `decodeChunk` hands over. -/
def start (data : List UInt8) : RangeDecoder :=
  nextCode (nextCode (nextCode (nextCode { buffer := data, probabilities := fun _ => 2048 })))

/- The loop at the end of `decodeBit`. -/
def renormalise (d : RangeDecoder) : Option RangeDecoder :=
  if (d.low ^^^ d.high) &&& 0xff000000 = 0 then
    some { d.nextCode with low := (d.low <<< 8) % 2 ^ 32, high := (d.high <<< 8 ||| 0xff) % 2 ^ 32 }
  else none

/- A table entry after a bit, in a table of `width` bits. -/
def adapt (width bit probability : Nat) : Nat :=
  if bit = 1 then (probability + ((0xfff + 2 ^ 32 - probability) % 2 ^ 32) >>> 4) % 2 ^ width
  else (probability - probability >>> 4) % 2 ^ width

/- Where the interval is cut. -/
def middle (d : RangeDecoder) (index : Nat) : Nat :=
  (d.low + (((d.high + 2 ^ 32 - d.low) % 2 ^ 32) >>> 12 * d.probabilities index) % 2 ^ 32) % 2 ^ 32

/-- `decodeBit`, when its loop is left within `fuel` tests. -/
def decodeBit (width fuel index : Nat) (d : RangeDecoder) : Option (Nat × RangeDecoder) :=
  let bit := if d.code ≤ d.middle index then 1 else 0
  let adapted := update d.probabilities index (adapt width bit (d.probabilities index))
  let cut := if d.code ≤ d.middle index then { d with probabilities := adapted, high := d.middle index }
    else { d with probabilities := adapted, low := (d.middle index + 1) % 2 ^ 32 }
  (loop renormalise fuel cut).map fun e => (bit, e)

/- The last value of a model is its state. -/
def remember (model value : Nat) (d : RangeDecoder) : RangeDecoder :=
  { d with states := update d.states model value }

/-- `readFlag`. -/
def readFlag (width fuel model : Nat) (d : RangeDecoder) : Option (Nat × RangeDecoder) :=
  (d.decodeBit width fuel (offsets model + d.states model)).map fun r =>
    (r.1, r.2.remember model r.1)

/- The place of a bit in the table of its model: the byte before, and the bits before. -/
def slot (d : RangeDecoder) (model context : Nat) : Nat := (d.states model <<< 8 ||| context) &&& 0xffff

/- The first bits of a byte, behind a one. -/
def readBits (width fuel model : Nat) (d : RangeDecoder) : Nat → Option (Nat × RangeDecoder)
  | 0 => some (1, d)
  | n + 1 => (readBits width fuel model d n).bind fun r =>
    (r.2.decodeBit width fuel (offsets model + r.2.slot model r.1)).map fun b =>
      ((r.1 <<< 1 ||| b.1) % 2 ^ 32, b.2)

/- The first bytes of a number. -/
def readBytes (width fuel model : Nat) (d : RangeDecoder) : Nat → Option (Nat × RangeDecoder)
  | 0 => some (0, d)
  | n + 1 => (readBytes width fuel model d n).bind fun r =>
    (readBits width fuel (model + n) r.2 8).map fun b =>
      let byte_value := b.1 &&& 0xff
      (r.1 ||| byte_value <<< (n <<< 3), b.2.remember (model + n) byte_value)

/-- `readDWord`. -/
def readDWord (width fuel model : Nat) (d : RangeDecoder) : Option (Nat × RangeDecoder) :=
  readBytes width fuel model d 4

end RangeDecoder

/- What `decodeChunk` asks of the decoder. -/
inductive RangeRequest
  | positionFlag
  | position
  | strengthFlag
  | strength

namespace RangeDecoder

def serve (width fuel : Nat) (d : RangeDecoder) : RangeRequest → Option RangeDecoder
  | .positionFlag => (d.readFlag width fuel MODEL_POSITION_FLAG).map Prod.snd
  | .position => (d.readDWord width fuel MODEL_POSITION).map Prod.snd
  | .strengthFlag => (d.readFlag width fuel MODEL_STRENGTH_FLAG).map Prod.snd
  | .strength => (d.readDWord width fuel MODEL_STRENGTH).map Prod.snd

/- A run of requests. -/
def run (width fuel : Nat) (d : RangeDecoder) (requests : List RangeRequest) : Option RangeDecoder :=
  requests.foldlM (serve width fuel) d

/- The invariant: the code is in the interval, and the models are in their tables. -/
structure Sound (d : RangeDecoder) : Prop where
  low_le : d.low ≤ d.code
  le_high : d.code ≤ d.high
  high_lt : d.high < 2 ^ 32
  probability : ∀ index, 15 ≤ d.probabilities index ∧ d.probabilities index ≤ 4080
  flag : ∀ model, model = MODEL_POSITION_FLAG ∨ model = MODEL_STRENGTH_FLAG →
    d.states model < model_sizes.getD model 0
  number : ∀ model < MODEL_POSITION_FLAG, ∀ context, d.slot model context < model_sizes.getD model 0

variable {d e : RangeDecoder} {width model index : Nat}

theorem same_top {a b : Nat} (small : a < 2 ^ 32) (small' : b < 2 ^ 32) (same : (a ^^^ b) &&& 0xff000000 = 0) :
    a / 2 ^ 24 = b / 2 ^ 24 := by
  have tops : (a / 2 ^ 24 ^^^ b / 2 ^ 24) &&& (2 ^ 8 - 1) = 0 := by
    rw [← Nat.xor_div_two_pow, show 2 ^ 8 - 1 = 0xff000000 / 2 ^ 24 by decide, ← Nat.and_div_two_pow, same]
  have short : a / 2 ^ 24 ^^^ b / 2 ^ 24 < 2 ^ 8 := Nat.xor_lt_two_pow (by omega) (by omega)
  rw [Nat.and_two_pow_sub_one_eq_mod, Nat.mod_eq_of_lt short] at tops
  calc a / 2 ^ 24 = a / 2 ^ 24 ^^^ b / 2 ^ 24 ^^^ b / 2 ^ 24 := by rw [Nat.xor_assoc, Nat.xor_self, Nat.xor_zero]
    _ = b / 2 ^ 24 := by rw [tops, Nat.zero_xor]

theorem shift_or (a b : Nat) (byte : b < 256) : (a <<< 8 ||| b) = a * 256 + b := by
  rw [← Nat.shiftLeft_add_eq_or_of_lt (show b < 2 ^ 8 from byte), Nat.shiftLeft_eq]

/-- The next byte comes into the code, and nothing else changes that the invariant looks at. -/
theorem nextCode_spec (d : RangeDecoder) :
    ∃ b < 256, d.nextCode.code = (d.code * 256 + b) % 2 ^ 32 ∧ d.nextCode.low = d.low ∧ d.nextCode.high = d.high ∧
      d.nextCode.probabilities = d.probabilities ∧ d.nextCode.states = d.states := by
  cases found : d.buffer[d.buffer_pos]? with
  | none => exact ⟨0, by decide, by simp [nextCode, nextByte, found, Nat.shiftLeft_eq]⟩
  | some b =>
    have byte := b.toNat_lt
    refine ⟨b.toNat, byte, ?_⟩
    simp [nextCode, nextByte, found, shift_or d.code b.toNat byte]

/-- What the interval and the code become in a pass of the loop. -/
theorem renormalise_spec (next : d.renormalise = some e) :
    (d.low ^^^ d.high) &&& 0xff000000 = 0 ∧ (∃ b < 256, e.code = (d.code * 256 + b) % 2 ^ 32) ∧
      e.low = d.low * 256 % 2 ^ 32 ∧ e.high = (d.high * 256 + 255) % 2 ^ 32 ∧
      e.probabilities = d.probabilities ∧ e.states = d.states := by
  obtain ⟨b, byte, code, -, -, probabilities, states⟩ := nextCode_spec d
  simp only [renormalise, Option.ite_none_right_eq_some, Option.some.injEq] at next
  obtain ⟨same, rfl⟩ := next
  exact ⟨same, ⟨b, byte, code⟩, by simp [Nat.shiftLeft_eq], by simp [shift_or d.high 255 (by decide)],
    probabilities, states⟩

/- What the loop keeps besides the models. -/
structure Within (d : RangeDecoder) : Prop where
  low_le : d.low ≤ d.code
  le_high : d.code ≤ d.high
  high_lt : d.high < 2 ^ 32

/- How many bytes the ends of the interval may still have in common. -/
def shared (d : RangeDecoder) : Nat :=
  let spread := d.high - d.low
  if spread < 2 ^ 8 - 1 then 4 else if spread < 2 ^ 16 - 1 then 3 else if spread < 2 ^ 24 - 1 then 2
  else if spread < 2 ^ 32 - 1 then 1 else 0

/-- A byte that both ends share goes out, and the code stays between them. -/
theorem Within.renormalise (within : d.Within) (next : d.renormalise = some e) :
    e.Within ∧ e.shared < d.shared := by
  obtain ⟨same, ⟨b, byte, code⟩, low, high, -, -⟩ := renormalise_spec next
  have := within.low_le
  have := within.le_high
  have := within.high_lt
  have top := same_top (show d.low < 2 ^ 32 by omega) within.high_lt same
  have lowEq : e.low = (d.low - d.low / 2 ^ 24 * 2 ^ 24) * 256 := by omega
  have highEq : e.high = (d.high - d.low / 2 ^ 24 * 2 ^ 24) * 256 + 255 := by omega
  have codeEq : e.code = (d.code - d.low / 2 ^ 24 * 2 ^ 24) * 256 + b := by omega
  have spread : e.high - e.low = (d.high - d.low) * 256 + 255 := by omega
  refine ⟨⟨by omega, by omega, by omega⟩, ?_⟩
  simp only [shared, spread]
  split_ifs <;> omega

theorem shared_lt (d : RangeDecoder) : d.shared < 5 := by
  unfold shared
  dsimp only
  split_ifs <;> omega

/-- Four passes are enough. -/
theorem Within.loop (within : d.Within) :
    ∃ e, Lib.loop RangeDecoder.renormalise 5 d = some e ∧ e.Within ∧ e.probabilities = d.probabilities ∧
      e.states = d.states := by
  have left := loop_ends shared (fun _ _ kept next => kept.renormalise next) within (shared_lt d)
  obtain ⟨e, leaves⟩ := Option.isSome_iff_exists.mp left
  refine ⟨e, leaves, (loop_keeps (fun _ _ kept next => (kept.renormalise next).1) within leaves).1, ?_⟩
  have models := loop_keeps (I := fun e => e.probabilities = d.probabilities ∧ e.states = d.states) (by
    intro s t kept next
    obtain ⟨-, -, -, -, probabilities, states⟩ := renormalise_spec next
    exact ⟨probabilities.trans kept.1, states.trans kept.2⟩) ⟨rfl, rfl⟩ leaves
  exact models.1

theorem adapt_eq {p bit width : Nat} (most : p ≤ 4080) (wide : 16 ≤ width) :
    adapt width bit p = if bit = 1 then p + (4095 - p) / 16 else p - p / 16 := by
  have room : 2 ^ 16 ≤ 2 ^ width := Nat.pow_le_pow_right (by decide) wide
  have rest : (0xfff + 4294967296 - p) % 4294967296 = 4095 - p := by omega
  simp only [adapt, Nat.shiftRight_eq_div_pow, Nat.reducePow, rest] at room ⊢
  rw [Nat.mod_eq_of_lt (show p + (4095 - p) / 16 < 2 ^ width by omega),
    Nat.mod_eq_of_lt (show p - p / 16 < 2 ^ width by omega)]

theorem adapt_bounds {p bit : Nat} (least : 15 ≤ p) (most : p ≤ 4080) :
    15 ≤ adapt 16 bit p ∧ adapt 16 bit p ≤ 4080 := by
  rw [adapt_eq most (by decide)]
  split_ifs <;> omega

/- In a table of 32 bits the entries are the same. -/
theorem adapt_narrow {p : Nat} (bit : Nat) (most : p ≤ 4080) : adapt 32 bit p = adapt 16 bit p := by
  rw [adapt_eq most (by decide), adapt_eq most (by decide)]

/-- The cut is in the interval. -/
theorem Sound.middle_le (sound : d.Sound) (index : Nat) : d.low ≤ d.middle index ∧ d.middle index ≤ d.high := by
  have := sound.low_le
  have := sound.le_high
  have := sound.high_lt
  have part : (d.high - d.low) / 2 ^ 12 * d.probabilities index ≤ (d.high - d.low) / 2 ^ 12 * 2 ^ 12 :=
    Nat.mul_le_mul_left _ (by have := (sound.probability index).2; omega)
  have whole := Nat.div_mul_le_self (d.high - d.low) (2 ^ 12)
  have spread : (d.high + 2 ^ 32 - d.low) % 2 ^ 32 = d.high - d.low := by omega
  simp only [middle, spread, Nat.shiftRight_eq_div_pow]
  rw [Nat.mod_eq_of_lt (show (d.high - d.low) / 2 ^ 12 * d.probabilities index < 2 ^ 32 by omega),
    Nat.mod_eq_of_lt (by omega)]
  omega

/-- The next state keeps the invariant when the code is in its interval and its models are in their ranges. -/
theorem Sound.of_within (within : e.Within) (probability : ∀ i, 15 ≤ e.probabilities i ∧ e.probabilities i ≤ 4080)
    (flag : ∀ m, m = MODEL_POSITION_FLAG ∨ m = MODEL_STRENGTH_FLAG → e.states m < 4) : e.Sound where
  low_le := within.low_le
  le_high := within.le_high
  high_lt := within.high_lt
  probability := probability
  flag := by
    rintro m (rfl | rfl)
    · exact flag _ (.inl rfl)
    · exact flag _ (.inr rfl)
  number := by
    intro m small context
    have size : model_sizes.getD m 0 = 65536 := by
      have all : ∀ m < 8, model_sizes.getD m 0 = 65536 := by decide
      exact all m small
    rw [size]
    exact Nat.lt_of_le_of_lt Nat.and_le_right (by decide)

/-- A bit keeps the invariant, takes at most four passes and needs no more than sixteen bits for a probability. -/
theorem Sound.decodeBit (sound : d.Sound) (index : Nat) :
    ∃ bit e, d.decodeBit 16 5 index = some (bit, e) ∧ d.decodeBit 32 5 index = some (bit, e) ∧ bit ≤ 1 ∧ e.Sound ∧
      e.states = d.states := by
  have cut := sound.middle_le index
  have := sound.low_le
  have := sound.le_high
  have := sound.high_lt
  have known := sound.probability index
  let bit := if d.code ≤ d.middle index then 1 else 0
  let adapted := update d.probabilities index (adapt 16 bit (d.probabilities index))
  let next : RangeDecoder := if d.code ≤ d.middle index then
      { d with probabilities := adapted, high := d.middle index }
    else { d with probabilities := adapted, low := (d.middle index + 1) % 2 ^ 32 }
  have within : next.Within := by
    simp only [next]
    split
    · constructor <;> dsimp only <;> omega
    · constructor <;> dsimp only <;> omega
  have models : next.probabilities = adapted ∧ next.states = d.states := by
    simp only [next]
    split <;> exact ⟨rfl, rfl⟩
  obtain ⟨e, leaves, kept, probabilities, states⟩ := within.loop
  have narrow := adapt_narrow bit known.2
  refine ⟨bit, e, ?_, ?_, ?_, ?_, states.trans models.2⟩
  · simp only [RangeDecoder.decodeBit]
    exact congrArg (Option.map _) leaves
  · simp only [RangeDecoder.decodeBit]
    rw [narrow]
    exact congrArg (Option.map _) leaves
  · simp only [bit]
    split <;> omega
  · apply Sound.of_within kept
    · intro i
      rw [probabilities, models.1]
      by_cases here : i = index
      · subst here
        simpa only [adapted, update_self] using adapt_bounds known.1 known.2
      · simpa only [adapted, update_of_ne here] using sound.probability i
    · rintro m (rfl | rfl)
      · rw [states, models.2]
        exact sound.flag _ (.inl rfl)
      · rw [states, models.2]
        exact sound.flag _ (.inr rfl)

/-- A new state of a model is below the size of its table. -/
theorem Sound.remember (sound : d.Sound) {value : Nat}
    (small : model = MODEL_POSITION_FLAG ∨ model = MODEL_STRENGTH_FLAG → value < 4) :
    (d.remember model value).Sound := by
  apply Sound.of_within (e := d.remember model value) ⟨sound.low_le, sound.le_high, sound.high_lt⟩ sound.probability
  intro m flags
  by_cases here : m = model
  · subst here
    simpa only [RangeDecoder.remember, update_self] using small flags
  · simp only [RangeDecoder.remember, update_of_ne here]
    rcases flags with rfl | rfl
    · exact sound.flag _ (.inl rfl)
    · exact sound.flag _ (.inr rfl)

/-- A flag keeps the invariant: its model's state is the bit. -/
theorem Sound.readFlag (sound : d.Sound) (model : Nat) :
    ∃ bit e, d.readFlag 16 5 model = some (bit, e) ∧ d.readFlag 32 5 model = some (bit, e) ∧ e.Sound := by
  obtain ⟨bit, e, narrow, wide, small, kept, -⟩ := sound.decodeBit (offsets model + d.states model)
  refine ⟨bit, e.remember model bit, ?_, ?_, kept.remember fun _ => by omega⟩
  · rw [RangeDecoder.readFlag, narrow, Option.map_some]
  · rw [RangeDecoder.readFlag, wide, Option.map_some]

/-- The bits of a byte, one after the other. -/
theorem Sound.readBits (sound : d.Sound) (model n : Nat) :
    ∃ context e, d.readBits 16 5 model n = some (context, e) ∧ d.readBits 32 5 model n = some (context, e) ∧
      e.Sound := by
  induction n with
  | zero => exact ⟨1, d, rfl, rfl, sound⟩
  | succ n ih =>
    obtain ⟨context, e, narrow, wide, kept⟩ := ih
    obtain ⟨bit, f, narrowBit, wideBit, -, last, -⟩ := kept.decodeBit (offsets model + e.slot model context)
    refine ⟨(context <<< 1 ||| bit) % 2 ^ 32, f, ?_, ?_, last⟩
    · simp only [RangeDecoder.readBits, narrow, Option.bind_some, narrowBit, Option.map_some]
    · simp only [RangeDecoder.readBits, wide, Option.bind_some, wideBit, Option.map_some]

/-- The bytes of a number. -/
theorem Sound.readBytes (sound : d.Sound) {n : Nat} (number : model + n ≤ MODEL_POSITION_FLAG) :
    ∃ value e, d.readBytes 16 5 model n = some (value, e) ∧ d.readBytes 32 5 model n = some (value, e) ∧
      e.Sound := by
  induction n with
  | zero => exact ⟨0, d, rfl, rfl, sound⟩
  | succ n ih =>
    obtain ⟨value, e, narrow, wide, kept⟩ := ih (by omega)
    obtain ⟨context, f, narrowBits, wideBits, last⟩ := kept.readBits (model + n) 8
    have kept' : (f.remember (model + n) (context &&& 0xff)).Sound := by
      apply last.remember
      simp only [ MODEL_POSITION_FLAG, MODEL_STRENGTH_FLAG] at number ⊢
      omega
    refine ⟨value ||| (context &&& 0xff) <<< (n <<< 3), f.remember (model + n) (context &&& 0xff), ?_, ?_, kept'⟩
    · simp only [RangeDecoder.readBytes, narrow, Option.bind_some, narrowBits, Option.map_some]
    · simp only [RangeDecoder.readBytes, wide, Option.bind_some, wideBits, Option.map_some]

theorem Sound.serve (sound : d.Sound) (request : RangeRequest) :
    ∃ e, d.serve 16 5 request = some e ∧ d.serve 32 5 request = some e ∧ e.Sound := by
  cases request with
  | positionFlag =>
    obtain ⟨bit, e, narrow, wide, kept⟩ := sound.readFlag MODEL_POSITION_FLAG
    exact ⟨e, by simp [RangeDecoder.serve, narrow], by simp [RangeDecoder.serve, wide], kept⟩
  | position =>
    obtain ⟨value, e, narrow, wide, kept⟩ := @Sound.readBytes d MODEL_POSITION sound 4 (by decide)
    exact ⟨e, by simp [RangeDecoder.serve, readDWord, narrow], by simp [RangeDecoder.serve, readDWord, wide], kept⟩
  | strengthFlag =>
    obtain ⟨bit, e, narrow, wide, kept⟩ := sound.readFlag MODEL_STRENGTH_FLAG
    exact ⟨e, by simp [RangeDecoder.serve, narrow], by simp [RangeDecoder.serve, wide], kept⟩
  | strength =>
    obtain ⟨value, e, narrow, wide, kept⟩ := @Sound.readBytes d MODEL_STRENGTH sound 4 (by decide)
    exact ⟨e, by simp [RangeDecoder.serve, readDWord, narrow], by simp [RangeDecoder.serve, readDWord, wide], kept⟩

theorem start_sound (data : List UInt8) : (start data).Sound := by
  let d : RangeDecoder := { buffer := data, probabilities := fun _ => 2048 }
  obtain ⟨b₁, _, code₁, low₁, high₁, probabilities₁, states₁⟩ := nextCode_spec d
  obtain ⟨b₂, _, code₂, low₂, high₂, probabilities₂, states₂⟩ := nextCode_spec d.nextCode
  obtain ⟨b₃, _, code₃, low₃, high₃, probabilities₃, states₃⟩ := nextCode_spec d.nextCode.nextCode
  obtain ⟨b₄, _, code₄, low₄, high₄, probabilities₄, states₄⟩ := nextCode_spec d.nextCode.nextCode.nextCode
  have low : (start data).low = 0 := low₄.trans (low₃.trans (low₂.trans low₁))
  have high : (start data).high = 0xffffffff := high₄.trans (high₃.trans (high₂.trans high₁))
  have probabilities : (start data).probabilities = fun _ => 2048 :=
    probabilities₄.trans (probabilities₃.trans (probabilities₂.trans probabilities₁))
  have states : (start data).states = fun _ => 0 := states₄.trans (states₃.trans (states₂.trans states₁))
  have code : (start data).code < 2 ^ 32 := by
    rw [show (start data).code = _ from code₄]
    exact Nat.mod_lt _ (by decide)
  apply Sound.of_within ⟨by omega, by omega, by omega⟩
  · intro i
    simp [probabilities]
  · intro m _
    simp [states]

/-- A run of requests keeps the invariant. -/
theorem Sound.run (sound : d.Sound) (requests : List RangeRequest) :
    ∃ e, d.run 16 5 requests = some e ∧ d.run 32 5 requests = some e ∧ e.Sound := by
  induction requests generalizing d with
  | nil => exact ⟨d, rfl, rfl, sound⟩
  | cons request requests ih =>
    obtain ⟨e, narrow, wide, kept⟩ := sound.serve request
    obtain ⟨f, narrowRest, wideRest, last⟩ := ih kept
    refine ⟨f, ?_, ?_, last⟩
    · simpa [RangeDecoder.run, narrow] using narrowRest
    · simpa [RangeDecoder.run, wide] using wideRest

/-- Whatever the buffer holds and whatever is asked: no loop takes more than four passes, the
invariant holds after each request and after each bit of the numbers that may be asked next, and a
table of 32 bits would give the same. -/
theorem rangeDecoder_sound (data : List UInt8) (requests : List RangeRequest) :
    ∃ d, (start data).run 16 5 requests = some d ∧ (start data).run 32 5 requests = some d ∧ d.Sound ∧
      ∀ model, model = MODEL_POSITION ∨ model = MODEL_STRENGTH → ∀ byte < 4, ∀ bit ≤ 8,
        ∃ value e context f, d.readBytes 16 5 model byte = some (value, e) ∧
          e.readBits 16 5 (model + byte) bit = some (context, f) ∧ e.Sound ∧ f.Sound := by
  obtain ⟨d, narrow, wide, sound⟩ := (start_sound data).run requests
  refine ⟨d, narrow, wide, sound, ?_⟩
  intro model number byte inside bit _
  have room : model + byte ≤ MODEL_POSITION_FLAG := by
    simp only [ MODEL_POSITION, MODEL_STRENGTH, MODEL_POSITION_FLAG] at *
    omega
  obtain ⟨value, e, bytes, -, kept⟩ := sound.readBytes room
  obtain ⟨context, f, bits, -, last⟩ := kept.readBits (model + byte) bit
  exact ⟨value, e, context, f, bytes, bits, kept, last⟩

end RangeDecoder

end Meatloaf.Disk
