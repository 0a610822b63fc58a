import Meatloaf.Disk.Geometry
import Meatloaf.Disk.P64
import Meatloaf.Disk.RangeDecoder

/-! `decodeChunk`: the pulses of a chunk become the bits of a track, by the read logic of a 1541 or as the cells of a
1581. -/
namespace Meatloaf.Disk

open Lib

def P64_SAMPLES_PER_ROTATION : Nat := 3200000
def P64_OVERLAP_BYTES : Nat := 512
def P64_MAX_TRACK_BYTES : Nat := 7936 + P64_OVERLAP_BYTES
def P81_CELL_SAMPLES : Nat := 32
def P81_OVERLAP_BYTES : Nat := 2048
def P81_MAX_TRACK_BYTES : Nat := 12800 + P81_OVERLAP_BYTES

/- `P64MStream` and `P81MStream`. -/
inductive PulseStream
  | p64
  | p81

/- The members that the bits are written with. With them go the bytes of the buffer that were written, and the
positions that were taken, each with the target of that moment; the last ones come first. -/
structure Emitter where
  gcr_track : List UInt8 := []
  emit_last_position : Nat := 0
  emit_flip_flop : Nat := 0
  emit_last_flip_flop : Nat := 0
  emit_clock : Nat := 0
  emit_zone : Nat := 0
  emit_counter : Nat := 0
  emit_bit_pos : Nat := 0
  emit_target_bits : Nat := 0
  writes : List Nat := []
  positions : List (Nat × Nat) := []

namespace Emitter

variable (e : Emitter)

/- Bits are set in the byte at the position. -/
def write (bits : Nat) : Emitter :=
  { e with gcr_track := e.gcr_track.modify (e.emit_bit_pos >>> 3) (· ||| UInt8.ofNat bits)
           writes := e.emit_bit_pos >>> 3 :: e.writes }

def moveTo (bit_pos : Nat) : Emitter :=
  { e with emit_bit_pos := bit_pos, positions := (bit_pos, e.emit_target_bits) :: e.positions }

def aim (target_bits : Nat) : Emitter :=
  { e with emit_target_bits := target_bits, positions := (e.emit_bit_pos, target_bits) :: e.positions }

/- A pulse starts the clock, 40 samples later. -/
def restart (delay : Nat) : Emitter :=
  if delay = 40 ∧ e.emit_last_flip_flop ≠ e.emit_flip_flop then
    { e with emit_last_flip_flop := e.emit_flip_flop, emit_clock := e.emit_zone, emit_counter := 0 }
  else e

/- The clock is at its end. -/
def count : Emitter := { e with emit_clock := e.emit_zone, emit_counter := (e.emit_counter + 1) &&& 0x0f }

def bit : Emitter :=
  (e.write (((e.emit_counter + 0x1c) >>> 4 &&& 1) <<< (7 - e.emit_bit_pos % 8))).moveTo ((e.emit_bit_pos + 1) % 2 ^ 32)

def advance : Emitter := { e with emit_clock := (e.emit_clock + 1) % 2 ^ 32 }

/- One sample of the read logic, and whether the loop is left with a `break`. -/
def sample (delay : Nat) : Bool × Emitter :=
  let e := e.restart delay
  if e.emit_clock = 16 then
    let e := e.count
    if e.emit_counter &&& 3 = 2 then
      let e := e.bit
      if e.emit_target_bits ≤ e.emit_bit_pos then (true, e) else (false, e.advance)
    else (false, e.advance)
  else (false, e.advance)

/- The loop over the samples of a gap, when it is left within `ticks` rounds. -/
def samples (delta : Nat) : Nat → Nat → Emitter → Option Emitter
  | 0, _, _ => none
  | ticks + 1, delay, e =>
    let r := e.sample delay
    if r.1 then some r.2
    else if (delay + 1) % 2 ^ 32 < delta then samples delta ticks ((delay + 1) % 2 ^ 32) r.2 else some r.2

/- The cells of a gap. -/
def cells (delta : Nat) : Emitter :=
  let cells := (delta + P81_CELL_SAMPLES / 2) % 2 ^ 32 / P81_CELL_SAMPLES
  let cells := if cells < 1 then 1 else cells
  if e.emit_target_bits < (e.emit_bit_pos + cells) % 2 ^ 32 then e.moveTo e.emit_target_bits
  else
    let e := e.moveTo ((e.emit_bit_pos + (cells - 1)) % 2 ^ 32)
    let e := e.write (0x80 >>> (e.emit_bit_pos &&& 7))
    e.moveTo ((e.emit_bit_pos + 1) % 2 ^ 32)

end Emitter

namespace PulseStream

variable (stream : PulseStream)

def trackBufferBytes : PulseStream → Nat
  | p64 => P64_MAX_TRACK_BYTES
  | p81 => P81_MAX_TRACK_BYTES

def overlapBytes : PulseStream → Nat
  | p64 => P64_OVERLAP_BYTES
  | p81 => P81_OVERLAP_BYTES

/-- `resetEmitState`. -/
def resetEmitState (track : Nat) (e : Emitter) : PulseStream → Emitter
  | p64 =>
    { e with emit_last_position := 0, emit_flip_flop := 0, emit_last_flip_flop := 0
             emit_zone := Format.d64.speedZone track, emit_clock := Format.d64.speedZone track, emit_counter := 0
             emit_bit_pos := 0 }
  | p81 => { e with emit_last_position := 0, emit_bit_pos := 0 }

/-- `emitDelta`. -/
def emitDelta (ticks delta : Nat) (e : Emitter) : PulseStream → Option Emitter
  | p64 => Emitter.samples delta ticks 0 { e with emit_flip_flop := e.emit_flip_flop ^^^ 1 }
  | p81 => some (e.cells delta)

end PulseStream

/- The variables of a pass over the pulses. -/
structure Pulses where
  rc : RangeDecoder
  position : Nat := 0
  delta_position : Nat := 0
  strength : Nat := 0
  count : Nat := 0
  emitter : Emitter

namespace Pulses

variable (passes ticks : Nat) (s : Pulses)

/- The distance of the next pulse; `false` for the mark at the end of the stream. -/
def nextDelta : Option (Bool × Pulses) :=
  (s.rc.readFlag 16 passes MODEL_POSITION_FLAG).bind fun flag =>
    if flag.1 = 0 then some (true, { s with rc := flag.2 })
    else
      (flag.2.readDWord 16 passes MODEL_POSITION).map fun delta =>
        (decide (delta.1 ≠ 0), { s with rc := delta.2, delta_position := delta.1 })

def nextStrength : Option Pulses :=
  (s.rc.readFlag 16 passes MODEL_STRENGTH_FLAG).bind fun flag =>
    if flag.1 = 0 then some { s with rc := flag.2 }
    else
      (flag.2.readDWord 16 passes MODEL_STRENGTH).map fun more =>
        { s with rc := more.2, strength := (s.strength + more.1) % 2 ^ 32 }

/- A strong pulse. -/
def trigger (stream : PulseStream) : Option Pulses :=
  let delta := (s.position + 2 ^ 32 - s.emitter.emit_last_position) % 2 ^ 32
  (stream.emitDelta ticks delta { s.emitter with emit_last_position := s.position }).map fun e =>
    { s with emitter := e }

/- One round of the loop of `decodeChunk`: whether there is another one, and what it leaves. -/
def round (stream : PulseStream) (pulses : Nat) : Option (Bool × Pulses) :=
  if s.count < pulses ∧ s.emitter.emit_bit_pos < s.emitter.emit_target_bits then
    (s.nextDelta passes).bind fun r =>
      if r.1 = false ∨ P64_SAMPLES_PER_ROTATION < r.2.delta_position then some (false, r.2)
      else
        ({ r.2 with position := (r.2.position + r.2.delta_position) % 2 ^ 32 }.nextStrength passes).bind fun s =>
          let s := { s with count := (s.count + 1) % 2 ^ 32 }
          if s.strength < 0x80000000 then some (true, s) else (s.trigger ticks stream).map fun s => (true, s)
  else some (false, s)

/- The loop, when it is left within `n` rounds. -/
def rounds (stream : PulseStream) (pulses : Nat) : Nat → Pulses → Option Pulses
  | 0, _ => none
  | n + 1, s => (s.round passes ticks stream pulses).bind fun r => if r.1 then rounds stream pulses n r.2 else some r.2

end Pulses

namespace PulseStream

variable (stream : PulseStream)

/- The two passes over the pulses: a rotation, and the beginning of the next one. -/
def decode (passes ticks n track pulses : Nat) (compressed : List UInt8) (e : Emitter) : Option Emitter :=
  let buffer_bits := e.gcr_track.length * 8 % 2 ^ 32
  let first := (stream.resetEmitState track e).aim buffer_bits
  (Pulses.rounds passes ticks stream pulses n { rc := .start compressed, emitter := first }).bind fun s =>
    let e := s.emitter
    if buffer_bits ≤ e.emit_bit_pos then some e
    else
      let target_bits := (e.emit_bit_pos + stream.overlapBytes * 8) % 2 ^ 32
      let second := e.aim (if buffer_bits < target_bits then buffer_bits else target_bits)
      (Pulses.rounds passes ticks stream pulses n
        { rc := .start compressed, position := P64_SAMPLES_PER_ROTATION, emitter := second }).map Pulses.emitter

end PulseStream

/- The members that remember the track. -/
structure FluxTrack extends Emitter where
  gcr_track_bytes : Nat := 0
  cached_track : Int := -1

/-- `decodeChunk`: whether there are bits, when its loops are left within these numbers of rounds. -/
def P64.decodeChunk (p : P64) (stream : PulseStream) (passes ticks n : Nat) (c : Chunks) (key : UInt8) (cache_id : Int)
    (m : FluxTrack) : Option (Bool × FluxTrack) :=
  let track := (if cache_id < 0 then 0 else cache_id).toNat % 2 ^ 8
  match c.half_tracks.lookup key with
  | none => some (false, m)
  | some entry =>
    let m := { m with gcr_track := List.replicate stream.trackBufferBytes 0, gcr_track_bytes := 0, cached_track := -1
                      writes := [], positions := [] }
    match p.container.fetch entry.offset entry.size with
    | none => some (false, m)
    | some compressed =>
      (stream.decode passes ticks n track (entry.pulses % 2 ^ 32) compressed m.toEmitter).map fun e =>
        if e.emit_bit_pos = 0 then (false, { m with toEmitter := e })
        else
          (true, { m with toEmitter := e, gcr_track_bytes := ((e.emit_bit_pos + 7) % 2 ^ 32) >>> 3, cached_track := cache_id })

namespace Emitter

variable {size : Nat} {e : Emitter}

/-- What holds from one change of the bits to the next, in a buffer of `size` bytes. -/
structure Inside (size : Nat) (e : Emitter) : Prop where
  length : e.gcr_track.length = size
  small : size < 2 ^ 16
  target_le : e.emit_target_bits ≤ 8 * size
  pos_le : e.emit_bit_pos ≤ e.emit_target_bits
  writes : ∀ index ∈ e.writes, index < size
  positions : ∀ p ∈ e.positions, p.1 ≤ p.2 ∧ p.2 ≤ 8 * size
  newest : ∀ p ∈ e.positions, p.1 ≤ e.emit_bit_pos
  rising : e.positions.Pairwise fun later earlier => earlier.1 ≤ later.1
  latest : e.positions.head? = some (e.emit_bit_pos, e.emit_target_bits)

theorem Inside.write (inside : Inside size e) (more : e.emit_bit_pos < e.emit_target_bits) (bits : Nat) :
    Inside size (e.write bits) where
  length := (List.length_modify ..).trans inside.length
  small := inside.small
  target_le := inside.target_le
  pos_le := inside.pos_le
  writes := by
    intro index member
    rcases List.mem_cons.mp member with rfl | older
    · have := inside.target_le
      rw [Nat.shiftRight_eq_div_pow]
      omega
    · exact inside.writes index older
  positions := inside.positions
  newest := inside.newest
  rising := inside.rising
  latest := inside.latest

theorem Inside.moveTo (inside : Inside size e) {bit_pos : Nat} (forward : e.emit_bit_pos ≤ bit_pos)
    (short : bit_pos ≤ e.emit_target_bits) : Inside size (e.moveTo bit_pos) where
  length := inside.length
  small := inside.small
  target_le := inside.target_le
  pos_le := short
  writes := inside.writes
  positions := List.forall_mem_cons.mpr ⟨⟨short, inside.target_le⟩, inside.positions⟩
  newest := List.forall_mem_cons.mpr ⟨Nat.le_refl _, fun p older => (inside.newest p older).trans forward⟩
  rising := List.pairwise_cons.mpr ⟨fun p older => (inside.newest p older).trans forward, inside.rising⟩
  latest := rfl

theorem Inside.aim (inside : Inside size e) {target_bits : Nat} (ahead : e.emit_bit_pos ≤ target_bits)
    (fits : target_bits ≤ 8 * size) : Inside size (e.aim target_bits) where
  length := inside.length
  small := inside.small
  target_le := fits
  pos_le := ahead
  writes := inside.writes
  positions := List.forall_mem_cons.mpr ⟨⟨ahead, fits⟩, inside.positions⟩
  newest := List.forall_mem_cons.mpr ⟨Nat.le_refl _, inside.newest⟩
  rising := List.pairwise_cons.mpr ⟨inside.newest, inside.rising⟩
  latest := rfl

/- The read logic has no part in it. -/
theorem Inside.of_eq (inside : Inside size e) {f : Emitter} (track : f.gcr_track = e.gcr_track)
    (bit_pos : f.emit_bit_pos = e.emit_bit_pos) (target : f.emit_target_bits = e.emit_target_bits)
    (writes : f.writes = e.writes) (positions : f.positions = e.positions) : Inside size f where
  length := track ▸ inside.length
  small := inside.small
  target_le := target ▸ inside.target_le
  pos_le := bit_pos ▸ target ▸ inside.pos_le
  writes := writes ▸ inside.writes
  positions := positions ▸ inside.positions
  newest := bit_pos ▸ positions ▸ inside.newest
  rising := positions ▸ inside.rising
  latest := bit_pos ▸ target ▸ positions ▸ inside.latest

theorem Inside.restart (inside : Inside size e) (delay : Nat) :
    Inside size (e.restart delay) ∧ (e.restart delay).emit_bit_pos = e.emit_bit_pos ∧
      (e.restart delay).emit_target_bits = e.emit_target_bits := by
  unfold Emitter.restart
  split
  · exact ⟨inside.of_eq rfl rfl rfl rfl rfl, rfl, rfl⟩
  · exact ⟨inside, rfl, rfl⟩

theorem Inside.count (inside : Inside size e) : Inside size e.count := inside.of_eq rfl rfl rfl rfl rfl

theorem Inside.advance (inside : Inside size e) : Inside size e.advance := inside.of_eq rfl rfl rfl rfl rfl

theorem Inside.bit (inside : Inside size e) (more : e.emit_bit_pos < e.emit_target_bits) : Inside size e.bit := by
  have := inside.target_le
  have := inside.small
  have written := inside.write more (((e.emit_counter + 0x1c) >>> 4 &&& 1) <<< (7 - e.emit_bit_pos % 8))
  have next : (e.emit_bit_pos + 1) % 2 ^ 32 = e.emit_bit_pos + 1 := Nat.mod_eq_of_lt (by omega)
  unfold Emitter.bit
  rw [next]
  exact written.moveTo (Nat.le_succ _) more

/-- A sample emits a bit at most, and the loop goes on only below the target. -/
theorem Inside.sample (inside : Inside size e) (more : e.emit_bit_pos < e.emit_target_bits) (delay : Nat) :
    Inside size (e.sample delay).2 ∧
      ((e.sample delay).1 = false → (e.sample delay).2.emit_bit_pos < (e.sample delay).2.emit_target_bits) := by
  obtain ⟨restarted, position, target⟩ := inside.restart delay
  have more' : (e.restart delay).emit_bit_pos < (e.restart delay).emit_target_bits := by rwa [position, target]
  unfold Emitter.sample
  dsimp only
  split
  · split
    · have emitted := restarted.count.bit more'
      split
      · exact ⟨emitted, nofun⟩
      · rename_i short
        exact ⟨emitted.advance, fun _ => Nat.lt_of_not_le short⟩
    · exact ⟨restarted.count.advance, fun _ => more'⟩
  · exact ⟨restarted.advance, fun _ => more'⟩

theorem Inside.samples (inside : Inside size e) (more : e.emit_bit_pos < e.emit_target_bits) {delta ticks delay : Nat}
    (short : delta < 2 ^ 32) (before : delay ≤ delta - 1) (enough : delta - delay < ticks) :
    ∃ f, samples delta ticks delay e = some f ∧ Inside size f := by
  induction ticks generalizing e delay with
  | zero => omega
  | succ ticks ih =>
    obtain ⟨sampled, goes⟩ := inside.sample more delay
    simp only [Emitter.samples]
    split
    · exact ⟨_, rfl, sampled⟩
    · rename_i unbroken
      rw [Bool.not_eq_true] at unbroken
      split
      · exact ih sampled (goes unbroken) (by omega) (by omega)
      · exact ⟨_, rfl, sampled⟩

theorem Inside.cells (inside : Inside size e) (more : e.emit_bit_pos < e.emit_target_bits) (delta : Nat) :
    Inside size (e.cells delta) := by
  have := inside.target_le
  have := inside.small
  unfold Emitter.cells
  dsimp only
  generalize count : (if (delta + P81_CELL_SAMPLES / 2) % 2 ^ 32 / P81_CELL_SAMPLES < 1 then 1
    else (delta + P81_CELL_SAMPLES / 2) % 2 ^ 32 / P81_CELL_SAMPLES) = cells
  have positive : 1 ≤ cells ∧ cells < 2 ^ 28 := by
    rw [← count]
    split
    · omega
    · simp only [P81_CELL_SAMPLES] at *
      omega
  have sum : (e.emit_bit_pos + cells) % 2 ^ 32 = e.emit_bit_pos + cells := Nat.mod_eq_of_lt (by omega)
  have last : (e.emit_bit_pos + (cells - 1)) % 2 ^ 32 = e.emit_bit_pos + (cells - 1) := Nat.mod_eq_of_lt (by omega)
  rw [sum, last]
  split
  · exact inside.moveTo more.le (Nat.le_refl _)
  · rename_i room
    have moved : Inside size (e.moveTo (e.emit_bit_pos + (cells - 1))) := inside.moveTo (Nat.le_add_right _ _) (by omega)
    have below : (e.moveTo (e.emit_bit_pos + (cells - 1))).emit_bit_pos <
        (e.moveTo (e.emit_bit_pos + (cells - 1))).emit_target_bits := by
      simp only [Emitter.moveTo]
      omega
    have next : ((e.moveTo (e.emit_bit_pos + (cells - 1))).emit_bit_pos + 1) % 2 ^ 32 =
        (e.moveTo (e.emit_bit_pos + (cells - 1))).emit_bit_pos + 1 := by
      refine Nat.mod_eq_of_lt ?_
      simp only [Emitter.moveTo]
      omega
    have written := moved.write below (0x80 >>> ((e.moveTo (e.emit_bit_pos + (cells - 1))).emit_bit_pos &&& 7))
    exact written.moveTo (next.ge.trans' (Nat.le_succ _)) (next.le.trans below)

end Emitter

open RangeDecoder

variable {size : Nat} {e : Emitter}

/-- A gap is emitted, and soon, in the read logic of either drive. -/
theorem PulseStream.emitDelta_inside (stream : PulseStream) (inside : e.Inside size)
    (more : e.emit_bit_pos < e.emit_target_bits) {delta : Nat} (short : delta < 2 ^ 32) :
    ∃ f, stream.emitDelta (2 ^ 32) delta e = some f ∧ f.Inside size := by
  cases stream with
  | p64 =>
    have flipped : Emitter.Inside size { e with emit_flip_flop := e.emit_flip_flop ^^^ 1 } :=
      inside.of_eq rfl rfl rfl rfl rfl
    exact flipped.samples more short (Nat.zero_le _) short
  | p81 => exact ⟨_, rfl, inside.cells more delta⟩

namespace Pulses

variable {s : Pulses}

/- The next pulse is found, and that changes neither the count nor the bits. -/
theorem nextDelta_spec (sound : s.rc.Sound) :
    ∃ r, s.nextDelta 5 = some r ∧ r.2.rc.Sound ∧ r.2.count = s.count ∧ r.2.emitter = s.emitter := by
  obtain ⟨flag, rc, read, -, kept⟩ := sound.readFlag MODEL_POSITION_FLAG
  rw [nextDelta, read, Option.bind_some]
  split
  · exact ⟨_, rfl, kept, rfl, rfl⟩
  · obtain ⟨delta, rc, read, -, kept⟩ := @Sound.readBytes rc MODEL_POSITION kept 4 (by decide)
    rw [readDWord, read, Option.map_some]
    exact ⟨_, rfl, kept, rfl, rfl⟩

theorem nextStrength_spec (sound : s.rc.Sound) :
    ∃ t, s.nextStrength 5 = some t ∧ t.rc.Sound ∧ t.count = s.count ∧ t.emitter = s.emitter := by
  obtain ⟨flag, rc, read, -, kept⟩ := sound.readFlag MODEL_STRENGTH_FLAG
  rw [nextStrength, read, Option.bind_some]
  split
  · exact ⟨_, rfl, kept, rfl, rfl⟩
  · obtain ⟨more, rc, read, -, kept⟩ := @Sound.readBytes rc MODEL_STRENGTH kept 4 (by decide)
    rw [readDWord, read, Option.map_some]
    exact ⟨_, rfl, kept, rfl, rfl⟩

/-- A round comes to its end and keeps the invariant, and one that is followed by another has counted a pulse. -/
theorem round_spec (stream : PulseStream) {pulses : Nat} (small : pulses < 2 ^ 32) (sound : s.rc.Sound)
    (inside : s.emitter.Inside size) :
    ∃ r, s.round 5 (2 ^ 32) stream pulses = some r ∧ r.2.rc.Sound ∧ r.2.emitter.Inside size ∧
      (r.1 = true → s.count < pulses ∧ r.2.count = s.count + 1) := by
  unfold round
  split
  · rename_i more
    obtain ⟨r, found, soundDelta, count, emitter⟩ := nextDelta_spec sound
    rw [found, Option.bind_some]
    split
    · exact ⟨_, rfl, soundDelta, emitter ▸ inside, nofun⟩
    · obtain ⟨t, found, soundStrength, count', emitter'⟩ := nextStrength_spec
        (s := { r.2 with position := (r.2.position + r.2.delta_position) % 2 ^ 32 }) soundDelta
      rw [found, Option.bind_some]
      have counted : (t.count + 1) % 2 ^ 32 = s.count + 1 := by
        rw [count', count]
        exact Nat.mod_eq_of_lt (by omega)
      have same : t.emitter = s.emitter := emitter'.trans emitter
      dsimp only
      split
      · exact ⟨_, rfl, soundStrength, same ▸ inside, fun _ => ⟨more.1, counted⟩⟩
      · have moved : Emitter.Inside size { t.emitter with emit_last_position := t.position } := by
          rw [same]
          exact inside.of_eq rfl rfl rfl rfl rfl
        have room : t.emitter.emit_bit_pos < t.emitter.emit_target_bits := same ▸ more.2
        obtain ⟨f, emitted, kept⟩ := stream.emitDelta_inside moved room
          (Nat.mod_lt (t.position + 2 ^ 32 - t.emitter.emit_last_position) (Nat.two_pow_pos 32))
        simp only [trigger, emitted, Option.map_some]
        exact ⟨_, rfl, soundStrength, kept, fun _ => ⟨more.1, counted⟩⟩
  · exact ⟨_, rfl, sound, inside, nofun⟩

theorem rounds_spec (stream : PulseStream) {pulses n : Nat} (small : pulses < 2 ^ 32) (sound : s.rc.Sound)
    (inside : s.emitter.Inside size) (enough : pulses - s.count < n) :
    ∃ t, s.rounds 5 (2 ^ 32) stream pulses n = some t ∧ t.emitter.Inside size := by
  induction n generalizing s with
  | zero => omega
  | succ n ih =>
    obtain ⟨⟨more, t⟩, made, soundNext, kept, counted⟩ := round_spec stream small sound inside
    rw [rounds, made, Option.bind_some]
    cases more with
    | false => exact ⟨t, rfl, kept⟩
    | true =>
      have further := counted rfl
      exact ih soundNext kept (by omega)

end Pulses

namespace PulseStream

variable (stream : PulseStream)

theorem trackBufferBytes_lt : stream.trackBufferBytes < 2 ^ 16 := by
  cases stream <;> decide

/- Before the first pulse nothing is written, and the whole buffer is the target. -/
theorem reset_inside (track : Nat) (length : e.gcr_track.length = size) (small : size < 2 ^ 16) (unwritten : e.writes = [])
    (unmoved : e.positions = []) : ((stream.resetEmitState track e).aim (8 * size)).Inside size := by
  cases stream with
  | p64 =>
    refine ⟨length, small, Nat.le_refl _, Nat.zero_le _, ?_, ?_, ?_, ?_, rfl⟩ <;>
      simp [resetEmitState, Emitter.aim, unwritten, unmoved]
  | p81 =>
    refine ⟨length, small, Nat.le_refl _, Nat.zero_le _, ?_, ?_, ?_, ?_, rfl⟩ <;>
      simp [resetEmitState, Emitter.aim, unwritten, unmoved]

/-- Both passes come to their end. -/
theorem decode_inside (track : Nat) {pulses : Nat} (few : pulses < 2 ^ 32) (compressed : List UInt8)
    (length : e.gcr_track.length = size) (small : size < 2 ^ 16) (unwritten : e.writes = []) (unmoved : e.positions = []) :
    ∃ f, stream.decode 5 (2 ^ 32) (2 ^ 32) track pulses compressed e = some f ∧ f.Inside size := by
  have bits : e.gcr_track.length * 8 % 2 ^ 32 = 8 * size := by
    rw [length]
    omega
  have start := stream.reset_inside track length small unwritten unmoved
  obtain ⟨s, first, inside⟩ := Pulses.rounds_spec (n := 2 ^ 32)
    (s := { rc := .start compressed, emitter := (stream.resetEmitState track e).aim (8 * size) }) stream few
    (start_sound compressed) start (by dsimp only; omega)
  simp only [decode, bits]
  rw [first, Option.bind_some]
  split
  · exact ⟨_, rfl, inside⟩
  · rename_i room
    have := inside.small
    have overlap : stream.overlapBytes * 8 < 2 ^ 15 := by cases stream <;> decide
    have sum : (s.emitter.emit_bit_pos + stream.overlapBytes * 8) % 2 ^ 32 =
        s.emitter.emit_bit_pos + stream.overlapBytes * 8 := Nat.mod_eq_of_lt (by omega)
    rw [sum]
    generalize target : (if 8 * size < s.emitter.emit_bit_pos + stream.overlapBytes * 8 then 8 * size
      else s.emitter.emit_bit_pos + stream.overlapBytes * 8) = target_bits
    have aimed : (s.emitter.aim target_bits).Inside size := by
      apply inside.aim
      · rw [← target]
        split <;> omega
      · rw [← target]
        split <;> omega
    obtain ⟨t, second, kept⟩ := Pulses.rounds_spec (n := 2 ^ 32)
      (s := { rc := .start compressed, position := P64_SAMPLES_PER_ROTATION, emitter := s.emitter.aim target_bits })
      stream few (start_sound compressed) aimed (by dsimp only; omega)
    rw [second, Option.map_some]
    exact ⟨_, rfl, kept⟩

end PulseStream

/-- Nothing is written outside the buffer, the position goes forward and stays within its target, and that within the
buffer. -/
structure FluxTrack.Contained (m : FluxTrack) : Prop where
  bytes : m.gcr_track_bytes ≤ m.gcr_track.length
  writes : ∀ index ∈ m.writes, index < m.gcr_track.length
  positions : ∀ p ∈ m.positions, p.1 ≤ p.2 ∧ p.2 ≤ 8 * m.gcr_track.length
  rising : m.positions.Pairwise fun later earlier => earlier.1 ≤ later.1
  latest : m.positions = [] ∨ m.positions.head? = some (m.emit_bit_pos, m.emit_target_bits)

/-- Whatever the chunk holds: its decoding ends, and stays inside the buffer of the track. -/
theorem P64.decodeChunk_contained (p : P64) (stream : PulseStream) (c : Chunks) (key : UInt8) (cache_id : Int)
    (m : FluxTrack) :
    ∃ r, p.decodeChunk stream 5 (2 ^ 32) (2 ^ 32) c key cache_id m = some r ∧
      (c.half_tracks.lookup key = none ∧ r = (false, m) ∨ r.2.Contained) := by
  unfold decodeChunk
  cases found : c.half_tracks.lookup key with
  | none => exact ⟨_, rfl, .inl ⟨rfl, rfl⟩⟩
  | some entry =>
    dsimp only
    cases p.container.fetch entry.offset entry.size with
    | none => exact ⟨_, rfl, .inr ⟨Nat.zero_le _, nofun, nofun, List.Pairwise.nil, .inl rfl⟩⟩
    | some compressed =>
      obtain ⟨e, decoded, inside⟩ := stream.decode_inside
        (e := { m.toEmitter with gcr_track := List.replicate stream.trackBufferBytes 0, writes := [], positions := [] })
        ((if cache_id < 0 then 0 else cache_id).toNat % 2 ^ 8) (Nat.mod_lt entry.pulses (Nat.two_pow_pos 32)) compressed
        List.length_replicate stream.trackBufferBytes_lt rfl rfl
      have := inside.small
      have := inside.target_le
      have := inside.pos_le
      have length := inside.length
      have positions := inside.positions
      have writes := inside.writes
      rw [← length] at positions writes
      dsimp only
      rw [decoded, Option.map_some]
      split
      · exact ⟨_, rfl, .inr ⟨Nat.zero_le _, writes, positions, inside.rising, .inr inside.latest⟩⟩
      · refine ⟨_, rfl, .inr ⟨?_, writes, positions, inside.rising, .inr inside.latest⟩⟩
        rw [length, Nat.shiftRight_eq_div_pow]
        dsimp only
        omega

end Meatloaf.Disk
