import Mathlib.Algebra.GroupWithZero.Nat
import Mathlib.Data.List.Infix
import Meatloaf.Disk.RangeEncoder
import Meatloaf.Disk.P81

/-! Flux that is written for a 1581: any gaps between its ones. Some chunk has these pulses, and the drive makes the cells
of them. -/
namespace Meatloaf.Disk

open Lib RangeDecoder

variable {e f : Emitter} {g q b : Nat} {l : List UInt8}

theorem Mfm.bitAt_modify (inside : b / 8 < l.length) (q : Nat) :
    Mfm.bitAt (l.modify (b >>> 3) (· ||| UInt8.ofNat (0x80 >>> (b &&& 7)))) q = (Mfm.bitAt l q || decide (q = b)) := by
  have place : b >>> 3 = b / 8 := Nat.shiftRight_eq_div_pow b 3
  have rest : b &&& 7 = b % 8 := Nat.and_two_pow_sub_one_eq_mod b 3
  have one : ∀ r < 8, (UInt8.ofNat (0x80 >>> r)).toNat = 2 ^ (7 - r) := by decide
  have less := Nat.mod_lt b (show 0 < 8 by decide)
  rw [Mfm.bitAt, Mfm.bitAt, place, rest, List.getD_eq_getElem?_getD, List.getD_eq_getElem?_getD, List.getElem?_modify]
  by_cases here : b / 8 = q / 8
  · have within : q / 8 < l.length := here ▸ inside
    rw [List.getElem?_eq_getElem within]
    simp only [Option.map_eq_map, Option.map_some, if_pos here, Option.getD_some, UInt8.toNat_or, Nat.testBit_or, one _ less,
      Nat.testBit_two_pow]
    congr 1
    rw [decide_eq_decide]
    omega
  · have apart : ¬ q = b := fun same => here (by rw [same])
    simp [if_neg here, apart]

/- The ones at the ends of these gaps. -/
def peaks : Nat → List Nat → List Nat
  | _, [] => []
  | b, g :: gaps => (b + (g - 1)) :: peaks (b + g) gaps

/- The pulses for some gaps, when the strength was another one before. -/
def strongPulses : Nat → List Nat → List (Nat × Nat)
  | _, [] => []
  | strength, g :: gaps => (32 * g, (0x80000000 + 2 ^ 32 - strength) % 2 ^ 32) :: strongPulses 0x80000000 gaps

/- What an emitter has become over some gaps. -/
structure Wrote (e : Emitter) (gaps : List Nat) (f : Emitter) : Prop where
  bit_pos : f.emit_bit_pos = e.emit_bit_pos + gaps.sum
  target : f.emit_target_bits = e.emit_target_bits
  length : f.gcr_track.length = e.gcr_track.length
  bits : ∀ q, Mfm.bitAt f.gcr_track q = (Mfm.bitAt e.gcr_track q || decide (q ∈ peaks e.emit_bit_pos gaps))

theorem Wrote.nil : Wrote e [] e := ⟨rfl, rfl, rfl, fun q => by simp [peaks]⟩

theorem Wrote.cons {gaps : List Nat} {d : Emitter} (first : Wrote e [g] f) (rest : Wrote f gaps d) :
    Wrote e (g :: gaps) d where
  bit_pos := by
    rw [rest.bit_pos, first.bit_pos, List.sum_singleton, List.sum_cons, Nat.add_assoc]
  target := rest.target.trans first.target
  length := rest.length.trans first.length
  bits q := by
    rw [rest.bits, first.bits, first.bit_pos]
    simp [peaks, Bool.or_assoc]

/-- A gap of whole cells becomes as many cells, the last of them a one. -/
theorem Emitter.cells_wrote (positive : 1 ≤ g) (room : e.emit_bit_pos + g ≤ e.emit_target_bits)
    (fits : e.emit_target_bits ≤ 8 * e.gcr_track.length) (small : e.gcr_track.length < 2 ^ 16) :
    Wrote e [g] (e.cells (32 * g)) := by
  have count : (32 * g + P81_CELL_SAMPLES / 2) % 2 ^ 32 / P81_CELL_SAMPLES = g := by
    simp only [P81_CELL_SAMPLES]
    omega
  have sum : (e.emit_bit_pos + g) % 2 ^ 32 = e.emit_bit_pos + g := Nat.mod_eq_of_lt (by omega)
  have last : (e.emit_bit_pos + (g - 1)) % 2 ^ 32 = e.emit_bit_pos + (g - 1) := Nat.mod_eq_of_lt (by omega)
  have next : (e.emit_bit_pos + (g - 1) + 1) % 2 ^ 32 = e.emit_bit_pos + g := by
    rw [Nat.mod_eq_of_lt (by omega)]
    omega
  have written : e.cells (32 * g) =
      ((e.moveTo (e.emit_bit_pos + (g - 1))).write (0x80 >>> (e.emit_bit_pos + (g - 1) &&& 7))).moveTo
        (e.emit_bit_pos + g) := by
    unfold Emitter.cells
    dsimp only
    rw [count, if_neg (show ¬ g < 1 by omega), sum, if_neg (by omega), last]
    exact congrArg _ next
  rw [written]
  refine ⟨?_, rfl, List.length_modify .., fun q => ?_⟩
  · rw [List.sum_singleton]
    rfl
  · exact (Mfm.bitAt_modify (show (e.emit_bit_pos + (g - 1)) / 8 < e.gcr_track.length by omega) q).trans (by simp [peaks])

/-- A gap that is longer than what is left ends the track. -/
theorem Emitter.cells_over (over_ : e.emit_target_bits < e.emit_bit_pos + g) (small : e.emit_bit_pos + g < 2 ^ 26) :
    e.cells (32 * g) = e.moveTo e.emit_target_bits := by
  have count : (32 * g + P81_CELL_SAMPLES / 2) % 2 ^ 32 / P81_CELL_SAMPLES = g := by
    simp only [P81_CELL_SAMPLES]
    omega
  have sum : (e.emit_bit_pos + if g < 1 then 1 else g) % 2 ^ 32 = e.emit_bit_pos + if g < 1 then 1 else g :=
    Nat.mod_eq_of_lt (by split <;> omega)
  unfold Emitter.cells
  dsimp only
  rw [count, sum, if_pos (by split <;> omega)]

theorem Emitter.cells_last (e : Emitter) (delta : Nat) : (e.cells delta).emit_last_position = e.emit_last_position := by
  unfold Emitter.cells
  dsimp only
  generalize (if (delta + P81_CELL_SAMPLES / 2) % 2 ^ 32 / P81_CELL_SAMPLES < 1 then 1
    else (delta + P81_CELL_SAMPLES / 2) % 2 ^ 32 / P81_CELL_SAMPLES) = cells
  split <;> rfl

namespace Pulses

variable {s : Pulses} {distance change pulses n : Nat} {rest : List (Nat × Nat)} {gaps : List Nat}

/-- A round over a strong pulse that is sent. -/
theorem round_sends (ticks pulses : Nat) (sends : Sends s.rc ((distance, change) :: rest)) (more : s.count < pulses)
    (room : s.emitter.emit_bit_pos < s.emitter.emit_target_bits) (some_ : distance ≠ 0)
    (short : distance ≤ P64_SAMPLES_PER_ROTATION) (strong : 0x80000000 ≤ (s.strength + change) % 2 ^ 32) :
    ∃ rc, Sends rc rest ∧ s.round 5 ticks .p81 pulses = some (true,
      { rc := rc, position := (s.position + distance) % 2 ^ 32, delta_position := distance
        strength := (s.strength + change) % 2 ^ 32, count := (s.count + 1) % 2 ^ 32
        emitter := Emitter.cells { s.emitter with emit_last_position := (s.position + distance) % 2 ^ 32 }
          (((s.position + distance) % 2 ^ 32 + 2 ^ 32 - s.emitter.emit_last_position) % 2 ^ 32) }) := by
  obtain ⟨d₁, d₂, d₃, rc, flag, goes, flag', changes, later⟩ := sends
  refine ⟨rc, later, ?_⟩
  have next : s.nextDelta 5 = some (true, { s with rc := d₂, delta_position := distance }) := by
    simp [nextDelta, flag, goes, some_]
  simp only [round, next, if_pos (And.intro more room), Option.bind_some, Nat.not_lt.mpr short, Bool.true_eq_false, false_or,
    if_false, nextStrength, flag', Nat.one_ne_zero, changes, Option.map_some, Nat.not_lt.mpr strong, trigger,
    PulseStream.emitDelta]

/-- The rounds over strong pulses, one gap after the other. -/
theorem rounds_gaps (ticks : Nat) (sends : Sends s.rc (strongPulses s.strength gaps)) (count : s.count + gaps.length = pulses)
    (few : pulses < 2 ^ 32) (small : s.strength < 2 ^ 32)
    (position : s.position = 32 * s.emitter.emit_bit_pos) (last : s.emitter.emit_last_position = s.position)
    (positive : ∀ g ∈ gaps, 1 ≤ g) (room : s.emitter.emit_bit_pos + gaps.sum ≤ s.emitter.emit_target_bits)
    (fits : s.emitter.emit_target_bits ≤ 8 * s.emitter.gcr_track.length) (buffer : s.emitter.gcr_track.length < 2 ^ 16)
    (short : ∀ g ∈ gaps, 32 * g ≤ P64_SAMPLES_PER_ROTATION) (enough : gaps.length < n) :
    ∃ t, s.rounds 5 ticks .p81 pulses n = some t ∧ Wrote s.emitter gaps t.emitter ∧
      t.emitter.emit_last_position = 32 * t.emitter.emit_bit_pos := by
  induction gaps generalizing s n with
  | nil =>
    obtain ⟨n, rfl⟩ : ∃ k, n = k + 1 := ⟨n - 1, by simp at enough; omega⟩
    have ended : ¬ (s.count < pulses ∧ s.emitter.emit_bit_pos < s.emitter.emit_target_bits) := by
      simp at count
      omega
    exact ⟨s, by simp [rounds, round, if_neg ended], .nil, by rw [last, position]⟩
  | cons g gaps ih =>
    obtain ⟨n, rfl⟩ : ∃ k, n = k + 1 := ⟨n - 1, by simp at enough; omega⟩
    obtain ⟨here, later⟩ := List.forall_mem_cons.mp positive
    obtain ⟨near, near'⟩ := List.forall_mem_cons.mp short
    rw [List.sum_cons] at room
    rw [List.length_cons] at count enough
    have strong : (s.strength + (0x80000000 + 2 ^ 32 - s.strength) % 2 ^ 32) % 2 ^ 32 = 0x80000000 := by omega
    have moved : (s.position + 32 * g) % 2 ^ 32 = 32 * (s.emitter.emit_bit_pos + g) := by
      rw [position, ← Nat.mul_add]
      exact Nat.mod_eq_of_lt (by omega)
    have distance : (32 * (s.emitter.emit_bit_pos + g) + 2 ^ 32 - s.emitter.emit_last_position) % 2 ^ 32 = 32 * g := by
      rw [last, position]
      omega
    obtain ⟨rc, sends', made⟩ := round_sends ticks pulses sends (by omega) (by omega) (by omega) near
      (by rw [strong])
    rw [strong, moved, distance] at made
    let turned : Emitter := { s.emitter with emit_last_position := 32 * (s.emitter.emit_bit_pos + g) }
    have first : Wrote s.emitter [g] (turned.cells (32 * g)) := by
      obtain ⟨bit_pos, target, length, bits⟩ := turned.cells_wrote here
        (show s.emitter.emit_bit_pos + g ≤ s.emitter.emit_target_bits by omega) fits buffer
      exact ⟨bit_pos, target, length, bits⟩
    have bit_pos := first.bit_pos
    rw [List.sum_singleton] at bit_pos
    obtain ⟨t, left, wrote, last'⟩ := ih (n := n) (s := ⟨rc, 32 * (s.emitter.emit_bit_pos + g), 32 * g, 0x80000000,
      (s.count + 1) % 2 ^ 32, turned.cells (32 * g)⟩) sends' (by dsimp only; omega) (by dsimp only; omega) (by dsimp only; rw [bit_pos])
      ((turned.cells_last _).trans rfl) later (by dsimp only; rw [bit_pos, first.target]; omega)
      (by dsimp only; rw [first.target, first.length]; exact fits) (by dsimp only; rw [first.length]; exact buffer) near'
      (by omega)
    refine ⟨t, ?_, first.cons wrote, last'⟩
    rw [rounds, made, Option.bind_some, if_pos rfl]
    exact left

end Pulses

variable {gaps : List Nat} {compressed : List UInt8} {n : Nat}

theorem length_strongPulses (strength : Nat) : (strongPulses strength gaps).length = gaps.length := by
  induction gaps generalizing strength with
  | nil => rfl
  | cons g gaps ih => rw [strongPulses, List.length_cons, List.length_cons, ih]

/-- The cells of a track that is shorter than a rotation, and behind them as many zeros as overlap. -/
theorem PulseStream.decode_gaps (ticks track : Nat) (sends : Sends (start compressed) (strongPulses 0 gaps)) (some_ : gaps ≠ [])
    (positive : ∀ g ∈ gaps, 1 ≤ g) (short : gaps.sum ≤ 80000) (few : gaps.length < n)
    (cleared : e.gcr_track = List.replicate P81_MAX_TRACK_BYTES 0) :
    ∃ f, p81.decode 5 ticks n track gaps.length compressed e = some f ∧ f.emit_bit_pos = gaps.sum + P81_OVERLAP_BYTES * 8 ∧
      f.gcr_track.length = P81_MAX_TRACK_BYTES ∧ ∀ q, Mfm.bitAt f.gcr_track q = decide (q ∈ peaks 0 gaps) := by
  have size : P81_MAX_TRACK_BYTES = 14848 := rfl
  have length : e.gcr_track.length = 14848 := by rw [cleared, List.length_replicate, size]
  have each : ∀ g ∈ gaps, 32 * g ≤ P64_SAMPLES_PER_ROTATION := by
    intro g member
    have part := List.le_sum_of_mem member
    simp only [P64_SAMPLES_PER_ROTATION]
    omega
  have fewer := List.length_le_sum_of_one_le gaps positive
  obtain ⟨t, first, wrote, last⟩ := Pulses.rounds_gaps ticks
    (s := { rc := .start compressed, emitter := (p81.resetEmitState track e).aim 118784 }) sends (Nat.zero_add _) (by omega)
    (by dsimp only; omega) rfl rfl positive (show 0 + gaps.sum ≤ 118784 by omega)
    (show 118784 ≤ 8 * e.gcr_track.length by rw [length]) (show e.gcr_track.length < 2 ^ 16 by rw [length]; decide) each few
  have bit_pos : t.emitter.emit_bit_pos = gaps.sum := wrote.bit_pos.trans (Nat.zero_add _)
  have bits (q : Nat) : Mfm.bitAt t.emitter.gcr_track q = decide (q ∈ peaks 0 gaps) := by
    have none_ : Mfm.bitAt e.gcr_track q = false := by
      rw [cleared, Mfm.bitAt, List.getD_eq_getElem?_getD, List.getElem?_getD_replicate_default_eq]
      exact Nat.zero_testBit _
    have whole : Mfm.bitAt t.emitter.gcr_track q = (Mfm.bitAt e.gcr_track q || decide (q ∈ peaks 0 gaps)) := wrote.bits q
    rw [whole, none_, Bool.false_or]
  -- the rotation is over, and its first pulse comes again, behind the overlap
  obtain ⟨g, rest, rfl⟩ := List.exists_cons_of_ne_nil some_
  obtain ⟨n, rfl⟩ : ∃ k, n = k + 2 := ⟨n - 2, by simp only [List.length_cons] at few; omega⟩
  have within := List.le_sum_of_mem (List.mem_cons_self (a := g) (l := rest))
  have least := positive g List.mem_cons_self
  have target : (if 118784 < (t.emitter.emit_bit_pos + P81_OVERLAP_BYTES * 8) % 2 ^ 32 then 118784
      else (t.emitter.emit_bit_pos + P81_OVERLAP_BYTES * 8) % 2 ^ 32) = (g :: rest).sum + 16384 := by
    have overlap : P81_OVERLAP_BYTES = 2048 := rfl
    rw [bit_pos, overlap, if_neg (by omega)]
    omega
  let second := t.emitter.aim ((g :: rest).sum + 16384)
  have strong : (0 + (0x80000000 + 2 ^ 32 - 0) % 2 ^ 32) % 2 ^ 32 = 0x80000000 := by decide
  have moved : (P64_SAMPLES_PER_ROTATION + 32 * g) % 2 ^ 32 = P64_SAMPLES_PER_ROTATION + 32 * g := by
    simp only [P64_SAMPLES_PER_ROTATION]
    omega
  have distance : (P64_SAMPLES_PER_ROTATION + 32 * g + 2 ^ 32 - t.emitter.emit_last_position) % 2 ^ 32 =
      32 * (100000 + g - (g :: rest).sum) := by
    rw [last, bit_pos, P64_SAMPLES_PER_ROTATION]
    omega
  obtain ⟨rc, -, made⟩ := Pulses.round_sends ticks (g :: rest).length
    (s := { rc := .start compressed, position := P64_SAMPLES_PER_ROTATION, emitter := second }) sends (Nat.succ_pos _)
    (show t.emitter.emit_bit_pos < (g :: rest).sum + 16384 by omega) (by omega) (each g List.mem_cons_self)
    (by rw [strong])
  let turned : Emitter := { second with emit_last_position := P64_SAMPLES_PER_ROTATION + 32 * g }
  have over_ : turned.cells (32 * (100000 + g - (g :: rest).sum)) = turned.moveTo turned.emit_target_bits :=
    Emitter.cells_over (show (g :: rest).sum + 16384 < t.emitter.emit_bit_pos + (100000 + g - (g :: rest).sum) by omega)
      (show t.emitter.emit_bit_pos + (100000 + g - (g :: rest).sum) < 2 ^ 26 by omega)
  have next : (0 + 1) % 2 ^ 32 = 1 := by decide
  dsimp only at made
  rw [moved, strong, next, show second.emit_last_position = t.emitter.emit_last_position from rfl, distance] at made
  obtain ⟨u, again, full, kept⟩ : ∃ u, Pulses.rounds 5 ticks p81 (g :: rest).length (n + 2)
      { rc := .start compressed, position := P64_SAMPLES_PER_ROTATION, emitter := second } = some u ∧
        u.emitter.emit_bit_pos = (g :: rest).sum + 16384 ∧ u.emitter.gcr_track = t.emitter.gcr_track := by
    refine ⟨⟨rc, P64_SAMPLES_PER_ROTATION + 32 * g, 32 * g, 0x80000000, 1, turned.moveTo turned.emit_target_bits⟩, ?_, rfl, rfl⟩
    have ended : ¬ (1 < (g :: rest).length ∧ (turned.moveTo turned.emit_target_bits).emit_bit_pos <
        (turned.moveTo turned.emit_target_bits).emit_target_bits) := fun both => Nat.lt_irrefl _ both.2
    rw [Pulses.rounds, made, Option.bind_some, if_pos rfl]
    have last_ : Pulses.rounds 5 ticks p81 (g :: rest).length (n + 1) ⟨rc, P64_SAMPLES_PER_ROTATION + 32 * g, 32 * g,
        0x80000000, 1, turned.cells (32 * (100000 + g - (g :: rest).sum))⟩ =
      some ⟨rc, P64_SAMPLES_PER_ROTATION + 32 * g, 32 * g, 0x80000000, 1, turned.moveTo turned.emit_target_bits⟩ := by
      rw [over_, Pulses.rounds, Pulses.round, if_neg ended]
      rfl
    exact last_
  refine ⟨u.emitter, ?_, full, ?_, fun q => kept ▸ bits q⟩
  · have buffer : e.gcr_track.length * 8 % 2 ^ 32 = 118784 := by omega
    unfold decode
    dsimp only
    rw [buffer, first, Option.bind_some, if_neg (show ¬ 118784 ≤ t.emitter.emit_bit_pos by omega)]
    rw [show p81.overlapBytes = P81_OVERLAP_BYTES from rfl, target, again, Option.map_some]
  · rw [kept, wrote.length, size]
    exact length

theorem wordLE_bytesLE (n v : Nat) (small : v < 256 ^ n) : wordLE (bytesLE n v) = v := by
  induction n generalizing v with
  | zero =>
    rw [Nat.lt_one_iff.mp small]
    rfl
  | succ n ih =>
    rw [Nat.pow_succ] at small
    rw [bytesLE, wordLE, ih (v / 256) (by omega), UInt8.toNat_ofNat']
    omega

theorem length_bytesLE (n v : Nat) : (bytesLE n v).length = n := by
  induction n generalizing v with
  | zero => rfl
  | succ n ih => rw [bytesLE, List.length_cons, ih]

theorem le32_bytesLE {v : Nat} (small : v < 2 ^ 32) (rest : List UInt8) : le32 (bytesLE 4 v ++ rest) = v := by
  rw [le32, List.take_left' (length_bytesLE 4 v)]
  exact wordLE_bytesLE 4 v small

theorem fetch_getD (bytes : List UInt8) (pos n : Nat) (inside : pos + n ≤ bytes.length) :
    ({ data := fun k => bytes.getD k 0, size := bytes.length } : Container).fetch pos n = some ((bytes.drop pos).take n) := by
  have some_ : min n (bytes.length - pos) = n := Nat.min_eq_left (by omega)
  have same : Store.read (fun k => bytes.getD k 0) pos n = (bytes.drop pos).take n := by
    apply List.ext_getElem?
    intro i
    by_cases here : i < n
    · rw [Store.getElem?_read _ _ _ _ here, List.getElem?_take_of_lt here, List.getElem?_drop, List.getD_eq_getElem?_getD,
        List.getElem?_eq_getElem (by omega)]
      rfl
    · rw [List.getElem?_eq_none (by simp; omega), List.getElem?_eq_none (by simp; omega)]
  simp only [Container.fetch, Container.seek, Container.read, some_, same]
  exact if_pos (by simp; omega)

/- An image with the flux of one side of one cylinder. -/
def fluxBytes (key : UInt8) (pulses : Nat) (compressed : List UInt8) : List UInt8 :=
  [0x50, 0x36, 0x34, 0x2D, 0x31, 0x35, 0x38, 0x31] ++ bytesLE 4 0 ++ bytesLE 4 0 ++ bytesLE 4 (20 + compressed.length) ++
    bytesLE 4 0 ++ [0x48, 0x54, 0x50, key] ++ bytesLE 4 (8 + compressed.length) ++ bytesLE 4 0 ++ bytesLE 4 pulses ++
    bytesLE 4 compressed.length ++ compressed

theorem length_fluxBytes (key : UInt8) (pulses : Nat) (compressed : List UInt8) :
    (fluxBytes key pulses compressed).length = 44 + compressed.length := by
  simp [fluxBytes, length_bytesLE]
  omega

def fluxImage (key : UInt8) (pulses : Nat) (compressed : List UInt8) (small : compressed.length < 2 ^ 31) : P64 where
  container := { data := fun k => (fluxBytes key pulses compressed).getD k 0, size := (fluxBytes key pulses compressed).length }
  small := by
    have := length_fluxBytes key pulses compressed
    dsimp only
    omega
  size := 44 + compressed.length
  size_small := by omega
  imageSignature := [0x50, 0x36, 0x34, 0x2D, 0x31, 0x35, 0x38, 0x31]

section Image

variable {key : UInt8} {pulses : Nat} {compressed : List UInt8} (small : compressed.length < 2 ^ 31)

theorem fetch_flux (pos n : Nat) (inside : pos + n ≤ 44 + compressed.length) :
    (fluxImage key pulses compressed small).container.fetch pos n =
      some (((fluxBytes key pulses compressed).drop pos).take n) :=
  fetch_getD _ pos n (by rw [length_fluxBytes]; exact inside)

theorem fetch_compressed :
    (fluxImage key pulses compressed small).container.fetch 44 compressed.length = some compressed := by
  have behind : (fluxBytes key pulses compressed).drop 44 = compressed := rfl
  rw [fetch_flux small 44 _ (Nat.le_refl _), behind, List.take_length]

/-- The walk finds the one chunk. -/
theorem parseChunks_flux (some_ : compressed ≠ []) (few : pulses < 2 ^ 32) (positive : 0 < pulses)
    (listed : P64_FIRST_HALF_TRACK ≤ key &&& 0x7f ∧ key &&& 0x7f ≤ P64_LAST_HALF_TRACK) :
    (fluxImage key pulses compressed small).parseChunks 2 {} =
      some (true, ⟨[(key, ⟨44, compressed.length, pulses⟩)], true, true⟩) := by
  let p := fluxImage key pulses compressed small
  have length := List.length_pos_iff.mpr some_
  let head : List UInt8 := [0x50, 0x36, 0x34, 0x2D, 0x31, 0x35, 0x38, 0x31] ++
    (bytesLE 4 0 ++ (bytesLE 4 0 ++ (bytesLE 4 (20 + compressed.length) ++ bytesLE 4 0)))
  have header : p.container.fetch 0 P64_HEADER_SIZE = some head := fetch_flux small 0 24 (by omega)
  have opened : p.chunkStream = some (44 + compressed.length) := by
    have version : le32 (head.drop 8) = 0 := le32_bytesLE (by decide) _
    have size : le32 (head.drop 16) = 20 + compressed.length := le32_bytesLE (by omega) _
    have stop : (P64_HEADER_SIZE + (20 + compressed.length)) % 2 ^ 32 = 44 + compressed.length := by
      simp only [P64_HEADER_SIZE]
      omega
    have total : p.size = 44 + compressed.length := rfl
    unfold P64.chunkStream
    rw [header]
    dsimp only
    rw [if_pos ⟨rfl, version⟩, total, size, stop, if_neg (fun both => Nat.lt_irrefl _ both.2)]
  let first := [0x48, 0x54, 0x50, key] ++ (bytesLE 4 (8 + compressed.length) ++ bytesLE 4 0)
  have stored : p.container.fetch P64_HEADER_SIZE P64_CHUNK_HEADER_SIZE = some first := fetch_flux small 24 12 (by omega)
  have chunk_size : le32 (first.drop 4) = 8 + compressed.length := le32_bytesLE (by omega) _
  have chunk : p.chunk (44 + compressed.length) P64_HEADER_SIZE = some first := by
    unfold P64.chunk
    rw [stored, if_neg (by simp only [P64_HEADER_SIZE, P64_CHUNK_HEADER_SIZE]; omega)]
    dsimp only
    rw [chunk_size, if_neg (fun both => absurd both.2 (by omega)),
      if_neg (by simp only [P64_HEADER_SIZE, P64_CHUNK_HEADER_SIZE]; omega)]
  have info : p.container.fetch (P64_HEADER_SIZE + P64_CHUNK_HEADER_SIZE) 8 =
      some (bytesLE 4 pulses ++ bytesLE 4 compressed.length) := fetch_flux small 36 8 (by omega)
  have recorded : p.halfTrack first (P64_HEADER_SIZE + P64_CHUNK_HEADER_SIZE) =
      some (key, ⟨44, compressed.length, pulses⟩) := by
    have count : le32 (bytesLE 4 pulses ++ bytesLE 4 compressed.length) = pulses := le32_bytesLE few _
    have size : le32 ((bytesLE 4 pulses ++ bytesLE 4 compressed.length).drop 4) = compressed.length := by
      rw [List.drop_left' (length_bytesLE 4 pulses), ← List.append_nil (bytesLE 4 compressed.length)]
      exact le32_bytesLE (by omega) []
    have named : first.getD 3 0 = key := rfl
    unfold P64.halfTrack
    dsimp only
    rw [chunk_size, if_pos ⟨rfl, Nat.le_add_right 8 _⟩, named, if_pos listed, info]
    dsimp only
    rw [count, size, if_pos ⟨positive, length, by omega⟩]
    rfl
  have over_ : p.chunk (44 + compressed.length) (44 + compressed.length) = none :=
    if_pos (by simp only [P64_CHUNK_HEADER_SIZE]; omega)
  have next : p.chunkStep (44 + compressed.length) {} =
      some ⟨44 + compressed.length, [(key, ⟨44, compressed.length, pulses⟩)]⟩ := by
    rw [P64.chunkStep_eq chunk, chunk_size, recorded]
    have behind : (P64_HEADER_SIZE + P64_CHUNK_HEADER_SIZE + (8 + compressed.length)) % 2 ^ 32 = 44 + compressed.length := by
      simp only [P64_HEADER_SIZE, P64_CHUNK_HEADER_SIZE]
      omega
    rw [behind]
    rfl
  have ended : p.chunkStep (44 + compressed.length) ⟨44 + compressed.length, [(key, ⟨44, compressed.length, pulses⟩)]⟩ = none := by
    unfold P64.chunkStep
    rw [over_]
  show p.parseChunks 2 {} = _
  unfold P64.parseChunks
  rw [if_neg (by decide), opened]
  dsimp only
  rw [loop_next next 1, loop_done ended]
  rfl

end Image

theorem Mfm.bitAt_take {l : List UInt8} {n q : Nat} (inside : q < n * 8) : Mfm.bitAt (l.take n) q = Mfm.bitAt l q := by
  rw [Mfm.bitAt, Mfm.bitAt, List.getD_eq_getElem?_getD, List.getD_eq_getElem?_getD,
    List.getElem?_take_of_lt (show q / 8 < n by omega)]

namespace P81

theorem Block.key_listed (k : Block) : P64_FIRST_HALF_TRACK ≤ k.key &&& 0x7f ∧ k.key &&& 0x7f ≤ P64_LAST_HALF_TRACK := by
  have all : ∀ side < 2, ∀ cylinder < 80, P64_FIRST_HALF_TRACK ≤
      (UInt8.ofNat side <<< 7 ||| (UInt8.ofNat cylinder + P81_FIRST_CYLINDER_HT)) &&& 0x7f ∧
      (UInt8.ofNat side <<< 7 ||| (UInt8.ofNat cylinder + P81_FIRST_CYLINDER_HT)) &&& 0x7f ≤ P64_LAST_HALF_TRACK := by decide
  have first := UInt8.le_iff_toNat_le.mp k.first
  have last := UInt8.le_iff_toNat_le.mp k.last
  have one : (1 : UInt8).toNat = 1 := rfl
  have eighty : (80 : UInt8).toNat = 80 := rfl
  have head := k.head_lt
  have side : k.side.toNat < 2 := by
    rw [Block.side, UInt8.toNat_sub, one]
    omega
  have cylinder : k.cylinder.toNat < 80 := by
    rw [Block.cylinder, UInt8.toNat_sub, one]
    omega
  have here := all k.side.toNat side k.cylinder.toNat cylinder
  rwa [UInt8.ofNat_toNat, UInt8.ofNat_toNat] at here

theorem strongPulses_small {gaps : List Nat} (strength : Nat) (near : ∀ g ∈ gaps, 32 * g < 2 ^ 32) :
    ∀ x ∈ strongPulses strength gaps, x.1 < 2 ^ 32 ∧ x.2 < 2 ^ 32 := by
  induction gaps generalizing strength with
  | nil => exact List.forall_mem_nil _
  | cons g gaps ih =>
    obtain ⟨here, later⟩ := List.forall_mem_cons.mp near
    exact List.forall_mem_cons.mpr ⟨⟨here, Nat.mod_lt _ (by decide)⟩, ih 0x80000000 later⟩

/-- Whatever its gaps are, a track of a 1581 can be written: the walk finds its chunk, and the drive makes its cells. -/
theorem track_written (k : Block) (gaps : List Nat) (some_ : gaps ≠ []) (positive : ∀ g ∈ gaps, 1 ≤ g)
    (short : gaps.sum ≤ 80000) : ∃ p c bits, P64.parseChunks p 2 {} = some (true, c) ∧ cellsOf p c k = some bits ∧
      bits.length = (gaps.sum + P81_OVERLAP_BYTES * 8 + 7) / 8 ∧
        ∀ q < Mfm.cells bits, Mfm.bitAt bits q = decide (q ∈ peaks 0 gaps) := by
  have fewer := List.length_le_sum_of_one_le gaps positive
  have near : ∀ g ∈ gaps, 32 * g < 2 ^ 32 := fun g member => by
    have part := List.le_sum_of_mem member
    omega
  obtain ⟨compressed, long, small, sends⟩ := sends_exists (strongPulses 0 gaps) (strongPulses_small 0 near)
  rw [length_strongPulses] at small
  have positive' := List.length_pos_iff.mpr some_
  have nonempty : compressed ≠ [] := List.length_pos_iff.mp (by omega)
  have bound : compressed.length < 2 ^ 31 := by omega
  let p := fluxImage k.key gaps.length compressed bound
  let c : Chunks := ⟨[(k.key, ⟨44, compressed.length, gaps.length⟩)], true, true⟩
  have parsed : p.parseChunks 2 {} = some (true, c) := parseChunks_flux bound nonempty (by omega) positive' k.key_listed
  have listed : c.half_tracks.lookup k.key = some ⟨44, compressed.length, gaps.length⟩ := List.lookup_cons_self
  obtain ⟨f, decoded, bit_pos, length, ones⟩ := PulseStream.decode_gaps (2 ^ 32)
    ((if k.cache_id < 0 then 0 else k.cache_id).toNat % 2 ^ 8) (n := 2 ^ 32)
    (e := { gcr_track := List.replicate P81_MAX_TRACK_BYTES 0 }) sends some_ positive short (by omega) rfl
  have overlap : P81_OVERLAP_BYTES = 2048 := rfl
  have size : P81_MAX_TRACK_BYTES = 14848 := rfl
  have here : cellsOf p c k = some (f.gcr_track.take ((gaps.sum + P81_OVERLAP_BYTES * 8 + 7) / 8)) := by
    have count : gaps.length % 2 ^ 32 = gaps.length := Nat.mod_eq_of_lt (by omega)
    have bytes : ((f.emit_bit_pos + 7) % 2 ^ 32) >>> 3 = (gaps.sum + P81_OVERLAP_BYTES * 8 + 7) / 8 := by
      rw [bit_pos, Nat.shiftRight_eq_div_pow, overlap]
      omega
    have filled : f.emit_bit_pos ≠ 0 := by
      rw [bit_pos, overlap]
      omega
    unfold cellsOf P64.decodeChunk
    rw [listed]
    dsimp only
    rw [fetch_compressed bound]
    dsimp only
    rw [count, show PulseStream.p81.trackBufferBytes = P81_MAX_TRACK_BYTES from rfl, decoded, Option.map_some, if_neg filled,
      Option.bind_some, if_pos rfl, bytes]
  refine ⟨p, c, _, parsed, here, ?_, fun q inside => ?_⟩
  · rw [List.length_take, length, overlap, size]
    exact Nat.min_eq_left (by omega)
  · rw [Mfm.cells, List.length_take] at inside
    rw [Mfm.bitAt_take (by omega)]
    exact ones q

end P81

end Meatloaf.Disk
