import Mathlib.Algebra.GroupWithZero.Nat
import Mathlib.Data.List.Infix
import Meatloaf.Disk.Flux
import Meatloaf.Disk.Mfm

/-! `P81MStream::loadSector`: a block of a 1581 disk is half of a sector, and a sector stands in the cells of a track. The
stream keeps the cells of one track and the data of one sector, and a block that is in them is not read again. -/
namespace Meatloaf.Disk

open Lib

def P81_SECTOR_BYTES : Nat := 512
def P81_FIRST_CYLINDER_HT : UInt8 := 2

/- The members of the stream. -/
structure P81 extends FluxTrack where
  physical_sector : List UInt8 := List.replicate P81_SECTOR_BYTES 0
  cached_physical : Int := -1
  sector_buffer : List UInt8 := List.replicate 256 0
  last_data_checksum_ok : Bool := true

namespace P81

/- A block of a 1581 disk. -/
structure Block where
  track : UInt8
  sector : UInt8
  first : 1 ≤ track
  last : track ≤ 80
  inside : sector < 40

namespace Block

variable (k : Block)

def cylinder : UInt8 := k.track - 1
def head : UInt8 := k.sector / 20
def physical : UInt8 := k.sector % 20 / 2 + 1
def half : UInt8 := k.sector % 2
def side : UInt8 := 1 - k.head
def key : UInt8 := k.side <<< 7 ||| (k.cylinder + P81_FIRST_CYLINDER_HT)
def cache_id : Int := k.cylinder.toNat * 2 + k.head.toNat
def want : Int := (k.cylinder.toNat <<< 8 ||| k.head.toNat <<< 4 ||| k.physical.toNat : Nat)

end Block

variable (p : P64) (c : Chunks) (k : Block) (m : P81)

/- `decodeChunk`. Once the chunk is read, `resetEmitState` forgets the sector. -/
def decodeChunk : Option (Bool × P81) :=
  (p.decodeChunk .p81 5 (2 ^ 32) (2 ^ 32) c k.key k.cache_id m.toFluxTrack).map fun r =>
    let read := (c.half_tracks.lookup k.key).bind fun entry => p.container.fetch entry.offset entry.size
    (r.1, { m with toFluxTrack := r.2, cached_physical := if read.isSome then -1 else m.cached_physical })

/- The cells of the track, in `loadSector`. -/
def loadTrack : Option (Bool × P81) :=
  if m.cached_track = k.cache_id then some (true, m)
  else (m.decodeChunk p c k).map fun r => if r.1 then (true, { r.2 with cached_physical := -1 }) else r

/-- `readPhysicalSector`. -/
def readPhysicalSector : Bool × P81 :=
  match Mfm.readSector (m.gcr_track.take m.gcr_track_bytes) k.cylinder k.head k.physical P81_SECTOR_BYTES with
  | none => (false, { m with last_data_checksum_ok := true })
  | some (crc_ok, out) => (true, { m with physical_sector := out, last_data_checksum_ok := crc_ok })

/- The sector, in `loadSector`. -/
def loadPhysical : Bool × P81 :=
  if m.cached_physical = k.want then (true, m)
  else
    let r := m.readPhysicalSector k
    if r.1 then (true, { r.2 with cached_physical := k.want }) else r

/-- `loadSector`. -/
def loadSector : Option (Bool × P81) :=
  (m.loadTrack p c k).map fun r =>
    if r.1 then
      let s := r.2.loadPhysical k
      if s.1 then (true, { s.2 with sector_buffer := (s.2.physical_sector.drop (k.half.toNat * 256)).take 256 }) else s
    else r

/- A stream after some calls. -/
def after (history : List Block) : Option P81 := history.foldlM (fun m k => (m.loadSector p c k).map Prod.snd) {}

/-- A call gives what it would give on a fresh stream. -/
def Transparent (history : List Block) : Prop :=
  ∃ m r fresh, after p c history = some m ∧ m.loadSector p c k = some r ∧ loadSector p c k {} = some fresh ∧
    r.1 = fresh.1 ∧ (r.1 = true → r.2.sector_buffer = fresh.2.sector_buffer ∧
      r.2.last_data_checksum_ok = fresh.2.last_data_checksum_ok)

/- The cells of a track, and a sector in them, whether its checksum is right or not. -/
def cellsOf : Option (List UInt8) :=
  (p.decodeChunk .p81 5 (2 ^ 32) (2 ^ 32) c k.key k.cache_id {}).bind fun r =>
    if r.1 then some (r.2.gcr_track.take r.2.gcr_track_bytes) else none

def sectorOf : Option (Bool × List UInt8) :=
  (cellsOf p c k).bind fun bits => Mfm.readSector bits k.cylinder k.head k.physical P81_SECTOR_BYTES

/- A call after which the sector of `k` is still there, if it was before. -/
def Keeps (b : Block) : Prop :=
  c.half_tracks.lookup b.key = none ∨ b.cache_id = k.cache_id ∧ (b.physical = k.physical ∨ sectorOf p c b = none)

/- A sector that is not found on the track of `k`. -/
def Misses (b : Block) : Prop := b.cache_id = k.cache_id ∧ sectorOf p c b = none

/- The data of the sector is bad; it was read, has been kept since, and a sector was not found on its track. -/
def Stale (history : List Block) : Prop :=
  (∃ data, sectorOf p c k = some (false, data)) ∧
    ∃ before a between, history = before ++ a :: between ∧ a.cache_id = k.cache_id ∧ a.physical = k.physical ∧
      (∀ b ∈ between, Keeps p c k b) ∧ ∃ b ∈ between, Misses p c k b

variable {p c k m} {b : Block}

theorem Block.head_lt (k : Block) : k.head.toNat < 2 := by
  have inside := UInt8.lt_iff_toNat_lt.mp k.inside
  have twenty : (20 : UInt8).toNat = 20 := rfl
  have forty : (40 : UInt8).toNat = 40 := rfl
  rw [Block.head, UInt8.toNat_div, twenty]
  omega

theorem Block.physical_lt (k : Block) : k.physical.toNat < 16 := by
  have twenty : (20 : UInt8).toNat = 20 := rfl
  have two : (2 : UInt8).toNat = 2 := rfl
  have one : (1 : UInt8).toNat = 1 := rfl
  rw [Block.physical, UInt8.toNat_add, UInt8.toNat_div, UInt8.toNat_mod, twenty, two, one]
  omega

/-- The tag of a track tells its cylinder and its head. -/
theorem Block.cache_id_inj (same : b.cache_id = k.cache_id) : b.cylinder = k.cylinder ∧ b.head = k.head := by
  have low := b.head_lt
  have low' := k.head_lt
  unfold Block.cache_id at same
  exact ⟨UInt8.toNat_inj.mp (by omega), UInt8.toNat_inj.mp (by omega)⟩

theorem Block.want_eq (k : Block) : k.want = k.cache_id / 2 * 256 + k.cache_id % 2 * 16 + k.physical.toNat := by
  have low := k.head_lt
  have small := k.physical_lt
  have place : k.cylinder.toNat <<< 8 ||| k.head.toNat <<< 4 ||| k.physical.toNat =
      k.cylinder.toNat * 256 + k.head.toNat * 16 + k.physical.toNat := by
    have inner : k.head.toNat <<< 4 ||| k.physical.toNat = k.head.toNat * 16 + k.physical.toNat := by
      rw [← Nat.shiftLeft_add_eq_or_of_lt (show k.physical.toNat < 2 ^ 4 from small), Nat.shiftLeft_eq]
    rw [Nat.or_assoc, inner, ← Nat.shiftLeft_add_eq_or_of_lt (show _ < 2 ^ 8 by omega), Nat.shiftLeft_eq, Nat.add_assoc]
  rw [Block.want, place, Block.cache_id]
  omega

/-- The tag of a sector tells its track and its number. -/
theorem Block.want_inj : b.want = k.want ↔ b.cache_id = k.cache_id ∧ b.physical = k.physical := by
  have small := b.physical_lt
  have small' := k.physical_lt
  rw [b.want_eq, k.want_eq]
  constructor
  · intro same
    refine ⟨by omega, UInt8.toNat_inj.mp (by omega)⟩
  · rintro ⟨track, physical⟩
    rw [track, physical]

theorem Block.cache_id_nonneg (k : Block) : 0 ≤ k.cache_id := by
  unfold Block.cache_id
  omega

theorem Block.want_nonneg (k : Block) : 0 ≤ k.want := Int.natCast_nonneg _

theorem cellsOf_congr (same : b.cache_id = k.cache_id) : cellsOf p c b = cellsOf p c k := by
  obtain ⟨cylinder, head⟩ := Block.cache_id_inj same
  have key : b.key = k.key := by rw [Block.key, Block.key, Block.side, Block.side, cylinder, head]
  rw [cellsOf, cellsOf, key, same]

theorem sectorOf_congr (same : b.cache_id = k.cache_id) (physical : b.physical = k.physical) :
    sectorOf p c b = sectorOf p c k := by
  obtain ⟨cylinder, head⟩ := Block.cache_id_inj same
  rw [sectorOf, sectorOf, cellsOf_congr same, cylinder, head, physical]

end P81

/- The members that the read logic of a 1541 counts with. -/
def Emitter.logic (e : Emitter) : Nat × Nat × Nat × Nat × Nat :=
  (e.emit_flip_flop, e.emit_last_flip_flop, e.emit_clock, e.emit_zone, e.emit_counter)

theorem Emitter.aim_logic (e : Emitter) (target_bits : Nat) : (e.aim target_bits).logic = e.logic := rfl

theorem Emitter.cells_logic (e : Emitter) (delta : Nat) : (e.cells delta).logic = e.logic := by
  unfold Emitter.cells
  dsimp only
  generalize (if (delta + P81_CELL_SAMPLES / 2) % 2 ^ 32 / P81_CELL_SAMPLES < 1 then 1
    else (delta + P81_CELL_SAMPLES / 2) % 2 ^ 32 / P81_CELL_SAMPLES) = cells
  split <;> rfl

namespace Pulses

variable {s t : Pulses} {passes ticks pulses n : Nat} {r : Bool × Pulses}

theorem nextDelta_emitter (found : s.nextDelta passes = some r) : r.2.emitter = s.emitter := by
  obtain ⟨flag, -, rest⟩ := Option.bind_eq_some_iff.mp found
  split at rest
  · cases rest
    rfl
  · obtain ⟨delta, -, rfl⟩ := Option.map_eq_some_iff.mp rest
    rfl

theorem nextStrength_emitter (found : s.nextStrength passes = some t) : t.emitter = s.emitter := by
  obtain ⟨flag, -, rest⟩ := Option.bind_eq_some_iff.mp found
  split at rest
  · cases rest
    rfl
  · obtain ⟨more, -, rfl⟩ := Option.map_eq_some_iff.mp rest
    rfl

/-- The cells of a 1581 are counted without the read logic. -/
theorem round_logic (made : s.round passes ticks .p81 pulses = some r) : r.2.emitter.logic = s.emitter.logic := by
  unfold round at made
  split at made
  · obtain ⟨q, found, rest⟩ := Option.bind_eq_some_iff.mp made
    have before := nextDelta_emitter found
    split at rest
    · cases rest
      exact congrArg Emitter.logic before
    · obtain ⟨t, found, rest⟩ := Option.bind_eq_some_iff.mp rest
      have here : t.emitter = s.emitter := (nextStrength_emitter found).trans before
      dsimp only at rest
      split at rest
      · cases rest
        exact congrArg Emitter.logic here
      · obtain ⟨u, triggered, rfl⟩ := Option.map_eq_some_iff.mp rest
        simp only [trigger, PulseStream.emitDelta, Option.map_some, Option.some.injEq] at triggered
        subst triggered
        exact (Emitter.cells_logic _ _).trans (show t.emitter.logic = s.emitter.logic from congrArg Emitter.logic here)
  · cases made
    rfl

theorem rounds_logic (left : s.rounds passes ticks .p81 pulses n = some t) : t.emitter.logic = s.emitter.logic := by
  induction n generalizing s with
  | zero => cases left
  | succ n ih =>
    obtain ⟨r, made, rest⟩ := Option.bind_eq_some_iff.mp left
    have here := round_logic made
    split at rest
    · exact (ih rest).trans here
    · cases rest
      exact here

end Pulses

/-- Both passes begin and go on without it. -/
theorem PulseStream.decode_logic {passes ticks n track pulses : Nat} {compressed : List UInt8} {e f : Emitter}
    (decoded : p81.decode passes ticks n track pulses compressed e = some f) : f.logic = e.logic := by
  obtain ⟨s, first, rest⟩ := Option.bind_eq_some_iff.mp decoded
  have here : s.emitter.logic = e.logic := Pulses.rounds_logic first
  dsimp only at rest
  split at rest
  · cases rest
    exact here
  · obtain ⟨t, second, rfl⟩ := Option.map_eq_some_iff.mp rest
    have there := Pulses.rounds_logic second
    dsimp only at there
    exact there.trans ((Emitter.aim_logic ..).trans here)

/-- A stream that has decoded tracks of a 1581 decodes the next one as a fresh stream does. -/
theorem PulseStream.decode_fresh {passes ticks n track pulses : Nat} {compressed : List UInt8} {e f : Emitter}
    (logic : e.logic = f.logic) (bits : e.gcr_track = f.gcr_track) (writes : e.writes = f.writes)
    (positions : e.positions = f.positions) :
    p81.decode passes ticks n track pulses compressed e = p81.decode passes ticks n track pulses compressed f := by
  have start (target : Nat) : (p81.resetEmitState track e).aim target = (p81.resetEmitState track f).aim target := by
    obtain ⟨track, last, flip_flop, last_flip_flop, clock, zone, counter, bit_pos, target, ws, ps⟩ := e
    obtain ⟨track', last', flip_flop', last_flip_flop', clock', zone', counter', bit_pos', target', ws', ps'⟩ := f
    simp only [Emitter.logic, Prod.mk.injEq] at logic bits writes positions
    obtain ⟨rfl, rfl, rfl, rfl, rfl⟩ := logic
    subst bits writes positions
    rfl
  unfold PulseStream.decode
  dsimp only
  rw [bits, start]

namespace P81

variable {p : P64} {c : Chunks} {k b : Block} {m : P81}

/- What a call of `decodeChunk` does to a stream on which nothing else has been done. -/
inductive Decoded (p : P64) (c : Chunks) (k : Block) (m : P81) : Bool × P81 → Prop
  | missing (none_ : c.half_tracks.lookup k.key = none) : Decoded p c k m (false, m)
  | failed (n : P81) (some_ : c.half_tracks.lookup k.key ≠ none) (undecoded : cellsOf p c k = none)
      (logic : n.logic = m.logic) (track : n.cached_track = -1) : Decoded p c k m (false, n)
  | done (n : P81) (bits : cellsOf p c k = some (n.gcr_track.take n.gcr_track_bytes)) (logic : n.logic = m.logic)
      (track : n.cached_track = k.cache_id) (physical : n.cached_physical = -1)
      (sector : n.physical_sector = m.physical_sector) : Decoded p c k m (true, n)

theorem decodeChunk_spec (logic : m.logic = ({} : P81).logic) : ∃ r, m.decodeChunk p c k = some r ∧ Decoded p c k m r := by
  have total := (p.decodeChunk_contained .p81 c k.key k.cache_id m.toFluxTrack).imp fun _ both => both.1
  have fresh : cellsOf p c k = (p.decodeChunk .p81 5 (2 ^ 32) (2 ^ 32) c k.key k.cache_id {}).bind fun r =>
    if r.1 then some (r.2.gcr_track.take r.2.gcr_track_bytes) else none := rfl
  unfold decodeChunk
  unfold P64.decodeChunk at total fresh ⊢
  cases found : c.half_tracks.lookup k.key with
  | none => exact ⟨_, rfl, .missing found⟩
  | some entry =>
    have listed : c.half_tracks.lookup k.key ≠ none := by
      rw [found]
      exact Option.some_ne_none entry
    simp only [found, Option.bind_some] at total fresh ⊢
    obtain stored | ⟨compressed, stored⟩ := Option.eq_none_or_eq_some (p.container.fetch entry.offset entry.size)
    · simp only [stored, Option.bind_some] at fresh ⊢
      exact ⟨_, rfl, .failed _ listed fresh rfl rfl⟩
    · simp only [stored] at total fresh ⊢
      obtain ⟨r, decoded⟩ := total
      obtain ⟨e, decoded, -⟩ := Option.map_eq_some_iff.mp decoded
      have kept := PulseStream.decode_logic decoded
      have alike := (PulseStream.decode_fresh (e := { gcr_track := List.replicate PulseStream.p81.trackBufferBytes 0 })
        (f := { m.toEmitter with gcr_track := List.replicate PulseStream.p81.trackBufferBytes 0, writes := [], positions := [] })
        logic.symm rfl rfl rfl).trans decoded
      simp only [alike, Option.map_some, Option.bind_some] at fresh
      simp only [decoded, Option.map_some]
      refine ⟨_, rfl, ?_⟩
      by_cases empty : e.emit_bit_pos = 0
      · simp only [if_pos empty] at fresh ⊢
        exact .failed _ listed fresh kept rfl
      · simp only [if_neg empty] at fresh ⊢
        exact .done _ fresh kept rfl rfl rfl

/- The stream holds the sector of `k`. -/
def Hits (k : Block) (m : P81) : Prop := m.cached_track = k.cache_id ∧ m.cached_physical = k.want

/-- The invariant: what the tags name is in the buffers. The flag is that of the sector, or true. -/
structure Sound (p : P64) (c : Chunks) (m : P81) : Prop where
  logic : m.logic = ({} : P81).logic
  track : ∀ k : Block, m.cached_track = k.cache_id → cellsOf p c k = some (m.gcr_track.take m.gcr_track_bytes)
  sector : ∀ k : Block, Hits k m → ∃ ok, sectorOf p c k = some (ok, m.physical_sector) ∧
    (m.last_data_checksum_ok = ok ∨ m.last_data_checksum_ok = true)

theorem Sound.lost (logic : m.logic = ({} : P81).logic) (track : m.cached_track = -1) : Sound p c m where
  logic := logic
  track k here := absurd (here.symm.trans track) (by have := k.cache_id_nonneg; omega)
  sector k hits := absurd (hits.1.symm.trans track) (by have := k.cache_id_nonneg; omega)

theorem Sound.fresh : Sound p c {} := .lost rfl rfl

/-- A sector is read from the cells that the stream holds. -/
theorem Sound.sectorOf_eq (sound : Sound p c m) (here : m.cached_track = k.cache_id) : sectorOf p c k =
    Mfm.readSector (m.gcr_track.take m.gcr_track_bytes) k.cylinder k.head k.physical P81_SECTOR_BYTES := by
  rw [sectorOf, sound.track k here, Option.bind_some]

/- The half of a sector that a block is. -/
def Block.part (k : Block) (sector : List UInt8) : List UInt8 := (sector.drop (k.half.toNat * 256)).take 256

/- What a call finds and what it leaves. -/
inductive Outcome (p : P64) (c : Chunks) (k : Block) (m : P81) : Bool × P81 → Prop
  | missing (none_ : c.half_tracks.lookup k.key = none) : Outcome p c k m (false, m)
  | undecoded (n : P81) (some_ : c.half_tracks.lookup k.key ≠ none) (none_ : cellsOf p c k = none)
      (track : n.cached_track = -1) : Outcome p c k m (false, n)
  | notFound (n : P81) (some_ : c.half_tracks.lookup k.key ≠ none) (none_ : sectorOf p c k = none)
      (track : n.cached_track = k.cache_id) (flag : n.last_data_checksum_ok = true)
      (physical : n.cached_physical = if m.cached_track = k.cache_id then m.cached_physical else -1) :
      Outcome p c k m (false, n)
  | kept (hits : Hits k m) : Outcome p c k m (true, { m with sector_buffer := k.part m.physical_sector })
  | read (n : P81) (ok : Bool) (data : List UInt8) (some_ : sectorOf p c k = some (ok, data)) (missed : ¬ Hits k m)
      (hits : Hits k n) (flag : n.last_data_checksum_ok = ok) (buffer : n.sector_buffer = k.part data) :
      Outcome p c k m (true, n)

theorem lookup_ne (bits : cellsOf p c k ≠ none) : c.half_tracks.lookup k.key ≠ none := by
  intro missing
  apply bits
  rw [cellsOf, P64.decodeChunk, missing]
  rfl

/-- On its own track, a call goes by the tag of the sector. -/
theorem Sound.loadPhysical (sound : Sound p c m) (here : m.cached_track = k.cache_id) :
    (m.loadPhysical k).2.cached_track = k.cache_id ∧ Sound p c (m.loadPhysical k).2 ∧
      (Hits k m ∧ m.loadPhysical k = (true, m) ∨
        ¬ Hits k m ∧ sectorOf p c k = none ∧ m.loadPhysical k = (false, { m with last_data_checksum_ok := true }) ∨
        ∃ ok data, ¬ Hits k m ∧ sectorOf p c k = some (ok, data) ∧ m.loadPhysical k =
          (true, { m with physical_sector := data, last_data_checksum_ok := ok, cached_physical := k.want })) := by
  have sector := sound.sectorOf_eq here
  by_cases hits : m.cached_physical = k.want
  · have same : m.loadPhysical k = (true, m) := if_pos hits
    rw [same]
    exact ⟨here, sound, .inl ⟨⟨here, hits⟩, rfl⟩⟩
  · have missed : ¬ Hits k m := fun both => hits both.2
    cases found : sectorOf p c k with
    | none =>
      have same : m.loadPhysical k = (false, { m with last_data_checksum_ok := true }) := by
        rw [P81.loadPhysical, if_neg hits, P81.readPhysicalSector, ← sector, found]
        rfl
      rw [same]
      refine ⟨here, ⟨sound.logic, sound.track, fun b held => ?_⟩, .inr (.inl ⟨missed, rfl, rfl⟩)⟩
      obtain ⟨ok, stored, -⟩ := sound.sector b held
      exact ⟨ok, stored, .inr rfl⟩
    | some r =>
      obtain ⟨ok, data⟩ := r
      have same : m.loadPhysical k =
          (true, { m with physical_sector := data, last_data_checksum_ok := ok, cached_physical := k.want }) := by
        rw [P81.loadPhysical, if_neg hits, P81.readPhysicalSector, ← sector, found]
        rfl
      rw [same]
      refine ⟨here, ⟨sound.logic, sound.track, fun b held => ⟨ok, ?_, .inl rfl⟩⟩, .inr (.inr ⟨ok, data, missed, rfl, rfl⟩)⟩
      obtain ⟨track, physical⟩ := Block.want_inj.mp (held.2 : k.want = b.want)
      exact (sectorOf_congr track physical).symm.trans found

/-- What a call can do, and that it keeps the invariant. -/
theorem Sound.loadSector (sound : Sound p c m) :
    ∃ r, m.loadSector p c k = some r ∧ Outcome p c k m r ∧ Sound p c r.2 := by
  have track : ∃ r, m.loadTrack p c k = some r ∧ (r.1 = false ∧ Outcome p c k m r ∧ Sound p c r.2 ∨
      r.1 = true ∧ r.2.cached_track = k.cache_id ∧ Sound p c r.2 ∧
        (m.cached_track = k.cache_id ∧ r.2 = m ∨ m.cached_track ≠ k.cache_id ∧ r.2.cached_physical = -1)) := by
    by_cases here : m.cached_track = k.cache_id
    · exact ⟨(true, m), if_pos here, .inr ⟨rfl, here, sound, .inl ⟨here, rfl⟩⟩⟩
    · obtain ⟨r, decoded, cases_⟩ := decodeChunk_spec (p := p) (c := c) (k := k) sound.logic
      rw [loadTrack, if_neg here, decoded, Option.map_some]
      cases cases_ with
      | missing none_ => exact ⟨_, rfl, .inl ⟨rfl, .missing none_, sound⟩⟩
      | failed n some_ undecoded logic track =>
        exact ⟨_, rfl, .inl ⟨rfl, .undecoded n some_ undecoded track, .lost (logic.trans sound.logic) track⟩⟩
      | done n bits logic track physical sector =>
        refine ⟨_, rfl, .inr ⟨rfl, track, ⟨logic.trans sound.logic, fun b same => ?_, fun b hits => ?_⟩, .inr ⟨here, rfl⟩⟩⟩
        · exact (cellsOf_congr (track.symm.trans same)).symm.trans bits
        · have known := b.want_nonneg
          rw [← (hits.2 : -1 = b.want)] at known
          exact absurd (show (0 : Int) ≤ -1 from known) (by decide)
  obtain ⟨r, loaded, cases_⟩ := track
  rw [P81.loadSector, loaded, Option.map_some]
  rcases cases_ with ⟨refused, outcome, kept⟩ | ⟨done, here, kept, before⟩
  · exact ⟨_, rfl, by rwa [if_neg (by rw [refused]; decide)], by rwa [if_neg (by rw [refused]; decide)]⟩
  · rw [if_pos done]
    obtain ⟨there, sound', cases_⟩ := kept.loadPhysical here
    have held : Hits k r.2 ↔ Hits k m := by
      rcases before with ⟨-, same⟩ | ⟨other, forgotten⟩
      · rw [same]
      · have := k.want_nonneg
        exact ⟨fun hits => absurd (forgotten.symm.trans hits.2) (by omega), fun hits => absurd hits.1 other⟩
    have some_ : c.half_tracks.lookup k.key ≠ none := lookup_ne (by rw [kept.track k here]; exact Option.some_ne_none _)
    refine ⟨_, rfl, ?_⟩
    rcases cases_ with ⟨hits, same⟩ | ⟨missed, none_, same⟩ | ⟨ok, data, missed, found, same⟩
    · rcases before with ⟨-, unchanged⟩ | ⟨other, -⟩
      · rw [same, unchanged]
        exact ⟨.kept (held.mp hits), ⟨sound.logic, sound.track, sound.sector⟩⟩
      · exact absurd (held.mp hits).1 other
    · rw [same] at sound' ⊢
      refine ⟨.notFound _ some_ none_ here rfl ?_, sound'⟩
      rcases before with ⟨there, unchanged⟩ | ⟨other, forgotten⟩
      · rw [if_pos there, unchanged]
      · rw [if_neg other]
        exact forgotten
    · rw [same] at sound' ⊢
      refine ⟨.read _ ok data found (fun hits => missed (held.mpr hits)) ⟨here, rfl⟩ rfl rfl, ?_⟩
      exact ⟨sound'.logic, sound'.track, sound'.sector⟩

theorem Hits.same (hits : Hits k m) (hits' : Hits b m) : b.cache_id = k.cache_id ∧ b.physical = k.physical :=
  Block.want_inj.mp (hits'.2.symm.trans hits.2)

theorem Hits.of_same (same : b.cache_id = k.cache_id ∧ b.physical = k.physical) (hits : Hits b m) : Hits k m :=
  ⟨hits.1.trans same.1, hits.2.trans (Block.want_inj.mpr same)⟩

theorem cellsOf_ne {r : Bool × List UInt8} (found : sectorOf p c k = some r) : cellsOf p c k ≠ none := by
  intro undecoded
  rw [sectorOf, undecoded] at found
  cases found

/-- For a sector whose data is bad: when the stream holds it after a call, and when the flag is wrong then. -/
theorem Outcome.hits {r : Bool × P81} {data : List UInt8} (outcome : Outcome p c b m r)
    (bad : sectorOf p c k = some (false, data)) :
    (Hits k r.2 ↔ (b.cache_id = k.cache_id ∧ b.physical = k.physical) ∨ Hits k m ∧ Keeps p c k b) ∧
      (Hits k r.2 ∧ r.2.last_data_checksum_ok = true ↔
        (Hits k m ∧ m.last_data_checksum_ok = true) ∧ Keeps p c k b ∨ Hits k m ∧ Misses p c k b) := by
  have decoded (same : b.cache_id = k.cache_id) : cellsOf p c b ≠ none := cellsOf_congr same ▸ cellsOf_ne bad
  cases outcome with
  | missing none_ =>
    have other : b.cache_id ≠ k.cache_id := fun same => lookup_ne (decoded same) none_
    have keeps : Keeps p c k b := .inl none_
    simp [keeps, Misses, other]
  | undecoded n some_ none_ track =>
    have other : b.cache_id ≠ k.cache_id := fun same => decoded same none_
    have gone : ¬ Hits k n := fun hits => by
      have known := k.cache_id_nonneg
      rw [← hits.1, track] at known
      exact absurd known (by decide)
    simp [gone, Keeps, Misses, other, some_]
  | notFound n some_ none_ track flag physical =>
    by_cases same : b.cache_id = k.cache_id
    · have apart : b.physical ≠ k.physical := fun number => by
        rw [sectorOf_congr same number, bad] at none_
        cases none_
      have keeps : Keeps p c k b := .inr ⟨same, .inr none_⟩
      have held : Hits k n ↔ Hits k m := by
        rw [Hits, Hits, track, physical, same]
        by_cases here : m.cached_track = k.cache_id
        · simp [here]
        · have known := k.want_nonneg
          have never : ¬ -1 = k.want := by omega
          simp [here, never]
      simp only [held, flag, keeps, Misses, same, none_, apart, and_true, and_false, false_or, true_and]
      exact ⟨fun hits => .inr hits, fun cases_ => cases_.elim And.left id⟩
    · have gone : ¬ Hits k n := fun hits => same (track.symm.trans hits.1)
      simp [gone, Keeps, Misses, same, some_]
  | kept held =>
    have unchanged : Hits k { m with sector_buffer := b.part m.physical_sector } ↔ Hits k m := Iff.rfl
    by_cases same : b.cache_id = k.cache_id ∧ b.physical = k.physical
    · have hits : Hits k m := held.of_same same
      have keeps : Keeps p c k b := .inr ⟨same.1, .inl same.2⟩
      have found : ¬ Misses p c k b := fun miss => by
        have := miss.2
        rw [sectorOf_congr same.1 same.2, bad] at this
        cases this
      simp [unchanged, hits, keeps, found, same]
    · have gone : ¬ Hits k m := fun hits => same (hits.same held)
      simp [unchanged, gone, same]
  | read n ok data' some_ missed hits flag buffer =>
    by_cases same : b.cache_id = k.cache_id ∧ b.physical = k.physical
    · have wrong : ok = false := by
        rw [sectorOf_congr same.1 same.2, bad] at some_
        cases some_
        rfl
      have gone : ¬ Hits k m := fun held => missed (held.of_same ⟨same.1.symm, same.2.symm⟩)
      simp [hits.of_same same, flag, wrong, gone, same]
    · have gone : ¬ Hits k n := fun held => same (held.same hits)
      have loses : ¬ Keeps p c k b := by
        rintro (none_ | ⟨track, number | none_⟩)
        · exact lookup_ne (cellsOf_ne some_) none_
        · exact same ⟨track, number⟩
        · rw [some_] at none_
          cases none_
      have found : ¬ Misses p c k b := fun miss => loses (.inr ⟨miss.1, .inr miss.2⟩)
      simp [gone, loses, found, same]

/- A history that ends with a call, split at one of its calls. -/
theorem split_last {α : Type*} {P : α → List α → Prop} {history : List α} {b : α} :
    (∃ before a between, history ++ [b] = before ++ a :: between ∧ P a between) ↔
      P b [] ∨ ∃ before a between, history = before ++ a :: between ∧ P a (between ++ [b]) := by
  constructor
  · rintro ⟨before, a, between, split, holds⟩
    rcases List.eq_nil_or_concat between with rfl | ⟨between, last, rfl⟩
    · obtain ⟨rfl, same⟩ := List.append_inj' split rfl
      cases same
      exact .inl holds
    · rw [List.concat_eq_append, ← List.cons_append, ← List.append_assoc] at split
      obtain ⟨rfl, same⟩ := List.append_inj' split rfl
      cases same
      exact .inr ⟨before, a, between, rfl, List.concat_eq_append ▸ holds⟩
  · rintro (holds | ⟨before, a, between, rfl, holds⟩)
    · exact ⟨history, b, [], rfl, holds⟩
    · exact ⟨before, a, between ++ [b], by simp, holds⟩

/- The sector was read, and has been kept since. -/
def Read (p : P64) (c : Chunks) (k : Block) (history : List Block) : Prop :=
  ∃ before a between, history = before ++ a :: between ∧ (a.cache_id = k.cache_id ∧ a.physical = k.physical) ∧
    ∀ b ∈ between, Keeps p c k b

/- It has, over a sector that was not found. -/
def Passed (p : P64) (c : Chunks) (k : Block) (history : List Block) : Prop :=
  ∃ before a between, history = before ++ a :: between ∧ (a.cache_id = k.cache_id ∧ a.physical = k.physical) ∧
    (∀ b ∈ between, Keeps p c k b) ∧ ∃ b ∈ between, Misses p c k b

theorem read_last {history : List Block} : Read p c k (history ++ [b]) ↔
    (b.cache_id = k.cache_id ∧ b.physical = k.physical) ∨ Read p c k history ∧ Keeps p c k b := by
  rw [Read, split_last (P := fun a between => (a.cache_id = k.cache_id ∧ a.physical = k.physical) ∧
    ∀ b ∈ between, Keeps p c k b)]
  refine or_congr (by simp) ⟨?_, ?_⟩
  · rintro ⟨before, a, between, split, same, keeps⟩
    obtain ⟨older, newest⟩ := List.forall_mem_append.mp keeps
    exact ⟨⟨before, a, between, split, same, older⟩, newest b (List.mem_singleton_self b)⟩
  · rintro ⟨⟨before, a, between, split, same, older⟩, newest⟩
    exact ⟨before, a, between, split, same, List.forall_mem_append.mpr ⟨older, List.forall_mem_singleton.mpr newest⟩⟩

theorem passed_last {history : List Block} : Passed p c k (history ++ [b]) ↔
    Passed p c k history ∧ Keeps p c k b ∨ Read p c k history ∧ Misses p c k b := by
  rw [Passed, split_last (P := fun a between => (a.cache_id = k.cache_id ∧ a.physical = k.physical) ∧
    (∀ b ∈ between, Keeps p c k b) ∧ ∃ b ∈ between, Misses p c k b)]
  constructor
  · rintro (⟨-, -, d, none_, -⟩ | ⟨before, a, between, split, same, keeps, d, member, miss⟩)
    · cases none_
    · obtain ⟨older, newest⟩ := List.forall_mem_append.mp keeps
      rcases List.mem_append.mp member with earlier | last
      · exact .inl ⟨⟨before, a, between, split, same, older, d, earlier, miss⟩, newest b (List.mem_singleton_self b)⟩
      · exact .inr ⟨⟨before, a, between, split, same, older⟩, List.mem_singleton.mp last ▸ miss⟩
  · rintro (⟨⟨before, a, between, split, same, older, d, earlier, miss⟩, newest⟩ | ⟨⟨before, a, between, split, same, older⟩, miss⟩)
    · exact .inr ⟨before, a, between, split, same,
        List.forall_mem_append.mpr ⟨older, List.forall_mem_singleton.mpr newest⟩, d, List.mem_append_left _ earlier, miss⟩
    · have newest : Keeps p c k b := .inr ⟨miss.1, .inr miss.2⟩
      exact .inr ⟨before, a, between, split, same,
        List.forall_mem_append.mpr ⟨older, List.forall_mem_singleton.mpr newest⟩, b,
        List.mem_append_right _ (List.mem_singleton_self b), miss⟩

theorem after_last (history : List Block) (b : Block) :
    after p c (history ++ [b]) = (after p c history).bind fun m => (m.loadSector p c b).map Prod.snd := by
  simp only [after, List.foldlM_append, List.foldlM_cons, List.foldlM_nil, bind_pure]
  rfl

theorem fresh_missed (k : Block) : ¬ Hits k {} := by
  intro hits
  have known := k.cache_id_nonneg
  rw [← (hits.1 : -1 = k.cache_id)] at known
  exact absurd known (by decide)

/-- Every history leads to a state, and there the stream holds a sector of bad data exactly when it was read and kept, with
the wrong flag exactly when another one was not found since. -/
theorem after_spec (p : P64) (c : Chunks) (history : List Block) : ∃ m, after p c history = some m ∧ Sound p c m ∧
    ∀ k data, sectorOf p c k = some (false, data) → (Hits k m ↔ Read p c k history) ∧
      (Hits k m ∧ m.last_data_checksum_ok = true ↔ Passed p c k history) := by
  induction history using List.reverseRecOn with
  | nil =>
    refine ⟨{}, rfl, .fresh, fun k data bad => ⟨⟨fun hits => absurd hits (fresh_missed k), ?_⟩,
      fun hits => absurd hits.1 (fresh_missed k), ?_⟩⟩
    · rintro ⟨before, a, between, split, -⟩
      exact absurd split (by simp)
    · rintro ⟨before, a, between, split, -⟩
      exact absurd split (by simp)
  | append_singleton history b ih =>
    obtain ⟨m, before, sound, states⟩ := ih
    obtain ⟨r, loaded, outcome, kept⟩ := sound.loadSector (k := b)
    refine ⟨r.2, ?_, kept, fun k data bad => ?_⟩
    · rw [after_last, before, Option.bind_some, loaded, Option.map_some]
    · obtain ⟨held, wrong⟩ := outcome.hits bad
      obtain ⟨read, passed⟩ := states k data bad
      rw [wrong, held, passed, read, read_last, passed_last]
      exact ⟨Iff.rfl, Iff.rfl⟩

theorem Outcome.refused {r : Bool × P81} (outcome : Outcome p c k m r) (sound : Sound p c m) (none_ : sectorOf p c k = none) :
    r.1 = false := by
  cases outcome with
  | missing _ => rfl
  | undecoded n _ _ _ => rfl
  | notFound n _ _ _ _ _ => rfl
  | kept hits =>
    obtain ⟨ok, found, -⟩ := sound.sector k hits
    rw [none_] at found
    cases found
  | read n ok data found _ _ _ _ =>
    rw [none_] at found
    cases found

/-- What is served is the sector; the flag is that of the reading, or the one that was there. -/
theorem Outcome.served {r : Bool × P81} {ok : Bool} {data : List UInt8} (outcome : Outcome p c k m r) (sound : Sound p c m)
    (found : sectorOf p c k = some (ok, data)) : r.1 = true ∧ r.2.sector_buffer = k.part data ∧
      (Hits k m ∧ r.2.last_data_checksum_ok = m.last_data_checksum_ok ∧ (m.last_data_checksum_ok = ok ∨
        m.last_data_checksum_ok = true) ∨ ¬ Hits k m ∧ r.2.last_data_checksum_ok = ok) := by
  cases outcome with
  | missing none_ => exact absurd none_ (lookup_ne (cellsOf_ne found))
  | undecoded n _ none_ _ => exact absurd none_ (cellsOf_ne found)
  | notFound n _ none_ _ _ _ =>
    rw [none_] at found
    cases found
  | kept hits =>
    obtain ⟨ok', stored, flag⟩ := sound.sector k hits
    rw [found] at stored
    cases stored
    exact ⟨rfl, rfl, .inl ⟨hits, rfl, flag⟩⟩
  | read n ok' data' found' missed _ flag buffer =>
    rw [found] at found'
    cases found'
    exact ⟨rfl, buffer, .inr ⟨missed, flag⟩⟩

theorem transparent_eq {history : List Block} {r fresh : Bool × P81} (reached : after p c history = some m)
    (loaded : m.loadSector p c k = some r) (opened : loadSector p c k {} = some fresh) : Transparent p c k history ↔
      r.1 = fresh.1 ∧ (r.1 = true → r.2.sector_buffer = fresh.2.sector_buffer ∧
        r.2.last_data_checksum_ok = fresh.2.last_data_checksum_ok) := by
  constructor
  · rintro ⟨m', r', f', reached', loaded', opened', same⟩
    obtain rfl := Option.some.inj (reached.symm.trans reached')
    obtain rfl := Option.some.inj (loaded.symm.trans loaded')
    obtain rfl := Option.some.inj (opened.symm.trans opened')
    exact same
  · exact fun same => ⟨m, r, fresh, reached, loaded, opened, same⟩

/-- A sector that is served: whether the flag is that of its data. -/
theorem transparent_served {history : List Block} {ok : Bool} {data : List UInt8} (reached : after p c history = some m)
    (sound : Sound p c m) (found : sectorOf p c k = some (ok, data)) :
    Transparent p c k history ↔ (Hits k m → m.last_data_checksum_ok = ok) := by
  obtain ⟨r, loaded, outcome, -⟩ := sound.loadSector (k := k)
  obtain ⟨f, opened, fresh, -⟩ := Sound.fresh.loadSector (p := p) (c := c) (k := k)
  obtain ⟨served, buffer, flag⟩ := outcome.served sound found
  obtain ⟨served', buffer', flag'⟩ := fresh.served .fresh found
  have right : f.2.last_data_checksum_ok = ok := flag'.elim (fun held => absurd held.1 (fresh_missed k)) And.right
  rw [transparent_eq reached loaded opened, served, served', buffer, buffer', right]
  rcases flag with ⟨hits, unchanged, -⟩ | ⟨missed, read⟩
  · simp [unchanged, hits]
  · simp [read, missed]

theorem Stale.not_transparent {history : List Block} (stale : Stale p c k history) : ¬ Transparent p c k history := by
  obtain ⟨⟨data, bad⟩, before, a, between, split, track, physical, keeps, miss⟩ := stale
  obtain ⟨m, reached, sound, states⟩ := after_spec p c history
  obtain ⟨hits, wrong⟩ := (states k data bad).2.mpr ⟨before, a, between, split, ⟨track, physical⟩, keeps, miss⟩
  rw [transparent_served reached sound bad, wrong]
  exact fun right => Bool.noConfusion (right hits)

theorem transparent_of_not_stale {history : List Block} (fresh : ¬ Stale p c k history) : Transparent p c k history := by
  obtain ⟨m, reached, sound, states⟩ := after_spec p c history
  cases found : sectorOf p c k with
  | none =>
    obtain ⟨r, loaded, outcome, -⟩ := sound.loadSector (k := k)
    obtain ⟨f, opened, outcome', -⟩ := Sound.fresh.loadSector (p := p) (c := c) (k := k)
    have refused := outcome.refused sound found
    rw [transparent_eq reached loaded opened]
    exact ⟨refused.trans (outcome'.refused .fresh found).symm, fun served => Bool.noConfusion (refused.symm.trans served)⟩
  | some r =>
    obtain ⟨ok, data⟩ := r
    rw [transparent_served reached sound found]
    intro hits
    obtain ⟨ok', stored, flag⟩ := sound.sector k hits
    obtain rfl : ok = ok' := congrArg Prod.fst (Option.some.inj (found.symm.trans stored))
    cases ok with
    | true => exact flag.elim id id
    | false =>
      refine flag.resolve_right fun wrong => fresh ⟨⟨data, found⟩, ?_⟩
      obtain ⟨before, a, between, split, ⟨track, physical⟩, keeps, miss⟩ := (states k data found).2.mp ⟨hits, wrong⟩
      exact ⟨before, a, between, split, track, physical, keeps, miss⟩

/-- A call gives what it gives on a fresh stream, unless the sector's data is bad, the stream still holds it, and another
sector of its track was not found since. -/
theorem transparent_iff (p : P64) (c : Chunks) (k : Block) (history : List Block) :
    Transparent p c k history ↔ ¬ Stale p c k history :=
  ⟨fun same stale => stale.not_transparent same, transparent_of_not_stale⟩

end P81

end Meatloaf.Disk
