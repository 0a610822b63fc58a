import Meatloaf.Lib.Slots
import Meatloaf.Disk.Layout

/-! Block numbers of a medium, and the way back from a number to its track and sector. The tables are any
tables here; `Geometry.medium` gives those of the six classes. -/
namespace Meatloaf.Disk

open Lib

/- What the two walks over the zones ask for. -/
structure Medium where
  start_track : Nat
  end_track : Nat
  sectorCount : Nat → Nat
  dos_version : UInt8

namespace Medium

variable (m : Medium)

/- The sectors of the first `n` tracks. -/
def sectorOffset (n : Nat) : Nat := Slots.start (fun index => m.sectorCount (index + 1)) n

/-- `linearBlock`. The tracks are counted in 8 bits and the sectors before them in 16. -/
def linearBlock (track sector : Nat) : Option Nat :=
  if track < m.start_track ∨ track > m.end_track then none
  else if sector > m.sectorCount track then none
  else some (m.sectorOffset (if m.dos_version ≠ 0xFF then (track + 255) % 256 else track) % 65536 + sector)

/- The loop of `seekBlock`, from the track before the next one. -/
def seekLoop (index : Nat) : Nat → Nat → Nat → Option (Nat × Nat)
  | 0, _, _ => none
  | fuel + 1, track, sectorOffset =>
    let track := (track + 1) % 256
    let count := m.sectorCount track % 256
    if sectorOffset + count < index then seekLoop index fuel track ((sectorOffset + count) % 65536)
    else some (track, (index - sectorOffset) % 256)

/-- `seekBlock`: the track and the sector that it comes to. -/
def seekBlock (index fuel : Nat) : Option (Nat × Nat) := m.seekLoop index fuel 0 0

/- A table of the constructors: a medium whose tracks start at 0 has few sectors a track, and on any other
the blocks have 16-bit numbers. -/
structure Table : Prop where
  tracks : m.end_track < 256
  positive : ∀ t, 0 < m.sectorCount t
  from_one : m.dos_version ≠ 0xFF → 1 ≤ m.start_track ∧ m.sectorOffset m.end_track ≤ 65536
  from_zero : m.dos_version = 0xFF → ∀ t, m.sectorCount t ≤ 255

/-- The number `index` that a track and a sector are given is theirs alone, and leads back to them. -/
structure Exact (track sector index : Nat) : Prop where
  inside : sector < m.sectorCount track
  alone : ∀ t x, m.linearBlock t x = some index → t = track ∧ x = sector
  back : ∃ fuel, m.seekBlock index fuel = some (track, sector)

/- What the loop has added up after `n` tracks. -/
def passed (n : Nat) : Nat := Slots.start (fun k => m.sectorCount ((k + 1) % 256) % 256) n

/-- The sector is one that 8 bits can count to, it is not the first of a track, or the first of all, and what
the loop adds up before the track are the sectors before it. -/
def Found (track sector : Nat) : Prop :=
  m.dos_version ≠ 0xFF ∧ sector < m.sectorCount track ∧ sector ≤ m.sectorCount track % 256 ∧
    ∃ n, (n + 1) % 256 = track ∧ (0 < sector ∨ n = 0) ∧ m.passed n = m.sectorOffset (track - 1)

variable {m}

theorem passed_succ (n : Nat) : m.passed (n + 1) = m.passed n + m.sectorCount ((n + 1) % 256) % 256 :=
  Slots.start_succ _ n

/-- The loop stops at the first track whose end the number does not lie behind. -/
theorem seekLoop_some {index fuel n : Nat} (low : index ≤ 65536) {r : Nat × Nat} :
    m.seekLoop index fuel (n % 256) (m.passed n) = some r ↔
      ∃ k, n ≤ k ∧ k < n + fuel ∧ (n < k → m.passed k < index) ∧ index ≤ m.passed (k + 1) ∧
        r = ((k + 1) % 256, (index - m.passed k) % 256) := by
  induction fuel generalizing n with
  | zero =>
    constructor
    · intro no
      cases no
    · rintro ⟨k, here, before, -⟩
      omega
  | succ fuel ih =>
    have track : (n % 256 + 1) % 256 = (n + 1) % 256 := by omega
    rw [seekLoop, track, ← passed_succ]
    split
    · rename_i behind
      rw [Nat.mod_eq_of_lt (show m.passed (n + 1) < 65536 by omega), ih]
      constructor
      · rintro ⟨k, here, before, passes, stops, rfl⟩
        refine ⟨k, by omega, by omega, fun _ => ?_, stops, rfl⟩
        rcases Nat.lt_or_eq_of_le here with later | rfl
        · exact passes later
        · exact behind
      · rintro ⟨k, here, before, passes, stops, rfl⟩
        have later : n ≠ k := by
          rintro rfl
          omega
        exact ⟨k, by omega, by omega, fun _ => passes (by omega), stops, rfl⟩
    · rename_i within
      constructor
      · rintro same
        cases same
        exact ⟨n, Nat.le_refl n, by omega, fun no => absurd no (Nat.lt_irrefl n), Nat.le_of_not_lt within, rfl⟩
      · rintro ⟨k, here, -, passes, -, rfl⟩
        rcases Nat.lt_or_eq_of_le here with later | rfl
        · have before : m.passed (n + 1) ≤ m.passed k := Slots.start_mono later
          have less := passes later
          omega
        · rfl

/-- Where the search for a number ends. -/
theorem seekBlock_some {index track sector : Nat} (low : index ≤ 65536) :
    (∃ fuel, m.seekBlock index fuel = some (track, sector)) ↔
      ∃ n, (n + 1) % 256 = track ∧ (0 < sector ∨ n = 0) ∧ m.passed n + sector = index ∧
        sector ≤ m.sectorCount track % 256 := by
  have loop : ∀ fuel r, m.seekBlock index fuel = some r ↔ ∃ k, 0 ≤ k ∧ k < 0 + fuel ∧ (0 < k → m.passed k < index) ∧
      index ≤ m.passed (k + 1) ∧ r = ((k + 1) % 256, (index - m.passed k) % 256) :=
    fun fuel r => seekLoop_some (n := 0) low
  constructor
  · rintro ⟨fuel, run⟩
    obtain ⟨n, -, -, passes, stops, same⟩ := (loop fuel _).mp run
    obtain ⟨rfl, rfl⟩ := Prod.mk.inj same
    have byte := Nat.mod_lt (m.sectorCount ((n + 1) % 256)) (show 0 < 256 by decide)
    rw [passed_succ] at stops
    rcases Nat.eq_zero_or_pos n with rfl | later
    · have none : m.passed 0 = 0 := rfl
      exact ⟨0, rfl, .inr rfl, by omega, by omega⟩
    · have before := passes later
      exact ⟨n, rfl, .inl (by omega), by omega, by omega⟩
  · rintro ⟨n, rfl, first, here, within⟩
    have byte := Nat.mod_lt (m.sectorCount ((n + 1) % 256)) (show 0 < 256 by decide)
    refine ⟨n + 1, (loop _ _).mpr ⟨n, Nat.zero_le n, by omega, fun later => by omega, ?_, ?_⟩⟩
    · rw [passed_succ]
      omega
    · rw [show index - m.passed n = sector by omega, Nat.mod_eq_of_lt (show sector < 256 by omega)]

theorem linearBlock_accepted {track sector index : Nat} (accepted : m.linearBlock track sector = some index) :
    m.start_track ≤ track ∧ track ≤ m.end_track ∧ sector ≤ m.sectorCount track ∧
      index = m.sectorOffset (if m.dos_version ≠ 0xFF then (track + 255) % 256 else track) % 65536 + sector := by
  unfold linearBlock at accepted
  split at accepted
  · cases accepted
  · split at accepted
    · cases accepted
    · exact ⟨by omega, by omega, by omega, (Option.some.inj accepted).symm⟩

theorem sectorOffset_track {t : Nat} (positive : 1 ≤ t) :
    m.sectorOffset t = m.sectorOffset (t - 1) + m.sectorCount t := by
  obtain ⟨n, rfl⟩ : ∃ n, t = n + 1 := ⟨t - 1, by omega⟩
  exact Slots.start_succ _ n

/- On a medium whose tracks start at 1 no counter runs over. -/
theorem linearBlock_one (table : m.Table) (one : m.dos_version ≠ 0xFF) {track sector index : Nat}
    (accepted : m.linearBlock track sector = some index) :
    1 ≤ track ∧ track ≤ m.end_track ∧ sector ≤ m.sectorCount track ∧ index = m.sectorOffset (track - 1) + sector ∧
      m.sectorOffset (track - 1) + m.sectorCount track ≤ 65536 := by
  obtain ⟨low, high, within, number⟩ := linearBlock_accepted accepted
  obtain ⟨from_one, few⟩ := table.from_one one
  have tracks := table.tracks
  have positive := table.positive track
  have all : m.sectorOffset track ≤ m.sectorOffset m.end_track := Slots.start_mono high
  rw [sectorOffset_track (by omega)] at all
  rw [if_pos one, show (track + 255) % 256 = track - 1 by omega, Nat.mod_eq_of_lt (by omega)] at number
  exact ⟨by omega, high, within, number, by omega⟩

/- On the other ones the loop adds up as many sectors as there are. -/
theorem passed_zero (few : ∀ t, m.sectorCount t ≤ 255) {n : Nat} (tracks : n < 256) :
    m.passed n = m.sectorOffset n := by
  apply Slots.start_congr
  intro i before
  have byte := few (i + 1)
  rw [Nat.mod_eq_of_lt (show i + 1 < 256 by omega), Nat.mod_eq_of_lt (by omega)]

theorem sectorOffset_few (few : ∀ t, m.sectorCount t ≤ 255) (n : Nat) : m.sectorOffset n ≤ 255 * n := by
  induction n with
  | zero => exact Nat.le_refl 0
  | succ n ih =>
    have step : m.sectorOffset (n + 1) = m.sectorOffset n + m.sectorCount (n + 1) := Slots.start_succ _ n
    have most := few (n + 1)
    omega

/- There the number of a block is one that the loop finds on another track. -/
theorem not_exact_zero (table : m.Table) (zero : m.dos_version = 0xFF) {track sector index : Nat}
    (accepted : m.linearBlock track sector = some index) : ¬ m.Exact track sector index := by
  rintro ⟨inside, -, back⟩
  obtain ⟨-, high, -, number⟩ := linearBlock_accepted accepted
  have few := table.from_zero zero
  have tracks := table.tracks
  have most := sectorOffset_few few track
  have byte := few track
  rw [if_neg (fun no => no zero), Nat.mod_eq_of_lt (by omega)] at number
  obtain ⟨n, here, -, place, -⟩ := (seekBlock_some (by omega)).mp back
  have positive : ∀ k, 0 < m.sectorCount ((k + 1) % 256) % 256 := by
    intro k
    have some := table.positive ((k + 1) % 256)
    have byte := few ((k + 1) % 256)
    omega
  have same : m.passed n = m.passed track := by
    rw [passed_zero few (show track < 256 by omega)]
    omega
  cases Slots.start_inj positive same
  omega

/-- A track and a sector have a number of their own that leads back to them exactly when the loop finds it. -/
theorem exact_iff (table : m.Table) {track sector index : Nat}
    (accepted : m.linearBlock track sector = some index) : m.Exact track sector index ↔ m.Found track sector := by
  by_cases one : m.dos_version ≠ 0xFF
  · obtain ⟨low, high, within, number, few⟩ := linearBlock_one table one accepted
    have found := @seekBlock_some m index track sector (show index ≤ 65536 by omega)
    constructor
    · rintro ⟨inside, -, back⟩
      obtain ⟨n, here, first, place, byte⟩ := found.mp back
      exact ⟨one, inside, byte, n, here, first, by omega⟩
    · rintro ⟨-, inside, byte, n, here, first, place⟩
      refine ⟨inside, ?_, found.mpr ⟨n, here, first, by omega, byte⟩⟩
      intro t x other
      obtain ⟨low', high', within', number', -⟩ := linearBlock_one table one other
      have inside' : sector < m.sectorCount (track - 1 + 1) := by
        rw [Nat.sub_add_cancel low]
        exact inside
      have within'' : x ≤ m.sectorCount (t - 1 + 1) := by
        rw [Nat.sub_add_cancel low']
        exact within'
      rcases Slots.place_eq (w := fun index => m.sectorCount (index + 1)) inside' within''
        (show m.sectorOffset (track - 1) + sector = m.sectorOffset (t - 1) + x by omega) with
        ⟨same, same'⟩ | ⟨start, earlier⟩
      · exact ⟨by omega, same'⟩
      · -- only the first track of all has no track before it
        rcases first with later | rfl
        · omega
        · omega
  · refine ⟨fun exact_ => absurd exact_ (not_exact_zero table (not_not.mp one) accepted), ?_⟩
    rintro ⟨no, -⟩
    exact absurd no one

/- With few sectors on the tracks before, it is the first sector of a track that is not found. -/
theorem found_few {track sector : Nat} (one : m.dos_version ≠ 0xFF) (range : 1 ≤ track ∧ track < 256)
    (few : ∀ t, m.sectorCount t ≤ 255) :
    m.Found track sector ↔ sector < m.sectorCount track ∧ (0 < sector ∨ track = 1) := by
  have byte := few track
  constructor
  · rintro ⟨-, inside, -, n, here, first, -⟩
    refine ⟨inside, first.imp_right ?_⟩
    rintro rfl
    exact here.symm
  · rintro ⟨inside, first⟩
    refine ⟨one, inside, ?_, track - 1, by omega, first.imp_right (by omega), passed_zero few (by omega)⟩
    rw [Nat.mod_eq_of_lt (by omega)]
    omega

end Medium

namespace Geometry

theorem zone_le (a b c t : Nat) : Format.zone a b c t ≤ 3 := by
  unfold Format.zone
  split <;> split <;> split <;> decide

/- No track of any class is without sectors. -/
theorem sectors_positive (g : Geometry) (t : Nat) : 0 < g.getSectorCount t := by
  have four : ∀ a b c d : Nat, 0 < a → 0 < b → 0 < c → 0 < d → ∀ n ≤ 3, 0 < [a, b, c, d].getD n 0 := by
    intro a b c d ha hb hc hd n most
    match n, most with
    | 0, _ => exact ha
    | 1, _ => exact hb
    | 2, _ => exact hc
    | 3, _ => exact hd
  unfold getSectorCount
  cases g.format with
  | d64 => exact four 17 18 19 21 (by decide) (by decide) (by decide) (by decide) _ (zone_le _ _ _ _)
  | d71 =>
    apply four 17 18 19 21 (by decide) (by decide) (by decide) (by decide)
    unfold Format.speedZone
    dsimp only
    split
    · exact zone_le _ _ _ _
    · exact zone_le _ _ _ _
  | d80 => exact four 23 25 27 29 (by decide) (by decide) (by decide) (by decide) _ (zone_le _ _ _ _)
  | d82 =>
    apply four 23 25 27 29 (by decide) (by decide) (by decide) (by decide)
    unfold Format.speedZone
    dsimp only
    split
    · exact zone_le _ _ _ _
    · exact zone_le _ _ _ _
  | d81 => exact (by decide : 0 < 40)
  | dnp => exact (by decide : 0 < 256)

/- The tables of a class. -/
def medium (g : Geometry) : Medium := ⟨g.first_track, g.last_track, g.getSectorCount, g.format.dos_version⟩

theorem medium_offset (g : Geometry) (t : Nat) : g.medium.sectorOffset (t - 1) = g.sectorOffset t := rfl

theorem Valid.table {g : Geometry} (v : g.Valid) (small : g.blockCount ≤ 65536) : g.medium.Table where
  tracks := by
    have last := v.last
    show g.last_track < 256
    omega
  positive := g.sectors_positive
  from_one _ := ⟨Nat.le_of_eq v.first.symm, small⟩
  from_zero no := by
    have other : g.format.dos_version ≠ 0xFF := by
      unfold Format.dos_version
      split <;> decide
    exact absurd no other

/-- The classes number their blocks as their tables say. -/
theorem medium_linearBlock {g : Geometry} (v : g.Valid) (small : g.blockCount ≤ 65536) (track sector : Nat) :
    g.medium.linearBlock track sector = g.linearBlock track sector := by
  have other : g.format.dos_version ≠ 0xFF := by
    unfold Format.dos_version
    split <;> decide
  unfold Medium.linearBlock Geometry.linearBlock
  show (if track < g.first_track ∨ track > g.last_track then none else if sector > g.getSectorCount track then none
    else some (g.medium.sectorOffset (if g.format.dos_version ≠ 0xFF then (track + 255) % 256 else track) % 65536 +
      sector)) = _
  split
  · rfl
  · rename_i range
    split
    · rfl
    · have first := v.first
      have last := v.last
      have few := g.sectorOffset_mono (t := track) (u := g.last_track + 1) (by omega) (by omega)
      have some := (v.track track (by omega) (by omega)).nonempty
      unfold blockCount at small
      rw [show (track + 255) % 256 = track - 1 by omega, medium_offset,
        Nat.mod_eq_of_lt (by omega)]

end Geometry

namespace Medium

/- The tables of a D64 with 35 tracks. -/
def d64 : Medium := Format.d64.standard.medium

theorem d64_table : d64.Table :=
  (Format.geometry_valid .d64 174848 (0, 0) (fun no => nomatch no)).table (by decide)

/-- The first sector of track 2 and the sector behind the last one of track 1 have one number. -/
theorem seekBlock_before : d64.linearBlock 2 0 = some 21 ∧ d64.linearBlock 1 21 = some 21 ∧
    ¬ d64.Exact 2 0 21 := by
  refine ⟨by decide, by decide, ?_⟩
  rintro ⟨-, alone, -⟩
  exact absurd (alone 1 21 (by decide)).1 (by decide)

theorem exact_iff_sample : d64.Exact 2 1 22 :=
  (exact_iff d64_table (by decide)).mpr
    ⟨by decide, by decide, by decide, 1, rfl, .inl Nat.one_pos, by decide⟩

end Medium

end Meatloaf.Disk
