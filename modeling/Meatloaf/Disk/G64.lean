import Meatloaf.Disk.Stream

/-! `G64MStream`: the sectors of a track as the head of a drive would see them. A track is a stretch of the container;
its sectors are found by their sync marks, and their bytes are group coded. -/
namespace Meatloaf

open Lib

/- A read into a buffer; a short one leaves the rest of it alone. -/
def Container.readInto (c : Container) (buf : List UInt8) : List UInt8 × Container :=
  let r := c.read buf.length
  (r.1 ++ buf.drop r.1.length, r.2)

/- The bytes of a little-endian number. -/
def bytesLE : Nat → Nat → List UInt8
  | 0, _ => []
  | n + 1, v => UInt8.ofNat v :: bytesLE n (v / 256)

def wordLE : List UInt8 → Nat
  | [] => 0
  | b :: bytes => b.toNat + 256 * wordLE bytes

namespace Disk

def gcr_decode_high : List UInt8 := [
  0xff, 0xff, 0xff, 0xff, 0xff, 0xff, 0xff, 0xff, 0xff, 0x80, 0x00, 0x10, 0xff, 0xc0, 0x40, 0x50,
  0xff, 0xff, 0x20, 0x30, 0xff, 0xf0, 0x60, 0x70, 0xff, 0x90, 0xa0, 0xb0, 0xff, 0xd0, 0xe0, 0xff]

def gcr_decode_low : List UInt8 := [
  0xff, 0xff, 0xff, 0xff, 0xff, 0xff, 0xff, 0xff, 0xff, 0x08, 0x00, 0x01, 0xff, 0x0c, 0x04, 0x05,
  0xff, 0xff, 0x02, 0x03, 0xff, 0x0f, 0x06, 0x07, 0xff, 0x09, 0x0a, 0x0b, 0xff, 0x0d, 0x0e, 0xff]

/- Five bytes of group code are four bytes. -/
def convert4BytesFromGCR (gcr : List UInt8) : List UInt8 :=
  let g (i : Nat) := gcr.getD i 0
  let plain (high low : UInt8) := gcr_decode_high.getD (high &&& 0x1f).toNat 0xff |||
    gcr_decode_low.getD (low &&& 0x1f).toNat 0xff
  [plain (g 0 >>> 3) (g 0 <<< 2 ||| g 1 >>> 6), plain (g 1 >>> 1) (g 1 <<< 4 ||| g 2 >>> 4),
    plain (g 2 <<< 1 ||| g 3 >>> 7) (g 3 >>> 2), plain (g 3 <<< 3 ||| g 4 >>> 5) (g 4)]

structure SectorHeader where
  code : UInt8
  checksum : UInt8
  sector : UInt8
  track : UInt8
  id1 : UInt8
  id0 : UInt8

/- A G64, or a G71 with its own geometry. The size of a stream is a `uint32_t`. -/
structure G64 where
  geo : Geometry
  container : Container
  small : container.size < 2 ^ 32

namespace G64

/-- `readSectorHeader`: whether it is one, the header, and the container behind it. -/
def readSectorHeader (c : Container) : Bool × SectorHeader × Container :=
  let first := c.readInto (List.replicate 5 0)
  let second := first.2.readInto first.1
  let a := convert4BytesFromGCR first.1
  let b := convert4BytesFromGCR second.1
  let h : SectorHeader := ⟨a.getD 0 0, a.getD 1 0, a.getD 2 0, a.getD 3 0, b.getD 0 0, b.getD 1 0⟩
  (h.code == 0x08 && h.checksum ^^^ h.sector ^^^ h.track ^^^ h.id1 ^^^ h.id0 == 0, h, second.2)

/- The groups that follow, each read into the buffer of the one before. -/
def readGroups : Nat → List UInt8 → Container → List UInt8
  | 0, _, _ => []
  | n + 1, buf, c =>
    let r := c.readInto buf
    convert4BytesFromGCR r.1 ++ readGroups n r.1 r.2

/-- `readSector`: whether a data block starts here, and what is copied into the buffer. -/
def readSector (c : Container) : Bool × List UInt8 :=
  let first := c.readInto (List.replicate 5 0)
  let data := convert4BytesFromGCR first.1
  (data.getD 0 0 == 0x07, data.drop 1 ++ readGroups 64 first.1 first.2)

/- The byte that completes a sync: it is all ones, and so are the last two bits before it. `last` is the byte read
before, which a read behind the end leaves in place. -/
def scanSync (track_end : Nat) : Nat → UInt8 → Container → Option (Bool × UInt8 × Container)
  | 0, _, _ => none
  | fuel + 1, last, c =>
    if track_end ≤ (c.pos + 1) % 2 ^ 32 then some (false, last, c.seek track_end)
    else
      let r := c.readInto [last]
      let byte := r.1.getD 0 0
      if last &&& 0x03 = 0x03 ∧ byte = 0xff then some (true, byte, r.2) else scanSync track_end fuel byte r.2

/- The rest of the sync, and one byte back. -/
def skipSync (track_end : Nat) : Nat → UInt8 → Container → Option Container
  | 0, _, _ => none
  | fuel + 1, last, c =>
    let r := c.readInto [last]
    let byte := r.1.getD 0 0
    if r.2.pos < track_end ∧ byte = 0xff then skipSync track_end fuel byte r.2
    else some (r.2.seek ((r.2.pos + 2 ^ 32 - 1) % 2 ^ 32))

/-- `findSync`, with at most `fuel` passes of either loop. -/
def findSync (track_end fuel : Nat) (c : Container) : Option (Bool × Container) :=
  match scanSync track_end fuel 0 c with
  | none => none
  | some (false, _, c) => some (false, c)
  | some (true, byte, c) => (skipSync track_end fuel byte c).map fun c => (true, c)

/- The loop over pairs of syncs. What it finds is the start of a header and the container at the sync behind it. -/
def findSector (track_end fuel sector : Nat) : Nat → Container → Option (Option (Nat × Container))
  | 0, _ => some none
  | guard + 1, c =>
    match findSync track_end fuel c with
    | none => none
    | some (false, _) => some none
    | some (true, c) =>
      let header := readSectorHeader c
      match findSync track_end fuel header.2.2 with
      | none => none
      | some (false, _) => some none
      | some (true, d) =>
        if header.1 ∧ sector = header.2.1.sector.toNat then some (some (c.pos, d))
        else findSector track_end fuel sector guard d

/- What `seekSector` leaves: where header and data were decoded, and the buffer. -/
structure Decoded where
  header : Nat
  data : Nat
  sector_buffer : List UInt8

variable (s : G64)

def TRACK_TABLE_OFFSET : Nat := 0x0C

/- Where the entry of a track lies; a track has two, one for its half track. -/
def tablePlace (track : Nat) : Nat := TRACK_TABLE_OFFSET + (track - 1) * 2 % 256 * 4

/-- The entry of a track, as it is read over the address of the entry. -/
def entry (track : Nat) : Nat :=
  wordLE ((s.container.seek (tablePlace track)).readInto (bytesLE 4 (tablePlace track))).1

/-- The length of its data. -/
def length (track : Nat) : Nat := wordLE ((s.container.seek (s.entry track)).readInto (bytesLE 2 0)).1

/- Where the data ends, and where the search for a sector starts; both are `uint32_t`. -/
def track_end (track : Nat) : Nat := (s.entry track + 2 + s.length track) % 2 ^ 32

def sectorOffset (track sector : Nat) : Nat := (s.entry track + 2 + sector * 360) % 2 ^ 32

/- The track is on the medium, and the sector on the track or one behind its last. -/
def Accepts (track sector : Nat) : Prop :=
  s.geo.first_track ≤ track ∧ track ≤ s.geo.last_track ∧ sector ≤ s.geo.getSectorCount track

instance (track sector : Nat) : Decidable (s.Accepts track sector) := by unfold Accepts; infer_instance

/-- `seekSector`: `none` when the fuel is not enough, otherwise what it found. -/
def seekSector (fuel track sector : Nat) : Option (Option Decoded) :=
  if s.Accepts track sector then
    match findSector (s.track_end track) fuel sector 64 (s.container.seek (s.sectorOffset track sector)) with
    | none => none
    | some none => some none
    | some (some (header, c)) =>
      let r := readSector c
      some (if r.1 then some ⟨header, c.pos, r.2⟩ else none)
  else some none

/- The sync mark goes up at `f`. -/
def Mark (c : Container) (f : Nat) : Prop := c.data (f - 1) &&& 0x03 = 0x03 ∧ c.data f = 0xff

instance (c : Container) (f : Nat) : Decidable (Mark c f) := by unfold Mark; infer_instance

/-- What follows the first sync behind `p` starts at `q`. A sync may run up to the end of the track. -/
structure NextSync (c : Container) (stop p q f : Nat) : Prop where
  mark : p < f ∧ f + 1 < stop ∧ Mark c f
  first : ∀ k, p < k → k < f → ¬ Mark c k
  behind : f < q ∧ q < stop ∧ q < c.size
  run : ∀ k, f < k → k < q → c.data k = 0xff
  last : c.data q ≠ 0xff ∨ q + 1 = stop

section sync

variable {c : Container} {stop : Nat}

theorem readInto_byte {p : Nat} (inside : p < c.size) (last : UInt8) :
    (c.seek p).readInto [last] = ([c.data p], c.seek (p + 1)) := by
  have one : min 1 (c.size - p) = 1 := by omega
  simp only [Container.readInto, Container.read, Container.seek, List.length_singleton, one, Store.length_read]
  rfl

theorem readInto_end {p : Nat} (exceeds : c.size ≤ p) (last : UInt8) : (c.seek p).readInto [last] = ([last], c.seek p) := by
  have none : min 1 (c.size - p) = 0 := by omega
  simp only [Container.readInto, Container.read, Container.seek, List.length_singleton, none]
  rfl

/- A search that started at `p` has come to `pos`. -/
structure Scanning (c : Container) (stop p pos : Nat) (last : UInt8) : Prop where
  known : (pos = p ∧ last = 0) ∨ (p < pos ∧ pos < stop ∧ pos ≤ c.size ∧ last = c.data (pos - 1))
  clear : ∀ k, p < k → k < pos → ¬ Mark c k

/- The byte at the position completes a sync. -/
theorem Scanning.mark {p pos : Nat} {last : UInt8} (h : Scanning c stop p pos last) :
    (last &&& 0x03 = 0x03 ∧ c.data pos = 0xff) ↔ p < pos ∧ Mark c pos := by
  rcases h.known with ⟨rfl, rfl⟩ | ⟨later, -, -, rfl⟩
  · constructor
    · rintro ⟨zero, -⟩
      exact absurd zero (by decide)
    · rintro ⟨less, -⟩
      exact absurd less (Nat.lt_irrefl _)
  · exact ⟨fun mark => ⟨later, mark⟩, fun mark => mark.2⟩

theorem Scanning.next {p pos : Nat} {last : UInt8} (h : Scanning c stop p pos last) (inside : pos < c.size)
    (room : pos + 1 < stop) (none : ¬ (last &&& 0x03 = 0x03 ∧ c.data pos = 0xff)) :
    Scanning c stop p (pos + 1) (c.data pos) where
  known := .inr ⟨by rcases h.known with ⟨rfl, -⟩ | ⟨later, -⟩ <;> omega, room, inside, rfl⟩
  clear k low high := by
    by_cases here : k = pos
    · subst here
      exact fun mark => none (h.mark.mpr ⟨low, mark⟩)
    · exact h.clear k low (by omega)

variable (small : c.size < 2 ^ 32)
include small

/- A sync that is found ends inside the container, or there is nothing left of it. -/
theorem scanSync_found {p pos fuel : Nat} {last byte : UInt8} {c' : Container} (h : Scanning c stop p pos last)
    (run : scanSync stop fuel last (c.seek pos) = some (true, byte, c')) :
    byte = 0xff ∧ ((∃ f, p < f ∧ f + 1 < stop ∧ f < c.size ∧ Mark c f ∧ (∀ k, p < k → k < f → ¬ Mark c k) ∧
      c' = c.seek (f + 1)) ∨ ∃ e, c.size ≤ e ∧ e < stop ∧ c' = c.seek e) := by
  induction fuel generalizing pos last with
  | zero => cases run
  | succ fuel ih =>
    rw [scanSync] at run
    split at run
    · cases run
    · rename_i room
      replace room : (pos + 1) % 2 ^ 32 < stop := Nat.lt_of_not_le room
      by_cases inside : pos < c.size
      · rw [Nat.mod_eq_of_lt (by omega)] at room
        rw [readInto_byte inside] at run
        dsimp only [List.getD_cons_zero] at run
        split at run
        · rename_i mark
          obtain ⟨low, found⟩ := h.mark.mp mark
          obtain ⟨rfl, rfl⟩ := Prod.mk.inj (Prod.mk.inj (Option.some.inj run)).2
          exact ⟨mark.2, .inl ⟨pos, low, room, inside, found, h.clear, rfl⟩⟩
        · rename_i none
          exact ih (h.next inside room none) run
      · -- the same byte over and over
        rw [readInto_end (by omega)] at run
        dsimp only [List.getD_cons_zero] at run
        split at run
        · rename_i mark
          obtain ⟨rfl, rfl⟩ := Prod.mk.inj (Prod.mk.inj (Option.some.inj run)).2
          rcases h.known with ⟨-, rfl⟩ | ⟨-, less, -⟩
          · exact absurd mark.1 (by decide)
          · exact ⟨mark.2, .inr ⟨pos, by omega, less, rfl⟩⟩
        · exact ih h run

/- The rest of a sync. -/
theorem skipSync_found {pos fuel : Nat} {c' : Container} (below : pos < stop)
    (run : skipSync stop fuel 0xff (c.seek pos) = some c') :
    ∃ q, pos ≤ q ∧ q < stop ∧ q < c.size ∧ (∀ k, pos ≤ k → k < q → c.data k = 0xff) ∧
      (c.data q ≠ 0xff ∨ q + 1 = stop) ∧ c' = c.seek q := by
  induction fuel generalizing pos with
  | zero => cases run
  | succ fuel ih =>
    rw [skipSync] at run
    by_cases inside : pos < c.size
    · rw [readInto_byte inside] at run
      change (if pos + 1 < stop ∧ c.data pos = 0xff then skipSync stop fuel (c.data pos) (c.seek (pos + 1))
        else some (c.seek ((pos + 1 + 2 ^ 32 - 1) % 2 ^ 32))) = some c' at run
      split at run
      · rename_i more
        rw [more.2] at run
        obtain ⟨q, after, high, within, ones, last, rfl⟩ := ih more.1 run
        refine ⟨q, by omega, high, within, fun k lower upper => ?_, last, rfl⟩
        by_cases here : k = pos
        · rw [here]
          exact more.2
        · exact ones k (by omega) upper
      · rename_i ends
        refine ⟨pos, Nat.le_refl _, below, inside, fun k lower upper => by omega, ?_, ?_⟩
        · by_contra both
          push Not at both
          exact ends ⟨by omega, both.1⟩
        · rw [show (pos + 1 + 2 ^ 32 - 1) % 2 ^ 32 = pos by omega] at run
          exact (Option.some.inj run).symm
    · rw [readInto_end (by omega)] at run
      change (if pos < stop ∧ (0xff : UInt8) = 0xff then skipSync stop fuel 0xff (c.seek pos)
        else some (c.seek ((pos + 2 ^ 32 - 1) % 2 ^ 32))) = some c' at run
      rw [if_pos ⟨below, rfl⟩] at run
      exact ih below run

/-- `findSync` finds the next sync, or does not say so. -/
theorem findSync_found {p fuel : Nat} {c' : Container} (run : findSync stop fuel (c.seek p) = some (true, c')) :
    ∃ q f, NextSync c stop p q f ∧ c' = c.seek q := by
  unfold findSync at run
  split at run
  · cases run
  · cases run
  · rename_i byte d scanned
    obtain ⟨c'', skipped, same⟩ := Option.map_eq_some_iff.mp run
    obtain rfl := (Prod.mk.inj same).2
    obtain ⟨rfl, found⟩ := scanSync_found small ⟨.inl ⟨rfl, rfl⟩, fun k low high => by omega⟩ scanned
    rcases found with ⟨f, low, room, inside, mark, first, rfl⟩ | ⟨e, exceeds, below, rfl⟩
    · obtain ⟨q, after, high, within, ones, last, rfl⟩ := skipSync_found small room skipped
      exact ⟨q, f, ⟨⟨low, room, mark⟩, first, ⟨after, high, within⟩, ones, last⟩, rfl⟩
    · obtain ⟨q, after, -, within, -⟩ := skipSync_found small below skipped
      omega

/- The search goes on up to the mark. -/
theorem scanSync_marks {p pos f fuel : Nat} {last : UInt8} (h : Scanning c stop p pos last) (reach : pos ≤ f)
    (low : p < f) (room : f + 1 < stop) (inside : f < c.size) (mark : Mark c f)
    (first : ∀ k, p < k → k < f → ¬ Mark c k) (enough : f - pos < fuel) :
    scanSync stop fuel last (c.seek pos) = some (true, 0xff, c.seek (f + 1)) := by
  induction fuel generalizing pos last with
  | zero => omega
  | succ fuel ih =>
    rw [scanSync, readInto_byte (by omega)]
    change (if stop ≤ (pos + 1) % 2 ^ 32 then some (false, last, c.seek stop)
      else if last &&& 0x03 = 0x03 ∧ c.data pos = 0xff then some (true, c.data pos, c.seek (pos + 1))
        else scanSync stop fuel (c.data pos) (c.seek (pos + 1))) = _
    rw [if_neg (show ¬ stop ≤ (pos + 1) % 2 ^ 32 by omega)]
    by_cases here : pos = f
    · subst here
      rw [if_pos (h.mark.mpr ⟨low, mark⟩), mark.2]
    · have none : ¬ (last &&& 0x03 = 0x03 ∧ c.data pos = 0xff) := by
        intro both
        obtain ⟨later, early⟩ := h.mark.mp both
        exact first pos later (by omega) early
      rw [if_neg none]
      exact ih (h.next (by omega) (by omega) none) (by omega) (by omega)

theorem skipSync_skips {pos q fuel : Nat} (reach : pos ≤ q) (below : q < stop) (inside : q < c.size)
    (run : ∀ k, pos ≤ k → k < q → c.data k = 0xff) (last : c.data q ≠ 0xff ∨ q + 1 = stop) (enough : q - pos < fuel)
    (byte : UInt8) : skipSync stop fuel byte (c.seek pos) = some (c.seek q) := by
  induction fuel generalizing pos byte with
  | zero => omega
  | succ fuel ih =>
    rw [skipSync, readInto_byte (by omega)]
    change (if pos + 1 < stop ∧ c.data pos = 0xff then skipSync stop fuel (c.data pos) (c.seek (pos + 1))
      else some (c.seek ((pos + 1 + 2 ^ 32 - 1) % 2 ^ 32))) = _
    by_cases here : pos = q
    · subst here
      have ends : ¬ (pos + 1 < stop ∧ c.data pos = 0xff) := by
        rintro ⟨room, ones⟩
        rcases last with other | final
        · exact other ones
        · omega
      rw [if_neg ends, show (pos + 1 + 2 ^ 32 - 1) % 2 ^ 32 = pos by omega]
    · rw [if_pos ⟨by omega, run pos (Nat.le_refl _) (by omega)⟩]
      exact ih (by omega) (fun k lower upper => run k (by omega) upper) (by omega) _

/-- With as much fuel as the track is long `findSync` finds the next sync. -/
theorem findSync_finds {p q f fuel : Nat} (next : NextSync c stop p q f) (enough : stop ≤ fuel) :
    findSync stop fuel (c.seek p) = some (true, c.seek q) := by
  obtain ⟨low, room, mark⟩ := next.mark
  obtain ⟨after, below, inside⟩ := next.behind
  have scan : scanSync stop fuel 0 (c.seek p) = some (true, 0xff, c.seek (f + 1)) :=
    scanSync_marks small ⟨.inl ⟨rfl, rfl⟩, fun k low high => by omega⟩ (by omega) low room (by omega) mark next.first
      (by omega)
  have skip : skipSync stop fuel 0xff (c.seek (f + 1)) = some (c.seek q) :=
    skipSync_skips small (by omega) below inside (fun k lower upper => next.run k (by omega) upper) next.last (by omega)
      0xff
  simp only [findSync, scan, skip, Option.map_some]

end sync

section sectors

variable (c : Container) (stop sector : Nat)

/- A header of the sector stands at `h`. -/
def Heads (h : Nat) : Prop :=
  (readSectorHeader (c.seek h)).1 = true ∧ sector = (readSectorHeader (c.seek h)).2.1.sector.toNat

instance (h : Nat) : Decidable (Heads c sector h) := by unfold Heads; infer_instance

/-- The syncs from `p` on, taken in turn for that of a header and that of its data, come to a header of the sector at
`h` and to its data at `d`, after at most so many pairs. -/
inductive Shows : Nat → Nat → Nat → Nat → Prop where
  | here {n p h d f f' : Nat} (sync : NextSync c stop p h f) (heads : Heads c sector h)
    (next : NextSync c stop (h + 10) d f') : Shows (n + 1) p h d
  | later {n p h' d' h d f f' : Nat} (sync : NextSync c stop p h' f) (other : ¬ Heads c sector h')
    (next : NextSync c stop (h' + 10) d' f') (rest : Shows n d' h d) : Shows (n + 1) p h d

variable {c stop sector}

/- Where the container stands behind a header. -/
theorem readSectorHeader_pos (h : Nat) :
    (readSectorHeader (c.seek h)).2.2 = c.seek (h + (min 5 (c.size - h) + min 5 (c.size - (h + min 5 (c.size - h))))) := by
  simp only [readSectorHeader, Container.readInto, Container.read, Container.seek, List.length_replicate,
    List.length_append, List.length_drop, Store.length_read]
  have five : min 5 (c.size - h) + (5 - min 5 (c.size - h)) = 5 := by omega
  rw [five, Nat.add_assoc]

/- A sync behind a header that is cut short is no sync. -/
theorem nextSync_behind {h q f : Nat} :
    NextSync c stop (h + (min 5 (c.size - h) + min 5 (c.size - (h + min 5 (c.size - h))))) q f ↔
      NextSync c stop (h + 10) q f := by
  by_cases whole : h + 10 ≤ c.size
  · rw [show min 5 (c.size - h) + min 5 (c.size - (h + min 5 (c.size - h))) = 10 by omega]
  · constructor
    · intro next
      have := next.mark.1
      have := next.behind
      by_cases exceeds : h ≤ c.size <;> omega
    · intro next
      have := next.mark.1
      have := next.behind
      omega

theorem Shows.bounds {n p h d : Nat} (shows_ : Shows c stop sector n p h d) : p < h ∧ h < d ∧ d < stop := by
  induction shows_ with
  | here sync heads next =>
    have := sync.mark.1
    have := sync.behind
    have := next.mark.1
    have := next.behind
    omega
  | later sync other next rest ih =>
    have := sync.mark.1
    have := sync.behind
    have := next.mark.1
    have := next.behind
    omega

variable (small : c.size < 2 ^ 32)
include small

theorem findSector_found {fuel n p h : Nat} {c' : Container}
    (run : findSector stop fuel sector n (c.seek p) = some (some (h, c'))) :
    ∃ d, Shows c stop sector n p h d ∧ c' = c.seek d := by
  induction n generalizing p with
  | zero => cases run
  | succ n ih =>
    rw [findSector] at run
    split at run
    · cases run
    · cases run
    · rename_i c₁ first
      obtain ⟨q, f, sync, rfl⟩ := findSync_found small first
      dsimp only at run
      split at run
      · cases run
      · cases run
      · rename_i c₂ second
        rw [readSectorHeader_pos] at second
        obtain ⟨d, f', next, rfl⟩ := findSync_found small second
        rw [nextSync_behind] at next
        split at run
        · rename_i heads
          obtain ⟨rfl, rfl⟩ := Prod.mk.inj (Option.some.inj (Option.some.inj run))
          exact ⟨d, .here sync heads next, rfl⟩
        · rename_i other
          obtain ⟨d', rest, same⟩ := ih run
          exact ⟨d', .later sync other next rest, same⟩

theorem findSector_finds {fuel n p h d : Nat} (shows_ : Shows c stop sector n p h d) (enough : stop ≤ fuel) :
    findSector stop fuel sector n (c.seek p) = some (some (h, c.seek d)) := by
  induction shows_ with
  | here sync heads next =>
    rw [findSector, findSync_finds small sync enough]
    dsimp only
    rw [readSectorHeader_pos, findSync_finds small (nextSync_behind.mpr next) enough]
    unfold Heads at heads
    exact if_pos heads
  | later sync other next rest ih =>
    rw [findSector, findSync_finds small sync enough]
    dsimp only
    rw [readSectorHeader_pos, findSync_finds small (nextSync_behind.mpr next) enough]
    unfold Heads at other
    exact (if_neg other).trans ih

end sectors

variable {s : G64} {track sector : Nat}

/-- The bytes of the container show the sector: the track is on the medium, and from the estimated place on the
syncs come to a header of the sector with a data block behind it. -/
structure Served (s : G64) (track sector h d : Nat) : Prop where
  accepts : s.Accepts track sector
  found : Shows s.container (s.track_end track) sector 64 (s.sectorOffset track sector) h d
  block : (readSector (s.container.seek d)).1 = true

theorem Served.decoded {h d : Nat} (served : s.Served track sector h d) :
    ∃ fuel, s.seekSector fuel track sector = some (some ⟨h, d, (readSector (s.container.seek d)).2⟩) := by
  refine ⟨s.track_end track, ?_⟩
  have found := findSector_finds s.small served.found (Nat.le_refl _)
  unfold seekSector
  rw [if_pos served.accepts, found]
  dsimp only
  rw [if_pos served.block]
  rfl

/-- `seekSector` returns true exactly for what is served. -/
theorem seekSector_served (r : Decoded) : (∃ fuel, s.seekSector fuel track sector = some (some r)) ↔
    s.Served track sector r.header r.data ∧ r.sector_buffer = (readSector (s.container.seek r.data)).2 := by
  constructor
  · rintro ⟨fuel, run⟩
    unfold seekSector at run
    split at run
    · rename_i accepts
      split at run
      · cases run
      · cases run
      · rename_i h c' found
        obtain ⟨d, shown, rfl⟩ := findSector_found s.small found
        have same := Option.some.inj run
        split at same
        · rename_i block
          obtain rfl := Option.some.inj same
          exact ⟨⟨accepts, shown, block⟩, rfl⟩
        · cases same
    · cases run
  · rintro ⟨served, buffer⟩
    obtain ⟨fuel, run⟩ := served.decoded
    rw [← buffer] at run
    exact ⟨fuel, run⟩

/-- The entry of the track is not that of an absent one, and both blocks start inside its data. -/
structure Own (s : G64) (track : Nat) (r : Decoded) : Prop where
  present : s.entry track ≠ 0
  header : s.entry track + 2 ≤ r.header ∧ r.header < s.entry track + 2 + s.length track
  data : s.entry track + 2 ≤ r.data ∧ r.data < s.entry track + 2 + s.length track

/-- What is decoded belongs to the track exactly when the sector does not show in an absent track, read from the start
of the container, nor, where the estimated place runs over 32 bits, below the data of the track. -/
theorem decoded_own_iff (s : G64) (track sector : Nat) :
    (∀ fuel r, s.seekSector fuel track sector = some (some r) → s.Own track r) ↔
      (s.entry track = 0 → ∀ h d, ¬ s.Served track sector h d) ∧
        (2 ^ 32 ≤ s.entry track + 2 + sector * 360 → ∀ h d, s.Served track sector h d → s.entry track + 2 ≤ h) := by
  constructor
  · intro own
    have each : ∀ h d, s.Served track sector h d → s.Own track ⟨h, d, (readSector (s.container.seek d)).2⟩ := by
      intro h d served
      obtain ⟨fuel, run⟩ := served.decoded
      exact own fuel _ run
    exact ⟨fun zero h d served => (each h d served).present zero, fun _ h d served => (each h d served).header.1⟩
  · rintro ⟨present, above⟩ fuel r run
    obtain ⟨served, -⟩ := (seekSector_served r).mp ⟨fuel, run⟩
    obtain ⟨after, order, below⟩ := served.found.bounds
    have ends : s.track_end track ≤ s.entry track + 2 + s.length track := Nat.mod_le _ _
    have first : s.entry track + 2 ≤ r.header := by
      by_cases wraps : 2 ^ 32 ≤ s.entry track + 2 + sector * 360
      · exact above wraps _ _ served
      · unfold sectorOffset at after
        rw [Nat.mod_eq_of_lt (by omega)] at after
        omega
    exact ⟨fun zero => present zero _ _ served, ⟨first, by omega⟩, by omega, by omega⟩

/- The data of a track with one sector, whose header has these bytes: its length, a sync, the header, a sync, and a
data block of zeros. -/
def oneSector (header : List UInt8) : List UInt8 :=
  [0x59, 0x01] ++ List.replicate 5 0xff ++ header ++ List.replicate 5 0xff ++ [0x55, 0xd4, 0xa5, 0x29, 0x4a] ++
    (List.replicate 64 [0x52, 0x94, 0xa5, 0x29, 0x4a]).flatten

/- A 1541 image of this table and this one track. -/
def sampleImage (table header : List UInt8) (size : Nat) : Container where
  data k := ([0x47, 0x43, 0x52, 0x2d, 0x31, 0x35, 0x34, 0x31, 0x00, 0x54, 0xf8, 0x1e] ++ table ++
    oneSector header).getD k 0
  size := size

/- Track 1 has a sector 0; track 2 is absent. -/
def absentTrack : G64 where
  geo := Format.d64.geometry 371 (0, 0)
  container := sampleImage [0x18, 0x00, 0x00, 0x00, 0x00, 0x00, 0x00, 0x00, 0x00, 0x00, 0x00, 0x00]
    [0x52, 0x55, 0x25, 0x29, 0x4b, 0x74, 0x9c, 0xb5, 0x55, 0x55] 371
  small := by decide

/-- Sector 0 of an absent track 2 is read from track 1. -/
theorem absent_track_decoded : ∃ (s : G64) (track sector : Nat), s.entry track = 0 ∧
    ¬ ∀ fuel r, s.seekSector fuel track sector = some (some r) → s.Own track r := by
  have zero : absentTrack.entry 2 = 0 := by decide
  refine ⟨absentTrack, 2, 0, zero, fun own => ?_⟩
  have clear : ∀ k < 27, 2 < k → ¬ Mark absentTrack.container k := by decide
  have header : NextSync absentTrack.container (absentTrack.track_end 2) 2 31 27 := by
    refine ⟨?_, fun k low high => clear k high low, ?_, ?_, .inl ?_⟩
    · decide
    · decide
    · have ones : ∀ k < 31, 27 < k → absentTrack.container.data k = 0xff := by decide
      exact fun k low high => ones k high low
    · decide
  have data : NextSync absentTrack.container (absentTrack.track_end 2) (31 + 10) 46 42 := by
    refine ⟨?_, fun k low high => by omega, ?_, ?_, .inl ?_⟩
    · decide
    · decide
    · have ones : ∀ k < 46, 42 < k → absentTrack.container.data k = 0xff := by decide
      exact fun k low high => ones k high low
    · decide
  have served : absentTrack.Served 2 0 31 46 := by
    refine ⟨by decide, ?_, by decide⟩
    have start : absentTrack.sectorOffset 2 0 = 2 := by decide
    rw [start]
    exact .here header (by decide) data
  obtain ⟨fuel, run⟩ := served.decoded
  exact (own fuel _ run).present zero

/-- A sector of the track, with all of it inside the data of the track: a header behind a sync and, behind the next
sync, a data block of 325 bytes. -/
structure Holds (s : G64) (track sector h d : Nat) : Prop where
  present : s.entry track ≠ 0
  inside : s.entry track + 2 + s.length track ≤ s.container.size
  sync : ∃ f, s.entry track + 2 < f ∧ Mark s.container f ∧ f < h ∧
    (∀ k, f < k → k < h → s.container.data k = 0xff) ∧ s.container.data h ≠ 0xff
  heads : Heads s.container sector h
  next : ∃ f, NextSync s.container (s.entry track + 2 + s.length track) (h + 10) d f
  block : (readSector (s.container.seek d)).1 = true
  fits : d + 325 ≤ s.entry track + 2 + s.length track

end G64

end Disk

end Meatloaf
