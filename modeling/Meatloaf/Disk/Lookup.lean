import Meatloaf.Disk.Sound

/-! Lookups. On any image they change nothing but the cursor and the directory
registers of the stream; on a directory whose chain ends they find the first entry
that matches, or report that there is none. -/
namespace Meatloaf.Disk

open Lib

namespace D64

/-- `s'` differs from `s` at most in what a lookup may change. -/
structure Looks (s s' : D64) : Prop where
  geo : s'.geo = s.geo
  data : s'.container.data = s.container.data
  size : s'.container.size = s.container.size
  fault : s'.container.fault = s.container.fault
  error : s'.error = s.error
  creating : s'.creating = s.creating
  entry : s.entry.length = 32 → s'.entry.length = 32

namespace Looks

variable {s s' s'' : D64}

theorem refl (s : D64) : Looks s s := ⟨rfl, rfl, rfl, rfl, rfl, rfl, id⟩

theorem trans (h : Looks s s') (h' : Looks s' s'') : Looks s s'' :=
  ⟨h'.geo.trans h.geo, h'.data.trans h.data, h'.size.trans h.size, h'.fault.trans h.fault,
    h'.error.trans h.error, h'.creating.trans h.creating, fun full => h'.entry (h.entry full)⟩

theorem whole (h : Looks s s') (w : Whole s) : Whole s' :=
  ⟨h.geo ▸ w.valid, by rw [h.geo, h.size]; exact w.size⟩

end Looks

/-- `s'` is `s` with its position in the container, its directory registers and its entry changed. -/
structure Walks (s s' : D64) : Prop where
  eq : s' = { s with
    container := s.container.seek s'.container.pos
    track := s'.track
    sector := s'.sector
    next_track := s'.next_track
    next_sector := s'.next_sector
    dir_track := s'.dir_track
    dir_sector := s'.dir_sector
    entry := s'.entry
    entry_index := s'.entry_index }
  entry : s.entry.length = 32 → s'.entry.length = 32

namespace Walks

variable {s s' s'' : D64}

theorem refl (s : D64) : Walks s s := ⟨rfl, id⟩

theorem trans (h : Walks s s') (h' : Walks s' s'') : Walks s s'' where
  eq := by
    conv_lhs => rw [h'.eq, h.eq]
    rfl
  entry full := h'.entry (h.entry full)

theorem looks (h : Walks s s') : Looks s s' :=
  ⟨by rw [h.eq], by rw [h.eq]; rfl, by rw [h.eq]; rfl, by rw [h.eq]; rfl, by rw [h.eq], by rw [h.eq], h.entry⟩

end Walks

section any_image

variable (s : D64)

theorem seekSector_walks (t x o : Nat) : Walks s (s.seekSector t x o).2 := by
  unfold seekSector
  split <;> exact ⟨rfl, id⟩

theorem readContainer_walks (n : Nat) : Walks s (s.readContainer n).2 := ⟨rfl, id⟩

theorem readContainer_length (n : Nat) : (s.readContainer n).1.length ≤ n := by
  simp [readContainer, Container.read]

theorem readEntry_walks : Walks s s.readEntry := by
  refine ⟨rfl, fun full => ?_⟩
  have short := readContainer_length s 32
  simp only [readEntry, List.length_append, List.length_drop, full]
  omega

theorem followEntry_walks : Walks s s.followEntry := ⟨rfl, id⟩

theorem walkDirectory_walks (n : Nat) : Walks s (s.walkDirectory n).2 := by
  induction n generalizing s with
  | zero =>
    unfold walkDirectory
    dsimp only
    split
    · split
      · exact ((seekSector_walks _ _ _ _).trans (readEntry_walks _)).trans (followEntry_walks _)
      · exact seekSector_walks _ _ _ _
    · exact (readEntry_walks _).trans (followEntry_walks _)
  | succ n ih =>
    unfold walkDirectory
    dsimp only
    split
    · split
      · exact (((seekSector_walks _ _ _ _).trans (readEntry_walks _)).trans (followEntry_walks _)).trans
          (ih _)
      · exact seekSector_walks _ _ _ _
    · exact ((readEntry_walks _).trans (followEntry_walks _)).trans (ih _)

theorem defaultDirectory_walks : Walks s s.defaultDirectory := by
  unfold defaultDirectory
  split <;> exact ⟨rfl, id⟩

theorem finishEntry_walks (index : Nat) : Walks s (s.finishEntry index) := by
  unfold finishEntry
  split <;> exact ⟨rfl, id⟩

theorem walkToEntry_walks (index : Nat) : Walks s (s.walkToEntry index).2 := by
  have seek : Walks s ({ s with next_track := 0 }.seekSector s.dir_track s.dir_sector
      s.geo.directory_offset).2 :=
    have cleared : Walks s { s with next_track := 0 } := ⟨rfl, id⟩
    cleared.trans (seekSector_walks _ _ _ _)
  unfold walkToEntry
  dsimp only
  split
  · have walk := seek.trans (walkDirectory_walks _ (index / 8))
    split
    · split
      · exact walk.trans (finishEntry_walks _ _)
      · split
        · exact ((walk.trans (seekSector_walks _ _ _ _)).trans (readEntry_walks _)).trans
            (finishEntry_walks _ _)
        · exact walk.trans (seekSector_walks _ _ _ _)
    · exact walk
  · exact seek

theorem stepToEntry_walks (index : Nat) : Walks s (s.stepToEntry index).2 := by
  unfold stepToEntry
  split
  · split
    · exact .refl s
    · dsimp only
      split
      · exact ((seekSector_walks _ _ _ _).trans (readEntry_walks _)).trans (finishEntry_walks _ _)
      · exact seekSector_walks _ _ _ _
  · exact (readEntry_walks _).trans (finishEntry_walks _ _)

theorem seekEntryAt_walks (index : Nat) : Walks s (s.seekEntryAt index).2 := by
  unfold seekEntryAt
  dsimp only
  split
  · exact (defaultDirectory_walks s).trans (walkToEntry_walks _ _)
  · exact (defaultDirectory_walks s).trans (stepToEntry_walks _ _)

theorem searchEntries_walks (hit : List UInt8 → Bool) (fuel index : Nat) (r : Bool × D64)
    (done : searchEntries hit fuel index s = some r) : Walks s r.2 := by
  induction fuel generalizing index s with
  | zero => cases done
  | succ fuel ih =>
    unfold searchEntries at done
    dsimp only at done
    have step := seekEntryAt_walks s index
    split at done
    · split at done
      · obtain rfl := Option.some.inj done
        exact step
      · exact step.trans (ih _ _ done)
    · obtain rfl := Option.some.inj done
      exact step

theorem clearEntry_walks : Walks s s.clearEntry :=
  ⟨rfl, fun full => by simp [clearEntry, full]⟩

theorem seekEntry_walks (name : Str) (r : Bool × D64) (done : s.seekEntry name = some r) :
    Walks s r.2 := by
  unfold seekEntry at done
  split at done
  · obtain rfl := Option.some.inj done
    exact clearEntry_walks s
  · obtain ⟨q, search, rfl⟩ := Option.map_eq_some_iff.mp done
    have step := searchEntries_walks s _ _ _ q search
    split
    · exact step
    · exact step.trans (clearEntry_walks _)

theorem seekScratchedEntry_walks (name : Str) (r : Bool × D64) (done : s.seekScratchedEntry name = some r) :
    Walks s r.2 := by
  unfold seekScratchedEntry at done
  split at done
  · obtain rfl := Option.some.inj done
    exact .refl s
  · exact searchEntries_walks s _ _ _ r done

theorem readBlock_walks (t x : Nat) : Walks s (s.readBlock t x).2 := by
  unfold readBlock
  dsimp only
  split
  · exact (seekSector_walks _ _ _ _).trans (readContainer_walks _ _)
  · exact seekSector_walks _ _ _ _

theorem enterDirectory_walks (name : Str) (r : Bool × D64) (done : s.enterDirectory name = some r) :
    Walks s r.2 := by
  obtain ⟨q, found, rfl⟩ := Option.map_eq_some_iff.mp done
  have step := seekEntry_walks s name q found
  dsimp only
  split
  · split
    · exact step
    · have read := step.trans (readBlock_walks q.2 (startBlock q.2.entry).track (startBlock q.2.entry).sector)
      split
      · exact read.trans ⟨rfl, id⟩
      · exact read
  · exact step

theorem enterDirectories_walks (parts : List Str) (r : Bool × D64)
    (done : s.enterDirectories parts = some r) : Walks s r.2 := by
  induction parts generalizing s with
  | nil =>
    obtain rfl := Option.some.inj done
    exact .refl s
  | cons part parts ih =>
    obtain ⟨q, entered, rest⟩ := Option.bind_eq_some_iff.mp done
    have step := enterDirectory_walks s part q entered
    split at rest
    · exact step.trans (ih _ rest)
    · obtain rfl := Option.some.inj rest
      exact step

theorem seekDirectory_walks (path : Str) (r : Bool × D64) (done : s.seekDirectory path = some r) :
    Walks s r.2 := by
  have reset : Walks s { s with dir_track := 0, dir_sector := 0, entry_index := 0 } :=
    ⟨rfl, id⟩
  exact reset.trans (enterDirectories_walks _ _ r done)

theorem resolvePath_walks (path : Str) (r : PathResult × D64) (done : s.resolvePath path = some r) :
    Walks s r.2 := by
  unfold resolvePath at done
  split at done
  · obtain ⟨q, found, rfl⟩ := Option.map_eq_some_iff.mp done
    exact seekDirectory_walks s _ q found
  · rename_i last _
    obtain ⟨q, found, rest⟩ := Option.bind_eq_some_iff.mp done
    have step := seekDirectory_walks s _ q found
    dsimp only at rest
    split at rest
    · obtain ⟨e, entry, rest⟩ := Option.bind_eq_some_iff.mp rest
      have step := step.trans (seekEntry_walks q.2 last e entry)
      split at rest
      · split at rest
        · obtain ⟨f, entered, rfl⟩ := Option.map_eq_some_iff.mp rest
          exact step.trans (enterDirectory_walks e.2 last f entered)
        · obtain rfl := Option.some.inj rest
          exact step
      · obtain rfl := Option.some.inj rest
        exact step
    · obtain rfl := Option.some.inj rest
      exact step

end any_image

end D64

namespace Geometry

variable (g : Geometry) (d : Nat → UInt8)

/- The first entry of the directory that answers to `hit`. -/
def lookup (dirs : List Block) (hit : List UInt8 → Bool) : Option Nat :=
  (List.range (8 * dirs.length)).find? fun i => hit (g.entryOf d dirs i)

variable {g d}

theorem lookup_some {dirs : List Block} {hit : List UInt8 → Bool} {i : Nat} :
    g.lookup d dirs hit = some i ↔ i < 8 * dirs.length ∧ hit (g.entryOf d dirs i) = true ∧
      ∀ j < i, hit (g.entryOf d dirs j) = false := by
  unfold lookup
  rw [List.find?_range_eq_some]
  simp only [List.mem_range, Bool.not_eq_true']
  constructor
  · rintro ⟨found, inside, before⟩
    exact ⟨inside, found, before⟩
  · rintro ⟨inside, found, before⟩
    exact ⟨found, inside, before⟩

theorem lookup_none {dirs : List Block} {hit : List UInt8 → Bool} :
    g.lookup d dirs hit = none ↔ ∀ i < 8 * dirs.length, hit (g.entryOf d dirs i) = false := by
  unfold lookup
  simp [List.find?_eq_none]

end Geometry

namespace D64

/- The stream after it has read entry `i` of the root directory. -/
def onEntry (s : D64) (dirs : List Block) (i : Nat) : D64 :=
  let b := dirs.getD (i / 8) ⟨0, 0⟩
  { s with container := s.container.seek (s.geo.slotAddr dirs i + 32),
           track := b.track, sector := b.sector,
           next_track := (s.geo.link s.container.data b).track,
           next_sector := (s.geo.link s.container.data b).sector,
           dir_track := s.geo.directory_track, dir_sector := s.geo.directory_sector,
           entry := s.geo.entryOf s.container.data dirs i, entry_index := i + 1 }

/- The walk to the first entry reads it once. -/
theorem walkToEntry_zero (s q : D64) (seek : { s with next_track := 0 }.seekSector s.dir_track s.dir_sector
      s.geo.directory_offset = (true, q)) (fresh : q.next_track = 0) :
    s.walkToEntry 0 = (true, q.readEntry.finishEntry 0) := by
  have walk : q.walkDirectory 0 = (true, q.readEntry.followEntry) := by
    simp only [walkDirectory, fresh, ne_eq, not_true, if_false, if_true]
  simp only [walkToEntry, seek, if_true, Nat.zero_div, Nat.zero_mod, walk]
  rfl

/- The current directory is the root, by default or by name. -/
def AtRoot (s : D64) : Prop :=
  s.dir_track = 0 ∨ (s.dir_track = s.geo.directory_track ∧ s.dir_sector = s.geo.directory_sector)

theorem onEntry_looks (s : D64) (dirs : List Block) (i : Nat) : Looks s (s.onEntry dirs i) :=
  ⟨rfl, rfl, rfl, rfl, rfl, rfl, fun _ => by simp [onEntry, Geometry.entryOf]⟩

theorem readEntry_full (s : D64) (fits : s.container.pos + 32 ≤ s.container.size)
    (full : s.entry.length = 32) :
    s.readEntry = { s with container := s.container.seek (s.container.pos + 32),
                           entry := Store.read s.container.data s.container.pos 32 } := by
  have rest : s.entry.drop 32 = [] := List.drop_of_length_le (by omega)
  simp only [readEntry, readContainer_full s 32 fits, at_, Store.length_read, rest, List.append_nil]

section root

variable {s : D64} {dirs : List Block} {chain : Nat → List Block}
variable (w : Whole s) (h : Sound s.geo s.container.data dirs chain)
include w h

theorem slot_fits {i : Nat} (inside : i < 8 * dirs.length) :
    s.geo.slotAddr dirs i + 32 ≤ s.container.size := by
  have block := (h.taken _ (.inl (Geometry.slot_mem inside))).1.addr_end
  have slot := s.geo.slot_end dirs i
  have := w.size
  omega

/- Reading the first entry of a directory sector. -/
theorem read_first (s' : D64) (like : s'.geo = s.geo ∧ s'.container.data = s.container.data ∧
      s'.container.size = s.container.size ∧ s'.entry.length = 32)
    {i : Nat} (inside : i < 8 * dirs.length) (first : i % 8 = 0)
    (pos : s'.container.pos = s.geo.addr (dirs.getD (i / 8) ⟨0, 0⟩)) :
    s'.readEntry.finishEntry i = { s' with
      container := s'.container.seek (s.geo.slotAddr dirs i + 32),
      next_track := (s.geo.link s.container.data (dirs.getD (i / 8) ⟨0, 0⟩)).track,
      next_sector := (s.geo.link s.container.data (dirs.getD (i / 8) ⟨0, 0⟩)).sector,
      entry := s.geo.entryOf s.container.data dirs i, entry_index := i + 1 } := by
  obtain ⟨geo, data, size, full⟩ := like
  have fits := slot_fits w h inside
  have slot : s.geo.slotAddr dirs i = s.geo.addr (dirs.getD (i / 8) ⟨0, 0⟩) := by
    unfold Geometry.slotAddr
    rw [first, Nat.mul_zero, Nat.add_zero]
  have read := readEntry_full s' (by rw [pos, size, ← slot]; exact fits) full
  simp only [finishEntry, if_pos first, read, followEntry, data, pos, slot, Geometry.entryOf, Geometry.link,
    Store.getD_read s.container.data _ 32 0 0 (by omega), Store.getD_read s.container.data _ 32 1 0 (by omega),
    Nat.add_zero]

theorem seekEntryAt_first (root : s.AtRoot) (full : s.entry.length = 32) :
    s.seekEntryAt 1 = (true, s.onEntry dirs 0) := by
  have positive : 0 < dirs.length := List.length_pos_iff.mpr h.nonempty
  have start : dirs.getD (0 / 8) ⟨0, 0⟩ = s.geo.directoryStart := by
    cases dirs with
    | nil => cases positive
    | cons b l => exact h.directory.head
  have inside := (h.taken _ (.inl h.directory_inside)).1
  have default : s.defaultDirectory =
      { s with dir_track := s.geo.directory_track, dir_sector := s.geo.directory_sector } := by
    unfold defaultDirectory
    rcases root with zero | ⟨track, sector⟩
    · rw [if_pos zero]
    · split
      · rfl
      · rw [← track, ← sector]
  let s₁ : D64 := { s with dir_track := s.geo.directory_track, dir_sector := s.geo.directory_sector }
  have seek := seekSector_inside { s₁ with next_track := 0 } w.valid s.geo.directoryStart inside
    s.geo.directory_offset
  have walk := walkToEntry_zero s₁ _ seek rfl
  have read := read_first w h
    (({ s₁ with next_track := 0 } : D64).at_ (s.geo.addr s.geo.directoryStart + s.geo.directory_offset)
      s.geo.directoryStart.track s.geo.directoryStart.sector)
    ⟨rfl, rfl, rfl, full⟩ (i := 0) (by omega) rfl (by rw [start, w.valid.offset]; rfl)
  have run : s.seekEntryAt 1 = s₁.walkToEntry 0 := by
    unfold seekEntryAt
    simp only [default]
    exact if_pos (Or.inl rfl)
  rw [run, walk, onEntry, start]
  rw [start] at read
  exact congrArg (Prod.mk true) read

omit w h in
theorem seekEntryAt_step (i : Nat) :
    (s.onEntry dirs i).seekEntryAt (i + 2) = (s.onEntry dirs i).stepToEntry (i + 1) := by
  have default : (s.onEntry dirs i).defaultDirectory = s.onEntry dirs i := by
    unfold defaultDirectory
    split
    · rfl
    · rfl
  unfold seekEntryAt
  simp only [default]
  rw [show indexPred (i + 2) = i + 1 from rfl, if_neg]
  rintro (zero | other)
  · omega
  · exact other rfl

/- Within a sector the next entry is where the last read stopped; at its end the
link is followed. -/
theorem seekEntryAt_next (i : Nat) (inside : i + 1 < 8 * dirs.length) :
    (s.onEntry dirs i).seekEntryAt (i + 2) = (true, s.onEntry dirs (i + 1)) := by
  have full : (s.onEntry dirs i).entry.length = 32 := by simp [onEntry, Geometry.entryOf]
  rw [seekEntryAt_step]
  unfold stepToEntry
  by_cases first : (i + 1) % 8 = 0
  · have k : i / 8 + 1 = (i + 1) / 8 := by omega
    have link := h.directory.link_at (i / 8) (by omega)
    have here : dirs.getD (i / 8) ⟨0, 0⟩ = dirs.get ⟨i / 8, by omega⟩ :=
      List.getD_eq_getElem _ _ (by omega)
    have there : dirs.getD ((i + 1) / 8) ⟨0, 0⟩ = dirs.get ⟨i / 8 + 1, by omega⟩ := by
      rw [← k]
      exact List.getD_eq_getElem _ _ (by omega)
    have next := (h.taken _ (.inl (Geometry.slot_mem inside))).1
    have linked : s.geo.link s.container.data (dirs.getD (i / 8) ⟨0, 0⟩) =
        dirs.getD ((i + 1) / 8) ⟨0, 0⟩ := by
      rw [here, there]
      exact link
    have runs : (s.onEntry dirs i).next_track ≠ 0 := by
      have := next.1
      simp only [onEntry, linked]
      omega
    have target : (s.onEntry dirs i).next_track = (dirs.getD ((i + 1) / 8) ⟨0, 0⟩).track ∧
        (s.onEntry dirs i).next_sector = (dirs.getD ((i + 1) / 8) ⟨0, 0⟩).sector := by
      simp only [onEntry, linked, and_self]
    have read := read_first w h ((s.onEntry dirs i).at_ (s.geo.addr (dirs.getD ((i + 1) / 8) ⟨0, 0⟩) + 0)
      (dirs.getD ((i + 1) / 8) ⟨0, 0⟩).track (dirs.getD ((i + 1) / 8) ⟨0, 0⟩).sector)
      ⟨rfl, rfl, rfl, full⟩ inside first rfl
    rw [if_pos first, if_neg runs, target.1, target.2,
      seekSector_inside (s.onEntry dirs i) w.valid _ next 0]
    exact congrArg (Prod.mk true) read
  · have same : (i + 1) / 8 = i / 8 := by omega
    have pos : s.geo.slotAddr dirs i + 32 = s.geo.slotAddr dirs (i + 1) := by
      unfold Geometry.slotAddr
      rw [same]
      omega
    have fits := slot_fits w h inside
    have read := readEntry_full (s.onEntry dirs i) (by
      rw [← pos] at fits
      exact fits) full
    rw [if_neg first, read, finishEntry, if_neg first]
    simp only [onEntry, same, Container.seek, pos, Geometry.entryOf]

omit w in
theorem seekEntryAt_end (i : Nat) (last : i + 1 = 8 * dirs.length) :
    (s.onEntry dirs i).seekEntryAt (i + 2) = (false, s.onEntry dirs i) := by
  have ends := h.directory.ends_at h.nonempty
  have here : dirs.getD (i / 8) ⟨0, 0⟩ = dirs.getLast h.nonempty := by
    rw [List.getD_eq_getElem _ _ (by omega), List.getLast_eq_getElem]
    congr 1
    omega
  have stop : (s.onEntry dirs i).next_track = 0 := by
    simp only [onEntry, here]
    exact ends
  rw [seekEntryAt_step]
  unfold stepToEntry
  rw [if_pos (by omega), if_pos stop]

variable (short : 8 * dirs.length < 65536)
include short

/-- A search of the root directory stops at the first entry that matches. -/
theorem searchEntries_root (hit : List UInt8 → Bool) (root : s.AtRoot) (full : s.entry.length = 32) :
    searchEntries hit lookupFuel 1 s =
      some (match (List.range (8 * dirs.length)).find? fun i => hit (s.geo.entryOf s.container.data dirs i) with
        | some i => (true, s.onEntry dirs i)
        | none => (false, s.onEntry dirs (8 * dirs.length - 1))) := by
  have positive : 0 < dirs.length := List.length_pos_iff.mpr h.nonempty
  -- the part of the directory from entry `i` on, which has been read but not looked at
  have tail : ∀ n i fuel, i + n = 8 * dirs.length → 0 < n → n < fuel →
      (if hit (s.geo.entryOf s.container.data dirs i) then some (true, s.onEntry dirs i)
        else searchEntries hit fuel (indexSucc (i + 1)) (s.onEntry dirs i)) =
      some (match (List.range' i n).find? fun i => hit (s.geo.entryOf s.container.data dirs i) with
        | some i => (true, s.onEntry dirs i)
        | none => (false, s.onEntry dirs (8 * dirs.length - 1))) := by
    intro n
    induction n with
    | zero => omega
    | succ n ih =>
      intro i fuel total _ enough
      have next : indexSucc (i + 1) = i + 2 := if_neg (by omega)
      obtain ⟨fuel, rfl⟩ : ∃ k, fuel = k + 1 := ⟨fuel - 1, by omega⟩
      rw [List.range'_succ, List.find?_cons]
      cases here : hit (s.geo.entryOf s.container.data dirs i) with
      | true => rfl
      | false =>
        simp only [Bool.false_eq_true, if_false]
        rw [next, searchEntries]
        cases n with
        | zero =>
          rw [seekEntryAt_end h i (by omega)]
          simp only [Bool.false_eq_true, if_false, List.range'_zero, List.find?_nil]
          rw [show i = 8 * dirs.length - 1 by omega]
        | succ n =>
          rw [seekEntryAt_next w h i (by omega)]
          exact ih (i + 1) fuel (by omega) (by omega) (by omega)
  have start := tail (8 * dirs.length) 0 65536 (by omega) (by omega) (by omega)
  rw [List.range_eq_range', ← start]
  unfold lookupFuel
  rw [searchEntries, seekEntryAt_first w h root full]
  rfl

omit short in
/-- The index is a 16-bit counter: a search of a longer directory that finds nothing
before it wraps starts over and never returns. -/
theorem searchEntries_endless (long : 65536 ≤ 8 * dirs.length) (hit : List UInt8 → Bool) (root : s.AtRoot)
    (full : s.entry.length = 32) (missing : ∀ i < 65536, hit (s.geo.entryOf s.container.data dirs i) = false) :
    searchEntries hit lookupFuel 1 s = none := by
  -- `n` entries are left before the counter is back at the first one
  have tail : ∀ n i, i + n = 65535 → searchEntries hit (n + 1) ((i + 2) % 65536) (s.onEntry dirs i) = none := by
    intro n
    induction n with
    | zero =>
      intro i last
      have first := seekEntryAt_first (s := s.onEntry dirs i) ⟨w.valid, w.size⟩ h (.inr ⟨rfl, rfl⟩)
        (by simp [onEntry, Geometry.entryOf])
      have passed : hit ((s.onEntry dirs i).onEntry dirs 0).entry = false := missing 0 (by omega)
      rw [show (i + 2) % 65536 = 1 by omega, searchEntries, first]
      simp only [passed, if_true, Bool.false_eq_true, if_false]
      rfl
    | succ n ih =>
      intro i more
      have wraps : (s.onEntry dirs i).seekEntryAt ((i + 2) % 65536) = (s.onEntry dirs i).seekEntryAt (i + 2) := by
        have same : indexPred ((i + 2) % 65536) = indexPred (i + 2) := by
          unfold indexPred
          rw [if_neg (show ¬ i + 2 = 0 by omega)]
          split <;> omega
        unfold seekEntryAt
        rw [same]
      have passed : hit (s.onEntry dirs (i + 1)).entry = false := missing (i + 1) (by omega)
      have next : indexSucc ((i + 2) % 65536) = (i + 1 + 2) % 65536 := by
        unfold indexSucc
        split <;> omega
      rw [searchEntries, wraps, seekEntryAt_next w h i (by omega)]
      simp only [passed, if_true, Bool.false_eq_true, if_false, next]
      exact ih (i + 1) (by omega)
  have passed : hit (s.onEntry dirs 0).entry = false := missing 0 (by omega)
  unfold lookupFuel
  rw [searchEntries, seekEntryAt_first w h root full]
  simp only [passed, if_true, Bool.false_eq_true, if_false]
  exact tail 65535 0 rfl

omit w h short in
theorem seekDirectory_root (s : D64) :
    s.seekDirectory [] = some (true, { s with dir_track := 0, dir_sector := 0, entry_index := 0 }) := rfl

theorem seekEntry_root (name : Str) (nonempty : name ≠ []) (root : s.AtRoot) (full : s.entry.length = 32) :
    s.seekEntry name = some (match s.geo.lookup s.container.data dirs (liveMatch name) with
      | some i => (true, s.onEntry dirs i)
      | none => (false, (s.onEntry dirs (8 * dirs.length - 1)).clearEntry)) := by
  unfold seekEntry
  rw [if_neg nonempty, searchEntries_root w h short _ root full]
  unfold Geometry.lookup
  split <;> simp_all

theorem seekScratchedEntry_root (name : Str) (nonempty : name ≠ []) (root : s.AtRoot)
    (full : s.entry.length = 32) :
    s.seekScratchedEntry name = some (match s.geo.lookup s.container.data dirs (scratchedMatch name) with
      | some i => (true, s.onEntry dirs i)
      | none => (false, s.onEntry dirs (8 * dirs.length - 1))) := by
  unfold seekScratchedEntry
  rw [if_neg nonempty, searchEntries_root w h short _ root full]
  rfl

omit w h short in
/- A path with one component is looked up in the root directory. -/
theorem resolvePath_single (path name : Str) (single : splitPathComponents path = [name]) :
    s.resolvePath path =
      (({ s with dir_track := 0, dir_sector := 0, entry_index := 0 } : D64).seekEntry name).bind fun r =>
        if r.1 then
          if fileType r.2.entry &&& 0b111 = 5 ∨ fileType r.2.entry &&& 0b111 = 6 then
            (r.2.enterDirectory name).map fun q => (if q.1 then .dir else .notFound, q.2)
          else some (.file, r.2)
        else some (.notFound, r.2) := by
  unfold resolvePath
  rw [single]
  rfl

theorem resolvePath_found (path name : Str) (single : splitPathComponents path = [name])
    (full : s.entry.length = 32) {i : Nat}
    (found : s.geo.lookup s.container.data dirs (liveMatch name) = some i)
    (plain : ¬ (fileType (s.geo.entryOf s.container.data dirs i) &&& 0b111 = 5 ∨
      fileType (s.geo.entryOf s.container.data dirs i) &&& 0b111 = 6)) :
    s.resolvePath path = some (.file, s.onEntry dirs i) := by
  have nonempty := splitPathComponents_ne_nil path name (by rw [single]; simp)
  have seek := seekEntry_root (s := { s with dir_track := 0, dir_sector := 0, entry_index := 0 })
    ⟨w.valid, w.size⟩ h short name nonempty (.inl rfl) full
  rw [found] at seek
  rw [resolvePath_single path name single, seek]
  exact if_neg plain

theorem resolvePath_missing (path name : Str) (single : splitPathComponents path = [name])
    (full : s.entry.length = 32)
    (missing : s.geo.lookup s.container.data dirs (liveMatch name) = none) :
    s.resolvePath path = some (.notFound, (s.onEntry dirs (8 * dirs.length - 1)).clearEntry) := by
  have nonempty := splitPathComponents_ne_nil path name (by rw [single]; simp)
  have seek := seekEntry_root (s := { s with dir_track := 0, dir_sector := 0, entry_index := 0 })
    ⟨w.valid, w.size⟩ h short name nonempty (.inl rfl) full
  rw [missing] at seek
  rw [resolvePath_single path name single, seek]
  rfl

omit short in
theorem resolvePath_endless (long : 65536 ≤ 8 * dirs.length) (path name : Str)
    (single : splitPathComponents path = [name]) (full : s.entry.length = 32)
    (missing : s.geo.lookup s.container.data dirs (liveMatch name) = none) : s.resolvePath path = none := by
  have nonempty := splitPathComponents_ne_nil path name (by rw [single]; simp)
  have search := searchEntries_endless (s := { s with dir_track := 0, dir_sector := 0, entry_index := 0 })
    ⟨w.valid, w.size⟩ h long (liveMatch name) (.inl rfl) full
    (fun i hi => Geometry.lookup_none.mp missing i (by omega))
  rw [resolvePath_single path name single, seekEntry, if_neg nonempty, search]
  rfl

end root

end D64

end Meatloaf.Disk
