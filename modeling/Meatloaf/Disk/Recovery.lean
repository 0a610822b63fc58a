import Meatloaf.Disk.Scratch

/-! `removeFile` and `unremoveFile` as the firmware calls them, on an image of the
default size of its class. -/
namespace Meatloaf.Disk

open Lib

/-- The container holds all blocks of the geometry its class reads off its size,
and its writes succeed. -/
structure Image (f : Format) (c : Container) : Prop where
  supported : f.Supports c.size
  size : (D64.new f c).geo.blockCount * 256 ≤ c.size
  steady : c.fault = none

/- What follows the last block is no part of a block. -/
def WholeBlocks (f : Format) (c : Container) : Prop :=
  c.size % 256 = 0 ∨ (D64.new f c).geo.blockCount * 256 + 256 ≤ c.size

theorem Image.whole {f : Format} {c : Container} (h : Image f c) : D64.Whole (D64.new f c) where
  valid := f.geometry_valid c.size _ h.supported
  size := h.size

namespace D64

/- The directory sector the stream is on can be read, or lies behind the end of the
container and the entry at hand is one that was passed over before. -/
def Grounded (hit : List UInt8 → Bool) (s : D64) : Prop :=
  (∃ n, s.geo.linearBlock s.track s.sector = some n ∧
    s.geo.addr ⟨s.track, s.sector⟩ + 256 ≤ s.container.size) ∨
  (s.container.size ≤ s.container.pos ∧ hit s.entry = false)

section grounded

variable {hit : List UInt8 → Bool} {s : D64}

theorem Grounded.readEntry (h : Grounded hit s) : Grounded hit s.readEntry := by
  rcases h with readable | ⟨beyond, passed⟩
  · exact .inl readable
  · have nothing : s.readContainer 32 = ([], s.at_ s.container.pos s.track s.sector) := by
      have none : s.container.size - s.container.pos = 0 := by omega
      simp only [readContainer, Container.read, none, Nat.min_zero, Store.read_zero, Nat.add_zero]
      rfl
    refine .inr ⟨?_, ?_⟩
    · simp only [D64.readEntry, nothing]
      exact beyond
    · simp only [D64.readEntry, nothing, List.nil_append, List.length_nil, List.drop_zero]
      exact passed

theorem Grounded.finishEntry (h : Grounded hit s) (index : Nat) : Grounded hit (s.finishEntry index) := by
  unfold D64.finishEntry
  split <;> exact h

/- The container ends with a block, and not before the last one of the geometry. -/
structure Solid (s : D64) : Prop where
  valid : s.geo.Valid
  size : s.geo.blockCount * 256 ≤ s.container.size
  blocks : s.container.size % 256 = 0 ∨ s.geo.blockCount * 256 + 256 ≤ s.container.size

theorem Looks.solid {s s' : D64} (h : Looks s s') (solid : Solid s) : Solid s' where
  valid := h.geo ▸ solid.valid
  size := by
    rw [h.geo, h.size]
    exact solid.size
  blocks := by
    rw [h.geo, h.size]
    exact solid.blocks

/- Only the block behind the last one is accepted and may not be there. -/
theorem Grounded.seekSector (solid : Solid s) (passed : hit s.entry = false) (t x o : Nat)
    (accepted : (s.seekSector t x o).1 = true) : Grounded hit (s.seekSector t x o).2 := by
  have size := solid.size
  have blocks := solid.blocks
  cases found : s.geo.linearBlock t x with
  | none => simp [D64.seekSector, found] at accepted
  | some n =>
    rw [seekSector_some s ⟨t, x⟩ found o]
    have place := Geometry.linearBlock_some (b := ⟨t, x⟩) found
    by_cases fits : s.geo.addr ⟨t, x⟩ + 256 ≤ s.container.size
    · exact .inl ⟨n, found, fits⟩
    · refine .inr ⟨?_, passed⟩
      have bound : n ≤ s.geo.blockCount := by
        unfold Geometry.linearBlock at found
        split at found
        · contradiction
        · rename_i range
          split at found
          · contradiction
          · have mono := s.geo.sectorOffset_mono (t := t) (u := s.geo.last_track + 1)
              (by rw [solid.valid.first] at range; omega) (by omega)
            have := Option.some.inj found
            unfold Geometry.blockCount
            omega
      simp only [at_, Container.seek]
      omega

theorem seekSector_entry (s : D64) (t x o : Nat) : (s.seekSector t x o).2.entry = s.entry := by
  unfold D64.seekSector
  split <;> rfl

theorem finishEntry_index (s : D64) (index : Nat) : (s.finishEntry index).entry_index = index + 1 := by
  unfold D64.finishEntry
  split <;> rfl

/- The first entry of the directory. -/
theorem walkToEntry_grounded (solid : Solid s) (passed : hit s.entry = false)
    (accepted : (s.walkToEntry 0).1 = true) :
    Grounded hit (s.walkToEntry 0).2 ∧ (s.walkToEntry 0).2.entry_index = 1 := by
  cases seek : ({ s with next_track := 0 } : D64).seekSector s.dir_track s.dir_sector
      s.geo.directory_offset with
  | mk r q =>
    cases r with
    | false => simp [walkToEntry, seek] at accepted
    | true =>
      have grounded : Grounded hit q := by
        have h : Grounded hit ({ s with next_track := 0 }.seekSector s.dir_track s.dir_sector
            s.geo.directory_offset).2 :=
          Grounded.seekSector (s := { s with next_track := 0 }) ⟨solid.valid, solid.size, solid.blocks⟩ passed s.dir_track s.dir_sector
            s.geo.directory_offset (by rw [seek])
        rwa [seek] at h
      have fresh : q.next_track = 0 := by
        have h : (({ s with next_track := 0 } : D64).seekSector s.dir_track s.dir_sector
            s.geo.directory_offset).2.next_track = 0 := by
          unfold D64.seekSector
          split <;> rfl
        rwa [seek] at h
      rw [walkToEntry_zero s q seek fresh]
      exact ⟨grounded.readEntry.finishEntry 0, finishEntry_index _ 0⟩

theorem stepToEntry_grounded (solid : Solid s) (passed : hit s.entry = false) (h : Grounded hit s)
    (index : Nat) (accepted : (s.stepToEntry index).1 = true) :
    Grounded hit (s.stepToEntry index).2 ∧ (s.stepToEntry index).2.entry_index = index + 1 := by
  unfold stepToEntry at accepted ⊢
  split
  · rename_i first
    rw [if_pos first] at accepted
    split
    · rename_i ends
      simp [ends] at accepted
    · rename_i runs
      rw [if_neg runs] at accepted
      dsimp only at accepted ⊢
      split
      · rename_i ok
        exact ⟨(Grounded.seekSector solid passed _ _ 0 ok).readEntry.finishEntry index,
          finishEntry_index _ index⟩
      · rename_i refused
        rw [if_neg refused] at accepted
        contradiction
  · exact ⟨h.readEntry.finishEntry index, finishEntry_index _ index⟩

theorem indexPred_indexSucc (index : Nat) : indexPred (indexSucc index) = index := by
  unfold indexSucc
  split
  · rename_i last
    rw [last]
    rfl
  · rfl

/- Where a search stands before it asks for entry `index`. -/
def Underway (hit : List UInt8 → Bool) (index : Nat) (s : D64) : Prop :=
  index = 1 ∨ (s.entry_index = indexPred index ∧ indexPred index ≠ 0 ∧ Grounded hit s)

theorem seekEntryAt_grounded (solid : Solid s) (passed : hit s.entry = false) (index : Nat)
    (bound : index < 65536) (at_ : Underway hit index s) (accepted : (s.seekEntryAt index).1 = true) :
    Grounded hit (s.seekEntryAt index).2 ∧ Underway hit (indexSucc index) (s.seekEntryAt index).2 := by
  have solid' := (defaultDirectory_walks s).looks.solid solid
  have kept : s.defaultDirectory.entry = s.entry ∧ s.defaultDirectory.entry_index = s.entry_index ∧
      (Grounded hit s → Grounded hit s.defaultDirectory) := by
    unfold defaultDirectory
    split
    · exact ⟨rfl, rfl, id⟩
    · exact ⟨rfl, rfl, id⟩
  have passed' : hit s.defaultDirectory.entry = false := by rw [kept.1]; exact passed
  have result : Grounded hit (s.seekEntryAt index).2 ∧
      (s.seekEntryAt index).2.entry_index = indexPred index + 1 := by
    unfold seekEntryAt at accepted ⊢
    dsimp only at accepted ⊢
    rcases at_ with rfl | ⟨here, later, grounded⟩
    · have start : indexPred 1 = 0 := rfl
      rw [start, if_pos (Or.inl rfl)] at accepted ⊢
      exact walkToEntry_grounded solid' passed' accepted
    · have step : ¬ (indexPred index = 0 ∨ indexPred index ≠ s.defaultDirectory.entry_index) := by
        rw [kept.2.1, here]
        simp [later]
      rw [if_neg step] at accepted ⊢
      exact stepToEntry_grounded solid' passed' (kept.2.2 grounded) _ accepted
  refine ⟨result.1, ?_⟩
  by_cases wrap : index = 0
  · left
    rw [wrap]
    rfl
  · right
    have back : indexPred index + 1 = index := by
      unfold indexPred
      rw [if_neg wrap]
      omega
    rw [result.2, back, indexPred_indexSucc]
    exact ⟨rfl, wrap, result.1⟩

/-- A search that finds something has its entry from a directory sector that can be
read. -/
theorem searchEntries_grounded (solid : Solid s) (passed : hit s.entry = false) (fuel index : Nat)
    (bound : index < 65536) (start : Underway hit index s) (s' : D64)
    (found : searchEntries hit fuel index s = some (true, s')) :
    hit s'.entry = true ∧ ∃ n, s'.geo.linearBlock s'.track s'.sector = some n ∧
      s'.geo.addr ⟨s'.track, s'.sector⟩ + 256 ≤ s'.container.size := by
  induction fuel generalizing s index with
  | zero => cases found
  | succ fuel ih =>
    unfold searchEntries at found
    dsimp only at found
    split at found
    · rename_i accepted
      obtain ⟨grounded, next⟩ := seekEntryAt_grounded solid passed index bound start accepted
      split at found
      · rename_i matched
        obtain rfl : (s.seekEntryAt index).2 = s' := (Prod.mk.inj (Option.some.inj found)).2
        refine ⟨matched, ?_⟩
        rcases grounded with readable | ⟨_, stale⟩
        · exact readable
        · rw [stale] at matched
          contradiction
      · rename_i unmatched
        refine ih ((seekEntryAt_walks s index).looks.solid solid) (by simpa using unmatched) _ ?_ next found
        unfold indexSucc
        split <;> omega
    · rename_i refused
      have := (Prod.mk.inj (Option.some.inj found)).1
      contradiction

end grounded

theorem enterDirectory_entry (s : D64) (name : Str) (s' : D64)
    (entered : s.enterDirectory name = some (true, s')) : fileType s'.entry ≠ 0 := by
  obtain ⟨q, _, result⟩ := Option.map_eq_some_iff.mp entered
  dsimp only at result
  split at result
  · split at result
    · cases (Prod.mk.inj result).1
    · rename_i kind
      split at result
      · obtain rfl := (Prod.mk.inj result).2
        have same : (q.2.readBlock (startBlock q.2.entry).track (startBlock q.2.entry).sector).2.entry =
            q.2.entry := by
          unfold readBlock
          dsimp only
          split
          · exact seekSector_entry _ _ _ _
          · exact seekSector_entry _ _ _ _
        intro zero
        rw [same] at zero
        rw [zero] at kind
        exact kind (by decide)
      · cases (Prod.mk.inj result).1
  · cases (Prod.mk.inj result).1

/- A directory that was entered leaves its own entry behind. -/
theorem enterDirectories_entry (s : D64) (parts : List Str) (s' : D64)
    (entered : s.enterDirectories parts = some (true, s')) : s'.entry = s.entry ∨ fileType s'.entry ≠ 0 := by
  induction parts generalizing s with
  | nil =>
    obtain rfl := (Prod.mk.inj (Option.some.inj entered)).2
    exact .inl rfl
  | cons part parts ih =>
    obtain ⟨⟨r, q⟩, first, rest⟩ := Option.bind_eq_some_iff.mp entered
    cases r with
    | false => cases (Prod.mk.inj (Option.some.inj rest)).1
    | true =>
      rcases ih q rest with same | live
      · exact .inr (same ▸ enterDirectory_entry s part q first)
      · exact .inr live

/-- What `unremoveFile` does to an image, whatever is on it. -/
theorem unremoveFile_any (s : D64) (solid : Solid s) (steady : s.container.fault = none)
    (blank : entryName s.entry = []) (path : Str) (r : Bool) (s' : D64)
    (done : s.unremoveFile path = some (r, s')) :
    (r = false → s'.container.data = s.container.data ∧ s'.container.size = s.container.size) ∧
    (r = true → ∃ start l d' a, s.geo.ChainAt s.container.data start l ∧ l ≠ [] ∧
      (∀ b ∈ l, s.geo.free s.container.data b = true) ∧ s.geo.Allocated s.container.data l d' ∧
      s'.container.data = Function.update d' a 0x82) := by
  unfold unremoveFile at done
  split at done
  · obtain ⟨rfl, rfl⟩ := Prod.mk.inj (Option.some.inj done)
    exact ⟨fun _ => ⟨rfl, rfl⟩, by simp⟩
  · rename_i last _
    obtain ⟨⟨q, s₁⟩, entered, rest⟩ := Option.bind_eq_some_iff.mp done
    have looks := (seekDirectory_walks s _ _ entered).looks
    cases q with
    | false =>
      obtain ⟨rfl, rfl⟩ := Prod.mk.inj (Option.some.inj rest)
      exact ⟨fun _ => ⟨looks.data, looks.size⟩, by simp⟩
    | true =>
      simp only [if_true] at rest
      obtain ⟨⟨e, s₂⟩, search, result⟩ := Option.map_eq_some_iff.mp rest
      have looks := looks.trans (seekScratchedEntry_walks s₁ last _ search).looks
      cases e with
      | false =>
        obtain ⟨rfl, rfl⟩ := Prod.mk.inj result
        exact ⟨fun _ => ⟨looks.data, looks.size⟩, by simp⟩
      | true =>
        have passed : scratchedMatch last s₁.entry = false := by
          unfold scratchedMatch
          rcases enterDirectories_entry _ _ _ entered with same | live
          · simp [same, blank]
          · simp [live]
        have found : searchEntries (scratchedMatch last) lookupFuel 1 s₁ = some (true, s₂) := by
          unfold seekScratchedEntry at search
          split at search
          · cases (Prod.mk.inj (Option.some.inj search)).1
          · exact search
        obtain ⟨_, n, sector, fits⟩ := searchEntries_grounded
          ((seekDirectory_walks s _ _ entered).looks.solid solid) passed _ 1 (by decide) (.inl rfl) s₂ found
        have mounted : Mounted s₂ := Whole.mounted ⟨(looks.solid solid).valid, (looks.solid solid).size⟩
        obtain ⟨r', s₃, run, unchanged, recovered⟩ := unscratchEntry_any s₂ mounted
          (looks.fault.trans steady) sector fits
        simp only [if_true, run] at result
        obtain ⟨rfl, rfl⟩ := Prod.mk.inj result
        rw [looks.geo, looks.data] at recovered
        constructor
        · intro refused
          obtain ⟨reach, _⟩ := unchanged refused
          exact ⟨reach.data.trans looks.data,
            (reach.size ⟨(looks.solid solid).valid, (looks.solid solid).size⟩).trans looks.size⟩
        · intro accepted
          obtain ⟨l, d', chain, nonempty, _, free, allocated, reach⟩ := recovered accepted
          exact ⟨_, l, d', _, chain, nonempty, free, allocated, reach.data⟩

section root

variable {s : D64} {dirs : List Block} {chain : Nat → List Block}
variable (w : Whole s) (steady : s.container.fault = none) (full : s.entry.length = 32)
variable (h : Sound s.geo s.container.data dirs chain) (short : 8 * dirs.length < 65536)
variable (path name : Str) (single : splitPathComponents path = [name])
include w steady full h short single

theorem removeFile_root {i : Nat} (found : s.geo.lookup s.container.data dirs (liveMatch name) = some i)
    (closed : fileType (s.geo.entryOf s.container.data dirs i) = 0x82)
    (bounded : (chain i).length ≤ 10000) :
    ∃ s' d', s.removeFile path = some (true, s') ∧ s.geo.Released s.container.data (chain i) d' ∧
      Reaches (s.onEntry dirs i) (Function.update d' (s.geo.slotAddr dirs i + 2) 0) none s' := by
  obtain ⟨inside, _, _⟩ := Geometry.lookup_some.mp found
  have live : s.geo.LiveAt s.container.data dirs i := ⟨inside, by rw [closed]; decide⟩
  obtain ⟨s', d', run, released, reach⟩ := scratchEntry_root w steady h live bounded
  refine ⟨s', d', ?_, released, reach⟩
  unfold removeFile
  rw [resolvePath_found w h short path name single full found (by rw [closed]; decide)]
  simp only [Option.map_some, if_true, run]

omit steady in
theorem unremoveFile_root : s.unremoveFile path =
    some (match s.geo.lookup s.container.data dirs (scratchedMatch name) with
      | some i => (s.onEntry dirs i).unscratchEntry
      | none => (false, s.onEntry dirs (8 * dirs.length - 1))) := by
  have nonempty := splitPathComponents_ne_nil path name (by rw [single]; simp)
  have seek := seekScratchedEntry_root (s := { s with dir_track := 0, dir_sector := 0, entry_index := 0 })
    ⟨w.valid, w.size⟩ h short name nonempty (.inl rfl) full
  have unfolded : s.unremoveFile path =
      (({ s with dir_track := 0, dir_sector := 0, entry_index := 0 } : D64).seekScratchedEntry name).map
        fun r => if r.1 then r.2.unscratchEntry else (false, r.2) := by
    unfold unremoveFile
    rw [single]
    rfl
  rw [unfolded, seek]
  cases s.geo.lookup s.container.data dirs (scratchedMatch name) <;> rfl

omit full short single in
/-- `unscratchEntry` on a slot of the root directory: it succeeds exactly when the
chain in the entry is there, is all free and is not too long. -/
theorem unscratchEntry_root {i : Nat} (inside : i < 8 * dirs.length) :
    ∃ r s', (s.onEntry dirs i).unscratchEntry = (r, s') ∧
      (r = false → Reaches (s.onEntry dirs i) s.container.data none s' ∧
        ∀ l, s.geo.ChainAt s.container.data (startBlock (s.geo.entryOf s.container.data dirs i)) l →
          l.length ≤ chainLimit (s.geo.entryOf s.container.data dirs i) →
          (∀ c ∈ l, s.geo.free s.container.data c = true) → l = []) ∧
      (r = true → ∃ l d',
        s.geo.ChainAt s.container.data (startBlock (s.geo.entryOf s.container.data dirs i)) l ∧ l ≠ [] ∧
        l.length ≤ chainLimit (s.geo.entryOf s.container.data dirs i) ∧
        (∀ c ∈ l, s.geo.free s.container.data c = true) ∧ s.geo.Allocated s.container.data l d' ∧
        Reaches (s.onEntry dirs i) (Function.update d' (s.geo.slotAddr dirs i + 2) 0x82) none s') := by
  have dir := (h.taken _ (.inl (Geometry.slot_mem inside))).1
  have whole := (onEntry_looks s dirs i).whole w
  obtain ⟨r, s', run, refused, accepted⟩ := unscratchEntry_any (s.onEntry dirs i) whole.mounted steady
    (dir.linearBlock w.valid) (Nat.le_trans dir.addr_end w.size)
  refine ⟨r, s', run, ?_, ?_⟩
  · intro no
    obtain ⟨reach, empty⟩ := refused no
    refine ⟨reach, fun l chain short free => ?_⟩
    exact empty l (collectChain_chain (s.onEntry dirs i) whole l _ chain _ short
      fun c hc => ⟨(h.free_block w.valid (free c hc)).1, free c hc⟩)
  · intro yes
    obtain ⟨l, d', chain, nonempty, short, free, allocated, reach⟩ := accepted yes
    refine ⟨l, d', chain, nonempty, short, free, allocated, ?_⟩
    have place : s.geo.slotAddr dirs i + 2 =
        s.geo.addr (dirs.getD (i / 8) ⟨0, 0⟩) + (i % 8 * 32 + 2) := by
      unfold Geometry.slotAddr
      omega
    rw [place]
    exact reach

end root

end D64

/- The type byte is the only part of an entry a scratch touches. -/
theorem startBlock_set (e : List UInt8) (t : UInt8) : startBlock (e.set 2 t) = startBlock e := by
  unfold startBlock
  simp [List.getD_eq_getElem?_getD]

theorem entryBlocks_set (e : List UInt8) (t : UInt8) : entryBlocks (e.set 2 t) = entryBlocks e := by
  unfold entryBlocks
  simp [List.getD_eq_getElem?_getD]

theorem entryName_set (e : List UInt8) (t : UInt8) : entryName (e.set 2 t) = entryName e := by
  unfold entryName rawName
  rw [List.drop_set_of_lt (by decide)]

theorem fileType_set (e : List UInt8) (t : UInt8) (full : e.length = 32) : fileType (e.set 2 t) = t := by
  unfold fileType
  simp [List.getD_eq_getElem?_getD, full]

/- What an entry answers to while it is live it answers to once it is scratched,
unless its name is empty. -/
theorem scratchedMatch_of_live {name : Str} {e : List UInt8} (full : e.length = 32)
    (live : liveMatch name e = true) :
    scratchedMatch name (e.set 2 0) = !(entryName e).isEmpty := by
  unfold liveMatch at live
  unfold scratchedMatch
  simp only [Bool.and_eq_true] at live
  rw [fileType_set e 0 full, entryName_set]
  simp [live.2]

/- `removeFile` and then `unremoveFile` succeed and leave the image as it was. -/
def Restores (s : D64) (path : Str) : Prop :=
  ∃ s₁ s₂, s.removeFile path = some (true, s₁) ∧ s₁.unremoveFile path = some (true, s₂) ∧
    s₂.container.data = s.container.data ∧ s₂.container.size = s.container.size

/- What a recovery asks of an entry and its chain. -/
def Recoverable (e : List UInt8) (l : List Block) : Prop :=
  l ≠ [] ∧ (entryBlocks e = 0 ∨ l.length ≤ entryBlocks e + 2) ∧ entryName e ≠ []

theorem entryOf_type {g : Geometry} {d : Nat → UInt8} (dirs : List Block) (i : Nat) :
    d (g.slotAddr dirs i + 2) = fileType (g.entryOf d dirs i) :=
  (Store.getD_read d _ 32 2 0 (by decide)).symm

/-- Taking the blocks of a scratched file back and marking it a closed PRG again
undoes the scratch. -/
theorem Sound.restored {g : Geometry} {d d₁ d₃ : Nat → UInt8} {dirs : List Block} {chain : Nat → List Block}
    (h : Sound g d dirs chain) (v : g.Valid) {i : Nat} (inside : i < 8 * dirs.length)
    (closed : fileType (g.entryOf d dirs i) = 0x82) (released : g.Released d (chain i) d₁)
    (allocated : g.Allocated (Function.update d₁ (g.slotAddr dirs i + 2) 0) (chain i) d₃) :
    Function.update d₃ (g.slotAddr dirs i + 2) 0x82 = d := by
  have live : g.LiveAt d dirs i := ⟨inside, by rw [closed]; decide⟩
  have scratched := h.scratch v live released
  obtain ⟨area, _, _, _⟩ := h.retype v inside released.rest 0
  obtain ⟨area', _, _, _⟩ := scratched.retype v inside allocated.rest 0x82
  apply Geometry.bam_ext v ((allocated.bam scratched.bam).agree v area') h.bam
  · intro b
    rw [Geometry.free_agree v area', allocated.free, Geometry.free_agree v area, released.free]
    by_cases mine : b ∈ chain i
    · simp [mine, (h.taken b (.inr ⟨i, mine⟩)).2.1]
    · simp [mine]
  · intro a outside
    by_cases here : a = g.slotAddr dirs i + 2
    · rw [here, Function.update_self, entryOf_type (d := d) dirs i, closed]
    · rw [Function.update_of_ne here, allocated.rest a outside, Function.update_of_ne here,
        released.rest a outside]

theorem restores_iff {s : D64} {dirs : List Block} {chain : Nat → List Block} (w : D64.Whole s)
    (steady : s.container.fault = none) (full : s.entry.length = 32)
    (h : Sound s.geo s.container.data dirs chain) (short : 8 * dirs.length < 65536) (path name : Str)
    (single : splitPathComponents path = [name]) {i : Nat}
    (found : s.geo.lookup s.container.data dirs (liveMatch name) = some i)
    (closed : fileType (s.geo.entryOf s.container.data dirs i) = 0x82)
    (bounded : (chain i).length ≤ 10000)
    (first : ∀ j < i, scratchedMatch name (s.geo.entryOf s.container.data dirs j) = false) :
    Restores s path ↔ Recoverable (s.geo.entryOf s.container.data dirs i) (chain i) := by
  obtain ⟨s₁, d₁, remove, released, reach⟩ := D64.removeFile_root w steady full h short path name single
    found closed bounded
  obtain ⟨inside, matched, _⟩ := Geometry.lookup_some.mp found
  have live : s.geo.LiveAt s.container.data dirs i := ⟨inside, by rw [closed]; decide⟩
  have scratched := h.scratch w.valid live released
  obtain ⟨area, links, others, entry⟩ := h.retype w.valid inside released.rest 0
  have whole := (D64.onEntry_looks s dirs i).whole w
  have geo : s₁.geo = s.geo := reach.geo
  have sound₁ : Sound s₁.geo s₁.container.data dirs (Function.update chain i []) := by
    rw [geo, reach.data]
    exact scratched
  have full₁ : s₁.entry.length = 32 := by
    rw [reach.eq]
    simp [D64.onEntry, Geometry.entryOf]
  have length : (s.geo.entryOf s.container.data dirs i).length = 32 := by simp [Geometry.entryOf]
  have unremove := D64.unremoveFile_root (reach.whole whole) full₁ sound₁ short path name single
  have recover : ∀ j < 8 * dirs.length, _ := fun j hj =>
    D64.unscratchEntry_root (reach.whole whole) reach.fault sound₁ (i := j) hj
  rw [geo, reach.data] at unremove recover
  -- after the scratch the chain is still in the blocks, and they are free
  have kept : s.geo.ChainAt (Function.update d₁ (s.geo.slotAddr dirs i + 2) 0)
      (startBlock (s.geo.entryOf (Function.update d₁ (s.geo.slotAddr dirs i + 2) 0) dirs i)) (chain i) := by
    rw [entry, startBlock_set]
    refine (h.file i live).congr fun b hb => ?_
    obtain ⟨insideB, _, system⟩ := h.taken b (.inr ⟨i, hb⟩)
    exact links b insideB system
  have free : ∀ b ∈ chain i, s.geo.free (Function.update d₁ (s.geo.slotAddr dirs i + 2) 0) b = true := by
    intro b hb
    rw [Geometry.free_agree w.valid area, released.free]
    simp [hb]
  constructor
  · rintro ⟨t₁, t₂, run, back, data, _⟩
    obtain rfl : s₁ = t₁ := by
      rw [remove] at run
      exact (Prod.mk.inj (Option.some.inj run)).2
    rw [unremove] at back
    cases lookup : s.geo.lookup (Function.update d₁ (s.geo.slotAddr dirs i + 2) 0) dirs
        (scratchedMatch name) with
    | none =>
      rw [lookup] at back
      cases (Prod.mk.inj (Option.some.inj back)).1
    | some j =>
      rw [lookup] at back
      obtain ⟨insideJ, scratchedJ, _⟩ := Geometry.lookup_some.mp lookup
      obtain ⟨r, s₃, run', _, accepted⟩ := recover j insideJ
      have same : (r, s₃) = (true, t₂) := run'.symm.trans (Option.some.inj back)
      obtain ⟨rfl, rfl⟩ := Prod.mk.inj same
      obtain ⟨l, d₃, chainJ, nonempty, short, freeJ, allocated, reach'⟩ := accepted rfl
      have mine : i = j := by
        by_contra other
        obtain ⟨_, _, others', _⟩ := scratched.retype w.valid insideJ allocated.rest 0x82
        have still := others' i inside other
        rw [← reach'.data, data, entry] at still
        rw [still, fileType_set _ _ length] at closed
        cases closed
      subst mine
      obtain rfl := Chain.det chainJ kept
      refine ⟨nonempty, ?_, ?_⟩
      · rw [entry, D64.chainLimit, entryBlocks_set] at short
        by_cases zero : entryBlocks (s.geo.entryOf s.container.data dirs i) = 0
        · exact .inl zero
        · rw [if_pos zero] at short
          exact .inr short
      · rw [entry, scratchedMatch_of_live length matched] at scratchedJ
        simpa using scratchedJ
  · rintro ⟨nonempty, count, named⟩
    have lookup : s.geo.lookup (Function.update d₁ (s.geo.slotAddr dirs i + 2) 0) dirs
        (scratchedMatch name) = some i := by
      refine Geometry.lookup_some.mpr ⟨inside, ?_, ?_⟩
      · rw [entry, scratchedMatch_of_live length matched]
        simpa using named
      · intro j hj
        rw [others j (by omega) (by omega)]
        exact first j hj
    obtain ⟨r, s₂, run, refused, accepted⟩ := recover i inside
    have limit : (chain i).length ≤ D64.chainLimit
        (s.geo.entryOf (Function.update d₁ (s.geo.slotAddr dirs i + 2) 0) dirs i) := by
      rw [entry, D64.chainLimit, entryBlocks_set]
      split <;> omega
    cases r with
    | false => exact absurd ((refused rfl).2 (chain i) kept limit free) nonempty
    | true =>
      obtain ⟨l, d₃, chainI, _, _, _, allocated, reach'⟩ := accepted rfl
      obtain rfl := Chain.det chainI kept
      refine ⟨s₁, s₂, remove, ?_, ?_, ?_⟩
      · rw [unremove, lookup]
        exact congrArg some run
      · rw [reach'.data]
        exact h.restored w.valid inside closed released allocated
      · have seek := D64.onEntry_looks s₁ dirs i
        exact (reach'.size (seek.whole (reach.whole whole))).trans (reach.size whole)

end Meatloaf.Disk
