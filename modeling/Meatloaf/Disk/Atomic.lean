import Meatloaf.Disk.Saves
import Meatloaf.Disk.Room
import Meatloaf.Disk.Blank

/-! What a failed save leaves behind. The rollback knows the blocks that were recorded, so
a block that is marked and not recorded yet is lost when the next write fails. -/
namespace Meatloaf.Disk

open Lib

/-- The blocks in use, the sectors of the directory and its entries are what they were. -/
structure Unchanged (g : Geometry) (d d' : Nat → UInt8) (dirs : List Block) : Prop where
  free : ∀ b, g.free d' b = g.free d b
  directory : g.ChainAt d' g.directoryStart dirs
  entries : ∀ i < 8 * dirs.length, g.entryOf d' dirs i = g.entryOf d dirs i

namespace D64

variable {s₀ s : D64} {dirs : List Block} {chain : Nat → List Block} {o : Outcome}

theorem Failed.unchanged (h : Failed s₀ s o) (v : s₀.geo.Valid)
    (sound : Sound s₀.geo s₀.container.data dirs chain) (safe : ¬ o.Exposed) :
    Unchanged s₀.geo s₀.container.data s.container.data dirs := by
  have clean := h.clean safe
  rw [h.geo] at clean
  have sector : ∀ b ∈ dirs, ∀ k < 256,
      s.container.data (s₀.geo.addr b + k) = s₀.container.data (s₀.geo.addr b + k) :=
    fun b hb k hk => clean.onChain v sound (.inl hb) k hk
  constructor
  · intro b
    rw [clean.free]
    simp
  · exact sound.directory.congr fun b hb => Geometry.link_congr (sector b hb)
  · intro i hi
    exact Geometry.entry_congr (sector _ (Geometry.slot_mem hi))

/-- A save that fails leaves the image as it was, unless the write that was refused is
one that exposes a block. -/
theorem Failed.unchanged_iff (h : Failed s₀ s o) (v : s₀.geo.Valid)
    (sound : Sound s₀.geo s₀.container.data dirs chain) :
    Unchanged s₀.geo s₀.container.data s.container.data dirs ↔ ¬ o.Exposed := by
  constructor
  · intro unchanged exposed
    obtain ⟨b, before, after⟩ := h.leaks exposed
    rw [h.geo] at before after
    rw [unchanged.free b, before] at after
    cases after
  · exact h.unchanged v sound

theorem Ended.unchanged_iff {name p : Str} (h : Ended s₀ dirs chain name p o s) (v : s₀.geo.Valid)
    (sound : Sound s₀.geo s₀.container.data dirs chain) :
    (s.error ≠ 0 → Unchanged s₀.geo s₀.container.data s.container.data dirs) ↔ ¬ o.Exposed := by
  rcases h with failed | ⟨rfl, _, _, _, saved⟩
  · rw [← failed.unchanged_iff v sound]
    exact ⟨fun h => h failed.error, fun h _ => h⟩
  · exact ⟨fun _ => id, fun _ error => absurd saved.error error⟩

/-- A name that is in no directory entry is not found in a directory of any length; in
one that is too long for the entry index the lookup does not come back. -/
theorem save_missing {s : D64} (w : Whole s) (idle : s.error = 0 ∧ s.creating = false)
    (full : s.entry.length = 32) (h : Sound s.geo s.container.data dirs chain) (path name : Str)
    (single : splitPathComponents path = [name]) (plain : endsWithHash path = false)
    (missing : s.geo.lookup s.container.data dirs (liveMatch name) = none) (chunks : List Str)
    (fate : Fate (s.geo.savePlan s.container.data dirs (blocksFor chunks.flatten.length)) s.container.fault o)
    (s' : D64) (run : s.save path chunks = some s') : Ended s dirs chain name chunks.flatten o s' := by
  by_cases short : 8 * dirs.length < 65536
  · obtain ⟨t, same, ended⟩ := save_new w idle full h short path name single plain missing chunks fate
    obtain rfl := Option.some.inj (same.symm.trans run)
    exact ended
  · have endless := resolvePath_endless (s := s.resetPath) ⟨w.valid, w.size⟩ h (by omega) path name single full
      missing
    simp [save, seekPathOut, plain, endless] at run

end D64

/-- For every sound image, every new name and every file, when no write of the save or one
of them is refused: the save is atomic unless the refused write is a full block, the count
of a side-2 track, or the entry in a sector the directory was just extended by. -/
theorem failed_save_unchanged_iff (f : Format) (c : Container) (image : Image f c) (dirs : List Block)
    (chain : Nat → List Block) (sound : Sound (D64.new f c).geo c.data dirs chain) (path name : Str)
    (single : splitPathComponents path = [name]) (plain : endsWithHash path = false)
    (new : (D64.new f c).geo.lookup c.data dirs (liveMatch name) = none) (chunks : List Str) (fault : Option Nat)
    (own : ∀ k, fault = some k →
      k < ((D64.new f c).geo.savePlan c.data dirs (D64.blocksFor chunks.flatten.length)).length)
    (s : D64) (run : (D64.new f { c with fault := fault }).save path chunks = some s) :
    (s.error ≠ 0 → Unchanged (D64.new f c).geo c.data s.container.data dirs) ↔
      ¬ (outcome ((D64.new f c).geo.savePlan c.data dirs (D64.blocksFor chunks.flatten.length)) fault).Exposed := by
  have whole : D64.Whole (D64.new f { c with fault := fault }) := ⟨image.whole.valid, image.whole.size⟩
  have ended := D64.save_missing whole ⟨rfl, rfl⟩ rfl sound path name single plain new chunks ⟨rfl, own⟩ s run
  exact ended.unchanged_iff image.whole.valid sound

section blank

/- "DISK" and "01". -/
def blankName : Str := [0x44, 0x49, 0x53, 0x4B]
def blankId : Str := [0x30, 0x31]

theorem blank_labelled : D64.Labelled blankName blankId := by
  unfold D64.Labelled
  decide

theorem blank_lookup {g : Geometry} {d : Nat → UInt8} (formatted : D64.Formatted g d) (name : Str) :
    g.lookup d [g.directoryStart] (liveMatch name) = none := by
  apply Geometry.lookup_none.mpr
  intro i inside
  have vacant : fileType (g.entryOf d [g.directoryStart] i) = 0 := by
    by_contra live
    exact formatted.dead i ⟨inside, live⟩
  simp [liveMatch, vacant]

/- One `write` of 255 bytes. -/
def twoBlocks : List Str := [List.replicate 255 0x2A]

theorem blocks_twoBlocks : D64.blocksFor twoBlocks.flatten.length = 2 := by
  rw [twoBlocks, List.flatten_singleton, List.length_replicate]
  rfl

/- A file of two blocks on a blank D64: the third write is its first block. -/
theorem blank_plan {d : Nat → UInt8} (formatted : D64.Formatted Format.d64.standard d) :
    ∃ plan, Format.d64.standard.savePlan d [Format.d64.standard.directoryStart] 2 = .map :: .map :: .block :: plan := by
  have v := Format.d64.standard_formattable.valid
  have one : ∀ t, Format.d64.standard.mapWrites t = [.map] := fun _ => rfl
  have room : Format.d64.standard.DataRoom d 2 := by
    refine ⟨[⟨1, 0⟩, ⟨1, 1⟩], by decide, Nat.le_refl 2, ?_⟩
    intro b member
    rw [formatted.free]
    rcases List.mem_cons.mp member with rfl | member
    · exact ⟨by unfold Geometry.Data; decide, by decide⟩
    · obtain rfl := List.mem_singleton.mp member
      exact ⟨by unfold Geometry.Data; decide, by decide⟩
  obtain ⟨b, found, data, room⟩ := room.pick v 0 0 (fun later => absurd rfl later)
  obtain ⟨c, next, _, _⟩ := room.pick v b.track b.sector (fun _ => data.2)
  unfold Geometry.savePlan
  rw [found]
  dsimp only [Nat.add_one_sub_one]
  unfold Geometry.growPlan
  rw [next]
  dsimp only
  rw [one, one]
  exact ⟨_, rfl⟩

variable {c : Container} (standard : Standard .d64 c) (formatted : D64.Formatted Format.d64.standard c.data)
include standard formatted

theorem blank_sound : Sound (D64.new .d64 c).geo c.data [Format.d64.standard.directoryStart] (fun _ => []) := by
  rw [standard.geo]
  exact formatted.sound Format.d64.standard_formattable

theorem blank_missing (name : Str) :
    (D64.new .d64 c).geo.lookup c.data [Format.d64.standard.directoryStart] (liveMatch name) = none := by
  rw [standard.geo]
  exact blank_lookup formatted name

/- Saving two blocks on a blank D64 comes back, whatever the container refuses. -/
theorem blank_save {fault : Option Nat} {o : Outcome} (fate : Fate ((D64.new .d64 c).geo.savePlan c.data
      [Format.d64.standard.directoryStart] (D64.blocksFor twoBlocks.flatten.length)) fault o) :
    ∃ s, (D64.new .d64 { c with fault := fault }).save [0x41] twoBlocks = some s ∧
      D64.Ended (D64.new .d64 { c with fault := fault }) [Format.d64.standard.directoryStart] (fun _ => []) [0x41]
        twoBlocks.flatten o s := by
  have whole : D64.Whole (D64.new .d64 { c with fault := fault }) :=
    ⟨standard.image.whole.valid, standard.image.whole.size⟩
  have sound := blank_sound standard formatted
  exact D64.save_new whole ⟨rfl, rfl⟩ rfl sound (by decide) [0x41] [0x41] (by decide)
    (by decide) (blank_missing standard formatted [0x41]) twoBlocks fate

theorem blank_leaks : ∃ s, (D64.new .d64 { c with fault := some 2 }).save [0x41] twoBlocks = some s ∧ s.error ≠ 0 ∧
    ¬ Unchanged (D64.new .d64 c).geo c.data s.container.data [Format.d64.standard.directoryStart] := by
  obtain ⟨plan, writes⟩ := blank_plan formatted
  have fate : Fate ((D64.new .d64 c).geo.savePlan c.data [Format.d64.standard.directoryStart]
      (D64.blocksFor twoBlocks.flatten.length)) (some 2) (.refused .block) := by
    rw [standard.geo, blocks_twoBlocks, writes]
    refine ⟨rfl, ?_⟩
    intro k same
    obtain rfl := Option.some.inj same
    simp
  obtain ⟨s, run, ended⟩ := blank_save standard formatted fate
  rcases ended with failed | ⟨no, _⟩
  · have sound := blank_sound standard formatted
    have iff := failed.unchanged_iff standard.image.whole.valid sound
    exact ⟨s, run, failed.error, fun unchanged => iff.mp unchanged trivial⟩
  · cases no

end blank

/-- A blank D64 whose container refuses its third write, and a file of 255 bytes. -/
theorem failed_save_leaks_block :
    Sound (D64.new .d64 (D64.format .d64 blankName blankId)).geo (D64.format .d64 blankName blankId).data
      [Format.d64.standard.directoryStart] (fun _ => []) ∧
    ∃ s, (D64.new .d64 { D64.format .d64 blankName blankId with fault := some 2 }).save [0x41] twoBlocks = some s ∧
      s.error ≠ 0 ∧
      ¬ Unchanged (D64.new .d64 (D64.format .d64 blankName blankId)).geo (D64.format .d64 blankName blankId).data
        s.container.data [Format.d64.standard.directoryStart] := by
  obtain ⟨standard, formatted⟩ := format_standard .d64 blankName blankId blank_labelled
  exact ⟨blank_sound standard formatted, blank_leaks standard formatted⟩

/-- The same image and file, with no write refused. -/
theorem failed_save_unchanged_blank :
    ∃ s, (D64.new .d64 { D64.format .d64 blankName blankId with fault := none }).save [0x41] twoBlocks = some s ∧
      ((s.error ≠ 0 → Unchanged (D64.new .d64 (D64.format .d64 blankName blankId)).geo
          (D64.format .d64 blankName blankId).data s.container.data [Format.d64.standard.directoryStart]) ↔
        ¬ (outcome ((D64.new .d64 (D64.format .d64 blankName blankId)).geo.savePlan
          (D64.format .d64 blankName blankId).data [Format.d64.standard.directoryStart]
          (D64.blocksFor twoBlocks.flatten.length)) none).Exposed) := by
  obtain ⟨standard, formatted⟩ := format_standard .d64 blankName blankId blank_labelled
  obtain ⟨s, run, _⟩ := blank_save standard formatted (.steady rfl)
  exact ⟨s, run, failed_save_unchanged_iff .d64 _ standard.image _ _ (blank_sound standard formatted) [0x41] [0x41]
    (by decide) (by decide) (blank_missing standard formatted [0x41]) _ none (fun k no => by cases no) s run⟩

end Meatloaf.Disk
