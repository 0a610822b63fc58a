import Meatloaf.Disk.Finish
import Meatloaf.Disk.Blank

/-! Scratch and unscratch, as the firmware calls them on an image it has opened. -/
namespace Meatloaf.Disk

open Lib

/- The two link bytes are no part of an entry. -/
section fields

variable {e e' : List UInt8} (same : e.drop 2 = e'.drop 2)
include same

theorem field_congr (k : Nat) : e.getD (2 + k) 0 = e'.getD (2 + k) 0 := by
  have byte := congrArg (fun l => l.getD k 0) same
  simpa [List.getD_eq_getElem?_getD, List.getElem?_drop] using byte

theorem fileType_congr : fileType e = fileType e' := field_congr same 0

theorem entryBlocks_congr : entryBlocks e = entryBlocks e' := by
  unfold entryBlocks
  rw [field_congr same 28, field_congr same 29]

theorem entryName_congr : entryName e = entryName e' := by
  have name := congrArg (fun l => l.drop 3) same
  rw [List.drop_drop, List.drop_drop] at name
  unfold entryName rawName
  rw [name]

theorem liveMatch_congr (name : Str) : liveMatch name e = liveMatch name e' := by
  unfold liveMatch
  rw [fileType_congr same, entryName_congr same]

end fields

/-- Every block an `unremoveFile` takes was free; when it reports failure it has written
nothing. -/
def Recovers (s : D64) (path : Str) : Prop :=
  ∀ r s', s.unremoveFile path = some (r, s') →
    (r = false → s'.container.data = s.container.data ∧ s'.container.size = s.container.size) ∧
    (r = true → ∃ start l d' a, s.geo.ChainAt s.container.data start l ∧ l ≠ [] ∧
      (∀ b ∈ l, s.geo.free s.container.data b = true) ∧ s.geo.Allocated s.container.data l d' ∧
      s'.container.data = Function.update d' a 0x82)

/-- On a sound image, a scratch and the unscratch after it restore the image exactly when
the entry can be recovered; on any image at all, an unscratch takes free blocks or changes
nothing. -/
theorem scratch_unscratch (f : Format) (c : Container) (image : Image f c) :
    (∀ dirs chain path name i, Sound (D64.new f c).geo c.data dirs chain → 8 * dirs.length < 65536 →
      splitPathComponents path = [name] →
      (D64.new f c).geo.lookup c.data dirs (liveMatch name) = some i →
      fileType ((D64.new f c).geo.entryOf c.data dirs i) = 0x82 → (chain i).length ≤ 10000 →
      (∀ j < i, scratchedMatch name ((D64.new f c).geo.entryOf c.data dirs j) = false) →
      (Restores (D64.new f c) path ↔ Recoverable ((D64.new f c).geo.entryOf c.data dirs i) (chain i))) ∧
    (WholeBlocks f c → ∀ path, Recovers (D64.new f c) path) := by
  constructor
  · intro dirs chain path name i sound short single found closed bounded first
    exact restores_iff image.whole image.steady rfl sound short path name single found closed bounded first
  · intro blocks path r s' done
    have solid : D64.Solid (D64.new f c) := ⟨image.whole.valid, image.whole.size, blocks⟩
    exact D64.unremoveFile_any (D64.new f c) solid image.steady rfl path r s' done

section sample

/- A blank D64 with an entry for "a" in its first slot, over the medium `d`. -/
def sampleOn (c : Container) (d : Nat → UInt8) (start : Block) (blocks : Nat) : Container where
  data := Store.put d (Format.d64.standard.slotAddr [Format.d64.standard.directoryStart] 0 + 2)
    (D64.newEntry [0x61] start blocks)
  size := c.size
  pos := c.pos
  fault := c.fault

variable {c : Container} (standard : Standard .d64 c) (formatted : D64.Formatted Format.d64.standard c.data)
include standard

theorem sampleOn_standard (d : Nat → UInt8) (start : Block) (blocks : Nat) :
    Standard .d64 (sampleOn c d start blocks) where
  size := standard.size
  steady := standard.steady
  geo := standard.geo

include formatted
variable {bs : List Block} {d : Nat → UInt8} (claimed : Format.d64.standard.Claimed c.data bs d)
include claimed

omit standard in
theorem sampleOn_sound (start : Block) (blocks : Nat)
    (file : Format.d64.standard.ChainAt d ⟨(UInt8.ofNat start.track).toNat, (UInt8.ofNat start.sector).toNat⟩ bs) :
    Sound Format.d64.standard (sampleOn c d start blocks).data [Format.d64.standard.directoryStart]
      (Function.update (fun _ => []) 0 bs) ∧
    (Format.d64.standard.entryOf (sampleOn c d start blocks).data [Format.d64.standard.directoryStart] 0).drop 2 =
      D64.newEntry [0x61] start blocks := by
  have v := Format.d64.standard_formattable.valid
  have sound := formatted.sound Format.d64.standard_formattable
  have vacant : fileType (Format.d64.standard.entryOf c.data [Format.d64.standard.directoryStart] 0) = 0 := by
    by_contra live
    exact formatted.dead 0 ⟨by decide, live⟩
  obtain ⟨sound', entry, _, _⟩ := sound.enter v claimed (i := 0) (by decide) vacant
    (D64.newEntry [0x61] start blocks) (D64.length_newEntry _ _ _) (show (0x82 : UInt8) ≠ 0 by decide) file
  exact ⟨sound', entry⟩

/- What the firmware finds on such an image. -/
theorem sampleOn_opened (start : Block) (blocks : Nat) (low : blocks < 256)
    (file : Format.d64.standard.ChainAt d ⟨(UInt8.ofNat start.track).toNat, (UInt8.ofNat start.sector).toNat⟩ bs) :
    Sound (D64.new .d64 (sampleOn c d start blocks)).geo (sampleOn c d start blocks).data
      [Format.d64.standard.directoryStart] (Function.update (fun _ => []) 0 bs) ∧
    (D64.new .d64 (sampleOn c d start blocks)).geo.lookup (sampleOn c d start blocks).data
      [Format.d64.standard.directoryStart] (liveMatch [0x61]) = some 0 ∧
    fileType ((D64.new .d64 (sampleOn c d start blocks)).geo.entryOf (sampleOn c d start blocks).data
      [Format.d64.standard.directoryStart] 0) = 0x82 ∧
    (Recoverable ((D64.new .d64 (sampleOn c d start blocks)).geo.entryOf (sampleOn c d start blocks).data
      [Format.d64.standard.directoryStart] 0) (Function.update (fun _ => []) 0 bs 0) ↔
      bs ≠ [] ∧ (blocks = 0 ∨ bs.length ≤ blocks + 2)) := by
  obtain ⟨sound, entry⟩ := sampleOn_sound formatted claimed start blocks file
  have geo : (D64.new .d64 (sampleOn c d start blocks)).geo = Format.d64.standard :=
    (sampleOn_standard standard d start blocks).geo
  have fields : (Format.d64.standard.entryOf (sampleOn c d start blocks).data
      [Format.d64.standard.directoryStart] 0).drop 2 = (0 :: 0 :: D64.newEntry [0x61] start blocks).drop 2 := entry
  have name : entryName (0 :: 0 :: D64.newEntry [0x61] start blocks) = [0x61] := rfl
  have count : entryBlocks (0 :: 0 :: D64.newEntry [0x61] start blocks) = blocks := by
    have both : (UInt8.ofNat (blocks % 256)).toNat + 256 * (UInt8.ofNat (blocks / 256)).toNat = blocks := by
      rw [UInt8.toNat_ofNat', UInt8.toNat_ofNat']
      omega
    exact both
  rw [geo]
  refine ⟨sound, ?_, fileType_congr fields, ?_⟩
  · refine Geometry.lookup_some.mpr ⟨by decide, ?_, fun j no => absurd no (Nat.not_lt_zero j)⟩
    rw [liveMatch_congr fields]
    rfl
  · unfold Recoverable
    rw [entryBlocks_congr fields, count, entryName_congr fields, name, Function.update_self]
    simp

end sample

section samples

variable {c : Container} (standard : Standard .d64 c) (formatted : D64.Formatted Format.d64.standard c.data)
include standard formatted

theorem sample_empty : ¬ Restores (D64.new .d64 (sampleOn c c.data ⟨0, 0⟩ 0)) [0x61] := by
  have image := (sampleOn_standard standard c.data ⟨0, 0⟩ 0).image
  obtain ⟨sound, found, closed, iff⟩ := sampleOn_opened standard formatted (.refl formatted.bam) ⟨0, 0⟩ 0
    (by decide) (.done rfl)
  rw [restores_iff image.whole image.steady rfl sound (by decide) [0x61] [0x61] (by decide) found closed
    (by decide) fun j no => absurd no (Nat.not_lt_zero j)]
  exact fun recoverable => (iff.mp recoverable).1 rfl

/- The medium with the block 1/0 claimed and written. -/
omit standard in
theorem sample_block : Format.d64.standard.Claimed c.data [⟨1, 0⟩]
      (Store.put (Format.d64.standard.setFree c.data ⟨1, 0⟩ true) (Format.d64.standard.addr ⟨1, 0⟩)
        (D64.lastBlock [0x2A])) ∧
    Format.d64.standard.ChainAt (Store.put (Format.d64.standard.setFree c.data ⟨1, 0⟩ true)
      (Format.d64.standard.addr ⟨1, 0⟩) (D64.lastBlock [0x2A])) ⟨1, 0⟩ [⟨1, 0⟩] := by
  have v := Format.d64.standard_formattable.valid
  have sound := formatted.sound Format.d64.standard_formattable
  have inside : Format.d64.standard.Inside ⟨1, 0⟩ := by decide
  have free : Format.d64.standard.free c.data ⟨1, 0⟩ = true := by
    rw [formatted.free]
    decide
  obtain ⟨_, system, _⟩ := sound.free_block v free
  refine ⟨((Geometry.Claimed.refl formatted.bam).claim v inside free).write v inside system free
    (D64.lastBlock [0x2A]) (D64.length_lastBlock _ (by decide)), .step (by unfold Ends; decide) (.done ?_)⟩
  have byte := Store.put_getD (Format.d64.standard.setFree c.data ⟨1, 0⟩ true) (Format.d64.standard.addr ⟨1, 0⟩)
    (D64.lastBlock [0x2A]) 0 0 (by rw [D64.length_lastBlock _ (by decide)]; decide)
  rw [Nat.add_zero] at byte
  unfold Ends Geometry.link
  rw [byte]
  rfl

end samples

/- The file "a" without blocks, and with the block 1/0. -/
def emptySample : Container := sampleOn (D64.format .d64 [] []) (D64.format .d64 [] []).data ⟨0, 0⟩ 0

def blockSample : Container :=
  sampleOn (D64.format .d64 [] []) (Store.put (Format.d64.standard.setFree (D64.format .d64 [] []).data ⟨1, 0⟩ true)
    (Format.d64.standard.addr ⟨1, 0⟩) (D64.lastBlock [0x2A])) ⟨1, 0⟩ 1

/-- A closed PRG file with no blocks is scratched and does not come back. -/
theorem empty_chain_not_restored :
    Image .d64 emptySample ∧
    Sound (D64.new .d64 emptySample).geo emptySample.data [Format.d64.standard.directoryStart]
      (Function.update (fun _ => []) 0 []) ∧
    (D64.new .d64 emptySample).geo.lookup emptySample.data [Format.d64.standard.directoryStart]
      (liveMatch [0x61]) = some 0 ∧
    fileType ((D64.new .d64 emptySample).geo.entryOf emptySample.data [Format.d64.standard.directoryStart] 0) =
      0x82 ∧
    ¬ Restores (D64.new .d64 emptySample) [0x61] := by
  obtain ⟨standard, formatted⟩ := format_standard .d64 [] [] ⟨by decide, by decide⟩
  obtain ⟨sound, found, closed, _⟩ := sampleOn_opened standard formatted (.refl formatted.bam) ⟨0, 0⟩ 0
    (by decide) (.done rfl)
  exact ⟨(sampleOn_standard standard _ ⟨0, 0⟩ 0).image, sound, found, closed, sample_empty standard formatted⟩

/-- A file of one block is scratched and comes back. -/
theorem scratch_unscratch_block :
    Restores (D64.new .d64 blockSample) [0x61] ∧ Recovers (D64.new .d64 blockSample) [0x61] := by
  obtain ⟨standard, formatted⟩ := format_standard .d64 [] [] ⟨by decide, by decide⟩
  obtain ⟨claimed, file⟩ := sample_block formatted
  obtain ⟨sound, found, closed, iff⟩ := sampleOn_opened standard formatted claimed ⟨1, 0⟩ 1 (by decide) file
  have opened : Standard .d64 blockSample := sampleOn_standard standard _ ⟨1, 0⟩ 1
  have both := scratch_unscratch .d64 blockSample opened.image
  have blocks : WholeBlocks .d64 blockSample := by
    left
    rw [opened.size]
    decide
  have restores := both.1 _ _ [0x61] [0x61] 0 sound (by decide) (by decide) found closed (by decide)
    fun j no => absurd no (Nat.not_lt_zero j)
  exact ⟨restores.mpr (iff.mpr ⟨by decide, .inr (by decide)⟩), both.2 blocks [0x61]⟩

end Meatloaf.Disk
