import Meatloaf.Hd.CfsData

/-! A CFS file as it is laid out: blocks of 512 bytes, of which any may be missing, under a tree of
pointers. On a container that does not fail, reads and seeks get the bytes of the blocks. -/
namespace Meatloaf.Hd

open Lib

/- ## The layout -/

/-- Nothing but HIDDEN and NEXTS bits. -/
def Pointer.isHole (p : Pointer) : Bool := p.b0 &&& 0x4F == 0 && p.b1 == 0 && p.b2 == 0 && p.b3 == 0

/- The pointer of a tree to one block. -/
def LaysBlock (image : Nat → Option Str) (p : Pointer) : Option Str → Prop
  | none => p.isZero = true
  | some block => p.isZero = false ∧ 0 < p.getLBA ∧ p.getLBA < 2 ^ 23 ∧
      ∃ data, image p.getLBA = some data ∧ ∀ n < 512, block.getD n 0 = data.getD (column n) 0

/-- A tree of this depth, whose first sector is given, on the blocks of the first `size` bytes. -/
def Lays (image : Nat → Option Str) : Nat → Nat → Nat → (Nat → Option Str) → Prop
  | 0, _, _, _ => False
  | depth + 1, lba, size, blocks => ∃ tree, image lba = some tree ∧
      (∀ i < 128, i * 512 < size → LaysBlock image (pointerAt tree (i * 4)) (blocks i)) ∧
      (0 < depth → ∀ k < 8, 65536 + k * treeCoverage depth < size →
        if assembleNextTree tree k = ⟨0, 0, 0, 0⟩ then
          ∀ i < treeCoverage depth / 512, 65536 + k * treeCoverage depth + i * 512 < size →
            blocks (128 + k * (treeCoverage depth / 512) + i) = none
        else
          0 < (assembleNextTree tree k).getLBA ∧ (assembleNextTree tree k).getLBA < 2 ^ 23 ∧
          Lays image depth (assembleNextTree tree k).getLBA (size - (65536 + k * treeCoverage depth)) fun i =>
            blocks (128 + k * (treeCoverage depth / 512) + i))

/-- The least depth for a size. -/
structure MinimalDepth (size depth : Nat) : Prop where
  positive : 0 < depth
  covers : size ≤ treeCoverage depth
  least : ∀ d, 0 < d → d < depth → treeCoverage d < size

/-- A file on an image: it has no block at all, or a tree of minimal depth. -/
def LaidOut (image : Nat → Option Str) (de : DirectoryEntry) (blocks : Nat → Option Str) : Prop :=
  (de.pointer.isHole = true ∧ ∀ i, i * 512 < de.size → blocks i = none) ∨
    (0 < de.pointer.getLBA ∧ de.pointer.getLBA < 2 ^ 23 ∧ ∃ depth, MinimalDepth de.size depth ∧
      Lays image depth de.pointer.getLBA de.size blocks)

/- The byte of a file at a place. -/
def byteOf (blocks : Nat → Option Str) (pos : Nat) : UInt8 :=
  match blocks (pos / 512) with
  | none => 0
  | some block => block.getD (pos % 512) 0

/- ## The depth -/

theorem treeCoverage_mono {d e : Nat} (le : d ≤ e) : treeCoverage d ≤ treeCoverage e := by
  induction le with
  | refl => exact Nat.le_refl _
  | @step e _ ih =>
    refine ih.trans ?_
    cases e with
    | zero => exact Nat.le_refl _
    | succ e =>
      rw [treeCoverage]
      omega

theorem depthFor_minimal {size room d depth : Nat} (minimal : MinimalDepth size depth) (positive : 0 < d) (le : d ≤ depth)
    (enough : depth ≤ d + room) : HDDData.depthFor size room d = depth := by
  induction room generalizing d with
  | zero => exact Nat.le_antisymm le enough
  | succ room ih =>
    rw [HDDData.depthFor]
    rcases Nat.lt_or_eq_of_le le with before | rfl
    · rw [if_pos (minimal.least d positive before)]
      exact ih (Nat.succ_pos d) before (by omega)
    · rw [if_neg (Nat.not_lt.mpr minimal.covers)]

/- The loop of `seekPath` finds the least depth. -/
theorem depthFor_eq {de : DirectoryEntry} {depth : Nat} (minimal : MinimalDepth de.size depth) :
    HDDData.depthFor de.size 6 1 = depth := by
  refine depthFor_minimal minimal Nat.one_pos minimal.positive ?_
  by_contra deep
  have short := minimal.least 7 (by decide) (by omega)
  have most : 2 ^ 32 ≤ treeCoverage 7 := by decide
  have size := HDDData.size_lt de
  omega

/- ## The tree -/

variable {image : Nat → Option Str}

/-- What a tree holds is what the walk down it gets. -/
theorem Holds.gets {depth lba p : Nat} {sector : Option Nat} (holds : Holds image depth lba p sector)
    (inside : p < treeCoverage depth) : Gets image (sectorBelow depth lba p) (some sector) := by
  have own {lba p : Nat} {tree : Str} (small : p < 65536) (block : image lba = some tree) :
      Gets image (ownSector lba p)
        (some (if (pointerAt tree (p / 512 * 4)).isZero then none else some (pointerAt tree (p / 512 * 4)).getLBA)) := by
    rw [ownSector, if_neg (Nat.not_le.mpr small)]
    exact .loads block .done
  -- which subtree a place is in
  have place (k q cov : Nat) (few : k < 8) (left : q < cov) :
      (65536 + k * cov + q - 65536) / cov % 256 = k ∧ (65536 + k * cov + q - 65536) % cov = q := by
    rw [Nat.add_assoc, Nat.add_sub_cancel_left, Nat.mul_comm, Nat.mul_add_div (by omega), Nat.div_eq_of_lt left,
      Nat.mul_add_mod, Nat.mod_eq_of_lt left]
    exact ⟨by omega, rfl⟩
  induction holds with
  | @own depth lba p tree small block =>
    cases depth with
    | zero => exact own small block
    | succ depth =>
      rw [sectorBelow, if_neg (by omega)]
      exact own small block
  | @under depth lba k q tree sector block few left some_ _ ih =>
    cases depth with
    | zero => simp only [treeCoverage] at inside; omega
    | succ depth =>
      rw [sectorBelow, if_pos (by omega)]
      refine .loads block ?_
      obtain ⟨index, rest⟩ := place k q (treeCoverage (depth + 1)) few left
      dsimp only
      rw [index, rest, if_neg (by omega), if_neg some_]
      exact ih left
  | @missing depth lba k q tree block few left none =>
    cases depth with
    | zero => simp only [treeCoverage] at inside; omega
    | succ depth =>
      rw [sectorBelow, if_pos (by omega)]
      refine .loads block ?_
      obtain ⟨index, rest⟩ := place k q (treeCoverage (depth + 1)) few left
      dsimp only
      rw [index, if_neg (by omega), if_pos none]
      exact .done

theorem Holds.det {depth lba p : Nat} {one other : Option Nat} (inside : p < treeCoverage depth)
    (holds : Holds image depth lba p one) (holds' : Holds image depth lba p other) : one = other :=
  Option.some.inj ((holds.gets inside).det (holds'.gets inside))

/- A block of a file is where the tree says, in four columns. -/
def Stored (image : Nat → Option Str) (block : Option Str) : Option Nat → Prop
  | none => block = none
  | some lba => ∃ b data, block = some b ∧ image lba = some data ∧ ∀ n < 512, b.getD n 0 = data.getD (column n) 0

theorem LaysBlock.stored {p : Pointer} {block : Option Str} (lays : LaysBlock image p block) :
    Stored image block (if p.isZero then none else some p.getLBA) := by
  cases block with
  | none =>
    rw [if_pos (show p.isZero = true from lays)]
    exact rfl
  | some b =>
    obtain ⟨some_, -, -, data, here, same⟩ := lays
    rw [if_neg (by rw [some_]; exact Bool.false_ne_true)]
    exact ⟨b, data, rfl, here, same⟩

/-- A tree that is laid out holds every block. -/
theorem Lays.holds {depth lba size p : Nat} {blocks : Nat → Option Str} (lays : Lays image depth lba size blocks)
    (inside : p < size) (covered : p < treeCoverage depth) :
    ∃ sector, Holds image depth lba p sector ∧ Stored image (blocks (p / 512)) sector := by
  induction depth generalizing lba size p blocks with
  | zero => exact lays.elim
  | succ depth ih =>
    obtain ⟨tree, here, own, under⟩ := lays
    by_cases small : p < 65536
    · exact ⟨_, .own small here, (own (p / 512) (by omega) (by omega)).stored⟩
    · obtain ⟨below, rfl⟩ : ∃ below, depth = below + 1 := by
        cases depth with
        | zero => simp only [treeCoverage] at covered; omega
        | succ below => exact ⟨below, rfl⟩
      obtain ⟨m, covers, positive⟩ := treeCoverage_sectors (below + 1)
      rw [treeCoverage] at covered
      have some_ : 0 < treeCoverage (below + 1) := by omega
      -- the place in one of the eight subtrees
      have few : (p - 65536) / treeCoverage (below + 1) < 8 := by
        rw [Nat.div_lt_iff_lt_mul some_]
        omega
      have left := Nat.mod_lt (p - 65536) some_
      have split := Nat.div_add_mod' (p - 65536) (treeCoverage (below + 1))
      generalize (p - 65536) / treeCoverage (below + 1) = k at *
      generalize (p - 65536) % treeCoverage (below + 1) = q at *
      obtain rfl : p = 65536 + k * treeCoverage (below + 1) + q := by omega
      have whole : k * treeCoverage (below + 1) = 512 * (k * m) := by rw [covers]; exact Nat.mul_left_comm k 512 m
      have sectors : treeCoverage (below + 1) / 512 = m := by rw [covers]; exact Nat.mul_div_cancel_left m (by decide)
      have block : (65536 + k * treeCoverage (below + 1) + q) / 512 = 128 + k * m + q / 512 := by
        rw [whole]
        omega
      have sub := under (Nat.succ_pos below) k few (by omega)
      rw [sectors] at sub
      rw [block]
      by_cases none_ : assembleNextTree tree k = ⟨0, 0, 0, 0⟩
      · rw [if_pos none_] at sub
        exact ⟨none, .missing here few left none_, sub (q / 512) (by omega) (by omega)⟩
      · rw [if_neg none_] at sub
        obtain ⟨sector, holds, stored⟩ := ih sub.2.2 (p := q) (by omega) left
        exact ⟨sector, .under here few left none_ holds, stored⟩

/- ## The root -/

namespace Pointer

/- HIDDEN is the one bit in which the two masks differ. -/
theorem mask_hidden (b : UInt8) : b &&& 0xCF = 0 ↔ b &&& 0x4F = 0 ∧ b &&& 0x80 = 0 := by
  have all : ∀ n : Fin 256, UInt8.ofNat n &&& 0xCF = 0 ↔ UInt8.ofNat n &&& 0x4F = 0 ∧ UInt8.ofNat n &&& 0x80 = 0 := by
    decide +kernel
  simpa using all ⟨b.toNat, b.toNat_lt⟩

/-- A pointer of no block is one for the code as well, unless it is hidden. -/
theorem isZero_iff (p : Pointer) : p.isZero = true ↔ p.isHole = true ∧ p.isHidden = false := by
  simp only [isZero, isHole, isHidden, Bool.and_eq_true, beq_iff_eq, bne_eq_false_iff_eq, mask_hidden]
  tauto

theorem getLBA_hole {p : Pointer} (hole : p.isHole = true) : p.getLBA = 0 := by
  simp only [isHole, Bool.and_eq_true, beq_iff_eq] at hole
  obtain ⟨⟨⟨b0, b1⟩, b2⟩, b3⟩ := hole
  have low : p.b0 &&& 0x0F = 0 := by
    rw [show (0x0F : UInt8) = 0x4F &&& 0x0F from rfl, ← UInt8.and_assoc, b0]
    rfl
  rw [getLBA, low, b1, b2, b3]
  rfl

theorem isZero_of_getLBA {p : Pointer} (some_ : 0 < p.getLBA) : p.isZero = false := by
  rw [Bool.eq_false_iff]
  intro zero
  rw [getLBA_hole (p.isZero_iff.mp zero).1] at some_
  exact Nat.lt_irrefl 0 some_

end Pointer

/- The byte of a sector, or of a hole. -/
def SectorByte (image : Nat → Option Str) (pos : Nat) (b : UInt8) : Option Nat → Prop
  | none => b = 0
  | some lba => ∃ data, image lba = some data ∧ b = data.getD (column (pos % 512)) 0

theorem fileByte_iff {root : Pointer} {depth pos : Nat} {b : UInt8} : FileByte image root depth pos b ↔
    root.isZero = true ∧ b = 0 ∨
      root.isZero = false ∧ ∃ sector, Holds image depth root.getLBA pos sector ∧ SectorByte image pos b sector := by
  constructor
  · intro byte
    cases byte with
    | empty zero => exact .inl ⟨zero, rfl⟩
    | hole some_ holds => exact .inr ⟨some_, none, holds, rfl⟩
    | stored some_ holds block => exact .inr ⟨some_, _, holds, _, block, rfl⟩
  · rintro (⟨zero, rfl⟩ | ⟨some_, sector, holds, value⟩)
    · exact .empty zero
    · cases sector with
      | none =>
        rw [show b = 0 from value]
        exact .hole some_ holds
      | some lba =>
        obtain ⟨data, block, rfl⟩ := value
        exact .stored some_ holds block

/-- A pointer of no block that is hidden is followed to the boot sector. Unless it is one, or what
the boot sector points to as a tree is zeros, the bytes are those of the blocks. -/
def Readable (image : Nat → Option Str) (de : DirectoryEntry) : Prop :=
  ¬ (de.pointer.isHole = true ∧ de.pointer.isHidden = true) ∨
    ∀ pos < de.size, FileByte image de.pointer (HDDData.depthFor de.size 6 1) pos 0

theorem LaidOut.bytes {de : DirectoryEntry} {blocks : Nat → Option Str} (laid : LaidOut image de blocks)
    (readable : Readable image de) {pos : Nat} (inside : pos < de.size) :
    FileByte image de.pointer (HDDData.depthFor de.size 6 1) pos (byteOf blocks pos) := by
  rcases laid with ⟨hole, none_⟩ | ⟨some_, -, depth, minimal, lays⟩
  · have byte : byteOf blocks pos = 0 := by rw [byteOf, none_ (pos / 512) (by omega)]
    rw [byte]
    rcases readable with shown | zeros
    · refine .empty (de.pointer.isZero_iff.mpr ⟨hole, ?_⟩)
      rw [Bool.eq_false_iff]
      exact fun hidden => shown ⟨hole, hidden⟩
    · exact zeros pos inside
  · obtain ⟨sector, holds, stored⟩ := lays.holds inside (Nat.lt_of_lt_of_le inside minimal.covers)
    rw [depthFor_eq minimal]
    refine fileByte_iff.mpr (.inr ⟨Pointer.isZero_of_getLBA some_, sector, holds, ?_⟩)
    cases sector with
    | none =>
      rw [SectorByte, byteOf, show blocks (pos / 512) = none from stored]
    | some lba =>
      obtain ⟨b, data, block, here, same⟩ := stored
      refine ⟨data, here, ?_⟩
      rw [byteOf, block]
      exact same (pos % 512) (Nat.mod_lt pos (by decide))

namespace HDDData

/- ## Reads -/

variable {s : HDDData} {content : Nat → UInt8}

/- The sector of a place, and what it gives to the places around it. -/
theorem dataSectorForPos_gets (covered : s.Covered) (all : ∀ q < s._size, s.byteAt image q (content q)) {pos : Nat}
    (inside : pos < s._size) : ∃ sector, Gets image (s.dataSectorForPos pos) (some sector) ∧
      ∀ q < s._size, q / 512 = pos / 512 → SectorByte image q (content q) sector := by
  rcases fileByte_iff.mp (all pos inside) with ⟨zero, -⟩ | ⟨some_, sector, holds, -⟩
  · refine ⟨none, ?_, fun q below _ => ?_⟩
    · rw [dataSectorForPos, if_pos zero]
      exact .done
    · rcases fileByte_iff.mp (all q below) with ⟨-, byte⟩ | ⟨other, -⟩
      · exact byte
      · rw [zero] at other
        cases other
  · refine ⟨sector, ?_, fun q below same => ?_⟩
    · rw [dataSectorForPos, if_neg (by rw [some_]; exact Bool.false_ne_true)]
      exact holds.gets (Nat.lt_of_lt_of_le inside covered)
    · rcases fileByte_iff.mp (all q below) with ⟨zero, -⟩ | ⟨-, sector', holds', byte⟩
      · rw [some_] at zero
        cases zero
      · have one := (holds.same_sector same.symm).det (Nat.lt_of_lt_of_le below covered) holds'
        exact one ▸ byte

/-- Every pass of the loop gets its bytes. -/
theorem readLoop_gets (covered : s.Covered) (all : ∀ q < s._size, s.byteAt image q (content q)) {n pos wanted : Nat}
    {got : Str} (enough : wanted ≤ n) : Gets image (s.readLoop n pos wanted got)
      (got ++ (List.range (min wanted (s._size - pos))).map fun i => content (pos + i)) := by
  induction n generalizing pos wanted got with
  | zero =>
    rw [Nat.le_zero.mp enough, Nat.zero_min]
    simpa [readLoop] using Gets.done
  | succ n ih =>
    rw [readLoop]
    split
    · rename_i ended
      rw [show min wanted (s._size - pos) = 0 by omega]
      simpa using Gets.done
    · rename_i go
      rw [not_or, Nat.not_le] at go
      dsimp only
      obtain ⟨chunk, size⟩ : ∃ chunk, chunk = min (min wanted (512 - pos % 512)) (s._size - pos) := ⟨_, rfl⟩
      rw [← size]
      have some_ : 0 < chunk := by omega
      -- the bytes of this pass and of the next ones
      have total : min wanted (s._size - pos) = chunk + min (wanted - chunk) (s._size - (pos + chunk)) := by omega
      have parts : (List.range (min wanted (s._size - pos))).map (fun i => content (pos + i)) =
          (List.range chunk).map (fun i => content (pos + i)) ++
            (List.range (min (wanted - chunk) (s._size - (pos + chunk)))).map fun i => content (pos + chunk + i) := by
        rw [total, List.range_add, List.map_append, List.map_map]
        congr 1
        exact List.map_congr_left fun i _ => by rw [Function.comp, Nat.add_assoc]
      have rest := @ih (pos + chunk) (wanted - chunk) (got ++ (List.range chunk).map fun i => content (pos + i)) (by omega)
      rw [List.append_assoc, ← parts] at rest
      obtain ⟨sector, found, bytes⟩ := dataSectorForPos_gets covered all go.2
      refine found.bind ?_
      cases sector with
      | none =>
        have zeros : List.replicate chunk 0 = (List.range chunk).map fun i => content (pos + i) := by
          refine (List.eq_replicate_iff.mpr ⟨by rw [List.length_map, List.length_range], fun b member => ?_⟩).symm
          obtain ⟨i, below, rfl⟩ := List.mem_map.mp member
          have short := List.mem_range.mp below
          exact bytes (pos + i) (by omega) (by omega)
        dsimp only
        rw [zeros]
        exact rest
      | some lba =>
        obtain ⟨data, block, -⟩ := bytes pos go.2 rfl
        refine .loads block ?_
        have piece : (List.range chunk).map (fun i => data.getD (column (pos % 512 + i)) 0) =
            (List.range chunk).map fun i => content (pos + i) := by
          refine List.map_congr_left fun i member => ?_
          have short := List.mem_range.mp member
          obtain ⟨data', block', byte⟩ := bytes (pos + i) (by omega) (by omega)
          rw [block, Option.some.injEq] at block'
          rw [byte, ← block', show (pos + i) % 512 = pos % 512 + i by omega]
        dsimp only
        rw [piece]
        exact rest

/- What a read returns. -/
def piece (content : Nat → UInt8) (s : HDDData) (size : Nat) : Str :=
  (List.range (min size (s._size - s._position))).map fun i => content (s._position + i)

theorem program_gets (covered : s.Covered) (all : ∀ q < s._size, s.byteAt image q (content q)) (size : Nat) :
    Gets image (s.program (.read size)) (piece content s size) := by
  rw [program, piece]
  split
  · rename_i ended
    rw [show min size (s._size - s._position) = 0 by omega]
    exact .done
  · split
    · have same : min (min size (s._size - s._position)) (s._size - s._position) = min size (s._size - s._position) := by
        omega
      have gets := @readLoop_gets image s content covered all (min size (s._size - s._position)) s._position
        (min size (s._size - s._position)) [] (Nat.le_refl _)
      rwa [same, List.nil_append] at gets
    · have gets := @readLoop_gets image s content covered all size s._position size [] (Nat.le_refl _)
      rwa [List.nil_append] at gets

/-- A read gets the bytes of the blocks from where the stream stands, and a sector is found for every
place of the file. -/
structure ReadsBlocks (c : Container) (blocks : Nat → Option Str) (s : HDDData) (op : CfsOp) : Prop where
  reads : ∀ size, op = .read size →
    ((s.program op).run (sectorDevice c fun _ => none) s.buffers).1 = piece (byteOf blocks) s size
  finds : ∀ pos < s._size, ((s.dataSectorForPos pos).run (sectorDevice c fun _ => none) s.buffers).1 ≠ none

/- A stream on which the file is selected. -/
structure Selected (c : Container) (de : DirectoryEntry) (s : HDDData) : Prop where
  sound : s.buffers.Sound (readSector c)
  root : s.file_tree = de.pointer
  depth : s.tree_depth = depthFor de.size 6 1
  size : s._size = de.size

theorem selected_select {c : Container} (sound : s.buffers.Sound (readSector c)) (de : DirectoryEntry) :
    Selected c de (s.select de.asEntry) :=
  ⟨(select_stands sound de).sound, rfl, rfl, rfl⟩

theorem Selected.stands {c : Container} {de : DirectoryEntry} (selected : Selected c de s) : Stands (readSector c) s where
  sound := selected.sound
  covered := by
    have covered := select_covered s de
    rw [Covered, selected.size, selected.depth]
    exact covered

/- A container that does not fail answers for every sector it has. -/
theorem sectorDevice_answers (c : Container) (asked lba : Nat) (buf : Str) (there : (readSector c lba).isSome = true) :
    (sectorDevice c (fun _ => none) asked lba buf).1 = true := by
  unfold readSector Container.fetch at there
  unfold sectorDevice
  dsimp only at there ⊢
  split at there
  · rename_i whole
    exact decide_eq_true whole
  · cases there

/- A file whose bytes the image has is read, and then as before. -/
theorem Selected.reads {c : Container} {de : DirectoryEntry} {blocks : Nat → Option Str} (selected : Selected c de s)
    (all : ∀ q < s._size, s.byteAt (readSector c) q (byteOf blocks q)) (op : CfsOp) : ReadsBlocks c blocks s op where
  reads size is_read := by
    rw [is_read]
    exact ((program_gets selected.stands.covered all size).run (sectorDevice_serves c _) (sectorDevice_answers c)
      selected.sound).1
  finds pos inside := by
    obtain ⟨sector, gets, -⟩ := dataSectorForPos_gets selected.stands.covered all inside
    rw [(gets.run (sectorDevice_serves c _) (sectorDevice_answers c) selected.sound).1]
    exact Option.some_ne_none sector

theorem Selected.step {c : Container} {de : DirectoryEntry} {blocks : Nat → Option Str} (selected : Selected c de s)
    (all : ∀ q < s._size, s.byteAt (readSector c) q (byteOf blocks q)) {op : CfsOp} (stays : ∀ de', op ≠ .select de') :
    Selected c de (s.step (sectorDevice c fun _ => none) op) := by
  cases op with
  | select de' => exact absurd rfl (stays de')
  | seek offset => exact ⟨selected.sound, selected.root, selected.depth, selected.size⟩
  | read size =>
    have gets := program_gets selected.stands.covered all size
    have sound := (gets.run (sectorDevice_serves c _) (sectorDevice_answers c) selected.sound).2
    exact ⟨sound, selected.root, selected.depth, selected.size⟩

/-- Reads and seeks of any sizes on a file that is laid out get the bytes of its blocks exactly when
its pointer is not one of no block with the HIDDEN bit, or the boot sector makes up for it. -/
theorem reads_blocks_iff (c : Container) (de : DirectoryEntry) (blocks : Nat → Option Str)
    (laid : LaidOut (readSector c) de blocks) :
    (∀ ops : List CfsOp, (∀ op ∈ ops, ∀ de', op ≠ .select de') →
      Along (step (sectorDevice c fun _ => none)) (ReadsBlocks c blocks) (opened de) ops) ↔
    Readable (readSector c) de := by
  have start : Selected c de (opened de) := selected_select (fun _ _ tag => by cases tag) de
  constructor
  · intro reads
    by_cases shown : de.pointer.isHole = true ∧ de.pointer.isHidden = true
    · refine .inr fun pos inside => ?_
      -- one read of the whole file
      have first := (reads [.read de.size] (by simp)).1.reads de.size rfl
      have byte := start.stands.reads (sectorDevice_serves c fun _ => none) (.read de.size) pos 0
      rw [first] at byte
      rcases laid with ⟨-, none_⟩ | ⟨some_, -⟩
      · have zero : byteOf blocks pos = 0 := by rw [byteOf, none_ (pos / 512) (by omega)]
        have here : (piece (byteOf blocks) (opened de) de.size)[pos]? = some 0 := by
          have length : pos < min de.size (de.size - 0) := by omega
          show ((List.range (min de.size (de.size - 0))).map fun i => byteOf blocks (0 + i))[pos]? = some 0
          rw [List.getElem?_map, List.getElem?_range length, Option.map_some, Nat.zero_add, zero]
        have found := byte here
        rwa [byteAt, show (opened de)._position + pos = pos from Nat.zero_add pos] at found
      · rw [Pointer.getLBA_hole shown.1] at some_
        exact absurd some_ (Nat.lt_irrefl 0)
    · exact .inl shown
  · intro readable ops stay
    have all : ∀ {s : HDDData}, Selected c de s → ∀ q < s._size, s.byteAt (readSector c) q (byteOf blocks q) := by
      intro s selected q inside
      rw [byteAt, selected.root, selected.depth]
      exact laid.bytes readable (selected.size ▸ inside)
    exact Along.imp (fun s op selected stays => selected.step (all selected) stays)
      (fun s op selected _ => selected.reads (all selected) op) start (along_of_mem stay)

/- Columns do not matter where all bytes are the same. -/
theorem replicate_column (b : UInt8) {n : Nat} (inside : n < 512) :
    (List.replicate 512 b).getD n 0 = (List.replicate 512 b).getD (column n) 0 := by
  have place : column n < 512 := by
    unfold column
    omega
  rw [List.getD_eq_getElem _ _ (by rwa [List.length_replicate]), List.getD_eq_getElem _ _ (by rwa [List.length_replicate]),
    List.getElem_replicate, List.getElem_replicate]

/- The file of two sectors, byte by byte. -/
theorem twoSectorFile_laid : LaidOut (readSector twoSectors) twoSectorFile
    fun i => if i = 0 then some (List.replicate 512 0x11) else some (List.replicate 512 0x22) := by
  refine .inr ⟨by decide, by decide, 1, ⟨by decide, by decide, fun d _ _ => by omega⟩, sampleTree, twoSectors_tree, ?_, ?_⟩
  · intro i _ inside
    have size : twoSectorFile.size = 1024 := by decide
    rw [size] at inside
    obtain rfl | rfl : i = 0 ∨ i = 1 := by omega
    · exact ⟨by decide, by decide, by decide, _, twoSectors_first, fun _ => replicate_column 0x11⟩
    · exact ⟨by decide, by decide, by decide, _, twoSectors_second, fun _ => replicate_column 0x22⟩
  · exact fun deep => absurd deep (Nat.lt_irrefl 0)

theorem twoSectorFile_reads : Along (step (sectorDevice twoSectors fun _ => none))
    (ReadsBlocks twoSectors fun i => if i = 0 then some (List.replicate 512 0x11) else some (List.replicate 512 0x22))
    (opened twoSectorFile) [.read 600, .seek 511, .read 2] :=
  (reads_blocks_iff twoSectors twoSectorFile _ twoSectorFile_laid).mpr (.inl (by decide)) _ (by simp)

/- An image of a boot sector alone. -/
def bootOnly : Container where
  data := fun k => ([0, 0, 0, 0, 0x40, 0, 0, 1, 0x43, 0x36, 0x34, 0x20, 0x43, 0x46, 0x53] : Str).getD k 0
  size := 512

/- A hidden file of three blocks that are all missing. -/
def hiddenHole : DirectoryEntry where
  filename := [0x41]
  info := [0, 6, 0, 0]
  pointer := ⟨0x80, 0, 0, 0⟩
  attributes := 0x81
  type_str := []

/-- The third block is looked for in the sector that the signature of the boot sector names. -/
theorem hiddenHole_unread : ∃ c de blocks ops, LaidOut (readSector c) de blocks ∧ (∀ op ∈ ops, ∀ de', op ≠ .select de') ∧
    ¬ Along (step (sectorDevice c fun _ => none)) (ReadsBlocks c blocks) (opened de) ops := by
  refine ⟨bootOnly, hiddenHole, fun _ => none, [.seek 1024, .read 1], .inl ⟨by decide, fun _ _ => rfl⟩, by simp, ?_⟩
  rintro ⟨-, second, -⟩
  have byte := second.reads 1 rfl
  exact absurd byte (by decide +kernel)

end HDDData

end Meatloaf.Hd
