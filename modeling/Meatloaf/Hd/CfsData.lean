import Meatloaf.Lib.Cached
import Meatloaf.Lib.Run
import Meatloaf.Hd.CfsPath

/-! The data of a CFS file: a tree of sectors with pointers to the data sectors, and the reads that
walk down it. One tree sector and one data sector are kept between reads. -/
namespace Meatloaf.Hd

open Lib

namespace Pointer

/- A hole: nothing but SLICE bits. -/
def isZero (p : Pointer) : Bool := p.b0 &&& 0xCF == 0 && p.b1 == 0 && p.b2 == 0 && p.b3 == 0

end Pointer

/-- `treeCoverage`. -/
def treeCoverage : Nat → Nat
  | 0 => 65536
  | 1 => 65536
  | depth + 2 => 65536 + 8 * treeCoverage (depth + 1)

/-- `assembleNextTree`. -/
def assembleNextTree (tree : Str) (k : Nat) : Pointer :=
  slicedPointer fun i => (pointerAt tree ((k * 16 + i) * 4)).slice

/- Where byte `n` of a data sector is: in four columns. -/
def column (n : Nat) : Nat := n % 128 * 4 + n / 128

/-- The two sectors that are kept. -/
inductive CfsBuffer
  | tree
  | data
  deriving DecidableEq

abbrev CfsLoads := Loads CfsBuffer Nat Str

/- The end of `dataSectorForPos`: the pointer in the node at hand. -/
def ownSector (tree_lba p : Nat) : CfsLoads (Option (Option Nat)) :=
  if 65536 ≤ p then .done none
  else
    .load .tree tree_lba fun
      | none => .done none
      | some tree_buf =>
        let dp := pointerAt tree_buf (p / 512 * 4)
        .done (some (if dp.isZero then none else some dp.getLBA))

/- Its loop, on the depth that is left. -/
def sectorBelow : Nat → Nat → Nat → CfsLoads (Option (Option Nat))
  | 0, tree_lba, p => ownSector tree_lba p
  | d + 1, tree_lba, p =>
    if 1 < d + 1 ∧ 65536 ≤ p then
      .load .tree tree_lba fun
        | none => .done none
        | some tree_buf =>
          let sub := treeCoverage d
          let q := p - 65536
          -- `k` has eight bits
          let k := q / sub % 256
          if 7 < k then .done none
          else if assembleNextTree tree_buf k = ⟨0, 0, 0, 0⟩ then .done (some none)
          else sectorBelow d (assembleNextTree tree_buf k).getLBA (q % sub)
    else ownSector tree_lba p

/-- The part of an `HDDMStream` that reads a file. -/
structure HDDData where
  buffers : Buffers CfsBuffer Nat Str
  file_tree : Pointer
  tree_depth : Nat
  _size : Nat
  _position : Nat

namespace HDDData

/-- `dataSectorForPos`: `some none` is a hole. -/
def dataSectorForPos (s : HDDData) (pos : Nat) : CfsLoads (Option (Option Nat)) :=
  if s.file_tree.isZero then .done (some none) else sectorBelow s.tree_depth s.file_tree.getLBA pos

/- The loop of `readFile`: as much is still wanted, and this has been read. Each pass reads a byte
or more. -/
def readLoop (s : HDDData) : Nat → Nat → Nat → Str → CfsLoads Str
  | 0, _, _, got => .done got
  | n + 1, pos, wanted, got =>
    if wanted = 0 ∨ s._size ≤ pos then .done got
    else
      let chunk := min (min wanted (512 - pos % 512)) (s._size - pos)
      (s.dataSectorForPos pos).bind fun
        | none => .done got
        | some none => readLoop s n (pos + chunk) (wanted - chunk) (got ++ List.replicate chunk 0)
        | some (some lba) =>
          .load .data lba fun
            | none => .done got
            | some data_buf =>
              let piece := (List.range chunk).map fun i => data_buf.getD (column (pos % 512 + i)) 0
              readLoop s n (pos + chunk) (wanted - chunk) (got ++ piece)

/-- `readFile`. -/
def readFile (s : HDDData) (size : Nat) : CfsLoads Str := s.readLoop size s._position size []

/- The loop of `seekPath` that looks for the depth of a file of this size. -/
def depthFor (size : Nat) : Nat → Nat → Nat
  | 0, depth => depth
  | room + 1, depth => if treeCoverage depth < size then depthFor size room (depth + 1) else depth

/-- What `seekPath` does with a file it has found. -/
def select (s : HDDData) (entry : CfsEntry) : HDDData where
  buffers := { s.buffers with buffer := Function.update s.buffers.buffer .tree { s.buffers.buffer .tree with tag := none } }
  file_tree := entry.pointer
  tree_depth := depthFor entry.size 6 1
  _size := entry.size
  _position := 0

end HDDData

/-- What happens to a stream between two reads of its file. -/
inductive CfsOp
  | select (de : DirectoryEntry)
  | seek (offset : Nat)
  | read (size : Nat)

/-- A read of a sector into a buffer. A container that fails, or has fewer bytes, has written what
it has. -/
def sectorDevice (c : Container) (failure : Nat → Option Str) : Device Nat Str := fun asked lba buf =>
  match failure asked with
  | some written => (false, (Store.overlaid buf written).take 512)
  | none =>
    let read := ((c.seek (lba * 512 % 2 ^ 32)).read 512).1
    (decide (read.length = 512), (Store.overlaid buf read).take 512)

namespace HDDData

/- The loads that an operation makes, and what it reads: `MMediaStream::read` asks for no more
than the file has. -/
def program (s : HDDData) : CfsOp → CfsLoads Str
  | .read size =>
    if 0 < s._size ∧ s._size ≤ s._position then .done []
    else s.readFile (if 0 < s._size then min size (s._size - s._position) else size)
  | _ => .done []

def step (device : Device Nat Str) (s : HDDData) (op : CfsOp) : HDDData :=
  match op with
  | .select de => s.select de.asEntry
  | .seek offset => { s with _position := offset }
  | .read _ =>
    let r := (s.program op).run device s.buffers
    { s with buffers := r.2, _position := s._position + r.1.length }

/- A stream that has read nothing and has a file selected. -/
def opened (de : DirectoryEntry) : HDDData :=
  select ⟨⟨fun _ => ⟨none, List.replicate 512 0⟩, 0⟩, de.pointer, 1, 0, 0⟩ de.asEntry

end HDDData

/- ## The bytes of a file -/

/-- The data sector for a place in the tree under a node: the node's own 128 pointers, and behind them
eight trees that are one less deep. `none` is a hole. -/
inductive Holds (image : Nat → Option Str) : Nat → Nat → Nat → Option Nat → Prop
  | own {depth lba p : Nat} {tree : Str} : p < 65536 → image lba = some tree →
      Holds image depth lba p
        (if (pointerAt tree (p / 512 * 4)).isZero then none else some (pointerAt tree (p / 512 * 4)).getLBA)
  | under {depth lba k q : Nat} {tree : Str} {sector : Option Nat} : image lba = some tree → k < 8 →
      q < treeCoverage depth → assembleNextTree tree k ≠ ⟨0, 0, 0, 0⟩ →
      Holds image depth (assembleNextTree tree k).getLBA q sector →
      Holds image (depth + 1) lba (65536 + k * treeCoverage depth + q) sector
  | missing {depth lba k q : Nat} {tree : Str} : image lba = some tree → k < 8 → q < treeCoverage depth →
      assembleNextTree tree k = ⟨0, 0, 0, 0⟩ → Holds image (depth + 1) lba (65536 + k * treeCoverage depth + q) none

/-- The byte of a file at a place. -/
inductive FileByte (image : Nat → Option Str) (root : Pointer) (depth pos : Nat) : UInt8 → Prop
  | empty : root.isZero = true → FileByte image root depth pos 0
  | hole : root.isZero = false → Holds image depth root.getLBA pos none → FileByte image root depth pos 0
  | stored {lba : Nat} {data : Str} : root.isZero = false → Holds image depth root.getLBA pos (some lba) →
      image lba = some data → FileByte image root depth pos (data.getD (column (pos % 512)) 0)

variable {image : Nat → Option Str}

/- A tree covers whole sectors. -/
theorem treeCoverage_sectors (depth : Nat) : ∃ m, treeCoverage depth = 512 * m ∧ 0 < m := by
  induction depth with
  | zero => exact ⟨128, rfl, by decide⟩
  | succ depth ih =>
    cases depth with
    | zero => exact ⟨128, rfl, by decide⟩
    | succ depth =>
      obtain ⟨m, covers, -⟩ := ih
      exact ⟨128 + 8 * m, by rw [treeCoverage, covers]; omega, by omega⟩

/-- The places of one sector are in one data sector. -/
theorem Holds.same_sector {depth lba p p' : Nat} {sector : Option Nat} (holds : Holds image depth lba p sector)
    (same : p / 512 = p' / 512) : Holds image depth lba p' sector := by
  induction holds generalizing p' with
  | own small tree =>
    rw [same]
    exact .own (by omega) tree
  | @under depth lba k q tree sector block few inside some _ ih =>
    obtain ⟨m, covers, -⟩ := treeCoverage_sectors depth
    have whole : k * treeCoverage depth = 512 * (k * m) := by rw [covers]; exact Nat.mul_left_comm k 512 m
    rw [whole] at same
    obtain ⟨q', place⟩ : ∃ q', p' = 65536 + k * treeCoverage depth + q' := ⟨p' - (65536 + 512 * (k * m)), by omega⟩
    rw [place, whole] at same
    rw [place]
    exact .under block few (by omega) some (ih (by omega))
  | @missing depth lba k q tree block few inside none =>
    obtain ⟨m, covers, -⟩ := treeCoverage_sectors depth
    have whole : k * treeCoverage depth = 512 * (k * m) := by rw [covers]; exact Nat.mul_left_comm k 512 m
    rw [whole] at same
    obtain ⟨q', place⟩ : ∃ q', p' = 65536 + k * treeCoverage depth + q' := ⟨p' - (65536 + 512 * (k * m)), by omega⟩
    rw [place, whole] at same
    rw [place]
    exact .missing block few (by omega) none

/- The pointers of a node itself. -/
theorem Holds.own_eq {depth lba p : Nat} {sector : Option Nat} {tree : Str} (holds : Holds image depth lba p sector)
    (small : p < 65536) (block : image lba = some tree) :
    sector = if (pointerAt tree (p / 512 * 4)).isZero then none else some (pointerAt tree (p / 512 * 4)).getLBA := by
  cases holds with
  | own _ block' =>
    rw [block] at block'
    cases block'
    rfl
  | under => omega
  | missing => omega

theorem ownSector_gives {depth lba p : Nat} {sector : Option Nat} (gives : Gives image (ownSector lba p) (some sector)) :
    Holds image depth lba p sector := by
  unfold ownSector at gives
  split at gives
  · cases gives
  · rename_i small
    cases gives with
    | fails rest => cases rest
    | loads block rest =>
      cases rest
      exact .own (by omega) block

/-- What the walk down the tree finds is what the tree holds. -/
theorem sectorBelow_gives {depth lba p : Nat} {sector : Option Nat} (inside : p < treeCoverage depth)
    (gives : Gives image (sectorBelow depth lba p) (some sector)) : Holds image depth lba p sector := by
  induction depth generalizing lba p with
  | zero => exact ownSector_gives gives
  | succ depth ih =>
    unfold sectorBelow at gives
    split at gives
    · rename_i deep
      obtain ⟨below, rfl⟩ : ∃ d, depth = d + 1 := ⟨depth - 1, by omega⟩
      rw [treeCoverage] at inside
      obtain ⟨m, covers, positive⟩ := treeCoverage_sectors (below + 1)
      have positive : 0 < treeCoverage (below + 1) := by omega
      cases gives with
      | fails rest => cases rest
      | @loads _ _ _ tree _ block rest =>
        have few : (p - 65536) / treeCoverage (below + 1) < 8 := by
          rw [Nat.div_lt_iff_lt_mul positive]
          omega
        have place : p = 65536 + (p - 65536) / treeCoverage (below + 1) * treeCoverage (below + 1) +
            (p - 65536) % treeCoverage (below + 1) := by
          have split := Nat.div_add_mod' (p - 65536) (treeCoverage (below + 1))
          omega
        have left := Nat.mod_lt (p - 65536) positive
        dsimp only at rest
        rw [Nat.mod_eq_of_lt (show (p - 65536) / treeCoverage (below + 1) < 256 by omega)] at rest
        generalize (p - 65536) / treeCoverage (below + 1) = k at *
        generalize (p - 65536) % treeCoverage (below + 1) = q at *
        rw [if_neg (by omega)] at rest
        split at rest
        · rename_i none
          cases rest
          rw [place]
          exact .missing block few left none
        · rename_i some
          rw [place]
          exact .under block few left some (ih left rest)
    · exact ownSector_gives gives

/- Programs that stop at a failure. -/
theorem ownSector_stops (lba p : Nat) : (ownSector lba p).Stops (· = none) := by
  unfold ownSector
  split
  · trivial
  · exact Loads.Stops.load rfl rfl fun _ => trivial

theorem sectorBelow_stops (depth lba p : Nat) : (sectorBelow depth lba p).Stops (· = none) := by
  induction depth generalizing lba p with
  | zero => exact ownSector_stops lba p
  | succ depth ih =>
    unfold sectorBelow
    split
    · apply Loads.Stops.load (x := none)
      · rfl
      · rfl
      · intro tree
        dsimp only
        split
        · trivial
        · split
          · trivial
          · exact ih _ _
    · exact ownSector_stops lba p

namespace HDDData

variable {s : HDDData}

theorem dataSectorForPos_stops (s : HDDData) (pos : Nat) : (s.dataSectorForPos pos).Stops (· = none) := by
  unfold dataSectorForPos
  split
  · trivial
  · exact sectorBelow_stops _ _ _

theorem readLoop_stops (s : HDDData) (n pos wanted : Nat) (got : Str) :
    (s.readLoop n pos wanted got).Stops fun _ => True := by
  induction n generalizing pos wanted got with
  | zero => trivial
  | succ n ih =>
    unfold readLoop
    split
    · trivial
    · refine (s.dataSectorForPos_stops pos).bind (fun x failed => ?_) fun x => ?_
      · rw [failed]
        exact ⟨got, trivial, rfl⟩
      · match x with
        | none => trivial
        | some none => exact ih _ _ _
        | some (some lba) => exact Loads.Stops.load trivial rfl fun data => ih _ _ _

/-- The tree is deep enough for the file. -/
def Covered (s : HDDData) : Prop := s._size ≤ treeCoverage s.tree_depth

/- The byte of the selected file. -/
def byteAt (image : Nat → Option Str) (s : HDDData) (pos : Nat) (b : UInt8) : Prop :=
  FileByte image s.file_tree s.tree_depth pos b

/- One sector of a file. -/
theorem dataSectorForPos_gives (covered : s.Covered) {pos : Nat} (inside : pos < s._size) {sector : Option Nat}
    (gives : Gives image (s.dataSectorForPos pos) (some sector)) {q : Nat} (same : q / 512 = pos / 512) :
    (sector = none → s.byteAt image q 0) ∧
      ∀ lba data, sector = some lba → image lba = some data → s.byteAt image q (data.getD (column (q % 512)) 0) := by
  unfold dataSectorForPos at gives
  split at gives
  · rename_i zero
    cases gives
    exact ⟨fun _ => .empty zero, fun _ _ other => by cases other⟩
  · rename_i some_
    rw [Bool.not_eq_true] at some_
    have holds := (sectorBelow_gives (Nat.lt_of_lt_of_le inside covered) gives).same_sector same.symm
    refine ⟨fun none => .hole some_ (none ▸ holds), fun lba data here block => .stored some_ (here ▸ holds) block⟩

/-- What `readFile` returns are bytes of the file. -/
theorem readLoop_gives (covered : s.Covered) {n pos wanted : Nat} {got out : Str}
    (gives : Gives image (s.readLoop n pos wanted got) out) :
    ∃ more, out = got ++ more ∧ ∀ i b, more[i]? = some b → s.byteAt image (pos + i) b := by
  induction n generalizing pos wanted got with
  | zero =>
    cases gives
    exact ⟨[], (List.append_nil _).symm, nofun⟩
  | succ n ih =>
    unfold readLoop at gives
    split at gives
    · cases gives
      exact ⟨[], (List.append_nil _).symm, nofun⟩
    · rename_i go
      rw [not_or, Nat.not_le] at go
      dsimp only at gives
      obtain ⟨chunk, size⟩ : ∃ chunk, chunk = min (min wanted (512 - pos % 512)) (s._size - pos) := ⟨_, rfl⟩
      rw [← size] at gives
      -- the bytes of a pass, and those of the passes after it
      have join : ∀ piece : Str, piece.length = chunk → (∀ i b, piece[i]? = some b → s.byteAt image (pos + i) b) →
          Gives image (s.readLoop n (pos + chunk) (wanted - chunk) (got ++ piece)) out →
          ∃ more, out = got ++ more ∧ ∀ i b, more[i]? = some b → s.byteAt image (pos + i) b := by
        intro piece length bytes rest
        obtain ⟨more, result, later⟩ := ih rest
        refine ⟨piece ++ more, by rw [result, List.append_assoc], fun i b here => ?_⟩
        by_cases first : i < chunk
        · rw [List.getElem?_append_left (by omega)] at here
          exact bytes i b here
        · rw [List.getElem?_append_right (by omega)] at here
          have there := later _ b here
          rwa [length, show pos + chunk + (i - chunk) = pos + i by omega] at there
      obtain ⟨x, first, rest⟩ := Gives.of_bind gives
      match x, first, rest with
      | none, _, rest =>
        cases rest
        exact ⟨[], (List.append_nil _).symm, nofun⟩
      | some none, first, rest =>
        refine join (List.replicate chunk 0) (List.length_replicate) (fun i b here => ?_) rest
        rw [List.getElem?_replicate] at here
        split at here
        · cases here
          exact (dataSectorForPos_gives covered go.2 first (by omega)).1 rfl
        · cases here
      | some (some lba), first, rest =>
        cases rest with
        | fails last =>
          cases last
          exact ⟨[], (List.append_nil _).symm, nofun⟩
        | @loads _ _ _ data _ block last =>
          refine join _ (by rw [List.length_map, List.length_range]) (fun i b here => ?_) last
          have short : i < chunk := by
            have inside := (List.getElem?_eq_some_iff.mp here).1
            rwa [List.length_map, List.length_range] at inside
          rw [List.getElem?_map, List.getElem?_range short, Option.map_some, Option.some.injEq] at here
          rw [← here]
          have same : (pos + i) % 512 = pos % 512 + i := by omega
          rw [← same]
          exact (dataSectorForPos_gives covered go.2 first (by omega)).2 lba data rfl block

theorem depthFor_covers (size room depth : Nat) :
    size ≤ treeCoverage (depthFor size room depth) ∨ depthFor size room depth = depth + room := by
  induction room generalizing depth with
  | zero => exact .inr rfl
  | succ room ih =>
    unfold depthFor
    split
    · rcases ih (depth + 1) with covers | deepest
      · exact .inl covers
      · exact .inr (by omega)
    · exact .inl (by omega)

theorem size_lt (de : DirectoryEntry) : de.size < 2 ^ 32 := by
  have byte : ∀ i, de.infoByte i < 256 := fun i => UInt8.toNat_lt _
  have first := byte 0
  have second := byte 1
  have third := byte 2
  have fourth := byte 3
  unfold DirectoryEntry.size DirectoryEntry.getFilesize
  split
  · omega
  · split
    · omega
    · decide

theorem select_covered (s : HDDData) (de : DirectoryEntry) : (s.select de.asEntry).Covered := by
  have deepest : 2 ^ 32 ≤ treeCoverage 7 := by decide
  rcases depthFor_covers de.size 6 1 with covers | last
  · exact covers
  · show de.size ≤ treeCoverage (depthFor de.size 6 1)
    rw [last]
    exact (Nat.le_of_lt (size_lt de)).trans deepest

variable {device : Device Nat Str}

/- What the reads of a run keep. -/
structure Stands (image : Nat → Option Str) (s : HDDData) : Prop where
  sound : s.buffers.Sound image
  covered : s.Covered

theorem select_stands (sound : s.buffers.Sound image) (de : DirectoryEntry) : Stands image (s.select de.asEntry) where
  sound i k tag := by
    cases i with
    | tree => cases tag
    | data => exact sound .data k tag
  covered := select_covered s de

theorem opened_stands (de : DirectoryEntry) : Stands image (opened de) := select_stands (fun _ _ tag => by cases tag) de

theorem program_stops (s : HDDData) (op : CfsOp) : (s.program op).Stops fun _ => True := by
  cases op with
  | select de => trivial
  | seek offset => trivial
  | read size =>
    rw [program]
    split
    · trivial
    · exact readLoop_stops _ _ _ _ _

/-- What an operation reads is in the file. -/
def ReadsFile (image : Nat → Option Str) (device : Device Nat Str) (s : HDDData) (op : CfsOp) : Prop :=
  ∀ i b, ((s.program op).run device s.buffers).1[i]? = some b → s.byteAt image (s._position + i) b

theorem Stands.reads (stands : Stands image s) (serves : Serves device image) (op : CfsOp) : ReadsFile image device s op := by
  obtain ⟨gives, -⟩ := (program_stops s op).run serves stands.sound
  cases op with
  | select de => exact fun i b here => by cases here
  | seek offset => exact fun i b here => by cases here
  | read size =>
    rw [program] at gives
    rw [ReadsFile, program]
    split at gives
    · rename_i ended
      rw [if_pos ended]
      exact fun i b here => by cases here
    · rename_i more
      rw [if_neg more]
      obtain ⟨piece, result, bytes⟩ := readLoop_gives stands.covered gives
      rw [List.nil_append] at result
      rw [result]
      exact bytes

/-- An operation leaves the marks right exactly when its loads are harmless. -/
theorem Stands.step_iff (stands : Stands image s) (serves : Serves device image) (op : CfsOp) :
    (s.program op).Quiet device s.buffers ↔ (s.step device op).buffers.Sound image := by
  cases op with
  | select de => exact iff_of_true trivial (select_stands stands.sound de).sound
  | seek offset => exact iff_of_true trivial stands.sound
  | read size => exact ((program_stops s (.read size)).run serves stands.sound).2.symm

theorem Stands.step (stands : Stands image s) {op : CfsOp} (sound : (s.step device op).buffers.Sound image) :
    Stands image (s.step device op) := by
  cases op with
  | select de => exact select_stands stands.sound de
  | seek offset => exact ⟨sound, stands.covered⟩
  | read size => exact ⟨sound, stands.covered⟩

theorem sectorDevice_serves (c : Container) (failure : Nat → Option Str) :
    Serves (sectorDevice c failure) (readSector c) := by
  intro asked lba buf ok
  unfold sectorDevice at ok ⊢
  cases answer : failure asked with
  | some written =>
    rw [answer] at ok
    cases ok
  | none =>
    rw [answer] at ok
    dsimp only at ok ⊢
    have whole := of_decide_eq_true ok
    rw [readSector, Container.fetch, if_pos whole, Store.overlaid, List.take_left' whole]

/-- In a run of reads and seeks on files of an image, whichever sector reads fail, every byte that is
reported is the file's and the marks of the kept sectors stay right, exactly as long as no read that
fails writes over a sector that is kept. -/
theorem reads_file_iff (c : Container) (failure : Nat → Option Str) (de : DirectoryEntry) (ops : List CfsOp) :
    Along (step (sectorDevice c failure))
        (fun s op => (s.program op).Quiet (sectorDevice c failure) s.buffers) (opened de) ops ↔
      Along (step (sectorDevice c failure))
        (fun s op => ReadsFile (readSector c) (sectorDevice c failure) s op ∧
          (s.step (sectorDevice c failure) op).buffers.Sound (readSector c)) (opened de) ops := by
  have serves := sectorDevice_serves c failure
  refine Along.congr (fun s op stands => ?_) (fun s op stands kept => stands.step kept.2) (opened_stands de)
  rw [stands.step_iff serves op]
  exact (and_iff_right (stands.reads serves op)).symm

/- An image with a file of two sectors. -/
def sampleTree : Str := [0, 0, 0, 2, 0, 0, 0, 3] ++ List.replicate 504 0

def twoSectors : Container where
  data := fun k =>
    if k < 512 then 0 else if k < 1024 then sampleTree.getD (k - 512) 0 else if k < 1536 then 0x11 else 0x22
  size := 2048

def twoSectorFile : DirectoryEntry where
  filename := [0x41]
  info := [0, 4, 0, 0]
  pointer := ⟨0x40, 0, 0, 1⟩
  attributes := 0x81
  type_str := []

/- The read of the second data sector fails behind its first byte. -/
def secondFails (asked : Nat) : Option Str := if asked = 2 then some [0x22] else none

theorem readSector_inside {c : Container} {lba : Nat} (inside : lba * 512 % 2 ^ 32 + 512 ≤ c.size) :
    readSector c lba = some (Store.read c.data (lba * 512 % 2 ^ 32) 512) := by
  have whole : min 512 (c.size - lba * 512 % 2 ^ 32) = 512 := by omega
  simp only [readSector, Container.fetch, Container.seek, Container.read, whole, Store.length_read, if_true]

theorem twoSectors_tree : readSector twoSectors 1 = some sampleTree := by
  rw [readSector_inside (by decide)]
  refine congrArg some (List.ext_getElem ?_ fun i inside there => ?_)
  · rw [Store.length_read, sampleTree, List.length_append, List.length_replicate]
    rfl
  rw [Store.length_read] at inside
  rw [← Option.some_inj, ← List.getElem?_eq_getElem, Store.getElem?_read _ _ _ _ inside]
  have place : 1 * 512 % 2 ^ 32 + i = 512 + i := rfl
  have byte : twoSectors.data (512 + i) = sampleTree.getD i 0 := by
    simp only [twoSectors]
    rw [if_neg (by omega), if_pos (by omega), Nat.add_sub_cancel_left]
  rw [place, byte, List.getD_eq_getElem _ _ there]

theorem twoSectors_first : readSector twoSectors 2 = some (List.replicate 512 0x11) := by
  rw [readSector_inside (by decide)]
  refine congrArg some (List.eq_replicate_iff.mpr ⟨Store.length_read _ _ _, fun b member => ?_⟩)
  obtain ⟨i, below, rfl⟩ := List.mem_map.mp member
  have inside := List.mem_range.mp below
  have place : 2 * 512 % 2 ^ 32 + i = 1024 + i := rfl
  simp only [twoSectors, place]
  rw [if_neg (by omega), if_neg (by omega), if_pos (by omega)]

theorem twoSectors_second : readSector twoSectors 3 = some (List.replicate 512 0x22) := by
  rw [readSector_inside (by decide)]
  refine congrArg some (List.eq_replicate_iff.mpr ⟨Store.length_read _ _ _, fun b member => ?_⟩)
  obtain ⟨i, below, rfl⟩ := List.mem_map.mp member
  have inside := List.mem_range.mp below
  have place : 3 * 512 % 2 ^ 32 + i = 1536 + i := rfl
  simp only [twoSectors, place]
  rw [if_neg (by omega), if_neg (by omega), if_neg (by omega)]

theorem twoSectorFile_first {b : UInt8} (byte : FileByte (readSector twoSectors) ⟨0x40, 0, 0, 1⟩ 1 0 b) : b = 0x11 := by
  have node : Pointer.getLBA ⟨0x40, 0, 0, 1⟩ = 1 := by decide
  have pointer : (if (pointerAt sampleTree (0 / 512 * 4)).isZero then none else
      some (pointerAt sampleTree (0 / 512 * 4)).getLBA) = some 2 := by decide
  cases byte with
  | empty zero => exact absurd zero (by decide)
  | hole _ holds =>
    rw [node] at holds
    have own := holds.own_eq (by decide) twoSectors_tree
    rw [pointer] at own
    cases own
  | @stored lba block _ holds there =>
    rw [node] at holds
    have own := holds.own_eq (by decide) twoSectors_tree
    rw [pointer, Option.some.injEq] at own
    rw [own, twoSectors_first, Option.some.injEq] at there
    rw [← there]
    decide

/- The first sector is read again from the buffer that the failed read has written over. -/
theorem spoilt_sector_read : ∃ c failure de ops, ¬ Along (step (sectorDevice c failure))
    (fun s op => ReadsFile (readSector c) (sectorDevice c failure) s op) (opened de) ops := by
  refine ⟨twoSectors, secondFails, twoSectorFile, [.read 1, .seek 512, .read 1, .seek 0, .read 1], fun along => ?_⟩
  obtain ⟨-, -, -, -, last, -⟩ := along
  have reported : ((HDDData.program (([.read 1, .seek 512, .read 1, .seek 0] : List CfsOp).foldl
      (step (sectorDevice twoSectors secondFails)) (opened twoSectorFile)) (.read 1)).run
      (sectorDevice twoSectors secondFails) (([.read 1, .seek 512, .read 1, .seek 0] : List CfsOp).foldl
      (step (sectorDevice twoSectors secondFails)) (opened twoSectorFile)).buffers).1[0]? = some 0x22 := by
    decide +kernel
  exact absurd (twoSectorFile_first (last 0 0x22 reported)) (by decide)

end HDDData

end Meatloaf.Hd
