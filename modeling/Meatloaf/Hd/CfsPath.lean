import Mathlib.Logic.Relation
import Meatloaf.Hd.Cfs

/-! Paths into a CFS image. The file strips a leading partition from its path and tells the
stream the number; the stream enters that partition and walks the rest of the path,
directory by directory. Every read of the container is preceded by a seek, so where the
container stands between two reads is left out. -/
namespace Meatloaf.Hd

open Lib

structure DirectoryEntry where
  filename : Str
  info : Str
  pointer : Pointer
  attributes : UInt8
  type_str : Str

/-- Entry `i` of a directory sector. -/
def directoryEntry (sector : Str) (i : Nat) : DirectoryEntry :=
  let bytes := (sector.drop (i * 32)).take 32
  { filename := bytes.take 16
    info := (bytes.drop 0x10).take 4
    pointer := pointerAt bytes 0x14
    attributes := bytes.getD 0x18 0
    type_str := (bytes.drop 0x19).take 3 }

namespace DirectoryEntry

def isClosed (de : DirectoryEntry) : Bool := de.attributes &&& 0x80 != 0

def getFileType (de : DirectoryEntry) : UInt8 := de.attributes &&& 7

def isFree (de : DirectoryEntry) : Bool := de.getFileType == 0 && !de.isClosed

def isNormalFile (de : DirectoryEntry) : Bool := de.getFileType == 1

def isRELFile (de : DirectoryEntry) : Bool := de.getFileType == 2

def isDirType (de : DirectoryEntry) : Bool := de.getFileType == 3

def isLabel (de : DirectoryEntry) : Bool := de.isDirType && !de.isClosed

def isDirectory (de : DirectoryEntry) : Bool := de.isDirType && de.isClosed

def infoByte (de : DirectoryEntry) (i : Nat) : Nat := (de.info.getD i 0).toNat

def getFilesize (de : DirectoryEntry) : Nat :=
  de.infoByte 0 + 2 ^ 8 * de.infoByte 1 + 2 ^ 16 * de.infoByte 2 + 2 ^ 24 * de.infoByte 3

def size (de : DirectoryEntry) : Nat :=
  if de.isRELFile = true then de.infoByte 0 + 2 ^ 8 * de.infoByte 1 + 2 ^ 16 * de.infoByte 2
  else if de.isNormalFile = true then de.getFilesize
  else 0

/- The type string, or what stands for it where it is empty: "del", "prg", "rel", "dir",
"lnk" and "???". -/
def type (de : DirectoryEntry) : Str :=
  if trimEntryName de.type_str 0 ≠ [] then trimEntryName de.type_str 0
  else if de.getFileType = 0 then [0x64, 0x65, 0x6c]
  else if de.getFileType = 1 then [0x70, 0x72, 0x67]
  else if de.getFileType = 2 then [0x72, 0x65, 0x6c]
  else if de.getFileType = 3 then [0x64, 0x69, 0x72]
  else if de.getFileType = 4 then [0x6c, 0x6e, 0x6b]
  else [0x3f, 0x3f, 0x3f]

def asEntry (de : DirectoryEntry) : CfsEntry where
  filename := trimEntryName de.filename 0
  size := de.size
  type := de.type
  attributes := de.attributes
  pointer := de.pointer
  is_directory := de.isDirectory
  is_hidden := de.pointer.isHidden || !de.isClosed

end DirectoryEntry

/- One byte of a sliced pointer: the bits of entries `4 * g` to `4 * g + 3`. -/
def slicedByte (slices : Nat → UInt8) (g : Nat) : UInt8 :=
  slices (4 * g) <<< 6 ||| slices (4 * g + 1) <<< 4 ||| slices (4 * g + 2) <<< 2 ||| slices (4 * g + 3)

/- A pointer put together from sixteen slices, its last byte first. -/
def slicedPointer (slices : Nat → UInt8) : Pointer :=
  ⟨slicedByte slices 3, slicedByte slices 2, slicedByte slices 1, slicedByte slices 0⟩

/-- `nextDirSector`: 0 at the end of a directory. -/
def nextDirSector (dir_buf : Str) : Nat :=
  let p := slicedPointer fun e => (directoryEntry dir_buf e).pointer.slice
  if p = ⟨0, 0, 0, 0⟩ then 0 else p.getLBA

namespace HDDStream

def readDirSector (s : HDDStream) (lba : Nat) : Bool × HDDStream :=
  match readSector s.container lba with
  | none => (false, { s with walk_lba := 0 })
  | some buf => (true, { s with dir_buf := buf, walk_lba := lba })

/-- The loop of `seekEntry(index)`, which need not end on a chain of sectors that runs in
a circle; `none` is a loop that is still running. -/
def walkLoop (index : Nat) : Nat → HDDStream → Option (Bool × HDDStream)
  | 0, _ => none
  | fuel + 1, s =>
    let advanced : Bool × HDDStream :=
      if 16 ≤ s.walk_pos then
        if nextDirSector s.dir_buf = 0 then (false, s)
        else
          let (ok, s) := s.readDirSector (nextDirSector s.dir_buf)
          (ok, if ok then { s with walk_pos := 0 } else s)
      else (true, s)
    match advanced with
    | (false, s) => some (false, s)
    | (true, s) =>
      let de := directoryEntry s.dir_buf s.walk_pos
      let s := { s with walk_pos := s.walk_pos + 1 }
      if de.isLabel = true then walkLoop index fuel { s with dir_label := trimEntryName de.filename 0x20 }
      else if de.isFree = true then walkLoop index fuel s
      else
        let s := { s with walk_count := (s.walk_count + 1) % 65536 }
        if s.walk_count < index then walkLoop index fuel s
        else some (true, { s with entry := de.asEntry, entry_index := index })

/-- `seekEntry(uint16_t index)`. -/
def seekEntryAt (fuel : Nat) (index : Nat) (s : HDDStream) : Option (Bool × HDDStream) :=
  if s.partition_list = true then some (s.seekPartitionEntry index)
  else if index = 0 ∨ s.dir_start_lba = 0 then some (false, s)
  else if index ≤ s.walk_count ∨ s.walk_lba = 0 then
    match s.restartDirWalk.readDirSector s.dir_start_lba with
    | (false, s) => some (false, s)
    | (true, s) => walkLoop index fuel s
  else walkLoop index fuel s

/- The loop of `seekEntry(filename)` from entry `index` on. A pattern of wildcards only skips
directories and separators. -/
def matchLoop (filename : Str) (wildcard files_only : Bool) (walk : Nat) :
    Nat → Nat → HDDStream → Option (Bool × HDDStream)
  | 0, _, _ => none
  | fuel + 1, index, s =>
    match seekEntryAt walk index s with
    | none => none
    | some (false, s) => some (false, s)
    | some (true, s) =>
      let next := (index + 1) % 65536
      if files_only = true ∧ (s.entry.is_directory = true ∨ s.entry.attributes &&& 7 = 0) then
        matchLoop filename wildcard files_only walk fuel next s
      else if compareFilename s.entry.filename filename wildcard = true then some (true, s)
      else matchLoop filename wildcard files_only walk fuel next s

def seekEntry (fuel : Nat) (filename : Str) (s : HDDStream) : Option (Bool × HDDStream) :=
  if filename = [] then some (false, s)
  else
    let filename := toPETSCII2 (slashed filename)
    matchLoop filename (isWildcard filename) (isWildcard filename && wildcardOnly filename) fuel fuel 1 s

def enterDirectory (fuel : Nat) (name : Str) (s : HDDStream) : Option (Bool × HDDStream) :=
  match seekEntry fuel name s with
  | none => none
  | some (false, s) => some (false, s)
  | some (true, s) =>
    if s.entry.is_directory = false then some (false, s)
    else
      let s := { s with dir_start_lba := s.entry.pointer.getLBA }
      if s.dir_start_lba = 0 then some (false, s)
      else some (true, { { s with dir_label := s.entry.filename }.restartDirWalk with entry_index := 0 })

def enterDirectories (fuel : Nat) : List Str → HDDStream → Option (Bool × HDDStream)
  | [], s => some (true, s)
  | part :: parts, s =>
    match enterDirectory fuel part s with
    | none => none
    | some (false, s) => some (false, s)
    | some (true, s) => enterDirectories fuel parts s

def selectCurrentPartition (s : HDDStream) : Bool × HDDStream :=
  if s.selected_partition ≠ 0 ∧ (s.selectPartitionByNumber s.selected_partition).1 = true then
    s.selectPartitionByNumber s.selected_partition
  else s.selectPartitionByName []

/- The image root: nothing is selected yet. -/
def resetRoot (s : HDDStream) : HDDStream :=
  { { s with partition_list := true, dir_start_lba := 0, dir_label := [] }.restartDirWalk with entry_index := 0 }

/- Which partition a path starts in, and the components that are left. -/
def startPartition (s : HDDStream) (parts : List Str) : Bool × HDDStream × List Str :=
  match parts with
  | part :: rest =>
    if s.selected_partition = 0 ∧ (s.selectPartitionByName part).1 = true then
      (true, (s.selectPartitionByName part).2, rest)
    else (s.selectCurrentPartition.1, s.selectCurrentPartition.2, parts)
  | [] => (s.selectCurrentPartition.1, s.selectCurrentPartition.2, [])

def seekDirectory (fuel : Nat) (path : Str) (s : HDDStream) : Option (Bool × HDDStream) :=
  match if s.header_read = true then (true, s) else s.readHeader with
  | (false, s) => some (false, s)
  | (true, s) =>
    match s.resetRoot.startPartition (splitPathComponents path) with
    | (false, s, _) => some (false, s)
    | (true, s, parts) => enterDirectories fuel parts s

end HDDStream

/-- An `HDDMFile`. -/
structure HDDFile where
  pathInStream : Str
  normalized : Bool := false
  listing_partitions : Bool := false
  m_part : UInt8 := 0

namespace HDDFile

def normalizePath (img : HDDImage) (f : HDDFile) : HDDFile :=
  if f.normalized = true then f
  else if f.pathInStream = [] then { f with normalized := true }
  else if listsPartitions f.pathInStream = true then
    { f with normalized := true, listing_partitions := true, pathInStream := [] }
  else
    let x := hddResolvePartitionIn img f.pathInStream
    match x.out_explicit, x.partition with
    | true, some p => { f with normalized := true, m_part := p.number, pathInStream := x.out_rest }
    | _, _ => { f with normalized := true }

def effectivePartition (img : HDDImage) (f : HDDFile) : Option HDDPartition :=
  if f.m_part = 0 then img.current else img.byNumber f.m_part

def applyPartition (img : HDDImage) (f : HDDFile) (s : HDDStream) : HDDStream :=
  { s with selected_partition := ((f.effectivePartition img).map (·.number)).getD 0 }

end HDDFile

/- ## The directory tree of an image -/

/-- The sectors of a directory, from its first. -/
inductive OnChain (c : Container) (first : Nat) : Nat → Prop
  | first : OnChain c first first
  | next {lba : Nat} {buf : Str} : OnChain c first lba → readSector c lba = some buf → nextDirSector buf ≠ 0 →
      OnChain c first (nextDirSector buf)

/-- Directory `b` is entered in directory `a`. -/
def Subdirectory (c : Container) (a b : Nat) : Prop :=
  ∃ lba buf i, OnChain c a lba ∧ readSector c lba = some buf ∧ i < 16 ∧
    (directoryEntry buf i).isDirectory = true ∧ (directoryEntry buf i).pointer.getLBA = b ∧ b ≠ 0

/-- The tree of directories below a root. -/
def InTree (c : Container) (root : Nat) : Nat → Prop := Relation.ReflTransGen (Subdirectory c) root

namespace HDDStream

/-- The stream stands in a directory; what it holds in its buffer belongs to that directory. -/
structure Walks (c : Container) (s : HDDStream) : Prop where
  data : s.container.data = c.data
  size : s.container.size = c.size
  inside : s.partition_list = false
  buffer : s.walk_lba = 0 ∨ OnChain c s.dir_start_lba s.walk_lba ∧ readSector c s.walk_lba = some s.dir_buf

/-- The entry the stream found is one of the directory's. -/
def Found (c : Container) (s : HDDStream) : Prop :=
  ∃ lba buf i, OnChain c s.dir_start_lba lba ∧ readSector c lba = some buf ∧ i < 16 ∧
    s.entry = (directoryEntry buf i).asEntry

theorem Walks.sector {c : Container} {s : HDDStream} (walks : Walks c s) (lba : Nat) :
    readSector s.container lba = readSector c lba := fetch_congr walks.data walks.size _ _

theorem readDirSector_walks {c : Container} {s s' : HDDStream} (walks : Walks c s) {lba : Nat} {ok : Bool}
    (chain : OnChain c s.dir_start_lba lba) (result : s.readDirSector lba = (ok, s')) :
    Walks c s' ∧ s'.dir_start_lba = s.dir_start_lba ∧ s'.walk_pos = s.walk_pos ∧
      (ok = true → s'.walk_lba = lba ∧ readSector c lba = some s'.dir_buf) := by
  unfold readDirSector at result
  rw [walks.sector] at result
  cases read : readSector c lba with
  | none =>
    rw [read] at result
    obtain ⟨rfl, rfl⟩ := result
    exact ⟨⟨walks.data, walks.size, walks.inside, .inl rfl⟩, rfl, rfl, fun no => by cases no⟩
  | some buf =>
    rw [read] at result
    obtain ⟨rfl, rfl⟩ := result
    exact ⟨⟨walks.data, walks.size, walks.inside, .inr ⟨chain, read⟩⟩, rfl, rfl, fun _ => ⟨rfl, rfl⟩⟩

/- One call of the walk stays in the directory, and an entry it returns is the directory's. -/
theorem walkLoop_walks {c : Container} (index fuel : Nat) {s s' : HDDStream} {ok : Bool} (walks : Walks c s)
    (chain : OnChain c s.dir_start_lba s.walk_lba) (read : readSector c s.walk_lba = some s.dir_buf)
    (result : walkLoop index fuel s = some (ok, s')) :
    Walks c s' ∧ s'.dir_start_lba = s.dir_start_lba ∧ (ok = true → Found c s') := by
  induction fuel generalizing s with
  | zero => cases result
  | succ fuel ih =>
    unfold walkLoop at result
    -- the entry to look at, once a sector with one is in the buffer
    have look : ∀ t : HDDStream, Walks c t → t.dir_start_lba = s.dir_start_lba → t.walk_pos < 16 →
        OnChain c t.dir_start_lba t.walk_lba → readSector c t.walk_lba = some t.dir_buf →
        (let de := directoryEntry t.dir_buf t.walk_pos
          let t := { t with walk_pos := t.walk_pos + 1 }
          if de.isLabel = true then walkLoop index fuel { t with dir_label := trimEntryName de.filename 0x20 }
          else if de.isFree = true then walkLoop index fuel t
          else
            let t := { t with walk_count := (t.walk_count + 1) % 65536 }
            if t.walk_count < index then walkLoop index fuel t
            else some (true, { t with entry := de.asEntry, entry_index := index })) = some (ok, s') →
        Walks c s' ∧ s'.dir_start_lba = s.dir_start_lba ∧ (ok = true → Found c s') := by
      intro t inside same position chain read rest
      have again : ∀ u : HDDStream, walkLoop index fuel u = some (ok, s') → Walks c u →
          u.dir_start_lba = t.dir_start_lba → u.walk_lba = t.walk_lba → u.dir_buf = t.dir_buf →
          Walks c s' ∧ s'.dir_start_lba = s.dir_start_lba ∧ (ok = true → Found c s') := by
        intro u rest' walks' start lba buf
        have done := ih walks' (by rw [start, lba]; exact chain) (by rw [lba, buf]; exact read) rest'
        rw [start, same] at done
        exact done
      dsimp only at rest
      split at rest
      · exact again _ rest ⟨inside.data, inside.size, inside.inside, inside.buffer⟩ rfl rfl rfl
      · split at rest
        · exact again _ rest ⟨inside.data, inside.size, inside.inside, inside.buffer⟩ rfl rfl rfl
        · split at rest
          · exact again _ rest ⟨inside.data, inside.size, inside.inside, inside.buffer⟩ rfl rfl rfl
          · obtain ⟨rfl, rfl⟩ := Prod.mk.inj (Option.some.inj rest)
            exact ⟨⟨inside.data, inside.size, inside.inside, inside.buffer⟩, same,
              fun _ => ⟨t.walk_lba, t.dir_buf, t.walk_pos, chain, read, position, rfl⟩⟩
    dsimp only at result
    by_cases full : 16 ≤ s.walk_pos
    · rw [if_pos full] at result
      by_cases last : nextDirSector s.dir_buf = 0
      · rw [if_pos last] at result
        obtain ⟨rfl, rfl⟩ := Prod.mk.inj (Option.some.inj result)
        exact ⟨walks, rfl, fun no => by cases no⟩
      · rw [if_neg last] at result
        have chain' := OnChain.next chain read last
        rcases step : s.readDirSector (nextDirSector s.dir_buf) with ⟨ok', t⟩
        obtain ⟨walks', same, -, here⟩ := readDirSector_walks walks chain' step
        rw [step] at result
        cases ok' with
        | false =>
          obtain ⟨rfl, rfl⟩ := Prod.mk.inj (Option.some.inj result)
          exact ⟨walks', same, fun no => by cases no⟩
        | true =>
          obtain ⟨lba, buf⟩ := here rfl
          refine look { t with walk_pos := 0 } ⟨walks'.data, walks'.size, walks'.inside, walks'.buffer⟩ same
            (by dsimp only; omega) ?_ ?_ result
          · dsimp only
            rw [same, lba]
            exact chain'
          · dsimp only
            rw [lba]
            exact buf
    · rw [if_neg full] at result
      exact look s walks rfl (by omega) chain read result

theorem seekEntryAt_walks {c : Container} (fuel index : Nat) {s s' : HDDStream} {ok : Bool} (walks : Walks c s)
    (result : seekEntryAt fuel index s = some (ok, s')) :
    Walks c s' ∧ s'.dir_start_lba = s.dir_start_lba ∧ (ok = true → Found c s') := by
  unfold seekEntryAt at result
  rw [walks.inside] at result
  simp only [Bool.false_eq_true, if_false] at result
  split at result
  · obtain ⟨rfl, rfl⟩ := Prod.mk.inj (Option.some.inj result)
    exact ⟨walks, rfl, fun no => by cases no⟩
  · split at result
    · have restarted : Walks c s.restartDirWalk := ⟨walks.data, walks.size, walks.inside, .inl rfl⟩
      rcases step : s.restartDirWalk.readDirSector s.dir_start_lba with ⟨ok', t⟩
      obtain ⟨walks', same, -, here⟩ := readDirSector_walks restarted OnChain.first step
      rw [step] at result
      cases ok' with
      | false =>
        obtain ⟨rfl, rfl⟩ := Prod.mk.inj (Option.some.inj result)
        exact ⟨walks', same, fun no => by cases no⟩
      | true =>
        obtain ⟨lba, buf⟩ := here rfl
        have start' : OnChain c t.dir_start_lba t.walk_lba := by
          rw [lba, same]
          exact OnChain.first
        obtain ⟨done, start, found⟩ := walkLoop_walks index fuel walks' start' (by rw [lba]; exact buf) result
        exact ⟨done, start.trans same, found⟩
    · rename_i going
      rcases walks.buffer with zero | ⟨chain, read⟩
      · exact absurd (.inr zero) going
      · exact walkLoop_walks index fuel walks chain read result

theorem matchLoop_walks {c : Container} (filename : Str) (wildcard files_only : Bool) (walk fuel index : Nat)
    {s s' : HDDStream} {ok : Bool} (walks : Walks c s)
    (result : matchLoop filename wildcard files_only walk fuel index s = some (ok, s')) :
    Walks c s' ∧ s'.dir_start_lba = s.dir_start_lba ∧ (ok = true → Found c s') := by
  induction fuel generalizing index s with
  | zero => cases result
  | succ fuel ih =>
    unfold matchLoop at result
    cases step : seekEntryAt walk index s with
    | none =>
      rw [step] at result
      cases result
    | some out =>
      obtain ⟨ok', t⟩ := out
      obtain ⟨walks', same, found⟩ := seekEntryAt_walks walk index walks step
      rw [step] at result
      cases ok' with
      | false =>
        obtain ⟨rfl, rfl⟩ := Prod.mk.inj (Option.some.inj result)
        exact ⟨walks', same, fun no => by cases no⟩
      | true =>
        dsimp only at result
        have again : ∀ n, matchLoop filename wildcard files_only walk fuel n t = some (ok, s') →
            Walks c s' ∧ s'.dir_start_lba = s.dir_start_lba ∧ (ok = true → Found c s') := by
          intro n rest
          obtain ⟨done, start, last⟩ := ih n walks' rest
          exact ⟨done, start.trans same, last⟩
        split at result
        · exact again _ result
        · split at result
          · obtain ⟨rfl, rfl⟩ := Prod.mk.inj (Option.some.inj result)
            exact ⟨walks', same, found⟩
          · exact again _ result

/-- Entering a directory goes one step down the tree. -/
theorem enterDirectory_walks {c : Container} (fuel : Nat) (name : Str) {s s' : HDDStream} (walks : Walks c s)
    (result : enterDirectory fuel name s = some (true, s')) :
    Walks c s' ∧ Subdirectory c s.dir_start_lba s'.dir_start_lba := by
  unfold enterDirectory at result
  cases step : seekEntry fuel name s with
  | none =>
    rw [step] at result
    cases result
  | some out =>
    obtain ⟨ok, t⟩ := out
    rw [step] at result
    cases ok with
    | false => cases result
    | true =>
      have searched : Walks c t ∧ t.dir_start_lba = s.dir_start_lba ∧ Found c t := by
        unfold seekEntry at step
        split at step
        · cases step
        · obtain ⟨done, start, found⟩ := matchLoop_walks _ _ _ fuel fuel 1 walks step
          exact ⟨done, start, found rfl⟩
      obtain ⟨walks', same, lba, buf, i, chain, read, small, entry⟩ := searched
      dsimp only at result
      split at result
      · cases result
      · rename_i directory
        rw [Bool.not_eq_false] at directory
        split at result
        · cases result
        · rename_i nonzero
          obtain ⟨-, rfl⟩ := Prod.mk.inj (Option.some.inj result)
          refine ⟨⟨walks'.data, walks'.size, walks'.inside, .inl rfl⟩, lba, buf, i, ?_, read, small, ?_, ?_, nonzero⟩
          · rw [← same]
            exact chain
          · rw [entry] at directory
            exact directory
          · dsimp only [restartDirWalk]
            rw [entry]
            rfl

theorem enterDirectories_walks {c : Container} (fuel : Nat) (parts : List Str) {s s' : HDDStream} (walks : Walks c s)
    (result : enterDirectories fuel parts s = some (true, s')) : InTree c s.dir_start_lba s'.dir_start_lba := by
  induction parts generalizing s with
  | nil =>
    obtain ⟨-, rfl⟩ := Prod.mk.inj (Option.some.inj result)
    exact Relation.ReflTransGen.refl
  | cons part parts ih =>
    unfold enterDirectories at result
    cases step : enterDirectory fuel part s with
    | none =>
      rw [step] at result
      cases result
    | some out =>
      obtain ⟨ok, t⟩ := out
      rw [step] at result
      cases ok with
      | false => cases result
      | true =>
        obtain ⟨walks', down⟩ := enterDirectory_walks fuel part walks step
        exact Relation.ReflTransGen.head down (ih walks' result)

/-- The stream is on the image; if it read the tables, they are the image's. -/
structure OnImage (c : Container) (s : HDDStream) : Prop where
  data : s.container.data = c.data
  size : s.container.size = c.size
  tables : s.header_read = true → readTables c = some (s.boot_sector, s.partition_entries)

theorem setPartitionExtent_facts (s : HDDStream) (first last : Nat) :
    (s.setPartitionExtent first last).dir_start_lba = s.dir_start_lba ∧
      (s.setPartitionExtent first last).container = s.container ∧
      (s.setPartitionExtent first last).partition_list = s.partition_list := by
  unfold setPartitionExtent
  split
  · exact ⟨rfl, rfl, rfl⟩
  · exact ⟨rfl, rfl, rfl⟩

theorem enterPartition_facts (s : HDDStream) (pe : PartitionEntry) :
    (s.enterPartition pe).dir_start_lba = pe.root_dir.getLBA ∧ (s.enterPartition pe).container = s.container ∧
      (s.enterPartition pe).partition_list = false ∧ (s.enterPartition pe).walk_lba = 0 := by
  unfold enterPartition
  obtain ⟨start, container, inside⟩ := setPartitionExtent_facts
    { s with
      partition_list := false
      dir_start_lba := pe.root_dir.getLBA
      dir_label := trimEntryName pe.name 0 } pe.start.getLBA pe.end.getLBA
  dsimp only [restartDirWalk]
  exact ⟨start, container, inside, rfl⟩

end HDDStream

open HDDImage HDDStream

/- The selections made since the image was parsed. -/
def selectAll (img : HDDImage) (numbers : List UInt8) : HDDImage :=
  numbers.foldl (fun img number => (img.trySelect number).2) img

/-- A CFS partition is selected. -/
def Browsable (img : HDDImage) : Prop := ∃ q, img.current = some q ∧ q.type = 1

theorem trySelect_browsable {img : HDDImage} (browsable : Browsable img) (number : UInt8) :
    Browsable (img.trySelect number).2 := by
  unfold trySelect
  split
  · exact browsable
  · split
    · exact browsable
    · rename_i p found
      split
      · rename_i type
        exact ⟨p, found, type⟩
      · exact browsable

theorem selectAll_facts {img : HDDImage} (browsable : Browsable img) (numbers : List UInt8) :
    Browsable (selectAll img numbers) ∧ (selectAll img numbers).parts = img.parts := by
  unfold selectAll
  induction numbers generalizing img with
  | nil => exact ⟨browsable, rfl⟩
  | cons number numbers ih =>
    obtain ⟨later, parts⟩ := ih (trySelect_browsable browsable number)
    exact ⟨later, parts.trans (trySelect_parts img number)⟩

/- A stream that is told a number enters its partition, or the one parsing selected. -/
def landing (img : HDDImage) (number : UInt8) : Option HDDPartition :=
  match (img.byNumber number).filter (·.type = 1) with
  | some p => some p
  | none => img.current

section Paths

variable {c : Container} {img : HDDImage} {s : HDDStream}

/- Selecting a slot and selecting its partition in the registry is the same. -/
theorem select_landing (table : SameTable img s) {q : HDDPartition} {pe : PartitionEntry}
    (current : img.current = some q) (same : q = partitionOf pe q.number q.slot) (default : s.defaultEntry = some pe)
    (told : s.selected_partition ≠ 0) :
    ∃ q pe, landing img s.selected_partition = some q ∧ pe.root_dir.getLBA = q.root_lba ∧
      s.selectCurrentPartition = (true, s.enterPartition pe) := by
  have byName : s.selectPartitionByName [] = (true, s.enterPartition pe) := by
    unfold selectPartitionByName
    rw [if_pos rfl, default]
  have select := table.select s.selected_partition
  have fallback : landing img s.selected_partition = img.current →
      (s.selectPartitionByNumber s.selected_partition).1 = false →
      ∃ q pe, landing img s.selected_partition = some q ∧ pe.root_dir.getLBA = q.root_lba ∧
        s.selectCurrentPartition = (true, s.enterPartition pe) := by
    intro lands refused
    refine ⟨q, pe, lands.trans current, by rw [same]; rfl, ?_⟩
    unfold selectCurrentPartition
    rw [if_neg (by simp [refused]), byName]
  cases slot : countedSlot s.selected_partition.toNat s.partition_entries 0 0 with
  | none =>
    have nothing : img.byNumber s.selected_partition = none := by rw [table.byNumber, slot]; rfl
    refine fallback ?_ ?_
    · unfold landing
      rw [nothing]
      rfl
    · rw [select, slot]
      rfl
  | some found =>
    obtain ⟨i, pe'⟩ := found
    have here : img.byNumber s.selected_partition = some (partitionOf pe' s.selected_partition i) := by
      rw [table.byNumber, slot]
      rfl
    rw [slot] at select
    cases cfs : pe'.isCFS with
    | true =>
      have type : pe'.getType = 1 := beq_iff_eq.mp cfs
      have lands : landing img s.selected_partition = some (partitionOf pe' s.selected_partition i) := by
        unfold landing
        rw [here]
        simp [Option.filter, type]
      have chosen : s.selectPartitionByNumber s.selected_partition = (true, s.enterPartition pe') := by
        rw [select]
        simp [Option.filter, cfs]
      refine ⟨_, pe', lands, rfl, ?_⟩
      unfold selectCurrentPartition
      rw [if_pos ⟨told, by rw [chosen]⟩, chosen]
    | false =>
      have type : pe'.getType ≠ 1 := by
        intro yes
        have cfs' : pe'.isCFS = true := beq_iff_eq.mpr yes
        rw [cfs] at cfs'
        cases cfs'
      refine fallback ?_ ?_
      · unfold landing
        rw [here]
        simp [Option.filter, type]
      · rw [select]
        simp [Option.filter, cfs]

/-- A stream that was told a partition starts every path at the root of the partition it
lands in. -/
theorem seekDirectory_landing (accepted : parseInto c = some img) (on : OnImage c s)
    (told : s.selected_partition ≠ 0) :
    ∃ q t, landing img s.selected_partition = some q ∧ Walks c t ∧ t.dir_start_lba = q.root_lba ∧
      ∀ fuel path, seekDirectory fuel path s = enterDirectories fuel (splitPathComponents path) t := by
  obtain ⟨boot, entries, read, result⟩ := readHeader_read accepted on.data on.size
  -- the stream with its tables, whether it had them or reads them now
  have tables : ∃ u : HDDStream, (if s.header_read = true then (true, s) else s.readHeader) = (true, u) ∧
      u.container = s.container ∧ u.selected_partition = s.selected_partition ∧ u.boot_sector = boot ∧
      u.partition_entries = entries := by
    by_cases known : s.header_read = true
    · obtain ⟨rfl, rfl⟩ := Prod.mk.inj (Option.some.inj (read.symm.trans (on.tables known)))
      exact ⟨s, if_pos known, rfl, rfl, rfl, rfl⟩
    · exact ⟨_, (if_neg known).trans result, rfl, rfl, rfl, rfl⟩
  obtain ⟨u, header, container, selected, boot', entries'⟩ := tables
  have read' : readTables c = some (u.resetRoot.boot_sector, u.resetRoot.partition_entries) := by
    rw [read, ← boot', ← entries']
    rfl
  obtain ⟨table, p, pe, current, -, same, default⟩ := tables_agree accepted read'
  have told' : u.resetRoot.selected_partition = s.selected_partition := selected
  obtain ⟨q, pe', lands, root, chosen⟩ := select_landing table current same default (by rw [told']; exact told)
  obtain ⟨start, container', inside, walk⟩ := enterPartition_facts u.resetRoot pe'
  have still : (u.resetRoot.enterPartition pe').container = s.container := container'.trans container
  rw [told'] at lands
  refine ⟨q, u.resetRoot.enterPartition pe', lands, ⟨?_, ?_, inside, .inl walk⟩, start.trans root, ?_⟩
  · rw [still]
    exact on.data
  · rw [still]
    exact on.size
  · intro fuel path
    unfold seekDirectory
    rw [header]
    dsimp only
    unfold startPartition
    cases splitPathComponents path with
    | nil =>
      dsimp only
      rw [chosen]
    | cons part parts =>
      dsimp only
      rw [if_neg (by rw [told']; simp [told]), chosen]

end Paths

/-- What is asked of a path that names a partition: the stream fails, or stands in the tree
of that partition. -/
def Stays (c : Container) (img : HDDImage) (s : HDDStream) (p : HDDPartition) (path : Str) : Prop :=
  ∀ fuel s', (((HDDFile.normalizePath img { pathInStream := path }).applyPartition img s).seekDirectory fuel
      (hddResolvePartitionIn img path).out_rest) = some (true, s') → InTree c p.root_lba s'.dir_start_lba

theorem firstCFS_cfs {l : List PartitionEntry} {pe : PartitionEntry} (first : firstCFS l = some pe) :
    pe.isCFS = true := by
  induction l with
  | nil => cases first
  | cons head l ih =>
    unfold firstCFS at first
    split at first
    · rename_i browsable
      obtain rfl := Option.some.inj first
      exact browsable.2
    · exact ih first

theorem defaultEntry_cfs {s : HDDStream} {pe : PartitionEntry} (default : s.defaultEntry = some pe) :
    pe.isCFS = true := by
  unfold defaultEntry at default
  split at default
  · cases default
  · split at default
    · rename_i browsable
      obtain rfl := Option.some.inj default
      exact browsable.2
    · exact firstCFS_cfs default

/- Parsing selects a CFS partition. -/
theorem parse_browsable {c : Container} {img : HDDImage} (accepted : parseInto c = some img) {s : HDDStream}
    (read : readTables c = some (s.boot_sector, s.partition_entries)) : Browsable img := by
  obtain ⟨-, p, pe, current, -, same, default⟩ := tables_agree accepted read
  refine ⟨p, current, ?_⟩
  rw [same]
  exact beq_iff_eq.mp (defaultEntry_cfs default)

/-- The partition a path that names `p` is served from. "$=P" lists the partitions and leaves
the selected one in place, and for a partition that is not CFS the stream falls back to the
one it would take if none was selected. -/
def servedPartition (parsed img : HDDImage) (comp : Str) (p : HDDPartition) : Option HDDPartition :=
  if listsPartitions comp = true then img.current else if p.type = 1 then some p else parsed.current

theorem isPrefixOf_takeWhile (pattern path : Str) (plain : slash ∉ pattern) :
    pattern.isPrefixOf (path.takeWhile (· ≠ slash)) = pattern.isPrefixOf path := by
  induction pattern generalizing path with
  | nil => rfl
  | cons x pattern ih =>
    rw [List.mem_cons, not_or] at plain
    cases path with
    | nil => rfl
    | cons y path =>
      by_cases stop : y = slash
      · have differs : (x == y) = false := beq_false_of_ne fun same => plain.1 (stop.symm.trans same.symm)
        rw [List.takeWhile_cons_of_neg (by simpa using stop), List.isPrefixOf, List.isPrefixOf, differs, Bool.false_and]
        nofun
      · rw [List.takeWhile_cons_of_pos (by simpa using stop), List.isPrefixOf, List.isPrefixOf, ih path plain.2]

theorem lists_firstComponent (path : Str) : listsPartitions (firstComponent path) = listsPartitions path := by
  unfold listsPartitions firstComponent
  rw [isPrefixOf_takeWhile _ _ (by decide), isPrefixOf_takeWhile _ _ (by decide)]

/- The number that a file with the path tells the stream. -/
theorem told_number {img : HDDImage} {path comp : Str} (first : firstComponent path = comp) {p q : HDDPartition}
    (named : namedPartition 16 img.current img.byNumber img.byName comp = some p) (current : img.current = some q)
    (listed : img.byNumber p.number = some p) (user : p.number ≠ 0) (s : HDDStream) :
    ((HDDFile.normalizePath img { pathInStream := path }).applyPartition img s).selected_partition =
        (if listsPartitions comp = true then q.number else p.number) ∧
      (hddResolvePartitionIn img path).out_rest = afterComponent path := by
  have resolved : hddResolvePartitionIn img path = ⟨some p, afterComponent path, true⟩ := by
    unfold hddResolvePartitionIn resolvePartition
    rw [first, named]
  have nonempty : path ≠ [] := by
    rintro rfl
    rw [← first, show firstComponent [] = [] from rfl, namedPartition_nil] at named
    cases named
  refine ⟨?_, by rw [resolved]⟩
  unfold HDDFile.applyPartition HDDFile.effectivePartition HDDFile.normalizePath
  rw [← first, lists_firstComponent]
  by_cases lists : listsPartitions path = true
  · simp [nonempty, lists, current]
  · simp [nonempty, lists, resolved, user, listed]

/- The partition a path names is listed under its number. -/
theorem namedPartition_mem {img : HDDImage} {comp : Str} {p : HDDPartition}
    (named : namedPartition 16 img.current img.byNumber img.byName comp = some p) : p ∈ img.parts := by
  rcases namedPartition_cases named with here | ⟨v, -, -, here⟩ | here
  · exact List.mem_of_find?_eq_some here
  · exact List.mem_of_find?_eq_some here
  · exact List.mem_of_find?_eq_some here

theorem landing_listed {img : HDDImage} {p : HDDPartition} (listed : img.byNumber p.number = some p) :
    landing img p.number = if p.type = 1 then some p else img.current := by
  unfold landing
  rw [listed]
  by_cases cfs : p.type = 1
  · simp [Option.filter, cfs]
  · simp [Option.filter, cfs]

theorem explicit_named {img : HDDImage} {path rest : Str} {p : HDDPartition}
    (explicit : hddResolvePartitionIn img path = ⟨some p, rest, true⟩) :
    namedPartition 16 img.current img.byNumber img.byName (firstComponent path) = some p := by
  unfold hddResolvePartitionIn at explicit
  rcases resolvePartition_cases 16 img.current img.byNumber img.byName path with ⟨q, named, result⟩ | result
  · rw [result] at explicit
    rw [named, (Resolved.mk.inj explicit).1]
  · rw [result] at explicit
    cases (Resolved.mk.inj explicit).2.2

/-- Every path with a first component that names `p` fails or stays in the tree of `p`,
exactly if that tree holds the root of the partition the path is served from. -/
theorem cfs_path_served (c : Container) (parsed : HDDImage) (accepted : parseInto c = some parsed)
    (numbers : List UInt8) (s : HDDStream) (on : OnImage c s) (path rest : Str) (p : HDDPartition)
    (explicit : hddResolvePartitionIn (selectAll parsed numbers) path = ⟨some p, rest, true⟩) :
    (∀ other, firstComponent other = firstComponent path → Stays c (selectAll parsed numbers) s p other) ↔
      ∃ q, servedPartition parsed (selectAll parsed numbers) (firstComponent path) p = some q ∧
        InTree c p.root_lba q.root_lba := by
  have named := explicit_named explicit
  obtain ⟨boot, entries, read, -⟩ := parseInto_some accepted
  have read' : readTables c = some (HDDStream.boot_sector { s with boot_sector := boot, partition_entries := entries },
      HDDStream.partition_entries { s with boot_sector := boot, partition_entries := entries }) := read
  obtain ⟨table, -⟩ := tables_agree accepted read'
  obtain ⟨⟨q, current, cfs⟩, parts⟩ := selectAll_facts (parse_browsable accepted read') numbers
  generalize selectAll parsed numbers = img at *
  have table' : SameTable img { s with boot_sector := boot, partition_entries := entries } :=
    ⟨table.length, parts.trans table.parts⟩
  have numbers_same : ∀ k, img.byNumber k = parsed.byNumber k := by
    intro k
    rw [HDDImage.byNumber, parts]
    rfl
  obtain ⟨listed, user, -⟩ := table'.mem (namedPartition_mem named)
  obtain ⟨listed', user', -⟩ := table'.mem (List.mem_of_find?_eq_some current)
  -- whichever number the stream is told, it lands in the partition that serves the path
  have lands : landing parsed (if listsPartitions (firstComponent path) = true then q.number else p.number) =
      servedPartition parsed img (firstComponent path) p := by
    rw [numbers_same] at listed listed'
    unfold servedPartition
    split
    · rw [landing_listed listed', if_pos cfs, current]
    · exact landing_listed listed
  have number : (if listsPartitions (firstComponent path) = true then q.number else p.number) ≠ 0 := by
    split
    · exact user'
    · exact user
  -- so every path is walked from the root of that partition
  have walk : ∀ other, firstComponent other = firstComponent path →
      ∃ r t, servedPartition parsed img (firstComponent path) p = some r ∧ HDDStream.Walks c t ∧
        t.dir_start_lba = r.root_lba ∧
        ∀ fuel s', ((HDDFile.normalizePath img { pathInStream := other }).applyPartition img s).seekDirectory fuel
            (hddResolvePartitionIn img other).out_rest = some (true, s') ↔
          HDDStream.enterDirectories fuel (splitPathComponents (afterComponent other)) t = some (true, s') := by
    intro other first
    obtain ⟨told, rest⟩ := told_number (first.trans rfl) named current listed user s
    have on' : OnImage c ((HDDFile.normalizePath img { pathInStream := other }).applyPartition img s) :=
      ⟨on.data, on.size, on.tables⟩
    obtain ⟨r, t, lands', walks, root, all⟩ := seekDirectory_landing accepted on' (by rw [told]; exact number)
    rw [told, lands] at lands'
    refine ⟨r, t, lands', walks, root, fun fuel s' => ?_⟩
    rw [rest, all]
  constructor
  · intro stays
    obtain ⟨r, t, served, walks, root, all⟩ := walk (firstComponent path) (firstComponent_idem path)
    refine ⟨r, served, ?_⟩
    have arrived := stays (firstComponent path) (firstComponent_idem path) 0 t
      ((all 0 t).mpr (by rw [(afterComponent_eq (firstComponent path)).2 (firstComponent_plain path)]; rfl))
    rwa [root] at arrived
  · rintro ⟨r, served, inside⟩ other first fuel s' done
    obtain ⟨r', t, served', walks, root, all⟩ := walk other first
    obtain rfl := Option.some.inj (served.symm.trans served')
    have down := HDDStream.enterDirectories_walks fuel _ walks ((all fuel s').mp done)
    rw [root] at down
    exact inside.trans down

/- ## The sample image -/

theorem sampleCfs_leaf (lba : Nat) (below : OnChain sampleCfs 9 lba) : lba = 9 := by
  have only : (readSector sampleCfs 9).map nextDirSector = some 0 := by decide +kernel
  induction below with
  | first => rfl
  | next chain read more ih =>
    subst ih
    rw [read] at only
    exact absurd (Option.some.inj only) more

/- No directory is entered in sector 9, which is empty. -/
theorem sampleCfs_apart : ¬ InTree sampleCfs 9 5 := by
  intro inside
  rcases Relation.ReflTransGen.cases_head inside with same | ⟨b, ⟨lba, buf, i, chain, read, small, directory, -⟩, -⟩
  · exact absurd same (by decide)
  · have empty : (readSector sampleCfs 9).all
        (fun buf => (List.range 16).all fun i => !(directoryEntry buf i).isDirectory) = true := by decide +kernel
    rw [sampleCfs_leaf lba chain] at read
    rw [read] at empty
    have none := List.all_eq_true.mp empty i (List.mem_range.mpr small)
    rw [directory] at none
    cases none

/- What a path resolves to, and where the stream then stands. -/
theorem sampleCfs_resolved (digit : UInt8) (type : UInt8) (root at_ : Nat)
    (view : (parseInto sampleCfs).map (fun img =>
      ((hddResolvePartitionIn img [digit]).partition.map (fun p => (p.type, p.root_lba)),
        (hddResolvePartitionIn img [digit]).out_rest, (hddResolvePartitionIn img [digit]).out_explicit,
        (((HDDFile.normalizePath img { pathInStream := [digit] }).applyPartition img sampleStream).seekDirectory 0
          []).map fun out => (out.1, out.2.dir_start_lba))) =
      some (some (type, root), [], true, some (true, at_))) :
    ∃ parsed p s', parseInto sampleCfs = some parsed ∧ hddResolvePartitionIn parsed [digit] = ⟨some p, [], true⟩ ∧
      p.type = type ∧ p.root_lba = root ∧ s'.dir_start_lba = at_ ∧
      ((HDDFile.normalizePath parsed { pathInStream := [digit] }).applyPartition parsed sampleStream).seekDirectory 0
        [] = some (true, s') := by
  obtain ⟨parsed, accepted, seen⟩ := Option.map_eq_some_iff.mp view
  obtain ⟨partition, seen⟩ := Prod.mk.inj seen
  obtain ⟨rest, seen⟩ := Prod.mk.inj seen
  obtain ⟨explicit, walked⟩ := Prod.mk.inj seen
  obtain ⟨p, named, facts⟩ := Option.map_eq_some_iff.mp partition
  obtain ⟨⟨ok, s'⟩, done, ends⟩ := Option.map_eq_some_iff.mp walked
  obtain ⟨rfl, here⟩ := Prod.mk.inj ends
  have resolved : hddResolvePartitionIn parsed [digit] = ⟨some p, [], true⟩ := by
    cases out : hddResolvePartitionIn parsed [digit] with
    | mk partition out_rest out_explicit =>
      rw [out] at named rest explicit
      rw [Resolved.mk.injEq]
      exact ⟨named, rest, explicit⟩
  exact ⟨parsed, p, s', accepted, resolved, (Prod.mk.inj facts).1, (Prod.mk.inj facts).2, here, done⟩

/-- On the sample image the path "1" names the GEOS partition, and is served from the CFS
partition. -/
theorem geos_path_misdirected : ∃ parsed p, parseInto sampleCfs = some parsed ∧
    hddResolvePartitionIn parsed [0x31] = ⟨some p, [], true⟩ ∧ ¬ Stays sampleCfs parsed sampleStream p [0x31] := by
  obtain ⟨parsed, p, s', accepted, explicit, -, root, here, done⟩ := sampleCfs_resolved 0x31 2 9 5 (by decide +kernel)
  refine ⟨parsed, p, accepted, explicit, fun stays => sampleCfs_apart ?_⟩
  have inside := stays 0 s' (by rw [explicit]; exact done)
  rwa [root, here] at inside

/-- `cfs_path_served` applies to the path "2" and all below it: they are served from the CFS
partition they name. -/
theorem cfs_path_served_sample : ∃ parsed p, parseInto sampleCfs = some parsed ∧
    hddResolvePartitionIn parsed [0x32] = ⟨some p, [], true⟩ ∧
    ∀ other, firstComponent other = [0x32] → Stays sampleCfs parsed sampleStream p other := by
  obtain ⟨parsed, p, -, accepted, explicit, cfs, -⟩ := sampleCfs_resolved 0x32 1 5 5 (by decide +kernel)
  have on : OnImage sampleCfs sampleStream := ⟨rfl, rfl, fun no => by cases no⟩
  refine ⟨parsed, p, accepted, explicit, ?_⟩
  exact (cfs_path_served sampleCfs parsed accepted [] sampleStream on [0x32] [] p explicit).mpr
    ⟨p, if_pos cfs, Relation.ReflTransGen.refl⟩

end Meatloaf.Hd
