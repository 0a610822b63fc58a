import Meatloaf.Hd.Partition
import Meatloaf.Stream.Container

/-! IDE64 images (CFS): the boot sector, the table of sixteen partition slots, and the two
places that read it. The registry numbers the valid slots from 1 when it parses an image;
the stream counts them again whenever a partition is asked for. -/
namespace Meatloaf.Hd

open Lib

/-- A CFS pointer: flags and the high bits of a sector number, then three more bytes. -/
structure Pointer where
  b0 : UInt8
  b1 : UInt8
  b2 : UInt8
  b3 : UInt8
  deriving DecidableEq

namespace Pointer

def isValid (p : Pointer) : Bool := p.b0 &&& 0x80 != 0

def isHidden (p : Pointer) : Bool := p.b0 &&& 0x80 != 0

/- The NEXTS or SLICE bits. -/
def slice (p : Pointer) : UInt8 := p.b0 >>> 4 &&& 3

def getLBA (p : Pointer) : Nat :=
  2 ^ 24 * (p.b0 &&& 0x0F).toNat + 2 ^ 16 * p.b1.toNat + 2 ^ 8 * p.b2.toNat + p.b3.toNat

end Pointer

def pointerAt (bytes : Str) (i : Nat) : Pointer :=
  ⟨bytes.getD i 0, bytes.getD (i + 1) 0, bytes.getD (i + 2) 0, bytes.getD (i + 3) 0⟩

structure BootSector where
  default_partition : UInt8
  last_sector : Pointer
  id : Str
  part_dir : Pointer
  part_dir_backup : Pointer
  disk_label : Str

def bootSector (bytes : Str) : BootSector where
  default_partition := bytes.getD 3 0
  last_sector := pointerAt bytes 4
  id := (bytes.drop 8).take 16
  part_dir := pointerAt bytes 0x18
  part_dir_backup := pointerAt bytes 0x1C
  disk_label := (bytes.drop 0x20).take 16

/- "C64 CFS". -/
def BootSector.signed (boot : BootSector) : Bool := boot.id.take 7 == [0x43, 0x36, 0x34, 0x20, 0x43, 0x46, 0x53]

structure PartitionEntry where
  name : Str
  start : Pointer
  «end» : Pointer
  deleted_dir : Pointer
  root_dir : Pointer
  deriving DecidableEq

def partitionEntry (bytes : Str) : PartitionEntry where
  name := bytes.take 16
  start := pointerAt bytes 0x10
  «end» := pointerAt bytes 0x14
  deleted_dir := pointerAt bytes 0x18
  root_dir := pointerAt bytes 0x1C

/- `trimEntryName(name, max, pad)`. -/
def trimEntryName (name : Str) (pad : UInt8) : Str := name.takeWhile (· ≠ pad)

namespace PartitionEntry

def isValid (pe : PartitionEntry) : Bool := pe.start.isValid

def isHidden (pe : PartitionEntry) : Bool := pe.start.b0 &&& 0x20 != 0

/- The high nibble of the end pointer without its LBA bit. -/
def getType (pe : PartitionEntry) : UInt8 := pe.end.b0 >>> 4 &&& 0x0B

def isCFS (pe : PartitionEntry) : Bool := pe.getType == 1

def isGEOS (pe : PartitionEntry) : Bool := pe.getType == 2

/- Bytes between the two ends, in 32 bits. -/
def size (pe : PartitionEntry) : Nat :=
  if pe.start.getLBA ≤ pe.end.getLBA then (pe.end.getLBA - pe.start.getLBA + 1) * 512 % 2 ^ 32 else 0

end PartitionEntry

/- The sixteen entries of the partition directory. -/
def partitionEntries (sector : Str) : List PartitionEntry :=
  (List.range 16).map fun i => partitionEntry ((sector.drop (i * 32)).take 32)

/-- Sector `lba`, at the place the 32-bit product gives. -/
def readSector (c : Container) (lba : Nat) : Option Str := c.fetch (lba * 512 % 2 ^ 32) 512

/- The boot sector and the partition directory it points to. -/
def readTables (c : Container) : Option (BootSector × List PartitionEntry) :=
  match c.fetch 0 48 with
  | none => none
  | some bytes =>
    if (bootSector bytes).signed = true then
      (readSector c (bootSector bytes).part_dir.getLBA).map fun sector => (bootSector bytes, partitionEntries sector)
    else none

/- ## The registry -/

structure HDDPartition where
  number : UInt8
  slot : Nat
  type : UInt8
  name : Str
  root_lba : Nat
  size : Nat
  hidden : Bool
  writeable : Bool
  deriving DecidableEq

/-- `HDDImageRegistry::Image`. -/
structure HDDImage where
  default_part : UInt8 := 0
  selected : UInt8 := 0
  disk_label : Str := []
  parts : List HDDPartition := []

namespace HDDImage

def byNumber (img : HDDImage) (number : UInt8) : Option HDDPartition := img.parts.find? (·.number = number)

def byName (img : HDDImage) (name : Str) : Option HDDPartition :=
  img.parts.find? fun p => compareFilename (toUTF8 p.name) name (isWildcard name)

def current (img : HDDImage) : Option HDDPartition := img.byNumber img.selected

def trySelect (img : HDDImage) (number : UInt8) : Bool × HDDImage :=
  if number = 0 then (false, img)
  else
    match img.byNumber number with
    | none => (false, img)
    | some p => if p.type = 1 then (true, { img with selected := number }) else (false, img)

def partitionOf (pe : PartitionEntry) (number : UInt8) (slot : Nat) : HDDPartition where
  number := number
  slot := slot
  type := pe.getType
  name := trimEntryName pe.name 0
  root_lba := pe.root_dir.getLBA
  size := pe.size
  hidden := pe.isHidden
  writeable := pe.start.b0 &&& 0x10 != 0

@[simp] theorem partitionOf_number (pe : PartitionEntry) (number : UInt8) (slot : Nat) :
    (partitionOf pe number slot).number = number := rfl

@[simp] theorem partitionOf_type (pe : PartitionEntry) (number : UInt8) (slot : Nat) :
    (partitionOf pe number slot).type = pe.getType := rfl

/- The loop of `parseInto` over the slots, from slot `i` on. -/
def numberEntries : List PartitionEntry → Nat → UInt8 → List HDDPartition
  | [], _, _ => []
  | pe :: rest, i, next_number =>
    if pe.isValid = true then partitionOf pe next_number i :: numberEntries rest (i + 1) (next_number + 1)
    else numberEntries rest (i + 1) next_number

/- Padding of a label: blanks and NULs at its end. -/
def trimLabel (label : Str) : Str := (label.reverse.dropWhile fun c => c == 0x20 || c == 0).reverse

/- The image before a partition is selected; the default partition is turned from a slot
into a number. -/
def numbered (boot : BootSector) (entries : List PartitionEntry) : HDDImage :=
  let parts := numberEntries entries 0 1
  let dp_slot := (boot.default_partition &&& 0x0F).toNat
  { disk_label := trimLabel boot.disk_label
    parts := parts
    default_part := ((parts.find? (·.slot = dp_slot)).map (·.number)).getD 0 }

/-- `HDDImageRegistry::parseInto`. -/
def parseInto (c : Container) : Option HDDImage :=
  match readTables c with
  | none => none
  | some (boot, entries) =>
    let img := numbered boot entries
    match img.trySelect img.default_part with
    | (true, img) => some img
    | (false, img) =>
      match img.parts.find? (·.type = 1) with
      | none => none
      | some p => some { img with selected := p.number }

end HDDImage

/-- `hddResolvePartitionIn`. -/
def hddResolvePartitionIn (img : HDDImage) (in_path : Str) : Resolved HDDPartition :=
  resolvePartition 16 img.current img.byNumber img.byName in_path

/- ## The stream -/

/-- `HDDMStream::Entry`. -/
structure CfsEntry where
  filename : Str
  size : Nat
  type : Str
  attributes : UInt8
  pointer : Pointer
  is_directory : Bool
  is_hidden : Bool

/-- The part of an `HDDMStream` that walks directories. -/
structure HDDStream where
  container : Container
  boot_sector : BootSector
  partition_entries : List PartitionEntry
  header_read : Bool
  selected_partition : UInt8
  partition_list : Bool
  dir_start_lba : Nat
  dir_label : Str
  part_start_lba : Nat
  part_end_lba : Nat
  blocks_free_valid : Bool
  dir_buf : Str
  walk_lba : Nat
  walk_pos : Nat
  walk_count : Nat
  entry : CfsEntry
  entry_index : Nat

namespace HDDStream

/-- `readHeader`. -/
def readHeader (s : HDDStream) : Bool × HDDStream :=
  match readTables s.container with
  | none => (false, s)
  | some (boot, entries) => (true, { s with boot_sector := boot, partition_entries := entries, header_read := true })

def setPartitionExtent (s : HDDStream) (first last : Nat) : HDDStream :=
  if first = s.part_start_lba ∧ last = s.part_end_lba then s
  else { s with part_start_lba := first, part_end_lba := last, blocks_free_valid := false }

def restartDirWalk (s : HDDStream) : HDDStream := { s with walk_lba := 0, walk_pos := 0, walk_count := 0 }

/- What selecting a partition does to the stream. -/
def enterPartition (s : HDDStream) (pe : PartitionEntry) : HDDStream :=
  let s := { s with
    partition_list := false
    dir_start_lba := pe.root_dir.getLBA
    dir_label := trimEntryName pe.name 0 }
  { (s.setPartitionExtent pe.start.getLBA pe.end.getLBA).restartDirWalk with entry_index := 0 }

/- The loop that looks for the first CFS partition. -/
def firstCFS : List PartitionEntry → Option PartitionEntry
  | [] => none
  | pe :: rest => if pe.isValid = true ∧ pe.isCFS = true then some pe else firstCFS rest

/- The loop that looks for a name; only CFS partitions are browsable. -/
def namedCFS (name : Str) : List PartitionEntry → Option PartitionEntry
  | [] => none
  | pe :: rest =>
    if pe.isValid = true ∧
        compareFilename (toUTF8 (trimEntryName pe.name 0)) name (isWildcard name) = true then
      if pe.isCFS = true then some pe else none
    else namedCFS name rest

def defaultEntry (s : HDDStream) : Option PartitionEntry :=
  match s.partition_entries[(s.boot_sector.default_partition &&& 0x0F).toNat]? with
  | none => none
  | some pe => if pe.isValid = true ∧ pe.isCFS = true then some pe else firstCFS s.partition_entries

def selectPartitionByName (s : HDDStream) (name : Str) : Bool × HDDStream :=
  match if name = [] then s.defaultEntry else namedCFS name s.partition_entries with
  | none => (false, s)
  | some pe => (true, s.enterPartition pe)

/- The loop of `selectPartitionByNumber`, with the valid entries counted so far. -/
def numberedCFS (number : UInt8) : List PartitionEntry → UInt8 → Option PartitionEntry
  | [], _ => none
  | pe :: rest, count =>
    if pe.isValid = false then numberedCFS number rest count
    else if count + 1 ≠ number then numberedCFS number rest (count + 1)
    else if pe.isCFS = true then some pe
    else none

def selectPartitionByNumber (s : HDDStream) (number : UInt8) : Bool × HDDStream :=
  if number = 0 then (false, s)
  else
    match numberedCFS number s.partition_entries 0 with
    | none => (false, s)
    | some pe => (true, s.enterPartition pe)

/- The loop of `seekPartitionEntry`: the slot, counted from `i`. -/
def countedSlot (index : Nat) : List PartitionEntry → Nat → Nat → Option (Nat × PartitionEntry)
  | [], _, _ => none
  | pe :: rest, i, count =>
    if pe.isValid = false then countedSlot index rest (i + 1) count
    else if count + 1 = index then some (i, pe)
    else countedSlot index rest (i + 1) (count + 1)

/- "DIR", "GEO" or "???". -/
def partitionType (pe : PartitionEntry) : Str :=
  if pe.isCFS = true then [0x44, 0x49, 0x52] else if pe.isGEOS = true then [0x47, 0x45, 0x4f]
  else [0x3f, 0x3f, 0x3f]

def partitionAsEntry (pe : PartitionEntry) : CfsEntry where
  filename := trimEntryName pe.name 0
  size := pe.size
  type := partitionType pe
  attributes := 0
  pointer := pe.root_dir
  is_directory := pe.isCFS
  is_hidden := pe.isHidden

def seekPartitionEntry (s : HDDStream) (index : Nat) : Bool × HDDStream :=
  if index = 0 then (false, s)
  else
    match countedSlot index s.partition_entries 0 0 with
    | none => (false, s)
    | some (_, pe) => (true, { s with entry := partitionAsEntry pe, entry_index := index })

end HDDStream

/- ## The two numberings -/

open HDDImage HDDStream

/- The number after the entries counted so far, which are fewer than 256. -/
theorem next_number {count : UInt8} {n : Nat} (few : count.toNat + (n + 1) < 256) :
    (count + 1).toNat = count.toNat + 1 := by
  rw [UInt8.toNat_add]
  exact Nat.mod_eq_of_lt (by rw [UInt8.toNat_one]; omega)

theorem next_number_eq {count k : UInt8} {n : Nat} (few : count.toNat + (n + 1) < 256) :
    count + 1 = k ↔ count.toNat + 1 = k.toNat := by
  rw [← UInt8.toNat_inj, next_number few]

/-- A number of the registry belongs to the slot that the stream counts to. -/
theorem find_number (l : List PartitionEntry) (i : Nat) (count k : UInt8) (few : count.toNat + l.length < 256) :
    (numberEntries l i (count + 1)).find? (·.number = k) =
      (countedSlot k.toNat l i count.toNat).map fun found => partitionOf found.2 k found.1 := by
  induction l generalizing i count with
  | nil => rfl
  | cons pe l ih =>
    rw [List.length_cons] at few
    unfold numberEntries countedSlot
    cases valid : pe.isValid with
    | false =>
      simp only [Bool.false_eq_true, if_false, if_true]
      exact ih (i + 1) count (by omega)
    | true =>
      simp only [if_true, Bool.true_eq_false, if_false]
      have next := next_number few
      by_cases here : count.toNat + 1 = k.toNat
      · have same : count + 1 = k := (next_number_eq few).mpr here
        simp only [List.find?_cons, partitionOf_number, decide_true, if_pos here, Option.map_some, same]
      · have other : count + 1 ≠ k := fun same => here ((next_number_eq few).mp same)
        simp only [List.find?_cons, partitionOf_number, other, decide_false, if_neg here]
        rw [ih (i + 1) (count + 1) (by omega), next]

/-- The stream selects by number the slot it counts to, if that is a CFS partition. -/
theorem numberedCFS_eq (l : List PartitionEntry) (i : Nat) (count k : UInt8) (few : count.toNat + l.length < 256) :
    numberedCFS k l count = ((countedSlot k.toNat l i count.toNat).map (·.2)).filter (·.isCFS) := by
  induction l generalizing i count with
  | nil => rfl
  | cons pe l ih =>
    rw [List.length_cons] at few
    unfold numberedCFS countedSlot
    cases valid : pe.isValid with
    | false =>
      simp only [if_true]
      exact ih (i + 1) count (by omega)
    | true =>
      simp only [Bool.true_eq_false, if_false]
      have next := next_number few
      by_cases here : count.toNat + 1 = k.toNat
      · have same : count + 1 = k := (next_number_eq few).mpr here
        rw [if_neg (not_not.mpr same), if_pos here, Option.map_some]
        cases cfs : pe.isCFS with
        | true => simp [Option.filter, cfs]
        | false => simp [Option.filter, cfs]
      · have other : count + 1 ≠ k := fun same => here ((next_number_eq few).mp same)
        rw [if_pos other, if_neg here, ih (i + 1) (count + 1) (by omega), next]

/- Numbers past the end of the table are not reached. -/
theorem countedSlot_beyond (index : Nat) (l : List PartitionEntry) (i count : Nat) (beyond : count + l.length < index) :
    countedSlot index l i count = none := by
  induction l generalizing i count with
  | nil => rfl
  | cons pe l ih =>
    rw [List.length_cons] at beyond
    unfold countedSlot
    split
    · exact ih (i + 1) count (by omega)
    · rw [if_neg (by omega)]
      exact ih (i + 1) (count + 1) (by omega)

/- A counted slot is a slot of the table, and valid. -/
theorem countedSlot_some {index : Nat} {l : List PartitionEntry} {i count : Nat} {found : Nat × PartitionEntry}
    (counted : countedSlot index l i count = some found) :
    i ≤ found.1 ∧ l[found.1 - i]? = some found.2 ∧ found.2.isValid = true := by
  induction l generalizing i count with
  | nil => cases counted
  | cons pe l ih =>
    have later : ∀ n, countedSlot index l (i + 1) n = some found →
        i ≤ found.1 ∧ (pe :: l)[found.1 - i]? = some found.2 ∧ found.2.isValid = true := by
      intro n rest
      obtain ⟨after, here, valid⟩ := ih rest
      refine ⟨by omega, ?_, valid⟩
      have position : found.1 - i = found.1 - (i + 1) + 1 := by omega
      rw [position, List.getElem?_cons_succ]
      exact here
    unfold countedSlot at counted
    split at counted
    · exact later count counted
    · rename_i valid
      rw [Bool.not_eq_false] at valid
      split at counted
      · obtain rfl := Option.some.inj counted
        exact ⟨Nat.le_refl i, by simp, valid⟩
      · exact later (count + 1) counted

/- A valid slot is numbered. -/
theorem numberEntries_mem {l : List PartitionEntry} {i j : Nat} {n : UInt8} {pe : PartitionEntry}
    (here : l[j]? = some pe) (valid : pe.isValid = true) :
    ∃ p ∈ numberEntries l i n, p.slot = i + j := by
  induction l generalizing i j n with
  | nil => cases here
  | cons head l ih =>
    unfold numberEntries
    cases j with
    | zero =>
      obtain rfl : head = pe := by simpa using here
      rw [if_pos valid]
      exact ⟨_, List.mem_cons_self, rfl⟩
    | succ j =>
      rw [List.getElem?_cons_succ] at here
      split
      · obtain ⟨p, member, slot⟩ := ih (i := i + 1) (n := n + 1) here
        exact ⟨p, List.mem_cons_of_mem _ member, by omega⟩
      · obtain ⟨p, member, slot⟩ := ih (i := i + 1) (n := n) here
        exact ⟨p, member, by omega⟩

/- The registry and the stream look for the same CFS partition. -/
theorem firstCFS_eq (l : List PartitionEntry) (i : Nat) (n : UInt8) :
    (∀ p, (numberEntries l i n).find? (·.type = 1) = some p →
      ∃ pe, firstCFS l = some pe ∧ i ≤ p.slot ∧ l[p.slot - i]? = some pe) ∧
    ((numberEntries l i n).find? (·.type = 1) = none → firstCFS l = none) := by
  induction l generalizing i n with
  | nil =>
    constructor
    · intro p found
      cases found
    · intro _
      rfl
  | cons pe l ih =>
    have later : ∀ m, (∀ p, (numberEntries l (i + 1) m).find? (·.type = 1) = some p →
        ∃ pe', firstCFS l = some pe' ∧ i ≤ p.slot ∧ (pe :: l)[p.slot - i]? = some pe') := by
      intro m p found
      obtain ⟨pe', first, after, here⟩ := (ih (i + 1) m).1 p found
      refine ⟨pe', first, by omega, ?_⟩
      have position : p.slot - i = p.slot - (i + 1) + 1 := by omega
      rw [position, List.getElem?_cons_succ]
      exact here
    unfold numberEntries firstCFS
    cases valid : pe.isValid with
    | false =>
      simp only [Bool.false_eq_true, if_false, false_and]
      exact ⟨later n, (ih (i + 1) n).2⟩
    | true =>
      simp only [if_true, true_and]
      by_cases cfs : pe.getType = 1
      · have browsable : pe.isCFS = true := beq_iff_eq.mpr cfs
        simp only [List.find?_cons, partitionOf_type, cfs, decide_true, if_pos browsable]
        constructor
        · intro p found
          obtain rfl := Option.some.inj found
          exact ⟨pe, rfl, Nat.le_refl i, by simp [partitionOf]⟩
        · intro absent
          cases absent
      · have closed : ¬ pe.isCFS = true := fun yes => cfs (beq_iff_eq.mp yes)
        simp only [List.find?_cons, partitionOf_type, cfs, decide_false, if_neg closed]
        exact ⟨later (n + 1), (ih (i + 1) (n + 1)).2⟩

theorem fetch_congr {c c' : Container} (data : c'.data = c.data) (size : c'.size = c.size) (pos n : Nat) :
    c'.fetch pos n = c.fetch pos n := by
  simp only [Container.fetch, Container.seek, Container.read, data, size]
  rfl

theorem readTables_congr {c c' : Container} (data : c'.data = c.data) (size : c'.size = c.size) :
    readTables c' = readTables c := by
  simp only [readTables, readSector, fetch_congr data size]

theorem readTables_length {c : Container} {boot : BootSector} {entries : List PartitionEntry}
    (read : readTables c = some (boot, entries)) : entries.length = 16 := by
  unfold readTables at read
  split at read
  · cases read
  · split at read
    · obtain ⟨sector, -, same⟩ := Option.map_eq_some_iff.mp read
      rw [← (Prod.mk.inj same).2, partitionEntries, List.length_map, List.length_range]
    · cases read

/- Selecting keeps the table. -/
theorem trySelect_parts (img : HDDImage) (k : UInt8) : (img.trySelect k).2.parts = img.parts := by
  unfold trySelect
  split
  · rfl
  · split
    · rfl
    · split
      · rfl
      · rfl

/-- What parsing accepts: the table was read, and a CFS partition is selected. -/
theorem parseInto_some {c : Container} {img : HDDImage} (accepted : parseInto c = some img) :
    ∃ boot entries, readTables c = some (boot, entries) ∧ img.parts = numberEntries entries 0 1 ∧
      (((numbered boot entries).trySelect (numbered boot entries).default_part).1 = true ∧
          img.selected = (numbered boot entries).default_part ∨
        ((numbered boot entries).trySelect (numbered boot entries).default_part).1 = false ∧
          ∃ p, img.parts.find? (·.type = 1) = some p ∧ img.selected = p.number) := by
  unfold parseInto at accepted
  cases read : readTables c with
  | none =>
    rw [read] at accepted
    cases accepted
  | some tables =>
    obtain ⟨boot, entries⟩ := tables
    rw [read] at accepted
    dsimp only at accepted
    have parts := trySelect_parts (numbered boot entries) (numbered boot entries).default_part
    rcases tried : (numbered boot entries).trySelect (numbered boot entries).default_part with ⟨ok, after⟩
    rw [tried] at accepted parts
    refine ⟨boot, entries, rfl, ?_⟩
    rw [tried]
    cases ok with
    | true =>
      obtain rfl := Option.some.inj accepted
      refine ⟨parts, .inl ⟨rfl, ?_⟩⟩
      unfold trySelect at tried
      split at tried
      · cases tried
      · split at tried
        · cases tried
        · split at tried
          · rw [← (Prod.mk.inj tried).2]
          · cases tried
    | false =>
      dsimp only at accepted
      split at accepted
      · cases accepted
      · rename_i p found
        obtain rfl := Option.some.inj accepted
        exact ⟨parts, .inr ⟨rfl, p, found, rfl⟩⟩

theorem trySelect_congr {img img' : HDDImage} (parts : img'.parts = img.parts) (k : UInt8) :
    (img'.trySelect k).1 = (img.trySelect k).1 := by
  unfold trySelect HDDImage.byNumber
  rw [parts]
  split
  · rfl
  · split
    · rfl
    · split
      · rfl
      · rfl

/- The choice that parsing made, told by the slot of the default partition. -/
theorem selected_choice {img : HDDImage} {boot : BootSector} {entries : List PartitionEntry}
    (parts : img.parts = numberEntries entries 0 1)
    (chosen : ((numbered boot entries).trySelect (numbered boot entries).default_part).1 = true ∧
        img.selected = (numbered boot entries).default_part ∨
      ((numbered boot entries).trySelect (numbered boot entries).default_part).1 = false ∧
        ∃ p, img.parts.find? (·.type = 1) = some p ∧ img.selected = p.number) :
    (∃ p, img.parts.find? (·.slot = (boot.default_partition &&& 0x0F).toNat) = some p ∧
        (img.trySelect p.number).1 = true ∧ img.selected = p.number) ∨
      ((∀ p, img.parts.find? (·.slot = (boot.default_partition &&& 0x0F).toNat) = some p →
          (img.trySelect p.number).1 = false) ∧
        ∃ p, img.parts.find? (·.type = 1) = some p ∧ img.selected = p.number) := by
  have same : (numbered boot entries).parts = img.parts := parts.symm
  rw [trySelect_congr same] at chosen
  have default : (numbered boot entries).default_part =
      ((img.parts.find? (·.slot = (boot.default_partition &&& 0x0F).toNat)).map (·.number)).getD 0 := by
    rw [parts]
    rfl
  rw [default] at chosen
  cases found : img.parts.find? (·.slot = (boot.default_partition &&& 0x0F).toNat) with
  | none =>
    rw [found] at chosen
    right
    constructor
    · intro p here
      cases here
    · rcases chosen with ⟨ok, -⟩ | ⟨-, first⟩
      · cases ok
      · exact first
  | some p =>
    rw [found] at chosen
    rcases chosen with ⟨ok, name⟩ | ⟨refused, first⟩
    · exact .inl ⟨p, rfl, ok, name⟩
    · refine .inr ⟨fun q here => ?_, first⟩
      obtain rfl := Option.some.inj here
      exact refused

/-- The registry and the stream number the same slots the same way. -/
structure Agree (img : HDDImage) (s : HDDStream) : Prop where
  listed : ∀ k : UInt8, (img.byNumber k).isSome = (s.seekPartitionEntry k.toNat).1
  beyond : ∀ index, 255 < index → (s.seekPartitionEntry index).1 = false
  slot : ∀ k p, img.byNumber k = some p → ∃ pe,
    countedSlot k.toNat s.partition_entries 0 0 = some (p.slot, pe) ∧ p = partitionOf pe k p.slot ∧
      s.seekPartitionEntry k.toNat = (true, { s with entry := partitionAsEntry pe, entry_index := k.toNat })
  selected : ∀ k, (img.trySelect k).1 = (s.selectPartitionByNumber k).1
  initial : ∃ p pe, img.current = some p ∧
    countedSlot p.number.toNat s.partition_entries 0 0 = some (p.slot, pe) ∧
      p = partitionOf pe p.number p.slot ∧ s.selectPartitionByName [] = (true, s.enterPartition pe)

section Numbering

variable {img : HDDImage} {s : HDDStream}

/- A table has sixteen slots, and the registry numbered those the stream holds. -/
structure SameTable (img : HDDImage) (s : HDDStream) : Prop where
  length : s.partition_entries.length = 16
  parts : img.parts = numberEntries s.partition_entries 0 1

theorem SameTable.byNumber (table : SameTable img s) (k : UInt8) :
    img.byNumber k = (countedSlot k.toNat s.partition_entries 0 0).map fun found => partitionOf found.2 k found.1 := by
  rw [HDDImage.byNumber, table.parts]
  exact find_number s.partition_entries 0 0 k (by rw [table.length]; decide)

theorem countedSlot_zero (l : List PartitionEntry) (i count : Nat) : countedSlot 0 l i count = none := by
  induction l generalizing i count with
  | nil => rfl
  | cons pe l ih =>
    unfold countedSlot
    split
    · exact ih (i + 1) count
    · exact ih (i + 1) (count + 1)

theorem SameTable.counted (table : SameTable img s) {k : UInt8} {p : HDDPartition} (found : img.byNumber k = some p) :
    ∃ pe, countedSlot k.toNat s.partition_entries 0 0 = some (p.slot, pe) ∧ p = partitionOf pe k p.slot := by
  rw [table.byNumber k] at found
  obtain ⟨⟨slot, pe⟩, counted, same⟩ := Option.map_eq_some_iff.mp found
  have here : p.slot = slot := by rw [← same]; rfl
  exact ⟨pe, by rw [here]; exact counted, by rw [here]; exact same.symm⟩

theorem seekPartitionEntry_fst (s : HDDStream) (index : Nat) :
    (s.seekPartitionEntry index).1 = (countedSlot index s.partition_entries 0 0).isSome := by
  unfold seekPartitionEntry
  split
  · rename_i zero
    rw [zero, countedSlot_zero]
    rfl
  · split
    · rename_i none
      rw [none]
      rfl
    · rename_i some_
      rw [some_]
      rfl

theorem seekPartitionEntry_some {k : UInt8} {slot : Nat} {pe : PartitionEntry}
    (counted : countedSlot k.toNat s.partition_entries 0 0 = some (slot, pe)) :
    s.seekPartitionEntry k.toNat = (true, { s with entry := partitionAsEntry pe, entry_index := k.toNat }) := by
  unfold seekPartitionEntry
  split
  · rename_i zero
    rw [zero, countedSlot_zero] at counted
    cases counted
  · rw [counted]

/- Selecting by number: the slot is found and is a CFS partition, or nothing happens. -/
theorem SameTable.select (table : SameTable img s) (k : UInt8) :
    s.selectPartitionByNumber k =
      match ((countedSlot k.toNat s.partition_entries 0 0).map (·.2)).filter (·.isCFS) with
      | none => (false, s)
      | some pe => (true, s.enterPartition pe) := by
  have few : (0 : UInt8).toNat + s.partition_entries.length < 256 := by rw [table.length]; decide
  unfold selectPartitionByNumber
  rw [numberedCFS_eq s.partition_entries 0 0 k few]
  split
  · rename_i zero
    have none : countedSlot k.toNat s.partition_entries 0 0 = none := by
      rw [zero]
      exact countedSlot_zero s.partition_entries 0 0
    rw [none]
    rfl
  · rfl

theorem SameTable.trySelect (table : SameTable img s) (k : UInt8) :
    (img.trySelect k).1 = (s.selectPartitionByNumber k).1 := by
  rw [table.select k]
  unfold HDDImage.trySelect
  rw [table.byNumber k]
  cases counted : countedSlot k.toNat s.partition_entries 0 0 with
  | none =>
    split
    · rfl
    · rfl
  | some found =>
    obtain ⟨slot, pe⟩ := found
    have positive : k ≠ 0 := by
      rintro rfl
      rw [show (0 : UInt8).toNat = 0 from rfl, countedSlot_zero] at counted
      cases counted
    rw [if_neg positive]
    dsimp only [Option.map_some]
    cases cfs : pe.isCFS with
    | true =>
      have type : (partitionOf pe k slot).type = 1 := beq_iff_eq.mp cfs
      rw [if_pos type]
      simp [Option.filter, cfs]
    | false =>
      have type : ¬ (partitionOf pe k slot).type = 1 := fun yes => by
        have cfs' : pe.isCFS = true := beq_iff_eq.mpr yes
        rw [cfs] at cfs'
        cases cfs'
      rw [if_neg type]
      simp [Option.filter, cfs]

/- A numbered partition is the slot its number counts to. -/
theorem mem_counted {l : List PartitionEntry} {i : Nat} {n : UInt8} (few : n.toNat + l.length < 256)
    {p : HDDPartition} (member : p ∈ numberEntries l i (n + 1)) :
    ∃ pe, countedSlot p.number.toNat l i n.toNat = some (p.slot, pe) ∧ p = partitionOf pe p.number p.slot ∧
      n.toNat < p.number.toNat := by
  induction l generalizing i n with
  | nil => cases member
  | cons pe l ih =>
    rw [List.length_cons] at few
    unfold numberEntries at member
    unfold countedSlot
    cases valid : pe.isValid with
    | false =>
      simp only [valid, Bool.false_eq_true, if_false] at member
      simp only [if_true]
      exact ih (by omega) member
    | true =>
      simp only [valid, if_true] at member
      simp only [Bool.true_eq_false, if_false]
      have next := next_number few
      rcases List.mem_cons.mp member with rfl | rest
      · refine ⟨pe, ?_, rfl, ?_⟩
        · rw [partitionOf_number, if_pos next.symm]
          rfl
        · rw [partitionOf_number, next]
          omega
      · obtain ⟨pe', counted, same, later⟩ := ih (by omega) rest
        rw [next] at counted later
        refine ⟨pe', ?_, same, by omega⟩
        rw [if_neg (by omega)]
        exact counted

/- A partition of the table is the one its number finds. -/
theorem SameTable.mem (table : SameTable img s) {p : HDDPartition} (member : p ∈ img.parts) :
    img.byNumber p.number = some p ∧ p.number ≠ 0 ∧
      ∃ pe, countedSlot p.number.toNat s.partition_entries 0 0 = some (p.slot, pe) ∧
        p = partitionOf pe p.number p.slot := by
  rw [table.parts] at member
  have few : (0 : UInt8).toNat + s.partition_entries.length < 256 := by rw [table.length]; decide
  obtain ⟨pe, counted, same, positive⟩ := mem_counted (n := 0) few member
  refine ⟨?_, ?_, pe, counted, same⟩
  · rw [table.byNumber]
    have counted' : countedSlot p.number.toNat s.partition_entries 0 0 = some (p.slot, pe) := counted
    rw [counted']
    exact congrArg some same.symm
  · intro zero
    rw [zero] at positive
    exact absurd positive (by decide)

/- The slot of the default partition, if it can be browsed, decides what both select. -/
theorem SameTable.default (table : SameTable img s) {pe : PartitionEntry}
    (here : s.partition_entries[(s.boot_sector.default_partition &&& 0x0F).toNat]? = some pe)
    (valid : pe.isValid = true) (cfs : pe.isCFS = true) :
    ∃ p, img.parts.find? (·.slot = (s.boot_sector.default_partition &&& 0x0F).toNat) = some p ∧
      p = partitionOf pe p.number p.slot ∧ (img.trySelect p.number).1 = true := by
  obtain ⟨q, member, slot⟩ := numberEntries_mem (i := 0) (n := 1) here valid
  rw [Nat.zero_add] at slot
  rw [← table.parts] at member
  have some_ : (img.parts.find? (·.slot = (s.boot_sector.default_partition &&& 0x0F).toNat)).isSome = true := by
    rw [List.find?_isSome]
    exact ⟨q, member, decide_eq_true slot⟩
  obtain ⟨p, found⟩ := Option.isSome_iff_exists.mp some_
  have position : p.slot = (s.boot_sector.default_partition &&& 0x0F).toNat := by
    have here' := List.find?_some found
    rwa [decide_eq_true_eq] at here'
  obtain ⟨byNumber, positive, pe', counted, same⟩ := table.mem (List.mem_of_find?_eq_some found)
  obtain ⟨-, there, -⟩ := countedSlot_some counted
  rw [Nat.sub_zero] at there
  dsimp only at there
  rw [position, here] at there
  obtain rfl := Option.some.inj there
  refine ⟨p, found, same, ?_⟩
  have type : p.type = 1 := by
    rw [same]
    exact beq_iff_eq.mp cfs
  unfold HDDImage.trySelect
  rw [if_neg positive, byNumber]
  dsimp only
  rw [if_pos type]

/- The partition that parsing selects is the one the stream falls back to. -/
theorem SameTable.initial (table : SameTable img s)
    (selected : (∃ p, img.parts.find? (·.slot = (s.boot_sector.default_partition &&& 0x0F).toNat) = some p ∧
        (img.trySelect p.number).1 = true ∧ img.selected = p.number) ∨
      ((∀ p, img.parts.find? (·.slot = (s.boot_sector.default_partition &&& 0x0F).toNat) = some p →
          (img.trySelect p.number).1 = false) ∧
        ∃ p, img.parts.find? (·.type = 1) = some p ∧ img.selected = p.number)) :
    ∃ p pe, img.current = some p ∧ countedSlot p.number.toNat s.partition_entries 0 0 = some (p.slot, pe) ∧
      p = partitionOf pe p.number p.slot ∧ s.defaultEntry = some pe := by
  have bound : (s.boot_sector.default_partition &&& 0x0F).toNat < s.partition_entries.length := by
    rw [table.length, UInt8.toNat_and]
    exact Nat.lt_of_le_of_lt Nat.and_le_right (by decide)
  rcases selected with ⟨p, found, ok, name⟩ | ⟨refused, p, found, name⟩
  · obtain ⟨byNumber, positive, pe, counted, same⟩ := table.mem (List.mem_of_find?_eq_some found)
    have position : p.slot = (s.boot_sector.default_partition &&& 0x0F).toNat := by
      have here := List.find?_some found
      rwa [decide_eq_true_eq] at here
    obtain ⟨-, there, valid⟩ := countedSlot_some counted
    rw [Nat.sub_zero] at there
    dsimp only at there valid
    refine ⟨p, pe, by rw [HDDImage.current, name]; exact byNumber, counted, same, ?_⟩
    have cfs : pe.isCFS = true := by
      unfold HDDImage.trySelect at ok
      rw [if_neg positive, byNumber] at ok
      dsimp only at ok
      split at ok
      · rename_i type
        rw [same] at type
        exact beq_iff_eq.mpr type
      · cases ok
    unfold defaultEntry
    rw [← position, there]
    exact if_pos ⟨valid, cfs⟩
  · have member := List.mem_of_find?_eq_some found
    obtain ⟨byNumber, positive, pe, counted, same⟩ := table.mem member
    refine ⟨p, pe, by rw [HDDImage.current, name]; exact byNumber, counted, same, ?_⟩
    have first : firstCFS s.partition_entries = some pe := by
      rw [table.parts] at found
      obtain ⟨pe', first, -, here⟩ := (firstCFS_eq s.partition_entries 0 1).1 p found
      obtain ⟨-, there, -⟩ := countedSlot_some counted
      exact first.trans (here.symm.trans there)
    unfold defaultEntry
    rw [List.getElem?_eq_getElem bound]
    dsimp only
    split
    · rename_i browsable
      obtain ⟨q, found', -, ok⟩ := table.default (List.getElem?_eq_getElem bound) browsable.1 browsable.2
      rw [refused q found'] at ok
      cases ok
    · exact first

end Numbering

/- A stream with the tables of an accepted image: the registry numbered them, and its
selection is what the stream falls back to. -/
theorem tables_agree {c : Container} {img : HDDImage} (accepted : parseInto c = some img) {s : HDDStream}
    (read : readTables c = some (s.boot_sector, s.partition_entries)) :
    SameTable img s ∧ ∃ p pe, img.current = some p ∧
      countedSlot p.number.toNat s.partition_entries 0 0 = some (p.slot, pe) ∧
        p = partitionOf pe p.number p.slot ∧ s.defaultEntry = some pe := by
  obtain ⟨boot, entries, read', parts, chosen⟩ := parseInto_some accepted
  obtain ⟨same, same'⟩ := Prod.mk.inj (Option.some.inj (read.symm.trans read'))
  have table : SameTable img s := ⟨readTables_length read, by rw [same']; exact parts⟩
  exact ⟨table, table.initial (by rw [same]; exact selected_choice parts chosen)⟩

/- A stream reads the header of an accepted image. -/
theorem readHeader_read {c : Container} {img : HDDImage} (accepted : parseInto c = some img) {s : HDDStream}
    (data : s.container.data = c.data) (size : s.container.size = c.size) :
    ∃ boot entries, readTables c = some (boot, entries) ∧
      s.readHeader = (true, { s with boot_sector := boot, partition_entries := entries, header_read := true }) := by
  obtain ⟨boot, entries, read, -⟩ := parseInto_some accepted
  refine ⟨boot, entries, read, ?_⟩
  unfold readHeader
  rw [readTables_congr data size, read]

/-- The registry and the stream agree about the partitions of every image that parses. -/
theorem cfs_numberings_agree (c : Container) (img : HDDImage) (accepted : parseInto c = some img) (s : HDDStream)
    (data : s.container.data = c.data) (size : s.container.size = c.size) :
    s.readHeader.1 = true ∧ Agree img s.readHeader.2 := by
  obtain ⟨boot, entries, read, result⟩ := readHeader_read accepted data size
  rw [result]
  obtain ⟨table, p, pe, current, counted, same, default⟩ := tables_agree accepted
    (s := { s with boot_sector := boot, partition_entries := entries, header_read := true }) read
  refine ⟨rfl, ?_, ?_, ?_, table.trySelect, p, pe, current, counted, same, ?_⟩
  · intro k
    rw [table.byNumber k, seekPartitionEntry_fst, Option.isSome_map]
  · intro index beyond
    rw [seekPartitionEntry_fst, countedSlot_beyond index _ 0 0 (by rw [table.length]; omega)]
    rfl
  · intro k p found
    obtain ⟨pe, counted, same⟩ := table.counted found
    exact ⟨pe, counted, same, seekPartitionEntry_some counted⟩
  · unfold selectPartitionByName
    rw [if_pos rfl, default]

/- An image whose slot 1 is the GEOS partition "G" and whose slot 2 is the CFS partition "C",
with root directories in sectors 9 and 5; its default partition is slot 1. -/
def sampleBytes : List (Nat × UInt8) :=
  [(3, 1), (8, 0x43), (9, 0x36), (10, 0x34), (11, 0x20), (12, 0x43), (13, 0x46), (14, 0x53), (0x1B, 1),
    (544, 0x47), (560, 0x80), (564, 0x20), (575, 9),
    (576, 0x43), (592, 0x80), (596, 0x10), (607, 5)]

def sampleCfs : Container where
  data := fun k => ((sampleBytes.find? (·.1 = k)).map (·.2)).getD 0
  size := 8192

def sampleStream : HDDStream where
  container := sampleCfs
  boot_sector := bootSector []
  partition_entries := []
  header_read := false
  selected_partition := 0
  partition_list := false
  dir_start_lba := 0
  dir_label := []
  part_start_lba := 0
  part_end_lba := 0
  blocks_free_valid := false
  dir_buf := []
  walk_lba := 0
  walk_pos := 0
  walk_count := 0
  entry := ⟨[], 0, [], 0, ⟨0, 0, 0, 0⟩, false, false⟩
  entry_index := 0

theorem sampleCfs_accepted :
    (parseInto sampleCfs).map (fun img => (img.parts.map (fun p => (p.number, p.type, p.root_lba)), img.selected)) =
      some ([(1, 2, 9), (2, 1, 5)], 2) := by
  decide +kernel

/-- `cfs_numberings_agree` applies to that image. -/
theorem cfs_numberings_agree_sample :
    ∃ img, parseInto sampleCfs = some img ∧ img.selected = 2 ∧ Agree img sampleStream.readHeader.2 := by
  obtain ⟨img, accepted, view⟩ := Option.map_eq_some_iff.mp sampleCfs_accepted
  exact ⟨img, accepted, (Prod.mk.inj view).2, (cfs_numberings_agree sampleCfs img accepted sampleStream rfl rfl).2⟩

end Meatloaf.Hd
