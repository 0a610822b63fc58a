import Meatloaf.Hd.Cmd
import Meatloaf.Hd.Cfs

/-! The "$=P" listing: what it emits for a partition, and when that leads back to the
partition. -/
namespace Meatloaf.Hd

/- A file of the listing. `component` is what its URL has below the URL of the image. -/
structure PartitionFile where
  component : Str
  name : Str
  extension : Str
  size : Nat
  is_dir : Bool
  is_hidden : Bool
  deriving DecidableEq

/- `mstr::replaceAll(fname, "/", "\\")`. -/
def unslashed (s : Str) : Str := s.map fun c => if c = slash then backslash else c

variable {π : Type}

/- One step of a listing: the file of the entry at `part_index`, and the next index. -/
def nextPartition (file : π → PartitionFile) (parts : List π) (part_index : Nat) : Option (PartitionFile × Nat) :=
  parts[part_index]?.map fun p => (file p, part_index + 1)

namespace DHDImage

/- " NAT", " 41", " 71" and " 81"; " SYS" is the system partition, and " ???" any other. -/
def typeLabel (type : UInt8) : Str :=
  if type = 0xFF then [0x20, 0x53, 0x59, 0x53]
  else if type = 1 then [0x20, 0x4e, 0x41, 0x54]
  else if type = 2 then [0x20, 0x34, 0x31]
  else if type = 3 then [0x20, 0x37, 0x31]
  else if type = 4 then [0x20, 0x38, 0x31]
  else [0x20, 0x3f, 0x3f, 0x3f]

def partitionFile (p : DHDPartition) : PartitionFile :=
  let fname := unslashed (toUTF8 p.name)
  { component := fname, name := fname, extension := typeLabel p.type, size := p.number.toNat * 256, is_dir := true,
    is_hidden := false }

/-- `DHDPartitionMFile::getNextFileInDir` of the partition list. -/
def getNextFileInDir (img : DHDImage) (part_index : Nat) : Option (PartitionFile × Nat) :=
  nextPartition partitionFile img.parts part_index

end DHDImage

namespace HDDImage

/- "*CFS", " GEOS" and " ----". -/
def typeLabel (type : UInt8) : Str :=
  if type = 1 then [0x2a, 0x43, 0x46, 0x53]
  else if type = 2 then [0x20, 0x47, 0x45, 0x4f, 0x53]
  else if type = 0 then [0x20, 0x2d, 0x2d, 0x2d, 0x2d]
  else [0x3f]

/- The URL takes the name as it is; only the name that is shown has its slashes replaced. -/
def partitionFile (p : HDDPartition) : PartitionFile where
  component := toUTF8 p.name
  name := unslashed (toUTF8 p.name)
  extension := typeLabel p.type
  size := p.number.toNat * 256
  is_dir := decide (p.type = 1)
  is_hidden := p.hidden

/-- `HDDMFile::getNextFileInDir` of the partition list. -/
def getNextFileInDir (img : HDDImage) (part_index : Nat) : Option (PartitionFile × Nat) :=
  nextPartition partitionFile img.parts part_index

end HDDImage

/- ## What a component names -/

/- The component matches the name of `p`. -/
def matchesName (name : π → Str) (comp : Str) (p : π) : Bool :=
  compareFilename (toUTF8 (name p)) comp (isWildcard comp)

/-- The component names `p`: as the number of `p`, as zero while `p` is selected, or by the
name of `p`, which no earlier entry of the table answers to. -/
def NamesPartition (number : π → UInt8) (name : π → Str) (parts : List π) (selected : UInt8) (p : π)
    (comp : Str) : Prop :=
  comp ≠ [] ∧ wildcardOnly comp = false ∧
    if numeric comp = true then strtol comp = (number p).toNat ∨ (strtol comp = 0 ∧ selected = number p)
    else matchesName name comp p = true ∧
      ∀ q ∈ parts.takeWhile (fun q => number q ≠ number p), matchesName name comp q = false

instance (number : π → UInt8) (name : π → Str) (parts : List π) (selected : UInt8) (p : π) (comp : Str) :
    Decidable (NamesPartition number name parts selected p comp) :=
  inferInstanceAs (Decidable (comp ≠ [] ∧ wildcardOnly comp = false ∧
    if numeric comp = true then strtol comp = (number p).toNat ∨ (strtol comp = 0 ∧ selected = number p)
    else matchesName name comp p = true ∧
      ∀ q ∈ parts.takeWhile (fun q => number q ≠ number p), matchesName name comp q = false))

/- The partition that its number finds is the first one to satisfy `f`. -/
theorem find_first {number : π → UInt8} {parts : List π} {p : π}
    (own : parts.find? (number · = number p) = some p) (f : π → Bool) :
    parts.find? f = some p ↔
      f p = true ∧ ∀ q ∈ parts.takeWhile (fun q => number q ≠ number p), f q = false := by
  obtain ⟨-, before, after, rfl, others⟩ := List.find?_eq_some_iff_append.mp own
  have other : ∀ q ∈ before, number q ≠ number p := by
    intro q member same
    have differs := others q member
    simp [same] at differs
  have first : (before ++ p :: after).takeWhile (fun q => number q ≠ number p) = before := by
    rw [List.takeWhile_append_of_pos (by simpa using other), List.takeWhile_cons_of_neg (by simp),
      List.append_nil]
  rw [first, List.find?_append]
  constructor
  · intro found
    cases early : before.find? f with
    | some q =>
      rw [early, Option.some_or] at found
      obtain rfl := Option.some.inj found
      exact absurd rfl (other q (List.mem_of_find?_eq_some early))
    | none =>
      rw [early, Option.none_or] at found
      refine ⟨List.find?_some found, fun q member => ?_⟩
      simpa using List.find?_eq_none.mp early q member
  · rintro ⟨here, silent⟩
    have early : before.find? f = none := by
      rw [List.find?_eq_none]
      intro q member
      rw [silent q member]
      exact Bool.false_ne_true
    rw [early, Option.none_or, List.find?_cons_of_pos here]

section Naming

variable {number : π → UInt8} {name : π → Str} {parts : List π} {selected : UInt8} {p : π} {hi : Nat}
  (own : parts.find? (number · = number p) = some p) (user : number p ≠ 0) (within : (number p).toNat ≤ hi)

include own

/- A number finds `p` only if it is the number of `p`. -/
theorem find_number_iff (k : UInt8) : parts.find? (number · = k) = some p ↔ k = number p := by
  constructor
  · intro found
    have here := List.find?_some found
    rw [decide_eq_true_eq] at here
    exact here.symm
  · rintro rfl
    exact own

include user within

/- What a number names, where zero is the selected partition. -/
theorem numbered_iff {v : Nat} (few : hi < 256) :
    (if v ≤ hi then
        (if v = 0 then parts.find? (number · = selected) else parts.find? (number · = UInt8.ofNat v))
      else none) = some p ↔ v = (number p).toNat ∨ (v = 0 ∧ selected = number p) := by
  have positive : (number p).toNat ≠ 0 := fun zero => user (UInt8.toNat_inj.mp zero)
  split
  · rename_i small
    have value : (UInt8.ofNat v).toNat = v := by rw [UInt8.toNat_ofNat', Nat.mod_eq_of_lt (by omega)]
    split
    · rename_i zero
      rw [find_number_iff own]
      constructor
      · exact fun same => .inr ⟨zero, same⟩
      · rintro (same | ⟨-, same⟩)
        · exact absurd (same.symm.trans zero) positive
        · exact same
    · rename_i some_
      rw [find_number_iff own, ← UInt8.toNat_inj, value]
      constructor
      · exact .inl
      · rintro (same | ⟨zero, -⟩)
        · exact same
        · exact absurd zero some_
  · rename_i large
    constructor
    · intro no
      cases no
    · rintro (same | ⟨zero, -⟩)
      · exact absurd (same ▸ within) large
      · exact absurd (zero ▸ Nat.zero_le hi) large

/-- A component names `p` if and only if it reads as `p`. -/
theorem namedPartition_iff (few : hi < 256) (byName : Str → Option π)
    (names : ∀ comp, byName comp = some p ↔ parts.find? (matchesName name comp) = some p) (comp : Str) :
    namedPartition hi (parts.find? (number · = selected)) (fun k => parts.find? (number · = k)) byName comp = some p ↔
      NamesPartition number name parts selected p comp := by
  unfold namedPartition NamesPartition
  by_cases empty : comp = []
  · simp [empty]
  · cases wild : wildcardOnly comp with
    | true => simp
    | false =>
      rw [if_neg (by simp [empty])]
      cases digits : numeric comp with
      | true =>
        simp only [if_true]
        rw [numbered_iff own user within few]
        simp [empty]
      | false =>
        simp only [Bool.false_eq_true, if_false]
        rw [names, find_first own]
        simp [empty]

/-- A path leads to `p` with nothing left if and only if its first component reads as `p` and
nothing follows the slash. -/
theorem resolvePartition_iff (few : hi < 256) (byName : Str → Option π)
    (names : ∀ comp, byName comp = some p ↔ parts.find? (matchesName name comp) = some p) (path : Str) :
    resolvePartition hi (parts.find? (number · = selected)) (fun k => parts.find? (number · = k)) byName path =
        ⟨some p, [], true⟩ ↔
      afterComponent path = [] ∧ NamesPartition number name parts selected p (firstComponent path) := by
  have named : namedPartition hi (parts.find? (number · = selected)) (fun k => parts.find? (number · = k)) byName
      (firstComponent path) = some p ↔ NamesPartition number name parts selected p (firstComponent path) :=
    namedPartition_iff own user within few byName names (firstComponent path)
  rcases resolvePartition_cases hi (parts.find? (number · = selected)) (fun k => parts.find? (number · = k)) byName
      path with ⟨q, found, result⟩ | result
  · rw [result, ← named, found]
    simp [Resolved.mk.injEq, and_comm]
  · rw [result, ← named]
    constructor
    · intro same
      cases (Resolved.mk.inj same).2.2
    · rintro ⟨rest, found⟩
      unfold resolvePartition at result
      rw [found] at result
      cases (Resolved.mk.inj result).2.2

end Naming

theorem unslashed_plain (s : Str) : slash ∉ unslashed s := by
  intro member
  obtain ⟨c, -, same⟩ := List.mem_map.mp member
  split at same
  · exact absurd same (by decide)
  · rename_i other
    exact other same

theorem firstComponent_of_plain {s : Str} (plain : slash ∉ s) : firstComponent s = s := by
  have parts := (afterComponent_eq s).1
  rw [if_neg plain, List.append_nil] at parts
  exact parts.symm

theorem nextPartition_some {file : π → PartitionFile} {parts : List π} {i : Nat} {p : π}
    (entry : parts[i]? = some p) : nextPartition file parts i = some (file p, i + 1) := by
  rw [nextPartition, entry]
  rfl

/- ## CMD images -/

section Cmd

variable {containerUrl : Str} {c : Container} {parsed : DHDImage} {p : DHDPartition}

/-- A path leads explicitly to a disk of a CMD image if and only if its first component reads
as the disk, whatever is selected. -/
theorem dhdResolvePartition_iff (accepted : DHDImage.parse containerUrl c = some parsed) (member : p ∈ parsed.parts)
    (user : p.number ≠ 0) (selected : UInt8) (path : Str) :
    dhdResolvePartition { parsed with selected := selected } path = ⟨some p, [], true⟩ ↔
      afterComponent path = [] ∧ NamesPartition DHDPartition.number DHDPartition.name parsed.parts selected p
        (firstComponent path) := by
  obtain ⟨_, -, numbered⟩ := DHDImage.parse_numbered accepted
  refine resolvePartition_iff (numbered.own p member) user (DHDImage.parse_numbers accepted p member) (by decide) _ ?_
    path
  intro comp
  rw [Option.filter_eq_some_iff]
  constructor
  · exact And.left
  · intro found
    exact ⟨found, by simpa using user⟩

end Cmd

/- ## CFS images -/

section Cfs

variable {c : Container} {parsed : HDDImage} {p : HDDPartition}

/- The partitions of a CFS image are numbered from 1 to 16 at most. -/
theorem hddPartition_numbered (accepted : HDDImage.parseInto c = some parsed) (member : p ∈ parsed.parts) :
    parsed.byNumber p.number = some p ∧ p.number ≠ 0 ∧ p.number.toNat ≤ 16 := by
  obtain ⟨boot, entries, tables, -⟩ := parseInto_some accepted
  have held : readTables c = some (HDDStream.boot_sector { sampleStream with
      boot_sector := boot, partition_entries := entries }, HDDStream.partition_entries { sampleStream with
      boot_sector := boot, partition_entries := entries }) := tables
  obtain ⟨table, -⟩ := tables_agree accepted held
  obtain ⟨own, user, pe, counted, -⟩ := table.mem member
  refine ⟨own, user, ?_⟩
  by_contra large
  rw [countedSlot_beyond _ _ 0 0 (by rw [table.length]; omega)] at counted
  cases counted

/-- A path leads explicitly to a partition of a CFS image if and only if its first component
reads as the partition, whatever is selected. -/
theorem hddResolvePartitionIn_iff (accepted : HDDImage.parseInto c = some parsed) (member : p ∈ parsed.parts)
    (selected : UInt8) (path : Str) :
    hddResolvePartitionIn { parsed with selected := selected } path = ⟨some p, [], true⟩ ↔
      afterComponent path = [] ∧ NamesPartition HDDPartition.number HDDPartition.name parsed.parts selected p
        (firstComponent path) := by
  obtain ⟨own, user, small⟩ := hddPartition_numbered accepted member
  exact resolvePartition_iff own user small (by decide) _ (fun comp => Iff.rfl) path

end Cfs

/- ## Both listings -/

/-- What a partition listing emits for a disk leads back to it if and only if it reads as the
disk, for every CMD and CFS image and whatever is selected; with a CFS image that is asked of
the URL and of the name that is shown. -/
theorem listed_partition_iff (selected : UInt8) :
    (∀ containerUrl c parsed, DHDImage.parse containerUrl c = some parsed → ∀ (i : Nat) (p : DHDPartition),
      parsed.parts[i]? = some p → p.number ≠ 0 → ∃ file,
        DHDImage.getNextFileInDir { parsed with selected := selected } i = some (file, i + 1) ∧
        (dhdResolvePartition { parsed with selected := selected } file.component = ⟨some p, [], true⟩ ↔
          NamesPartition DHDPartition.number DHDPartition.name parsed.parts selected p file.component)) ∧
    (∀ c parsed, HDDImage.parseInto c = some parsed → ∀ (i : Nat) (p : HDDPartition),
      parsed.parts[i]? = some p → ∃ file,
        HDDImage.getNextFileInDir { parsed with selected := selected } i = some (file, i + 1) ∧
        (hddResolvePartitionIn { parsed with selected := selected } file.component = ⟨some p, [], true⟩ ↔
          afterComponent file.component = [] ∧ NamesPartition HDDPartition.number HDDPartition.name parsed.parts
            selected p (firstComponent file.component)) ∧
        (hddResolvePartitionIn { parsed with selected := selected } file.name = ⟨some p, [], true⟩ ↔
          NamesPartition HDDPartition.number HDDPartition.name parsed.parts selected p file.name)) := by
  constructor
  · intro containerUrl c parsed accepted i p entry user
    refine ⟨DHDImage.partitionFile p, nextPartition_some entry, ?_⟩
    have plain : slash ∉ (DHDImage.partitionFile p).component := unslashed_plain _
    rw [dhdResolvePartition_iff accepted (List.mem_of_getElem? entry) user, firstComponent_of_plain plain,
      (afterComponent_eq _).2 plain]
    exact and_iff_right rfl
  · intro c parsed accepted i p entry
    refine ⟨HDDImage.partitionFile p, nextPartition_some entry, ?_, ?_⟩
    · exact hddResolvePartitionIn_iff accepted (List.mem_of_getElem? entry) selected _
    · have plain : slash ∉ (HDDImage.partitionFile p).name := unslashed_plain _
      rw [hddResolvePartitionIn_iff accepted (List.mem_of_getElem? entry), firstComponent_of_plain plain,
        (afterComponent_eq _).2 plain]
      exact and_iff_right rfl

/-- `listed_partition_iff` applies to a CFS image whose partition 2 is named "c": what the
listing emits for it names it, also while partition 1 is selected. -/
theorem listed_partition_named : ∃ parsed p file, HDDImage.parseInto sampleCfs = some parsed ∧
    parsed.parts[1]? = some p ∧ HDDImage.getNextFileInDir { parsed with selected := 1 } 1 = some (file, 2) ∧
    hddResolvePartitionIn { parsed with selected := 1 } file.component = ⟨some p, [], true⟩ := by
  have view : (HDDImage.parseInto sampleCfs).map (fun parsed => parsed.parts[1]?.map fun p =>
      decide (afterComponent (toUTF8 p.name) = [] ∧ NamesPartition HDDPartition.number HDDPartition.name parsed.parts 1
        p (firstComponent (toUTF8 p.name)))) = some (some true) := by decide +kernel
  obtain ⟨parsed, accepted, seen⟩ := Option.map_eq_some_iff.mp view
  obtain ⟨p, entry, reads⟩ := Option.map_eq_some_iff.mp seen
  obtain ⟨file, next, back, -⟩ := (listed_partition_iff 1).2 sampleCfs parsed accepted 1 p entry
  obtain ⟨rfl, -⟩ := Prod.mk.inj (Option.some.inj ((nextPartition_some entry).symm.trans next))
  exact ⟨parsed, p, _, accepted, entry, next, back.mpr (of_decide_eq_true reads)⟩

/- A D1M image whose disk 1 is named "2", and a CFS image whose partition 2 is named "c/d". -/
def digitFd : Container where
  data := fun k =>
    if k = 819200 + 2048 + 32 + 5 then 0x32 else if k = 819200 + 2048 + 32 + 6 then 0xA0 else DHDRegistry.sampleFd.data k
  size := DHDRegistry.sampleFd.size

def slashedCfs : Container where
  data := fun k => if k = 577 then slash else if k = 578 then 0x44 else sampleCfs.data k
  size := sampleCfs.size

/-- The listing of the one emits "2", which names no disk; the listing of the other emits
"c/d", which names nothing either. -/
theorem listed_partition_lost :
    (∃ parsed p file, DHDImage.parse DHDRegistry.sampleUrl digitFd = some parsed ∧ parsed.parts[1]? = some p ∧
      p.number = 1 ∧ parsed.getNextFileInDir 1 = some (file, 2) ∧ file.component = [0x32] ∧
      dhdResolvePartition parsed file.component ≠ ⟨some p, [], true⟩) ∧
    ∃ parsed p file, HDDImage.parseInto slashedCfs = some parsed ∧ parsed.parts[1]? = some p ∧
      parsed.getNextFileInDir 1 = some (file, 2) ∧ file.component = [0x63, slash, 0x64] ∧
      hddResolvePartitionIn parsed file.component ≠ ⟨some p, [], true⟩ := by
  constructor
  · have view : (DHDImage.parse DHDRegistry.sampleUrl digitFd).map (fun parsed =>
        (parsed.parts[1]?.map fun p => (p.number, (DHDImage.partitionFile p).component),
          (dhdResolvePartition parsed [0x32]).out_explicit)) = some (some (1, [0x32]), false) := by decide +kernel
    obtain ⟨parsed, accepted, seen⟩ := Option.map_eq_some_iff.mp view
    obtain ⟨partition, implicit⟩ := Prod.mk.inj seen
    obtain ⟨p, entry, facts⟩ := Option.map_eq_some_iff.mp partition
    obtain ⟨number, component⟩ := Prod.mk.inj facts
    refine ⟨parsed, p, DHDImage.partitionFile p, accepted, entry, number, nextPartition_some entry, component, ?_⟩
    intro same
    rw [component] at same
    rw [same] at implicit
    cases implicit
  · have view : (HDDImage.parseInto slashedCfs).map (fun parsed =>
        (parsed.parts[1]?.map fun p => (HDDImage.partitionFile p).component,
          (hddResolvePartitionIn parsed [0x63, slash, 0x64]).out_explicit)) =
        some (some [0x63, slash, 0x64], false) := by decide +kernel
    obtain ⟨parsed, accepted, seen⟩ := Option.map_eq_some_iff.mp view
    obtain ⟨partition, implicit⟩ := Prod.mk.inj seen
    obtain ⟨p, entry, component⟩ := Option.map_eq_some_iff.mp partition
    refine ⟨parsed, p, HDDImage.partitionFile p, accepted, entry, nextPartition_some entry, component, ?_⟩
    intro same
    rw [component] at same
    rw [same] at implicit
    cases implicit

end Meatloaf.Hd
