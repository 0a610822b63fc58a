import Meatloaf.Hd.Partition
import Meatloaf.Stream.Broker
import Meatloaf.Stream.Container

/-! CMD hard disk and FD images: the partition table of an image, and which of its
partitions is selected. Entry 0 of the table is the system partition. It is listed with the
others but is no disk, while a partition number of 0 stands for the selected partition. -/
namespace Meatloaf.Hd

open Lib

structure DHDPartition where
  number : UInt8
  type : UInt8
  name : Str
  start : Nat
  size : Nat
  deriving DecidableEq

/-- `DHDImageRegistry::Image`. -/
structure DHDImage where
  default_part : UInt8 := 1
  selected : UInt8 := 0
  cached_part : UInt8 := 0
  disk_label : Str := []
  parts : List DHDPartition := []

namespace DHDImage

def byNumber (img : DHDImage) (number : UInt8) : Option DHDPartition :=
  img.parts.find? (·.number = number)

def byName (img : DHDImage) (utf8name : Str) : Option DHDPartition :=
  img.parts.find? fun p => compareFilename (toUTF8 p.name) utf8name (isWildcard utf8name)

def current (img : DHDImage) : Option DHDPartition := img.byNumber img.selected

/- "CMD HD  " and the start of the boot code. -/
def hdmagic : Str :=
  [0x43, 0x4D, 0x44, 0x20, 0x48, 0x44, 0x20, 0x20, 0x8D, 0x03, 0x88, 0x8E, 0x02, 0x88, 0xEA, 0x60]

/- "CMD FD SERIES   ". -/
def fdmagic : Str :=
  [0x43, 0x4D, 0x44, 0x20, 0x46, 0x44, 0x20, 0x53, 0x45, 0x52, 0x49, 0x45, 0x53, 0x20, 0x20, 0x20]

def toLower (s : Str) : Str := s.map fun c => if 0x41 ≤ c ∧ c ≤ 0x5A then c + 0x20 else c

def endsWith (s pattern : Str) : Bool := decide (pattern <:+ s)

/- Where an FD image has its system partition; 0 for an HD image, which is searched. -/
def fdSystem (containerUrl : Str) : Nat :=
  let lower := toLower containerUrl
  if endsWith lower [0x2e, 0x64, 0x31, 0x6d] then 0x640 * 512
  else if endsWith lower [0x2e, 0x64, 0x32, 0x6d] then 0xC80 * 512
  else if endsWith lower [0x2e, 0x64, 0x34, 0x6d] then 0x1900 * 512
  else 0

/- The sector with the signature, if it is there. -/
def configAt (c : Container) (base : Nat) (magic : Str) : Option Str :=
  if base + 0x600 ≤ c.size then (c.fetch (base + 0x500) 256).filter fun cfg => (cfg.drop 0xF0).take 16 = magic
  else none

/- The system partition of an HD image sits on a 64 KiB boundary. The loop counts in 32 bits:
on an image of nearly 4 GiB without the signature it starts over and does not return, which
is no acceptance either. -/
def searchHd (c : Container) : Option (Nat × Str) :=
  (List.range 65536).findSome? fun i => (configAt c (i * 65536) hdmagic).map fun cfg => (i * 65536, cfg)

/- The configuration sector, the place of the partition table and its last entry. -/
def findTable (containerUrl : Str) (c : Container) : Option (Str × Nat × Nat) :=
  let fd_sys := fdSystem containerUrl
  if fd_sys ≠ 0 then (configAt c fd_sys fdmagic).map fun cfg => (cfg, fd_sys + 2048, 31)
  else (searchHd c).map fun found => (found.2, (found.1 + 65536) % 2 ^ 32, 254)

def bigEndian24 (buf : Str) (at_ : Nat) : Nat :=
  (buf.getD at_ 0).toNat * 65536 + (buf.getD (at_ + 1) 0).toNat * 256 + (buf.getD (at_ + 2) 0).toNat

/- The name of a table entry, up to the first shifted space. -/
def entryName (buf : Str) : Str := ((buf.drop 5).take 16).takeWhile (· ≠ 0xA0)

def entryPartition (i : Nat) (buf : Str) : DHDPartition where
  number := UInt8.ofNat i
  type := buf.getD 2 0
  name := entryName buf
  start := bigEndian24 buf 0x15 * 512 % 2 ^ 32
  size := bigEndian24 buf 0x1D * 512 % 2 ^ 32

/- The loop over the table, from entry `i` on, with `n` entries to go. It stops where the
image ends. -/
def readTable (c : Container) (table_base : Nat) : Nat → Nat → DHDImage → DHDImage
  | 0, _, img => img
  | n + 1, i, img =>
    let off := (table_base + i * 32) % 2 ^ 32
    if c.size < (off + 32) % 2 ^ 32 then img
    else
      match c.fetch off 32 with
      | none => img
      | some buf =>
        let img := if i = 0 then { img with disk_label := toUTF8 (entryName buf) } else img
        if i ≠ 0 ∧ (buf.getD 2 0 < 1 ∨ 4 < buf.getD 2 0) then readTable c table_base n (i + 1) img
        else readTable c table_base n (i + 1) { img with parts := img.parts ++ [entryPartition i buf] }

/- The number of the first partition that is not the system partition. -/
def firstUser (img : DHDImage) : UInt8 :=
  match img.parts.find? (·.number ≠ 0) with
  | some p => p.number
  | none => 0

/-- `DHDImageRegistry::parse` of the image with this url and content. -/
def parse (containerUrl : Str) (c : Container) : Option DHDImage :=
  match findTable containerUrl c with
  | none => none
  | some (cfg, table_base, maxpart) =>
    let img := readTable c table_base (maxpart + 1) 0 { default_part := cfg.getD 0xE2 0 }
    if img.firstUser = 0 then none
    else
      some { img with
        selected := if img.default_part ≠ 0 ∧ (img.byNumber img.default_part).isSome then img.default_part
          else img.firstUser }

end DHDImage

/-- `DHDResolvePartition`. A name that matches the system partition first names nothing. -/
def dhdResolvePartition (img : DHDImage) (in_path : Str) : Resolved DHDPartition :=
  resolvePartition 254 img.current img.byNumber (fun comp => (img.byName comp).filter (·.number ≠ 0)) in_path

/-- The registry's record of one image, and the broker its streams are cached in. `source` is
what the image's own path resolves to. -/
structure DHDRegistry (σ : Type) where
  image : DHDImage
  broker : ImageBroker σ
  source : Option Source

namespace DHDRegistry

variable {σ : Type}

/- "d64", the type under which every partition is cached. -/
def imageType : Str := [0x64, 0x36, 0x34]

def disposeCachedStream (r : DHDRegistry σ) : DHDRegistry σ :=
  { r with broker := r.broker.disposeFor imageType r.source }

/-- `DHDImageRegistry::select`. -/
def select (r : DHDRegistry σ) (number : UInt8) : Bool × DHDRegistry σ :=
  if number = 0 then (false, r)
  else
    match r.image.byNumber number with
    | none => (false, r)
    | some _ =>
      if r.image.selected = number then (true, r)
      else
        let r := { r with image := { r.image with selected := number } }
        let r := r.disposeCachedStream
        (true, { r with image := { r.image with cached_part := 0 } })

/-- `hdpart::resolve` of a CMD image. -/
def resolve (r : DHDRegistry σ) (arg : Str) : Int :=
  resolveArgument 254 (r.image.parts.map (·.number)) (fun arg => (r.image.byName arg).map (·.number)) arg

/-- `hdpart::select` of a CMD image. -/
def selectNumber (r : DHDRegistry σ) (number : Int) : Bool × DHDRegistry σ :=
  if number < 1 ∨ 254 < number then (false, r) else r.select (UInt8.ofNat number.toNat)

end DHDRegistry

namespace DHDImage

/-- The selected partition exists and is not the system partition. -/
def Mounted (img : DHDImage) : Prop := ∃ p, img.current = some p ∧ p.number = img.selected ∧ p.number ≠ 0

theorem byNumber_number {img : DHDImage} {number : UInt8} {p : DHDPartition}
    (found : img.byNumber number = some p) : p.number = number := by
  have here := List.find?_some found
  rwa [decide_eq_true_eq] at here

/- A partition of the table is found by its number. -/
theorem byNumber_of_mem {img : DHDImage} {p : DHDPartition} (member : p ∈ img.parts) :
    ∃ q, img.byNumber p.number = some q := by
  refine Option.isSome_iff_exists.mp ?_
  rw [byNumber, List.find?_isSome]
  exact ⟨p, member, by simp⟩

theorem mounted_of_byNumber {img : DHDImage} {p : DHDPartition} (found : img.byNumber img.selected = some p)
    (user : img.selected ≠ 0) : img.Mounted :=
  ⟨p, found, byNumber_number found, by rw [byNumber_number found]; exact user⟩

theorem firstUser_some {img : DHDImage} (some_ : img.firstUser ≠ 0) :
    ∃ p, img.byNumber img.firstUser = some p := by
  unfold firstUser at some_ ⊢
  cases found : img.parts.find? (·.number ≠ 0) with
  | none => rw [found] at some_; exact absurd rfl some_
  | some p =>
    exact byNumber_of_mem (List.mem_of_find?_eq_some found)

/-- An accepted image starts out with a disk selected. -/
theorem parse_mounted {containerUrl : Str} {c : Container} {img : DHDImage}
    (accepted : parse containerUrl c = some img) : img.Mounted := by
  unfold parse at accepted
  split at accepted
  · cases accepted
  · rename_i cfg table_base maxpart _
    dsimp only at accepted
    split at accepted
    · cases accepted
    · rename_i some_
      obtain rfl := Option.some.inj accepted
      by_cases default : (readTable c table_base (maxpart + 1) 0 { default_part := cfg.getD 0xE2 0 }).default_part ≠ 0 ∧
          ((readTable c table_base (maxpart + 1) 0 { default_part := cfg.getD 0xE2 0 }).byNumber
            (readTable c table_base (maxpart + 1) 0 { default_part := cfg.getD 0xE2 0 }).default_part).isSome = true
      · obtain ⟨p, found⟩ := Option.isSome_iff_exists.mp default.2
        refine mounted_of_byNumber (p := p) ?_ ?_
        · simp only [if_pos default]
          exact found
        · simp only [if_pos default]
          exact default.1
      · obtain ⟨p, found⟩ := firstUser_some some_
        refine mounted_of_byNumber (p := p) ?_ ?_
        · simp only [if_neg default]
          exact found
        · simp only [if_neg default]
          exact some_

/-- The partitions read before entry `i`: their numbers are smaller, and each is found by its
own. -/
structure Numbered (i : Nat) (parts : List DHDPartition) : Prop where
  before : ∀ p ∈ parts, p.number.toNat < i
  own : ∀ p ∈ parts, parts.find? (·.number = p.number) = some p

theorem Numbered.skip {i : Nat} {parts : List DHDPartition} (numbered : Numbered i parts) : Numbered (i + 1) parts :=
  ⟨fun p member => Nat.lt_succ_of_lt (numbered.before p member), numbered.own⟩

theorem Numbered.add {i : Nat} {parts : List DHDPartition} (numbered : Numbered i parts) (small : i < 256)
    (buf : Str) : Numbered (i + 1) (parts ++ [entryPartition i buf]) := by
  have value : (entryPartition i buf).number.toNat = i := by
    rw [entryPartition, UInt8.toNat_ofNat', Nat.mod_eq_of_lt small]
  constructor
  · intro p member
    rcases List.mem_append.mp member with member | member
    · exact Nat.lt_succ_of_lt (numbered.before p member)
    · rw [List.mem_singleton.mp member, value]
      exact Nat.lt_succ_self i
  · intro p member
    rw [List.find?_append]
    rcases List.mem_append.mp member with member | member
    · rw [numbered.own p member, Option.some_or]
    · obtain rfl := List.mem_singleton.mp member
      have fresh : parts.find? (·.number = (entryPartition i buf).number) = none := by
        rw [List.find?_eq_none]
        intro q old same
        have smaller := numbered.before q old
        rw [decide_eq_true_eq] at same
        rw [same, value] at smaller
        exact Nat.lt_irrefl i smaller
      rw [fresh, Option.none_or, List.find?_cons_of_pos (by simp)]

/- Entries past the last number of a table are not read. -/
theorem readTable_numbered (c : Container) (table_base n i : Nat) (img : DHDImage) (fits : i + n ≤ 255)
    (numbered : Numbered i img.parts) :
    ∃ j, j ≤ 255 ∧ Numbered j (readTable c table_base n i img).parts := by
  induction n generalizing i img with
  | zero => exact ⟨i, by omega, numbered⟩
  | succ n ih =>
    have labelled : ∀ label, Numbered i (if i = 0 then { img with disk_label := label } else img).parts := by
      intro label
      split
      · exact numbered
      · exact numbered
    unfold readTable
    dsimp only
    split
    · exact ⟨i, by omega, numbered⟩
    · split
      · exact ⟨i, by omega, numbered⟩
      · split
        · exact ih (i + 1) _ (by omega) (labelled _).skip
        · exact ih (i + 1) _ (by omega) ((labelled _).add (by omega) _)

/-- The partitions of an accepted image have numbers of their own. -/
theorem parse_numbered {containerUrl : Str} {c : Container} {img : DHDImage}
    (accepted : parse containerUrl c = some img) : ∃ j, j ≤ 255 ∧ Numbered j img.parts := by
  unfold parse at accepted
  split at accepted
  · cases accepted
  · rename_i cfg table_base maxpart found
    have last : maxpart ≤ 254 := by
      unfold findTable at found
      dsimp only at found
      split at found
      · obtain ⟨_, _, same⟩ := Option.map_eq_some_iff.mp found
        have last : 31 = maxpart := congrArg (·.2.2) same
        omega
      · obtain ⟨_, _, same⟩ := Option.map_eq_some_iff.mp found
        have last : 254 = maxpart := congrArg (·.2.2) same
        omega
    dsimp only at accepted
    split at accepted
    · cases accepted
    · obtain rfl := Option.some.inj accepted
      refine readTable_numbered c table_base (maxpart + 1) 0 _ (by omega) ⟨?_, ?_⟩
      · intro p member
        cases member
      · intro p member
        cases member

theorem parse_numbers {containerUrl : Str} {c : Container} {img : DHDImage}
    (accepted : parse containerUrl c = some img) : ∀ p ∈ img.parts, p.number.toNat ≤ 254 := by
  obtain ⟨j, last, numbered⟩ := parse_numbered accepted
  intro p member
  have small := numbered.before p member
  omega

end DHDImage

/-- What a path that names a partition leaves, and one that names none. -/
def RestOf (path : Str) (x : Resolved DHDPartition) : Prop :=
  (x.out_explicit = false ∧ x.out_rest = path) ∨
    (x.out_explicit = true ∧ ∃ comp, comp ≠ [] ∧ slash ∉ comp ∧
      (path = comp ++ slash :: x.out_rest ∨ (path = comp ∧ x.out_rest = [])))

/-- A path leads to a disk, whatever it names. -/
theorem dhdResolvePartition_spec {img : DHDImage} (mounted : img.Mounted) (path : Str) :
    (∃ p, (dhdResolvePartition img path).partition = some p ∧ p.number ≠ 0) ∧
      RestOf path (dhdResolvePartition img path) := by
  obtain ⟨q, current, -, user⟩ := mounted
  unfold dhdResolvePartition
  rcases resolvePartition_cases 254 img.current img.byNumber
      (fun comp => (img.byName comp).filter (·.number ≠ 0)) path with ⟨p, named, result⟩ | result
  · rw [result]
    refine ⟨⟨p, rfl, ?_⟩, .inr ⟨rfl, firstComponent path, ?_, firstComponent_plain path, ?_⟩⟩
    · rcases namedPartition_cases named with here | ⟨v, positive, within, here⟩ | here
      · rw [current] at here
        rw [← Option.some.inj here]
        exact user
      · rw [DHDImage.byNumber_number here]
        intro zero
        have value := congrArg UInt8.toNat zero
        rw [UInt8.toNat_ofNat', Nat.mod_eq_of_lt (by omega)] at value
        exact absurd value (by simp; omega)
      · have kept := (Option.filter_eq_some_iff.mp here).2
        simpa using kept
    · intro empty
      rw [empty, namedPartition_nil] at named
      cases named
    · obtain ⟨parts, rest⟩ := afterComponent_eq path
      by_cases more : slash ∈ path
      · left
        rw [if_pos more] at parts
        exact parts
      · right
        rw [if_neg more, List.append_nil] at parts
        exact ⟨parts, rest more⟩
  · rw [result]
    exact ⟨⟨q, current, user⟩, .inl ⟨rfl, rfl⟩⟩

/-- The partition a path leads to is one of the table. -/
theorem dhdResolvePartition_mem {img : DHDImage} {path : Str} {p : DHDPartition}
    (named : (dhdResolvePartition img path).partition = some p) : p ∈ img.parts := by
  unfold dhdResolvePartition at named
  rcases resolvePartition_cases 254 img.current img.byNumber
      (fun comp => (img.byName comp).filter (·.number ≠ 0)) path with ⟨q, found, result⟩ | result
  · rw [result] at named
    obtain rfl := Option.some.inj named
    rcases namedPartition_cases found with here | ⟨v, -, -, here⟩ | here
    · exact List.mem_of_find?_eq_some here
    · exact List.mem_of_find?_eq_some here
    · exact List.mem_of_find?_eq_some (Option.filter_eq_some_iff.mp here).1
  · rw [result] at named
    exact List.mem_of_find?_eq_some named

/-- The calls that look partitions up or select them. -/
inductive SelectCall where
  | select (number : UInt8)
  | resolve (arg : Str)
  | selectNumber (number : Int)
  | selectNamed (arg : Str)
  | resolvePartition (path : Str)

/- What a call answers. -/
inductive SelectAnswer where
  | done (ok : Bool)
  | number (n : Int)
  | partition (x : Resolved DHDPartition)

namespace DHDRegistry

variable {σ : Type}

def call (r : DHDRegistry σ) : SelectCall → SelectAnswer × DHDRegistry σ
  | .select number => (.done (r.select number).1, (r.select number).2)
  | .resolve arg => (.number (r.resolve arg), r)
  | .selectNumber number => (.done (r.selectNumber number).1, (r.selectNumber number).2)
  | .selectNamed arg => (.done (r.selectNumber (r.resolve arg)).1, (r.selectNumber (r.resolve arg)).2)
  | .resolvePartition path => (.partition (dhdResolvePartition r.image path), r)

def step (r : DHDRegistry σ) (c : SelectCall) : DHDRegistry σ := (r.call c).2

/-- A selection either finds its partition, which is not the system partition, or changes
nothing. -/
theorem select_cases (r : DHDRegistry σ) (number : UInt8) :
    r.select number = (false, r) ∨
      ∃ p, number ≠ 0 ∧ r.image.byNumber number = some p ∧ (r.select number).1 = true ∧
        (r.select number).2.image.selected = number ∧ (r.select number).2.image.parts = r.image.parts := by
  unfold select
  split
  · exact .inl rfl
  · rename_i user
    split
    · exact .inl rfl
    · rename_i p found
      right
      refine ⟨p, user, found, ?_⟩
      split
      · rename_i same
        exact ⟨rfl, same, rfl⟩
      · exact ⟨rfl, rfl, rfl⟩

theorem selectNumber_cases (r : DHDRegistry σ) (number : Int) :
    r.selectNumber number = (false, r) ∨ ∃ n, r.selectNumber number = r.select n := by
  unfold selectNumber
  split
  · exact .inl rfl
  · exact .inr ⟨_, rfl⟩

/-- Every call is a selection, or leaves the registry as it is. -/
theorem call_cases (r : DHDRegistry σ) (c : SelectCall) :
    (∃ n, r.call c = (.done (r.select n).1, (r.select n).2)) ∨ r.call c = (.done false, r) ∨
      ((∀ ok, (r.call c).1 ≠ .done ok) ∧ (r.call c).2 = r) := by
  have named : ∀ number, (∃ n, (SelectAnswer.done (r.selectNumber number).1, (r.selectNumber number).2) =
      (SelectAnswer.done (r.select n).1, (r.select n).2)) ∨
      (SelectAnswer.done (r.selectNumber number).1, (r.selectNumber number).2) = (SelectAnswer.done false, r) := by
    intro number
    rcases selectNumber_cases r number with refused | ⟨n, result⟩
    · exact .inr (by rw [refused])
    · exact .inl ⟨n, by rw [result]⟩
  cases c with
  | select number => exact .inl ⟨number, rfl⟩
  | resolve arg => exact .inr (.inr ⟨fun ok => SelectAnswer.noConfusion, rfl⟩)
  | selectNumber number =>
    rcases named number with same | same
    · exact .inl same
    · exact .inr (.inl same)
  | selectNamed arg =>
    rcases named (r.resolve arg) with same | same
    · exact .inl same
    · exact .inr (.inl same)
  | resolvePartition path => exact .inr (.inr ⟨fun ok => SelectAnswer.noConfusion, rfl⟩)

theorem select_mounted {r : DHDRegistry σ} (mounted : r.image.Mounted) (number : UInt8) :
    (r.select number).2.image.Mounted := by
  rcases select_cases r number with same | ⟨p, user, found, -, selected, parts⟩
  · rw [same]
    exact mounted
  · refine DHDImage.mounted_of_byNumber (p := p) ?_ ?_
    · rw [selected, DHDImage.byNumber, parts]
      exact found
    · rw [selected]
      exact user

theorem step_mounted {r : DHDRegistry σ} (mounted : r.image.Mounted) (c : SelectCall) :
    (r.step c).image.Mounted := by
  unfold step
  rcases call_cases r c with ⟨n, result⟩ | result | ⟨-, same⟩
  · rw [result]
    exact select_mounted mounted n
  · rw [result]
    exact mounted
  · rw [same]
    exact mounted

/-- What is asked of every call, in the state it is made in. -/
structure Sane (r : DHDRegistry σ) (c : SelectCall) : Prop where
  mounted : r.image.Mounted
  refused : (r.call c).1 = .done false → (r.step c).image.selected = r.image.selected
  resolved : ∀ path, c = .resolvePartition path → ∃ x, (r.call c).1 = .partition x ∧
    (∃ p, x.partition = some p ∧ p.number ≠ 0) ∧ RestOf path x ∧
    (r.step c).image.selected = r.image.selected

theorem call_sane {r : DHDRegistry σ} (mounted : r.image.Mounted) (c : SelectCall) : r.Sane c where
  mounted := mounted
  refused := by
    intro no
    unfold step
    rcases call_cases r c with ⟨n, result⟩ | result | ⟨-, same⟩
    · rw [result] at no ⊢
      rcases select_cases r n with same | ⟨p, -, -, yes, -, -⟩
      · rw [same]
      · rw [yes] at no
        cases no
    · rw [result]
    · rw [same]
  resolved := by
    rintro path rfl
    obtain ⟨partition, rest⟩ := dhdResolvePartition_spec mounted path
    exact ⟨_, rfl, partition, rest, rfl⟩

/-- However an accepted image is used, a disk stays selected: every call finds and leaves the
selection on an existing partition other than the system partition. -/
theorem selection_run (containerUrl : Str) (c : Container) (r : DHDRegistry σ)
    (accepted : DHDImage.parse containerUrl c = some r.image) (calls : List SelectCall) :
    Along step Sane r calls ∧ (calls.foldl step r).image.Mounted := by
  have start := DHDImage.parse_mounted accepted
  have any : Along step (fun _ _ => True) r calls := along_true
  constructor
  · exact Along.imp (I := fun r => r.image.Mounted) (fun r c mounted _ => step_mounted mounted c)
      (fun r c mounted _ => call_sane mounted c) start any
  · exact Along.invariant (I := fun r => r.image.Mounted) (fun r c mounted _ => step_mounted mounted c) start any

/- A D1M image whose first entry after the system partition is a 1541 disk, and whose
default partition is 0. -/
def sampleUrl : Str := [0x61, 0x2e, 0x44, 0x31, 0x4d]

def sampleFd : Container where
  data := fun k =>
    if 819200 + 0x5F0 ≤ k then
      if k < 819200 + 0x600 then DHDImage.fdmagic.getD (k - (819200 + 0x5F0)) 0
      else if k = 819200 + 2048 + 32 + 2 then 2 else 0
    else 0
  size := 829440

theorem sampleFd_accepted : (DHDImage.parse sampleUrl sampleFd).isSome = true := by decide +kernel

/-- `selection_run` applies to that image, whatever is called. -/
theorem selection_run_d1m : ∃ img, DHDImage.parse sampleUrl sampleFd = some img ∧
    ∀ calls, Along step Sane (⟨img, {}, none⟩ : DHDRegistry Unit) calls := by
  obtain ⟨img, accepted⟩ := Option.isSome_iff_exists.mp sampleFd_accepted
  exact ⟨img, accepted, fun calls => (selection_run sampleUrl sampleFd ⟨img, {}, none⟩ accepted calls).1⟩

end DHDRegistry

end Meatloaf.Hd
