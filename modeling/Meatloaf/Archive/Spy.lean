import Meatloaf.Archive.Lnx

/-! `SPYMStream`: a SPYne, whose directory stands behind the code that would extract it, eight
entries to a block, with the files in whole blocks behind the directory. -/
namespace Meatloaf.Archive

open Lib

def SPY_BLOCK_SIZE : Nat := 254
def SPY_CODE_BLOCKS : Nat := 15
def SPY_DIR_START : Nat := SPY_CODE_BLOCKS * SPY_BLOCK_SIZE
def SPY_ENTRY_FIELDS : Nat := 30
def SPY_ENTRY_SIZE : Nat := 32
def SPY_ENTRIES_PER_BLOCK : Nat := 8
def SPY_MAX_ENTRIES : Nat := 144

structure SpyEntry where
  filename : Str := []
  file_type : UInt8 := 0
  checksum : Nat := 0
  lsu : Nat := 0
  blocks : Nat := 0
  offset : Nat := 0
  size : Nat := 0
  deriving DecidableEq

/- `most` is what one read of the container gives at most. -/
structure SPYMStream where
  containerStream : Medium
  most : Nat
  seekCalled : Bool := false
  _size : Nat := 0
  _position : Nat := 0
  entries : List SpyEntry := []
  header_parsed : Bool := false
  header_ok : Bool := false
  entry : SpyEntry := {}
  entry_index : Nat := 0
  entry_count : Option Nat := none

namespace Spy

/- The loop of `spy_read_at`, with as many turns as there are bytes to get. -/
def gather (most : Nat) : Nat → Nat → Medium → Option Str × Medium
  | _, 0, m => (some [], m)
  | 0, _, m => (none, m)
  | fuel + 1, len, m =>
    let r := m.readContainer (min len most)
    if r.1 = [] then (none, r.2)
    else
      let rest := gather most fuel (len - r.1.length) r.2
      (rest.1.map (r.1 ++ ·), rest.2)

/-- `spy_read_at`. -/
def read_at (most offset len : Nat) (m : Medium) : Option Str × Medium := gather most len len (m.seek offset)

/- Two bytes, low and high. -/
def lowHigh (e : Str) (i : Nat) : Nat := (e.getD i 0).toNat ||| (e.getD (i + 1) 0).toNat <<< 8

/- The fields of an entry. -/
def parse (e : Str) : SpyEntry where
  file_type := e.getD 0x00 0
  checksum := lowHigh e 0x17
  lsu := (e.getD 0x19 0).toNat
  blocks := lowHigh e 0x1C
  filename := rtrimA0 ((e.drop 0x03).take 16)

def entryOffset (i : Nat) : Nat :=
  SPY_DIR_START + i / SPY_ENTRIES_PER_BLOCK * SPY_BLOCK_SIZE + i % SPY_ENTRIES_PER_BLOCK * SPY_ENTRY_SIZE

/- The first loop of `loadEntries`. -/
def walk (most : Nat) : Nat → Nat → Medium → List SpyEntry × Medium
  | 0, _, m => ([], m)
  | fuel + 1, i, m =>
    if m.bytes.length % 2 ^ 32 < entryOffset i + SPY_ENTRY_FIELDS then ([], m)
    else
      match read_at most (entryOffset i) SPY_ENTRY_FIELDS m with
      | (none, m) => ([], m)
      | (some e, m) =>
        if e.getD 0x1A 0 = 0 then ([parse e], m)
        else
          let r := walk most fuel (i + 1) m
          (parse e :: r.1, r.2)

/- The second one. -/
def assignOffsets : Nat → List SpyEntry → List SpyEntry
  | _, [] => []
  | offset, n :: ns =>
    { n with
      offset := offset
      size := if n.blocks ≠ 0 ∧ n.lsu ≠ 0 then ((n.blocks - 1) * SPY_BLOCK_SIZE + (n.lsu - 1)) % 2 ^ 32 else 0 } ::
      assignOffsets ((offset + n.blocks * SPY_BLOCK_SIZE) % 2 ^ 32) ns

end Spy

namespace SPYMStream

open Spy

def loadEntries (s : SPYMStream) : Bool × SPYMStream :=
  let r := walk s.most SPY_MAX_ENTRIES 0 s.containerStream
  if r.1 = [] then (false, { s with containerStream := r.2, entries := [] })
  else
    let dir_blocks := (r.1.length + SPY_ENTRIES_PER_BLOCK - 1) / SPY_ENTRIES_PER_BLOCK
    (true, { s with
      containerStream := r.2
      entries := assignOffsets ((SPY_CODE_BLOCKS + dir_blocks) * SPY_BLOCK_SIZE) r.1 })

def readHeader (s : SPYMStream) : Bool × SPYMStream :=
  if s.header_parsed = true then (s.header_ok, s)
  else
    let s := { s with header_parsed := true, header_ok := false }
    match read_at s.most SPY_DIR_START SPY_ENTRY_FIELDS s.containerStream with
    | (none, m) => (false, { s with containerStream := m })
    | (some probe, m) =>
      let type := probe.getD 0x00 0
      let last := probe.getD 0x1A 0
      if type < 0x81 ∨ 0x83 < type ∨ last ≠ 0x00 ∧ last ≠ 0xFF then (false, { s with containerStream := m })
      else
        -- the load address is read, and only logged
        let loaded := loadEntries { s with containerStream := (read_at s.most 0 2 m).2 }
        if loaded.1 = false then loaded
        else (true, { loaded.2 with entry_count := some loaded.2.entries.length, header_ok := true })

/-- `seekEntry(uint16_t)`. -/
def seekEntry (index : Nat) (s : SPYMStream) : Bool × SPYMStream :=
  let index := index % 2 ^ 16
  let header := s.readHeader
  if header.1 = false then header
  else if 0 < index ∧ index ≤ header.2.entries.length then
    (true, { header.2 with entry := header.2.entries.getD (index - 1) {}, entry_index := index })
  else (false, header.2)

/-- `seekEntry(std::string)`. -/
def seekName (filename : Str) (s : SPYMStream) : Bool × SPYMStream :=
  if filename = [] then (false, s)
  else
    let header := s.readHeader
    if header.1 = false then header
    else
      let filename := slashed filename
      match header.2.entries.findIdx? fun n => compareFilename (toUTF8 n.filename) filename (isWildcard filename) with
      | some i => (true, { header.2 with entry := header.2.entries.getD i {}, entry_index := i + 1 })
      | none => (false, { header.2 with entry := { header.2.entry with filename := [] } })

/-- What `seekPath` does with the entry that is found. -/
def select (s : SPYMStream) : SPYMStream :=
  { s with _size := s.entry.size, _position := 0, containerStream := s.containerStream.seek s.entry.offset }

def seekPath (path : Str) (s : SPYMStream) : Bool × SPYMStream :=
  let r := seekName path { s with seekCalled := true, entry_index := 0 }
  if r.1 = true then (true, r.2.select) else r

def readContainer (size : Nat) (s : SPYMStream) : Str × SPYMStream :=
  let r := s.containerStream.readContainer (min size s.most)
  (r.1, { s with containerStream := r.2 })

def readFile (size : Nat) (s : SPYMStream) : Str × SPYMStream :=
  if s._size ≤ s._position then ([], s) else s.readContainer (min size (s._size - s._position))

/-- `MMediaStream::read`. -/
def read (size : Nat) (s : SPYMStream) : Str × SPYMStream :=
  if 0 < s._size ∧ s._size ≤ s._position then ([], s)
  else
    let size := if 0 < s._size then min size (s._size - s._position) else size
    let r := if s.seekCalled = true then s.readFile size else s.readContainer size
    (r.1, { r.2 with _position := r.2._position + r.1.length })

end SPYMStream

/-- A file of a SPYne, as it is laid out: its name, type and bytes, its checksum, the bytes of
its entry without a meaning, and what fills its last block. -/
structure SpyFile where
  name : Str
  file_type : UInt8
  content : Str
  checksum : UInt8 × UInt8
  unknown : UInt8 × UInt8
  unknown' : UInt8 × UInt8 × UInt8 × UInt8
  unknown'' : UInt8
  filler : UInt8 × UInt8
  fill : Str
  named : name.length ≤ 16 ∧ name.getLast? ≠ some 0xA0
  typed : 0x81 ≤ file_type ∧ file_type ≤ 0x83
  sized : 1 ≤ content.length ∧ content.length ≤ 65535 * SPY_BLOCK_SIZE
  filled : content.length + fill.length = (content.length + 253) / SPY_BLOCK_SIZE * SPY_BLOCK_SIZE

namespace SpyFile

def blockCount (f : SpyFile) : Nat := (f.content.length + 253) / SPY_BLOCK_SIZE

/- The index of the last used byte in a sector of 256, where data begin at 2. -/
def lsu (f : SpyFile) : Nat := f.content.length - (f.blockCount - 1) * SPY_BLOCK_SIZE + 1

/- The thirty bytes of an entry, of which one says whether there are more. -/
def fields (f : SpyFile) (more : Bool) : Str :=
  [f.file_type, f.unknown.1, f.unknown.2] ++ ((f.name ++ List.replicate (16 - f.name.length) 0xA0) ++
    [f.unknown'.1, f.unknown'.2.1, f.unknown'.2.2.1, f.unknown'.2.2.2, f.checksum.1, f.checksum.2,
      UInt8.ofNat f.lsu, if more = true then 0xFF else 0, f.unknown'', UInt8.ofNat f.blockCount,
      UInt8.ofNat (f.blockCount / 256)])

end SpyFile

/- The directory, from an entry at this place on. The eighth entry of a block has no filler. -/
def spyDirectory : Nat → List SpyFile → Str
  | _, [] => []
  | k, f :: files =>
    f.fields (!files.isEmpty) ++ ((if k % 8 = 7 then [] else [f.filler.1, f.filler.2]) ++ spyDirectory (k + 1) files)

/- The files in whole blocks, the last one without what fills its block. -/
def spyData : List SpyFile → Str
  | [] => []
  | [f] => f.content
  | f :: f' :: files => f.content ++ f.fill ++ spyData (f' :: files)

/-- A container. The directory is filled up to whole blocks. -/
structure SpyArchive where
  code : Str
  files : List SpyFile
  padding : Str
  extracts : code.length = SPY_DIR_START
  some : 1 ≤ files.length ∧ files.length ≤ SPY_MAX_ENTRIES
  padded : (spyDirectory 0 files ++ padding).length = (files.length + 7) / 8 * SPY_BLOCK_SIZE

def SpyArchive.text (a : SpyArchive) : Str := a.code ++ (spyDirectory 0 a.files ++ a.padding ++ spyData a.files)

namespace Spy

theorem gather_before {most : Nat} (some : 0 < most) {a b : Str} {fuel len : Nat} {m : Medium}
    (here : m.Before (a ++ b)) (long : a.length = len) (enough : len ≤ fuel) :
    ∃ m' : Medium, m'.bytes = m.bytes ∧ gather most fuel len m = (Option.some a, m') := by
  induction fuel generalizing a len m with
  | zero =>
    obtain rfl := List.length_eq_zero_iff.mp (long.trans (Nat.le_zero.mp enough))
    subst long
    exact ⟨m, rfl, rfl⟩
  | succ fuel ih =>
    cases len with
    | zero =>
      obtain rfl := List.length_eq_zero_iff.mp long
      exact ⟨m, rfl, rfl⟩
    | succ len =>
      -- the first read gets a piece that is not empty
      have piece : (a.take (min (len + 1) most)).length = min (len + 1) most := by
        rw [List.length_take, long]
        omega
      have parts : a ++ b = a.take (min (len + 1) most) ++ (a.drop (min (len + 1) most) ++ b) := by
        rw [← List.append_assoc, List.take_append_drop]
      rw [parts] at here
      obtain ⟨got, next, same⟩ := here.read piece
      have some_got : a.take (min (len + 1) most) ≠ [] := by
        intro none
        rw [none, List.length_nil] at piece
        omega
      have left : (a.drop (min (len + 1) most)).length = len + 1 - min (len + 1) most := by
        rw [List.length_drop, long]
      obtain ⟨m', kept, rest⟩ := ih next left (by omega)
      refine ⟨m', kept.trans same, ?_⟩
      simp only [gather, got, if_neg some_got, piece, rest, Option.map_some, List.take_append_drop]

/-- A read at an offset gets what is there, in as many reads as it takes. -/
theorem read_at_here {most : Nat} (some : 0 < most) {m : Medium} {offset len : Nat} {a b : Str}
    (here : m.bytes.drop offset = a ++ b) (long : a.length = len) :
    ∃ m' : Medium, m'.bytes = m.bytes ∧ read_at most offset len m = (Option.some a, m') :=
  gather_before (m := m.seek offset) some here long (Nat.le_refl len)

theorem lowHigh_split {n : Nat} (small : n < 65536) :
    (UInt8.ofNat n).toNat ||| (UInt8.ofNat (n / 256)).toNat <<< 8 = n := by
  have low : n % 256 < 2 ^ 8 := Nat.mod_lt n (by decide)
  have high : n / 256 % 256 = n / 256 := Nat.mod_eq_of_lt (by omega)
  rw [UInt8.toNat_ofNat', UInt8.toNat_ofNat', high, Nat.or_comm, ← Nat.shiftLeft_add_eq_or_of_lt low, Nat.shiftLeft_eq]
  exact Nat.div_add_mod' n 256

end Spy

namespace SpyFile

open Spy

/- The entry without its place in the container. -/
def entry (f : SpyFile) : SpyEntry where
  filename := f.name
  file_type := f.file_type
  checksum := f.checksum.1.toNat ||| f.checksum.2.toNat <<< 8
  lsu := f.lsu
  blocks := f.blockCount

theorem padded_length (f : SpyFile) : (f.name ++ List.replicate (16 - f.name.length) 0xA0).length = 16 := by
  have short := f.named.1
  rw [List.length_append, List.length_replicate]
  omega

theorem fields_length (f : SpyFile) (more : Bool) : (f.fields more).length = 30 := by
  rw [fields, List.length_append, List.length_append, f.padded_length]
  rfl

/- The bytes behind the name. -/
theorem fields_getD (f : SpyFile) (more : Bool) (i : Nat) : (f.fields more).getD (19 + i) 0 =
    [f.unknown'.1, f.unknown'.2.1, f.unknown'.2.2.1, f.unknown'.2.2.2, f.checksum.1, f.checksum.2,
      UInt8.ofNat f.lsu, if more = true then 0xFF else 0, f.unknown'', UInt8.ofNat f.blockCount,
      UInt8.ofNat (f.blockCount / 256)].getD i 0 := by
  rw [fields, ← List.append_assoc, List.getD_append_right]
  · rw [List.length_append, f.padded_length]
    congr 1
    simp only [List.length_cons, List.length_nil]
    omega
  · rw [List.length_append, f.padded_length]
    exact Nat.le_add_right 19 i

theorem blockCount_bounds (f : SpyFile) : 0 < f.blockCount ∧ f.blockCount < 65536 := by
  have sized := f.sized
  unfold blockCount SPY_BLOCK_SIZE at *
  omega

/- The blocks and the last one's usage give the size back. -/
theorem size_eq (f : SpyFile) : 2 ≤ f.lsu ∧ f.lsu < 256 ∧
    (f.blockCount - 1) * SPY_BLOCK_SIZE + (f.lsu - 1) = f.content.length := by
  have sized := f.sized
  unfold lsu blockCount SPY_BLOCK_SIZE at *
  omega

theorem parse_fields (f : SpyFile) (more : Bool) : parse (f.fields more) = f.entry := by
  have at_name : ((f.fields more).drop 3).take 16 = f.name ++ List.replicate (16 - f.name.length) 0xA0 := by
    rw [fields, List.drop_left' (by rfl), List.take_left' f.padded_length]
  have lsu : ((f.fields more).getD 25 0).toNat = f.lsu := by
    rw [f.fields_getD more 6]
    exact UInt8.toNat_ofNat_of_lt' f.size_eq.2.1
  have blocks : lowHigh (f.fields more) 28 = f.blockCount := by
    rw [lowHigh, f.fields_getD more 9, f.fields_getD more 10]
    exact lowHigh_split f.blockCount_bounds.2
  have checksum : lowHigh (f.fields more) 23 = f.checksum.1.toNat ||| f.checksum.2.toNat <<< 8 := by
    rw [lowHigh, f.fields_getD more 4, f.fields_getD more 5]
    rfl
  rw [parse, at_name, LNXMStream.rtrimA0_padded f.named.2, lsu, blocks, checksum]
  rfl

theorem fields_marker (f : SpyFile) (more : Bool) :
    (f.fields more).getD 0x1A 0 = if more = true then 0xFF else 0 := f.fields_getD more 7

theorem fields_type (f : SpyFile) (more : Bool) : (f.fields more).getD 0 0 = f.file_type := rfl

end SpyFile

/- Where an entry stands in the directory. -/
def spySlot (i : Nat) : Nat := i / 8 * SPY_BLOCK_SIZE + i % 8 * SPY_ENTRY_SIZE

/- The two strides. -/
theorem spySlot_succ (k : Nat) : spySlot (k + 1) = spySlot k + (30 + if k % 8 = 7 then 0 else 2) := by
  unfold spySlot SPY_BLOCK_SIZE SPY_ENTRY_SIZE
  split
  · omega
  · omega

theorem spySlot_mono {k l : Nat} (le : k ≤ l) : spySlot k ≤ spySlot l := by
  induction le with
  | refl => exact Nat.le_refl _
  | step _ ih => exact ih.trans (by rw [spySlot_succ]; exact Nat.le_add_right _ _)

/-- Every entry of the directory is in its place. -/
theorem spyDirectory_drop {files : List SpyFile} {k i : Nat} {f : SpyFile} (there : files[i]? = some f) :
    ∃ rest, (spyDirectory k files).drop (spySlot (k + i) - spySlot k) =
      f.fields (decide (i + 1 < files.length)) ++ rest := by
  induction files generalizing k i with
  | nil => cases there
  | cons g files ih =>
    cases i with
    | zero =>
      cases there
      have more : (!files.isEmpty) = decide (0 + 1 < (f :: files).length) := by cases files <;> simp
      refine ⟨(if k % 8 = 7 then [] else [f.filler.1, f.filler.2]) ++ spyDirectory (k + 1) files, ?_⟩
      rw [Nat.add_zero, Nat.sub_self, List.drop_zero, spyDirectory, more]
    | succ i =>
      obtain ⟨rest, here⟩ := ih (k := k + 1) there
      refine ⟨rest, ?_⟩
      have stride : (g.fields (!files.isEmpty) ++ if k % 8 = 7 then [] else [g.filler.1, g.filler.2]).length =
          spySlot (k + 1) - spySlot k := by
        rw [List.length_append, g.fields_length, spySlot_succ, Nat.add_sub_cancel_left]
        split <;> rfl
      have first : spySlot k ≤ spySlot (k + 1) := spySlot_mono (Nat.le_succ k)
      have second : spySlot (k + 1) ≤ spySlot (k + 1 + i) := spySlot_mono (Nat.le_add_right _ i)
      have way : spySlot (k + (i + 1)) - spySlot k = spySlot (k + 1) - spySlot k + (spySlot (k + 1 + i) - spySlot (k + 1)) := by
        rw [show k + (i + 1) = k + 1 + i by omega]
        omega
      rw [spyDirectory, ← List.append_assoc, way, ← List.drop_drop, List.drop_left' stride, here]
      simp

namespace SPYMStream

open Spy

/- Every file is where its entry says. -/
theorem assignOffsets_files (text : Str) (files : List SpyFile) {offset : Nat}
    (here : text.drop offset = spyData files) (small : offset + (spyData files).length < 2 ^ 32) :
    ∀ (i : Nat) (f : SpyFile), files[i]? = some f → ∃ start, (assignOffsets offset (files.map SpyFile.entry))[i]? =
      some { f.entry with offset := start, size := f.content.length } ∧ ∃ rest, text.drop start = f.content ++ rest := by
  have sized (f : SpyFile) : (if f.entry.blocks ≠ 0 ∧ f.entry.lsu ≠ 0 then
      ((f.entry.blocks - 1) * SPY_BLOCK_SIZE + (f.entry.lsu - 1)) % 2 ^ 32 else 0) = f.content.length := by
    have some := f.blockCount_bounds.1
    have size := f.size_eq
    have most := f.sized.2
    have used : f.entry.blocks ≠ 0 ∧ f.entry.lsu ≠ 0 := show f.blockCount ≠ 0 ∧ f.lsu ≠ 0 by omega
    rw [if_pos used, show (f.entry.blocks - 1) * SPY_BLOCK_SIZE + (f.entry.lsu - 1) = f.content.length from size.2.2]
    exact Nat.mod_eq_of_lt (Nat.lt_of_le_of_lt most (by decide))
  induction files generalizing offset with
  | nil => exact fun i f no => nomatch no
  | cons f files ih =>
    intro i g there
    rw [List.map_cons, assignOffsets, sized f]
    cases i with
    | zero =>
      cases there
      refine ⟨offset, rfl, ?_⟩
      cases files with
      | nil => exact ⟨[], by rw [here, spyData, List.append_nil]⟩
      | cons f' files => exact ⟨_, by rw [here, spyData, List.append_assoc]⟩
    | succ i =>
      cases files with
      | nil => cases there
      | cons f' files =>
        rw [spyData] at here small
        have size : (f.content ++ f.fill).length = f.blockCount * SPY_BLOCK_SIZE := by
          rw [List.length_append]
          exact f.filled
        rw [List.length_append, size] at small
        have next : (offset + f.entry.blocks * SPY_BLOCK_SIZE) % 2 ^ 32 = offset + f.blockCount * SPY_BLOCK_SIZE :=
          Nat.mod_eq_of_lt (by show offset + f.blockCount * SPY_BLOCK_SIZE < 2 ^ 32; omega)
        have behind : text.drop (offset + f.blockCount * SPY_BLOCK_SIZE) = spyData (f' :: files) := by
          rw [← List.drop_drop, here, List.drop_left' size]
        rw [next, List.getElem?_cons_succ]
        exact ih behind (by omega) i g there

end SPYMStream

namespace SpyArchive

open Spy

/- The data begin behind the blocks of the directory. -/
def dataStart (a : SpyArchive) : Nat :=
  (SPY_CODE_BLOCKS + (a.files.length + SPY_ENTRIES_PER_BLOCK - 1) / SPY_ENTRIES_PER_BLOCK) * SPY_BLOCK_SIZE

theorem front_length (a : SpyArchive) : (a.code ++ (spyDirectory 0 a.files ++ a.padding)).length = a.dataStart := by
  rw [List.length_append, a.extracts, a.padded, dataStart, Nat.add_mul]
  rfl

theorem text_eq (a : SpyArchive) : a.text = (a.code ++ (spyDirectory 0 a.files ++ a.padding)) ++ spyData a.files := by
  rw [text, List.append_assoc a.code]

theorem drop_data (a : SpyArchive) : a.text.drop a.dataStart = spyData a.files := by
  rw [text_eq, List.drop_left' a.front_length]

theorem spyData_length (files : List SpyFile) : (spyData files).length ≤ files.length * (65535 * SPY_BLOCK_SIZE) := by
  induction files with
  | nil => exact Nat.le_refl _
  | cons f files ih =>
    rw [List.length_cons, Nat.succ_mul]
    cases files with
    | nil => simpa [spyData] using f.sized.2
    | cons f' files =>
      have size : (f.content ++ f.fill).length = f.blockCount * SPY_BLOCK_SIZE := by
        rw [List.length_append]
        exact f.filled
      have most : f.blockCount * SPY_BLOCK_SIZE ≤ 65535 * SPY_BLOCK_SIZE :=
        Nat.mul_le_mul_right _ (Nat.le_of_lt_succ f.blockCount_bounds.2)
      rw [spyData, List.length_append, size]
      omega

/- All offsets have thirty-two bits. -/
theorem text_small (a : SpyArchive) : a.dataStart + (spyData a.files).length < 2 ^ 32 := by
  have data := spyData_length a.files
  have few := a.some.2
  have most := Nat.mul_le_mul_right (65535 * SPY_BLOCK_SIZE) few
  unfold dataStart
  unfold SPY_MAX_ENTRIES SPY_BLOCK_SIZE SPY_CODE_BLOCKS SPY_ENTRIES_PER_BLOCK at *
  omega

theorem text_length (a : SpyArchive) : a.text.length = a.dataStart + (spyData a.files).length := by
  rw [text_eq, List.length_append, front_length]

theorem drop_entry (a : SpyArchive) {i : Nat} {f : SpyFile} (there : a.files[i]? = Option.some f) :
    ∃ rest, a.text.drop (entryOffset i) = f.fields (decide (i + 1 < a.files.length)) ++ rest := by
  obtain ⟨rest, here⟩ := spyDirectory_drop (k := 0) there
  rw [Nat.zero_add, show spySlot 0 = 0 from rfl, Nat.sub_zero] at here
  have slot : entryOffset i = SPY_DIR_START + spySlot i := Nat.add_assoc _ _ _
  have inside : spySlot i ≤ (spyDirectory 0 a.files).length := by
    by_contra beyond
    rw [List.drop_eq_nil_of_le (Nat.le_of_not_le beyond)] at here
    have length := congrArg List.length here
    rw [List.length_append, f.fields_length] at length
    simp only [List.length_nil] at length
    omega
  refine ⟨rest ++ (a.padding ++ spyData a.files), ?_⟩
  rw [slot, ← List.drop_drop, text, List.drop_left' a.extracts, List.append_assoc, List.drop_append_of_le_length inside,
    here, List.append_assoc]

theorem entry_inside (a : SpyArchive) {i : Nat} {f : SpyFile} (there : a.files[i]? = Option.some f) :
    entryOffset i + SPY_ENTRY_FIELDS ≤ a.text.length % 2 ^ 32 := by
  obtain ⟨rest, here⟩ := a.drop_entry there
  have length := congrArg List.length here
  rw [List.length_drop, List.length_append, f.fields_length] at length
  rw [Nat.mod_eq_of_lt (a.text_length ▸ a.text_small)]
  unfold SPY_ENTRY_FIELDS
  omega

/-- The walk over the directory stops at its last entry. -/
theorem walk_files (a : SpyArchive) {most : Nat} (some : 0 < most) {fuel i : Nat} {m : Medium} (bytes : m.bytes = a.text)
    (inside : i < a.files.length) (enough : a.files.length ≤ fuel + i) :
    ∃ m' : Medium, m'.bytes = a.text ∧ walk most fuel i m = ((a.files.drop i).map SpyFile.entry, m') := by
  induction fuel generalizing i m with
  | zero => omega
  | succ fuel ih =>
    obtain ⟨rest, here⟩ := a.drop_entry (List.getElem?_eq_getElem inside)
    have fits := a.entry_inside (List.getElem?_eq_getElem inside)
    obtain ⟨m1, kept, got⟩ := read_at_here some (bytes ▸ here) (SpyFile.fields_length _ _)
    rw [walk, if_neg (by rw [bytes]; omega)]
    rw [show SPY_ENTRY_FIELDS = 30 from rfl, got]
    dsimp only
    rw [SpyFile.fields_marker, SpyFile.parse_fields, List.drop_eq_getElem_cons inside, List.map_cons]
    by_cases more : i + 1 < a.files.length
    · rw [decide_eq_true more, if_pos rfl, if_neg (by decide)]
      obtain ⟨m2, kept', walked⟩ := ih (kept.trans bytes) more (by omega)
      exact ⟨m2, kept', by rw [walked]⟩
    · rw [decide_eq_false more, if_neg Bool.false_ne_true, if_pos rfl, List.drop_eq_nil_of_le (Nat.le_of_not_lt more)]
      exact ⟨m1, kept.trans bytes, rfl⟩

/-- The directory once it has been read. -/
def entries (a : SpyArchive) : List SpyEntry := assignOffsets a.dataStart (a.files.map SpyFile.entry)

theorem entries_get (a : SpyArchive) {i : Nat} {f : SpyFile} (there : a.files[i]? = Option.some f) :
    ∃ start, a.entries[i]? = Option.some { f.entry with offset := start, size := f.content.length } ∧
      ∃ rest, a.text.drop start = f.content ++ rest :=
  SPYMStream.assignOffsets_files a.text a.files a.drop_data a.text_small i f there

theorem entries_length (a : SpyArchive) : a.entries.length = a.files.length := by
  have kept : ∀ offset es, (assignOffsets offset es).length = es.length := by
    intro offset es
    induction es generalizing offset with
    | nil => rfl
    | cons e es ih => rw [assignOffsets, List.length_cons, ih, List.length_cons]
  rw [entries, kept, List.length_map]

/-- The stream has read the directory. -/
structure Ready (a : SpyArchive) (s : SPYMStream) : Prop where
  parsed : s.header_parsed = true ∧ s.header_ok = true
  entries : s.entries = a.entries
  bytes : s.containerStream.bytes = a.text
  most : 0 < s.most

/-- The stream has read the directory or will. -/
structure Stands (a : SpyArchive) (s : SPYMStream) : Prop where
  bytes : s.containerStream.bytes = a.text
  most : 0 < s.most
  header : s.header_parsed = false ∨ a.Ready s

theorem Ready.stands {a : SpyArchive} {s : SPYMStream} (ready : a.Ready s) : a.Stands s :=
  ⟨ready.bytes, ready.most, .inr ready⟩

/- The header of a container is read once, and is one. -/
theorem Stands.readHeader {a : SpyArchive} {s : SPYMStream} (stands : a.Stands s) :
    ∃ s', a.Ready s' ∧ s'.seekCalled = s.seekCalled ∧ s.readHeader = (true, s') := by
  rcases stands.header with fresh | ready
  · obtain ⟨f, first⟩ : ∃ f, a.files[0]? = Option.some f := ⟨_, List.getElem?_eq_getElem a.some.1⟩
    obtain ⟨rest, here⟩ := a.drop_entry first
    obtain ⟨m1, kept1, probe⟩ := read_at_here stands.most (stands.bytes ▸ here) (SpyFile.fields_length _ _)
    have at_load : (read_at s.most 0 2 m1).2.bytes = a.text := by
      have long : (a.text.take 2).length = 2 := by
        have inside := a.entry_inside first
        have mod := Nat.mod_le a.text.length (2 ^ 32)
        rw [List.length_take]
        unfold SPY_ENTRY_FIELDS at inside
        omega
      have front : m1.bytes.drop 0 = a.text.take 2 ++ a.text.drop 2 := by
        rw [kept1, stands.bytes, List.take_append_drop]
        rfl
      obtain ⟨m2, kept2, load⟩ := read_at_here stands.most front long
      rw [load, kept2, kept1, stands.bytes]
    obtain ⟨m3, kept3, walked⟩ := a.walk_files stands.most at_load a.some.1
      (show a.files.length ≤ SPY_MAX_ENTRIES + 0 from a.some.2)
    rw [List.drop_zero] at walked
    have nonempty : a.files.map SpyFile.entry ≠ [] := fun none =>
      absurd (List.map_eq_nil_iff.mp none ▸ a.some.1) (by decide)
    have marker : (f.fields (decide (0 + 1 < a.files.length))).getD 0x1A 0 = 0 ∨
        (f.fields (decide (0 + 1 < a.files.length))).getD 0x1A 0 = 0xFF := by
      rw [f.fields_marker]
      split
      · exact .inr rfl
      · exact .inl rfl
    refine ⟨{ s with
      containerStream := m3
      entries := a.entries
      entry_count := Option.some a.entries.length
      header_parsed := true
      header_ok := true }, ⟨⟨rfl, rfl⟩, rfl, kept3, stands.most⟩, rfl, ?_⟩
    unfold SPYMStream.readHeader
    rw [fresh, if_neg Bool.false_ne_true]
    dsimp only
    rw [show SPY_DIR_START = entryOffset 0 from rfl, show SPY_ENTRY_FIELDS = 30 from rfl, probe]
    dsimp only
    rw [f.fields_type, if_neg (by
      rintro (low | high | other)
      · exact absurd f.typed.1 (UInt8.not_le.mpr low)
      · exact absurd f.typed.2 (UInt8.not_le.mpr high)
      · exact marker.elim other.1 other.2)]
    unfold SPYMStream.loadEntries
    dsimp only
    rw [walked, if_neg nonempty, List.length_map]
    rfl
  · refine ⟨s, ready, rfl, ?_⟩
    unfold SPYMStream.readHeader
    rw [if_pos ready.parsed.1, ready.parsed.2]

/- A lookup reads the header first, and then knows the directory. -/
theorem Stands.seekEntry {a : SpyArchive} {s : SPYMStream} (stands : a.Stands s) {i : Nat} {f : SpyFile}
    (there : a.files[i]? = Option.some f) :
    ∃ s' start, a.Ready s' ∧ s.seekEntry (i + 1) =
      (true, { s' with entry := { f.entry with offset := start, size := f.content.length }, entry_index := i + 1 }) ∧
      ∃ rest, a.text.drop start = f.content ++ rest := by
  obtain ⟨s', ready, -, header⟩ := stands.readHeader
  obtain ⟨start, entry, here⟩ := a.entries_get there
  refine ⟨s', start, ready, ?_, here⟩
  have inside := (List.getElem?_eq_some_iff.mp there).1
  have few := a.some.2
  have index : (i + 1) % 2 ^ 16 = i + 1 := Nat.mod_eq_of_lt (by unfold SPY_MAX_ENTRIES at few; omega)
  unfold SPYMStream.seekEntry
  dsimp only
  rw [header, index, if_neg (by simp), ready.entries, a.entries_length, if_pos ⟨Nat.succ_pos i, inside⟩,
    Nat.add_sub_cancel, List.getD_eq_getElem?_getD, entry]
  rfl

/- The first file that a path finds. -/
structure Finds (a : SpyArchive) (path : Str) (i : Nat) (f : SpyFile) : Prop where
  some : path ≠ []
  there : a.files[i]? = Option.some f
  named : compareFilename (toUTF8 f.name) (slashed path) (isWildcard (slashed path)) = true
  before : ∀ j g, j < i → a.files[j]? = Option.some g →
    compareFilename (toUTF8 g.name) (slashed path) (isWildcard (slashed path)) = false

theorem Finds.index {a : SpyArchive} {path : Str} {i : Nat} {f : SpyFile} (finds : a.Finds path i f) :
    (a.entries.findIdx? fun n => compareFilename (toUTF8 n.filename) (slashed path) (isWildcard (slashed path))) =
      Option.some i := by
  have inside := (List.getElem?_eq_some_iff.mp finds.there).1
  rw [List.findIdx?_eq_some_iff_getElem]
  refine ⟨a.entries_length ▸ inside, ?_, fun j before => ?_⟩
  · obtain ⟨start, entry, -⟩ := a.entries_get finds.there
    rw [(List.getElem?_eq_some_iff.mp entry).2]
    exact finds.named
  · have earlier : a.files[j]? = Option.some a.files[j] := List.getElem?_eq_getElem (before.trans inside)
    obtain ⟨start, entry, -⟩ := a.entries_get earlier
    rw [(List.getElem?_eq_some_iff.mp entry).2]
    exact Bool.eq_false_iff.mp (finds.before j _ before earlier)

/- A selected file is read in pieces up to its end. -/
theorem select_delivers {s : SPYMStream} (most : 0 < s.most) {content rest : Str} (size : s.entry.size = content.length)
    (some : 1 ≤ content.length) (here : s.containerStream.bytes.drop s.entry.offset = content ++ rest) :
    Delivers SPYMStream.read (0 < ·) s.select content := by
  refine Delivers.of_invariant (fun s left => 0 < s.most ∧ s._size = s._position + left.length ∧ 0 < s._size ∧
    s.containerStream.Before (left ++ rest)) ?_ ⟨most, ?_, ?_, here⟩
  · rintro s left n ⟨most, size, some, here⟩ positive
    cases more : left with
    | nil =>
      rw [more, List.length_nil] at size
      have ended : s.read n = ([], s) := if_pos ⟨some, by omega⟩
      rw [ended]
      exact ⟨[], ⟨rfl, Nat.zero_le n, fun no => absurd rfl no⟩, most, size, some, more ▸ here⟩
    | cons c tail =>
      have left_some : 0 < left.length := by
        rw [more]
        exact Nat.succ_pos _
      -- one piece of the container, cut at the end of the file
      have cap : s._size - s._position = left.length := by omega
      have capped : min (min n left.length) left.length = min n left.length := by omega
      have long : (left.take (min n s.most)).length = min (min n left.length) s.most := by
        rw [List.length_take]
        omega
      have parts : left ++ rest = left.take (min n s.most) ++ (left.drop (min n s.most) ++ rest) := by
        rw [← List.append_assoc, List.take_append_drop]
      rw [parts] at here
      obtain ⟨piece, next, -⟩ := here.read long
      have read : s.read n = (left.take (min n s.most), { s with
          containerStream := (s.containerStream.readContainer (min (min n left.length) s.most)).2
          _position := s._position + (left.take (min n s.most)).length }) := by
        unfold SPYMStream.read SPYMStream.readFile SPYMStream.readContainer
        rw [if_neg (by omega), if_pos some]
        dsimp only
        rw [if_neg (show ¬ s._size ≤ s._position by omega), cap, capped, piece]
        split <;> rfl
      rw [read, ← more]
      refine ⟨left.drop (min n s.most), ⟨(List.take_append_drop _ _).symm, ?_, fun _ => ?_⟩, most, ?_, some, next⟩
      · rw [long]
        omega
      · rw [← List.length_pos_iff, long]
        omega
      · dsimp only
        rw [long, List.length_drop]
        omega
  · show s.entry.size = 0 + content.length
    rw [size, Nat.zero_add]
  · show 0 < s.entry.size
    rw [size]
    exact some

/-- A path opens the first file it finds. -/
theorem Stands.seekPath {a : SpyArchive} {s : SPYMStream} (stands : a.Stands s) {path : Str} {i : Nat} {f : SpyFile}
    (finds : a.Finds path i f) :
    (s.seekPath path).1 = true ∧ Delivers SPYMStream.read (0 < ·) (s.seekPath path).2 f.content := by
  have called : a.Stands { s with seekCalled := true, entry_index := 0 } :=
    ⟨stands.bytes, stands.most, stands.header.imp_right fun ready =>
      ⟨ready.parsed, ready.entries, ready.bytes, ready.most⟩⟩
  obtain ⟨s', ready, -, header⟩ := called.readHeader
  obtain ⟨start, entry, rest, here⟩ := a.entries_get finds.there
  have name : SPYMStream.seekName path { s with seekCalled := true, entry_index := 0 } =
      (true, { s' with entry := { f.entry with offset := start, size := f.content.length }, entry_index := i + 1 }) := by
    unfold SPYMStream.seekName
    rw [if_neg finds.some]
    dsimp only
    rw [header, if_neg (by simp), ready.entries, finds.index]
    dsimp only
    rw [List.getD_eq_getElem?_getD, entry]
    rfl
  unfold SPYMStream.seekPath
  dsimp only
  rw [name, if_pos rfl]
  let opened : SPYMStream :=
    { s' with entry := { f.entry with offset := start, size := f.content.length }, entry_index := i + 1 }
  exact ⟨rfl, select_delivers (s := opened) ready.most rfl f.sized.1 (ready.bytes ▸ here)⟩

/- What can be done with a stream. -/
inductive Call where
  | readHeader
  | seekEntry (index : Nat)
  | seekPath (path : Str)
  | read (size : Nat)

def call (s : SPYMStream) : Call → SPYMStream
  | .readHeader => s.readHeader.2
  | .seekEntry index => (s.seekEntry index).2
  | .seekPath path => (s.seekPath path).2
  | .read size => (s.read size).2

/- What does not touch the directory. -/
theorem Ready.same {a : SpyArchive} {s s' : SPYMStream} (ready : a.Ready s) (parsed : s'.header_parsed = s.header_parsed)
    (ok : s'.header_ok = s.header_ok) (entries : s'.entries = s.entries)
    (bytes : s'.containerStream.bytes = s.containerStream.bytes) (most : s'.most = s.most) : a.Ready s' :=
  ⟨⟨parsed.trans ready.parsed.1, ok.trans ready.parsed.2⟩, entries.trans ready.entries, bytes.trans ready.bytes,
    most ▸ ready.most⟩

theorem Stands.same {a : SpyArchive} {s s' : SPYMStream} (stands : a.Stands s) (parsed : s'.header_parsed = s.header_parsed)
    (ok : s'.header_ok = s.header_ok) (entries : s'.entries = s.entries)
    (bytes : s'.containerStream.bytes = s.containerStream.bytes) (most : s'.most = s.most) : a.Stands s' :=
  ⟨bytes.trans stands.bytes, most ▸ stands.most, stands.header.imp (fun fresh => parsed.trans fresh) fun ready =>
    ready.same parsed ok entries bytes most⟩

theorem Stands.call {a : SpyArchive} {s : SPYMStream} (c : Call) (stands : a.Stands s) : a.Stands (call s c) := by
  cases c with
  | readHeader =>
    obtain ⟨s', ready, -, header⟩ := stands.readHeader
    rw [SpyArchive.call, header]
    exact ready.stands
  | seekEntry index =>
    obtain ⟨s', ready, -, header⟩ := stands.readHeader
    rw [SpyArchive.call, SPYMStream.seekEntry, header]
    dsimp only
    rw [if_neg (by simp)]
    split
    · exact ready.stands.same rfl rfl rfl rfl rfl
    · exact ready.stands
  | seekPath path =>
    have called : a.Stands { s with seekCalled := true, entry_index := 0 } := stands.same rfl rfl rfl rfl rfl
    obtain ⟨s', ready, -, header⟩ := called.readHeader
    have name : a.Stands (SPYMStream.seekName path { s with seekCalled := true, entry_index := 0 }).2 := by
      unfold SPYMStream.seekName
      split
      · exact called
      · dsimp only
        rw [header, if_neg (by simp)]
        split
        · exact ready.stands.same rfl rfl rfl rfl rfl
        · exact ready.stands.same rfl rfl rfl rfl rfl
    rw [SpyArchive.call, SPYMStream.seekPath]
    split
    · exact name.same rfl rfl rfl rfl rfl
    · exact name
  | read size =>
    rw [SpyArchive.call]
    unfold SPYMStream.read SPYMStream.readFile SPYMStream.readContainer
    split
    · exact stands
    · dsimp only
      split
      · split
        · exact stands.same rfl rfl rfl rfl rfl
        · exact stands.same rfl rfl rfl rfl rfl
      · exact stands.same rfl rfl rfl rfl rfl

/-- A stream that has just been opened on the container, whose reads give this much at most. -/
def stream (a : SpyArchive) (most : Nat) : SPYMStream where
  containerStream := { bytes := a.text }
  most := most

/-- A container comes back whole, at any time of the stream: its header is one, every entry has
the name and the type of its file, and reads get the bytes of the file, once its entry or the
first entry that a path finds is selected. -/
theorem container_round_trip (a : SpyArchive) {most : Nat} (some : 0 < most) (calls : List Call) :
    let s := calls.foldl call (a.stream most)
    s.readHeader.1 = true ∧
    (∀ i f, a.files[i]? = Option.some f → let r := s.readHeader.2.seekEntry (i + 1)
      r.1 = true ∧ r.2.entry.filename = f.name ∧ r.2.entry.file_type = f.file_type ∧
        r.2.entry.size = f.content.length ∧ Delivers SPYMStream.read (0 < ·) r.2.select f.content) ∧
    (∀ path i f, a.Finds path i f → let r := s.readHeader.2.seekPath path
      r.1 = true ∧ Delivers SPYMStream.read (0 < ·) r.2 f.content) := by
  intro s
  have start : a.Stands (a.stream most) := ⟨rfl, some, .inl rfl⟩
  have stands : a.Stands s := List.foldlRecOn calls call start fun _ kept c _ => kept.call c
  obtain ⟨s', ready, -, header⟩ := stands.readHeader
  rw [header]
  refine ⟨rfl, fun i f there => ?_, fun path i f finds => ready.stands.seekPath finds⟩
  obtain ⟨s'', start, ready', found, rest, here⟩ := ready.stands.seekEntry there
  dsimp only
  rw [found]
  let opened : SPYMStream :=
    { s'' with entry := { f.entry with offset := start, size := f.content.length }, entry_index := i + 1 }
  exact ⟨rfl, rfl, rfl, rfl, select_delivers (s := opened) ready'.most rfl f.sized.1 (ready'.bytes ▸ here)⟩

/- A program of one byte. -/
def sole : SpyFile where
  name := [0x41]
  file_type := 0x82
  content := [0x2a]
  checksum := (0x2a, 0)
  unknown := (0, 0)
  unknown' := (0, 0, 0, 0)
  unknown'' := 0
  filler := (0, 0)
  fill := List.replicate 253 0
  named := by decide
  typed := by decide
  sized := by decide
  filled := by decide +kernel

/- It nine times: the ninth entry stands in a second block. -/
def nine : SpyArchive where
  code := List.replicate SPY_DIR_START 0
  files := List.replicate 9 sole
  padding := List.replicate 222 0
  extracts := List.length_replicate
  some := by decide
  padded := by decide +kernel

theorem container_round_trip_ninth :
    (([Call.seekEntry 1, Call.read 3].foldl call (nine.stream 1)).readHeader.2.seekEntry (8 + 1)).2.entry.filename =
      sole.name ∧
    Delivers SPYMStream.read (0 < ·)
      (([Call.seekEntry 1, Call.read 3].foldl call (nine.stream 1)).readHeader.2.seekEntry (8 + 1)).2.select sole.content :=
  have whole := (container_round_trip nine Nat.one_pos [Call.seekEntry 1, Call.read 3]).2.1 8 sole rfl
  ⟨whole.2.1, whole.2.2.2.2⟩

end SpyArchive

end Meatloaf.Archive
