import Mathlib.Data.List.TakeWhile
import Mathlib.Data.Nat.Find
import Mathlib.Data.List.Infix
import Meatloaf.Archive.Medium
import Meatloaf.Text.Numbers

/-! `LNXMStream`: a Lynx archive, with its directory in lines of text behind a BASIC loader and
the files in whole blocks behind the directory. -/
namespace Meatloaf.Archive

open Lib

def LNX_BLOCK_SIZE : Nat := 254
def cr : UInt8 := 0x0d
def lynx : Str := [0x4c, 0x59, 0x4e, 0x58]

/-- `MMediaStream::decodeType` of a letter. -/
def decodeType (file_type : Str) : Str :=
  if file_type = [0x50] then [0x20, 0x50, 0x52, 0x47]
  else if file_type = [0x53] then [0x20, 0x53, 0x45, 0x51]
  else if file_type = [0x55] then [0x20, 0x55, 0x53, 0x52]
  else if file_type = [0x52] then [0x20, 0x52, 0x45, 0x4c]
  else [0x20, 0x50, 0x52, 0x47]

/-- `mstr::rtrimA0`. -/
def rtrimA0 (s : Str) : Str := (s.reverse.dropWhile (· == 0xA0)).reverse

structure LynxEntry where
  filename : Str := []
  block_count : Nat := 0
  type : Str := []
  lsu : Nat := 0
  rel_record_size : Nat := 0
  offset : Nat := 0
  size : Nat := 0
  deriving DecidableEq

/- `entry_count` is `none` where it is -1: the directory has not been read yet. -/
structure LNXMStream where
  containerStream : Medium
  position : Nat := 0
  size : Nat := 0
  seekCalled : Bool := false
  entry_count : Option Nat := none
  directory_blocks : Nat := 0
  entries : List LynxEntry := []
  entry : LynxEntry := {}
  entry_index : Nat := 0

namespace LNXMStream

/- A number that is assigned to an unsigned field of so many bits. -/
def narrow (bits : Nat) (value : Int) : Nat := (value % 2 ^ bits).toNat

def readLine (s : LNXMStream) : Str × LNXMStream :=
  let r := s.containerStream.readUntil cr
  (r.1, { s with containerStream := r.2 })

def readBytes (n : Nat) (s : LNXMStream) : Str × LNXMStream :=
  let r := s.containerStream.readContainer n
  (r.1, { s with containerStream := r.2 })

/-- `skipBasicLoader`. The archive has four bytes at least; else the search would leave the
buffer. -/
def skipBasicLoader (s : LNXMStream) : LNXMStream :=
  let buffer := (s.containerStream.seek 0).readContainer 254
  match (List.range (buffer.1.length - 4)).find? fun i => (buffer.1.drop i).take 4 == lynx with
  | some i => { s with containerStream := buffer.2.seek i }
  | none => { s with containerStream := buffer.2.seek 0x5E }

def readHeader (s : LNXMStream) : Bool × LNXMStream :=
  let signature := s.skipBasicLoader.readLine
  if ¬ lynx <:+: signature.1 then (false, signature.2)
  else
    let dir_blocks := signature.2.readLine
    let count := dir_blocks.2.readLine
    (true, { count.2 with
      directory_blocks := narrow 16 (atoi dir_blocks.1)
      entry_count := some (narrow 16 (atoi count.1)) })

/- One entry of the directory, without its offset. -/
def loadEntry (s : LNXMStream) : LynxEntry × LNXMStream :=
  let name := s.readBytes 16
  let skipped := name.2.readBytes 1
  let block_count := skipped.2.readLine
  let type := block_count.2.readLine
  let lsu := type.2.readLine
  let rel := if type.1 = [0x52] then lsu.2.readLine else ([], lsu.2)
  let blocks := narrow 16 (atoi block_count.1)
  let used := narrow 8 (atoi lsu.1)
  ({ filename := rtrimA0 name.1
     block_count := blocks
     type := decodeType type.1
     lsu := used
     rel_record_size := if type.1 = [0x52] then narrow 16 (atoi rel.1) else 0
     size := if 0 < blocks ∧ 0 < used then ((blocks - 1) * LNX_BLOCK_SIZE + (used - 1)) % 2 ^ 32 else 0 }, rel.2)

def loadLoop : Nat → LNXMStream → LNXMStream
  | 0, s => s
  | count + 1, s =>
    let e := s.loadEntry
    loadLoop count { e.2 with entries := e.2.entries ++ [e.1] }

/- The offsets, one behind the other. -/
def assignOffsets : Nat → List LynxEntry → List LynxEntry
  | _, [] => []
  | offset, e :: es =>
    { e with offset := offset } :: assignOffsets ((offset + e.block_count * LNX_BLOCK_SIZE) % 2 ^ 32) es

/-- `loadEntries` for a count, which it returns as an `int8_t`: whether that is not negative. -/
def loadEntries (count : Nat) (s : LNXMStream) : Bool × LNXMStream :=
  let s := loadLoop count s
  (count % 256 < 128, { s with
    entries := assignOffsets (s.directory_blocks * LNX_BLOCK_SIZE % 2 ^ 32) s.entries })

def ensureEntries (s : LNXMStream) : Bool × LNXMStream :=
  match s.entry_count with
  | some _ => (true, s)
  | none =>
    let header := s.readHeader
    if header.1 = true then header.2.loadEntries (header.2.entry_count.getD 0) else (false, header.2)

/-- `seekEntry(uint16_t index)`. -/
def seekEntry (index : Nat) (s : LNXMStream) : Bool × LNXMStream :=
  let index := index % 2 ^ 16
  let ensured := s.ensureEntries
  if ensured.1 = false then (false, ensured.2)
  else if 0 < index ∧ index ≤ ensured.2.entries.length then
    (true, { ensured.2 with entry := ensured.2.entries.getD (index - 1) {}, entry_index := index })
  else (false, ensured.2)

/- The name an entry is looked up by. -/
def LynxEntry.lookup (e : LynxEntry) : Str := toUTF8 ((e.filename.takeWhile (· ≠ 0xA0)).take 16)

/- The loop of `seekEntry(filename)`: from the 65536th index on there is no entry. -/
def searchEntries (filename : Str) : Nat → Nat → LNXMStream → Bool × LNXMStream
  | 0, _, s => (false, s)
  | fuel + 1, index, s =>
    let found := s.seekEntry index
    if found.1 = false then found
    else if compareFilename (LynxEntry.lookup found.2.entry) filename (isWildcard filename) = true then found
    else searchEntries filename fuel (index + 1) found.2

def seekName (filename : Str) (s : LNXMStream) : Bool × LNXMStream :=
  let r := if filename = [] then (false, s) else searchEntries (slashed filename) (2 ^ 16) 1 s
  if r.1 = true then r
  else (false, { r.2 with entry := { r.2.entry with filename := r.2.entry.filename.set 0 0 } })

def seekPath (path : Str) (s : LNXMStream) : Bool × LNXMStream :=
  let r := seekName path { s with seekCalled := true, entry_index := 0 }
  if r.1 = true then
    (true, { r.2 with
      size := r.2.entry.size
      position := 0
      containerStream := r.2.containerStream.seek r.2.entry.offset })
  else r

/-- `MMediaStream::read`, with `readFile` for a selected file. -/
def read (count : Nat) (s : LNXMStream) : Str × LNXMStream :=
  if 0 < s.size ∧ s.size ≤ s.position then ([], s)
  else
    let count := if 0 < s.size ∧ s.size - s.position < count then s.size - s.position else count
    let count := if s.seekCalled = true ∧ s.size < (s.position + count) % 2 ^ 32 then
      (s.size + 2 ^ 32 - s.position) % 2 ^ 32 else count
    let r := s.readBytes count
    (r.1, { r.2 with position := s.position + r.1.length })

end LNXMStream

/-- A file of an archive, as it is laid out: its name, the letter of its type, its bytes, the
numerals of its entry, and what fills its last block. -/
structure LynxFile where
  name : Str
  letter : UInt8
  content : Str
  blocksText : Str
  lsuText : Str
  fill : Str
  named : 1 ≤ name.length ∧ name.length ≤ 16 ∧ name.getLast? ≠ some 0xA0
  typed : letter = 0x50 ∨ letter = 0x53 ∨ letter = 0x55
  sized : 1 ≤ content.length ∧ content.length ≤ 65535 * LNX_BLOCK_SIZE
  blocks : Numeral ((content.length + 253) / LNX_BLOCK_SIZE) blocksText
  lsu : Numeral (content.length - ((content.length + 253) / LNX_BLOCK_SIZE - 1) * LNX_BLOCK_SIZE + 1) lsuText
  filled : content.length + fill.length = (content.length + 253) / LNX_BLOCK_SIZE * LNX_BLOCK_SIZE

namespace LynxFile

def blockCount (f : LynxFile) : Nat := (f.content.length + 253) / LNX_BLOCK_SIZE

/- The entry without its offset. -/
def entry (f : LynxFile) : LynxEntry where
  filename := f.name
  block_count := f.blockCount
  type := decodeType [f.letter]
  lsu := f.content.length - (f.blockCount - 1) * LNX_BLOCK_SIZE + 1
  size := f.content.length

def text (f : LynxFile) : Str :=
  (f.name ++ List.replicate (16 - f.name.length) 0xA0) ++ ([cr] ++ (f.blocksText ++ cr ::
    ([f.letter] ++ cr :: (f.lsuText ++ [cr]))))

end LynxFile

/- The files in whole blocks, the last one without what fills its block. -/
def lynxData : List LynxFile → Str
  | [] => []
  | [f] => f.content
  | f :: f' :: files => f.content ++ f.fill ++ lynxData (f' :: files)

/-- An archive as the parser reads it. -/
structure LynxArchive where
  loader : Str
  signature : Str
  blocksText : Str
  countText : Str
  padding : Str
  directory_blocks : Nat
  files : List LynxFile
  unsigned : ¬ lynx <:+: loader
  line : cr ∉ signature
  inside : loader.length + lynx.length + signature.length + 1 ≤ 254
  blocks : Numeral directory_blocks blocksText
  count : Numeral files.length countText
  few : directory_blocks ≤ 65535
  some : 1 ≤ files.length ∧ files.length ≤ 65535
  padded : (loader ++ (lynx ++ signature ++ cr :: (blocksText ++ cr :: (countText ++ cr ::
    (files.flatMap LynxFile.text ++ padding))))).length = directory_blocks * LNX_BLOCK_SIZE
  whole : directory_blocks * LNX_BLOCK_SIZE + (lynxData files).length < 2 ^ 32

namespace LynxArchive

def text (a : LynxArchive) : Str :=
  a.loader ++ (lynx ++ a.signature ++ cr :: (a.blocksText ++ cr :: (a.countText ++ cr ::
    (a.files.flatMap LynxFile.text ++ (a.padding ++ lynxData a.files)))))

/-- A stream that has just been opened. -/
def stream (a : LynxArchive) : LNXMStream where
  containerStream := { bytes := a.text }

/-- The first lookup by number finds every entry. -/
def Found (a : LynxArchive) : Prop :=
  ∀ i f, a.files[i]? = Option.some f → let r := a.stream.seekEntry (i + 1)
    r.1 = true ∧ r.2.entry.filename = f.name ∧ r.2.entry.type = decodeType [f.letter] ∧
      r.2.entry.size = f.content.length

/- A name of letters and digits that no other entry has. -/
structure Lookable (a : LynxArchive) (i : Nat) (f : LynxFile) : Prop where
  there : a.files[i]? = Option.some f
  some : toUTF8 f.name ≠ []
  letters : ∀ c ∈ toUTF8 f.name, isalnum c = true
  only : ∀ k g, a.files[k]? = Option.some g → toUTF8 g.name = toUTF8 f.name → k = i

def Fits (n : Nat) : Prop := 0 < n ∧ n < 2 ^ 32

/-- Such a name delivers the bytes of its file. -/
def Delivered (a : LynxArchive) : Prop :=
  ∀ i f, a.Lookable i f → let r := a.stream.seekPath (toUTF8 f.name)
    r.1 = true ∧ Delivers LNXMStream.read Fits r.2 f.content

/- The directory blocks and the data. -/
theorem text_length (a : LynxArchive) : a.text.length = a.directory_blocks * LNX_BLOCK_SIZE + (lynxData a.files).length := by
  have whole : a.text = (a.loader ++ (lynx ++ a.signature ++ cr :: (a.blocksText ++ cr :: (a.countText ++ cr ::
      (a.files.flatMap LynxFile.text ++ a.padding))))) ++ lynxData a.files := by
    simp [text]
  rw [whole, List.length_append, a.padded]

theorem text_drop (a : LynxArchive) : a.text.drop (a.directory_blocks * LNX_BLOCK_SIZE) = lynxData a.files := by
  have whole : a.text = (a.loader ++ (lynx ++ a.signature ++ cr :: (a.blocksText ++ cr :: (a.countText ++ cr ::
      (a.files.flatMap LynxFile.text ++ a.padding))))) ++ lynxData a.files := by
    simp [text]
  rw [whole, List.drop_left' a.padded]

end LynxArchive

namespace LNXMStream

theorem narrow_small {bits n : Nat} (small : n < 2 ^ bits) : narrow bits (n : Int) = n := by
  have mod : ((n : Int) % 2 ^ bits) = n := Int.emod_eq_of_lt (Int.natCast_nonneg n) (by exact_mod_cast small)
  rw [narrow, mod, Int.toNat_natCast]

theorem rtrimA0_padded {name : Str} (trimmed : name.getLast? ≠ some 0xA0) (n : Nat) :
    rtrimA0 (name ++ List.replicate n 0xA0) = name := by
  have pads : ∀ c ∈ List.replicate n (0xA0 : UInt8), (c == 0xA0) = true := fun c member => by
    rw [List.eq_of_mem_replicate member]
    rfl
  unfold rtrimA0
  rw [List.reverse_append, List.reverse_replicate, List.dropWhile_append_of_pos pads]
  cases last : name.reverse with
  | nil =>
    rw [List.reverse_eq_nil_iff.mp last]
    rfl
  | cons c rest =>
    have other : ¬ (c == 0xA0) = true := by
      intro same
      apply trimmed
      rw [← List.head?_reverse, last, List.head?_cons, eq_of_beq same]
    rw [List.dropWhile_cons, if_neg other, ← last, List.reverse_reverse]

/- A line that ends where the container stands. -/
theorem readLine_before {s : LNXMStream} {a b : Str} (here : s.containerStream.Before (a ++ cr :: b)) (plain : cr ∉ a) :
    ∃ m : Medium, m.Before b ∧ m.bytes = s.containerStream.bytes ∧
      s.readLine = (a, { s with containerStream := m }) := by
  obtain ⟨line, rest, same⟩ := here.readUntil plain
  exact ⟨_, rest, same, Prod.ext line rfl⟩

theorem readBytes_before {s : LNXMStream} {a b : Str} (here : s.containerStream.Before (a ++ b)) {n : Nat}
    (long : a.length = n) :
    ∃ m : Medium, m.Before b ∧ m.bytes = s.containerStream.bytes ∧
      s.readBytes n = (a, { s with containerStream := m }) := by
  obtain ⟨line, rest, same⟩ := here.read long
  exact ⟨_, rest, same, Prod.ext line rfl⟩

theorem numeral_line {n : Nat} {text : Str} (numeral : Numeral n text) : cr ∉ text := by
  intro member
  rcases numeral.plain member with space | digit
  · cases space
  · cases digit

/- One entry of the directory. -/
theorem loadEntry_file (f : LynxFile) {s : LNXMStream} {rest : Str}
    (here : s.containerStream.Before (f.text ++ rest)) :
    ∃ m : Medium, m.Before rest ∧ m.bytes = s.containerStream.bytes ∧
      s.loadEntry = (f.entry, { s with containerStream := m }) := by
  obtain ⟨nonempty, short, trimmed⟩ := f.named
  obtain ⟨some, small⟩ := f.sized
  have blocks : f.blockCount < 2 ^ 16 ∧ 0 < f.blockCount := by
    unfold LynxFile.blockCount LNX_BLOCK_SIZE at *
    omega
  have last : f.content.length - (f.blockCount - 1) * LNX_BLOCK_SIZE + 1 < 2 ^ 8 ∧
      0 < f.content.length - (f.blockCount - 1) * LNX_BLOCK_SIZE ∧
      (f.blockCount - 1) * LNX_BLOCK_SIZE + (f.content.length - (f.blockCount - 1) * LNX_BLOCK_SIZE) =
        f.content.length := by
    unfold LynxFile.blockCount LNX_BLOCK_SIZE at *
    omega
  have letter : cr ∉ [f.letter] ∧ [f.letter] ≠ [0x52] := by
    rcases f.typed with type | type | type
    · rw [type]; decide
    · rw [type]; decide
    · rw [type]; decide
  unfold LynxFile.text at here
  simp only [List.append_assoc, List.cons_append] at here
  rw [← List.append_assoc] at here
  have wide : (f.name ++ List.replicate (16 - f.name.length) 0xA0).length = 16 := by
    rw [List.length_append, List.length_replicate]
    omega
  obtain ⟨m1, before1, same1, name⟩ := readBytes_before here wide
  obtain ⟨m2, before2, same2, skip⟩ := @readBytes_before { s with containerStream := m1 } [cr] _ before1 1 rfl
  obtain ⟨m3, before3, same3, count⟩ :=
    @readLine_before { s with containerStream := m2 } _ _ before2 (numeral_line f.blocks)
  obtain ⟨m4, before4, same4, type⟩ := @readLine_before { s with containerStream := m3 } _ _ before3 letter.1
  obtain ⟨m5, before5, same5, used⟩ :=
    @readLine_before { s with containerStream := m4 } _ _ before4 (numeral_line f.lsu)
  refine ⟨m5, before5, same5.trans (same4.trans (same3.trans (same2.trans same1))), ?_⟩
  have bounded : f.content.length < 2 ^ 32 := by
    unfold LNX_BLOCK_SIZE at small
    omega
  unfold loadEntry
  dsimp only
  rw [name]
  dsimp only
  rw [skip]
  dsimp only
  rw [count]
  dsimp only
  rw [type]
  dsimp only
  rw [used]
  dsimp only
  rw [if_neg letter.2, if_neg letter.2, rtrimA0_padded trimmed, f.blocks.atoi, f.lsu.atoi]
  rw [show (f.content.length + 253) / LNX_BLOCK_SIZE = f.blockCount from rfl, narrow_small blocks.1,
    narrow_small last.1, if_pos ⟨blocks.2, Nat.succ_pos _⟩, Nat.add_sub_cancel, last.2.2, Nat.mod_eq_of_lt bounded]
  rfl

/-- The whole directory. -/
theorem loadLoop_files (files : List LynxFile) {s : LNXMStream} {rest : Str}
    (here : s.containerStream.Before (files.flatMap LynxFile.text ++ rest)) :
    ∃ m : Medium, m.bytes = s.containerStream.bytes ∧ loadLoop files.length s =
      { s with containerStream := m, entries := s.entries ++ files.map LynxFile.entry } := by
  induction files generalizing s with
  | nil => exact ⟨s.containerStream, rfl, by simp [loadLoop]⟩
  | cons f files ih =>
    rw [List.flatMap_cons, List.append_assoc] at here
    obtain ⟨m, before, same, one⟩ := loadEntry_file f here
    obtain ⟨m', same', more⟩ :=
      @ih { s with containerStream := m, entries := s.entries ++ [f.entry] } before
    refine ⟨m', same'.trans same, ?_⟩
    rw [List.length_cons, loadLoop]
    dsimp only
    rw [one, more]
    simp

/- The signature is where the loader ends. -/
theorem lynx_first {loader rest : Str} (unsigned : ¬ lynx <:+: loader) {i : Nat} (before : i < loader.length) :
    ((loader ++ (lynx ++ rest)).drop i).take 4 ≠ lynx := by
  intro found
  obtain ⟨front, back, rfl, size⟩ : ∃ front back, loader = front ++ back ∧ front.length = i :=
    ⟨loader.take i, loader.drop i, (List.take_append_drop i loader).symm, by rw [List.length_take]; omega⟩
  rw [List.append_assoc, List.drop_left' size] at found
  rw [List.length_append] at before
  -- at most three characters of the loader can begin a signature that ends in this one
  match back, before with
  | [], before => simp at before; omega
  | [a], _ => simp [lynx] at found
  | [a, b], _ => simp [lynx] at found
  | [a, b, c], _ => simp [lynx] at found
  | a :: b :: c :: d :: more, _ =>
    have four : [a, b, c, d] = lynx := by simpa using found
    exact unsigned ⟨front, more, by rw [← four]; simp⟩

theorem find_range {n i : Nat} {test : Nat → Bool} (below : i < n) (here : test i = true)
    (first : ∀ j < i, test j = false) : (List.range n).find? test = some i := by
  rw [List.find?_range_eq_some]
  refine ⟨here, List.mem_range.mpr below, fun j low => ?_⟩
  rw [first j low]
  rfl

theorem skipBasicLoader_archive (a : LynxArchive) {s : LNXMStream} (bytes : s.containerStream.bytes = a.text) :
    ∃ m : Medium, m.Before (a.text.drop a.loader.length) ∧ m.bytes = a.text ∧
      s.skipBasicLoader = { s with containerStream := m } := by
  have inside := a.inside
  obtain ⟨rest, text⟩ : ∃ rest, a.text = a.loader ++ (lynx ++ rest) :=
    ⟨_, by rw [LynxArchive.text, List.append_assoc lynx]⟩
  have long : 254 ≤ a.text.length := by
    have padded := a.padded
    have whole := a.text_length
    simp only [lynx, List.length_append, List.length_cons, List.length_nil, LNX_BLOCK_SIZE] at padded whole
    omega
  have buffer : ((s.containerStream.seek 0).readContainer 254).1 = a.text.take 254 := by
    rw [← bytes]
    rfl
  have size : (a.text.take 254).length = 254 := by
    rw [List.length_take]
    omega
  have search : (List.range ((a.text.take 254).length - 4)).find?
      (fun i => ((a.text.take 254).drop i).take 4 == lynx) = some a.loader.length := by
    have cut : ∀ i ≤ a.loader.length, ((a.text.take 254).drop i).take 4 = (a.text.drop i).take 4 := by
      intro i low
      rw [List.drop_take, List.take_take, Nat.min_eq_left (by simp [lynx] at inside; omega)]
    apply find_range
    · rw [size]
      simp [lynx] at inside
      omega
    · rw [cut _ (Nat.le_refl _), text, List.drop_left' rfl]
      rfl
    · intro i low
      rw [cut i (Nat.le_of_lt low), text]
      simpa using lynx_first a.unsigned low
  refine ⟨{ bytes := a.text, pos := a.loader.length }, rfl, rfl, ?_⟩
  unfold skipBasicLoader
  dsimp only
  rw [buffer, search, ← bytes]
  rfl

theorem readHeader_archive (a : LynxArchive) {s : LNXMStream} (bytes : s.containerStream.bytes = a.text) :
    ∃ m : Medium, m.Before (a.files.flatMap LynxFile.text ++ (a.padding ++ lynxData a.files)) ∧ m.bytes = a.text ∧
      s.readHeader = (true, { s with
        containerStream := m
        directory_blocks := a.directory_blocks
        entry_count := some a.files.length }) := by
  obtain ⟨m, before, same, skip⟩ := skipBasicLoader_archive a bytes
  have start : a.text.drop a.loader.length = lynx ++ a.signature ++ cr :: (a.blocksText ++ cr :: (a.countText ++ cr ::
      (a.files.flatMap LynxFile.text ++ (a.padding ++ lynxData a.files)))) := by
    rw [LynxArchive.text, List.drop_left' rfl]
  rw [start] at before
  have line : cr ∉ lynx ++ a.signature := by
    intro member
    rcases List.mem_append.mp member with name | rest
    · exact absurd name (by decide)
    · exact a.line rest
  obtain ⟨m1, before1, same1, signature⟩ := @readLine_before { s with containerStream := m } _ _ before line
  obtain ⟨m2, before2, same2, blocks⟩ :=
    @readLine_before { s with containerStream := m1 } _ _ before1 (numeral_line a.blocks)
  obtain ⟨m3, before3, same3, count⟩ :=
    @readLine_before { s with containerStream := m2 } _ _ before2 (numeral_line a.count)
  refine ⟨m3, before3, same3.trans (same2.trans (same1.trans same)), ?_⟩
  have signed : lynx <:+: lynx ++ a.signature := ⟨[], a.signature, by simp⟩
  unfold readHeader
  dsimp only
  rw [skip, signature]
  dsimp only
  rw [blocks]
  dsimp only
  rw [count]
  dsimp only
  rw [if_neg (not_not.mpr signed), a.blocks.atoi, a.count.atoi, narrow_small (Nat.lt_of_le_of_lt a.few (by decide)),
    narrow_small (Nat.lt_of_le_of_lt a.some.2 (by decide))]

/- Every file is where its entry says. -/
theorem assignOffsets_files (text : Str) (files : List LynxFile) {offset : Nat}
    (here : text.drop offset = lynxData files) (small : offset + (lynxData files).length < 2 ^ 32) :
    ∀ (i : Nat) (f : LynxFile), files[i]? = some f → ∃ start, (assignOffsets offset (files.map LynxFile.entry))[i]? =
      some { f.entry with offset := start } ∧ ∃ rest, text.drop start = f.content ++ rest := by
  induction files generalizing offset with
  | nil => exact fun i f no => nomatch no
  | cons f files ih =>
    intro i g there
    cases files with
    | nil =>
      cases i with
      | zero =>
        cases there
        exact ⟨offset, rfl, [], by rw [here, lynxData, List.append_nil]⟩
      | succ i => cases there
    | cons f' files =>
      rw [lynxData] at here small
      cases i with
      | zero =>
        cases there
        exact ⟨offset, rfl, _, by rw [here, List.append_assoc]⟩
      | succ i =>
        have size : (f.content ++ f.fill).length = f.blockCount * LNX_BLOCK_SIZE := by
          rw [List.length_append]
          exact f.filled
        rw [List.length_append, size] at small
        have next : (offset + f.entry.block_count * LNX_BLOCK_SIZE) % 2 ^ 32 = offset + f.blockCount * LNX_BLOCK_SIZE :=
          Nat.mod_eq_of_lt (by show offset + f.blockCount * LNX_BLOCK_SIZE < 2 ^ 32; omega)
        have behind : text.drop (offset + f.blockCount * LNX_BLOCK_SIZE) = lynxData (f' :: files) := by
          rw [← List.drop_drop, here, List.drop_left' size]
        rw [List.map_cons, assignOffsets, next]
        exact ih behind (by omega) i g there

/- A search sees no more of the stream than its first lookup does. -/
theorem searchEntries_congr (filename : Str) (fuel : Nat) {index : Nat} {s s' : LNXMStream}
    (same : s.seekEntry index = s'.seekEntry index) :
    s.searchEntries filename (fuel + 1) index = s'.searchEntries filename (fuel + 1) index := by
  simp only [searchEntries, same]

end LNXMStream

namespace LynxArchive

/-- The directory once it has been read. -/
def entries (a : LynxArchive) : List LynxEntry :=
  LNXMStream.assignOffsets (a.directory_blocks * LNX_BLOCK_SIZE) (a.files.map LynxFile.entry)

/-- The stream has read the directory. -/
structure Ready (a : LynxArchive) (s : LNXMStream) : Prop where
  counted : s.entry_count = Option.some a.files.length
  entries : s.entries = a.entries
  bytes : s.containerStream.bytes = a.text

theorem entries_length (a : LynxArchive) : a.entries.length = a.files.length := by
  have kept : ∀ offset es, (LNXMStream.assignOffsets offset es).length = es.length := by
    intro offset es
    induction es generalizing offset with
    | nil => rfl
    | cons e es ih => rw [LNXMStream.assignOffsets, List.length_cons, ih, List.length_cons]
  rw [entries, kept, List.length_map]

theorem entries_get (a : LynxArchive) {i : Nat} {f : LynxFile} (there : a.files[i]? = Option.some f) :
    ∃ start, a.entries[i]? = Option.some { f.entry with offset := start } ∧
      ∃ rest, a.text.drop start = f.content ++ rest :=
  LNXMStream.assignOffsets_files a.text a.files a.text_drop a.whole i f there

/- The first lookup reads the directory. -/
theorem ensureEntries_fresh (a : LynxArchive) {s : LNXMStream} (bytes : s.containerStream.bytes = a.text)
    (fresh : s.entry_count = none) (empty : s.entries = []) :
    ∃ s', a.Ready s' ∧ s'.seekCalled = s.seekCalled ∧
      s.ensureEntries = (decide (a.files.length % 256 < 128), s') := by
  obtain ⟨m, before, same, header⟩ := LNXMStream.readHeader_archive a bytes
  obtain ⟨m', same', files⟩ := @LNXMStream.loadLoop_files a.files { s with
    containerStream := m
    directory_blocks := a.directory_blocks
    entry_count := Option.some a.files.length } _ before
  have start : a.directory_blocks * LNX_BLOCK_SIZE % 2 ^ 32 = a.directory_blocks * LNX_BLOCK_SIZE :=
    Nat.mod_eq_of_lt (Nat.lt_of_le_of_lt (Nat.le_add_right _ _) a.whole)
  refine ⟨{ s with
    containerStream := m'
    directory_blocks := a.directory_blocks
    entry_count := Option.some a.files.length
    entries := a.entries }, ⟨rfl, rfl, same'.trans same⟩, rfl, ?_⟩
  unfold LNXMStream.ensureEntries
  rw [fresh]
  dsimp only
  rw [header, if_pos rfl]
  dsimp only [Option.getD_some]
  rw [LNXMStream.loadEntries, files]
  dsimp only
  rw [empty, List.nil_append, start]
  rfl

theorem Ready.ensured {a : LynxArchive} {s : LNXMStream} (ready : a.Ready s) : s.ensureEntries = (true, s) := by
  unfold LNXMStream.ensureEntries
  rw [ready.counted]

theorem Ready.seekEntry {a : LynxArchive} {s : LNXMStream} (ready : a.Ready s) {i : Nat} {e : LynxEntry}
    (there : a.entries[i]? = Option.some e) :
    s.seekEntry (i + 1) = (true, { s with entry := e, entry_index := i + 1 }) := by
  obtain ⟨low, value⟩ := List.getElem?_eq_some_iff.mp there
  have few := a.some.2
  have size := a.entries_length
  have index : (i + 1) % 2 ^ 16 = i + 1 := Nat.mod_eq_of_lt (by omega)
  unfold LNXMStream.seekEntry
  dsimp only
  rw [ready.ensured, index, if_neg (by simp), ready.entries, if_pos ⟨Nat.succ_pos i, low⟩, Nat.add_sub_cancel,
    List.getD_eq_getElem?_getD, there]
  rfl

/-- The search ends at the first entry of the name. -/
theorem Ready.search {a : LynxArchive} {filename : Str} {fuel k i : Nat} {s : LNXMStream} (ready : a.Ready s)
    {e : LynxEntry} (there : a.entries[i]? = Option.some e)
    (match_ : compareFilename (LNXMStream.LynxEntry.lookup e) filename (isWildcard filename) = true) (low : k ≤ i)
    (first : ∀ j d, k ≤ j → j < i → a.entries[j]? = Option.some d →
      compareFilename (LNXMStream.LynxEntry.lookup d) filename (isWildcard filename) = false) (enough : i - k < fuel) :
    s.searchEntries filename fuel (k + 1) = (true, { s with entry := e, entry_index := i + 1 }) := by
  induction fuel generalizing k s with
  | zero => omega
  | succ fuel ih =>
    rw [LNXMStream.searchEntries]
    rcases Nat.lt_or_eq_of_le low with before | rfl
    · obtain ⟨inside, -⟩ := List.getElem?_eq_some_iff.mp there
      obtain ⟨d, earlier⟩ : ∃ d, a.entries[k]? = Option.some d :=
        ⟨_, List.getElem?_eq_getElem (Nat.lt_trans before inside)⟩
      rw [ready.seekEntry earlier]
      dsimp only
      rw [if_neg (by simp), if_neg (by rw [first k d (Nat.le_refl k) before earlier]; simp)]
      have again : a.Ready { s with entry := d, entry_index := k + 1 } := ⟨ready.counted, ready.entries, ready.bytes⟩
      exact ih again before (fun j d later => first j d (by omega)) (by omega)
    · rw [ready.seekEntry there, if_neg (by simp), if_pos match_]

/- The first lookup is the lookup in the directory, where reading that is no failure. -/
theorem seekEntry_fresh (a : LynxArchive) {s : LNXMStream} (bytes : s.containerStream.bytes = a.text)
    (fresh : s.entry_count = none) (empty : s.entries = []) :
    ∃ s', a.Ready s' ∧ s'.seekCalled = s.seekCalled ∧ ∀ i, s.seekEntry i =
      if a.files.length % 256 < 128 then s'.seekEntry i else (false, s') := by
  obtain ⟨s', ready, called, ensured⟩ := a.ensureEntries_fresh bytes fresh empty
  refine ⟨s', ready, called, fun i => ?_⟩
  unfold LNXMStream.seekEntry
  dsimp only
  rw [ensured, ready.ensured]
  by_cases low : a.files.length % 256 < 128
  · rw [if_pos low, decide_eq_true low]
  · rw [if_neg low, decide_eq_false low]
    rfl

theorem found_iff (a : LynxArchive) : a.Found ↔ a.files.length % 256 < 128 := by
  obtain ⟨s', ready, -, lookup⟩ := a.seekEntry_fresh (s := a.stream) rfl rfl rfl
  constructor
  · intro found
    obtain ⟨f, there⟩ : ∃ f, a.files[0]? = Option.some f := ⟨_, List.getElem?_eq_getElem a.some.1⟩
    have first := (found 0 f there).1
    rw [lookup] at first
    split at first
    · assumption
    · cases first
  · intro low i f there
    obtain ⟨start, entry, -⟩ := a.entries_get there
    dsimp only
    rw [lookup, if_pos low, ready.seekEntry entry]
    exact ⟨rfl, rfl, rfl, rfl⟩

/- A selected file delivers its bytes. -/
theorem delivers_selected {s : LNXMStream} {content rest : Str} (called : s.seekCalled = true)
    (size : s.size = content.length) (some : 1 ≤ content.length) (bounded : content.length < 2 ^ 32)
    (start : s.position = 0) (here : s.containerStream.Before (content ++ rest)) :
    Delivers LNXMStream.read Fits s content := by
  refine Delivers.of_invariant (fun s left => ∃ done, s.seekCalled = true ∧ s.size = content.length ∧
    s.position = done.length ∧ content = done ++ left ∧ s.containerStream.Before (left ++ rest)) ?_
    ⟨[], called, size, start, rfl, here⟩
  rintro s left n ⟨done, called, size, position, cut, here⟩ ⟨positive, -⟩
  have whole := congrArg List.length cut
  rw [List.length_append] at whole
  cases more : left with
  | nil =>
    rw [more, List.length_nil] at whole
    have ended : s.read n = ([], s) := if_pos ⟨by omega, by omega⟩
    rw [ended]
    exact ⟨[], ⟨rfl, Nat.zero_le n, fun no => absurd rfl no⟩, done, called, size, position, more ▸ cut, more ▸ here⟩
  | cons c tail =>
    have positive' : 0 < left.length := by
      rw [more]
      exact Nat.succ_pos _
    -- what is read is cut at the end of the file
    have count : (if 0 < s.size ∧ s.size - s.position < n then s.size - s.position else n) = min n left.length := by
      split
      · omega
      · omega
    have parts : left = left.take (min n left.length) ++ left.drop (min n left.length) :=
      (List.take_append_drop _ left).symm
    have here' : s.containerStream.Before (left.take (min n left.length) ++ (left.drop (min n left.length) ++ rest)) := by
      rw [← List.append_assoc, ← parts]
      exact here
    have long : (left.take (min n left.length)).length = min n left.length := by
      rw [List.length_take]
      omega
    obtain ⟨m, before, -, bytes⟩ := LNXMStream.readBytes_before here' long
    have read : s.read n = (left.take (min n left.length),
        { s with containerStream := m, position := s.position + min n left.length }) := by
      unfold LNXMStream.read
      rw [if_neg (by omega)]
      dsimp only
      rw [count, if_neg (by rw [Nat.mod_eq_of_lt (by omega)]; omega), bytes]
      dsimp only
      rw [long]
    have piece : left.take (min n left.length) = left.take n := by
      rw [List.take_eq_take_iff]
      omega
    have rest' : left.drop (min n left.length) = left.drop n := by
      rcases Nat.le_total n left.length with inside | out
      · rw [Nat.min_eq_left inside]
      · rw [Nat.min_eq_right out, List.drop_eq_nil_of_le out, List.drop_eq_nil_of_le (Nat.le_refl _)]
    rw [read, ← more]
    refine ⟨left.drop n, piece ▸ Takes.take positive left, done ++ left.take (min n left.length), called, size, ?_, ?_, ?_⟩
    · rw [List.length_append, long, ← position]
    · rw [List.append_assoc, ← rest', ← parts]
      exact cut
    · rw [← rest']
      exact before

/- The first entry that the name finds. -/
structure First (a : LynxArchive) (filename : Str) (k : Nat) (g : LynxFile) : Prop where
  there : a.files[k]? = Option.some g
  named : LNXMStream.LynxEntry.lookup g.entry = filename
  before : ∀ (j : Nat) (h : LynxFile), j < k → a.files[j]? = Option.some h →
    LNXMStream.LynxEntry.lookup h.entry ≠ filename

/-- The first entry that is looked up by the name has the bytes of the file. -/
def Unshadowed (a : LynxArchive) : Prop :=
  ∀ (i : Nat) (f : LynxFile), a.Lookable i f → ∀ (k : Nat) (g : LynxFile), a.First (toUTF8 f.name) k g →
    g.content = f.content

/- Letters and digits are bytes of their own in the name. -/
theorem Lookable.lookup {a : LynxArchive} {i : Nat} {f : LynxFile} (l : a.Lookable i f) :
    LNXMStream.LynxEntry.lookup f.entry = toUTF8 f.name := by
  have plain : ∀ c ∈ f.name, c ≠ 0xA0 := by
    intro c member hard
    have inside : (0xC2 : UInt8) ∈ toUTF8 f.name := by
      rw [toUTF8, List.mem_flatMap]
      exact ⟨c, member, by rw [hard]; decide⟩
    exact absurd (l.letters _ inside) (by decide)
  have whole : (f.name.takeWhile (· ≠ 0xA0)).take 16 = f.name := by
    rw [List.takeWhile_eq_self_iff.mpr fun c member => decide_eq_true (plain c member)]
    exact List.take_of_length_le f.named.2.1
  exact congrArg toUTF8 whole

/- There is a first one. -/
theorem Lookable.first {a : LynxArchive} {i : Nat} {f : LynxFile} (l : a.Lookable i f) :
    ∃ k g, a.First (toUTF8 f.name) k g := by
  classical
  have found : ∃ (k : Nat) (g : LynxFile), a.files[k]? = Option.some g ∧ LNXMStream.LynxEntry.lookup g.entry = toUTF8 f.name :=
    ⟨i, f, l.there, l.lookup⟩
  obtain ⟨g, there, named⟩ := Nat.find_spec found
  exact ⟨Nat.find found, g, there, named, fun j h before member same => Nat.find_min found before ⟨h, member, same⟩⟩

theorem alnum_plain {filename : Str} (letters : ∀ c ∈ filename, isalnum c = true) :
    slashed filename = filename ∧ isWildcard filename = false := by
  constructor
  · have same : ∀ c ∈ filename, (if c = backslash then slash else c) = c := by
      intro c member
      split
      · rename_i stroke
        have letter := letters c member
        rw [stroke] at letter
        exact absurd letter (by decide)
      · rfl
    exact (List.map_congr_left same).trans (List.map_id filename)
  · have other : ∀ d : UInt8, isalnum d = false → filename.contains d = false := by
      intro d odd
      rw [Bool.eq_false_iff]
      intro member
      rw [List.contains_iff_mem] at member
      rw [letters d member] at odd
      cases odd
    rw [isWildcard, other star (by decide), other question (by decide)]
    rfl

/-- A path of letters and digits selects the first entry it finds. -/
theorem seekPath_first (a : LynxArchive) (low : a.files.length % 256 < 128) {filename : Str} (some : filename ≠ [])
    (letters : ∀ c ∈ filename, isalnum c = true) {k : Nat} {g : LynxFile} (first : a.First filename k g) :
    (a.stream.seekPath filename).1 = true ∧
      Delivers LNXMStream.read Fits (a.stream.seekPath filename).2 g.content := by
  obtain ⟨plain, wild⟩ := alnum_plain letters
  let opened : LNXMStream := { a.stream with seekCalled := true, entry_index := 0 }
  obtain ⟨s', ready, called, lookup⟩ := @seekEntry_fresh a opened rfl rfl rfl
  obtain ⟨start, entry, rest, here⟩ := a.entries_get first.there
  have match_ : compareFilename (LNXMStream.LynxEntry.lookup { g.entry with offset := start }) filename
      (isWildcard filename) = true := by
    rw [wild, compareFilename_plain, show LNXMStream.LynxEntry.lookup { g.entry with offset := start } = filename from
      first.named]
    exact beq_self_eq_true filename
  have none : ∀ j d, 0 ≤ j → j < k → a.entries[j]? = Option.some d →
      compareFilename (LNXMStream.LynxEntry.lookup d) filename (isWildcard filename) = false := by
    intro j d _ before member
    obtain ⟨h, earlier⟩ : ∃ h, a.files[j]? = Option.some h :=
      ⟨_, List.getElem?_eq_getElem (Nat.lt_trans before (List.getElem?_eq_some_iff.mp first.there).1)⟩
    obtain ⟨start', entry', -⟩ := a.entries_get earlier
    rw [entry'] at member
    cases member
    rw [wild, compareFilename_plain, Bool.eq_false_iff]
    intro same
    exact first.before j h before earlier (eq_of_beq same).symm
  have few : k - 0 < 2 ^ 16 := by
    have inside := (List.getElem?_eq_some_iff.mp first.there).1
    have most := a.some.2
    omega
  have search := ready.search entry match_ (Nat.zero_le k) none few
  -- the search on the fresh stream reads the directory and goes on as the one above
  have same : opened.searchEntries filename (2 ^ 16) 1 = s'.searchEntries filename (2 ^ 16) 1 := by
    exact LNXMStream.searchEntries_congr filename 65535 ((lookup 1).trans (if_pos low))
  have path : a.stream.seekPath filename = (true, { s' with
      entry := { g.entry with offset := start }
      entry_index := k + 1
      size := g.content.length
      position := 0
      containerStream := s'.containerStream.seek start }) := by
    unfold LNXMStream.seekPath LNXMStream.seekName
    rw [if_neg some, plain, same, search]
    rfl
  have content : (s'.containerStream.seek start).Before (g.content ++ rest) := by
    show s'.containerStream.bytes.drop start = g.content ++ rest
    rw [ready.bytes, here]
  have bounded : g.content.length < 2 ^ 32 := by
    have most := g.sized.2
    unfold LNX_BLOCK_SIZE at most
    omega
  rw [path]
  exact ⟨rfl, delivers_selected called rfl g.sized.1 bounded rfl content⟩

/-- An archive comes back whole exactly when its count survives eight signed bits and no name is
hidden by one that ends at a hard space. -/
theorem round_trip_iff (a : LynxArchive) : (a.Found ∧ a.Delivered) ↔ a.files.length % 256 < 128 ∧ a.Unshadowed := by
  rw [a.found_iff]
  refine and_congr_right fun low => ?_
  constructor
  · intro delivered i f l k g first
    obtain ⟨-, delivers⟩ := a.seekPath_first low l.some l.letters first
    exact delivers.unique (delivered i f l).2 (show Fits 1 from ⟨Nat.one_pos, by decide⟩)
  · intro unshadowed i f l
    obtain ⟨k, g, first⟩ := l.first
    obtain ⟨selected, delivers⟩ := a.seekPath_first low l.some l.letters first
    exact ⟨selected, unshadowed i f l k g first ▸ delivers⟩

/- A program of one byte. -/
def one : LynxFile where
  name := [0x41]
  letter := 0x50
  content := [0x2a]
  blocksText := [0x31]
  lsuText := [0x32]
  fill := List.replicate 253 0
  named := by decide
  typed := by decide
  sized := by decide
  blocks := Numeral.digits (by decide) (by decide +kernel) (by decide)
  lsu := Numeral.digits (by decide) (by decide +kernel) (by decide)
  filled := by decide +kernel

/- The same file several times. -/
theorem length_texts (f : LynxFile) (n : Nat) :
    ((List.replicate n f).flatMap LynxFile.text).length = n * f.text.length := by
  rw [List.length_flatMap, List.map_replicate, List.sum_replicate_nat]

theorem length_copies (f : LynxFile) {n : Nat} (some : 1 ≤ n) : (lynxData (List.replicate n f)).length =
    (n - 1) * (f.content.length + f.fill.length) + f.content.length := by
  induction n, some using Nat.le_induction with
  | base => simp [lynxData]
  | succ n some ih =>
    obtain ⟨m, rfl⟩ := Nat.exists_eq_add_of_le' some
    rw [List.replicate_succ, List.replicate_succ, lynxData, ← List.replicate_succ, List.length_append, ih,
      List.length_append, Nat.add_sub_cancel, Nat.add_sub_cancel, Nat.succ_mul]
    omega

/- It 128 times. -/
def full : LynxArchive where
  loader := []
  signature := []
  blocksText := [0x31, 0x32]
  countText := [0x31, 0x32, 0x38]
  padding := List.replicate 92 0
  directory_blocks := 12
  files := List.replicate 128 one
  unsigned := by decide
  line := by decide
  inside := by decide
  blocks := Numeral.digits (by decide) (by decide +kernel) (by decide)
  count := Numeral.digits (by decide) (by decide +kernel) (by decide +kernel)
  few := by decide
  some := by decide +kernel
  padded := by
    simp only [List.length_append, List.length_cons, length_texts, List.length_replicate]
    decide
  whole := by
    rw [length_copies one (by decide)]
    decide +kernel

theorem full_not_found : ¬ full.Found := by
  rw [found_iff]
  decide +kernel

end LynxArchive

end Meatloaf.Archive
