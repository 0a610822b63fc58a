import Meatloaf.Drive.Open
import Mathlib.Data.List.TakeWhile

/-! `iecChannelHandlerDir`: a directory as a BASIC program, chunk by chunk. A chunk is put together in
the buffer of the channel, over what the chunk before has left there. -/
namespace Meatloaf.Drive

open Lib

/- What a listing reads off one entry. -/
structure DirFile where
  name : Str
  extension : Str
  pathInStream : Str
  blocks : Nat
  is_dir : Bool
  is_hidden : Bool

/- The directory. `bytesFree` is what `formatBytes` makes of the available space, and
`blocksAvailable` what the footer for DolphinDos does. -/
structure Dir where
  scheme : Str
  host : Str
  path : Str
  url : Str
  pathInStream : Str
  media_archive : Str
  media_image : Str
  media_header : Str
  media_id : Str
  media_partition : UInt8
  media_blocks_free : Nat
  isCBM : Bool
  bytesFree : { text : Str // text.length ≤ 9 ∧ 0 ∉ text }
  blocksAvailable : Nat
  entries : List DirFile

/- What is built in, and the drive. -/
structure Build where
  encodeACE : Str → Str
  dolphin : Bool
  minConfig : Bool
  sdRunning : Bool
  id : Nat

/- `mstr::replaceAll`; the counter is as large as the text is long. -/
def replaceLoop (search replace : Str) : Nat → Str → Str
  | 0, s => s
  | _ + 1, [] => []
  | n + 1, c :: s =>
    if search.isPrefixOf (c :: s) then replace ++ replaceLoop search replace n ((c :: s).drop search.length)
    else c :: replaceLoop search replace n s

def replaceAll (s search replace : Str) : Str :=
  if search = [] then s else replaceLoop search replace s.length s

/- The names that other systems leave behind. -/
def junkPrefixes : List Str := [
  [0x2e, 0x5f],
  [0x2e, 0x44, 0x53, 0x5f, 0x53, 0x74, 0x6f, 0x72, 0x65],
  [0x2e, 0x66, 0x73, 0x65, 0x76, 0x65, 0x6e, 0x74, 0x73, 0x64],
  [0x2e, 0x53, 0x70, 0x6f, 0x74, 0x6c, 0x69, 0x67, 0x68, 0x74, 0x2d, 0x56],
  [0x2e, 0x54, 0x65, 0x6d, 0x70, 0x6f, 0x72, 0x61, 0x72, 0x79, 0x49, 0x74, 0x65, 0x6d, 0x73],
  [0x2e, 0x54, 0x72, 0x61, 0x73, 0x68, 0x65, 0x73],
  [0x2e, 0x56, 0x6f, 0x6c, 0x75, 0x6d, 0x65, 0x49, 0x63, 0x6f, 0x6e, 0x2e, 0x69, 0x63, 0x6e, 0x73],
  [0x44, 0x65, 0x73, 0x6b, 0x74, 0x6f, 0x70, 0x2e, 0x69, 0x6e, 0x69],
  [0x54, 0x68, 0x75, 0x6d, 0x62, 0x73, 0x2e, 0x64, 0x62],
  [0x53, 0x79, 0x73, 0x74, 0x65, 0x6d, 0x20, 0x56, 0x6f, 0x6c, 0x75, 0x6d, 0x65, 0x20, 0x49, 0x6e, 0x66, 0x6f, 0x72,
    0x6d, 0x61, 0x74, 0x69, 0x6f, 0x6e],
  [0x24, 0x52, 0x65, 0x63, 0x79, 0x63, 0x6c, 0x65, 0x2e, 0x62, 0x69, 0x6e],
  [0x46, 0x4f, 0x55, 0x4e, 0x44, 0x2e, 0x30, 0x30, 0x30]]

def isJunk (name : Str) : Bool := junkPrefixes.any fun junk => junk.isPrefixOf (name.takeWhile (· ≠ 0))

def DirFile.visible (e : DirFile) : Bool := !e.is_hidden && !isJunk e.name

namespace Dir

/- "PATH", "ARCHIVE", "IMAGE", "DIR", "NFO ". -/
def PATH : Str := [0x50, 0x41, 0x54, 0x48]
def ARCHIVE : Str := [0x41, 0x52, 0x43, 0x48, 0x49, 0x56, 0x45]
def IMAGE : Str := [0x49, 0x4d, 0x41, 0x47, 0x45]
def DIR : Str := [0x44, 0x49, 0x52]
def PRG : Str := [0x50, 0x52, 0x47]
def NFO : Str := [0x4e, 0x46, 0x4f, 0x20]
def NETWORK : Str := [0x4e, 0x45, 0x54, 0x57, 0x4f, 0x52, 0x4b]
def SD : Str := [0x53, 0x44]

def cells : Nat → Str → List Str
  | 0, _ => []
  | n + 1, text => if text = [] then [] else (NFO ++ text.take 16) :: cells n (text.drop 16)

def addExtraInfo (title text : Str) : List Str :=
  (NFO ++ [0x5b] ++ title ++ [0x5d]) :: cells text.length text

/- The path without the container in it. -/
def shortPath (d : Dir) : Str :=
  replaceAll (replaceAll (replaceAll d.path d.media_archive []) d.media_image []) [slash, slash] [slash]

/- The header lines of the constructor, but the first one. -/
def info (d : Dir) : List Str :=
  (if 0 < (toPETSCII2 d.host).length then addExtraInfo (toPETSCII2 d.scheme) (toPETSCII2 d.host) else []) ++
  (if 1 < (toPETSCII2 d.shortPath).length then addExtraInfo PATH (toPETSCII2 d.shortPath) else []) ++
  (if 1 < (toPETSCII2 d.media_archive).length then addExtraInfo ARCHIVE (toPETSCII2 d.media_archive) else []) ++
  (if 0 < (toPETSCII2 d.media_image).length then addExtraInfo IMAGE (toPETSCII2 d.media_image) else []) ++
  (if 0 < (toPETSCII2 d.pathInStream).length then addExtraInfo DIR (toPETSCII2 d.pathInStream) else [])

def headers (d : Dir) (build : Build) : List Str :=
  d.info ++ (if d.info = [] then [] else [NFO ++ List.replicate 16 0x2d]) ++
    (if d.url.length < 2 then
      (if build.sdRunning then [DIR ++ [0x20] ++ SD] else []) ++ (if build.minConfig then [] else [DIR ++ [0x20] ++ NETWORK])
    else [])

end Dir

/-- `iecChannelHandlerDir`. `rest` is what `getNextFileInDir` has still to return. -/
structure DirChannel where
  dir : Dir
  build : Build
  headers : List Str
  headerLine : Nat := 1
  rest : List DirFile
  mem : Nat → UInt8
  len : Nat := 0

namespace DirChannel

def quote : UInt8 := 0x22

/- "meatloaf cbm", "{{id}}" and " 2a". -/
def defaultHeader : Str := [0x6d, 0x65, 0x61, 0x74, 0x6c, 0x6f, 0x61, 0x66, 0x20, 0x63, 0x62, 0x6d]
def idMark : Str := [0x7b, 0x7b, 0x69, 0x64, 0x7d, 0x7d]
def defaultId : Str := [0x20, 0x32, 0x61]

/- `format("%02i")` of a device number. -/
def twoDigits (n : Nat) : Str :=
  if n < 100 then [UInt8.ofNat (0x30 + n / 10), UInt8.ofNat (0x30 + n % 10)]
  else [UInt8.ofNat (0x30 + n / 100), UInt8.ofNat (0x30 + n / 10 % 10), UInt8.ofNat (0x30 + n % 10)]

/- A text cut or padded to a length. -/
def field (text : Str) (n : Nat) : Str := text.take n ++ List.replicate (n - text.length) 0x20

section lines

variable (d : Dir) (build : Build)

def headerName : Str :=
  let name := if 0 < d.media_header.length then d.media_header else defaultHeader
  toPETSCII2 (if d.isCBM then name else build.encodeACE name)

def headerId : Str :=
  toPETSCII2 (if 0 < d.media_id.length then replaceAll d.media_id idMark (twoDigits build.id)
    else twoDigits build.id ++ defaultId)

/- The text of the first line, which is reversed. -/
def headerText : Str :=
  18 :: quote :: field (headerName d build) 16 ++ [quote, 0x20] ++ field (headerId d build) 5

/- The text of an info line: the name in quotes and a type. -/
def infoText (header : Str) : Str :=
  let name := [0x20, 0x20, 0x20, quote] ++ (header.drop 4).take 16 ++ [quote]
  name ++ List.replicate (21 - name.length) 0x20 ++ [0x20] ++ header.take 3 ++ [0x20, 0x20]

def entryName (e : DirFile) : Str :=
  let name := if contains e.pathInStream (e.name.takeWhile (· ≠ 0)) = false ∧ e.pathInStream ≠ [] then e.pathInStream
    else e.name
  toPETSCII2 (if d.isCBM then replaceAll name [backslash] [slash] else build.encodeACE name)

/- The type column, five characters. -/
def entryType (e : DirFile) : Str :=
  let ext := if e.extension.head? = some 0x5f then [] else e.extension
  if d.isCBM then field ext 5
  else
    let ext := toPETSCII2 (build.encodeACE ext)
    [0x20] ++ (if 0 < ext.length then field ext 3 else if e.is_dir then Dir.DIR else Dir.PRG) ++ [0x20]

/- The block count, right-aligned. -/
def padding (blocks : Nat) : Str :=
  List.replicate ((if blocks < 10 then 1 else 0) + (if blocks < 100 then 1 else 0) + (if blocks < 1000 then 1 else 0)) 0x20

def entryText (e : DirFile) : Str :=
  padding (e.blocks % 65536) ++ [quote] ++ entryName d build e ++ [quote] ++
    List.replicate (16 - (entryName d build e).length) 0x20 ++ entryType d build e ++ [0x20]

/- The two bytes of a number. -/
def number (n : Nat) : List UInt8 := [UInt8.ofNat (n % 256), UInt8.ofNat (n / 256 % 256)]

def entryLine (e : DirFile) : List UInt8 := [1, 1] ++ number (e.blocks % 65536) ++ entryText d build e ++ [0]

/- "BLOCKS FREE." and, behind two deletes, "BYTES FREE.". -/
def blocksText : Str := [0x42, 0x4c, 0x4f, 0x43, 0x4b, 0x53, 0x20, 0x46, 0x52, 0x45, 0x45, 0x2e]
def bytesText : Str := [0x42, 0x59, 0x54, 0x45, 0x53, 0x20, 0x46, 0x52, 0x45, 0x45, 0x2e]

def freeBlocks : Nat :=
  if 0 < d.media_image.length then d.media_blocks_free else if build.dolphin then min d.blocksAvailable 65535 else 0

def freeText : Str :=
  if 0 < d.media_image.length ∨ build.dolphin then blocksText else [0x14, 0x14] ++ d.bytesFree.val ++ bytesText

end lines

/- Bytes laid over the buffer. -/
def lay (c : DirChannel) (a : Nat) (bytes : List UInt8) : DirChannel := { c with mem := Store.put c.mem a bytes }

/- `strcpy`. -/
def strcpy (c : DirChannel) (a : Nat) (text : Str) : DirChannel := c.lay a (text.takeWhile (· ≠ 0) ++ [0])

/- `m_headerLine++`. -/
def nextLine (c : DirChannel) : DirChannel := { c with headerLine := (c.headerLine + 1) % 256 }

/- The next entry that is shown. Behind the last one the directory starts over. -/
def nextVisible (all : List DirFile) : List DirFile → Option DirFile × List DirFile
  | [] => (none, all)
  | e :: rest => if e.visible then (some e, rest) else nextVisible all rest

def headerChunk (c : DirChannel) : DirChannel :=
  { (c.lay 0 ([0x01, 0x08, 1, 1, c.dir.media_partition, 0] ++ headerText c.dir c.build ++ [0])).nextLine with len := 32 }

def infoChunk (c : DirChannel) (header : Str) : DirChannel :=
  { (((c.lay 0 [1, 1, 0, 0]).strcpy 4 (infoText header)).lay 31 [0]).nextLine with len := 32 }

def footerChunk (c : DirChannel) : DirChannel :=
  if c.dir.media_partition ≠ 0xFF then
    let text := freeText c.dir c.build
    { (((c.lay 0 ([1, 1] ++ number (freeBlocks c.dir c.build))).strcpy 4 text).lay (4 + text.length)
        (List.replicate (29 - (4 + text.length)) 0x20)).lay 29 [0, 0, 0] with len := 32, headerLine := 0xFF }
  else { c.lay 0 [0, 0] with len := 2, headerLine := 0xFF }

/-- `readBufferData`, on the buffer that `read` has emptied. -/
def readBufferData (c : DirChannel) : DirChannel :=
  if c.headerLine = 1 then c.headerChunk
  else
    -- a line number below 2 is negative here, and large once it is compared
    match (if 2 ≤ c.headerLine then c.headers[c.headerLine - 2]? else none) with
    | some header => c.infoChunk header
    | none =>
      if c.headerLine < 0xFF then
        match nextVisible c.dir.entries c.rest with
        | (some e, rest) =>
          { c.lay c.len (entryLine c.dir c.build e) with rest := rest, len := c.len + (entryLine c.dir c.build e).length }
        | (none, rest) => { c with rest := rest }.footerChunk
      else c

/- The next chunk, and the channel behind it. -/
def refill (c : DirChannel) : DirChannel := { c with len := 0 }.readBufferData

def chunk (c : DirChannel) : List UInt8 := Store.read c.refill.mem 0 c.refill.len

/-- The chunks that one call after the other returns, up to an empty one. -/
def Produces : DirChannel → List (List UInt8) → Prop
  | c, [] => c.chunk = []
  | c, b :: chunks => b ≠ [] ∧ c.chunk = b ∧ Produces c.refill chunks

/-- A channel that has just been opened. -/
def opened (dir : Dir) (build : Build) (mem : Nat → UInt8) : DirChannel where
  dir := dir
  build := build
  headers := dir.headers build
  rest := dir.entries
  mem := mem

end DirChannel

/-- A line of a BASIC program: a link, a number, a text and a zero byte. -/
def IsLine (line : List UInt8) : Prop :=
  ∃ a b x y text, line = [a, b, x, y] ++ text ++ [0] ∧ ¬ (a = 0 ∧ b = 0) ∧ 0 ∉ text

theorem isLine_iff (x y : UInt8) (text : List UInt8) : IsLine ([1, 1, x, y] ++ text ++ [0]) ↔ 0 ∉ text := by
  constructor
  · rintro ⟨a, b, x', y', text', same, -, clean⟩
    have tails : text ++ [0] = text' ++ [0] := by
      simp only [List.cons_append, List.nil_append, List.cons.injEq] at same
      exact same.2.2.2.2
    rw [List.append_cancel_right tails]
    exact clean
  · exact fun clean => ⟨1, 1, x, y, text, rfl, by decide, clean⟩

namespace DirChannel

/- Bytes that have been laid are there. -/
theorem lay_read (c : DirChannel) (bytes : List UInt8) : Store.read (c.lay 0 bytes).mem 0 bytes.length = bytes :=
  Store.read_put_same c.mem 0 bytes

theorem field_length (text : Str) (n : Nat) : (field text n).length = n := by
  unfold field
  rw [List.length_append, List.length_take, List.length_replicate]
  omega

theorem headerText_length (d : Dir) (build : Build) : (headerText d build).length = 25 := by
  unfold headerText
  simp only [List.length_cons, List.length_append, field_length, List.length_nil]

theorem infoText_length {header : Str} (typed : 3 ≤ header.length) : (infoText header).length = 27 := by
  unfold infoText
  simp only [List.length_append, List.length_cons, List.length_nil, List.length_replicate, List.length_take, List.length_drop]
  omega

/- The lines as they are sent. -/
def headerLineOf (d : Dir) (build : Build) : List UInt8 := [1, 1, d.media_partition, 0] ++ headerText d build ++ [0]
def infoLine (header : Str) : List UInt8 := [1, 1, 0, 0] ++ infoText header ++ [0]

theorem headerChunk_read (c : DirChannel) :
    Store.read c.headerChunk.mem 0 c.headerChunk.len = [0x01, 0x08] ++ headerLineOf c.dir c.build := by
  have length : ([0x01, 0x08, 1, 1, c.dir.media_partition, 0] ++ headerText c.dir c.build ++ [0]).length = 32 := by
    rw [List.length_append, List.length_append, headerText_length]
    rfl
  have read := lay_read c ([0x01, 0x08, 1, 1, c.dir.media_partition, 0] ++ headerText c.dir c.build ++ [0])
  rw [length] at read
  exact read

/- The part of an info chunk between the number and the last byte. -/
def infoMiddle (c : DirChannel) (header : Str) : List UInt8 :=
  Store.read ((c.lay 0 [1, 1, 0, 0]).strcpy 4 (infoText header)).mem 4 27

theorem infoChunk_read (c : DirChannel) (header : Str) :
    Store.read (c.infoChunk header).mem 0 (c.infoChunk header).len = [1, 1, 0, 0] ++ c.infoMiddle header ++ [0] := by
  have whole : (c.infoChunk header).len = 4 + 27 + 1 := rfl
  have start : Store.read (Store.put (Store.put (Store.put c.mem 0 [1, 1, 0, 0]) 4 ((infoText header).takeWhile (· ≠ 0) ++ [0]))
      31 [0]) 0 4 = [1, 1, 0, 0] := by
    rw [Store.read_put_disjoint _ _ _ _ _ (.inl (by omega)), Store.read_put_disjoint _ _ _ _ _ (.inl (by omega))]
    exact Store.read_put_same c.mem 0 [1, 1, 0, 0]
  have middle : Store.read (Store.put (Store.put (Store.put c.mem 0 [1, 1, 0, 0]) 4 ((infoText header).takeWhile (· ≠ 0) ++ [0]))
      31 [0]) 4 27 = c.infoMiddle header :=
    Store.read_put_disjoint _ _ _ _ _ (.inl (by omega))
  have last := Store.read_put_same (Store.put (Store.put c.mem 0 [1, 1, 0, 0]) 4
    ((infoText header).takeWhile (· ≠ 0) ++ [0])) 31 [(0 : UInt8)]
  rw [whole, Store.read_add, Store.read_add]
  exact congrArg₂ (· ++ ·) (congrArg₂ (· ++ ·) start middle) last

/- What a chunk leaves of the channel. -/
theorem infoChunk_frame (c : DirChannel) (header : Str) :
    (c.infoChunk header).dir = c.dir ∧ (c.infoChunk header).build = c.build ∧ (c.infoChunk header).headers = c.headers ∧
      (c.infoChunk header).headerLine = (c.headerLine + 1) % 256 ∧ (c.infoChunk header).rest = c.rest := by
  simp only [infoChunk, nextLine, strcpy, lay, and_self]

theorem takeWhile_clean {text : Str} (clean : 0 ∉ text) : text.takeWhile (· ≠ 0) = text := by
  rw [List.takeWhile_eq_self_iff]
  intro b member
  simpa using fun zero : b = 0 => clean (zero ▸ member)

/- A zero byte in the text ends the copy. -/
theorem infoMiddle_clean (c : DirChannel) {header : Str} (typed : 3 ≤ header.length) :
    (0 ∉ c.infoMiddle header ↔ 0 ∉ infoText header) ∧
      (0 ∉ infoText header → c.infoMiddle header = infoText header) := by
  have length := infoText_length typed
  generalize buffer : Store.put c.mem 0 [1, 1, 0, 0] = mem
  have middle : c.infoMiddle header = Store.read (Store.put mem 4 ((infoText header).takeWhile (· ≠ 0) ++ [0])) 4 27 := by
    simp only [infoMiddle, strcpy, lay, buffer]
  have same : 0 ∉ infoText header → c.infoMiddle header = infoText header := by
    intro clean
    have read := Store.read_put_same mem 4 (infoText header ++ [0])
    rw [List.length_append, length, Store.read_add] at read
    rw [middle, takeWhile_clean clean]
    exact List.append_inj_left read (by rw [Store.length_read, length])
  refine ⟨⟨fun clean zero => ?_, fun clean => by rw [same clean]; exact clean⟩, same⟩
  -- the terminator of the copy is inside
  have short : ((infoText header).takeWhile (· ≠ 0)).length < 27 := by
    rw [← length]
    apply Nat.lt_of_le_of_ne (List.takeWhile_sublist _).length_le
    intro full
    have whole := (@List.takeWhile_prefix _ (infoText header) (· ≠ 0)).eq_of_length full
    rw [List.takeWhile_eq_self_iff] at whole
    simpa using whole 0 zero
  apply clean
  have there : (c.infoMiddle header)[((infoText header).takeWhile (· ≠ 0)).length]? = some 0 := by
    have copied := Store.put_getD mem 4 ((infoText header).takeWhile (· ≠ 0) ++ [0])
      ((infoText header).takeWhile (· ≠ 0)).length 1 (by simp)
    rw [List.getD_append_right _ _ _ _ (Nat.le_refl _), Nat.sub_self] at copied
    rw [middle]
    exact (Store.getElem?_read _ _ _ _ short).trans (congrArg some copied)
  exact List.mem_of_getElem? there

/- The footer, and the end of the program. -/
def footerLine (d : Dir) (build : Build) : List UInt8 :=
  if d.media_partition ≠ 0xFF then
    [1, 1] ++ number (freeBlocks d build) ++ field (freeText d build) 25 ++ [0]
  else []

theorem freeText_facts (d : Dir) (build : Build) : (freeText d build).length ≤ 25 ∧ 0 ∉ freeText d build := by
  unfold freeText
  obtain ⟨short, clean⟩ := d.bytesFree.property
  split
  · decide
  · constructor
    · rw [List.length_append, List.length_append]
      show 2 + d.bytesFree.val.length + 11 ≤ 25
      omega
    · simp only [List.mem_append, not_or]
      exact ⟨⟨by decide, clean⟩, by decide⟩

theorem footerLine_isLine (d : Dir) (build : Build) :
    footerLine d build = [] ∨ IsLine (footerLine d build) := by
  unfold footerLine
  split
  · right
    refine (isLine_iff _ _ _).mpr ?_
    unfold field
    rw [List.mem_append, not_or]
    refine ⟨fun zero => (freeText_facts d build).2 (List.mem_of_mem_take zero), fun zero => ?_⟩
    exact absurd (List.eq_of_mem_replicate zero) (by decide)
  · exact .inl rfl

theorem footerChunk_read (c : DirChannel) :
    Store.read c.footerChunk.mem 0 c.footerChunk.len = footerLine c.dir c.build ++ [0, 0] := by
  unfold footerChunk footerLine
  split
  · obtain ⟨short, clean⟩ := freeText_facts c.dir c.build
    have whole : (freeText c.dir c.build).takeWhile (· ≠ 0) = freeText c.dir c.build := takeWhile_clean clean
    generalize freeText c.dir c.build = text at short whole
    let m₁ := Store.put c.mem 0 ([1, 1] ++ number (freeBlocks c.dir c.build))
    let m₂ := Store.put m₁ 4 (text ++ [0])
    let m₃ := Store.put m₂ (4 + text.length) (List.replicate (29 - (4 + text.length)) 0x20)
    have first : Store.read m₁ 0 4 = [1, 1] ++ number (freeBlocks c.dir c.build) :=
      Store.read_put_same c.mem 0 ([1, 1] ++ number (freeBlocks c.dir c.build))
    have second : Store.read m₂ 0 (4 + text.length) = [1, 1] ++ number (freeBlocks c.dir c.build) ++ text := by
      have copied := Store.read_put_behind m₁ 0 4 (text ++ [0])
      rw [List.length_append, ← Nat.add_assoc, Store.read_add, first, Nat.zero_add, ← List.append_assoc] at copied
      exact List.append_inj_left copied (by simp [number]; omega)
    have third : Store.read m₃ 0 29 = [1, 1] ++ number (freeBlocks c.dir c.build) ++ field text 25 := by
      have padded := Store.read_put_behind m₂ 0 (4 + text.length) (List.replicate (29 - (4 + text.length)) 0x20)
      have length : 4 + text.length + (29 - (4 + text.length)) = 29 := by omega
      rw [List.length_replicate, length, second, Nat.zero_add] at padded
      rw [padded, List.append_assoc]
      unfold field
      rw [List.take_of_length_le short, show 29 - (4 + text.length) = 25 - text.length by omega]
    have last := Store.read_put_behind m₃ 0 29 [(0 : UInt8), 0, 0]
    rw [third] at last
    show Store.read (Store.put (Store.put (Store.put m₁ 4 (text.takeWhile (· ≠ 0) ++ [0])) (4 + text.length)
      (List.replicate (29 - (4 + text.length)) 0x20)) 29 [0, 0, 0]) 0 32 = _
    rw [whole, List.append_assoc _ [0] [0, 0]]
    exact last
  · exact Store.read_put_same c.mem 0 [0, 0]

/- Where a channel stands. -/
structure At (d : Dir) (build : Build) (line : Nat) (rest : List DirFile) (c : DirChannel) : Prop where
  dir : c.dir = d
  built : c.build = build
  headers : c.headers = d.headers build
  line : c.headerLine = line
  rest : c.rest = rest

section phases

variable {d : Dir} {build : Build} {line : Nat} {rest : List DirFile} {c : DirChannel}

theorem opened_at (d : Dir) (build : Build) (mem : Nat → UInt8) : At d build 1 d.entries (opened d build mem) :=
  ⟨rfl, rfl, rfl, rfl, rfl⟩

theorem At.header (here : At d build 1 rest c) :
    c.chunk = [0x01, 0x08] ++ headerLineOf d build ∧ At d build 2 rest c.refill := by
  have turn : c.refill = { c with len := 0 }.headerChunk := if_pos here.line
  constructor
  · rw [chunk, turn, headerChunk_read]
    show _ ++ headerLineOf c.dir c.build = _
    rw [here.dir, here.built]
  · rw [turn]
    exact ⟨here.dir, here.built, here.headers, by show (c.headerLine + 1) % 256 = 2; rw [here.line], here.rest⟩

/- How an info line is related to its header. -/
def Shows (header : Str) (info : List UInt8) : Prop :=
  info.length = 32 ∧ (IsLine info ↔ 0 ∉ infoText header)

theorem Shows.sent {header : Str} {info : List UInt8} (shows_it : Shows header info) : info ≠ [] :=
  List.ne_nil_of_length_pos (by rw [shows_it.1]; decide)

theorem At.info {k : Nat} {header : Str} (here : At d build (k + 2) rest c) (there : (d.headers build)[k]? = some header)
    (typed : 3 ≤ header.length) :
    Shows header c.chunk ∧ At d build ((k + 3) % 256) rest c.refill := by
  have turn : c.refill = { c with len := 0 }.infoChunk header := by
    unfold refill readBufferData
    have second : c.headerLine - 2 = k := by rw [here.line]; omega
    have behind : ¬ c.headerLine = 1 := by rw [here.line]; omega
    have more : 2 ≤ c.headerLine := by rw [here.line]; omega
    rw [if_neg behind, if_pos more]
    show (match c.headers[c.headerLine - 2]? with | some header => _ | none => _) = _
    rw [second, here.headers, there]
  constructor
  · rw [chunk, turn, infoChunk_read]
    have length : (infoMiddle { c with len := 0 } header).length = 27 := Store.length_read ..
    exact ⟨by simp [length], (isLine_iff 0 0 _).trans (infoMiddle_clean _ typed).1⟩
  · obtain ⟨dir, build, headers, line, rest⟩ := infoChunk_frame { c with len := 0 } header
    rw [turn]
    refine ⟨dir.trans here.dir, build.trans here.built, headers.trans here.headers, line.trans ?_, rest.trans here.rest⟩
    rw [here.line]

/- Behind the info lines. -/
def Behind (d : Dir) (build : Build) (line : Nat) : Prop :=
  line < 255 ∧ (line = 0 ∨ (d.headers build).length + 2 ≤ line)

theorem At.behind {shown : Option DirFile} {rest' : List DirFile} (here : At d build line rest c)
    (behind : Behind d build line) (next : nextVisible d.entries rest = (shown, rest')) :
    c.refill = match shown with
      | some e => { c.lay 0 (entryLine d build e) with rest := rest', len := (entryLine d build e).length }
      | none => { c with rest := rest', len := 0 }.footerChunk := by
  obtain ⟨rfl, rfl, headers, rfl, rfl⟩ := here
  have past : (if 2 ≤ c.headerLine then c.headers[c.headerLine - 2]? else none) = none := by
    rw [headers]
    rcases behind.2 with zero | far
    · rw [zero]
      rfl
    · rw [if_pos (by omega)]
      exact List.getElem?_eq_none (by omega)
  have first : ¬ c.headerLine = 1 := by
    rcases behind.2 with zero | far <;> omega
  unfold refill readBufferData
  rw [if_neg first]
  show (match (if 2 ≤ c.headerLine then c.headers[c.headerLine - 2]? else none) with | some header => _ | none => _) = _
  rw [past]
  show (if c.headerLine < 0xFF then _ else _) = _
  rw [if_pos behind.1]
  cases shown with
  | none => simp only [next]
  | some e =>
    simp only [next, Nat.zero_add]
    rfl

theorem At.entry {e : DirFile} {rest' : List DirFile} (here : At d build line rest c) (behind : Behind d build line)
    (next : nextVisible d.entries rest = (some e, rest')) :
    c.chunk = entryLine d build e ∧ At d build line rest' c.refill := by
  have turn := here.behind behind next
  constructor
  · rw [chunk, turn]
    exact lay_read c (entryLine d build e)
  · rw [turn]
    exact ⟨here.dir, here.built, here.headers, here.line, rfl⟩

theorem At.footer {rest' : List DirFile} (here : At d build line rest c) (behind : Behind d build line)
    (next : nextVisible d.entries rest = (none, rest')) :
    c.chunk = footerLine d build ++ [0, 0] ∧ At d build 255 rest' c.refill := by
  have turn := here.behind behind next
  constructor
  · rw [chunk, turn]
    refine (footerChunk_read _).trans ?_
    show footerLine c.dir c.build ++ _ = _
    rw [here.dir, here.built]
  · rw [turn]
    show At d build 255 rest' { c with rest := rest', len := 0 }.footerChunk
    unfold footerChunk
    split <;> exact ⟨here.dir, here.built, here.headers, rfl, rfl⟩

/- With the line number used up, nothing comes any more. -/
theorem At.ended (here : At d build 255 rest c) (few : (d.headers build).length ≤ 253) : c.chunk = [] := by
  have turn : c.refill = { c with len := 0 } := by
    unfold refill readBufferData
    have first : ¬ c.headerLine = 1 := by rw [here.line]; decide
    have past : (if 2 ≤ c.headerLine then c.headers[c.headerLine - 2]? else none) = none := by
      rw [here.headers, here.line]
      exact List.getElem?_eq_none few
    have last : ¬ c.headerLine < 0xFF := by rw [here.line]; decide
    rw [if_neg first]
    show (match (if 2 ≤ c.headerLine then c.headers[c.headerLine - 2]? else none) with | some header => _ | none => _) = _
    rw [past]
    exact if_neg last
  rw [chunk, turn]
  rfl

end phases

/- ## The program -/

theorem Produces.unique {c : DirChannel} {chunks chunks' : List (List UInt8)} (all : Produces c chunks)
    (all' : Produces c chunks') : chunks = chunks' := by
  induction chunks generalizing c chunks' with
  | nil =>
    cases chunks' with
    | nil => rfl
    | cons b' chunks' => exact absurd (all'.2.1.symm.trans all) all'.1
  | cons b chunks ih =>
    cases chunks' with
    | nil => exact absurd (all.2.1.symm.trans all') all.1
    | cons b' chunks' => rw [all.2.1.symm.trans all'.2.1, ih all.2.2 all'.2.2]

theorem nextVisible_cons (all : List DirFile) {rest shown : List DirFile} {e : DirFile} (visible : rest.filter DirFile.visible = e :: shown) :
    ∃ rest', nextVisible all rest = (some e, rest') ∧ rest'.filter DirFile.visible = shown := by
  induction rest with
  | nil => cases visible
  | cons e' rest ih =>
    by_cases here : e'.visible
    · rw [List.filter_cons_of_pos here] at visible
      injection visible with same others
      exact ⟨rest, by rw [nextVisible, if_pos here, same], others⟩
    · rw [List.filter_cons_of_neg here] at visible
      rw [nextVisible, if_neg here]
      exact ih visible

theorem nextVisible_nil {all rest : List DirFile} (hidden : rest.filter DirFile.visible = []) :
    nextVisible all rest = (none, all) := by
  induction rest with
  | nil => rfl
  | cons e rest ih =>
    rw [List.filter_eq_nil_iff] at hidden
    rw [nextVisible, if_neg (hidden e List.mem_cons_self)]
    exact ih (List.filter_eq_nil_iff.mpr fun e member => hidden e (List.mem_cons_of_mem _ member))

def shown (d : Dir) : List DirFile := d.entries.filter DirFile.visible

section whole

variable {d : Dir} {build : Build} {line : Nat} {rest : List DirFile} {c : DirChannel}

/- Every header line has a type before its name. -/
theorem cells_typed (n : Nat) (text : Str) : ∀ header ∈ Dir.cells n text, 4 ≤ header.length ∧ 0 ∉ header.take 3 := by
  induction n generalizing text with
  | zero => exact fun header member => nomatch member
  | succ n ih =>
    intro header member
    rw [Dir.cells] at member
    split at member
    · cases member
    · rcases List.mem_cons.mp member with rfl | later
      · exact ⟨by simp [Dir.NFO], by simp [Dir.NFO]⟩
      · exact ih _ header later

theorem addExtraInfo_typed (title text : Str) :
    ∀ header ∈ Dir.addExtraInfo title text, 4 ≤ header.length ∧ 0 ∉ header.take 3 := by
  intro header member
  rcases List.mem_cons.mp member with rfl | later
  · exact ⟨by simp [Dir.NFO], by simp [Dir.NFO]⟩
  · exact cells_typed _ _ header later

theorem headers_typed (d : Dir) (build : Build) : ∀ header ∈ d.headers build, 4 ≤ header.length ∧ 0 ∉ header.take 3 := by
  have extra : ∀ (p : Prop) [Decidable p] (title text : Str), ∀ header ∈ (if p then Dir.addExtraInfo title text else []),
      4 ≤ header.length ∧ 0 ∉ header.take 3 := by
    intro p _ title text header member
    split at member
    · exact addExtraInfo_typed _ _ header member
    · cases member
  have info : ∀ header ∈ d.info, 4 ≤ header.length ∧ 0 ∉ header.take 3 := by
    intro header member
    simp only [Dir.info, List.mem_append] at member
    rcases member with (((one | two) | three) | four) | five
    exacts [extra _ _ _ _ one, extra _ _ _ _ two, extra _ _ _ _ three, extra _ _ _ _ four, extra _ _ _ _ five]
  intro header member
  simp only [Dir.headers, List.mem_append] at member
  rcases member with (member | member) | member
  · exact info header member
  · split at member
    · cases member
    · rw [List.mem_singleton.mp member]
      decide
  · split at member
    · rcases List.mem_append.mp member with member | member
      · split at member
        · rw [List.mem_singleton.mp member]
          decide
        · cases member
      · split at member
        · cases member
        · rw [List.mem_singleton.mp member]
          decide
    · cases member

/- The entries that are shown, one chunk each, and the end. -/
theorem At.produces_entries (few : (d.headers build).length ≤ 253) (behind : Behind d build line)
    (here : At d build line rest c) :
    Produces c ((rest.filter DirFile.visible).map (entryLine d build) ++ [footerLine d build ++ [0, 0]]) := by
  generalize visible : rest.filter DirFile.visible = shown
  induction shown generalizing rest c with
  | nil =>
    obtain ⟨sent, next⟩ := here.footer behind (nextVisible_nil visible)
    exact ⟨by simp, sent, next.ended few⟩
  | cons e shown ih =>
    obtain ⟨rest', step, others⟩ := nextVisible_cons d.entries visible
    obtain ⟨sent, next⟩ := here.entry behind step
    exact ⟨by simp [entryLine], sent, ih next others⟩

/- The info lines that are left, and what comes then. -/
theorem At.produces_infos {tail : List (List UInt8)} (few : (d.headers build).length ≤ 253)
    (last : ∀ c, At d build ((d.headers build).length + 2) rest c → Produces c tail) (left : List Str) {k : Nat}
    (from_k : (d.headers build).drop k = left) (here : At d build (k + 2) rest c) (inside : k ≤ (d.headers build).length) :
    ∃ infos, Produces c (infos ++ tail) ∧ List.Forall₂ Shows left infos := by
  induction left generalizing k c with
  | nil =>
    have exceeds := List.drop_eq_nil_iff.mp from_k
    have place : k = (d.headers build).length := Nat.le_antisymm inside exceeds
    exact ⟨[], last c (place ▸ here), .nil⟩
  | cons header left ih =>
    have there : (d.headers build)[k]? = some header := by
      rw [← List.head?_drop, from_k]
      rfl
    have within : k < (d.headers build).length := (List.getElem?_eq_some_iff.mp there).1
    have typed := headers_typed d build header (List.mem_of_getElem? there)
    obtain ⟨info, next⟩ := here.info there (by omega)
    rw [Nat.mod_eq_of_lt (by omega)] at next
    have others : (d.headers build).drop (k + 1) = left := by
      rw [← List.drop_drop, from_k]
      rfl
    obtain ⟨infos, produced, shows_them⟩ := ih others next within
    exact ⟨c.chunk :: infos, ⟨info.sent, rfl, produced⟩, .cons info shows_them⟩

/- With one line more, the line number runs out before the entries. -/
theorem opened_produces (mem : Nat → UInt8) (few : (d.headers build).length ≤ 253) :
    ∃ infos, List.Forall₂ Shows (d.headers build) infos ∧
      Produces (opened d build mem) (([0x01, 0x08] ++ headerLineOf d build) :: (infos ++
        if (d.headers build).length ≤ 252 then (shown d).map (entryLine d build) ++ [footerLine d build ++ [0, 0]] else [])) := by
  obtain ⟨sent, next⟩ := (opened_at d build mem).header
  have last : ∀ c, At d build ((d.headers build).length + 2) d.entries c → Produces c (if (d.headers build).length ≤ 252 then
      (shown d).map (entryLine d build) ++ [footerLine d build ++ [0, 0]] else []) := by
    intro c here
    split
    · exact here.produces_entries few ⟨by omega, .inr (Nat.le_refl _)⟩
    · have full : (d.headers build).length + 2 = 255 := by omega
      rw [full] at here
      exact here.ended few
  have start : (d.headers build).drop 0 = d.headers build := rfl
  obtain ⟨infos, produced, shows_them⟩ := next.produces_infos few last _ start (Nat.zero_le _)
  exact ⟨infos, shows_them, by simp, sent, produced⟩

/- With two more, it wraps, and there is always something to send. -/
theorem At.more (many : 254 ≤ (d.headers build).length) (here : At d build line rest c) (byte : line < 256) :
    c.chunk ≠ [] ∧ ∃ line' rest', At d build line' rest' c.refill ∧ line' < 256 := by
  rcases Nat.lt_trichotomy line 1 with zero | rfl | above
  · have behind : Behind d build line := ⟨by omega, .inl (by omega)⟩
    rcases step : nextVisible d.entries rest with ⟨_ | e, rest'⟩
    · obtain ⟨sent, next⟩ := here.footer behind step
      exact ⟨by rw [sent]; simp, _, _, next, by decide⟩
    · obtain ⟨sent, next⟩ := here.entry behind step
      exact ⟨by rw [sent]; simp [entryLine], _, _, next, byte⟩
  · obtain ⟨sent, next⟩ := here.header
    exact ⟨by rw [sent]; simp, _, _, next, by decide⟩
  · obtain ⟨k, rfl⟩ : ∃ k, line = k + 2 := ⟨line - 2, by omega⟩
    have inside : k < (d.headers build).length := by omega
    have there := List.getElem?_eq_getElem inside
    have typed := headers_typed d build _ (List.mem_of_getElem? there)
    obtain ⟨info, next⟩ := here.info there (by omega)
    exact ⟨info.sent, _, _, next, Nat.mod_lt _ (by decide)⟩

theorem At.endless (many : 254 ≤ (d.headers build).length) (here : At d build line rest c) (byte : line < 256)
    (chunks : List (List UInt8)) : ¬ Produces c chunks := by
  induction chunks generalizing c line rest with
  | nil => exact (here.more many byte).1
  | cons b chunks ih =>
    rintro ⟨-, -, others⟩
    obtain ⟨-, line', rest', next, byte'⟩ := here.more many byte
    exact ih next byte' others

/- ## What the texts of the lines hold -/

theorem field_clean {text : Str} {n : Nat} : 0 ∉ field text n ↔ 0 ∉ text.take n := by
  simp [field]

theorem headerLineOf_isLine : IsLine (headerLineOf d build) ↔
    0 ∉ (headerName d build).take 16 ∧ 0 ∉ (headerId d build).take 5 := by
  refine (isLine_iff _ _ _).trans ?_
  rw [← field_clean, ← field_clean]
  simp [headerText, quote]

theorem infoText_clean {header : Str} (typed : 0 ∉ header.take 3) : 0 ∉ infoText header ↔ 0 ∉ (header.drop 4).take 16 := by
  simp [infoText, quote, typed]

theorem padding_clean (blocks : Nat) : 0 ∉ padding blocks := by
  simp [padding]

theorem entryLine_isLine (e : DirFile) : IsLine (entryLine d build e) ↔
    0 ∉ entryName d build e ∧ 0 ∉ entryType d build e := by
  refine (isLine_iff _ _ _).trans ?_
  simp [entryText, padding_clean, quote]

/- The name of an entry that is not on a disk of the computer. -/
theorem entryName_host {e : DirFile} (host : d.isCBM = false) (same : e.pathInStream = e.name) :
    entryName d build e = toPETSCII2 (build.encodeACE e.name) := by
  unfold entryName
  rw [same, ite_self, host]
  rfl

theorem entryType_length (e : DirFile) : (entryType d build e).length = 5 := by
  unfold entryType
  generalize (if e.extension.head? = some 0x5f then [] else e.extension) = ext
  split
  · exact field_length ext 5
  · dsimp only
    rw [List.length_append, List.length_append]
    split
    · rw [field_length]
      rfl
    · split <;> rfl

theorem entryLine_length (e : DirFile) : (entryLine d build e).length =
    13 + (padding (e.blocks % 65536)).length + max (entryName d build e).length 16 := by
  simp only [entryLine, entryText, number, List.length_append, List.length_cons, List.length_nil, List.length_replicate,
    entryType_length]
  omega

theorem footerLine_length : (footerLine d build).length ≤ 30 := by
  unfold footerLine
  split
  · simp [number, field_length]
  · exact Nat.zero_le _

end whole

/-- What is sent between opening the directory and the end is a program that the buffer holds chunk
by chunk: the load address, one line for the header, one for each line of information and one for
each entry that is shown, perhaps a footer, and a zero link. -/
def Lists (d : Dir) (build : Build) (mem : Nat → UInt8) : Prop :=
  ∃ first infos footer,
    let chunks := ([0x01, 0x08] ++ first) :: (infos ++ ((shown d).map (entryLine d build) ++ [footer ++ [0, 0]]))
    Produces (opened d build mem) chunks ∧ (∀ chunk ∈ chunks, chunk.length ≤ BUFFER_SIZE) ∧
    infos.length = (d.headers build).length ∧
    IsLine first ∧ (∀ info ∈ infos, IsLine info) ∧ (∀ e ∈ shown d, IsLine (entryLine d build e)) ∧
    (footer = [] ∨ IsLine footer)

/- The lines of information are fewer than the line number can count, no text that is converted has
a zero byte where it is copied, and no name is too long for the buffer. -/
structure Sendable (d : Dir) (build : Build) : Prop where
  few : (d.headers build).length ≤ 252
  header : 0 ∉ (headerName d build).take 16
  id : 0 ∉ (headerId d build).take 5
  infos : ∀ header ∈ d.headers build, 0 ∉ (header.drop 4).take 16
  entries : ∀ e ∈ shown d, 0 ∉ entryName d build e ∧ 0 ∉ entryType d build e
  short : ∀ e ∈ shown d, (padding (e.blocks % 65536)).length + (entryName d build e).length ≤ 499

theorem Lists.sendable {d : Dir} {build : Build} {mem : Nat → UInt8} (lists : Lists d build mem) : Sendable d build := by
  obtain ⟨first, infos, footer, produced, fit, count, line, infoLines, entryLines, -⟩ := lists
  have bounded : (d.headers build).length ≤ 253 := by
    by_contra many
    exact (opened_at d build mem).endless (by omega) (by decide) _ produced
  obtain ⟨infos', shows_them, produced'⟩ := opened_produces mem bounded
  have same := produced.unique produced'
  injection same with same₁ same₂
  have count' := shows_them.length_eq
  obtain ⟨rfl, tails⟩ := List.append_inj same₂ (by rw [count, count'])
  have few : (d.headers build).length ≤ 252 := by
    by_contra full
    rw [if_neg full] at tails
    simp at tails
  have top : first = headerLineOf d build := List.append_cancel_left same₁
  have header := headerLineOf_isLine.mp (top ▸ line)
  constructor
  · exact few
  · exact header.1
  · exact header.2
  · intro text member
    obtain ⟨n, inside, rfl⟩ := List.getElem_of_mem member
    have info := shows_them.get inside (count'.symm ▸ inside)
    rw [← infoText_clean (headers_typed d build _ member).2]
    exact info.2.mp (infoLines _ (List.getElem_mem (count'.symm ▸ inside)))
  · exact fun e member => (entryLine_isLine e).mp (entryLines e member)
  · intro e member
    have length := fit (entryLine d build e) (by
      refine List.mem_cons_of_mem _ (List.mem_append_right _ (List.mem_append_left _ (List.mem_map_of_mem member))))
    rw [entryLine_length] at length
    change _ ≤ 512 at length
    omega

theorem Sendable.lists {d : Dir} {build : Build} (sendable : Sendable d build) (mem : Nat → UInt8) : Lists d build mem := by
  obtain ⟨infos, shows_them, produced⟩ := opened_produces mem (Nat.le_succ_of_le sendable.few)
  rw [if_pos sendable.few] at produced
  have infos_show : ∀ info ∈ infos, ∃ header ∈ d.headers build, Shows header info := by
    intro info member
    obtain ⟨n, inside, rfl⟩ := List.getElem_of_mem member
    have inside' : n < (d.headers build).length := by rw [shows_them.length_eq]; exact inside
    exact ⟨_, List.getElem_mem inside', shows_them.get inside' inside⟩
  refine ⟨headerLineOf d build, infos, footerLine d build, produced, ?_, shows_them.length_eq.symm,
    headerLineOf_isLine.mpr ⟨sendable.header, sendable.id⟩, ?_, fun e member => (entryLine_isLine e).mpr (sendable.entries e member),
    footerLine_isLine d build⟩
  · intro chunk member
    show chunk.length ≤ 512
    simp only [List.mem_cons, List.mem_append, List.mem_map, List.not_mem_nil, or_false] at member
    rcases member with rfl | info | ⟨e, shown, rfl⟩ | rfl
    · simp [headerLineOf, headerText_length]
    · obtain ⟨header, -, shows_it⟩ := infos_show chunk info
      rw [shows_it.1]
      decide
    · have short := sendable.short e shown
      have pad : (padding (e.blocks % 65536)).length ≤ 3 := by
        simp only [padding, List.length_replicate]
        split <;> split <;> split <;> decide
      rw [entryLine_length]
      omega
    · have length := @footerLine_length d build
      rw [List.length_append]
      show _ + 2 ≤ 512
      omega
  · intro info member
    obtain ⟨header, there, shows_it⟩ := infos_show info member
    exact shows_it.2.mpr ((infoText_clean (headers_typed d build header there).2).mpr (sendable.infos header there))

/-- A listing is a program exactly if everything in it can be sent. -/
theorem lists_iff (d : Dir) (build : Build) (mem : Nat → UInt8) : Lists d build mem ↔ Sendable d build :=
  ⟨Lists.sendable, fun sendable => sendable.lists mem⟩

/- Joined, the chunks are the load address, the lines one behind the other, and the zero link. -/
theorem Lists.joined {d : Dir} {build : Build} {mem : Nat → UInt8} (lists : Lists d build mem) :
    ∃ (chunks lines : List (List UInt8)), Produces (opened d build mem) chunks ∧ (∀ line ∈ lines, IsLine line) ∧
      chunks.flatten = [0x01, 0x08] ++ lines.flatten ++ [0, 0] := by
  obtain ⟨first, infos, footer, produced, -, -, line, infoLines, entryLines, footerLines⟩ := lists
  refine ⟨_, first :: (infos ++ ((shown d).map (entryLine d build) ++ if footer = [] then [] else [footer])), produced, ?_, ?_⟩
  · intro l member
    simp only [List.mem_cons, List.mem_append, List.mem_map] at member
    rcases member with rfl | info | ⟨e, shown, rfl⟩ | last
    · exact line
    · exact infoLines l info
    · exact entryLines e shown
    · split at last
      · cases last
      · rename_i more
        rw [List.mem_singleton.mp last]
        exact footerLines.resolve_left more
  · split
    · rename_i empty
      simp [empty]
    · simp

/- An entry with a name of 500 letters, in an archive. -/
def longEntry : DirFile where
  name := toUTF8 (List.replicate 500 0x41)
  extension := []
  pathInStream := toUTF8 (List.replicate 500 0x41)
  blocks := 1
  is_dir := false
  is_hidden := false

def aZip : Str := [0x61, 0x2e, 0x7a, 0x69, 0x70]

def longDir : Dir where
  scheme := []
  host := []
  path := slash :: aZip
  url := slash :: aZip
  pathInStream := []
  media_archive := aZip
  media_image := []
  media_header := []
  media_id := []
  media_partition := 0
  media_blocks_free := 0
  isCBM := false
  bytesFree := ⟨[0x31, 0x4d], by decide⟩
  blocksAvailable := 0
  entries := [longEntry]

/- A name of letters is left alone by the encoding. -/
def plainBuild : Build where
  encodeACE name := name
  dolphin := false
  minConfig := false
  sdRunning := true
  id := 8

theorem long_name_overruns : ¬ ∀ d build mem, Lists d build mem := by
  intro all
  have short := (all longDir plainBuild fun _ => 0).sendable.short longEntry (by
    refine List.mem_filter.mpr ⟨List.mem_singleton_self _, ?_⟩
    decide)
  have name : entryName longDir plainBuild longEntry = List.replicate 500 0x41 := by
    rw [entryName_host rfl rfl]
    show toPETSCII2 (toUTF8 (List.replicate 500 0x41)) = _
    rw [toPETSCII2_toUTF8, List.filter_replicate_of_pos (by decide)]
  rw [name, List.length_replicate] at short
  exact absurd short (by decide)

end DirChannel

end Meatloaf.Drive
