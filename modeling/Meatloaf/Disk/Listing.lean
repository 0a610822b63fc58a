import Meatloaf.Lib.Run
import Meatloaf.Disk.Lookup

/-! Directory listings of `D64MFile` while other requests use the stream that
`ImageBroker` shares per image. The place of a listing is kept in that stream: its
directory, its entry counter and the position of the container. -/
namespace Meatloaf.Disk

open Lib

namespace D64

/- `readHeader`: the 23 bytes of `header`, zero where nothing was read. -/
def readHeader (s : D64) : Bool × List UInt8 × D64 :=
  let q := s.seekSector s.geo.header_track s.geo.header_sector s.geo.header_offset
  if q.1 then
    let r := q.2.readContainer 23
    (!r.1.isEmpty, r.1 ++ List.replicate (23 - r.1.length) 0, r.2)
  else (false, List.replicate 23 0, q.2)

def resetEntryCounter (s : D64) : D64 := { s with entry_index := 0 }

/-- `getNextImageEntry`; the argument of `seekEntry` has 16 bits. -/
def getNextImageEntry (s : D64) : Bool × D64 := s.seekEntryAt ((s.entry_index + 1) % 65536)

/- "DEL", "SEQ", "PRG", "USR", "REL", "CBM", "DIR", "???". -/
def file_type_label : List Str :=
  [[0x44, 0x45, 0x4C], [0x53, 0x45, 0x51], [0x50, 0x52, 0x47], [0x55, 0x53, 0x52],
    [0x52, 0x45, 0x4C], [0x43, 0x42, 0x4D], [0x44, 0x49, 0x52], [0x3F, 0x3F, 0x3F]]

/- A splat file begins with '*', a locked one ends in '<'. -/
def decodeType (file_type : UInt8) : Str :=
  (if file_type >>> 7 &&& 1 = 0 then 0x2A else 0x20) :: file_type_label.getD (file_type &&& 0b111).toNat [] ++
    [if file_type >>> 6 &&& 1 = 0 then 0x20 else 0x3C]

def isDirectory (file_type : UInt8) : Bool := decide (0x04 < file_type &&& 0b111)

end D64

/-- What a listing returns for one entry. -/
structure DirEntry where
  url : Str
  name : Str
  extension : Str
  size : Nat
  is_dir : Bool
  is_hidden : Bool
  deriving DecidableEq

/- The container of the image, as far as `D64MFile` asks it. -/
structure SourceFile where
  exists_ : Bool
  media_archive : Str

/-- `D64MFile`; `is_dir` is `none` while it has not been cached. -/
structure D64MFile where
  url : Str
  pathInStream : Str
  name : Str
  sourceFile : Option SourceFile
  is_dir : Option Bool := none
  dirIsOpen : Bool := false
  media_header : Str := []
  media_id : Str := []
  media_blocks_free : Nat := 0
  media_block_size : Nat := 256
  media_image : Str := []
  media_archive : Str := []

namespace D64MFile

/- `format("%.16s", ..)`, `A02Space` and `toUTF8` of a header field. -/
def headerText (field : List UInt8) : Str :=
  toUTF8 ((field.takeWhile (· ≠ 0)).map fun c => if c = 0xA0 then 0x20 else c)

/-- `rewindDirectory` over the shared stream. It does not return where the walk to
the directory does not end, or where there is no source file to ask. -/
def rewindDirectory (m : D64MFile) (s : D64) : Option (Bool × D64MFile × D64) :=
  let h := s.readHeader
  (h.2.2.resetEntryCounter.seekDirectory m.pathInStream).bind fun d =>
    if d.1 then
      let b := d.2.blocksFree
      m.sourceFile.map fun source =>
        (true, { m with
          dirIsOpen := true
          media_header := headerText (h.2.1.take 16)
          media_id := headerText (h.2.1.drop 18)
          media_blocks_free := b.1
          media_block_size := block_size
          media_image := m.name
          media_archive := if source.media_archive = [] then m.media_archive else source.media_archive }, b.2)
    else some (false, { m with dirIsOpen := false }, d.2)

def entryUrlFor (m : D64MFile) (filename : Str) : Str :=
  m.url ++ (if m.pathInStream = [] then [] else slash :: m.pathInStream) ++ slash :: filename

/- The `MFile` handed out for the entry in the register of the stream. -/
def fileFor (m : D64MFile) (e : List UInt8) : DirEntry :=
  let filename := (entryName e).map fun c => if c = slash then backslash else c
  { url := m.entryUrlFor filename
    name := filename
    extension := D64.decodeType (fileType e)
    size := entryBlocks e * block_size
    is_dir := D64.isDirectory (fileType e)
    is_hidden := fileType e = 0 }

def getNextFileInDir (m : D64MFile) (s : D64) : Option (Option DirEntry × D64MFile × D64) :=
  (if m.dirIsOpen then some (true, m, s) else m.rewindDirectory s).map fun r =>
    if r.1 then
      let q := r.2.2.getNextImageEntry
      if q.1 then (some (r.2.1.fileFor q.2.entry), r.2.1, q.2)
      else (none, { r.2.1 with dirIsOpen := false }, q.2)
    else (none, r.2.1, r.2.2)

/- The root of the container. -/
def isRoot (m : D64MFile) : Bool := m.pathInStream == [] || m.pathInStream == [slash]

def isDirectory (m : D64MFile) (s : D64) : Option (Bool × D64) :=
  match m.is_dir with
  | some known => some (known, s)
  | none =>
    if m.isRoot then some (true, s)
    else (s.resolvePath m.pathInStream).map fun r => (r.1 == .dir, r.2)

def exists_ (m : D64MFile) (s : D64) : Option (Bool × D64) :=
  if m.isRoot then some ((m.sourceFile.map SourceFile.exists_).getD true, s)
  else (s.resolvePath m.pathInStream).map fun r => (r.1 != .notFound, r.2)

/- The call is answered without the stream. -/
def StaysOut (m : D64MFile) : Prop := m.isRoot = true

end D64MFile

/- What reaches the shared stream: the listing asks for its next entry, another
object of the same image is asked whether it exists or is a directory. -/
inductive Request where
  | next
  | exists_ (m : D64MFile)
  | isDirectory (m : D64MFile)

def Request.isNext : Request → Bool
  | .next => true
  | _ => false

/-- A listing and the stream it shares. -/
structure Listing where
  file : D64MFile
  image : D64
  returned : List DirEntry := []
  ended : Bool := false

namespace Listing

def serve (l : Listing) : Request → Option Listing
  | .next =>
    (l.file.getNextFileInDir l.image).map fun r =>
      match r.1 with
      | some e => ⟨r.2.1, r.2.2, l.returned ++ [e], false⟩
      | none => ⟨r.2.1, r.2.2, l.returned, true⟩
  | .exists_ m => (m.exists_ l.image).map fun r => { l with image := r.2 }
  | .isDirectory m => (m.isDirectory l.image).map fun r => { l with image := r.2 }

/-- One request. The listing is over with the first null, and stuck once a call does not
return. -/
def step (l : Option Listing) (q : Request) : Option Listing :=
  l.bind fun l => if l.ended then some l else l.serve q

/- What the caller of the listing has seen. -/
def seen (l : Option Listing) : Option (List DirEntry × Bool) := l.map fun l => (l.returned, l.ended)

end Listing

/- Directories, as functions of the image -/

namespace D64

/- The directory the stream is in. -/
def directory (s : D64) : Block :=
  if s.dir_track = 0 then s.geo.directoryStart else ⟨s.dir_track, s.dir_sector⟩

end D64

/-- A place in a directory: behind an entry, with the link of its sector. -/
structure Place where
  pos : Nat
  link : Block
  entry : List UInt8

def linkOf (e : List UInt8) : Block := ⟨(e.getD 0 0).toNat, (e.getD 1 0).toNat⟩

namespace Geometry

variable (g : Geometry) (d : Nat → UInt8) (size : Nat)

/- Start of a block, if the image has it. -/
def blockStart (b : Block) : Option Nat := (g.linearBlock b.track b.sector).map (· * block_size)

/- The place behind the entry at `a`, which starts a sector. -/
def firstPlace (a : Nat) : Option Place :=
  if a + 32 ≤ size then some ⟨a + 32, linkOf (Store.read d a 32), Store.read d a 32⟩ else none

def nextPlace (p : Place) : Option Place :=
  if p.pos + 32 ≤ size then some ⟨p.pos + 32, p.link, Store.read d p.pos 32⟩ else none

/-- The place behind entry `k` of the directory that starts at `dir`, where this entry and
all before it can be read in full. -/
def place (dir : Block) : Nat → Option Place
  | 0 => (g.blockStart dir).bind fun a => firstPlace d size (a + g.directory_offset)
  | k + 1 =>
    (place dir k).bind fun p =>
      if (k + 1) % 8 = 0 then
        if p.link.track = 0 then none else (g.blockStart p.link).bind (firstPlace d size)
      else nextPlace d size p

/-- Entry `k` is the first one in the directory that the name stands for. -/
def FirstMatch (dir : Block) (name : Str) (k : Nat) (p : Place) : Prop :=
  k < 65536 ∧ g.place d size dir k = some p ∧ liveMatch name p.entry = true ∧
    ∀ i < k, ∀ q, g.place d size dir i = some q → liveMatch name q.entry = false

/- An entry that holds a directory. -/
def isSubdirectory (e : List UInt8) : Bool := fileType e &&& 0b111 == 5 || fileType e &&& 0b111 == 6

/-- The name leads from `dir` into the directory `sub`. -/
def Enters (dir : Block) (name : Str) (sub : Block) : Prop :=
  ∃ k p a, g.FirstMatch d size dir name k p ∧ isSubdirectory p.entry = true ∧
    g.blockStart (startBlock p.entry) = some a ∧ a + 256 ≤ size ∧
    sub = linkOf (Store.read d a 256) ∧ sub.track ≠ 0

/-- The names lead from one directory to another. -/
inductive Leads : Block → List Str → Block → Prop
  | here (dir : Block) : Leads dir [] dir
  | into {dir sub target : Block} {name : Str} {names : List Str} :
    g.Enters d size dir name sub → Leads sub names target → Leads dir (name :: names) target

/-- The directory ends behind its first `n` entries. -/
def EndsAfter (dir : Block) (n : Nat) : Prop :=
  n < 65536 ∧ n % 8 = 0 ∧ (n = 0 → g.blockStart dir = none) ∧
    ∀ k, n = k + 1 → ∃ p, g.place d size dir k = some p ∧ (p.link.track = 0 ∨ g.blockStart p.link = none)

/- The first entry of the directory is inside the image, or there is none. -/
def Begins (dir : Block) : Prop := ∀ a, g.blockStart dir = some a → a + g.directory_offset + 32 ≤ size

end Geometry

namespace D64

/-- Looking up the path leaves the listing that stands in the stream where it is: the path
names the listed directory before the first entry, or the file returned last, or it is a
missing name in the listed directory after the last entry. -/
inductive KeepsPlace (s : D64) (path : Str) : Prop
  | start (named : s.geo.Leads s.container.data s.container.size s.geo.directoryStart (splitPathComponents path)
      s.directory)
    (fresh : s.entry_index = 0) (begins : s.geo.Begins s.container.size s.directory)
  | last (parents : List Str) (name : Str) (k : Nat) (p : Place)
    (parts : splitPathComponents path = parents ++ [name])
    (named : s.geo.Leads s.container.data s.container.size s.geo.directoryStart parents s.directory)
    (first : s.geo.FirstMatch s.container.data s.container.size s.directory name k p)
    (file : Geometry.isSubdirectory p.entry = false) (here : s.entry_index = k + 1)
  | behind (parents : List Str) (name : Str) (parts : splitPathComponents path = parents ++ [name])
    (named : s.geo.Leads s.container.data s.container.size s.geo.directoryStart parents s.directory)
    (missing : ∀ i < s.entry_index, ∀ q, s.geo.place s.container.data s.container.size s.directory i = some q →
      liveMatch name q.entry = false)
    (ends : s.geo.EndsAfter s.container.data s.container.size s.directory s.entry_index)

end D64

/-- A request that leaves the listing its place. -/
def Listing.Spares (l : Listing) : Request → Prop
  | .next => True
  | .exists_ m => m.StaysOut ∨ (l.file.dirIsOpen = true ∧ l.image.KeepsPlace m.pathInStream)
  | .isDirectory m => m.is_dir.isSome = true ∨ m.StaysOut ∨
      (l.file.dirIsOpen = true ∧ l.image.KeepsPlace m.pathInStream)

/- The condition on a step: only an open listing can lose its place. -/
def Listing.Careful (l : Option Listing) (q : Request) : Prop :=
  ∀ listing, l = some listing → listing.ended = false → listing.Spares q

end Meatloaf.Disk
