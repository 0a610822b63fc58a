import Meatloaf.Disk.Stream

/-! `D64MStream`: directory entries, path resolution, the streamed save, scratch
and unscratch, reading, and the layout of a blank image. A lookup that never
returns is `none`: the entry index is a 16-bit counter, so a lookup that is still
running after 65536 entries starts over at the first one. -/
namespace Meatloaf.Disk

open Lib

/- Fields of a 32-byte directory entry. -/
def fileType (e : List UInt8) : UInt8 := e.getD 2 0
def startBlock (e : List UInt8) : Block := ⟨(e.getD 3 0).toNat, (e.getD 4 0).toNat⟩
def entryBlocks (e : List UInt8) : Nat := (e.getD 30 0).toNat + 256 * (e.getD 31 0).toNat

/- The name of an entry: `filename` read as a C string, cut at the first 0xA0 or
after 16 bytes, still PETSCII. -/
def rawName (e : List UInt8) : Str :=
  let text := (e.drop 5).takeWhile (· ≠ 0)
  let i := text.idxOf 0xA0
  text.take (if i < text.length ∧ i ≤ 16 then i else 16)

def entryName (e : List UInt8) : Str := toUTF8 (rawName e)

/-- What `seekEntry(filename)` stops at. -/
def liveMatch (filename : Str) (e : List UInt8) : Bool :=
  let filename := slashed filename
  fileType e != 0 && !(isWildcard filename && fileType e &&& 0b111 == 0) &&
    compareFilename (entryName e) filename (isWildcard filename)

/-- What `seekScratchedEntry` stops at. -/
def scratchedMatch (filename : Str) (e : List UInt8) : Bool :=
  let filename := slashed filename
  fileType e == 0 && !(entryName e).isEmpty &&
    compareFilename (entryName e) filename (isWildcard filename)

def ST_WRITE_VERIFY : Nat := 25
def ST_DIR_ERROR : Nat := 71
def ST_DISK_FULL : Nat := 72

inductive PathResult where
  | notFound | file | dir
  deriving DecidableEq, Repr

namespace D64

/- `readContainer((uint8_t *)&entry, sizeof(entry))`: a short read leaves the
rest of the entry as it was. -/
def readEntry (s : D64) : D64 :=
  let r := s.readContainer 32
  { r.2 with entry := r.1 ++ s.entry.drop r.1.length }

def followEntry (s : D64) : D64 :=
  { s with next_track := (s.entry.getD 0 0).toNat, next_sector := (s.entry.getD 1 0).toNat }

/- The do-while loop of `seekEntry(index)`, which runs `sectorOffset + 1` times. -/
def walkDirectory (s : D64) : Nat → Bool × D64
  | 0 =>
    let q := if s.next_track ≠ 0 then
      s.seekSector (s.entry.getD 0 0).toNat (s.entry.getD 1 0).toNat else (true, s)
    if q.1 then (true, q.2.readEntry.followEntry) else (false, q.2)
  | sectorOffset + 1 =>
    let q := if s.next_track ≠ 0 then
      s.seekSector (s.entry.getD 0 0).toNat (s.entry.getD 1 0).toNat else (true, s)
    if q.1 then q.2.readEntry.followEntry.walkDirectory sectorOffset else (false, q.2)

/- The directory defaults to the root of the partition. -/
def defaultDirectory (s : D64) : D64 :=
  if s.dir_track = 0 then
    { s with dir_track := s.geo.directory_track, dir_sector := s.geo.directory_sector }
  else s

/- The end of `seekEntry(index)`: the first entry of a sector carries the link. -/
def finishEntry (s : D64) (index : Nat) : D64 :=
  if index % 8 = 0 then { s.followEntry with entry_index := index + 1 }
  else { s with entry_index := index + 1 }

/- The walk from the first sector of the directory. The sector it ends on was
read at offset 0, which is the entry itself when that is the first one. -/
def walkToEntry (s : D64) (index : Nat) : Bool × D64 :=
  let q := { s with next_track := 0 }.seekSector s.dir_track s.dir_sector s.geo.directory_offset
  if q.1 then
    let w := q.2.walkDirectory (index / 8)
    if w.1 then
      if index % 8 = 0 then (true, w.2.finishEntry index)
      else
        let r := w.2.seekSector w.2.track w.2.sector (index % 8 * 32)
        if r.1 then (true, r.2.readEntry.finishEntry index) else (false, r.2)
    else (false, w.2)
  else (false, q.2)

/- The entry after the one read last. -/
def stepToEntry (s : D64) (index : Nat) : Bool × D64 :=
  if index % 8 = 0 then
    if s.next_track = 0 then (false, s)
    else
      let r := s.seekSector s.next_track s.next_sector
      if r.1 then (true, r.2.readEntry.finishEntry index) else (false, r.2)
  else (true, s.readEntry.finishEntry index)

/- `index--` and `index++` of a 16-bit counter. -/
def indexPred (index : Nat) : Nat := if index = 0 then 65535 else index - 1
def indexSucc (index : Nat) : Nat := if index = 65535 then 0 else index + 1

/-- `seekEntry(index)`. -/
def seekEntryAt (s : D64) (index : Nat) : Bool × D64 :=
  let s := s.defaultDirectory
  let index := indexPred index
  if index = 0 ∨ index ≠ s.entry_index then s.walkToEntry index else s.stepToEntry index

/- The loop `while (seekEntry(index)) { .. index++; }`. -/
def searchEntries (hit : List UInt8 → Bool) : Nat → Nat → D64 → Option (Bool × D64)
  | 0, _, _ => none
  | fuel + 1, index, s =>
    let q := s.seekEntryAt index
    if q.1 then
      if hit q.2.entry then some (true, q.2)
      else searchEntries hit fuel (indexSucc index) q.2
    else some (false, q.2)

/- What `seekEntry(filename)` leaves in `entry` when nothing was found. -/
def clearEntry (s : D64) : D64 :=
  { s with entry := ((((s.entry.set 0 0).set 1 0).set 30 0).set 31 0).set 5 0 }

def lookupFuel : Nat := 65537

/-- `seekEntry(filename)`. -/
def seekEntry (s : D64) (filename : Str) : Option (Bool × D64) :=
  if filename = [] then some (false, s.clearEntry)
  else
    (searchEntries (liveMatch filename) lookupFuel 1 s).map fun r =>
      if r.1 then r else (false, r.2.clearEntry)

def seekScratchedEntry (s : D64) (filename : Str) : Option (Bool × D64) :=
  if filename = [] then some (false, s)
  else searchEntries (scratchedMatch filename) lookupFuel 1 s

def enterDirectory (s : D64) (name : Str) : Option (Bool × D64) :=
  (s.seekEntry name).map fun r =>
    if r.1 then
      let t := fileType r.2.entry &&& 0b111
      if t ≠ 5 ∧ t ≠ 6 then (false, r.2)
      else
        let start := startBlock r.2.entry
        let h := r.2.readBlock start.track start.sector
        if h.1.length = block_size then
          let s := { h.2 with dir_track := (h.1.getD 0 0).toNat, dir_sector := (h.1.getD 1 0).toNat,
                              entry_index := 0 }
          (s.dir_track ≠ 0, s)
        else (false, h.2)
    else (false, r.2)

def enterDirectories (s : D64) : List Str → Option (Bool × D64)
  | [] => some (true, s)
  | part :: parts =>
    (s.enterDirectory part).bind fun r =>
      if r.1 then r.2.enterDirectories parts else some (false, r.2)

def seekDirectory (s : D64) (path : Str) : Option (Bool × D64) :=
  { s with dir_track := 0, dir_sector := 0, entry_index := 0 }.enterDirectories
    (splitPathComponents path)

def resolvePath (s : D64) (path : Str) : Option (PathResult × D64) :=
  match (splitPathComponents path).getLast? with
  | none => (s.seekDirectory []).map fun r => (if r.1 then .dir else .notFound, r.2)
  | some last =>
    (s.seekDirectory (parentPath (splitPathComponents path))).bind fun d =>
      if d.1 then
        (d.2.seekEntry last).bind fun r =>
          if r.1 then
            let t := fileType r.2.entry &&& 0b111
            if t = 5 ∨ t = 6 then
              (r.2.enterDirectory last).map fun q => (if q.1 then .dir else .notFound, q.2)
            else some (.file, r.2)
          else some (.notFound, r.2)
      else some (.notFound, d.2)

/- Saving -/

def rollbackFileWrite (s : D64) : D64 :=
  { s.create_allocated.foldl (fun s b => (s.deallocateBlock b).2) s with
    create_allocated := [], creating := false }

/- A failed step of a save: give everything back and keep the error. -/
def failWrite (s : D64) (code : Nat) : D64 := { s.rollbackFileWrite with error := code }

/- `getNextFreeBlock(..) && allocateBlock(..)`. -/
def claimBlock (s : D64) (startTrack startSector : Nat) (forDirectory : Bool := false) :
    Option Block × D64 :=
  match s.getNextFreeBlock startTrack startSector forDirectory with
  | (none, s) => (none, s)
  | (some b, s) =>
    let r := s.allocateBlock b
    (if r.1 then some b else none, r.2)

def beginFileWrite (s : D64) (filename : Str) : Bool × D64 :=
  match s.claimBlock 0 0 with
  | (none, s) => (true, { s with error := ST_DISK_FULL })
  | (some b, s) =>
    (true, { s with creating := true, create_filename := filename, create_allocated := [b],
                    create_start := b, create_block := b, cbuf := [], size := 0, position := 0 })

/- The full block goes out with the link to the block claimed after it. The new
block joins `create_allocated` only once the write has succeeded. -/
def flushBlock (s : D64) : Bool × D64 :=
  match s.claimBlock s.create_block.track s.create_block.sector with
  | (none, s) => (false, s.failWrite ST_DISK_FULL)
  | (some b, s) =>
    let block := UInt8.ofNat b.track :: UInt8.ofNat b.sector :: s.cbuf
    let r := s.writeBlock s.create_block.track s.create_block.sector block
    if r.1 then
      (true, { r.2 with create_allocated := r.2.create_allocated ++ [b], create_block := b, cbuf := [] })
    else (false, r.2.failWrite ST_WRITE_VERIFY)

def writeFileNewLoop : Nat → List UInt8 → D64 → D64
  | 0, _, s => s
  | fuel + 1, rest, s =>
    if rest = [] then s
    else
      let q := if s.cbuf.length = block_size - 2 then s.flushBlock else (true, s)
      if q.1 then
        let n := min rest.length (block_size - 2 - q.2.cbuf.length)
        writeFileNewLoop fuel (rest.drop n) { q.2 with cbuf := q.2.cbuf ++ rest.take n }
      else q.2

/-- `writeFileNew`; it always reports `buf.length` bytes as written. -/
def writeFileNew (s : D64) (buf : List UInt8) : D64 :=
  if s.error ≠ 0 then s else writeFileNewLoop buf.length buf s

/-- `write` on a stream that `seekPath` has opened for a save. `writeFile` hands the
bytes to `writeFileNew` while the file is being created and after an error. -/
def write (s : D64) (buf : List UInt8) : D64 :=
  let s := s.writeFileNew buf
  { s with position := s.position + buf.length }

/- First free slot of a directory sector. -/
def freeSlot (dirsec : Str) : Option Nat :=
  (List.range 8).find? fun i => dirsec.getD (i * 32 + 2) 0 == 0

/- The directory walk of `finalizeFileWrite`: the sector to write the entry to,
its contents so far and the slot, or the error. `n` is what is left of the bound
on the chain. -/
def findSlot : Nat → Block → D64 → Except Nat (Block × Str × Nat) × D64
  | 0, d, s => (.error ST_DIR_ERROR, (s.readBlock d.track d.sector).2)
  | n + 1, d, s =>
    let r := s.readBlock d.track d.sector
    if r.1.length ≠ block_size then (.error ST_DIR_ERROR, r.2)
    else
      match freeSlot r.1 with
      | some slot => (.ok (d, r.1, slot), r.2)
      | none =>
        if r.1.getD 0 0 ≠ 0 then findSlot n ⟨(r.1.getD 0 0).toNat, (r.1.getD 1 0).toNat⟩ r.2
        else
          match r.2.claimBlock d.track d.sector true with
          | (none, s) => (.error ST_DISK_FULL, s)
          | (some b, s) =>
            let w := s.writeBlock d.track d.sector
              ((r.1.set 0 (UInt8.ofNat b.track)).set 1 (UInt8.ofNat b.sector))
            if w.1 then (.ok (b, 0x00 :: 0xFF :: List.replicate (block_size - 2) 0, 0), w.2)
            else (.error ST_WRITE_VERIFY, (w.2.deallocateBlock b).2)

/- Sixteen bytes of name, padded with 0xA0. -/
def nameField (filename : Str) : Str :=
  let name := (toPETSCII2 filename).take 16
  name ++ List.replicate (16 - name.length) 0xA0

/- The 30 bytes of a new entry after its link bytes: a closed PRG. -/
def newEntry (filename : Str) (start : Block) (blocks : Nat) : Str :=
  0x82 :: UInt8.ofNat start.track :: UInt8.ofNat start.sector :: nameField filename ++
    List.replicate 9 0 ++ [UInt8.ofNat (blocks % 256), UInt8.ofNat (blocks / 256)]

/- The sector with `bytes` written over it from `o` on. -/
def overwrite (dirsec : Str) (o : Nat) (bytes : Str) : Str :=
  dirsec.take o ++ bytes ++ dirsec.drop (o + bytes.length)

def finalizeFileWrite (s : D64) : Bool × D64 :=
  let s := { s with creating := false }
  let w := s.writeBlock s.create_block.track s.create_block.sector
    (0 :: UInt8.ofNat (s.cbuf.length + 1) :: s.cbuf)
  if w.1 then
    let d : Block := if w.2.dir_track ≠ 0 then ⟨w.2.dir_track, w.2.dir_sector⟩
      else ⟨w.2.geo.directory_track, w.2.geo.directory_sector⟩
    match findSlot 1001 d w.2 with
    | (.error code, s) => (false, s.failWrite code)
    | (.ok (d, dirsec, slot), s) =>
      let r := s.writeBlock d.track d.sector (overwrite dirsec (slot * 32 + 2)
        (newEntry s.create_filename s.create_start (s.create_allocated.length % 65536)))
      if r.1 then (true, r.2) else (false, r.2.failWrite ST_WRITE_VERIFY)
  else (false, w.2.failWrite ST_WRITE_VERIFY)

def close (s : D64) : D64 :=
  { (if s.creating ∧ s.error = 0 then s.finalizeFileWrite.2 else s) with creating := false }

/- Scratch and unscratch -/

def readLink (s : D64) (b : Block) : Option Block × D64 :=
  let q := s.seekSector b.track b.sector
  if q.1 then
    let r := q.2.readContainer 2
    (if r.1.length = 2 then some ⟨(r.1.getD 0 0).toNat, (r.1.getD 1 0).toNat⟩ else none, r.2)
  else (none, q.2)

/- The chain of `scratchEntry`; `n` is what is left of its bound of 10000. -/
def freeChain : Nat → Block → D64 → D64
  | 0, _, s => s
  | n + 1, b, s =>
    if b.track = 0 then s
    else
      match s.readLink b with
      | (none, s) => s
      | (some next, s) => freeChain n next (s.deallocateBlock b).2

/- The type byte of the entry in `slot` of a directory sector. -/
def setEntryType (s : D64) (dir : Block) (slot : Nat) (type : UInt8) : Bool × D64 :=
  let r := s.readBlock dir.track dir.sector
  if r.1.length = block_size then
    r.2.writeBlock dir.track dir.sector (r.1.set (slot * 32 + 2) type)
  else (false, r.2)

def scratchEntry (s : D64) : Bool × D64 :=
  let dir : Block := ⟨s.track, s.sector⟩
  let slot := (s.entry_index - 1) % 8
  (freeChain 10000 (startBlock s.entry) s).setEntryType dir slot 0x00

/- Pass 1 of `unscratchEntry`: the blocks of the chain, or `none` when it does
not add up. `n` is what is left of the limit. -/
def collectChain : Nat → Block → D64 → Option (List Block) × D64
  | 0, b, s => if b.track = 0 then (some [], s) else (none, s)
  | n + 1, b, s =>
    if b.track = 0 then (some [], s)
    else
      match s.queryBlockAllocation b with
      | (some false, s) =>
        match s.readLink b with
        | (none, s) => (none, s)
        | (some next, s) =>
          let r := collectChain n next s
          (r.1.map (b :: ·), r.2)
      | (_, s) => (none, s)

/- Pass 2: stops at the first block that cannot be taken. -/
def allocateChain : List Block → D64 → Bool × D64
  | [], s => (true, s)
  | b :: rest, s =>
    let r := s.allocateBlock b
    if r.1 then allocateChain rest r.2 else (false, r.2)

def unscratchEntry (s : D64) : Bool × D64 :=
  let dir : Block := ⟨s.track, s.sector⟩
  let slot := (s.entry_index - 1) % 8
  let limit := if entryBlocks s.entry ≠ 0 then entryBlocks s.entry + 2 else 10000
  match collectChain limit (startBlock s.entry) s with
  | (none, s) => (false, s)
  | (some chain, s) =>
    if chain = [] then (false, s)
    else
      let r := allocateChain chain s
      if r.1 then r.2.setEntryType dir slot 0x82 else (false, r.2)

def removeFile (s : D64) (path : Str) : Option (Bool × D64) :=
  (s.resolvePath path).map fun r => if r.1 = .file then r.2.scratchEntry else (false, r.2)

def unremoveFile (s : D64) (path : Str) : Option (Bool × D64) :=
  match (splitPathComponents path).getLast? with
  | none => some (false, s)
  | some last =>
    (s.seekDirectory (parentPath (splitPathComponents path))).bind fun d =>
      if d.1 then
        (d.2.seekScratchedEntry last).map fun r => if r.1 then r.2.unscratchEntry else (false, r.2)
      else some (false, d.2)

/- Opening a path -/

/- The part of `seekPath` every mode shares. -/
def resetPath (s : D64) : D64 :=
  { s with seekCalled := true, next_track := 0, next_sector := 0, sector_offset := 0,
           position := 0, entry_index := 0 }

/- A path that ends in `#` selects the raw image from block 1/0 on. -/
def directAccess (s : D64) : Bool × D64 :=
  { s with seekCalled := false, size := block_size }.seekSector 1 0

/-- `seekPath` of a stream in `out` mode. -/
def seekPathOut (s : D64) (path : Str) : Option (Bool × D64) :=
  let s := s.resetPath
  if endsWithHash path then some s.directAccess
  else
    (s.resolvePath path).bind fun r =>
      match r.1, (splitPathComponents path).getLast? with
      | .dir, _ => some (false, r.2)
      | _, none => some (false, r.2)
      | .file, some last => some (r.2.scratchEntry.2.beginFileWrite last)
      | .notFound, some last =>
        (r.2.seekDirectory (parentPath (splitPathComponents path))).map fun d =>
          if d.1 then d.2.beginFileWrite last else (false, d.2)

/-- A whole save: open, write, close. A path that cannot be opened is not written to. -/
def save (s : D64) (path : Str) (chunks : List (List UInt8)) : Option D64 :=
  (s.seekPathOut path).map fun r => if r.1 then (chunks.foldl write r.2).close else r.2.close

/-- `seekPath` of a stream in `in` mode. -/
def seekPathIn (s : D64) (path : Str) : Option (Bool × D64) :=
  let s := s.resetPath
  if endsWithHash path then some s.directAccess
  else
    (s.resolvePath path).map fun r =>
      match r.1 with
      | .dir =>
        let d : Block := if r.2.dir_track ≠ 0 then ⟨r.2.dir_track, r.2.dir_sector⟩
          else ⟨r.2.geo.directory_track, r.2.geo.directory_sector⟩
        { r.2 with size := 0 }.seekSector d.track d.sector
      | .file =>
        let b := startBlock r.2.entry
        { r.2 with size := entryBlocks r.2.entry * (block_size - 2) }.seekSector b.track b.sector
      | .notFound => (false, r.2)

def available (s : D64) : Nat := s.size - s.position

/- The link bytes at the start of a block, and what they say about the size. -/
def readBlockHeader (s : D64) : D64 :=
  let a := s.readContainer 1
  let b := a.2.readContainer 1
  let s : D64 := { b.2 with next_track := (a.1.getD 0 (UInt8.ofNat s.next_track)).toNat,
                            next_sector := (b.1.getD 0 (UInt8.ofNat s.next_sector)).toNat,
                            sector_offset := (s.sector_offset + 2) % 256 }
  if s.next_track = 0 then
    let lastBlockBytes := s.next_sector - 1
    if lastBlockBytes < s.available then { s with size := s.position + lastBlockBytes }
    else if s.available = 0 then { s with size := s.size + lastBlockBytes }
    else s
  else if s.available = 0 then { s with size := s.size + (block_size - 2) }
  else s

def readFile (s : D64) (size : Nat) : List UInt8 × D64 :=
  if s.sector_offset % block_size = 0 ∧ 0 < s.sector_offset ∧ s.next_track = 0 then ([], s)
  else
    let s := if s.sector_offset % block_size = 0 then s.readBlockHeader else s
    if size = 0 then ([], s)
    else
      let n := min (min size s.available) (block_size - s.sector_offset % block_size)
      let r := s.readContainer n
      let t : D64 := { r.2 with sector_offset := (r.2.sector_offset + r.1.length) % 256 }
      if t.next_track ≠ 0 ∧ t.sector_offset % block_size = 0 then
        let q := t.seekSector t.next_track t.next_sector
        if q.1 then (r.1, q.2) else ([], q.2)
      else (r.1, t)

/-- `MMediaStream::read`. -/
def read (s : D64) (size : Nat) : List UInt8 × D64 :=
  if 0 < s.size ∧ s.size ≤ s.position then ([], s)
  else
    let n := if 0 < s.size then min size (s.size - s.position) else size
    let r := if s.seekCalled then s.readFile n else s.readContainer n
    (r.1, { r.2 with position := r.2.position + r.1.length })

end D64

end Meatloaf.Disk
