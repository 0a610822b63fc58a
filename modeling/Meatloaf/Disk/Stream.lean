import Meatloaf.Stream.Container
import Meatloaf.Text.Names
import Meatloaf.Disk.Geometry

/-! `D64MStream`: sector access, the block allocation map and the search for a
free block. Reads and writes go through the position of the container, so every
operation passes the whole stream on. -/
namespace Meatloaf.Disk

open Lib

structure D64 where
  geo : Geometry
  container : Container
  track : Nat := 0
  sector : Nat := 0
  next_track : Nat := 0
  next_sector : Nat := 0
  sector_offset : Nat := 0
  dir_track : Nat := 0
  dir_sector : Nat := 0
  entry : List UInt8 := List.replicate 32 0
  entry_index : Nat := 0
  seekCalled : Bool := false
  size : Nat := 0
  position : Nat := 0
  error : Nat := 0
  creating : Bool := false
  create_filename : Str := []
  cbuf : List UInt8 := []
  create_start : Block := ⟨0, 0⟩
  create_block : Block := ⟨0, 0⟩
  create_allocated : List Block := []

namespace D64

/- The constructor of the class, over a container at its start. -/
def new (f : Format) (c : Container) : D64 :=
  { geo := f.geometry c.size (c.byte 0x100, c.byte 0x101), container := c }

def seekSector (s : D64) (track sector : Nat) (offset : Nat := 0) : Bool × D64 :=
  match s.geo.linearBlock track sector with
  | none => (false, s)
  | some block =>
    (true, { s with container := s.container.seek (block * block_size + offset),
                    track := track, sector := sector })

def readContainer (s : D64) (n : Nat) : List UInt8 × D64 :=
  let r := s.container.read n
  (r.1, { s with container := r.2 })

def writeContainer (s : D64) (bytes : List UInt8) : Nat × D64 :=
  let r := s.container.write bytes
  (r.1, { s with container := r.2 })

/-- `readBlock`; the empty string is a failure. -/
def readBlock (s : D64) (track sector : Nat) : Str × D64 :=
  let q := s.seekSector track sector
  if q.1 then
    let r := q.2.readContainer block_size
    (if r.1.length = block_size then r.1 else [], r.2)
  else ([], q.2)

def writeBlock (s : D64) (track sector : Nat) (data : Str) : Bool × D64 :=
  let q := s.seekSector track sector
  if q.1 then
    let r := q.2.writeContainer
      ((data ++ List.replicate (block_size - data.length) 0).take block_size)
    (r.1 == block_size, r.2)
  else (false, q.2)

def readBAMRecord (s : D64) (track : Nat) : Option (Geometry.BAMRecord × List UInt8) × D64 :=
  match s.geo.getBAMRecord track with
  | none => (none, s)
  | some rec =>
    let q := s.seekSector rec.bam_track rec.bam_sector rec.offset
    if q.1 then
      let r := q.2.readContainer rec.byte_count
      (if r.1.length = rec.byte_count then some (rec, r.1) else none, r.2)
    else (none, q.2)

/- Position of a sector's bit in a record. -/
def byteIndex (rec : Geometry.BAMRecord) (sector : Nat) : Nat :=
  (if rec.has_count then 1 else 0) + sector / 8

def bitmask (sector : Nat) : UInt8 := 1 <<< UInt8.ofNat (sector % 8)

def recordBit (rec : Geometry.BAMRecord) (buf : List UInt8) (sector : Nat) : Bool :=
  buf.getD (byteIndex rec sector) 0 &&& bitmask sector == bitmask sector

/- The record with one bit cleared and the leading count, if there is one,
lowered; the count stays at zero. -/
def recordAllocate (rec : Geometry.BAMRecord) (buf : List UInt8) (sector : Nat) : List UInt8 :=
  let buf := buf.modify (byteIndex rec sector) (· &&& ~~~ bitmask sector)
  if rec.has_count ∧ 0 < buf.getD 0 0 then buf.modify 0 (· - 1) else buf

def recordRelease (rec : Geometry.BAMRecord) (buf : List UInt8) (sector : Nat) : List UInt8 :=
  let buf := buf.modify (byteIndex rec sector) (· ||| bitmask sector)
  if rec.has_count then buf.modify 0 (· + 1) else buf

/-- `D64MStream::setBlockAllocation`. -/
def setBlockAllocationBase (s : D64) (track sector : Nat) (allocate : Bool) : Bool × D64 :=
  match s.readBAMRecord track with
  | (none, s) => (false, s)
  | (some (rec, buf), s) =>
    if rec.byte_count ≤ byteIndex rec sector then (false, s)
    else if allocate && !recordBit rec buf sector then (false, s)
    else if !allocate && recordBit rec buf sector then (true, s)
    else
      let q := s.seekSector rec.bam_track rec.bam_sector rec.offset
      if q.1 then
        let r := q.2.writeContainer
          (if allocate then recordAllocate rec buf sector else recordRelease rec buf sector)
        (r.1 == rec.byte_count, r.2)
      else (false, q.2)

/- Free bits of a bitmap. -/
def countBits (buf : List UInt8) : Nat :=
  (buf.map fun b => ((List.range 8).filter fun i => b &&& bitmask i == bitmask i).length).sum

def getTrackFreeCount (s : D64) (track : Nat) : Nat × D64 :=
  match s.readBAMRecord track with
  | (none, s) => (0, s)
  | (some (rec, buf), s) =>
    (if rec.has_count then (buf.getD 0 0).toNat else countBits buf, s)

def SIDE2_FIRST_TRACK : Nat := 36
def SIDE2_COUNT_OFFSET : Nat := 0xDD

/- The offset of `seekSector` is a byte. -/
def writeSide2FreeCount (s : D64) (track count : Nat) : Bool × D64 :=
  let q := s.seekSector s.geo.header_track s.geo.header_sector
    ((SIDE2_COUNT_OFFSET + (track - SIDE2_FIRST_TRACK)) % 256)
  if q.1 then
    let r := q.2.writeContainer [UInt8.ofNat count]
    (r.1 == 1, r.2)
  else (false, q.2)

/-- The virtual `setBlockAllocation`: a D71 mirrors the count of a side-2 track
into 18/0, every other class is the base. -/
def setBlockAllocation (s : D64) (track sector : Nat) (allocate : Bool) : Bool × D64 :=
  match s.geo.format with
  | .d71 =>
    let q := s.setBlockAllocationBase track sector allocate
    if q.1 then
      if track < SIDE2_FIRST_TRACK then (true, q.2)
      else
        let r := q.2.getTrackFreeCount track
        r.2.writeSide2FreeCount track r.1
    else (false, q.2)
  | _ => s.setBlockAllocationBase track sector allocate

def allocateBlock (s : D64) (b : Block) : Bool × D64 := s.setBlockAllocation b.track b.sector true

def deallocateBlock (s : D64) (b : Block) : Bool × D64 := s.setBlockAllocation b.track b.sector false

def findFreeSectorOnTrack (s : D64) (track startSector : Nat) : Option Nat × D64 :=
  match s.readBAMRecord track with
  | (none, s) => (none, s)
  | (some (rec, buf), s) =>
    let spt := s.geo.getSectorCount track
    (((List.range spt).map fun i => (startSector + i) % spt).find? fun x =>
      decide (byteIndex rec x < rec.byte_count) && recordBit rec buf x, s)

def isBlockFree (s : D64) (b : Block) : Bool × D64 :=
  match s.readBAMRecord b.track with
  | (none, s) => (false, s)
  | (some (rec, buf), s) =>
    (decide (byteIndex rec b.sector < rec.byte_count) && recordBit rec buf b.sector, s)

/-- `queryBlockAllocation`: `none` when the BAM has no bit for the block,
otherwise whether the block is allocated. -/
def queryBlockAllocation (s : D64) (b : Block) : Option Bool × D64 :=
  match s.readBAMRecord b.track with
  | (none, s) => (none, s)
  | (some (rec, buf), s) =>
    (if byteIndex rec b.sector < rec.byte_count then some (!recordBit rec buf b.sector) else none, s)

/- `getTrackFreeCount(t) && findFreeSectorOnTrack(t, 0, ..)`. -/
def tryTrack (s : D64) (track : Nat) : Option Block × D64 :=
  let q := s.getTrackFreeCount track
  if q.1 ≠ 0 then
    let r := q.2.findFreeSectorOnTrack track 0
    (r.1.map (⟨track, ·⟩), r.2)
  else (none, q.2)

/- A sweep over tracks; a dedicated directory track is passed over. -/
def sweepTracks (s : D64) : List Nat → Option Block × D64
  | [] => (none, s)
  | t :: ts =>
    if s.geo.format.dedicated_directory_track ∧ t = s.geo.directory_track then s.sweepTracks ts
    else
      match s.tryTrack t with
      | (some b, s) => (some b, s)
      | (none, s) => s.sweepTracks ts

/- The tracks at distance 1, 2, .. of the directory track, nearer one first,
the lower of two equally near ones first. -/
def outward (first dir last : Nat) : List Nat :=
  ((List.range (max dir last)).map (· + 1)).flatMap fun d =>
    (if first + d ≤ dir then [dir - d] else []) ++ (if dir + d ≤ last then [dir + d] else [])

/- The tracks from `a` down to `b`. -/
def downTo (a b : Nat) : List Nat := (List.range (a + 1 - b)).map (a - ·)

/- The tracks from `a` up to `b`. -/
def upTo (a b : Nat) : List Nat := (List.range (b + 1 - a)).map (a + ·)

def searchDirectoryTrack (s : D64) (startTrack startSector : Nat) : Option Block × D64 :=
  let t := if startTrack ≠ 0 then startTrack else s.geo.directory_track
  let start := (startSector + s.geo.format.interleave.1) % s.geo.getSectorCount t
  let r := s.findFreeSectorOnTrack t start
  (r.1.map (⟨t, ·⟩), r.2)

/- First block of a file: on the directory track when that is allowed, else on
the nearest track with a free sector. -/
def searchFirstBlock (s : D64) : Option Block × D64 :=
  let g := s.geo
  if g.format.dedicated_directory_track then s.sweepTracks (outward g.first_track g.directory_track g.last_track)
  else
    match s.tryTrack g.directory_track with
    | (some b, s) => (some b, s)
    | (none, s) => s.sweepTracks (outward g.first_track g.directory_track g.last_track)

/- Next block of a file: same track, then away from the directory, then the
other side of it, then anywhere. -/
def searchNextBlock (s : D64) (startTrack startSector : Nat) : Option Block × D64 :=
  let g := s.geo
  let start := (startSector + g.format.interleave.2) % g.getSectorCount startTrack
  match s.findFreeSectorOnTrack startTrack start with
  | (some x, s) => (some ⟨startTrack, x⟩, s)
  | (none, s) =>
    let away := if startTrack < g.directory_track then downTo (startTrack - 1) g.first_track
      else upTo (startTrack + 1) g.last_track
    let other := if startTrack < g.directory_track then upTo (g.directory_track + 1) g.last_track
      else downTo (g.directory_track - 1) g.first_track
    s.sweepTracks (away ++ other ++ upTo g.first_track g.last_track)

def findFreeBlock (s : D64) (startTrack startSector : Nat) (forDirectory : Bool) :
    Option Block × D64 :=
  let rest (s : D64) :=
    if startTrack = 0 then s.searchFirstBlock else s.searchNextBlock startTrack startSector
  if forDirectory then
    match s.searchDirectoryTrack startTrack startSector with
    | (some b, s) => (some b, s)
    | (none, s) => if s.geo.format.dedicated_directory_track then (none, s) else rest s
  else rest s

/-- `getNextFreeBlock`. `growImage` refuses: `allow_grow` is off in every stream
the firmware opens. -/
def getNextFreeBlock (s : D64) (startTrack startSector : Nat) (forDirectory : Bool := false) :
    Option Block × D64 := s.findFreeBlock startTrack startSector forDirectory

def blocksFreeLoop (s : D64) : List Nat → Nat × D64
  | [] => (0, s)
  | t :: ts =>
    if s.geo.format.dedicated_directory_track ∧ t = s.geo.directory_track then s.blocksFreeLoop ts
    else
      let q := s.getTrackFreeCount t
      let r := q.2.blocksFreeLoop ts
      (q.1 + r.1, r.2)

/-- `blocksFree`, a 16-bit count. -/
def blocksFree (s : D64) : Nat × D64 :=
  let r := s.blocksFreeLoop
    (s.geo.block_allocation_map.flatMap fun bam => upTo bam.start_track bam.end_track)
  (r.1 % 65536, r.2)

end D64

end Meatloaf.Disk
