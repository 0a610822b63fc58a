import Mathlib.Data.List.Basic
import Mathlib.Algebra.BigOperators.Group.List.Basic
import Mathlib.Algebra.GroupWithZero.Nat

/-! Geometry of the D64 family. One stream class serves six kinds of image; what
differs between them is kept in tables, as the constructors in `d64.h`, `d71.h`,
`d80.h`, `d81.h`, `d82.h` and `dnp.h` fill them in. -/
namespace Meatloaf.Disk

/-- The stream classes with a write path. -/
inductive Format where
  | d64 | d71 | d80 | d81 | d82 | dnp
  deriving DecidableEq, Repr

structure Block where
  track : Nat
  sector : Nat
  deriving DecidableEq, Repr

structure BlockAllocationMap where
  track : Nat
  sector : Nat
  offset : Nat
  start_track : Nat
  end_track : Nat
  byte_count : Nat
  deriving DecidableEq, Repr

/- The one `Partition` every constructor pushes, with the class it belongs to.
The parent links of a partition are never read. -/
structure Geometry where
  format : Format
  header_track : Nat
  header_sector : Nat
  header_offset : Nat
  directory_track : Nat
  directory_sector : Nat
  directory_offset : Nat
  block_allocation_map : List BlockAllocationMap
  deriving DecidableEq, Repr

/-- `block_size` of every stream of the family. -/
def block_size : Nat := 256

namespace Format

def sectorsPerTrack : Format → List Nat
  | d64 | d71 => [17, 18, 19, 21]
  | d80 | d82 => [23, 25, 27, 29]
  | d81 => [40]
  | dnp => [256]

/- Boolean comparisons added up, as `speedZone` does it. -/
def zone (a b c track : Nat) : Nat :=
  (if track < a then 1 else 0) + (if track < b then 1 else 0) + (if track < c then 1 else 0)

def speedZone : Format → Nat → Nat
  | d64, track => zone 18 25 31 track
  | d71, track =>
    if track ≤ 35 then zone 18 25 31 track
    else zone 53 60 66 track
  | d80, track => zone 40 54 65 track
  | d82, track =>
    if track < 78 then zone 40 54 65 track
    else zone 117 131 142 track
  | d81, _ | dnp, _ => 0

/- Directory and file interleave. -/
def interleave : Format → Nat × Nat
  | d64 | dnp => (3, 10)
  | d71 | d80 => (3, 6)
  | d81 => (1, 1)
  | d82 => (3, 5)

def dedicated_directory_track : Format → Bool
  | dnp => false
  | _ => true

def dos_version : Format → UInt8
  | d64 | d71 | dnp => 0x41
  | d80 | d82 => 0x43
  | d81 => 0x44

def defaultImageSize : Format → Nat
  | d64 => 174848
  | d71 => 349696
  | d80 => 533248
  | d81 => 819200
  | d82 => 1066496
  | dnp => 65536

/- The constructors. The D64, D81 and DNP ones look at the size of the
container; the DNP one also reads the two bytes at 0x100, which in a formatted
partition link to the first directory block. -/
def geometry (f : Format) (size : Nat) (link : UInt8 × UInt8) : Geometry :=
  match f with
  | d64 =>
    let end_track := if size = 196608 ∨ size = 197376 then 40
      else if size = 205312 ∨ size = 206114 then 42 else 35
    ⟨d64, 18, 0, 0x90, 18, 1, 0, [⟨18, 0, 0x04, 1, end_track, 4⟩]⟩
  | d71 => ⟨d71, 18, 0, 0x90, 18, 1, 0, [⟨18, 0, 0x04, 1, 35, 4⟩, ⟨53, 0, 0x00, 36, 70, 3⟩]⟩
  | d80 => ⟨d80, 39, 0, 0x06, 39, 1, 0, [⟨38, 0, 0x06, 1, 50, 5⟩, ⟨38, 3, 0x06, 51, 77, 5⟩]⟩
  | d81 =>
    let end_track := if size = 829440 then 81 else 80
    ⟨d81, 40, 0, 0x04, 40, 3, 0, [⟨40, 1, 0x10, 1, 40, 6⟩, ⟨40, 2, 0x10, 41, end_track, 6⟩]⟩
  | d82 => ⟨d82, 39, 0, 0x06, 39, 1, 0, [⟨38, 0, 0x06, 1, 50, 5⟩, ⟨38, 3, 0x06, 51, 100, 5⟩,
      ⟨38, 6, 0x06, 101, 150, 5⟩, ⟨38, 9, 0x06, 151, 154, 5⟩]⟩
  | dnp =>
    let tracks := size / 65536 + (if size % 65536 ≠ 0 then 1 else 0)
    let end_track := (if tracks = 0 then 1 else tracks) % 256
    let directory := if link.1 = 0 then (1, 34) else (link.1.toNat, link.2.toNat)
    ⟨dnp, 1, 1, 0x04, directory.1, directory.2, 0, [⟨1, 2, 0x20, 1, end_track, 32⟩]⟩

end Format

namespace Geometry

variable (g : Geometry)

def getSectorCount (track : Nat) : Nat :=
  g.format.sectorsPerTrack.getD (g.format.speedZone track) 0

def first_track : Nat := (g.block_allocation_map.head?.map (·.start_track)).getD 0

def last_track : Nat := (g.block_allocation_map.getLast?.map (·.end_track)).getD 0

/- Blocks before the first one of `track`: the loop of `linearBlock` and
`seekSector`. -/
def sectorOffset (track : Nat) : Nat :=
  ((List.range (track - 1)).map fun index => g.getSectorCount (index + 1)).sum

/-- `linearBlock`, with `none` for a block that is not on the medium. A sector
number equal to the sector count of its track is let through. -/
def linearBlock (track sector : Nat) : Option Nat :=
  if track < g.first_track ∨ track > g.last_track then none
  else if sector > g.getSectorCount track then none
  else some (g.sectorOffset track + sector)

/-- Where the record of a track lies, and its shape. -/
structure BAMRecord where
  bam_track : Nat
  bam_sector : Nat
  offset : Nat
  byte_count : Nat
  has_count : Bool
  deriving DecidableEq, Repr

def getBAMRecord (track : Nat) : Option BAMRecord :=
  (g.block_allocation_map.find? fun bam =>
      decide (bam.start_track ≤ track ∧ track ≤ bam.end_track)).map fun bam =>
    let offset := bam.offset + (track - bam.start_track) * bam.byte_count
    ⟨bam.track, bam.sector + offset / block_size, offset % block_size, bam.byte_count,
      decide ((g.getSectorCount track + 7) / 8 < bam.byte_count)⟩

/-- `isReservedBlock`: the system area of a native partition. -/
def isReservedBlock (b : Block) : Bool :=
  match g.format with
  | .dnp => decide (b.track = g.header_track ∧ b.sector ≤ 33)
  | _ => false

end Geometry

end Meatloaf.Disk
