import Meatloaf.Disk.Stream

/-! `formatImage` and the initialisers it calls, over a growable container. -/
namespace Meatloaf.Disk.D64

open Lib

/- A list of steps, up to the first one that fails. -/
def runSteps : List (D64 → Bool × D64) → D64 → Bool × D64
  | [], s => (true, s)
  | step :: steps, s =>
    let r := step s
    if r.1 then runSteps steps r.2 else (false, r.2)

/- `seekSector(..)` followed by a `writeContainer` that has to be complete. -/
def writeAt (track sector offset : Nat) (bytes : List UInt8) (s : D64) : Bool × D64 :=
  let q := s.seekSector track sector offset
  if q.1 then
    let r := q.2.writeContainer bytes
    (r.1 == bytes.length, r.2)
  else (false, q.2)

/- Consecutive writes of one byte each. -/
def writeBytes : List UInt8 → D64 → Bool × D64
  | [], s => (true, s)
  | b :: bytes, s =>
    let r := s.writeContainer [b]
    if r.1 ≠ 0 then writeBytes bytes r.2 else (false, r.2)

def fillBlock : List UInt8 := 0x4B :: List.replicate (block_size - 1) 0x01

/- The sector count is kept in a byte here, so a native track of 256 sectors is
not filled at all. -/
def initializeBlocks (s : D64) : Bool × D64 :=
  runSteps ((upTo 1 s.geo.last_track).flatMap fun t =>
    if t = s.geo.header_track then []
    else (List.range (s.geo.getSectorCount t % 256)).map fun x => writeAt t x 0 fillBlock) s

/- Bitmap with the first `sectors` bits set. -/
def freeBitmap : Nat → Nat → List UInt8
  | 0, _ => []
  | bytes + 1, sectors =>
    (if 8 ≤ sectors then 0xFF else UInt8.ofNat (2 ^ sectors - 1)) :: freeBitmap bytes (sectors - 8)

/- The record of a track with every sector free. -/
def freeRecord (g : Geometry) (rec_bytes track : Nat) : List UInt8 :=
  let sectors := g.getSectorCount track
  if (sectors + 7) / 8 < rec_bytes then UInt8.ofNat sectors :: freeBitmap (rec_bytes - 1) sectors
  else freeBitmap rec_bytes sectors

def initializeMaps : List BlockAllocationMap → D64 → Bool × D64
  | [], s => (true, s)
  | bam :: maps, s =>
    let q := s.seekSector bam.track bam.sector bam.offset
    let r := writeBytes ((upTo bam.start_track bam.end_track).flatMap fun t =>
      freeRecord s.geo bam.byte_count t) q.2
    if r.1 then initializeMaps maps r.2 else (false, r.2)

/- `isBlockFree` guarding a `setBlockAllocation(.., true)`. -/
def reserveBlock (b : Block) (s : D64) : Bool × D64 :=
  let q := s.isBlockFree b
  if q.1 then q.2.setBlockAllocation b.track b.sector true else (true, q.2)

def writeSide2Counts : List Nat → D64 → Bool × D64
  | [], s => (true, s)
  | t :: ts, s =>
    let q := s.getTrackFreeCount t
    let r := q.2.writeSide2FreeCount t q.1
    if r.1 then writeSide2Counts ts r.2 else (false, r.2)

/- The first six bytes of a BAM block of an 8050 or 8250. The last block links to
the directory. -/
def bamHeader (g : Geometry) (bam : BlockAllocationMap) (maps : List BlockAllocationMap) : List UInt8 :=
  let next : Block := match maps with
    | [] => ⟨g.directory_track, g.directory_sector⟩
    | m :: _ => ⟨m.track, m.sector⟩
  [UInt8.ofNat next.track, UInt8.ofNat next.sector, g.format.dos_version, 0x00,
    UInt8.ofNat bam.start_track, UInt8.ofNat (bam.end_track + 1)]

def writeBamBlockHeaders (g : Geometry) : List BlockAllocationMap → D64 → Bool × D64
  | [], s => (true, s)
  | bam :: maps, s =>
    let tracks := (bam.end_track + 65537 - bam.start_track) % 65536
    let used := (bam.offset + tracks * bam.byte_count) % 65536
    let steps := writeAt bam.track bam.sector 0 (bamHeader g bam maps) ::
      if used < block_size then
        [writeAt bam.track bam.sector used (List.replicate (block_size - used) 0)] else []
    let r := runSteps steps s
    if r.1 then writeBamBlockHeaders g maps r.2 else (false, r.2)

def initializeBlockAllocationMap (s : D64) : Bool × D64 :=
  let g := s.geo
  let r := initializeMaps g.block_allocation_map s
  if r.1 then
    match g.format with
    | .d64 | .d81 => r
    | .d80 | .d82 => writeBamBlockHeaders g g.block_allocation_map r.2
    | .d71 =>
      let c := writeSide2Counts (upTo SIDE2_FIRST_TRACK g.last_track) r.2
      let bam2_track := (g.block_allocation_map.getLast?.map (·.track)).getD 0
      if c.1 then
        runSteps ((List.range (g.getSectorCount bam2_track)).map fun x => reserveBlock ⟨bam2_track, x⟩) c.2
      else c
    | .dnp => runSteps ((List.range 34).map fun x => reserveBlock ⟨g.header_track, x⟩) r.2
  else r

/- Memory from the first byte of `header` on: the defaults of its 23 bytes, then the `memcpy` of
the whole name and that of the whole id. -/
def headerMemory (name id : Str) (memory : Nat → UInt8) : Nat → UInt8 :=
  let blank := List.replicate 18 0xA0 ++ [0x30, 0x30, 0xA0, 0x32, 0x41]
  Store.put (Store.put (Store.put memory 0 blank) 0 name) 18 id

/- The bytes of `Header`, whatever the memory behind them holds. -/
def headerBytes (name id : Str) : List UInt8 := Store.read (headerMemory name id fun _ => 0) 0 23

def writeHeader (s : D64) (name id : Str) : Bool × D64 :=
  let q := s.seekSector s.geo.header_track s.geo.header_sector s.geo.header_offset
  let bytes := headerBytes (toPETSCII2 name) (toPETSCII2 id)
  let r := q.2.writeContainer bytes
  (r.1 == bytes.length, r.2)

def initializeDirectory (s : D64) : Bool × D64 :=
  let g := s.geo
  let link := [UInt8.ofNat g.directory_track, UInt8.ofNat g.directory_sector, g.format.dos_version]
  let q := s.seekSector g.header_track g.header_sector
  if q.1 then
    let a := writeBytes link q.2
    if a.1 then
      let d := a.2.seekSector g.directory_track g.directory_sector g.directory_offset
      if d.1 then
        let b := writeBytes [0x00, 0xFF] d.2
        if b.1 then
          let empty := List.replicate (block_size - 2) 0
          let e := b.2.writeContainer empty
          if e.1 = empty.length then
            runSteps (g.block_allocation_map.map (fun bam => reserveBlock ⟨bam.track, bam.sector⟩) ++
              [reserveBlock ⟨g.header_track, g.header_sector⟩,
               fun s => s.setBlockAllocation g.directory_track g.directory_sector true]) e.2
          else (false, e.2)
        else b
      else (false, d.2)
    else a
  else (false, q.2)

/- The final byte of the image, which also gives the container its size. -/
def padImage (s : D64) : Bool × D64 :=
  let blocks := ((upTo 1 s.geo.last_track).map s.geo.getSectorCount).sum
  let image_size := if s.container.size = 0 then s.geo.format.defaultImageSize
    else blocks * block_size
  let r := { s with container := s.container.seek (image_size - 1) }.writeContainer [0x00]
  (r.1 == 1, r.2)

/-- `formatImage` with the default geometry and no error info. -/
def formatImage (s : D64) (name id : Str) : Bool × D64 :=
  runSteps [initializeBlocks, initializeBlockAllocationMap, fun s => writeHeader s name id,
    initializeDirectory, padImage] s

/-- A blank image made from nothing. -/
def format (f : Format) (name id : Str) : Container :=
  ((D64.new f ⟨fun _ => 0, 0, 0, none⟩).formatImage name id).2.container

end Meatloaf.Disk.D64
