import Meatloaf.Lib.While
import Meatloaf.Archive.Medium

/-! `wra.cpp`: a Wraptor archive has no directory. Its entries are found by their signature, and
one is decompressed as a whole. -/
namespace Meatloaf.Archive

open Lib

def WRA_SIGNATURE : Str := [0xFF, 0x42, 0x4C, 0xFF]
def WRA_WINDOW : Nat := 32768
def WRA_START_BITS : Nat := 8
def WRA_MAX_BITS : Nat := 16
def WRA_MAX_OUTPUT : Nat := 1024 * 1024
def WRA_MAX_NAME : Nat := 32
def WRA_SCAN_CHUNK : Nat := 1024

/-- `wra_read_at`: all the bytes that are wanted, or none. -/
def wra_read_at (container : Str) (offset len : Nat) : Option Str :=
  if offset + len ≤ container.length then some ((container.drop offset).take len) else none

/-- `WRAMStream::Entry`. -/
structure WRAEntry where
  filename : Str
  file_type : UInt8
  sig_offset : Nat
  data_offset : Nat
  data_end : Nat := 0
  crc : Nat := 0
deriving DecidableEq

namespace WRAEntry

/- The scan: the bytes carried from the last chunk, where they are, the next offset, and what was found. -/
structure Scan where
  buf : Str := []
  base : Nat := 0
  pos : Nat := 0
  hits : List Nat := []

/- The signature at a place of a buffer. -/
def signed (buf : Str) (i : Nat) : Bool := (buf.drop i).take 4 = WRA_SIGNATURE

/- A chunk of the scan; `none` at the end of the container, or where it cannot be read. -/
def chunk (container : Str) (s : Scan) : Option Scan :=
  if s.pos < container.length then
    let want := min (container.length - s.pos) WRA_SCAN_CHUNK
    (wra_read_at container s.pos want).map fun bytes =>
      let buf := s.buf ++ bytes
      let carry := if 3 ≤ buf.length then 3 else buf.length
      { buf := buf.drop (buf.length - carry)
        base := s.pos + want - carry
        pos := s.pos + want
        hits := s.hits ++ ((List.range (buf.length - 3)).filter (signed buf)).map (s.base + ·) }
  else none

/-- The list `hits` of `loadEntries`, if `fuel` chunks are enough. A container that is too small for an entry is not
scanned. -/
def loadHits (fuel : Nat) (container : Str) : Option (List Nat) :=
  if container.length < WRA_SIGNATURE.length + 4 then none
  else (loop (chunk container) fuel {}).map (·.hits)

/-- The validation of a hit. -/
def validate (container : Str) (hit : Nat) : Option WRAEntry :=
  let p := hit + 4
  if container.length ≤ p then none
  else
    let want := min (container.length - p) (WRA_MAX_NAME + 2)
    (wra_read_at container p want).bind fun head =>
      let len := head.findIdx (· = 0)
      if len = 0 ∨ want ≤ len + 1 then none
      else
        let type_offset := p + len + 1
        if container.length ≤ type_offset then none
        else
          let file_type := head.getD (len + 1) 0
          if file_type < 1 ∨ 4 < file_type then none
          else some
            { filename := head.take len
              file_type := file_type
              sig_offset := hit
              data_offset := type_offset + 1 }

/- The span of an entry, up to the two bytes before `next`. -/
def span (container : Str) (next : Nat) (e : WRAEntry) : WRAEntry :=
  if next < (e.data_offset + 2) % 2 ^ 32 then { e with data_end := e.data_offset }
  else
    let data_end := (next + 2 ^ 32 - 2) % 2 ^ 32
    match wra_read_at container data_end 2 with
    | some crc => { e with data_end := data_end, crc := (crc.getD 0 0).toNat ||| (crc.getD 1 0).toNat <<< 8 }
    | none => { e with data_end := data_end }

def spans (container : Str) : List WRAEntry → List WRAEntry
  | [] => []
  | [e] => [span container container.length e]
  | e :: f :: rest => span container f.sig_offset e :: spans container (f :: rest)

end WRAEntry

/- The entries that `loadEntries` finds. A chunk of its scan has at least one byte. -/
def wraEntries (container : Str) : List WRAEntry :=
  match WRAEntry.loadHits (container.length + 1) container with
  | some hits => WRAEntry.spans container (hits.filterMap (WRAEntry.validate container))
  | none => []

/-- `WraDecoder`. -/
structure WraDecoder where
  input : Str
  pos : Nat := 0
  bit : Nat := 0
  ran_out : Bool := false
  wpos : Nat := 0
  window : Nat → UInt8 := fun _ => 0

namespace WraDecoder

/- The loop of `getBits`, with the bits it has so far. -/
def getBitsFrom : Nat → Nat → WraDecoder → Nat × WraDecoder
  | 0, v, d => (v, d)
  | n + 1, v, d =>
    if d.input.length ≤ d.pos then (v, { d with ran_out := true })
    else
      let v := v <<< 1 ||| ((d.input.getD d.pos 0).toNat >>> (7 - d.bit)) &&& 1
      getBitsFrom n v (if d.bit + 1 = 8 then { d with bit := 0, pos := d.pos + 1 } else { d with bit := d.bit + 1 })

/-- `getBits`. -/
def getBits (d : WraDecoder) (n : Nat) : Nat × WraDecoder := getBitsFrom n 0 d

end WraDecoder

/- What `extractEntry` has while it decodes. -/
structure WraDecoding where
  d : WraDecoder
  bits : Nat := WRA_START_BITS
  data : Str := []

namespace WraDecoding

/-- `emit`. -/
def emit (v : UInt8) (s : WraDecoding) : WraDecoding where
  d := { s.d with
    window := fun j => if j = s.d.wpos then v else s.d.window j
    wpos := if WRA_WINDOW ≤ s.d.wpos + 1 then 0 else s.d.wpos + 1 }
  bits := s.bits
  data := s.data ++ [v]

/- The loop of a copy, from its `i`th byte on. -/
def copyFrom (offset : Nat) : Nat → Nat → WraDecoding → WraDecoding
  | 0, _, s => s
  | length + 1, i, s => copyFrom offset length (i + 1) (s.emit (s.d.window ((offset - 1 + i) % WRA_WINDOW)))

/- The end of a round. -/
def bounded (s : WraDecoding) : Option Bool × WraDecoding :=
  (if WRA_MAX_OUTPUT < s.data.length then some false else none, s)

/-- A round of the loop: `ok` as it is left with, or another round. -/
def round (s : WraDecoding) : Option Bool × WraDecoding :=
  let flag := s.d.getBits 1
  if flag.1 = 0 then
    let v := flag.2.getBits 8
    let s := { s with d := v.2 }
    if v.2.ran_out then (some false, s) else (s.emit (UInt8.ofNat v.1)).bounded
  else
    let offset := flag.2.getBits s.bits
    if offset.2.ran_out then (some false, { s with d := offset.2 })
    else if offset.1 = 0 then
      let widen := offset.2.getBits 1
      let s := { s with d := widen.2 }
      if widen.2.ran_out then (some false, s)
      else if widen.1 = 0 then (some true, s)
      else
        let s := { s with bits := s.bits + 1 }
        if WRA_MAX_BITS < s.bits then (some false, s) else s.bounded
    else
      let length := offset.2.getBits 5
      let s := { s with d := length.2 }
      if length.2.ran_out then (some false, s) else (copyFrom offset.1 length.1 0 s).bounded

/- The loop, when it is left within `n` rounds. -/
def decode : Nat → WraDecoding → Option (Bool × WraDecoding)
  | 0, _ => none
  | n + 1, s =>
    if s.d.ran_out then some (false, s)
    else
      match s.round with
      | (some ok, t) => some (ok, t)
      | (none, t) => decode n t

end WraDecoding

/-- `WRAMStream`. -/
structure WRAMStream where
  container : Str
  entries : List WRAEntry := []
  header_parsed : Bool := false
  header_ok : Bool := false
  data : Str := []
  cached_entry : Int := -1

namespace WRAMStream

/-- `loadEntries`. -/
def loadEntries (s : WRAMStream) : Bool × WRAMStream :=
  if s.container.length < 4 + 4 then (false, { s with entries := [] })
  else
    let entries := wraEntries s.container
    (!entries.isEmpty, { s with entries := entries })

/-- `readHeader`. -/
def readHeader (s : WRAMStream) : Bool × WRAMStream :=
  if s.header_parsed then (s.header_ok, s)
  else
    let r := { s with header_parsed := true, header_ok := false }.loadEntries
    if r.1 then (true, { r.2 with header_ok := true }) else (false, r.2)

/- `(int32_t)` of an offset. -/
def int32 (n : Nat) : Int := if n < 2 ^ 31 then n else (n : Int) - 2 ^ 32

/-- `extractEntry`. A round of its loop takes a bit of the compressed bytes or is the last one. -/
def extractEntry (e : WRAEntry) (s : WRAMStream) : Option (Bool × WRAMStream) :=
  if s.cached_entry = int32 e.data_offset then some (true, s)
  else
    let s := { s with data := [], cached_entry := -1 }
    if e.data_end ≤ e.data_offset then some (false, s)
    else
      match wra_read_at s.container e.data_offset (e.data_end - e.data_offset) with
      | none => some (false, s)
      | some compressed =>
        (WraDecoding.decode (8 * compressed.length + 1) { d := { input := compressed } }).map fun r =>
          if r.1 then (true, { s with data := r.2.data, cached_entry := int32 e.data_offset })
          else (false, { s with data := [], cached_entry := -1 })

end WRAMStream

end Meatloaf.Archive
