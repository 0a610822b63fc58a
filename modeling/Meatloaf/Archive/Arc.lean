import Mathlib.Logic.Equiv.Basic
import Mathlib.Algebra.GroupWithZero.Nat
import Meatloaf.Lib.While

/-! `ArcDecoder`: what undoes the compression of an ARC entry, over the bytes of the entry in memory. -/
namespace Meatloaf.Archive

open Lib Function

def ARC_MODE_STORED : Nat := 0
def ARC_MODE_PACKED : Nat := 1
def ARC_MODE_SQUEEZED : Nat := 2
def ARC_MODE_CRUNCHED : Nat := 3
def ARC_MODE_SQUASHED : Nat := 4
def ARC_MODE_CRUNCHED1 : Nat := 5
def ARC_MAX_ENTRY_SIZE : Nat := 1024 * 1024
def ARC_LZW_EOF : Nat := 256
def ARC_LZW_TABLE_SIZE : Nat := 4096
def ARC_LZW_STACK_SIZE : Nat := 512

/- The part of the decoder that reads. The bit buffer carries a one above its bits. -/
structure ArcReader where
  input : List UInt8
  input_pos : Nat := 0
  eof : Bool := false
  bit_buffer : Nat := 2
  input_ran_out : Bool := false

namespace ArcReader

/-- `getByte`. -/
def getByte (r : ArcReader) : UInt8 × ArcReader :=
  if r.eof ∨ r.input.length ≤ r.input_pos then
    (0, { r with eof := true, input_ran_out := r.input_ran_out || decide (r.input.length ≤ r.input_pos) })
  else (r.input.getD r.input_pos 0, { r with input_pos := r.input_pos + 1 })

/-- `getBit`: the least significant bit of a byte comes first. -/
def getBit (r : ArcReader) : Bool × ArcReader :=
  let result := r.bit_buffer >>> 1
  if result = 1 then
    let b := r.getByte
    let filled := b.1.toNat ||| 0x0100
    (filled.testBit 0, { b.2 with bit_buffer := filled })
  else (result.testBit 0, { r with bit_buffer := result })

/- A number whose most significant bit comes first, behind one that has been read. -/
def getNumber : Nat → Nat → ArcReader → Nat × ArcReader
  | 0, code, r => (code, r)
  | n + 1, code, r => getNumber n (code <<< 1 ||| r.getBit.1.toNat) r.getBit.2

/- A number whose least significant bit comes first: what `n` bits from the one of weight `mask` on add to it. -/
def getMasked : Nat → Nat → Nat → ArcReader → Nat × ArcReader
  | 0, _, v, r => (v, r)
  | n + 1, mask, v, r =>
    getMasked n ((mask <<< 1) % 2 ^ 32) (if r.getBit.1 then v ||| mask else v) r.getBit.2

end ArcReader

/- The rows of the Huffman table: codes, their lengths, and the byte each stands for. -/
structure ArcTable where
  hc : Nat → Nat := fun _ => 0
  hl : Nat → Nat := fun _ => 0
  hv : Nat → UInt8 := fun _ => 0

structure ArcDecoder extends ArcReader, ArcTable where
  hcount : Int := 0
  lz_prefixes : Nat → Nat := fun _ => 0
  lz_ext : Nat → UInt8 := fun _ => 0
  stack : List UInt8 := []
  state : Nat := 0
  cdlen : Nat := 0
  wtcl : Int := 0
  wttcl : Int := 0
  oldcode : Nat := 0
  incode : Nat := 0
  kay : UInt8 := 0
  finchar : UInt8 := 0
  ncodes : Nat := 0
  mode : Nat := 0
  version : Nat := 0
  ctrl : Nat := 254
  crc : Nat := 0
  crc2 : UInt8 := 0
  trailer_check : Nat := 0
  trailer_size : Nat := 0
  has_trailer : Bool := false
  stream_ended : Bool := false

namespace ArcTable

/- Two rows change places. -/
def exchange (a b : Nat) (t : ArcTable) : ArcTable where
  hc := fun k => t.hc (Equiv.swap a b k)
  hl := fun k => t.hl (Equiv.swap a b k)
  hv := fun k => t.hv (Equiv.swap a b k)

/- The inner loop of the sort: the row at `i`, counted from one, moves down in steps of `m`. -/
def sink (m : Nat) : Nat → Nat → ArcTable → ArcTable
  | 0, _, t => t
  | fuel + 1, i, t =>
    if t.hl (i - 1) < t.hl (i + m - 1) then
      if m < i then sink m fuel (i - m) (t.exchange (i - 1) (i + m - 1)) else t.exchange (i - 1) (i + m - 1)
    else t

/-- `sortHuffman`: shell sort by descending length. -/
def sortHuffman (t : ArcTable) : ArcTable :=
  [128, 64, 32, 16, 8, 4, 2, 1].foldl
    (fun t m => (List.range' 1 (256 - m)).foldl (fun t j => sink m j j t) t) t

end ArcTable

namespace ArcDecoder

/- Reading for a decoder. -/
def reading {α : Type} (d : ArcDecoder) (r : α × ArcReader) : α × ArcDecoder := (r.1, { d with toArcReader := r.2 })

/- A row of the table: the length of a code, in five bits, and the code. No length is above 24. -/
def readRow (w : Nat) (d : ArcDecoder) : Bool × ArcDecoder :=
  let len := d.toArcReader.getMasked 5 1 0
  let d := { d with toArcReader := len.2, hv := update d.hv w (UInt8.ofNat w), hl := update d.hl w len.1 }
  if 24 < len.1 then (false, d)
  else if len.1 = 0 then (true, { d with hc := update d.hc w 0, hcount := d.hcount - 1 })
  else
    let code := d.toArcReader.getMasked len.1 1 0
    (true, { d with toArcReader := code.2, hc := update d.hc w code.1 })

/- The rows from `w` on, `n` of them. -/
def readRows : Nat → Nat → ArcDecoder → Bool × ArcDecoder
  | 0, _, d => (true, d)
  | n + 1, w, d => if (d.readRow w).1 then readRows n (w + 1) (d.readRow w).2 else d.readRow w

/-- `readHuffmanTable`. -/
def readHuffmanTable (d : ArcDecoder) : Bool × ArcDecoder :=
  let r := readRows 256 0 { d with hcount := 255 }
  if r.1 then (!r.2.eof, { r.2 with toArcTable := r.2.toArcTable.sortHuffman }) else (false, r.2)

/- What the rows of one length say of a code. -/
inductive Match
  | found (v : UInt8)
  | exhausted
  | shorter (now : Nat)

/- The inner loop of `huffin`, from row `now` down. There is no answer when the row is not in the table. -/
def matchRows (t : ArcTable) (size hcode : Nat) : Nat → Option Match
  | 0 => some (if t.hl 0 = size then if t.hc 0 = hcode then .found (t.hv 0) else .exhausted else .shorter 0)
  | now + 1 =>
    if 255 < now + 1 then none
    else if t.hl (now + 1) = size then
      if t.hc (now + 1) = hcode then some (.found (t.hv (now + 1))) else matchRows t size hcode now
    else some (.shorter (now + 1))

/- The outer loop: `n` lengths are left, beginning with `size`. -/
def huffinLoop : Nat → Nat → Nat → Nat → Nat → ArcDecoder → Option (UInt8 × ArcDecoder)
  | 0, _, _, _, _, d => some (0, { d with eof := true })
  | n + 1, size, mask, hcode, now, d =>
    let hcode := if d.toArcReader.getBit.1 then hcode ||| mask else hcode
    let d := { d with toArcReader := d.toArcReader.getBit.2 }
    (matchRows d.toArcTable size hcode now).bind fun
      | .found v => some (v, d)
      | .exhausted => some (0, { d with eof := true })
      | .shorter now => huffinLoop n (size + 1) ((mask <<< 1) % 2 ^ 32) hcode now d

/-- `huffin`. It begins in the last row, which may be the one before the table. -/
def huffin (d : ArcDecoder) : Option (UInt8 × ArcDecoder) :=
  if d.hcount < 0 then none else huffinLoop 23 1 1 0 d.hcount.toNat d

/-- `push`. -/
def push (c : UInt8) (d : ArcDecoder) : ArcDecoder :=
  if ARC_LZW_STACK_SIZE ≤ d.stack.length then { d with eof := true } else { d with stack := c :: d.stack }

/-- `pop`. -/
def pop (d : ArcDecoder) : UInt8 × ArcDecoder :=
  match d.stack with
  | [] => (0, { d with eof := true })
  | c :: stack => (c, { d with stack := stack })

/- The size and the checksum of a one-pass crunch. -/
def getTrailer (d : ArcDecoder) : ArcDecoder :=
  let check := d.toArcReader.getNumber 16 0
  let size := check.2.getNumber 24 0
  { d with toArcReader := (size.2.getNumber 16 0).2, trailer_check := check.1, trailer_size := size.1, has_trailer := true }

/- Codes grow to twelve bits and stay there. -/
def widen (d : ArcDecoder) : ArcDecoder :=
  if d.cdlen < 12 then
    if d.wttcl - 1 = 0 then { d with wtcl := d.wtcl * 2, cdlen := d.cdlen + 1, wttcl := d.wtcl * 2 }
    else { d with wttcl := d.wttcl - 1 }
  else d

/-- `getCode`. -/
def getCode (d : ArcDecoder) : Nat × ArcDecoder :=
  let r := d.reading (d.toArcReader.getNumber d.cdlen 0)
  let trailed := if r.1 = ARC_LZW_EOF ∧ r.2.mode = ARC_MODE_CRUNCHED1 then r.2.getTrailer else r.2
  (r.1, trailed.widen)

/- An empty table, the two reserved codes apart; the first widening is short by these two. -/
def clear (d : ArcDecoder) : ArcDecoder :=
  { d with stack := [], ncodes := 258, wtcl := 256, wttcl := 254, cdlen := 9 }

/- State 0 of `uncrunch`. -/
def begin (d : ArcDecoder) : UInt8 × ArcDecoder :=
  let r := d.clear.getCode
  let d := { r.2 with oldcode := r.1 }
  if r.1 = ARC_LZW_EOF then (0, { d with eof := true, stream_ended := true })
  else
    let kay := UInt8.ofNat r.1
    (kay, { d with kay := kay, finchar := kay, state := 1 })

/- The loop along the prefixes of a code. -/
def walk (s : Nat × ArcDecoder) : Option (Nat × ArcDecoder) :=
  if 255 < s.1 ∧ s.1 < ARC_LZW_TABLE_SIZE then some (s.2.lz_prefixes s.1, s.2.push (s.2.lz_ext s.1)) else none

/- The code that is expanded for one that was read, and the decoder that expands it. -/
def resolve (incode : Nat) (d : ArcDecoder) : Nat × ArcDecoder :=
  if d.ncodes ≤ incode then (d.oldcode, { d with kay := d.finchar, incode := d.ncodes }.push d.finchar)
  else (incode, { d with incode := incode })

/- State 1, when `fuel` tests of the loop are enough. -/
def expand (fuel : Nat) (d : ArcDecoder) : Option (UInt8 × ArcDecoder) :=
  let r := d.getCode
  if r.1 = ARC_LZW_EOF then some (0, { r.2 with incode := r.1, state := 0, eof := true, stream_ended := true })
  else
    (loop walk fuel (r.2.resolve r.1)).map fun s =>
      if ARC_LZW_TABLE_SIZE ≤ s.1 then (0, { s.2 with eof := true })
      else (UInt8.ofNat s.1, { s.2 with kay := UInt8.ofNat s.1, finchar := UInt8.ofNat s.1, state := 2 })

/- State 2 at the end of a string: a new entry of the table. -/
def file (d : ArcDecoder) : ArcDecoder :=
  let d := if d.ncodes < ARC_LZW_TABLE_SIZE then
      { d with lz_prefixes := update d.lz_prefixes d.ncodes d.oldcode, lz_ext := update d.lz_ext d.ncodes d.kay
               ncodes := d.ncodes + 1 }
    else d
  { d with oldcode := d.incode, state := 1 }

/-- `uncrunch`. -/
def uncrunch (fuel : Nat) (d : ArcDecoder) : Option (UInt8 × ArcDecoder) :=
  match d.state with
  | 0 => some d.begin
  | 1 => d.expand fuel
  | 2 => if d.stack = [] then d.file.expand fuel else some d.pop
  | _ => some (0, { d with eof := true })

/-- `unpack`. -/
def unpack (fuel : Nat) (d : ArcDecoder) : Option (UInt8 × ArcDecoder) :=
  if d.mode = ARC_MODE_STORED ∨ d.mode = ARC_MODE_PACKED then some (d.reading d.toArcReader.getByte)
  else if d.mode = ARC_MODE_SQUEEZED ∨ d.mode = ARC_MODE_SQUASHED then d.huffin
  else if d.mode = ARC_MODE_CRUNCHED ∨ d.mode = ARC_MODE_CRUNCHED1 then d.uncrunch fuel
  else some (0, { d with eof := true })

/-- `updateChecksum`. -/
def updateChecksum (c : UInt8) (d : ArcDecoder) : ArcDecoder :=
  if d.version = 1 then { d with crc := (d.crc + c.toNat) % 2 ^ 32 }
  else { d with crc2 := d.crc2 + 1, crc := (d.crc + (c ^^^ (d.crc2 + 1)).toNat) % 2 ^ 32 }

end ArcDecoder

/- What `extractEntry` knows of an entry. -/
structure ArcEntry where
  filename : List UInt8
  version : Nat
  mode : Nat
  size : Nat

namespace ArcEntry

variable (e : ArcEntry)

/- The decoder behind the header of the entry. -/
def decoder (compressed : List UInt8) : ArcDecoder where
  input := compressed
  input_pos := 11 + e.filename.length + (if 1 < e.version then 3 else 0)
  version := e.version
  mode := e.mode

/- How many bytes are wanted. -/
def wanted : Nat :=
  min (if e.mode = ARC_MODE_CRUNCHED1 ∨ e.size = 0 then 65536 else e.size) ARC_MAX_ENTRY_SIZE

/- The inner loop of a run: up to `count` times the byte. -/
def repeated (length : Nat) (c : UInt8) : Nat → ArcDecoder × List UInt8 → ArcDecoder × List UInt8
  | 0, s => s
  | count + 1, s =>
    if s.2.length < length then repeated length c count (s.1.updateChecksum c, s.2 ++ [c]) else s

/- A byte goes out. -/
def emit (c : UInt8) (s : ArcDecoder × List UInt8) : ArcDecoder × List UInt8 := (s.1.updateChecksum c, s.2 ++ [c])

/- How often the byte of a run comes before the last time. -/
def runLength (count : UInt8) : Nat := (if count = 0 then if e.version = 1 then 255 else 256 else count.toNat) - 1

/- One round of the decode loop of `extractEntry`: whether there is another one, and what it leaves. -/
def round (fuel : Nat) (s : ArcDecoder × List UInt8) : Option (Bool × ArcDecoder × List UInt8) :=
  if e.wanted ≤ s.2.length then some (false, s)
  else
    (s.1.unpack fuel).bind fun r =>
      if r.2.eof then some (false, r.2, s.2)
      else if (e.mode ≠ ARC_MODE_STORED ∧ e.mode ≠ ARC_MODE_SQUEEZED) ∧ r.1.toNat = r.2.ctrl then
        (r.2.unpack fuel).bind fun count =>
          (count.2.unpack fuel).bind fun c =>
            if c.2.eof then some (false, c.2, s.2)
            else some (true, emit c.1 (repeated e.wanted c.1 (e.runLength count.1) (c.2, s.2)))
      else some (true, emit r.1 (r.2, s.2))

/- The decode loop, when it is left within `n` rounds. -/
def decodeLoop (fuel : Nat) : Nat → ArcDecoder × List UInt8 → Option (ArcDecoder × List UInt8)
  | 0, _ => none
  | n + 1, s => (e.round fuel s).bind fun r => if r.1 then decodeLoop fuel n r.2 else some r.2

/- What comes before the loop; `none` for a table that cannot be read. -/
def prepare (compressed : List UInt8) : Option ArcDecoder :=
  let d := e.decoder compressed
  if e.mode = ARC_MODE_PACKED then
    some { d with toArcReader := d.toArcReader.getByte.2, ctrl := d.toArcReader.getByte.1.toNat }
  else if e.mode = ARC_MODE_SQUEEZED ∨ e.mode = ARC_MODE_SQUASHED then
    if d.readHuffmanTable.1 then some d.readHuffmanTable.2 else none
  else some d

/-- `extractEntry`: the bytes of an entry. -/
def extract (fuel n : Nat) (compressed : List UInt8) : Option (List UInt8) :=
  (e.prepare compressed).bind fun d => (e.decodeLoop fuel n (d, [])).map Prod.snd

end ArcEntry

end Meatloaf.Archive
