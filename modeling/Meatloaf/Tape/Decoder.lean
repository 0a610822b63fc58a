import Meatloaf.Text.U8Char

/-! `tape_decoder.cpp`, up to the scan of the image: durations are read from a container through a
window, and become the bytes of a TAP image of version 1. What a read of the container gives is up to
the container. -/
namespace Meatloaf.Tape

inductive TapeKind
  | tap
  | dmp
  | htap
deriving DecidableEq

/- What the header of a container says. -/
structure TapeFormat where
  kind : TapeKind
  version : UInt8
  platform : UInt8
  video : UInt8
  counter_rate : Nat := 2000000
  halfwaves : Bool
deriving DecidableEq

namespace TapeFormat

/-- `machineClock`. -/
def machineClock (f : TapeFormat) : Nat :=
  if f.platform = 1 then if f.video ≠ 0 then 1022727 else 1108405
  else if f.platform = 2 then if f.video ≠ 0 then 894886 else 886724
  else if f.video ≠ 0 then 1022727 else 985248

/- `C64-TAPE-RAW`, `DC2N-TAP-RAW` and `-HIRES`. -/
def tapSignature : Str := [0x43, 0x36, 0x34, 0x2d, 0x54, 0x41, 0x50, 0x45, 0x2d, 0x52, 0x41, 0x57]
def dmpSignature : Str := [0x44, 0x43, 0x32, 0x4e, 0x2d, 0x54, 0x41, 0x50, 0x2d, 0x52, 0x41, 0x57]
def htapSignature : Str := [0x2d, 0x48, 0x49, 0x52, 0x45, 0x53]

/- A number in so many bytes, the lowest first. -/
def number (bytes : Str) : Nat := bytes.foldr (fun b v => b.toNat + 256 * v) 0

/- What `open` makes of the header. -/
def ofHeader (d : Str) : Option TapeFormat :=
  if d.take 12 = tapSignature then some
    { kind := .tap
      version := d.getD 0x0C 0
      platform := d.getD 0x0D 0
      video := d.getD 0x0E 0
      halfwaves := d.getD 0x0C 0 = 2 }
  else if d.take 12 = dmpSignature then some
    { kind := .dmp
      version := d.getD 0x0C 0
      platform := d.getD 0x0D 0 &&& 0x0F
      video := d.getD 0x0E 0
      counter_rate := if number ((d.drop 0x10).take 4) = 0 then 2000000 else number ((d.drop 0x10).take 4)
      halfwaves := false }
  else if (d.drop 6).take 6 = htapSignature then some
    { kind := .htap
      version := d.getD 0x0C 0
      platform := d.getD 0x0D 0
      video := d.getD 0x0E 0
      halfwaves := true }
  else none

end TapeFormat

open TapeFormat

/-- `data_start`. -/
def data_start : Nat := 20

section Reading

variable {m : Type → Type} [Monad m] (read : Nat → Nat → m (Option Str)) (container_len : Nat) (f : TapeFormat)

/- The samples of a DMP duration. Each has two bytes of the container. -/
def samples : Nat → Nat → Nat → m (Option Nat × Nat)
  | 0, _, p => pure (none, p)
  | n + 1, total, p => do
    match ← read p 2 with
    | none => pure (none, p)
    | some two =>
      if number two ≠ 0xFFFF then pure (some (total + number two), p + 2) else samples n (total + number two) (p + 2)

/-- `nextValue`: a duration in machine cycles, and the place behind it. -/
def nextValue (p : Nat) : m (Option Nat × Nat) :=
  match f.kind with
  | .tap =>
    if container_len ≤ p then pure (none, p)
    else do
      match ← read p 1 with
      | none => pure (none, p)
      | some b =>
        if number b ≠ 0 then pure (some (number b * 8), p + 1)
        else if f.version = 0 then pure (some 20000, p + 1)
        else
          match ← read (p + 1) 3 with
          | none => pure (none, p + 1)
          | some three => pure (some (number three), p + 4)
  | .dmp => do
    match ← samples read (container_len + 1) 0 p with
    | (none, p) => pure (none, p)
    | (some total, p) =>
      pure (some ((total * f.machineClock + f.counter_rate / 2) % 2 ^ 64 / f.counter_rate % 2 ^ 32), p)
  | .htap => do
    match ← read p 2 with
    | none => pure (none, p)
    | some two =>
      if number two % 0x8000 = 0 then
        match ← read (p + 2) 6 with
        | none => pure (none, p + 2)
        | some rest =>
          let us := number ((rest.drop 2).take 2) * 2 ^ 16 + number ((rest.drop 4).take 2)
          pure (some ((us * 2 * f.machineClock + 1000000) / 2000000 % 2 ^ 32), p + 8)
      else pure (some ((number two % 0x8000 * f.machineClock + 1000000) / 2000000 % 2 ^ 32), p + 2)

/- The durations from a place on, up to so many. -/
def values : Nat → Nat → m (List Nat)
  | 0, _ => pure []
  | n + 1, p => do
    match ← nextValue read container_len f p with
    | (none, _) => pure []
    | (some cycles, p) => do
      let more ← values n p
      pure (cycles :: more)

/-- `appendValue`. -/
def appendValue (cycles : Nat) (image : Str) : Str :=
  if 8 ≤ cycles ∧ cycles ≤ 255 * 8 then image ++ [UInt8.ofNat ((cycles + 4) / 8)]
  else image ++ [0, UInt8.ofNat cycles, UInt8.ofNat (cycles >>> 8), UInt8.ofNat (cycles >>> 16)]

/- How far a conversion is. -/
structure Conversion where
  image : Str
  conv_pos : Nat
  conv_eof : Bool := false
deriving DecidableEq

/- A pass of the loop of `fetchTo`; `false` when a read has failed. -/
def pulse (c : Conversion) : m (Bool × Conversion) := do
  match ← nextValue read container_len f c.conv_pos with
  | (none, p) =>
    if 8 ≤ container_len - p then pure (false, { c with conv_pos := p })
    else pure (true, { c with conv_pos := p, conv_eof := true })
  | (some cycles, p) =>
    if f.halfwaves then
      match ← nextValue read container_len f p with
      | (none, p) => pure (true, { c with image := appendValue cycles c.image, conv_pos := p })
      | (some second, p) =>
        pure (true, { c with image := appendValue ((cycles + second) % 2 ^ 32) c.image, conv_pos := p })
    else pure (true, { c with image := appendValue cycles c.image, conv_pos := p })

/- The loop of `fetchTo`, when it is left within so many tests. -/
def convert (target : Nat) : Nat → Conversion → m (Option (Bool × Conversion))
  | 0, _ => pure none
  | n + 1, c =>
    if c.conv_eof ∨ target ≤ c.conv_pos then pure (some (true, c))
    else do
      match ← pulse read container_len f c with
      | (false, c) => pure (some (false, c))
      | (true, c) => convert target n c

end Reading

/- The window over the container, and how often the container was read. -/
structure Window where
  win_start : Nat := 0
  bytes : Str := []
  asked : Nat := 0

namespace Window

/- A read of the container at `p`: as many bytes as it gives, none of them when the read fails. -/
def refill (container : Str) (answer : Nat → Nat) (p : Nat) (w : Window) : Bool × Window :=
  if container.length ≤ p then (false, w)
  else
    let got := min (answer w.asked) (min 16384 (container.length - p))
    if got = 0 then (false, { w with asked := w.asked + 1 })
    else (true, { win_start := p, bytes := (container.drop p).take got, asked := w.asked + 1 })

/- The loop of `readBytes`. A pass takes a byte or more, or is the last one. -/
def readLoop (container : Str) (answer : Nat → Nat) : Nat → Nat → Nat → Window → Option Str × Window
  | 0, _, _, w => (some [], w)
  | n + 1, p, left, w =>
    if left = 0 then (some [], w)
    else
      let r := if p < w.win_start ∨ w.win_start + w.bytes.length ≤ p then refill container answer p w else (true, w)
      if r.1 then
        let off := p - r.2.win_start
        let chunk := min (r.2.bytes.length - off) left
        let more := readLoop container answer n (p + chunk) (left - chunk) r.2
        (more.1.map ((r.2.bytes.drop off).take chunk ++ ·), more.2)
      else (none, r.2)

/-- `readBytes`. -/
def readBytes (container : Str) (answer : Nat → Nat) (p n : Nat) : StateM Window (Option Str) :=
  readLoop container answer n p n

end Window

/-- `TapeDecoder`, with the image it converts to when there is one. -/
structure TapeDecoder where
  container : Str
  format : TapeFormat
  window : Window
  conversion : Option Conversion := none

namespace TapeDecoder

/-- `open`. -/
def openContainer (answer : Nat → Nat) (container : Str) : Option TapeDecoder :=
  if container.length < 20 then none
  else
    let r := Window.readBytes container answer 0 20 {}
    r.1.bind fun d => (ofHeader d).map fun format => { container := container, format := format, window := r.2 }

/- The header of the image. -/
def imageHeader (f : TapeFormat) : Str := tapSignature ++ [1, f.platform, f.video, 0, 0, 0, 0, 0]

/- The conversion when `fetchTo` comes to its loop. -/
def begun (d : TapeDecoder) : Conversion := d.conversion.getD { image := imageHeader d.format, conv_pos := data_start }

/-- `fetchTo`, of a container that is converted. -/
def fetchTo (answer : Nat → Nat) (target : Nat) (d : TapeDecoder) : Option (Bool × TapeDecoder) :=
  let r := convert (Window.readBytes d.container answer) d.container.length d.format (min target d.container.length)
    (d.container.length + 2) d.begun d.window
  r.1.map fun done =>
    if done.1 then
      (true, { d with
        window := r.2
        conversion := some (if d.container.length ≤ done.2.conv_pos then { done.2 with conv_eof := true } else done.2) })
    else (false, { d with window := r.2, conversion := some done.2 })

end TapeDecoder

end Meatloaf.Tape
