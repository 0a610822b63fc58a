import Meatloaf.Lib.Store
import Meatloaf.Text.U8Char

/-! Fast loaders are recognised by the code that they upload to the drive: a list of `M-W` commands, known
by address, length and checksum, and an `M-E` after the last of them. -/
namespace Meatloaf.Bus

open Lib

inductive FastLoader where
  | jiffy | epyx | fc3 | ar6 | dolphin | speeddos | hypraload
  deriving DecidableEq, Repr

inductive Prot where
  | load | save | header | loadimg
  deriving DecidableEq, Repr

structure MWSignature where
  address : Nat
  len : Nat
  checksum : Nat
  deriving DecidableEq, Repr

def epyxV1sig : List MWSignature :=
  [⟨0x0180, 0x20, 0x2E⟩, ⟨0x01A0, 0x20, 0xA5⟩]

def epyxV2V3sig : List MWSignature :=
  [⟨0x0180, 0x19, 0x53⟩, ⟨0x0199, 0x19, 0xA6⟩, ⟨0x01B2, 0x19, 0x8F⟩]

def ar6LoadSig : List MWSignature :=
  [⟨0x500, 0x23, 0x8c⟩, ⟨0x523, 0x23, 0xa8⟩, ⟨0x546, 0x23, 0x93⟩, ⟨0x569, 0x23, 0x0f⟩, ⟨0x58c, 0x23, 0xea⟩,
   ⟨0x5af, 0x23, 0x94⟩, ⟨0x5d2, 0x23, 0x6a⟩, ⟨0x5f5, 0x23, 0xb2⟩, ⟨0x618, 0x23, 0xbc⟩]

def ar6SaveSig : List MWSignature :=
  [⟨0x59b, 0x23, 0xe3⟩, ⟨0x5be, 0x23, 0x35⟩, ⟨0x5e1, 0x23, 0x3c⟩, ⟨0x604, 0x23, 0x2c⟩, ⟨0x627, 0x23, 0xe0⟩,
   ⟨0x64a, 0x23, 0x0e⟩, ⟨0x66d, 0x23, 0xd7⟩, ⟨0x690, 0x23, 0x03⟩, ⟨0x6b3, 0x23, 0xb8⟩, ⟨0x6d6, 0x23, 0xad⟩,
   ⟨0x6f9, 0x23, 0x38⟩, ⟨0x71c, 0x23, 0x8c⟩]

def ar3ImageLoaderSig : List MWSignature :=
  [⟨0x500, 0x20, 0xf1⟩, ⟨0x520, 0x20, 0x32⟩, ⟨0x540, 0x20, 0x7a⟩, ⟨0x560, 0x20, 0x99⟩, ⟨0x580, 0x20, 0xcd⟩,
   ⟨0x5a0, 0x20, 0x9b⟩]

def fc3LoadSig : List MWSignature :=
  [⟨0x400, 0x20, 0xb0⟩, ⟨0x420, 0x20, 0x6a⟩, ⟨0x440, 0x20, 0x51⟩, ⟨0x460, 0x20, 0x0a⟩, ⟨0x480, 0x20, 0x61⟩,
   ⟨0x4a0, 0x20, 0x9b⟩, ⟨0x4c0, 0x20, 0x18⟩, ⟨0x4e0, 0x20, 0x0b⟩, ⟨0x500, 0x20, 0xb7⟩, ⟨0x520, 0x20, 0xb7⟩,
   ⟨0x540, 0x20, 0xf7⟩, ⟨0x560, 0x20, 0x8f⟩, ⟨0x580, 0x20, 0x6b⟩, ⟨0x5a0, 0x20, 0x5d⟩, ⟨0x5c0, 0x20, 0x7b⟩,
   ⟨0x5e0, 0x20, 0x52⟩]

def fc3LoadImageSig : List MWSignature :=
  [⟨0x400, 0x20, 0x23⟩, ⟨0x420, 0x20, 0xfc⟩, ⟨0x440, 0x20, 0x25⟩, ⟨0x460, 0x20, 0xcd⟩, ⟨0x480, 0x20, 0x4d⟩,
   ⟨0x4a0, 0x20, 0xc2⟩, ⟨0x4c0, 0x20, 0x9e⟩, ⟨0x4e0, 0x20, 0x5a⟩, ⟨0x500, 0x20, 0xc9⟩, ⟨0x520, 0x20, 0xb2⟩,
   ⟨0x540, 0x20, 0x5c⟩, ⟨0x560, 0x20, 0x8a⟩, ⟨0x580, 0x20, 0xc5⟩, ⟨0x5a0, 0x20, 0x02⟩, ⟨0x5c0, 0x20, 0xae⟩,
   ⟨0x5e0, 0x20, 0x2d⟩]

def fc3SaveSig : List MWSignature :=
  [⟨0x500, 0x20, 0x16⟩, ⟨0x520, 0x20, 0x7e⟩, ⟨0x540, 0x20, 0xe1⟩, ⟨0x560, 0x20, 0xd8⟩, ⟨0x580, 0x20, 0xf2⟩,
   ⟨0x5a0, 0x20, 0xe2⟩, ⟨0x5c0, 0x20, 0xa3⟩, ⟨0x5e0, 0x20, 0x2e⟩, ⟨0x600, 0x20, 0x27⟩, ⟨0x620, 0x20, 0x09⟩,
   ⟨0x640, 0x20, 0xfc⟩, ⟨0x660, 0x20, 0x8e⟩, ⟨0x680, 0x20, 0xaf⟩, ⟨0x6a0, 0x20, 0xe0⟩, ⟨0x6c0, 0x20, 0xc9⟩,
   ⟨0x6e0, 0x20, 0xa4⟩]

def hypraLoadSig : List MWSignature :=
  [⟨0x300, 0x1e, 0x6d⟩, ⟨0x31e, 0x1e, 0xbc⟩, ⟨0x33c, 0x1e, 0x4a⟩, ⟨0x35a, 0x1e, 0xbf⟩, ⟨0x378, 0x1e, 0xe3⟩,
   ⟨0x396, 0x1e, 0x4c⟩, ⟨0x3b4, 0x1e, 0x38⟩, ⟨0x3d2, 0x1e, 0x82⟩, ⟨0x3f0, 0x1e, 0x43⟩, ⟨0x40e, 0x1e, 0x31⟩,
   ⟨0x42c, 0x1e, 0x34⟩, ⟨0x44a, 0x1e, 0xc1⟩, ⟨0x468, 0x1e, 0x46⟩, ⟨0x486, 0x1e, 0x5b⟩, ⟨0x4a4, 0x1e, 0x78⟩,
   ⟨0x4c2, 0x1e, 0xa4⟩, ⟨0x4e0, 0x1e, 0xb4⟩, ⟨0x4fe, 0x1e, 0x68⟩, ⟨0x51c, 0x1e, 0x7f⟩]

def speedDosLoadSig : List MWSignature :=
  [⟨0x300, 0x1e, 0xc9⟩, ⟨0x31e, 0x1e, 0xe9⟩, ⟨0x33c, 0x1e, 0xb9⟩, ⟨0x35a, 0x1e, 0x4d⟩, ⟨0x378, 0x1e, 0x5c⟩,
   ⟨0x396, 0x1e, 0x96⟩, ⟨0x3b4, 0x1e, 0x39⟩, ⟨0x3d2, 0x1e, 0xde⟩, ⟨0x3f0, 0x1e, 0x0d⟩, ⟨0x40e, 0x1e, 0xaf⟩,
   ⟨0x42c, 0x1e, 0x1e⟩, ⟨0x44a, 0x1e, 0xf6⟩, ⟨0x468, 0x1e, 0xd2⟩, ⟨0x486, 0x1e, 0x1b⟩, ⟨0x4a4, 0x1e, 0x5f⟩,
   ⟨0x4c2, 0x1e, 0x96⟩, ⟨0x4e0, 0x1e, 0x53⟩, ⟨0x4fe, 0x1e, 0x16⟩]

/-- `strncmp(cmd, text, n) == 0`: a NUL ends both strings. -/
def strncmp : Nat → Str → (Nat → UInt8) → Bool
  | 0, _, _ => true
  | n + 1, text, cmd =>
    cmd 0 == text.getD 0 0 && (text.getD 0 0 == 0 || strncmp n text.tail fun k => cmd (k + 1))

def MW : Str := [0x4D, 0x2D, 0x57]

/- The commands that start what was uploaded. -/
def ME (low high : UInt8) : Str := [0x4D, 0x2D, 0x45, low, high]

/-- `checkMWcmd`, on the write buffer and its length. -/
def checkMWcmd (sig : MWSignature) (buffer : Nat → UInt8) (length : Nat) : Bool :=
  !(decide (length < sig.len + 6) || !strncmp 3 MW buffer) &&
    ((buffer 3).toNat == sig.address % 256 && (buffer 4).toNat == sig.address / 256 % 256 &&
      (buffer 5).toNat == sig.len) &&
    ((Store.read buffer 6 sig.len).map UInt8.toNat).sum % 256 == sig.checksum

/-- `checkMWcmds`: the new value of the upload counter, where the command belongs to the upload. -/
def checkMWcmds (sig : List MWSignature) (offset uploadCtr : Nat) (buffer : Nat → UInt8) (length : Nat) : Option Nat :=
  if uploadCtr = 0 ∧ checkMWcmd (sig.getD 0 ⟨0, 0, 0⟩) buffer length = true then some (offset + 1)
  else if offset ≤ uploadCtr ∧ uploadCtr < offset + sig.length ∧
      checkMWcmd (sig.getD (uploadCtr - offset) ⟨0, 0, 0⟩) buffer length = true then some (uploadCtr + 1)
  else none

/-- What a command was taken for: a part of an upload, the request of a protocol, which goes on with a
channel, an answer in the status buffer, or the burst mode turned on or off. -/
inductive Request where
  | upload
  | fastLoad (loader : FastLoader) (request : Prot) (channel : Option Nat)
  | status (data : Str)
  | burst (enable : Bool)
  deriving DecidableEq, Repr

section requests

variable (enabled : FastLoader → Bool) (uploadCtr : Nat) (buffer : Nat → UInt8) (length : Nat)

/- An upload that is recognised goes on, and the counter says how far it is. -/
def uploads (sigs : List (List MWSignature × Nat)) : Option (Request × Nat) :=
  sigs.findSome? fun sig => (checkMWcmds sig.1 sig.2 uploadCtr buffer length).map (.upload, ·)

/- With its upload complete, the command `M-E` is a request. -/
def starts (count : Nat) (low high : UInt8) (loader : FastLoader) (request : Prot) (channel : Option Nat) :
    Option (Request × Nat) :=
  if uploadCtr = count ∧ strncmp 5 (ME low high) buffer = true then some (.fastLoad loader request channel, 0) else none

/- A command in the middle of an upload that is not checked any further. -/
def passes (counts : List Nat) (n : Nat) (text : Str) : Option (Request × Nat) :=
  if uploadCtr ∈ counts ∧ strncmp n text buffer = true then some (.upload, uploadCtr + 1) else none

def epyxRequest : Option (Request × Nat) :=
  if enabled .epyx = false then none
  else
    (uploads uploadCtr buffer length [(epyxV1sig, 10), (epyxV2V3sig, 20)]).or
      ((starts uploadCtr buffer 12 0xa2 0x01 .epyx .header none).or
        (starts uploadCtr buffer 23 0xa9 0x01 .epyx .header none))

def ar6Request : Option (Request × Nat) :=
  if enabled .ar6 = false then none
  else if strncmp 6 [0x4D, 0x2D, 0x52, 0xfe, 0xff, 0x01] buffer = true then some (.status [0x03], uploadCtr)
  else
    (uploads uploadCtr buffer length [(ar6LoadSig, 180), (ar6SaveSig, 190)]).or
      ((starts uploadCtr buffer 189 0x00 0x05 .ar6 .load (some 0)).or
        ((starts uploadCtr buffer 202 0xf4 0x05 .ar6 .save (some 1)).or
          ((uploads uploadCtr buffer length [(ar3ImageLoaderSig, 210)]).or
            ((passes uploadCtr buffer [216] 6 [0x4D, 0x2D, 0x57, 0xc0, 0x05, 0x20]).or
              ((passes uploadCtr buffer [217] 6 [0x4D, 0x2D, 0x57, 0xe0, 0x05, 0x20]).or
                (starts uploadCtr buffer 218 0x00 0x05 .ar6 .loadimg (some 0)))))))

def fc3Request : Option (Request × Nat) :=
  if enabled .fc3 = false then none
  else
    (uploads uploadCtr buffer length [(fc3LoadSig, 120), (fc3LoadImageSig, 140), (fc3SaveSig, 160)]).or
      ((starts uploadCtr buffer 136 0x9a 0x05 .fc3 .load (some 0)).or
        ((starts uploadCtr buffer 156 0x03 0x04 .fc3 .loadimg (some 0)).or
          ((starts uploadCtr buffer 176 0x9c 0x05 .fc3 .save (some 1)).or
            (starts uploadCtr buffer 176 0xaf 0x05 .fc3 .save (some 1)))))

def hypraloadRequest : Option (Request × Nat) :=
  if enabled .hypraload = false then none
  else
    (uploads uploadCtr buffer length [(hypraLoadSig, 220)]).or
      ((passes uploadCtr buffer [237, 238] 3 MW).or
        (starts uploadCtr buffer 239 0x8b 0x04 .hypraload .load (some 0)))

def speeddosRequest : Option (Request × Nat) :=
  if enabled .speeddos = false then none
  else
    (uploads uploadCtr buffer length [(speedDosLoadSig, 100)]).or
      (starts uploadCtr buffer 118 0x03 0x03 .speeddos .load (some 0))

def dolphinRequest : Option (Request × Nat) :=
  if enabled .dolphin = false then none
  else if length = 2 ∧ strncmp 2 [0x58, 0x51] buffer = true then some (.fastLoad .dolphin .load (some 0), uploadCtr)
  else if length = 2 ∧ strncmp 2 [0x58, 0x5A] buffer = true then some (.fastLoad .dolphin .save (some 1), uploadCtr)
  else if length = 3 ∧ strncmp 3 [0x58, 0x46, 0x2B] buffer = true then some (.burst true, uploadCtr)
  else if length = 3 ∧ strncmp 3 [0x58, 0x46, 0x2D] buffer = true then some (.burst false, uploadCtr)
  else none

/-- `isFastLoaderRequest`: what the command was taken for, if for anything, and the upload counter. The
parallel loaders count as disabled on boards without their pins. -/
def isFastLoaderRequest : Option Request × Nat :=
  match (epyxRequest enabled uploadCtr buffer length).or
      ((ar6Request enabled uploadCtr buffer length).or
        ((fc3Request enabled uploadCtr buffer length).or
          ((hypraloadRequest enabled uploadCtr buffer length).or
            ((speeddosRequest enabled uploadCtr buffer length).or
              (dolphinRequest enabled uploadCtr buffer length))))) with
  | some r => (some r.1, r.2)
  | none => (none, 0)

end requests

end Meatloaf.Bus
