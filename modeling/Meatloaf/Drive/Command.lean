import Meatloaf.Drive.Handler
import Meatloaf.Drive.Open

/-! `iecDrive::executeData`: the commands that move a channel or change the block allocation, and
what their arguments are read as. -/
namespace Meatloaf.Drive

open Lib Disk

def space : UInt8 := 0x20

/-- `mstr::replaceAll` of two spaces by one. The search goes on behind the space it has put in. -/
def replaceSpaces : Str → Str
  | a :: b :: s => if a = space ∧ b = space then space :: replaceSpaces s else a :: replaceSpaces (b :: s)
  | s => s

/- `atoi` on the device, where it is `strtol` and a `long` has 32 bits. -/
def toInt (s : Str) : Int := max (-2 ^ 31) (min (2 ^ 31 - 1) (atoi s))

/- A carriage return at the end is no part of the command. -/
def commandText (data : Str) : Str := if data.getLast? = some carriageReturn then data.dropLast else data

/-- `util_tokenize_uint8`: the numbers end up in bytes. -/
def util_tokenize_uint8 (s : Str) : List Nat := (util_tokenize s space).map fun token => (toInt token % 2 ^ 8).toNat

/-- `dosParseUint`, by `strtoul`. -/
def dosParseUint (s : Str) : Option Nat :=
  let signed := match s.dropWhile isspace with
    | 0x2d :: s => (true, s)
    | 0x2b :: s => (false, s)
    | s => (false, s)
  let digits := signed.2.takeWhile isdigit
  let value := readDigits 0 digits
  if digits = [] ∨ (signed.2.drop digits.length).headD 0 ≠ 0 then none
  else if 2 ^ 32 ≤ value then some (2 ^ 32 - 1)
  else some (if signed.1 then (2 ^ 32 - value) % 2 ^ 32 else value)

/-- What a command asks for. -/
inductive DosCommand where
  /- An argument is missing, or is no number. -/
  | malformed
  /- `P` -/
  | seekChannel (chan pos : Nat)
  /- `B-P` and `F-P` -/
  | positionChannel (chan pos : Nat) (within_block : Bool)
  /- `B-R`, `B-W`, `U1` and `U2` -/
  | seekChannelToBlock (channel_num : Nat) (b : Block) (extra : Nat) (for_write : Bool)
  /- `B-A` and `B-F` -/
  | setBlockAllocation (b : Block) (allocate : Bool)
  deriving DecidableEq

/- The arguments behind the letters of a command. -/
def arguments (command : Str) : Str := replaceSpaces (trim (command.drop 3))

def parsePosition (command : Str) (within_block : Bool) : DosCommand :=
  let pt := util_tokenize (arguments command) space
  match pt with
  | chan :: pos :: _ =>
    match dosParseUint chan, dosParseUint pos with
    | some chan, some pos => .positionChannel chan pos within_block
    | _, _ => .malformed
  | _ => .malformed

/- The numbers of a block, behind those of the channel and the drive. -/
def blockCommand (extra : Nat) (for_write : Bool) : List Nat → DosCommand
  | chan :: _ :: track :: sector :: _ => .seekChannelToBlock chan ⟨track, sector⟩ extra for_write
  | _ => .malformed

def parseBlock (command : Str) (extra : Nat) (for_write : Bool) : DosCommand :=
  blockCommand extra for_write (util_tokenize_uint8 (arguments command))

/- Three numbers have to be there, and the first two are used. -/
def allocationCommand (allocate : Bool) : List Nat → DosCommand
  | track :: sector :: _ :: _ => .setBlockAllocation ⟨track, sector⟩ allocate
  | _ => .malformed

def parseAllocation (command : Str) (allocate : Bool) : DosCommand :=
  allocationCommand allocate (util_tokenize_uint8 (arguments command))

def parseSeek (command : Str) : DosCommand :=
  match util_tokenize_uint8 (command.drop 1) with
  | chan :: hi :: mid :: low :: _ => .seekChannel chan (hi * 65536 + mid * 256 + low)
  | _ => .malformed

/- The commands that are modelled; `none` for another one. -/
def parseCommand (command : Str) : Option DosCommand :=
  match command with
  -- "B-"
  | 0x42 :: 0x2d :: letter :: _ =>
    if letter = 0x50 then some (parsePosition command true)
    else if letter = 0x52 ∨ letter = 0x57 then some (parseBlock command 1 (letter == 0x57))
    else if letter = 0x41 then some (parseAllocation command true)
    else if letter = 0x46 then some (parseAllocation command false)
    else none
  -- "F-P"
  | 0x46 :: 0x2d :: 0x50 :: _ => some (parsePosition command false)
  -- "U1" or "UA", "U2" or "UB"
  | 0x55 :: letter :: _ =>
    if letter = 0x31 ∨ letter = 0x41 then some (parseBlock command 0 false)
    else if letter = 0x32 ∨ letter = 0x42 then some (parseBlock command 0 true)
    else none
  -- "P", but not "PWD"
  | 0x50 :: rest => if [0x57, 0x44].isPrefixOf rest then none else some (parseSeek command)
  | _ => none

namespace Device

variable {σ ι : Type*} (ops : MStream σ) (alloc : Allocation ι)

def perform (d : Device σ ι) : DosCommand → Except Fault (Device σ ι)
  | .malformed => .ok (d.setStatusCode ST_SYNTAX_UNKNOWN)
  | .seekChannel chan pos => d.seekChannel ops chan pos
  | .positionChannel chan pos within_block => .ok (d.positionChannel ops chan pos within_block)
  | .seekChannelToBlock channel_num b extra for_write => .ok (d.seekChannelToBlock ops channel_num b extra for_write)
  | .setBlockAllocation b allocate => .ok (d.setBlockAllocation alloc b allocate)

/-- `executeData` of the commands that are modelled: the status is OK until a command says otherwise. -/
def executeData (d : Device σ ι) (data : Str) : Option (Except Fault (Device σ ι)) :=
  (parseCommand (commandText data)).map (perform ops alloc { d with status := {} })

end Device

end Meatloaf.Drive
