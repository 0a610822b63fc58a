import Meatloaf.Drive.Command
import Meatloaf.Drive.Direct

/-! The arguments of the block commands, in decimal digits behind runs of spaces. -/
namespace Meatloaf.Drive

open Lib Disk

/-- Arguments, each behind a run of spaces, whose length is one more than the number given; another run
may follow them. -/
structure Spaced where
  args : List (Nat × Str)
  after : Nat
  digits : ∀ a ∈ args, a.2 ≠ [] ∧ ∀ c ∈ a.2, isdigit c = true

namespace Spaced

def run (a : Nat × Str) : Str := List.replicate (a.1 + 1) space ++ a.2

def text (p : Spaced) : Str := p.args.flatMap run ++ List.replicate p.after space

/-- The numbers that the digits say. -/
def values (p : Spaced) : List Nat := p.args.map fun a => readDigits 0 a.2

/- A number as it ends up in a byte. -/
def byte (value : Nat) : Nat := min value (2 ^ 31 - 1) % 2 ^ 8

/-- What the arguments are read as: the runs between them are cut to half, and what is left of each but
for one space separates numbers that are not there. -/
def bytes (p : Spaced) : List Nat :=
  match p.args with
  | [] => []
  | first :: rest => byte (readDigits 0 first.2) ::
    rest.flatMap fun a => List.replicate (a.1 / 2) 0 ++ [byte (readDigits 0 a.2)]

end Spaced

/- Cutting the runs -/

theorem replaceSpaces_cons {c : UInt8} (other : c ≠ space) (s : Str) :
    replaceSpaces (c :: s) = c :: replaceSpaces s := by
  cases s with
  | nil => rfl
  | cons b s => rw [replaceSpaces, if_neg fun both => other both.1]

theorem replaceSpaces_plain {piece : Str} (plain : space ∉ piece) (s : Str) :
    replaceSpaces (piece ++ s) = piece ++ replaceSpaces s := by
  induction piece with
  | nil => rfl
  | cons c piece ih =>
    rw [List.mem_cons, not_or] at plain
    rw [List.cons_append, replaceSpaces_cons (Ne.symm plain.1), ih plain.2, List.cons_append]

theorem replaceSpaces_pair (s : Str) : replaceSpaces (space :: space :: s) = space :: replaceSpaces s := by
  rw [replaceSpaces, if_pos ⟨rfl, rfl⟩]

theorem replaceSpaces_last {s : Str} (plain : s.head? ≠ some space) :
    replaceSpaces (space :: s) = space :: replaceSpaces s := by
  cases s with
  | nil => rfl
  | cons b s => rw [replaceSpaces, if_neg fun both => plain (congrArg some both.2)]

/-- A run is cut to half of it, or a space more. -/
theorem replaceSpaces_run {s : Str} (plain : s.head? ≠ some space) (k : Nat) :
    replaceSpaces (List.replicate (k + 1) space ++ s) = List.replicate (k / 2 + 1) space ++ replaceSpaces s := by
  induction k using Nat.strong_induction_on with
  | _ k ih =>
    match k with
    | 0 => exact replaceSpaces_last plain
    | 1 =>
      have pair := replaceSpaces_pair s
      exact pair
    | k + 2 =>
      have half : (k + 2) / 2 = k / 2 + 1 := by omega
      have pair := replaceSpaces_pair (List.replicate (k + 1) space ++ s)
      rw [half, List.replicate_succ (n := k / 2 + 1), List.cons_append, ← ih k (by omega), ← pair]
      rfl

/- Cutting the text at the runs -/

theorem tokens_plain {separator : UInt8} {piece : Str} (plain : separator ∉ piece) (token s : Str) :
    tokens separator token (piece ++ s) = tokens separator (token ++ piece) s := by
  induction piece generalizing token with
  | nil => rw [List.nil_append, List.append_nil]
  | cons c piece ih =>
    rw [List.mem_cons, not_or] at plain
    rw [List.cons_append, tokens, if_neg (Ne.symm plain.1), ih plain.2, List.append_assoc, List.singleton_append]

theorem tokens_run (separator : UInt8) (token s : Str) (m : Nat) :
    tokens separator token (List.replicate (m + 1) separator ++ s) =
      token :: List.replicate m [] ++ tokens separator [] s := by
  induction m generalizing token with
  | zero => rw [List.replicate_one, List.singleton_append, tokens, if_pos rfl]; rfl
  | succ m ih =>
    rw [List.replicate_succ, List.cons_append, tokens, if_pos rfl, ih, List.replicate_succ]
    rfl

namespace Spaced

theorem digit_plain {piece : Str} (all : ∀ c ∈ piece, isdigit c = true) : space ∉ piece := fun member =>
  absurd (all space member) (by decide)

/- What is left of the runs. -/
def cut (a : Nat × Str) : Str := List.replicate (a.1 / 2 + 1) space ++ a.2

theorem replaceSpaces_args (args : List (Nat × Str)) (digits : ∀ a ∈ args, a.2 ≠ [] ∧ ∀ c ∈ a.2, isdigit c = true) :
    replaceSpaces (args.flatMap run) = args.flatMap cut := by
  induction args with
  | nil => rfl
  | cons a args ih =>
    obtain ⟨some, all⟩ := digits a List.mem_cons_self
    have plain := digit_plain all
    have head : (a.2 ++ args.flatMap run).head? ≠ Option.some space := by
      cases text : a.2 with
      | nil => exact absurd text some
      | cons c rest =>
        intro first
        have same : c = space := Option.some.inj first
        exact plain (by rw [text, same]; exact List.mem_cons_self)
    rw [List.flatMap_cons, run, List.append_assoc, replaceSpaces_run head, replaceSpaces_plain plain,
      ih fun b member => digits b (List.mem_cons_of_mem a member), List.flatMap_cons, cut, List.append_assoc]

/-- The tokens: the arguments, and one with nothing in it for each space too many. -/
theorem tokens_args (args : List (Nat × Str)) (digits : ∀ a ∈ args, a.2 ≠ [] ∧ ∀ c ∈ a.2, isdigit c = true)
    {token : Str} (some : token ≠ []) :
    tokens space token (args.flatMap cut) =
      token :: args.flatMap fun a => List.replicate (a.1 / 2) [] ++ [a.2] := by
  induction args generalizing token with
  | nil => rw [List.flatMap_nil, tokens, if_neg some]; rfl
  | cons a args ih =>
    obtain ⟨more, all⟩ := digits a List.mem_cons_self
    rw [List.flatMap_cons, cut, List.append_assoc, tokens_run, tokens_plain (digit_plain all), List.nil_append,
      ih (fun b member => digits b (List.mem_cons_of_mem a member)) more, List.flatMap_cons]
    simp

theorem util_tokenize_cut {first : Nat × Str} {rest : List (Nat × Str)}
    (digits : ∀ a ∈ first :: rest, a.2 ≠ [] ∧ ∀ c ∈ a.2, isdigit c = true) :
    util_tokenize (first.2 ++ rest.flatMap cut) space =
      first.2 :: rest.flatMap fun a => List.replicate (a.1 / 2) [] ++ [a.2] := by
  obtain ⟨some, all⟩ := digits first List.mem_cons_self
  rw [util_tokenize, tokens_plain (digit_plain all), List.nil_append,
    tokens_args rest (fun b member => digits b (List.mem_cons_of_mem first member)) some]

theorem toInt_digits {digits : Str} (some : digits ≠ []) (all : ∀ c ∈ digits, isdigit c = true) :
    (toInt digits % 2 ^ 8).toNat = byte (readDigits 0 digits) := by
  have value : atoi digits = readDigits 0 digits := (Numeral.digits some all rfl).atoi
  unfold toInt byte
  rw [value]
  omega

end Spaced

/- Trimming the runs -/

theorem isdigit_solid {c : UInt8} (digit : isdigit c = true) : isspace c = false ∧ (c == carriageReturn) = false :=
  forall_byte (fun c => isdigit c = true → isspace c = false ∧ (c == carriageReturn) = false) (by decide +kernel) c digit

theorem rdropWhile_end {p : UInt8 → Bool} {init : Str} {d : UInt8} (keeps : p d = false) {blank : UInt8}
    (drops : p blank = true) (m : Nat) :
    (init ++ [d] ++ List.replicate m blank).rdropWhile p = init ++ [d] := by
  induction m with
  | zero =>
    rw [List.replicate_zero, List.append_nil]
    exact List.rdropWhile_concat_neg p init d (by simp [keeps])
  | succ m ih =>
    rw [List.replicate_succ', ← List.append_assoc, List.rdropWhile_concat_pos p _ _ drops, ih]

/-- What stands between the runs at both ends is left. -/
theorem trim_core {c d : UInt8} {core init rest : Str} (first : core = c :: rest) (last : core = init ++ [d])
    (begins : isdigit c = true) (ends : isdigit d = true) (n m : Nat) :
    trim (List.replicate n space ++ core ++ List.replicate m space) = core := by
  have front : (List.replicate n space ++ core ++ List.replicate m space).dropWhile isspace =
      core ++ List.replicate m space := by
    have blank : ∀ b ∈ List.replicate n space, isspace b = true := by
      intro b member
      rw [List.eq_of_mem_replicate member]
      rfl
    rw [List.append_assoc, List.dropWhile_append_of_pos blank, first, List.cons_append, List.dropWhile_cons_of_neg]
    simp [(isdigit_solid begins).1]
  have back : (core ++ List.replicate m space).rdropWhile (· == carriageReturn) = core ++ List.replicate m space := by
    cases m with
    | zero =>
      rw [List.replicate_zero, List.append_nil, last]
      exact List.rdropWhile_concat_neg _ init d (by simp [(isdigit_solid ends).2])
    | succ m =>
      rw [List.replicate_succ', ← List.append_assoc]
      exact List.rdropWhile_concat_neg _ _ _ (by decide)
  rw [trim, front, back, last]
  exact rdropWhile_end (isdigit_solid ends).1 rfl m

theorem trim_spaces (m : Nat) : trim (List.replicate m space) = [] := by
  have blank : ∀ b ∈ List.replicate m space, isspace b = true := by
    intro b member
    rw [List.eq_of_mem_replicate member]
    rfl
  rw [trim, List.dropWhile_eq_nil_iff.mpr blank]
  rfl

namespace Spaced

/- The last of the arguments ends in a digit. -/
theorem core_last {first : Nat × Str} {rest : List (Nat × Str)}
    (digits : ∀ a ∈ first :: rest, a.2 ≠ [] ∧ ∀ c ∈ a.2, isdigit c = true) :
    ∃ init d, first.2 ++ rest.flatMap run = init ++ [d] ∧ isdigit d = true := by
  have ended : ∀ a : Nat × Str, a ∈ first :: rest → ∃ init d, a.2 = init ++ [d] ∧ isdigit d = true := by
    intro a member
    obtain ⟨some, all⟩ := digits a member
    exact ⟨a.2.dropLast, a.2.getLast some, (List.dropLast_concat_getLast some).symm, all _ (List.getLast_mem some)⟩
  rcases List.eq_nil_or_concat rest with rfl | ⟨before, a, rfl⟩
  · obtain ⟨init, d, whole, digit⟩ := ended first List.mem_cons_self
    exact ⟨init, d, by rw [List.flatMap_nil, List.append_nil, whole], digit⟩
  · obtain ⟨init, d, whole, digit⟩ := ended a (by simp)
    refine ⟨first.2 ++ (before.flatMap run ++ (List.replicate (a.1 + 1) space ++ init)), d, ?_, digit⟩
    rw [List.concat_eq_append, List.flatMap_append, List.flatMap_singleton, run, whole]
    simp

/-- The bytes that a command has for arguments, from the first space or the second one on. -/
theorem util_tokenize_text (p : Spaced) (j : Nat) (near : j ≤ 1) :
    util_tokenize_uint8 (replaceSpaces (trim (p.text.drop j))) = p.bytes := by
  obtain ⟨args, after, digits⟩ := p
  cases args with
  | nil =>
    have blank : (Spaced.text ⟨[], after, digits⟩).drop j = List.replicate (after - j) space := by
      simp [text]
    rw [blank, trim_spaces]
    rfl
  | cons first rest =>
    obtain ⟨some, all⟩ := digits first List.mem_cons_self
    obtain ⟨init, d, last, digit⟩ := core_last digits
    have core : (Spaced.text ⟨first :: rest, after, digits⟩).drop j =
        List.replicate (first.1 + 1 - j) space ++ (first.2 ++ rest.flatMap run) ++ List.replicate after space := by
      rw [text, List.flatMap_cons, run, List.append_assoc, List.append_assoc, List.append_assoc,
        List.drop_append_of_le_length (by rw [List.length_replicate]; omega), List.drop_replicate]
      simp only [List.append_assoc]
    obtain ⟨c, tail, begins⟩ := List.exists_cons_of_ne_nil some
    have head : first.2 ++ rest.flatMap run = c :: (tail ++ rest.flatMap run) := by rw [begins]; rfl
    have front : isdigit c = true := all c (by rw [begins]; exact List.mem_cons_self)
    have numbers : ∀ a ∈ rest, (toInt a.2 % 2 ^ 8).toNat = byte (readDigits 0 a.2) := fun a member =>
      toInt_digits (digits a (List.mem_cons_of_mem first member)).1 (digits a (List.mem_cons_of_mem first member)).2
    rw [core, trim_core head last front digit, replaceSpaces_plain (digit_plain all),
      replaceSpaces_args rest fun b member => digits b (List.mem_cons_of_mem first member), util_tokenize_uint8,
      util_tokenize_cut digits, List.map_cons, toInt_digits some all, List.map_flatMap, bytes]
    refine congrArg (byte (readDigits 0 first.2) :: ·) (List.flatMap_congr fun a member => ?_)
    rw [List.map_append, List.map_replicate, List.map_singleton, numbers a member]
    rfl

end Spaced

/-- The block commands. -/
inductive BlockCommand where
  | BA | BF | BR | BW | U1 | U2
  deriving DecidableEq

namespace BlockCommand

def letters : BlockCommand → Str
  | BA => [0x42, 0x2d, 0x41]
  | BF => [0x42, 0x2d, 0x46]
  | BR => [0x42, 0x2d, 0x52]
  | BW => [0x42, 0x2d, 0x57]
  | U1 => [0x55, 0x31]
  | U2 => [0x55, 0x32]

/- The block that the numbers of a command name: behind the drive, and the channel before it. -/
def named : BlockCommand → List Nat → Option DosCommand
  | BA, _ :: track :: sector :: _ => some (.setBlockAllocation ⟨track, sector⟩ true)
  | BF, _ :: track :: sector :: _ => some (.setBlockAllocation ⟨track, sector⟩ false)
  | BR, chan :: _ :: track :: sector :: _ => some (.seekChannelToBlock chan ⟨track, sector⟩ 1 false)
  | BW, chan :: _ :: track :: sector :: _ => some (.seekChannelToBlock chan ⟨track, sector⟩ 1 true)
  | U1, chan :: _ :: track :: sector :: _ => some (.seekChannelToBlock chan ⟨track, sector⟩ 0 false)
  | U2, chan :: _ :: track :: sector :: _ => some (.seekChannelToBlock chan ⟨track, sector⟩ 0 true)
  | _, _ => none

/- The block that the bytes of a command are taken for. `B-A` and `B-F` begin with the first of three. -/
def taken : BlockCommand → List Nat → Option DosCommand
  | BA, track :: sector :: _ :: _ => some (.setBlockAllocation ⟨track, sector⟩ true)
  | BF, track :: sector :: _ :: _ => some (.setBlockAllocation ⟨track, sector⟩ false)
  | BA, _ => none
  | BF, _ => none
  | command, bytes => command.named bytes

variable (command : BlockCommand) (p : Spaced)

/- The text of a command, with a carriage return or not. -/
def data (cr : Bool) : Str := command.letters ++ p.text ++ if cr then [carriageReturn] else []

theorem commandText_snoc (text : Str) : commandText (text ++ [carriageReturn]) = text := by
  rw [commandText, if_pos List.getLast?_concat, List.dropLast_concat]

theorem commandText_plain {text : Str} (plain : carriageReturn ∉ text) : commandText text = text :=
  if_neg fun last => plain (List.mem_of_getLast? last)

theorem text_plain : carriageReturn ∉ p.text := by
  rw [Spaced.text, List.mem_append, List.mem_flatMap]
  rintro (⟨a, member, inside⟩ | after)
  · rcases List.mem_append.mp inside with blank | digit
    · exact absurd (List.eq_of_mem_replicate blank) (by decide)
    · exact absurd ((p.digits a member).2 _ digit) (by decide)
  · exact absurd (List.eq_of_mem_replicate after) (by decide)

theorem commandText_data (cr : Bool) : commandText (command.data p cr) = command.letters ++ p.text := by
  cases cr with
  | true => exact commandText_snoc _
  | false =>
    have whole : command.data p false = command.letters ++ p.text := List.append_nil _
    rw [whole]
    refine commandText_plain fun member => (List.mem_append.mp member).elim ?_ (text_plain p)
    cases command <;> decide

/- The command is parsed as the bytes are taken. -/
theorem parse_bytes {bytes : List Nat} (read : util_tokenize_uint8 (arguments (command.letters ++ p.text)) = bytes) :
    parseCommand (command.letters ++ p.text) = some ((command.taken bytes).getD .malformed) := by
  have allocation (allocate : Bool) :
      some (parseAllocation (command.letters ++ p.text) allocate) = some (allocationCommand allocate bytes) :=
    congrArg (fun bytes => some (allocationCommand allocate bytes)) read
  have block (extra : Nat) (for_write : Bool) :
      some (parseBlock (command.letters ++ p.text) extra for_write) = some (blockCommand extra for_write bytes) :=
    congrArg (fun bytes => some (blockCommand extra for_write bytes)) read
  cases command with
  | BA =>
    refine (allocation true).trans ?_
    rcases bytes with _ | ⟨_, _ | ⟨_, _ | _⟩⟩ <;> rfl
  | BF =>
    refine (allocation false).trans ?_
    rcases bytes with _ | ⟨_, _ | ⟨_, _ | _⟩⟩ <;> rfl
  | BR =>
    refine (block 1 false).trans ?_
    rcases bytes with _ | ⟨_, _ | ⟨_, _ | ⟨_, _ | _⟩⟩⟩ <;> rfl
  | BW =>
    refine (block 1 true).trans ?_
    rcases bytes with _ | ⟨_, _ | ⟨_, _ | ⟨_, _ | _⟩⟩⟩ <;> rfl
  | U1 =>
    refine (block 0 false).trans ?_
    rcases bytes with _ | ⟨_, _ | ⟨_, _ | ⟨_, _ | _⟩⟩⟩ <;> rfl
  | U2 =>
    refine (block 0 true).trans ?_
    rcases bytes with _ | ⟨_, _ | ⟨_, _ | ⟨_, _ | _⟩⟩⟩ <;> rfl

theorem arguments_bytes : util_tokenize_uint8 (arguments (command.letters ++ p.text)) = p.bytes := by
  have block : (command.letters ++ p.text).drop 3 = p.text.drop 0 ∨ (command.letters ++ p.text).drop 3 = p.text.drop 1 := by
    cases command with
    | BA => exact .inl rfl
    | BF => exact .inl rfl
    | BR => exact .inl rfl
    | BW => exact .inl rfl
    | U1 => exact .inr rfl
    | U2 => exact .inr rfl
  rw [arguments]
  rcases block with whole | behind
  · rw [whole]
    exact p.util_tokenize_text 0 (Nat.zero_le 1)
  · rw [behind]
    exact p.util_tokenize_text 1 (Nat.le_refl 1)

/-- What a command is parsed as. -/
theorem parse_data (cr : Bool) :
    parseCommand (commandText (command.data p cr)) = some ((command.taken p.bytes).getD .malformed) := by
  rw [commandText_data]
  exact command.parse_bytes p (command.arguments_bytes p)

variable {σ ι : Type*} (ops : MStream σ) (alloc : Allocation ι) (d : Device σ ι)

/-- The drive carries the call out without an error. -/
def Accepts (call : DosCommand) : Prop :=
  ∃ d', Device.perform ops alloc { d with status := {} } call = .ok d' ∧ d'.status.code = ST_OK

/-- The command reports an error, or what it does is done to the block that its numbers name, on the
channel that they name. -/
def Acts (cr : Bool) : Prop :=
  ∃ d', d.executeData ops alloc (command.data p cr) = some (.ok d') ∧ (d'.status.code = ST_OK →
    ∃ call, command.named p.values = some call ∧ parseCommand (commandText (command.data p cr)) = some call)

/- These commands have no faults. -/
theorem perform_taken {bytes : List Nat} {call : DosCommand} (block : command.taken bytes = some call)
    (d : Device σ ι) : ∃ d', d.perform ops alloc call = .ok d' := by
  cases call with
  | seekChannel chan pos =>
    exfalso
    cases command <;> rcases bytes with _ | ⟨_, _ | ⟨_, _ | ⟨_, _ | _⟩⟩⟩ <;> cases block
  | malformed => exact ⟨_, rfl⟩
  | positionChannel chan pos within_block => exact ⟨_, rfl⟩
  | seekChannelToBlock chan b extra for_write => exact ⟨_, rfl⟩
  | setBlockAllocation b allocate => exact ⟨_, rfl⟩

/-- A block command acts on the block that its arguments name or reports an error, if and only if it
has too few bytes, or they are taken for the named block, or the drive refuses the block that they are
taken for. -/
theorem acts_iff (cr : Bool) : Acts command p ops alloc d cr ↔
    ∀ call, command.taken p.bytes = some call → Accepts ops alloc d call → command.named p.values = some call := by
  have parse := command.parse_data p cr
  have run : d.executeData ops alloc (command.data p cr) =
      some (Device.perform ops alloc { d with status := {} } ((command.taken p.bytes).getD .malformed)) := by
    rw [Device.executeData, parse]
    rfl
  unfold Acts
  rw [run, parse]
  cases block : command.taken p.bytes with
  | none =>
    exact iff_of_true ⟨_, rfl, fun no => absurd no (by decide : ST_SYNTAX_UNKNOWN ≠ ST_OK)⟩ (fun _ no => by cases no)
  | some call =>
    obtain ⟨d', done⟩ := command.perform_taken ops alloc block { d with status := {} }
    constructor
    · rintro ⟨d₁, same, exact_⟩ call₁ there ⟨d₂, again, fine⟩
      cases there
      rw [Option.getD_some, again] at same
      cases same
      obtain ⟨call₂, named, parsed⟩ := exact_ fine
      cases parsed
      exact named
    · intro named
      refine ⟨d', congrArg some done, fun fine => ⟨call, named call rfl ⟨d', done, fine⟩, rfl⟩⟩

/- Channel 2 is open on an image of zeros. -/
def imageDevice : Device (D64 × Bool) Unit where
  channels chan := if chan = 2 then some (.file (Channel.direct .d64 Access.empty false).general) else none
  image := ()

/- A block allocation that takes every block. -/
def anyBlock : Allocation Unit := ⟨fun _ => true, fun _ _ _ _ => (true, ())⟩

/- "2 0 274 1", with a space in front. -/
def beyond : Spaced where
  args := [(0, [0x32]), (0, [0x30]), (0, [0x32, 0x37, 0x34]), (0, [0x31])]
  after := 0
  digits := by decide +kernel

/- "1 18 5", with a space in front. -/
def bam : Spaced where
  args := [(0, [0x31]), (0, [0x31, 0x38]), (0, [0x35])]
  after := 0
  digits := by decide +kernel

/-- "U1 2 0 274 1" reads track 18, sector 1, and "B-A 1 18 5" allocates track 1, sector 18. -/
theorem acts_elsewhere :
    ¬ Acts U1 beyond imageStream anyBlock imageDevice false ∧
      parseCommand (commandText (U1.data beyond false)) = some (.seekChannelToBlock 2 ⟨18, 1⟩ 0 false) ∧
    ¬ Acts BA bam imageStream anyBlock imageDevice false ∧
      parseCommand (commandText (BA.data bam false)) = some (.setBlockAllocation ⟨1, 18⟩ true) := by
  have read : parseCommand (commandText (U1.data beyond false)) = some (.seekChannelToBlock 2 ⟨18, 1⟩ 0 false) := by
    decide
  have allocate : parseCommand (commandText (BA.data bam false)) = some (.setBlockAllocation ⟨1, 18⟩ true) := by
    decide +kernel
  refine ⟨?_, read, ?_, allocate⟩
  · rintro ⟨d', done, acts⟩
    rw [Device.executeData, read] at done
    cases Except.ok.inj (Option.some.inj done)
    obtain ⟨call, named, parsed⟩ := acts (by decide)
    rw [read] at parsed
    cases parsed
    exact absurd named (by decide +kernel)
  · rintro ⟨d', done, acts⟩
    rw [Device.executeData, allocate] at done
    cases Except.ok.inj (Option.some.inj done)
    obtain ⟨call, named, parsed⟩ := acts rfl
    rw [allocate] at parsed
    cases parsed
    exact absurd named (by decide +kernel)

end BlockCommand

end Meatloaf.Drive
