import Meatloaf.Drive.Channel
import Meatloaf.Disk.Shared
import Meatloaf.Text.Url

/-! `iecDrive::open`, outside of the virtual drive and on a channel that is not in use. What a name
stands for is up to the current directory; what is asked of the file it stands for, and what is done
to the image that holds the file, is here. -/
namespace Meatloaf.Drive

open Lib Disk

def ST_SYNTAX_BAD_NAME : Nat := 33
def ST_FILE_NOT_FOUND : Nat := 62
def ST_FILE_EXISTS : Nat := 63
def ST_PERMISSION_DENIED : Nat := 81

def comma : UInt8 := 0x2c
def dollar : UInt8 := 0x24

/- `find(part) != npos`. -/
def contains (s part : Str) : Bool := s.tails.any part.isPrefixOf

inductive OpenMode where
  | in | out | inOut
  deriving DecidableEq, Repr

/- What `open` reads off a file name. -/
structure Spec where
  name : Str
  mode : OpenMode
  overwrite : Bool := false
  deriving DecidableEq

namespace Spec

/- The pieces of the name, and the mode that channel and type give. -/
def pieces (cname : Str) : List Str := util_tokenize (cname.takeWhile (· ≠ 0)) comma

def first (cname : Str) : Str := (pieces cname).headD []

def typed (channel : Nat) (cname : Str) : OpenMode :=
  let mode := if channel = 1 then .out else .in
  match (pieces cname)[2]? with
  | some t => if t = [0x52] then .in else if t = [0x57] then .out else mode
  | none => mode

/- "://" and "/:". -/
def schemeMark : Str := [colon, slash, slash]
def nameMark : Str := [slash, colon]

/- A network address on a channel for PRINT# and GET# is open both ways. -/
def network (channel : Nat) (cname : Str) : Bool := contains (first cname) schemeMark && decide (2 ≤ channel)

def start (channel : Nat) (cname : Str) : Spec where
  name := first cname
  mode := if network channel cname then .inOut else typed channel cname

def dropReplace (mark : UInt8) (s : Spec) : Spec :=
  if s.name.head? = some mark then { s with overwrite := true, name := s.name.drop 1 } else s

def dropDrive (s : Spec) : Spec :=
  if [0x30, colon].isPrefixOf s.name then { s with name := s.name.drop 2 } else s

def dropSlash (s : Spec) : Spec :=
  if 1 < s.name.length ∧ s.name.head? = some slash ∧ s.name[1]? ≠ some slash ∧ contains s.name nameMark then
    { s with name := s.name.drop 1 }
  else s

def dropCD (s : Spec) : Spec :=
  if [0x43, 0x44].isPrefixOf s.name ∧ s.name[2]?.any fun c => c = colon ∨ c = 0x5f ∨ c = 0x5e ∨ c = slash then
    { s with name := s.name.drop 2 }
  else s

/- The name ends at the first shifted space. -/
def cut (s : Spec) : Spec := { s with name := s.name.takeWhile (· ≠ 0xA0) }

end Spec

/-- The name parsing of `iecDrive::open`. -/
def parse (channel : Nat) (cname : Str) : Spec :=
  (((((Spec.start channel cname).dropReplace atSign).dropReplace colon).dropDrive.dropSlash).dropCD).cut

/-- A file in a disk image, as `open` looks at it. Its type is not `MFILE_OTHER`. -/
structure MediaFile where
  file : D64MFile
  isWritable : Bool

/- The current directory: whether it is one, the file of its url, and what a name, in UTF-8, stands
for in it. -/
structure Directory where
  isDirectory : Bool
  self : Option MediaFile
  cd : Str → Option MediaFile

/- A channel number behind '#' or nothing. -/
def isBuffer (name : Str) : Bool := name.head? == some hash && (name.drop 1).all isdigit

/- A plain '$' is the directory itself; a filter stays as it is. -/
def listingName (name : Str) : Str :=
  if name.head? = some dollar ∧ ¬ name[1]?.any (fun c => c = 0x3d ∨ isalnum c) then [] else name

/-- The file a name stands for, once it has been parsed. -/
def Directory.named (cwd : Directory) (name : Str) : Option MediaFile :=
  let name := toUTF8 (listingName name)
  if name = [star] ∧ cwd.isDirectory = false then cwd.self else cwd.cd name

namespace MediaFile

variable (f : Format)

/- `getSourceStream(mode)`: the status that comes of it, and the image. An image that is opened for
writing with no path inside it is emptied. -/
def getSourceStream (t : MediaFile) (mode : OpenMode) (c : Container) : Option (Nat × Container) :=
  if t.file.pathInStream = [] then
    some (ST_OK, if mode = .out then { c with size := 0, pos := 0 } else c)
  else
    (if mode = .out then (D64.new f c).seekPathOut t.file.pathInStream
    else (D64.new f c).seekPathIn t.file.pathInStream).map fun r =>
      (if r.1 then ST_OK else ST_DRIVE_NOT_READY, r.2.container)

/- What is done with a file; `s` is the stream that lookups in the image share. -/
def openFile (t : MediaFile) (spec : Spec) (s : D64) (c : Container) : Option (Nat × Container) :=
  (t.file.exists_ s).bind fun e =>
    if spec.mode = .in ∧ e.1 = false then some (ST_FILE_NOT_FOUND, c)
    else if spec.mode = .out ∧ t.file.media_image ≠ [] ∧ (t.isWritable = false ∨ t.file.pathInStream = []) then
      some (ST_WRITE_PROTECT_ON, c)
    else if spec.mode = .out ∧ e.1 = true ∧ spec.overwrite = false then some (ST_FILE_EXISTS, c)
    else t.getSourceStream f spec.mode c

/- A directory is listed, or refused. -/
def openDirectory (t : MediaFile) (spec : Spec) (s : D64) (c : Container) : Option (Nat × Container) :=
  if spec.mode = .in then
    (t.file.rewindDirectory s).map fun r => (if r.1 then ST_OK else ST_PERMISSION_DENIED, c)
  else some (ST_WRITE_PROTECT_ON, c)

end MediaFile

/-- `iecDrive::open`: the status, and the image. -/
def openNamed (f : Format) (cwd : Directory) (channel : Nat) (cname : Str) (s : D64) (c : Container) :
    Option (Nat × Container) :=
  let spec := parse channel cname
  if spec.name = [] then some (ST_SYNTAX_BAD_NAME, c)
  -- the container itself, as `Channel.direct` has it
  else if isBuffer spec.name then some (ST_OK, c)
  else
    match cwd.named spec.name with
    | none => some (ST_FILE_NOT_FOUND, c)
    | some t =>
      (t.file.isDirectory s).bind fun d =>
        if d.1 then t.openDirectory spec d.2 c else t.openFile f spec d.2 c

namespace Spec

theorem tokens_head (separator : UInt8) (token s : Str) :
    (tokens separator token s).headD [] = token ++ s.takeWhile (· ≠ separator) := by
  induction s generalizing token with
  | nil =>
    by_cases none : token = []
    · rw [none]
      rfl
    · rw [tokens, if_neg none]
      exact (List.append_nil token).symm
  | cons c rest ih =>
    by_cases ends : c = separator
    · rw [tokens, if_pos ends, List.takeWhile_cons_of_neg (by simpa using ends), List.append_nil]
      rfl
    · rw [tokens, if_neg ends, ih, List.takeWhile_cons_of_pos (by simpa using ends), List.append_assoc]
      rfl

/-- The name that `open` starts from, up to the first comma. -/
theorem first_eq (cname : Str) : first cname = (cname.takeWhile (· ≠ 0)).takeWhile (· ≠ comma) :=
  tokens_head comma [] _

theorem head_takeWhile {p : UInt8 → Bool} {mark : UInt8} (kept : p mark = true) (s : Str) :
    (s.takeWhile p).head? = some mark ↔ s.head? = some mark := by
  cases s with
  | nil => exact Iff.rfl
  | cons c rest =>
    by_cases keeps : p c = true
    · rw [List.takeWhile_cons_of_pos keeps]
      exact Iff.rfl
    · rw [List.takeWhile_cons_of_neg keeps]
      constructor
      · intro no
        cases no
      · intro same
        cases same
        exact absurd kept keeps

theorem first_head {mark : UInt8} (printed : mark ≠ 0) (plain : mark ≠ comma) (cname : Str) :
    (first cname).head? = some mark ↔ cname.head? = some mark := by
  rw [first_eq, head_takeWhile (by simpa using plain), head_takeWhile (by simpa using printed)]

/- The prefixes behind the replace marks do not touch the mode or the flag. -/
theorem dropDrive_kept (s : Spec) : s.dropDrive.mode = s.mode ∧ s.dropDrive.overwrite = s.overwrite := by
  unfold dropDrive
  split
  · exact ⟨rfl, rfl⟩
  · exact ⟨rfl, rfl⟩

theorem dropSlash_kept (s : Spec) : s.dropSlash.mode = s.mode ∧ s.dropSlash.overwrite = s.overwrite := by
  unfold dropSlash
  split
  · exact ⟨rfl, rfl⟩
  · exact ⟨rfl, rfl⟩

theorem dropCD_kept (s : Spec) : s.dropCD.mode = s.mode ∧ s.dropCD.overwrite = s.overwrite := by
  unfold dropCD
  split
  · exact ⟨rfl, rfl⟩
  · exact ⟨rfl, rfl⟩

theorem dropReplace_mode (mark : UInt8) (s : Spec) : (s.dropReplace mark).mode = s.mode := by
  unfold dropReplace
  split
  · rfl
  · rfl

/- What is left to parse once the replace marks are gone. -/
theorem parse_kept (s : Spec) :
    s.dropDrive.dropSlash.dropCD.cut.mode = s.mode ∧ s.dropDrive.dropSlash.dropCD.cut.overwrite = s.overwrite := by
  obtain ⟨mode, flag⟩ := dropCD_kept s.dropDrive.dropSlash
  obtain ⟨mode', flag'⟩ := dropSlash_kept s.dropDrive
  obtain ⟨mode'', flag''⟩ := dropDrive_kept s
  exact ⟨mode.trans (mode'.trans mode''), flag.trans (flag'.trans flag'')⟩

/-- The mode is that of channel and type, unless the name is a network address. -/
theorem parse_mode (channel : Nat) (cname : Str) :
    (parse channel cname).mode = if network channel cname then .inOut else typed channel cname := by
  unfold parse
  rw [(parse_kept _).1, dropReplace_mode, dropReplace_mode]
  rfl

/-- Without a '@' the replace flag is set exactly by a leading colon, whatever prefixes follow. -/
theorem parse_overwrite {channel : Nat} {cname : Str} (unasked : cname.head? ≠ some atSign) :
    (parse channel cname).overwrite = true ↔ cname.head? = some colon := by
  have plain : (start channel cname).name.head? ≠ some atSign :=
    fun same => unasked ((first_head (by decide) (by decide) cname).mp same)
  have stays : (start channel cname).dropReplace atSign = start channel cname := if_neg plain
  have head : (start channel cname).name.head? = some colon ↔ cname.head? = some colon :=
    first_head (by decide) (by decide) cname
  unfold parse
  rw [(parse_kept _).2, stays, ← head]
  unfold dropReplace
  split
  · next there => exact iff_of_true rfl there
  · next missing => exact iff_of_false Bool.false_ne_true missing

end Spec

section saving

variable {f : Format} {cwd : Directory} {channel : Nat} {cname : Str} {s : D64} {c : Container} {t : MediaFile}

/- What comes of a stream is not FILE EXISTS. -/
theorem MediaFile.getSourceStream_status {mode : OpenMode} {r : Nat × Container}
    (done : t.getSourceStream f mode c = some r) : r.1 ≠ ST_FILE_EXISTS := by
  unfold MediaFile.getSourceStream at done
  split at done
  · obtain rfl := Option.some.inj done
    exact (by decide : ST_OK ≠ ST_FILE_EXISTS)
  · obtain ⟨q, -, rfl⟩ := Option.map_eq_some_iff.mp done
    show (if q.1 = true then ST_OK else ST_DRIVE_NOT_READY) ≠ ST_FILE_EXISTS
    split
    · exact (by decide : ST_OK ≠ ST_FILE_EXISTS)
    · exact (by decide : ST_DRIVE_NOT_READY ≠ ST_FILE_EXISTS)

/-- The name stands for a file that is there: not a directory, and found. -/
structure Existing (cwd : Directory) (channel : Nat) (cname : Str) (s : D64) (t : MediaFile) : Prop where
  name : (parse channel cname).name ≠ [] ∧ isBuffer (parse channel cname).name = false
  named : cwd.named (parse channel cname).name = some t
  file : ∃ s', t.file.isDirectory s = some (false, s') ∧ ∃ s'', t.file.exists_ s' = some (true, s'')

/-- A file is refused with FILE EXISTS, and the image is left as it is. -/
def Refused (f : Format) (cwd : Directory) (channel : Nat) (cname : Str) (s : D64) (c : Container) : Prop :=
  ∃ c', openNamed f cwd channel cname s c = some (ST_FILE_EXISTS, c') ∧ c'.data = c.data ∧ c'.size = c.size

theorem Existing.opens (existing : Existing cwd channel cname s t) :
    openNamed f cwd channel cname s c =
      if (parse channel cname).mode = .out ∧ t.file.media_image ≠ [] ∧
        (t.isWritable = false ∨ t.file.pathInStream = []) then some (ST_WRITE_PROTECT_ON, c)
      else if (parse channel cname).mode = .out ∧ (parse channel cname).overwrite = false then
        some (ST_FILE_EXISTS, c)
      else t.getSourceStream f (parse channel cname).mode c := by
  obtain ⟨s', file, s'', found⟩ := existing.file
  unfold openNamed
  dsimp only
  rw [if_neg existing.name.1, existing.name.2, if_neg Bool.false_ne_true, existing.named]
  dsimp only
  rw [file, Option.bind_some, if_neg Bool.false_ne_true]
  unfold MediaFile.openFile
  rw [found, Option.bind_some, if_neg (fun no => Bool.noConfusion no.2)]
  simp only [true_and]

/- A file inside an image has a path there. -/
theorem Existing.inside (existing : Existing cwd channel cname s t) (uncached : t.file.is_dir = none) :
    t.file.pathInStream ≠ [] := by
  intro none
  obtain ⟨s', file, -⟩ := existing.file
  unfold D64MFile.isDirectory D64MFile.isRoot at file
  rw [uncached, none] at file
  cases file

/-- A name for writing that does not begin with '@' and stands for a file that exists is refused with
FILE EXISTS, and the image is left alone, exactly where the name does not begin with a colon, is no
network address on a channel from 2 on, and the media is not write protected. -/
theorem saving_refused_iff (writes : Spec.typed channel cname = .out) (unasked : cname.head? ≠ some atSign)
    (existing : Existing cwd channel cname s t) (uncached : t.file.is_dir = none) :
    Refused f cwd channel cname s c ↔
      cname.head? ≠ some colon ∧ Spec.network channel cname = false ∧ (t.file.media_image = [] ∨ t.isWritable = true) := by
  have opens := @Existing.opens f cwd channel cname s c t existing
  have flag := @Spec.parse_overwrite channel cname unasked
  have mode := Spec.parse_mode channel cname
  unfold Refused
  rw [opens]
  constructor
  · rintro ⟨c', done, -⟩
    by_cases network : Spec.network channel cname = true
    · rw [mode, if_pos network, if_neg (by simp), if_neg (by simp)] at done
      exact absurd rfl (MediaFile.getSourceStream_status done)
    · rw [mode, if_neg network, writes] at done
      by_cases protects : t.file.media_image ≠ [] ∧ (t.isWritable = false ∨ t.file.pathInStream = [])
      · rw [if_pos ⟨rfl, protects⟩] at done
        exact absurd (congrArg Prod.fst (Option.some.inj done)) (by decide : ST_WRITE_PROTECT_ON ≠ ST_FILE_EXISTS)
      · rw [if_neg (fun no => protects no.2)] at done
        refine ⟨fun colon => ?_, Bool.eq_false_of_not_eq_true network, ?_⟩
        · rw [flag.mpr colon, if_neg (by simp)] at done
          exact absurd rfl (MediaFile.getSourceStream_status done)
        · by_contra no
          rw [not_or, Bool.not_eq_true] at no
          exact protects ⟨no.1, .inl no.2⟩
  · rintro ⟨plain, network, media⟩
    have unset : (parse channel cname).overwrite = false := Bool.eq_false_of_not_eq_true fun set => plain (flag.mp set)
    refine ⟨c, ?_, rfl, rfl⟩
    rw [mode, network, if_neg Bool.false_ne_true, writes, unset, if_neg, if_pos ⟨rfl, rfl⟩]
    rintro ⟨-, image, protects⟩
    rcases protects with readOnly | none
    · rcases media with empty | writable
      · exact image empty
      · rw [readOnly] at writable
        cases writable
    · exact existing.inside uncached none

end saving

/- The root of an image with the files "a" and "b", and the name "A" without and with a colon. -/
def sampleRoot : Directory where
  isDirectory := true
  self := none
  cd name := some ⟨{ sampleFile name with media_image := [0x69] }, true⟩

def sampleName : Str := [0x41]

theorem answered {t : MediaFile} {s : D64}
    (answers : (t.file.isDirectory s).bind (fun d => (t.file.exists_ d.2).map fun e => (d.1, e.1)) = some (false, true)) :
    ∃ s', t.file.isDirectory s = some (false, s') ∧ ∃ s'', t.file.exists_ s' = some (true, s'') := by
  obtain ⟨d, file, rest⟩ := Option.bind_eq_some_iff.mp answers
  obtain ⟨e, found, same⟩ := Option.map_eq_some_iff.mp rest
  obtain ⟨isFile, there⟩ := Prod.mk.inj same
  exact ⟨d.2, by rw [file, ← isFile], e.2, by rw [found, ← there]⟩

theorem sampleName_existing : Existing sampleRoot 1 sampleName (D64.new .d64 sampleDirectory)
    ⟨{ sampleFile [0x61] with media_image := [0x69] }, true⟩ where
  name := by decide
  named := rfl
  file := answered (by decide)

theorem sampleColon_existing : Existing sampleRoot 1 (colon :: sampleName) (D64.new .d64 sampleDirectory)
    ⟨{ sampleFile [0x61] with media_image := [0x69] }, true⟩ where
  name := by decide
  named := rfl
  file := answered (by decide)

theorem saving_refused_iff_sample :
    Refused .d64 sampleRoot 1 sampleName (D64.new .d64 sampleDirectory) sampleDirectory :=
  (saving_refused_iff (by decide) (by decide) sampleName_existing rfl).mpr ⟨by decide, by decide, .inr rfl⟩

/- ":A" on channel 1 is opened for writing, and the entry of "a" is scratched. -/
theorem colon_replaces :
    (Spec.typed 1 (colon :: sampleName) = .out ∧ (colon :: sampleName).head? ≠ some atSign ∧
      Existing sampleRoot 1 (colon :: sampleName) (D64.new .d64 sampleDirectory)
        ⟨{ sampleFile [0x61] with media_image := [0x69] }, true⟩) ∧
    ((openNamed .d64 sampleRoot 1 (colon :: sampleName) (D64.new .d64 sampleDirectory) sampleDirectory).map
      fun r => (r.1, sampleDirectory.data 91650, r.2.data 91650)) = some (ST_OK, 0x82, 0) ∧
    ¬ Refused .d64 sampleRoot 1 (colon :: sampleName) (D64.new .d64 sampleDirectory) sampleDirectory := by
  have opens : ((openNamed .d64 sampleRoot 1 (colon :: sampleName) (D64.new .d64 sampleDirectory)
      sampleDirectory).map fun r => (r.1, sampleDirectory.data 91650, r.2.data 91650)) = some (ST_OK, 0x82, 0) := by
    decide +kernel
  refine ⟨⟨by decide, by decide, sampleColon_existing⟩, opens, ?_⟩
  rintro ⟨c', refused, -⟩
  rw [refused] at opens
  exact absurd (congrArg Prod.fst (Option.some.inj opens)) (by decide : ST_FILE_EXISTS ≠ ST_OK)

end Meatloaf.Drive
