import Meatloaf.Lib.Calls
import Meatloaf.Lib.While
import Meatloaf.Stream.Cd

/-! `MFSOwner::File` with the `.config` files: a directory may send what is below it to another
url, which is resolved from the start. -/
namespace Meatloaf

open Lib Relation

/-- What `File` asks besides the owner's tables: what a short code stands for, whether an
encoder takes a path, the name of the file that `getFile` makes, and the text of a flash file. -/
structure Resolver extends MFSOwner where
  resolve : Str → Str
  others : Str → Bool
  nameOf : Option MFileSystem → Str → Str
  contents : Str → Option Str

/-- What `File` answers. -/
inductive MadeFile where
  | null
  /- The source file is no file, and `File` writes through its null pointer. -/
  | fault
  /- `getFile` of an encoder. -/
  | other (path : Str)
  /- `getFile` of a file system, without a source file. -/
  | flat (fs : Option MFileSystem) (path : Str)
  /- The source is made by a file system that is a root. -/
  | mounted (fs : Option MFileSystem) (path pathInStream : Str) (source : Option MFileSystem) (sourcePath : Str)
  | hosted (fs : Option MFileSystem) (path pathInStream : Str) (source : MadeFile) (sourcePathInStream : Str)

/- A file, and the program goes on. -/
def MadeFile.isFile : MadeFile → Bool
  | .null => false
  | .fault => false
  | _ => true

/- ".config", "base_url", "cache", "#cache=" and "ml:". -/
def configName : Str := [0x2e, 0x63, 0x6f, 0x6e, 0x66, 0x69, 0x67]
def baseUrlKey : Str := [0x62, 0x61, 0x73, 0x65, 0x5f, 0x75, 0x72, 0x6c]
def cacheKey : Str := [0x63, 0x61, 0x63, 0x68, 0x65]
def cacheMark : Str := [0x23, 0x63, 0x61, 0x63, 0x68, 0x65, 0x3d]
def shortCodeMark : Str := [0x6d, 0x6c, 0x3a]

/- ## The path -/

/- Every colon behind a slash goes; the flag is whether a slash was the last to stay. -/
def uncolon : Bool → Str → Str
  | _, [] => []
  | behind, c :: s => if behind = true ∧ c = colon then uncolon true s else c :: uncolon (c == slash) s

/- The path without the colons that part names from paths; a query or a fragment keeps its own. -/
def normalized (path : Str) : Str :=
  let head := path.takeWhile fun c => c ≠ question ∧ c ≠ hash
  uncolon false head ++ path.drop head.length

/-- `mlFS.handles`. -/
def shortCode (path : Str) : Bool := MFSOwner.toLower (path.take 3) == shortCodeMark

/- ## The config -/

/- The lines as `fgets` reads them with a buffer of 512 bytes. -/
def fgetsLines : Str → Str → List Str
  | [], line => if line = [] then [] else [line]
  | c :: text, line =>
    if c = 0x0a ∨ line.length + 1 = 511 then (line ++ [c]) :: fgetsLines text [] else fgetsLines text (line ++ [c])

/- The key and the value of a line, which is a C string. -/
def configPair (line : Str) : Option (Str × Str) :=
  let line := ((line.takeWhile (· ≠ 0)).reverse.dropWhile fun c => c = 0x0a ∨ c = 0x0d).reverse
  match find 0x3d line with
  | none => none
  | some eq => if eq = 0 then none else some (line.take eq, line.drop (eq + 1))

/- The text without the slashes at its end. -/
def unslashedEnd (s : Str) : Str := (s.reverse.dropWhile (· = slash)).reverse

/- The same, but the first character stays. -/
def directoryName (s : Str) : Str := if unslashedEnd s = [] then s.take 1 else unslashedEnd s

/-- `localParentDir`. -/
def localParentDir (path : Str) : Str :=
  let top := beforeLast (directoryName path)
  if top = [] then [slash] else top

namespace Resolver

variable (r : Resolver)

/-- `readLocalConfig`, as the pairs in the order of the file, which does not change meanwhile. -/
def readLocalConfig (dirPath : Str) : List (Str × Str) :=
  match r.contents (directoryName dirPath ++ slash :: configName) with
  | none => []
  | some text => (fgetsLines text []).filterMap configPair

/- The value of a key: the last one counts. Where it is empty, `File` goes on as without it. -/
def configValue (cfg : List (Str × Str)) (key : Str) : Str := ((cfg.reverse.find? (·.1 = key)).map (·.2)).getD []

def baseUrl (dirPath : Str) : Str := configValue (r.readLocalConfig dirPath) baseUrlKey

/- A pass of the loop up the tree: to the parent, unless this directory has a base url, or is
the root. -/
def walkStep (currentDir : Str) : Option Str :=
  if r.baseUrl currentDir ≠ [] ∨ currentDir = [] ∨ currentDir = [slash] ∨ currentDir = dot ∨
      localParentDir currentDir = currentDir then none
  else some (localParentDir currentDir)

/- The directory in which the loop up the tree stops. -/
def lastDir (currentDir : Str) : Option Str := loop r.walkStep (currentDir.length + 3) currentDir

/- What the base url of a directory makes of a path below it. -/
def remoteUrl (path currentDir : Str) : Str :=
  let base := unslashedEnd (r.baseUrl currentDir)
  let relPath := dropSlash (path.drop currentDir.length)
  let cache := configValue (r.readLocalConfig currentDir) cacheKey
  (if relPath = [] then base else base ++ slash :: relPath) ++ if cache = [] then [] else cacheMark ++ cache

/- ## File -/

/- The path after the short code. -/
def given (path : Str) : Str := if shortCode (normalized path) = true then r.resolve (normalized path) else normalized path

/- `File` answers before it looks for a file system. -/
def stops (path : Str) : Bool :=
  decide (path = []) || (!shortCode (normalized path) && r.others (normalized path))

/- The file system of a path, its pieces, and where the iterator ends: at the container, or at
the first piece. -/
def found (path : Str) : Option MFileSystem × Nat :=
  let paths := splitPath path
  let f := r.findParentFS paths paths.length
  (f.1, f.2 - 1)

/- The path that `getFile` is given, and the one in the stream. -/
def targetPath (path : Str) : Str :=
  if (r.found path).2 = 0 then path else joinToString ((splitPath path).take ((r.found path).2 + 1))

def pathInStream (path : Str) : Str :=
  if (r.found path).2 = 0 then [] else joinToString ((splitPath path).drop ((r.found path).2 + 1))

/- The path of the source file, and its own path in the stream. -/
def sourcePath (path : Str) : Str := joinToString ((splitPath path).take (r.found path).2)

def sourcePathInStream (path : Str) : Str :=
  joinToString (((splitPath path).take ((r.found path).2 + 1)).drop (r.found path).2)

/- The file system is a root: the default one is. -/
def onRoot (path : Str) : Bool := ((r.found path).1.map (·.isRootFS)).getD true && r.sourcePathInStream path != []

/- The path whose file becomes the source file. -/
def sourceOf (path : Str) : Option Str :=
  if (r.found path).2 = 0 ∨ r.onRoot path = true then none else some (r.sourcePath path)

/- The url that a `.config` file sends a path to. -/
def redirectOf (path : Str) : Option Str :=
  if r.nameOf (r.found path).1 (r.targetPath path) = configName ∨ findProtocol path ≠ none then none
  else
    let inStream := r.pathInStream path
    let currentDir := if inStream ≠ [] ∧ inStream.length < path.length then path.take (path.length - inStream.length) else path
    (r.lastDir currentDir).bind fun dir => if r.baseUrl dir = [] then none else some (r.remoteUrl path dir)

def source (path : Str) : Option Str := if r.stops path = true then none else r.sourceOf (r.given path)

def redirect (path : Str) : Option Str := if r.stops path = true then none else r.redirectOf (r.given path)

/- The file itself, given its source where that is made by `File`. -/
def made (path : Str) (source : Option MadeFile) : MadeFile :=
  match source with
  | some source => .hosted (r.found path).1 (r.targetPath path) (r.pathInStream path) source (r.sourcePathInStream path)
  | none =>
    if (r.found path).2 = 0 then .flat (r.found path).1 path
    else
      .mounted (r.found path).1 (r.targetPath path) (r.pathInStream path)
        (r.findParentFS (splitPath path) (r.found path).2).1 (r.sourcePath path)

/-- `MFSOwner::File`, called without `default_fs`. The source file is made first; a redirect
throws the file away and starts over. -/
def file : Nat → Str → Option MadeFile
  | 0, _ => none
  | fuel + 1, path =>
    if path = [] then some .null
    else if r.stops path = true then some (.other (normalized path))
    else
      let onward := fun source =>
        match r.redirect path with
        | some url => file fuel url
        | none => some (r.made (r.given path) source)
      match r.source path with
      | none => onward none
      | some sourcePath =>
        (file fuel sourcePath).bind fun source => if source.isFile = true then onward (some source) else some .fault

end Resolver

/- ## The walk up the tree -/

theorem dropTail_length (p : UInt8 → Bool) (s : Str) : (s.reverse.dropWhile p).reverse.length ≤ s.length := by
  have kept := (List.dropWhile_sublist p (l := s.reverse)).length_le
  rwa [List.length_reverse] at kept ⊢

theorem directoryName_length (s : Str) : (directoryName s).length ≤ s.length := by
  unfold directoryName
  split
  · rw [List.length_take]
    exact Nat.min_le_right 1 s.length
  · exact dropTail_length _ s

theorem beforeLast_length {s : Str} (some : beforeLast s ≠ []) : (beforeLast s).length < s.length := by
  unfold beforeLast at some ⊢
  have tail := dropTail_length (· ≠ slash) s
  rw [List.length_reverse] at tail
  rw [List.length_reverse, List.length_drop]
  have front : (s.reverse.dropWhile (· ≠ slash)).length ≠ 0 := by
    intro none
    rw [List.length_eq_zero_iff.mp none] at some
    exact some rfl
  omega

/- How far up a directory is at most. -/
def height (d : Str) : Nat := if d = [slash] then 0 else d.length + 1

theorem height_parent {d : Str} (inner : d ≠ [slash]) : height (localParentDir d) < height d := by
  unfold height
  rw [if_neg inner]
  split
  · exact Nat.succ_pos _
  · rename_i below
    unfold localParentDir at below ⊢
    dsimp only at below ⊢
    split at below
    · exact absurd rfl below
    · rename_i some
      have shorter := beforeLast_length some
      have name := directoryName_length d
      rw [if_neg some]
      omega

namespace Resolver

variable (r : Resolver)

/-- The walk up the tree always ends. -/
theorem lastDir_isSome (d : Str) : (r.lastDir d).isSome := by
  refine loop_ends (I := fun _ => True) height ?_ trivial ?_
  · intro s t _ next
    unfold walkStep at next
    split at next
    · cases next
    · rename_i onward
      obtain rfl := Option.some.inj next
      exact ⟨trivial, height_parent fun root => onward (.inr (.inr (.inl root)))⟩
  · unfold height
    split
    · omega
    · omega

/- ## The path in front of a container -/

theorem findParentFS_cases (paths : List Str) (n : Nat) : r.findParentFS paths n = (none, 1) ∨
    ∃ k fs, r.container (paths.getD k []) = some fs ∧ r.findParentFS paths n = (some fs, k + 1) := by
  induction n with
  | zero => exact .inl rfl
  | succ n ih =>
    rw [MFSOwner.findParentFS]
    cases taken : r.container (paths.getD n []) with
    | none => exact ih
    | some fs => exact .inr ⟨n, fs, taken, rfl⟩

end Resolver

/- The pieces of a text, each with its separator, are one longer than the text. -/
theorem split_total (ch : UInt8) (n : Nat) (s : Str) : ((split ch n s).map fun p => p.length + 1).sum = s.length + 1 := by
  induction n generalizing s with
  | zero => simp [split]
  | succ n ih =>
    rw [split]
    split
    · rename_i member
      obtain ⟨front, back, rfl, plain⟩ := List.eq_append_cons_of_mem member
      have first : (front ++ ch :: back).takeWhile (· ≠ ch) = front := by
        rw [List.takeWhile_append_of_pos fun c inside => by
          simpa using fun same : c = ch => plain (same ▸ inside), List.takeWhile_cons_of_neg (by simp), List.append_nil]
      rw [first, List.map_cons, List.sum_cons, ih, List.length_drop, List.length_append, List.length_cons]
      omega
    · simp

theorem joinToString_length (pieces : List Str) :
    (joinToString pieces).length ≤ (pieces.map fun p => p.length + 1).sum := by
  have total : (pieces.flatMap (· ++ [slash])).length = (pieces.map fun p => p.length + 1).sum := by
    induction pieces with
    | nil => rfl
    | cons p pieces ih =>
      rw [List.flatMap_cons, List.length_append, ih, List.length_append, List.map_cons, List.sum_cons, List.length_singleton]
  unfold joinToString
  dsimp only
  rw [← total]
  split
  · rw [List.length_dropLast]
    exact Nat.sub_le _ 1
  · exact Nat.le_refl _

namespace Resolver

variable (r : Resolver)

/- What is in front of a container is shorter than the path. -/
theorem sourceOf_length {path q : Str} (front : r.sourceOf path = some q) : q.length < path.length := by
  unfold sourceOf at front
  split at front
  · cases front
  · rename_i inner
    obtain rfl := Option.some.inj front
    unfold sourcePath
    have at_ : (r.found path).2 ≠ 0 := fun first => inner (.inl first)
    unfold found at at_ ⊢
    dsimp only at at_ ⊢
    rcases r.findParentFS_cases (splitPath path) (splitPath path).length with none | ⟨k, fs, taken, result⟩
    · rw [none] at at_
      exact absurd rfl at_
    · rw [result]
      have total := split_total slash 9998 path
      have nonempty : (splitPath path).getD k [] ≠ [] := by
        intro empty
        rw [empty, r.container_nil] at taken
        cases taken
      have inside : k < (splitPath path).length := by
        by_contra beyond
        exact nonempty (List.getD_eq_default _ _ (Nat.le_of_not_lt beyond))
      rw [List.getD_eq_getElem _ _ inside] at nonempty
      have item := List.length_pos_iff.mpr nonempty
      have join := joinToString_length ((splitPath path).take k)
      have parts : (((splitPath path).take k).map fun p => p.length + 1).sum + ((splitPath path)[k].length + 1) ≤
          ((splitPath path).map fun p => p.length + 1).sum := by
        have whole := congrArg (fun l : List Str => (l.map fun p => p.length + 1).sum)
          (List.take_append_drop k (splitPath path))
        simp only [List.drop_eq_getElem_cons inside, List.map_append, List.sum_append, List.map_cons, List.sum_cons]
          at whole
        omega
      rw [show ((splitPath path).map fun p => p.length + 1).sum = path.length + 1 from total] at parts
      rw [Nat.add_sub_cancel]
      omega

end Resolver

theorem uncolon_length (behind : Bool) (s : Str) : (uncolon behind s).length ≤ s.length := by
  induction s generalizing behind with
  | nil => exact Nat.le_refl _
  | cons c s ih =>
    rw [uncolon]
    split
    · exact Nat.le_succ_of_le (ih true)
    · exact Nat.succ_le_succ (ih _)

theorem normalized_length (path : Str) : (normalized path).length ≤ path.length := by
  unfold normalized
  dsimp only
  have head := (List.takeWhile_sublist (fun c => decide (c ≠ question ∧ c ≠ hash)) (l := path)).length_le
  have kept := uncolon_length false (path.takeWhile fun c => decide (c ≠ question ∧ c ≠ hash))
  rw [List.length_append, List.length_drop]
  omega

namespace Resolver

variable (r : Resolver)

/- ## The calls -/

/-- The call of `File` for `p` makes the call for `q`. -/
def Calls (p q : Str) : Prop := r.source p = some q ∨ r.redirect p = some q

/-- The path in front of a container, where that is no short code. -/
def Fronts (p q : Str) : Prop := r.source p = some q ∧ shortCode (normalized q) = false

/-- A redirect, or a short code in front of a container. -/
def Sends (p q : Str) : Prop := r.redirect p = some q ∨ (r.source p = some q ∧ shortCode (normalized q) = true)

theorem calls_iff (p q : Str) : r.Calls p q ↔ r.Fronts p q ∨ r.Sends p q := by
  unfold Calls Fronts Sends
  cases shortCode (normalized q) with
  | true => simp [or_comm]
  | false => simp

theorem given_plain {q : Str} (plain : shortCode (normalized q) = false) : r.given q = normalized q := by
  rw [given, plain]
  exact if_neg Bool.false_ne_true

/-- Containers within containers come to an end. -/
theorem fronts_wf : WellFounded fun q p => r.Fronts p q := by
  have plain : ∀ n p, shortCode (normalized p) = false → (normalized p).length = n →
      Acc (fun q p => r.Fronts p q) p := by
    intro n
    induction n using Nat.strong_induction_on with
    | h n ih =>
      rintro p direct rfl
      refine Acc.intro p fun q front => ?_
      have shorter : (normalized q).length < (normalized p).length := by
        have cut := front.1
        rw [source] at cut
        split at cut
        · cases cut
        · rw [r.given_plain direct] at cut
          exact Nat.lt_of_le_of_lt (normalized_length q) (r.sourceOf_length cut)
      exact ih _ shorter q front.2 rfl
  exact ⟨fun p => Acc.intro p fun q front => plain _ q front.2 rfl⟩

/-- Redirects lead from the path to nothing. -/
inductive Nulls : Str → Prop where
  | empty : Nulls []
  | sent {p q : Str} (redirect : r.redirect p = some q) (rest : Nulls q) : Nulls p

/-- The source file is a file. -/
def Sourced (p : Str) : Prop := ∀ q, r.source p = some q → ¬ r.Nulls q

/- ## What File does -/

theorem stops_redirect {p : Str} (stops : r.stops p = true) : r.redirect p = none := if_pos stops

theorem stops_source {p : Str} (stops : r.stops p = true) : r.source p = none := if_pos stops

theorem stops_nil : r.stops [] = true := rfl

theorem nulls_iff {p : Str} (some : p ≠ []) : r.Nulls p ↔ ∃ q, r.redirect p = Option.some q ∧ r.Nulls q := by
  constructor
  · intro nulls
    cases nulls with
    | empty => exact absurd rfl some
    | sent redirect rest => exact ⟨_, redirect, rest⟩
  · rintro ⟨q, redirect, rest⟩
    exact .sent redirect rest

theorem made_isFile (path : Str) (source : Option MadeFile) : (r.made path source).isFile = true := by
  unfold made
  cases source with
  | some source => rfl
  | none =>
    dsimp only
    split
    · rfl
    · rfl

/-- What a call of `File` has done when it comes back with no fault. -/
theorem file_cases {n : Nat} {p : Str} {out : MadeFile} (done : r.file (n + 1) p = some out) (ok : out ≠ .fault)
    (some : p ≠ []) : (∀ q, r.source p = Option.some q → ∃ s, r.file n q = Option.some s ∧ s.isFile = true) ∧
      ((∃ q, r.redirect p = Option.some q ∧ r.file n q = Option.some out) ∨
        (r.redirect p = none ∧ out.isFile = true)) := by
  rw [file, if_neg some] at done
  split at done
  · rename_i stops
    refine ⟨fun q source => ?_, .inr ⟨r.stops_redirect stops, ?_⟩⟩
    · rw [r.stops_source stops] at source
      cases source
    · rw [← Option.some.inj done]
      rfl
  · have onward : ∀ source, (match r.redirect p with
        | Option.some url => r.file n url
        | none => Option.some (r.made (r.given p) source)) = Option.some out →
        (∃ q, r.redirect p = Option.some q ∧ r.file n q = Option.some out) ∨
          (r.redirect p = none ∧ out.isFile = true) := by
      intro source rest
      cases sent : r.redirect p with
      | some q =>
        rw [sent] at rest
        exact .inl ⟨q, rfl, rest⟩
      | none =>
        rw [sent] at rest
        refine .inr ⟨rfl, ?_⟩
        rw [← Option.some.inj rest]
        exact r.made_isFile _ _
    cases source : r.source p with
    | none =>
      rw [source] at done
      exact ⟨nofun, onward none done⟩
    | some q =>
      rw [source] at done
      obtain ⟨s, made, rest⟩ := Option.bind_eq_some_iff.mp done
      split at rest
      · rename_i file
        refine ⟨fun q' same => ?_, onward _ rest⟩
        rw [← Option.some.inj same]
        exact ⟨s, made, file⟩
      · exact absurd (Option.some.inj rest).symm ok

/-- and when it does come back. -/
theorem file_done {n : Nat} {p : Str}
    (source : ∀ q, r.source p = some q → ∃ s, r.file n q = some s ∧ s.isFile = true)
    (redirect : ∀ q, r.redirect p = some q → ∃ out, r.file n q = some out ∧ out ≠ .fault) :
    ∃ out, r.file (n + 1) p = some out ∧ out ≠ .fault := by
  rw [file]
  split
  · exact ⟨.null, rfl, nofun⟩
  · split
    · exact ⟨_, rfl, nofun⟩
    · have onward : ∀ source, ∃ out, (match r.redirect p with
          | some url => r.file n url
          | none => some (r.made (r.given p) source)) = some out ∧ out ≠ .fault := by
        intro source
        cases sent : r.redirect p with
        | some q => exact redirect q sent
        | none =>
          refine ⟨_, rfl, fun fault => ?_⟩
          have file := r.made_isFile (r.given p) source
          rw [fault] at file
          cases file
      cases cut : r.source p with
      | none => exact onward none
      | some q =>
        obtain ⟨s, made, file⟩ := source q cut
        dsimp only
        rw [made, Option.bind_some, if_pos file]
        exact onward (some s)

/-- `File` answers with no file exactly where redirects lead to nothing. -/
theorem file_null {n : Nat} {p : Str} {out : MadeFile} (done : r.file n p = some out) (ok : out ≠ .fault) :
    out = .null ↔ r.Nulls p := by
  induction n generalizing p with
  | zero => cases done
  | succ n ih =>
    by_cases empty : p = []
    · subst empty
      obtain rfl := Option.some.inj done
      exact iff_of_true rfl .empty
    · rw [r.nulls_iff empty]
      obtain ⟨-, ⟨q, sent, rest⟩ | ⟨stays, file⟩⟩ := r.file_cases done ok empty
      · rw [ih rest, sent]
        simp
      · rw [stays]
        refine iff_of_false ?_ (by simp)
        rintro rfl
        cases file

theorem isFile_of {out : MadeFile} (ok : out ≠ .fault) (some : out ≠ .null) : out.isFile = true := by
  cases out with
  | null => exact absurd rfl some
  | fault => exact absurd rfl ok
  | other path => rfl
  | flat fs path => rfl
  | mounted fs path inStream source sourcePath => rfl
  | hosted fs path inStream source sourceInStream => rfl

/-- A call of `File` is a call that makes the calls for the source and for the redirect, and
needs the source. -/
theorem file_returns (n : Nat) (p : Str) :
    (∃ out, r.file n p = some out ∧ out ≠ .fault) ↔ Lib.Returns r.Calls r.Sourced n p := by
  induction n generalizing p with
  | zero =>
    constructor
    · rintro ⟨out, done, -⟩
      cases done
    · exact nofun
  | succ n ih =>
    by_cases empty : p = []
    · subst empty
      have back : ∃ out, r.file (n + 1) [] = some out ∧ out ≠ .fault := ⟨.null, rfl, nofun⟩
      refine iff_of_true back ⟨fun q source => ?_, fun q call => ?_⟩
      · rw [r.stops_source r.stops_nil] at source
        cases source
      · rcases call with source | redirect
        · rw [r.stops_source r.stops_nil] at source
          cases source
        · rw [r.stops_redirect r.stops_nil] at redirect
          cases redirect
    · constructor
      · rintro ⟨out, done, ok⟩
        obtain ⟨source, onward⟩ := r.file_cases done ok empty
        refine ⟨fun q cut nulls => ?_, fun q call => (ih q).mp ?_⟩
        · obtain ⟨s, made, file⟩ := source q cut
          have fine : s ≠ .fault := by
            rintro rfl
            cases file
          rw [(r.file_null made fine).mpr nulls] at file
          cases file
        · rcases call with cut | sent
          · obtain ⟨s, made, file⟩ := source q cut
            refine ⟨s, made, ?_⟩
            rintro rfl
            cases file
          · rcases onward with ⟨q', sent', rest⟩ | ⟨stays, -⟩
            · obtain rfl := Option.some.inj (sent.symm.trans sent')
              exact ⟨out, rest, ok⟩
            · rw [stays] at sent
              cases sent
      · rintro ⟨sourced, calls⟩
        refine r.file_done (fun q cut => ?_) fun q sent => (ih q).mpr (calls q (.inr sent))
        obtain ⟨s, made, fine⟩ := (ih q).mpr (calls q (.inl cut))
        refine ⟨s, made, isFile_of fine fun null => sourced q cut ?_⟩
        exact (r.file_null made fine).mp null

/- A call makes two calls at most. -/
theorem calls_few (p : Str) : ∃ l : List Str, ∀ q, r.Calls p q → q ∈ l := by
  refine ⟨(r.source p).toList ++ (r.redirect p).toList, fun q call => ?_⟩
  rw [List.mem_append, Option.mem_toList, Option.mem_toList]
  exact call

/-- `File` returns if and only if no sequence of redirects goes on for ever, from the path and
each time from what the last one led to or from the path in front of a container in it, and no
path in front of a container is redirected to nothing. -/
theorem file_returns_iff (path : Str) :
    (∃ fuel out, r.file fuel path = some out ∧ out ≠ .fault) ↔
      (¬ ∃ s : Nat → Str, s 0 = path ∧ ∀ i, ∃ p, ReflTransGen r.Fronts (s i) p ∧ r.Sends p (s (i + 1))) ∧
        ∀ p, ReflTransGen r.Calls path p → r.Sourced p := by
  have calls : r.Calls = fun p q => r.Fronts p q ∨ r.Sends p q := by
    funext p q
    exact propext (r.calls_iff p q)
  rw [← acc_iff_no_sequence r.fronts_wf]
  simp only [file_returns]
  rw [returns_iff r.calls_few, calls]

/- A flash with one config file: "base_url=" and the base in "/a/.config". -/
def sampleConfig (base : Str) : Resolver where
  availableFS := []
  use_vdrive := false
  readdir := fun _ => none
  resolve := id
  others := fun _ => false
  nameOf := fun _ path => urlName path
  contents := fun path =>
    if path = [slash, 0x61, slash] ++ configName then some (baseUrlKey ++ 0x3d :: base ++ [0x0a]) else none

/-- A directory that is sent to itself is resolved for ever. -/
theorem file_endless : ¬ ∃ fuel out, (sampleConfig [slash, 0x61]).file fuel [slash, 0x61] = some out := by
  have sent : (sampleConfig [slash, 0x61]).redirect [slash, 0x61] = some [slash, 0x61] := by decide +kernel
  have alone : (sampleConfig [slash, 0x61]).source [slash, 0x61] = none := by decide
  have goes : (sampleConfig [slash, 0x61]).stops [slash, 0x61] = false := by decide +kernel
  rintro ⟨fuel, out, done⟩
  induction fuel with
  | zero => cases done
  | succ fuel ih =>
    rw [file, if_neg (List.cons_ne_nil _ _), goes, if_neg Bool.false_ne_true, alone] at done
    dsimp only at done
    rw [sent] at done
    exact ih done

/- With the base "http://h" the path "/a/x" is redirected once. -/
example : ((sampleConfig [0x68, 0x74, 0x74, 0x70, 0x3a, 0x2f, 0x2f, 0x68]).file 2 [slash, 0x61, slash, 0x78]).map
    MadeFile.isFile = some true := by decide

end Resolver

end Meatloaf
