import Meatloaf.Text.Paths
import Meatloaf.Stream.Broker

/-! `MFSOwner::File`: a path is cut at the containers in it, from the right. The path and the
names of the files it can match have no ':', '?' or '#', so no short code, encoder or scheme
takes it, and no `.config` file redirects it. -/
namespace Meatloaf

/-- A registered file system. Those that are roots answer to schemes. -/
structure MFileSystem where
  handles : Str → Bool
  isRootFS : Bool := false
  vdrive_compatible : Bool := false
  scheme : isRootFS = true → ∀ part, colon ∉ part → handles part = false

/-- A component of a path that the url parser takes for nothing else. -/
structure Literal (dir : Str) : Prop where
  nonempty : dir ≠ []
  plain : slash ∉ dir
  unscheme : colon ∉ dir
  unquery : question ∉ dir
  unfragment : hash ∉ dir

/-- An entry of a flash directory. Only directories are called by dots. -/
structure Dirent where
  d_name : Str
  directory : Bool
  literal : Literal d_name
  named : directory = false → d_name ≠ dot ∧ d_name ≠ dotdot

/- What `File` finds around it: the file systems but the default one, the virtual drive, and
the directories of the flash file system. -/
structure MFSOwner where
  availableFS : List MFileSystem
  use_vdrive : Bool
  readdir : Str → Option (List Dirent)

namespace MFSOwner

variable (owner : MFSOwner)

/- `mstr::toLower`. -/
def toLower (s : Str) : Str := s.map fun c => if 0x41 ≤ c ∧ c ≤ 0x5a then c + 0x20 else c

/-- The file system that takes a component for a container. -/
def container (part : Str) : Option MFileSystem :=
  if part = [] then none
  else owner.availableFS.find? fun fs =>
    fs.handles (toLower part) && !(owner.use_vdrive && fs.vdrive_compatible)

/-- `findParentFS` from the iterator back to the first piece; the iterator is left behind the
container, or behind the first piece when the default file system is all there is. -/
def findParentFS (paths : List Str) : Nat → Option MFileSystem × Nat
  | 0 => (none, 1)
  | pathIterator + 1 =>
    match owner.container (paths.getD pathIterator []) with
    | some fs => (some fs, pathIterator + 1)
    | none => findParentFS paths pathIterator

/-- `FlashMFile::readEntry`: the first file that matches takes the place of the name. -/
def readEntry (url name : Str) : Option Str :=
  let apath := if pathToFile url name = [] then [slash] else pathToFile url name
  (owner.readdir apath).bind fun entries =>
    (entries.find? fun dirent => !dirent.directory && compareFilename dirent.d_name name true).map fun dirent =>
      resetURL ((if apath = [slash] then apath else apath ++ [slash]) ++ dirent.d_name)

/- The url of `new FlashMFile(path)`. -/
def flashUrl (path : Str) : Str :=
  if isWildcard (urlName path) then (owner.readEntry (resetURL path) (urlName path)).getD (resetURL path)
  else resetURL path

/- The url of `getFile(path)`; the default file system is the flash. -/
def getFile (fs : Option MFileSystem) (path : Str) : Str :=
  match fs with
  | none => owner.flashUrl path
  | some _ => resetURL path

/-- `MFSOwner::File`: the file and the chain of its source files. -/
def file : Nat → Str → List Source
  | 0, _ => []
  | fuel + 1, path =>
    if path = [] then []
    else
      let paths := splitPath path
      let found := owner.findParentFS paths paths.length
      let sourcePath := joinToString (paths.take found.2)
      let sourcePathInStream := joinToString (paths.drop found.2)
      let pathIterator := found.2 - 1
      if pathIterator = 0 then [⟨owner.getFile found.1 path, []⟩]
      else
        let target : Source := ⟨owner.getFile found.1 sourcePath, sourcePathInStream⟩
        let sourcePath := joinToString (paths.take pathIterator)
        let sourcePathInStream := joinToString ((paths.take found.2).drop pathIterator)
        let sourceFileSystem := (owner.findParentFS paths pathIterator).1
        if (found.1.map (·.isRootFS)).getD true ∧ sourcePathInStream ≠ [] then
          [target, ⟨owner.getFile sourceFileSystem sourcePath, []⟩]
        else
          target ::
            match file fuel sourcePath with
            | [] => []
            | source :: rest => ⟨source.url, sourcePathInStream⟩ :: rest

/- The recursion is on shorter and shorter paths. -/
def File (path : Str) : List Source := owner.file (path.length + 1) path

end MFSOwner

/-- `MFile::fullUrl`: the url and the path in the stream, joined with a slash. -/
def Source.fullUrl (f : Source) : Str :=
  if f.pathInStream = [] ∨ f.pathInStream = [slash] then f.url
  else
    (if f.url.getLast? = some slash then
      (if f.pathInStream.head? = some slash then f.url.dropLast else f.url)
    else if f.pathInStream.head? = some slash then f.url else f.url ++ [slash]) ++ f.pathInStream

/-- A path of one or more components, absolute or not. -/
def LocalPath (path : Str) : Prop :=
  ∃ dirs : List Str, dirs ≠ [] ∧ (∀ d ∈ dirs, Literal d) ∧ (path = rooted dirs ∨ path = [slash].intercalate dirs)

/-- Every file of the chain is, with its path in the stream, the container one level up. -/
def Lossless : List Source → Str → Prop
  | [], _ => True
  | f :: sources, path => f.fullUrl = path ∧ Lossless sources f.url

instance decidableLossless : ∀ sources path, Decidable (Lossless sources path)
  | [], _ => isTrue trivial
  | f :: sources, path =>
    have := decidableLossless sources f.url
    inferInstanceAs (Decidable (f.fullUrl = path ∧ Lossless sources f.url))

/-- The url and the path in the stream, where both are there, are the joined pieces. -/
theorem fullUrl_rooted {pieces : List Str} {p : Str} (tidy : ∀ q ∈ pieces, Tidy q) (inside : Tidy p) :
    Source.fullUrl ⟨rooted pieces, p⟩ = rooted (pieces ++ [p]) := by
  have single : p ≠ [slash] := fun same => inside.head (same ▸ rfl)
  unfold Source.fullUrl
  dsimp only
  rw [if_neg (not_or.mpr ⟨inside.1, single⟩), if_neg inside.head, if_neg inside.head, rooted_snoc]
  cases pieces with
  | nil => rfl
  | cons a pieces => rw [if_neg (rooted_getLast tidy (List.cons_ne_nil a pieces)), if_neg (List.cons_ne_nil a pieces)]

theorem fullUrl_behind {pieces after : List Str} (tidy : ∀ p ∈ pieces, Tidy p) (behind : ∀ p ∈ after, Tidy p) :
    Source.fullUrl ⟨rooted pieces, [slash].intercalate after⟩ = rooted (pieces ++ after) := by
  cases after with
  | nil =>
    rw [List.append_nil]
    exact if_pos (.inl rfl)
  | cons a after =>
    have more := List.cons_ne_nil a after
    rw [fullUrl_rooted tidy (Tidy.intercalate behind more), rooted_join tidy behind more]

namespace MFSOwner

variable (owner : MFSOwner)

/- What the search from the right finds -/

theorem findParentFS_skip (paths : List Str) (n m : Nat)
    (gap : ∀ i, n ≤ i → i < n + m → owner.container (paths.getD i []) = none) :
    owner.findParentFS paths (n + m) = owner.findParentFS paths n := by
  induction m with
  | zero => rfl
  | succ m ih =>
    have last := gap (n + m) (Nat.le_add_right n m) (Nat.lt_succ_self _)
    rw [← Nat.add_assoc, findParentFS, last]
    exact ih fun i low high => gap i low (Nat.lt_succ_of_lt high)

theorem findParentFS_default {paths : List Str} (gap : ∀ p ∈ paths, owner.container p = none) :
    owner.findParentFS paths paths.length = (none, 1) := by
  have skip := owner.findParentFS_skip paths 0 paths.length fun i _ high => by
    rw [List.getD_eq_getElem paths [] (by omega)]
    exact gap _ (List.getElem_mem _)
  rw [Nat.zero_add] at skip
  exact skip

theorem findParentFS_found {before after : List Str} {c : Str} {fs : MFileSystem}
    (taken : owner.container c = some fs) (gap : ∀ p ∈ after, owner.container p = none) :
    owner.findParentFS (before ++ c :: after) (before ++ c :: after).length = (some fs, before.length + 1) := by
  have skip := owner.findParentFS_skip (before ++ c :: after) (before.length + 1) after.length
    fun i low high => by
      obtain ⟨j, rfl⟩ := Nat.exists_eq_add_of_le low
      have there : j < after.length := by omega
      have behind : (before ++ c :: after).getD (before.length + 1 + j) [] = after[j] := by
        rw [List.getD_append_right _ _ _ _ (by omega), show before.length + 1 + j - before.length = j + 1 by omega,
          List.getD_cons_succ, List.getD_eq_getElem after [] there]
      rw [behind]
      exact gap _ (List.getElem_mem there)
  have here : (before ++ c :: after).getD before.length [] = c := by
    rw [List.getD_append_right _ _ _ _ (Nat.le_refl _), Nat.sub_self, List.getD_cons_zero]
  rw [show (before ++ c :: after).length = before.length + 1 + after.length by
    rw [List.length_append, List.length_cons]; omega, skip, findParentFS, here, taken]

/- No component is a scheme. -/
theorem toLower_plain {part : Str} (plain : colon ∉ part) : colon ∉ toLower part := by
  intro member
  obtain ⟨c, there, same⟩ := List.mem_map.mp member
  split at same
  · rename_i upper
    have value := congrArg UInt8.toNat same
    have low := UInt8.le_iff_toNat_le.mp upper.1
    have high := UInt8.le_iff_toNat_le.mp upper.2
    rw [UInt8.toNat_add] at value
    simp only [colon, UInt8.reduceToNat] at value low high
    omega
  · exact plain (same ▸ there)

theorem container_plain {part : Str} {fs : MFileSystem} (taken : owner.container part = some fs)
    (plain : colon ∉ part) : fs.isRootFS = false := by
  unfold container at taken
  split at taken
  · cases taken
  · have handled := List.find?_some taken
    rw [Bool.and_eq_true] at handled
    cases root : fs.isRootFS with
    | false => rfl
    | true => rw [fs.scheme root (toLower part) (toLower_plain plain)] at handled; exact nomatch handled.1

@[simp] theorem container_nil : owner.container [] = none := if_pos rfl

/- What `File` makes of a path -/

theorem file_default {path : Str} (nonempty : path ≠ []) (gap : ∀ p ∈ splitPath path, owner.container p = none)
    (fuel : Nat) : owner.file (fuel + 1) path = [⟨owner.flashUrl path, []⟩] := by
  rw [file, if_neg nonempty]
  dsimp only
  rw [owner.findParentFS_default gap]
  rfl

theorem file_container {path : Str} {before after : List Str} {c : Str} {fs : MFileSystem} (nonempty : path ≠ [])
    (pieces : splitPath path = [] :: (before ++ c :: after)) (inside : ∀ p ∈ after, Tidy p)
    (item : c ≠ []) (plain : colon ∉ c) (taken : owner.container c = some fs)
    (gap : ∀ p ∈ after, owner.container p = none) (fuel : Nat) :
    owner.file (fuel + 1) path = ⟨resetURL (rooted (before ++ [c])), [slash].intercalate after⟩ ::
      (owner.file fuel (rooted before)).modifyHead fun source => ⟨source.url, c⟩ := by
  have found : owner.findParentFS ([] :: (before ++ c :: after)) ([] :: (before ++ c :: after)).length =
      (some fs, before.length + 2) := @findParentFS_found owner ([] :: before) after c fs taken gap
  have front : ([] :: (before ++ c :: after)).take (before.length + 2) = [] :: (before ++ [c]) := by
    rw [List.take_succ_cons, List.append_cons, List.take_left' (by simp)]
  have back : ([] :: (before ++ c :: after)).drop (before.length + 2) = after := by simp
  have near : ([] :: (before ++ c :: after)).take (before.length + 1) = [] :: before := by simp
  have last : ([] :: (before ++ [c])).drop (before.length + 1) = [c] := by simp
  have one : joinToString [c] = c := by
    rw [joinToString_pieces fun p member => List.mem_singleton.mp member ▸ item]
    simp [List.intercalate]
  rw [file, if_neg nonempty]
  dsimp only
  rw [pieces, found]
  dsimp only
  rw [show before.length + 2 - 1 = before.length + 1 from rfl, if_neg (Nat.succ_ne_zero _), front, back, near, last, one,
    joinToString_rooted, joinToString_rooted, joinToString_pieces fun p member => (inside p member).1,
    Option.map_some, Option.getD_some, owner.container_plain taken plain, if_neg fun root => nomatch root.1]
  cases owner.file fuel (rooted before) with
  | nil => rfl
  | cons source rest => rfl

/-- The last name is no wildcard, or there is nothing else it stands for. -/
def Settled (dirs : List Str) : Prop :=
  ∀ name, dirs.getLast? = some name → isWildcard name = true →
    ∀ entries, owner.readdir (rooted (dirs.dropLast ++ [[]])) = some entries →
      ∀ dirent, entries.find? (fun d => !d.directory && compareFilename d.d_name name true) = some dirent →
        dirent.d_name = name

/- The url of a file that matches. -/
theorem resetURL_dirent {parent : List Str} (dotless : Dotless (parent.flatMap splitPathComponents))
    (dirent : Dirent) (file : dirent.directory = false) :
    resetURL ((if rooted (parent ++ [[]]) = [slash] then rooted (parent ++ [[]])
      else rooted (parent ++ [[]]) ++ [slash]) ++ dirent.d_name) =
      rooted (parent.flatMap splitPathComponents ++ [dirent.d_name]) := by
  have name := splitPathComponents_plain dirent.d_name dirent.literal.plain dirent.literal.nonempty
  have folder : splitPathComponents (rooted (parent ++ [[]])) = parent.flatMap splitPathComponents := by
    rw [components_rooted, List.flatMap_append]
    simp
  obtain ⟨top, cut⟩ : ∃ top, rooted (parent ++ [[]]) = top ++ [slash] := by
    rw [rooted_snoc, List.append_nil]
    split
    · exact ⟨[], rfl⟩
    · exact ⟨_, rfl⟩
  have parts : splitPathComponents ((if rooted (parent ++ [[]]) = [slash] then rooted (parent ++ [[]])
      else rooted (parent ++ [[]]) ++ [slash]) ++ dirent.d_name) =
      parent.flatMap splitPathComponents ++ [dirent.d_name] := by
    split
    · rw [← folder, cut, List.append_assoc, List.singleton_append, splitPathComponents_append, name,
        splitPathComponents_append, splitPathComponents_nil, List.append_nil]
    · rw [List.append_assoc, List.singleton_append, splitPathComponents_append, folder, name]
  have root : ((if rooted (parent ++ [[]]) = [slash] then rooted (parent ++ [[]])
      else rooted (parent ++ [[]]) ++ [slash]) ++ dirent.d_name).head? = some slash := by
    split
    · rfl
    · rfl
  have last : dirent.d_name.getLast? ≠ some slash := fun ends =>
    dirent.literal.plain (List.mem_of_getLast? ends)
  have dots : Dotless (parent.flatMap splitPathComponents ++ [dirent.d_name]) := by
    intro dir member
    rcases List.mem_append.mp member with above | here
    · exact dotless dir above
    · rw [List.mem_singleton.mp here]
      exact dirent.named file
  rw [resetURL_open root, parts, (canonical_eq_iff _).mpr dots]
  cases tail : dirent.d_name.getLast? with
  | none => exact absurd (List.getLast?_eq_none_iff.mp tail) dirent.literal.nonempty
  | some c =>
    rw [List.getLast?_append, tail]
    rw [tail] at last
    exact last

theorem flashUrl_url (path : Str) : ∃ u, owner.flashUrl path = resetURL u := by
  unfold flashUrl
  split
  · cases entry : owner.readEntry (resetURL path) (urlName path) with
    | none => exact ⟨path, rfl⟩
    | some url =>
      obtain ⟨entries, -, found⟩ := Option.bind_eq_some_iff.mp entry
      obtain ⟨dirent, -, match_⟩ := Option.map_eq_some_iff.mp found
      exact ⟨_, match_.symm⟩
  · exact ⟨path, rfl⟩

/-- The url of a path on the flash: the path itself, where it is settled. -/
theorem flashUrl_rooted {pieces : List Str} (more : pieces ≠ []) (tidy : ∀ p ∈ pieces, Tidy p)
    (cut : splitPath (rooted pieces) = [] :: pieces) (dotless : Dotless (pieces.flatMap splitPathComponents)) :
    ∃ dirs, (∀ d ∈ dirs, Component d) ∧ owner.flashUrl (rooted pieces) = rooted dirs ∧
      (dirs = pieces.flatMap splitPathComponents ↔ owner.Settled pieces) := by
  have clean : ∀ d ∈ pieces.flatMap splitPathComponents, Component d := by
    rw [← components_rooted]
    exact components_component _
  have url : resetURL (rooted pieces) = rooted (pieces.flatMap splitPathComponents) := by
    rw [resetURL_tidy tidy, (canonical_eq_iff _).mpr dotless]
  obtain ⟨parent, name, rfl⟩ : ∃ parent name, pieces = parent ++ [name] :=
    ⟨pieces.dropLast, pieces.getLast more, (List.dropLast_concat_getLast more).symm⟩
  have last : urlName (rooted (parent ++ [name])) = name := by
    rw [urlName, cut, ← List.cons_append, List.getLastD_concat]
  have apath : pathToFile (rooted (parent ++ [name])) name = rooted (parent ++ [[]]) := by
    rw [rooted_snoc, rooted_snoc, pathToFile, List.append_nil, List.length_append, Nat.add_sub_cancel_right,
      List.take_left' rfl]
  have nonempty : rooted (parent ++ [[]]) ≠ [] := List.cons_ne_nil _ _
  have itself := rooted_components tidy
  unfold flashUrl Settled
  rw [url, last, List.getLast?_concat, List.dropLast_concat]
  cases wild : isWildcard name with
  | false =>
    refine ⟨_, clean, rfl, fun _ name' last' wild' => ?_, fun _ => rfl⟩
    cases last'
    rw [wild] at wild'
    cases wild'
  | true =>
    rw [if_pos rfl, itself, readEntry, apath, if_neg nonempty]
    cases read : owner.readdir (rooted (parent ++ [[]])) with
    | none => exact ⟨_, clean, itself.symm, by simp, fun _ => rfl⟩
    | some entries =>
      cases first : entries.find? (fun d => !d.directory && compareFilename d.d_name name true) with
      | none =>
        refine ⟨_, clean, ?_, ?_, fun _ => rfl⟩
        · rw [Option.bind_some, first, Option.map_none, Option.getD_none, itself]
        · intro _ name' last' _ entries' read' dirent' first'
          cases last'
          cases read'
          rw [first] at first'
          cases first'
      | some dirent =>
        have file := List.find?_some first
        rw [Bool.and_eq_true, Bool.not_eq_true'] at file
        have above : Dotless (parent.flatMap splitPathComponents) := fun dir member =>
          dotless dir (by rw [List.flatMap_append]; exact List.mem_append_left _ member)
        rw [Option.bind_some, first, Option.map_some, Option.getD_some, resetURL_dirent above dirent file.1]
        refine ⟨_, ?_, rfl, ?_⟩
        · intro d member
          rcases List.mem_append.mp member with up | here
          · exact clean d (by rw [List.flatMap_append]; exact List.mem_append_left _ up)
          · rw [List.mem_singleton.mp here]
            exact ⟨dirent.literal.nonempty, dirent.literal.plain⟩
        · have one := splitPathComponents_plain dirent.d_name dirent.literal.plain dirent.literal.nonempty
          have join := (tidy name (List.mem_append_right parent (List.mem_singleton_self name))).2
          rw [List.flatMap_append, List.flatMap_singleton, List.append_cancel_left_eq]
          constructor
          · intro same name' last' _ entries' read' dirent' first'
            cases last'
            cases read'
            rw [first] at first'
            cases first'
            rw [← join, ← same]
            simp [List.intercalate]
          · intro all
            rw [← all name rfl wild entries rfl dirent first, one]

/-- It is the path exactly where no component means another one, nor a file of another name. -/
theorem flashUrl_eq {pieces : List Str} (more : pieces ≠ []) (tidy : ∀ p ∈ pieces, Tidy p)
    (cut : splitPath (rooted pieces) = [] :: pieces) :
    owner.flashUrl (rooted pieces) = rooted pieces ↔
      Dotless (pieces.flatMap splitPathComponents) ∧ owner.Settled pieces := by
  constructor
  · intro same
    have dotless : Dotless (pieces.flatMap splitPathComponents) := by
      rw [← components_rooted, ← same]
      obtain ⟨u, url⟩ := owner.flashUrl_url (rooted pieces)
      rw [url]
      exact resetURL_dotless u
    obtain ⟨dirs, clean, url, settled⟩ := owner.flashUrl_rooted more tidy cut dotless
    rw [url] at same
    have components := rooted_inj same
    rw [components_clean clean] at components
    exact ⟨dotless, settled.mp components⟩
  · rintro ⟨dotless, settled⟩
    obtain ⟨dirs, clean, url, iff⟩ := owner.flashUrl_rooted more tidy cut dotless
    rw [url, iff.mpr settled, rooted_components tidy]

/- A path has a last container or none. -/
theorem last_container (pieces : List Str) :
    (∀ p ∈ pieces, owner.container p = none) ∨ ∃ before c after fs, pieces = before ++ c :: after ∧
      owner.container c = some fs ∧ ∀ p ∈ after, owner.container p = none := by
  induction pieces with
  | nil => exact .inl fun p member => nomatch member
  | cons a pieces ih =>
    rcases ih with plain | ⟨before, c, after, fs, parts, taken, gap⟩
    · cases first : owner.container a with
      | none =>
        left
        intro p member
        rcases List.mem_cons.mp member with rfl | rest
        · exact first
        · exact plain p rest
      | some fs => exact .inr ⟨[], a, pieces, fs, rfl, first, plain⟩
    · exact .inr ⟨a :: before, c, after, fs, by rw [parts]; rfl, taken, gap⟩

/-- Directories, and behind them nothing but containers. -/
def Lined (before : List Str) : Prop :=
  ∃ dirs images, before = dirs ++ images ∧ (∀ d ∈ dirs, owner.container d = none) ∧
    (∀ i ∈ images, owner.container i ≠ none) ∧ owner.Settled dirs

theorem lined_default {before : List Str} (plain : ∀ p ∈ before, owner.container p = none) :
    owner.Lined before ↔ owner.Settled before := by
  constructor
  · rintro ⟨dirs, images, rfl, -, all, settled⟩
    have none : images = [] := List.eq_nil_iff_forall_not_mem.mpr fun i member =>
      all i member (plain i (List.mem_append_right dirs member))
    rw [none, List.append_nil]
    exact settled
  · intro settled
    exact ⟨before, [], (List.append_nil before).symm, plain, by simp, settled⟩

/- Two cuts at the last container are one. -/
theorem last_unique {before after before' after' : List Str} {c c' : Str}
    (same : before ++ c :: after = before' ++ c' :: after') (taken : owner.container c ≠ none)
    (taken' : owner.container c' ≠ none) (gap : ∀ p ∈ after, owner.container p = none)
    (gap' : ∀ p ∈ after', owner.container p = none) : before = before' ∧ c = c' ∧ after = after' := by
  rcases List.append_eq_append_iff.mp same with ⟨as, front, back⟩ | ⟨as, front, back⟩
  · cases as with
    | nil => simp_all
    | cons a as =>
      obtain ⟨-, rest⟩ := List.cons_eq_cons.mp back
      exact absurd (gap c' (rest ▸ by simp)) taken'
  · cases as with
    | nil => simp_all
    | cons a as =>
      obtain ⟨-, rest⟩ := List.cons_eq_cons.mp back
      exact absurd (gap' c (rest ▸ by simp)) taken

theorem lined_container {before gap : List Str} {c : Str} (taken : owner.container c ≠ none)
    (plain : ∀ p ∈ gap, owner.container p = none) :
    owner.Lined (before ++ c :: gap) ↔ gap = [] ∧ owner.Lined before := by
  constructor
  · rintro ⟨dirs, images, parts, folders, all, settled⟩
    rcases List.eq_nil_or_concat images with rfl | ⟨images, i, rfl⟩
    · rw [List.append_nil] at parts
      exact absurd (folders c (parts ▸ by simp)) taken
    · rw [List.concat_eq_append] at parts all
      have last := all i (List.mem_append_right images (List.mem_singleton_self i))
      rw [← List.append_assoc] at parts
      obtain ⟨rfl, rfl, rfl⟩ := owner.last_unique parts taken last plain fun p member => nomatch member
      exact ⟨rfl, dirs, images, rfl, folders, fun j member => all j (List.mem_append_left _ member), settled⟩
  · rintro ⟨rfl, dirs, images, rfl, folders, all, settled⟩
    refine ⟨dirs, images ++ [c], List.append_assoc _ _ _, folders, fun i member => ?_, settled⟩
    rcases List.mem_append.mp member with old | new
    · exact all i old
    · rw [List.mem_singleton.mp new]
      exact taken

/- The pieces before the last one. -/
structure Front (before : List Str) : Prop where
  clean : ∀ d ∈ before, Component d
  unscheme : ∀ d ∈ before, colon ∉ d
  few : before.length ≤ 9998

variable {owner}

theorem Front.left {before after : List Str} (front : Front (before ++ after)) : Front before where
  clean d member := front.clean d (List.mem_append_left after member)
  unscheme d member := front.unscheme d (List.mem_append_left after member)
  few := Nat.le_trans (List.length_append ▸ Nat.le_add_right _ _) front.few

theorem Front.tidy {before : List Str} (front : Front before) : ∀ d ∈ before, Tidy d :=
  fun d member => Tidy.of_plain (front.clean d member).1 (front.clean d member).2

theorem Front.split {before : List Str} (front : Front before) (more : before ≠ []) :
    splitPath (rooted before) = [] :: before := by
  have rest := split_intercalate (fun p member => (front.clean p member).2) more front.few
  rw [splitPath, rooted, split_slash, rest]

theorem Front.rooted_url {before : List Str} (front : Front before) (dotless : Dotless before) :
    resetURL (rooted before) = rooted before := by
  rw [resetURL_rooted front.clean, (canonical_eq_iff before).mpr dotless]

/-- A container's path comes back from its source files, if the source is not cut short. -/
theorem overwritten (n : Nat) {before : List Str} {c : Str} {fuel : Nat} (size : before.length = n)
    (front : Front before) (dotless : Dotless before) (item : Tidy c) (enough : before.length < fuel) :
    Lossless ((owner.file fuel (rooted before)).modifyHead fun source => ⟨source.url, c⟩) (rooted (before ++ [c])) ↔
      owner.Lined before := by
  induction n using Nat.strongRecOn generalizing before c fuel with
  | _ n ih =>
    obtain ⟨fuel, rfl⟩ : ∃ k, fuel = k + 1 := ⟨fuel - 1, by omega⟩
    have path : rooted before ≠ [] := List.cons_ne_nil _ _
    rcases owner.last_container before with plain | ⟨front', c', gap, fs, rfl, taken, behind⟩
    · rw [owner.lined_default plain]
      cases before with
      | nil =>
        have root : owner.flashUrl (rooted []) = rooted [] := rfl
        rw [owner.file_default path (by simp [splitPath, rooted, Meatloaf.split]), root]
        constructor
        · intro _ name last
          cases last
        · intro _
          exact ⟨fullUrl_rooted (fun q member => absurd member List.not_mem_nil) item, trivial⟩
      | cons a before =>
        have more := List.cons_ne_nil a before
        have cut := front.split more
        have gap : ∀ p ∈ splitPath (rooted (a :: before)), owner.container p = none := by
          rw [cut]
          intro p member
          rcases List.mem_cons.mp member with rfl | rest
          · exact owner.container_nil
          · exact plain p rest
        have pieces := components_clean front.clean
        obtain ⟨dirs, clean, url, settled⟩ := owner.flashUrl_rooted more front.tidy cut (pieces.symm ▸ dotless)
        rw [pieces] at settled
        rw [owner.file_default path gap, ← settled, url]
        have tidy : ∀ d ∈ dirs, Tidy d := fun d member => Tidy.of_plain (clean d member).1 (clean d member).2
        constructor
        · intro same
          have components := rooted_inj ((fullUrl_rooted tidy item).symm.trans same.1)
          rw [List.flatMap_append, List.flatMap_append, List.append_cancel_right_eq, components_clean clean,
            pieces] at components
          exact components
        · intro same
          exact ⟨(fullUrl_rooted tidy item).trans (same ▸ rfl), trivial⟩
    · have head : Front (front' ++ [c']) := by
        rw [List.append_cons] at front
        exact front.left
      have up : Dotless (front' ++ [c']) := fun d member => dotless d (by
        rw [List.append_cons]
        exact List.mem_append_left gap member)
      have short : front'.length < (front' ++ c' :: gap).length := by simp
      have tail : ∀ p ∈ gap, Tidy p := fun p member =>
        front.tidy p (List.mem_append_right front' (List.mem_cons_of_mem c' member))
      have self : c' ∈ front' ++ [c'] := List.mem_append_right front' (List.mem_singleton_self c')
      have less : front'.length < fuel := by omega
      have source := ih front'.length (size ▸ short) rfl head.left
        (fun d member => up d (List.mem_append_left [c'] member)) (head.tidy c' self) less
      rw [file_container owner path (front.split (by simp)) tail (head.clean c' self).1 (head.unscheme c' self) taken
        behind, owner.lined_container (by rw [taken]; exact Option.some_ne_none fs) behind, ← source,
        List.modifyHead_cons, head.rooted_url up]
      have here : Source.fullUrl ⟨rooted (front' ++ [c']), c⟩ = rooted (front' ++ c' :: gap ++ [c]) ↔ gap = [] := by
        rw [fullUrl_rooted head.tidy item]
        constructor
        · intro same
          have components : (front' ++ [c']).flatMap splitPathComponents ++ [c].flatMap splitPathComponents =
              (front' ++ [c'] ++ gap).flatMap splitPathComponents ++ [c].flatMap splitPathComponents := by
            rw [← List.flatMap_append, ← List.flatMap_append, ← List.append_cons front' c' gap]
            exact rooted_inj same
          have none := List.append_right_eq_self.mp
            ((List.append_cancel_right components).trans List.flatMap_append).symm
          rw [components_clean fun d member => front.clean d (List.mem_append_right front'
            (List.mem_cons_of_mem c' member))] at none
          exact none
        · rintro rfl
          rfl
      exact and_congr here Iff.rfl

variable (owner)

theorem getFile_url (fs : Option MFileSystem) (path : Str) : ∃ u, owner.getFile fs path = resetURL u := by
  cases fs with
  | none => exact owner.flashUrl_url path
  | some fs => exact ⟨path, rfl⟩

theorem file_url {fuel : Nat} {path : Str} {f : Source} {sources : List Source}
    (resolved : owner.file fuel path = f :: sources) : ∃ u, f.url = resetURL u := by
  cases fuel with
  | zero => cases resolved
  | succ fuel =>
    rw [file] at resolved
    split at resolved
    · cases resolved
    · dsimp only at resolved
      split at resolved
      · cases resolved
        exact owner.getFile_url _ _
      · split at resolved
        · cases resolved
          exact owner.getFile_url _ _
        · cases resolved
          exact owner.getFile_url _ _

/-- Behind the directories the containers stand one in the other, with nothing between them; up
to the last of them no component means another directory, and the last directory no other
file. -/
def Straight (path : Str) : Prop :=
  ∃ dirs images inside, splitPath path = [] :: (dirs ++ images ++ inside) ∧
    (∀ d ∈ dirs, owner.container d = none) ∧ (∀ i ∈ images, owner.container i ≠ none) ∧
    (∀ p ∈ inside, owner.container p = none) ∧ (images = [] → inside = []) ∧
    Dotless ((dirs ++ images).flatMap splitPathComponents) ∧ owner.Settled dirs

theorem straight_default {path : Str} {pieces : List Str} (cut : splitPath path = [] :: pieces)
    (plain : ∀ p ∈ pieces, owner.container p = none) :
    owner.Straight path ↔ Dotless (pieces.flatMap splitPathComponents) ∧ owner.Settled pieces := by
  constructor
  · rintro ⟨dirs, images, inside, parts, -, all, -, only, dotless, settled⟩
    obtain ⟨-, rfl⟩ := List.cons_eq_cons.mp (cut.symm.trans parts)
    have none : images = [] := List.eq_nil_iff_forall_not_mem.mpr fun i member =>
      all i member (plain i (List.mem_append_left inside (List.mem_append_right dirs member)))
    rw [none, List.append_nil] at dotless
    rw [only none, none, List.append_nil, List.append_nil]
    exact ⟨dotless, settled⟩
  · rintro ⟨dotless, settled⟩
    exact ⟨pieces, [], [], by simp [cut], plain, by simp, by simp, fun _ => rfl, by simpa using dotless, settled⟩

theorem straight_container {path : Str} {before after : List Str} {c : Str}
    (cut : splitPath path = [] :: (before ++ c :: after)) (taken : owner.container c ≠ none)
    (gap : ∀ p ∈ after, owner.container p = none) :
    owner.Straight path ↔ Dotless ((before ++ [c]).flatMap splitPathComponents) ∧ owner.Lined before := by
  constructor
  · rintro ⟨dirs, images, inside, parts, folders, all, rest, only, dotless, settled⟩
    obtain ⟨-, parts⟩ := List.cons_eq_cons.mp (cut.symm.trans parts)
    rcases List.eq_nil_or_concat images with rfl | ⟨images, i, rfl⟩
    · rw [only rfl, List.append_nil, List.append_nil] at parts
      exact absurd (folders c (parts ▸ by simp)) taken
    · rw [List.concat_eq_append] at parts all dotless
      have last := all i (List.mem_append_right images (List.mem_singleton_self i))
      rw [← List.append_assoc, List.append_assoc (dirs ++ images), List.singleton_append] at parts
      obtain ⟨rfl, rfl, rfl⟩ := owner.last_unique parts taken last gap rest
      rw [← List.append_assoc] at dotless
      exact ⟨dotless, dirs, images, rfl, folders, fun j member => all j (List.mem_append_left _ member), settled⟩
  · rintro ⟨dotless, dirs, images, rfl, folders, all, settled⟩
    refine ⟨dirs, images ++ [c], after, by rw [cut]; simp, folders, fun i member => ?_, gap, by simp, ?_, settled⟩
    · rcases List.mem_append.mp member with old | new
      · exact all i old
      · rw [List.mem_singleton.mp new]
        exact taken
    · rw [← List.append_assoc]
      exact dotless

/- What `split` makes of a local path that is absolute -/
theorem pieces_of {dirs : List Str} (more : dirs ≠ []) (literal : ∀ d ∈ dirs, Literal d) :
    ∃ pieces, splitPath (rooted dirs) = [] :: pieces ∧ rooted dirs = rooted pieces ∧ pieces ≠ [] ∧
      (∀ p ∈ pieces, Tidy p ∧ colon ∉ p) ∧ (∀ p ∈ pieces.dropLast, slash ∉ p) ∧ pieces.length ≤ 9998 := by
  obtain ⟨join, tidy, inner, some, few⟩ :=
    split_tidy (fun d member => ⟨(literal d member).nonempty, (literal d member).plain⟩) more 9997
  refine ⟨_, by rw [splitPath, rooted, split_slash], congrArg (slash :: ·) join.symm, some, ?_, inner, few⟩
  intro p member
  refine ⟨tidy p member, fun inside => ?_⟩
  have there := (mem_rooted _ colon).mpr (.inr ⟨p, member, inside⟩)
  rw [rooted, join] at there
  rcases (mem_rooted dirs colon).mp there with no | ⟨d, belongs, here⟩
  · cases no
  · exact (literal d belongs).unscheme here

/-- What `File` makes of an absolute path is lossless exactly where the path is straight. -/
theorem file_lossless {dirs : List Str} (more : dirs ≠ []) (literal : ∀ d ∈ dirs, Literal d) :
    (∃ f sources, owner.File (rooted dirs) = f :: sources ∧ Lossless (f :: sources) (rooted dirs)) ↔
      owner.Straight (rooted dirs) := by
  obtain ⟨pieces, cut, same, some, item, inner, few⟩ := pieces_of more literal
  have path : rooted dirs ≠ [] := List.cons_ne_nil _ _
  have tidy : ∀ p ∈ pieces, Tidy p := fun p member => (item p member).1
  rcases owner.last_container pieces with plain | ⟨before, c, after, fs, rfl, taken, gap⟩
  · have none : ∀ p ∈ splitPath (rooted dirs), owner.container p = none := by
      rw [cut]
      intro p member
      rcases List.mem_cons.mp member with rfl | rest
      · exact owner.container_nil
      · exact plain p rest
    have flash : owner.flashUrl (rooted dirs) = rooted dirs ↔
        Dotless (pieces.flatMap splitPathComponents) ∧ owner.Settled pieces := by
      rw [same]
      exact owner.flashUrl_eq some tidy (same ▸ cut)
    rw [File, owner.file_default path none, owner.straight_default cut plain, ← flash]
    constructor
    · rintro ⟨f, sources, resolved, keeps, -⟩
      cases resolved
      exact keeps
    · exact fun keeps => ⟨_, _, rfl, keeps, trivial⟩
  · have inDrop : ∀ p ∈ before, p ∈ (before ++ c :: after).dropLast := fun p member => by
      rw [List.dropLast_append_of_ne_nil (List.cons_ne_nil c after)]
      exact List.mem_append_left _ member
    have front : Front before := by
      refine ⟨fun d member => ⟨(tidy d (List.mem_append_left _ member)).1, inner d (inDrop d member)⟩,
        fun d member => (item d (List.mem_append_left _ member)).2, Nat.le_trans ?_ few⟩
      rw [List.length_append]
      exact Nat.le_add_right _ _
    have self : c ∈ before ++ c :: after := List.mem_append_right before List.mem_cons_self
    have head : ∀ p ∈ before ++ [c], Tidy p := fun p member => tidy p (by
      rw [List.append_cons]
      exact List.mem_append_left after member)
    have tail : ∀ p ∈ after, Tidy p := fun p member =>
      tidy p (List.mem_append_right before (List.mem_cons_of_mem c member))
    have opened : owner.container c ≠ none := by
      rw [taken]
      exact Option.some_ne_none fs
    have enough : before.length < (rooted dirs).length := by
      have size := rooted_length (before ++ c :: after)
      rw [same]
      simp only [List.length_append, List.length_cons] at size
      omega
    have found := owner.file_container path cut tail (tidy c self).1 (item c self).2 taken gap (rooted dirs).length
    have clean : ∀ d ∈ (before ++ [c]).flatMap splitPathComponents, Component d := by
      rw [← components_rooted]
      exact components_component _
    have reset := resetURL_tidy head
    have below : Dotless ((before ++ [c]).flatMap splitPathComponents) → Dotless before := by
      intro dotless d member
      apply dotless d
      rw [List.flatMap_append, components_clean front.clean]
      exact List.mem_append_left _ member
    have chained := fun dotless =>
      @overwritten owner before.length before c _ rfl front (below dotless) (tidy c self) enough
    rw [owner.straight_container cut opened gap]
    constructor
    · rintro ⟨f, sources, resolved, keeps, chain⟩
      rw [File, found] at resolved
      cases resolved
      have kept : ∀ d ∈ canonical ((before ++ [c]).flatMap splitPathComponents), Component d := fun d member =>
        clean d (canonical_mem member).1
      rw [reset, fullUrl_behind (fun d member => Tidy.of_plain (kept d member).1 (kept d member).2) tail, same] at keeps
      have parts : (before ++ c :: after).flatMap splitPathComponents =
          (before ++ [c]).flatMap splitPathComponents ++ after.flatMap splitPathComponents := by
        rw [List.append_cons before c after, List.flatMap_append]
      have components := rooted_inj keeps
      rw [List.flatMap_append, components_clean kept, parts, List.append_cancel_right_eq,
        canonical_eq_iff] at components
      rw [reset, (canonical_eq_iff _).mpr components, rooted_components head] at chain
      exact ⟨components, (chained components).mp chain⟩
    · rintro ⟨dotless, lined⟩
      have url : resetURL (rooted (before ++ [c])) = rooted (before ++ [c]) := by
        rw [reset, (canonical_eq_iff _).mpr dotless, rooted_components head]
      refine ⟨_, _, found, ?_, ?_⟩
      · rw [url, fullUrl_behind head tail, same, List.append_cons before c after]
      · rw [url]
        exact (chained dotless).mpr lined

/- A relative path is made absolute. -/
theorem fullUrl_head {f : Source} (root : f.url.head? = some slash) : f.fullUrl.head? = some slash := by
  obtain ⟨rest, url⟩ : ∃ rest, f.url = slash :: rest := by
    cases parts : f.url with
    | nil => rw [parts] at root; cases root
    | cons c rest =>
      rw [parts] at root
      cases root
      exact ⟨rest, rfl⟩
  unfold Source.fullUrl
  split
  · exact root
  · split
    · split
      · rename_i begins
        rw [url]
        cases rest with
        | nil => exact begins
        | cons c rest => rfl
      · rw [url]
        rfl
    · split
      · rw [url]
        rfl
      · rw [url]
        rfl

theorem relative_lossy {dirs : List Str} (more : dirs ≠ []) (literal : ∀ d ∈ dirs, Literal d) :
    (¬ ∃ f sources, owner.File ([slash].intercalate dirs) = f :: sources ∧
      Lossless (f :: sources) ([slash].intercalate dirs)) ∧ ¬ owner.Straight ([slash].intercalate dirs) := by
  have clean : ∀ d ∈ dirs, Component d := fun d member => ⟨(literal d member).nonempty, (literal d member).plain⟩
  have whole := Tidy.intercalate (fun d member => Tidy.of_plain (clean d member).1 (clean d member).2) more
  constructor
  · rintro ⟨f, sources, resolved, keeps, -⟩
    obtain ⟨u, url⟩ := owner.file_url resolved
    obtain ⟨rest, begins⟩ := resetURL_head u
    have head := fullUrl_head (f := f) (by rw [url, begins]; rfl)
    rw [keeps] at head
    exact whole.head head
  · rintro ⟨_, _, _, cut, -⟩
    obtain ⟨-, tidy, -⟩ := split_tidy clean more 9998
    exact (tidy [] (by rw [show split slash 9998 ([slash].intercalate dirs) = _ from cut]; exact List.mem_cons_self)).1 rfl

/- A file with a source is in a container, and its url is the container's path. -/
theorem file_source {dirs : List Str} (more : dirs ≠ []) (literal : ∀ d ∈ dirs, Literal d) {f s : Source}
    {rest : List Source} (resolved : owner.File (rooted dirs) = f :: s :: rest) :
    ∃ folders, (∀ d ∈ folders, Component d) ∧ f.url = rooted folders := by
  obtain ⟨pieces, cut, -, -, item, -, -⟩ := pieces_of more literal
  have path : rooted dirs ≠ [] := List.cons_ne_nil _ _
  rcases owner.last_container pieces with plain | ⟨before, c, after, fs, rfl, taken, gap⟩
  · have none : ∀ p ∈ splitPath (rooted dirs), owner.container p = none := by
      rw [cut]
      intro p member
      rcases List.mem_cons.mp member with rfl | rest
      · exact owner.container_nil
      · exact plain p rest
    rw [File, owner.file_default path none] at resolved
    cases resolved
  · have self : c ∈ before ++ c :: after := List.mem_append_right before List.mem_cons_self
    have tail : ∀ p ∈ after, Tidy p := fun p member =>
      (item p (List.mem_append_right before (List.mem_cons_of_mem c member))).1
    rw [File, owner.file_container path cut tail (item c self).1.1 (item c self).2 taken gap] at resolved
    have url : f.url = resetURL (rooted (before ++ [c])) := by rw [← (List.cons_eq_cons.mp resolved).1]
    have tidy := resetURL_tidy fun p member => (item p (by
      rw [List.append_cons]
      exact List.mem_append_left after member)).1
    refine ⟨_, fun d member => components_component (rooted (before ++ [c])) d ?_, url.trans tidy⟩
    rw [components_rooted]
    exact (canonical_mem member).1

end MFSOwner

/- The path in a key has the components of the full url. -/
theorem Source.key_components (f : Source) :
    splitPathComponents (f.url ++
      (if f.pathInStream = [] ∨ f.pathInStream = [slash] then [] else slash :: f.pathInStream)) =
      splitPathComponents f.fullUrl := by
  unfold Source.fullUrl
  split
  · rw [List.append_nil]
  · rw [splitPathComponents_append]
    split
    · rename_i ends
      obtain ⟨top, url⟩ := List.getLast?_eq_some_iff.mp ends
      rw [url, splitPathComponents_append top [], splitPathComponents_nil, List.append_nil]
      split
      · rename_i begins
        obtain ⟨inside, path⟩ := List.head?_eq_some_iff.mp begins
        rw [path, List.dropLast_concat, splitPathComponents_append, splitPathComponents_slash]
      · rw [List.append_assoc, List.singleton_append, splitPathComponents_append]
    · split
      · rename_i begins
        obtain ⟨inside, path⟩ := List.head?_eq_some_iff.mp begins
        rw [path, splitPathComponents_append, splitPathComponents_slash]
      · rw [List.append_assoc, List.singleton_append, splitPathComponents_append]

/-- Two full urls with one key have the same components. -/
theorem Source.key_inj {f f' : Source} {type : Str} (same : f.key type = f'.key type) :
    splitPathComponents f.fullUrl = splitPathComponents f'.fullUrl := by
  rw [Source.key, Source.key, List.append_assoc, List.append_assoc, List.append_cancel_left_eq] at same
  rw [← f.key_components, ← f'.key_components, same]

namespace MFSOwner

variable (owner : MFSOwner)

theorem resolution_lossless {path : Str} (onFlash : LocalPath path) :
    ((∃ f sources, owner.File path = f :: sources ∧ Lossless (f :: sources) path) ↔ owner.Straight path) ∧
    ∀ path', LocalPath path' → owner.Straight path → owner.Straight path' →
      ∀ f s rest f' s' rest' type, owner.File path = f :: s :: rest → owner.File path' = f' :: s' :: rest' →
        f.url ≠ f'.url → s.key type ≠ s'.key type := by
  -- A relative path is never straight; an absolute one that is keeps its container in the source.
  have absolute : ∀ {p}, LocalPath p → owner.Straight p → ∀ f s rest, owner.File p = f :: s :: rest →
      ∃ folders, (∀ d ∈ folders, Component d) ∧ f.url = rooted folders ∧ s.fullUrl = rooted folders := by
    rintro p ⟨dirs, more, literal, rfl | rfl⟩ straight f s rest resolved
    · obtain ⟨folders, clean, url⟩ := owner.file_source more literal resolved
      obtain ⟨f', sources, resolved', -, keeps⟩ := (owner.file_lossless more literal).mpr straight
      rw [resolved] at resolved'
      cases resolved'
      exact ⟨folders, clean, url, keeps.1.trans url⟩
    · exact absurd straight (owner.relative_lossy more literal).2
  constructor
  · obtain ⟨dirs, more, literal, rfl | rfl⟩ := onFlash
    · exact owner.file_lossless more literal
    · exact iff_of_false (owner.relative_lossy more literal).1 (owner.relative_lossy more literal).2
  · intro path' onFlash' straight straight' f s rest f' s' rest' type resolved resolved' other same
    obtain ⟨folders, clean, url, full⟩ := absolute onFlash straight f s rest resolved
    obtain ⟨folders', clean', url', full'⟩ := absolute onFlash' straight' f' s' rest' resolved'
    have components := Source.key_inj same
    rw [full, full', components_rooted, components_rooted, components_clean clean, components_clean clean'] at components
    exact other (by rw [url, url', components])

/- File systems by extension, and a flash without directories. -/
def byExtension (ext : Str) (part : Str) : Bool := ext.isSuffixOf part

def zipExtension : Str := [0x2e, 0x7a, 0x69, 0x70]
def d64Extension : Str := [0x2e, 0x64, 0x36, 0x34]

def sampleOwner : MFSOwner where
  availableFS := [{ handles := byExtension zipExtension, isRootFS := false, scheme := nofun },
    { handles := byExtension d64Extension, isRootFS := false, vdrive_compatible := true, scheme := nofun }]
  use_vdrive := false
  readdir _ := none

/- "/sd/a.zip", with the image "b.d64" or another one in it. -/
def sampleZip : List Str := [[0x73, 0x64], 0x61 :: zipExtension]
def sampleImage (c : UInt8) : Str := c :: d64Extension

theorem sample_local {dirs : List Str} (more : dirs ≠ [])
    (literal : ∀ d ∈ dirs, d ≠ [] ∧ slash ∉ d ∧ colon ∉ d ∧ question ∉ d ∧ hash ∉ d) : LocalPath (rooted dirs) :=
  ⟨dirs, more, fun d member =>
    ⟨(literal d member).1, (literal d member).2.1, (literal d member).2.2.1, (literal d member).2.2.2.1,
      (literal d member).2.2.2.2⟩, .inl rfl⟩

theorem sample_straight (c : UInt8) (image : sampleOwner.container (sampleImage c) ≠ none)
    (cut : splitPath (rooted (sampleZip ++ [sampleImage c])) = [] :: (sampleZip ++ [sampleImage c]))
    (dotless : Dotless ((sampleZip ++ [sampleImage c]).flatMap splitPathComponents)) :
    sampleOwner.Straight (rooted (sampleZip ++ [sampleImage c])) := by
  refine ⟨[[0x73, 0x64]], [0x61 :: zipExtension, sampleImage c], [], cut, by decide, ?_, by simp, by simp,
    dotless, ?_⟩
  · intro i member
    rcases List.mem_cons.mp member with rfl | last
    · decide
    · rw [List.mem_singleton.mp last]
      exact image
  · rintro name last wild
    cases last
    exact absurd wild (by decide)

/-- Two images in one archive have keys of their own. -/
theorem resolution_lossless_sample :
    (∃ f sources, sampleOwner.File (rooted (sampleZip ++ [sampleImage 0x62])) = f :: sources ∧
      Lossless (f :: sources) (rooted (sampleZip ++ [sampleImage 0x62]))) ∧
    Source.key ⟨rooted sampleZip, sampleImage 0x62⟩ d64Extension ≠
      Source.key ⟨rooted sampleZip, sampleImage 0x63⟩ d64Extension := by
  have first := sample_straight 0x62 (by decide) (by decide) (by decide)
  have second := sample_straight 0x63 (by decide) (by decide) (by decide)
  have paths := resolution_lossless sampleOwner (sample_local (by decide) (by decide) :
    LocalPath (rooted (sampleZip ++ [sampleImage 0x62])))
  exact ⟨paths.1.mpr first, paths.2 (rooted (sampleZip ++ [sampleImage 0x63]))
    (sample_local (by decide) (by decide)) first second _ _ _ _ _ _ d64Extension rfl rfl (by decide)⟩

/-- The directory between two containers is lost: `a.zip/dir1/b.d64` and `a.zip/dir2/b.d64` are
one image to the broker. -/
theorem resolution_loses_directory :
    let path := fun dir : Str => rooted (sampleZip ++ [dir, sampleImage 0x62])
    let dir1 : Str := [0x64, 0x69, 0x72, 0x31]
    let dir2 : Str := [0x64, 0x69, 0x72, 0x32]
    LocalPath (path dir1) ∧ LocalPath (path dir2) ∧
      (¬ ∃ f sources, sampleOwner.File (path dir1) = f :: sources ∧ Lossless (f :: sources) (path dir1)) ∧
      ∃ f s rest f' s' rest', sampleOwner.File (path dir1) = f :: s :: rest ∧
        sampleOwner.File (path dir2) = f' :: s' :: rest' ∧ f.url ≠ f'.url ∧
        s.key d64Extension = s'.key d64Extension := by
  refine ⟨sample_local (by decide) (by decide), sample_local (by decide) (by decide), ?_,
    _, _, _, _, _, _, rfl, rfl, by decide, by decide⟩
  rintro ⟨f, sources, resolved, keeps⟩
  rw [← resolved] at keeps
  exact absurd keeps (by decide)

end MFSOwner

end Meatloaf
