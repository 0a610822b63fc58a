import Meatloaf.Text.Url
import Meatloaf.Stream.Owner

/-! Changing the directory: `MFile::cd` and the left arrow of the C64 keyboard, which goes up. -/
namespace Meatloaf

/- '_' and '^', the left and the up arrow of the C64. -/
def arrow : UInt8 := 0x5f
def upArrow : UInt8 := 0x5e

/-- The parts of a file's url, and its path in the stream. -/
structure Place extends PeoplesUrlParser where
  pathInStream : Str := []

/-- A file as it is made. Only a path with a container in it has a path in the stream, so the
url of such a file is not the root of a file system. -/
structure MFile extends Place where
  placed : pathInStream ≠ [] → path.length ≠ 1

/-- What `cd` goes on with. -/
inductive Target where
  /- `MFSOwner::File` of the path. -/
  | file (path : Str) (default_fs : Bool)
  /- The file of the path is read, and what it says is resolved. -/
  | link (path : Str)
  | localParent (plus : Str)
  | localRoot (plus : Str)
  | root (plus : Str)
  deriving DecidableEq

/- What is in front of the last slash; nothing where there is none. -/
def beforeLast (s : Str) : Str := ((s.reverse.dropWhile (· ≠ slash)).drop 1).reverse

/- The text without a slash in front. -/
def dropSlash (s : Str) : Str := if s.head? = some slash then s.drop 1 else s

/- The text with a slash at its end. -/
def slashEnded (s : Str) : Str := if s.getLast? = some slash then s else s ++ [slash]

/- The loop of `cdParent` over the arrows that are left of `plus`; every round uses one up. -/
def climb : Nat → Str → Str → Str × Str
  | 0, newDir, plus => (newDir, plus)
  | fuel + 1, newDir, plus =>
    if plus.head? = some arrow then
      let plus := dropSlash (plus.drop 1)
      if beforeLast newDir = [] then ([slash], plus) else climb fuel (beforeLast newDir) plus
    else (newDir, plus)

namespace Place

variable (f : Place)

def fullUrl : Str := Source.fullUrl ⟨f.url, f.pathInStream⟩

/-- `MFile::cdParent`. -/
def cdParent (plus : Str) : Target :=
  let currentFull := f.fullUrl
  if currentFull = [] ∨ currentFull = [slash] then .file [slash] true
  else
    let currentFull :=
      if 1 < currentFull.length ∧ currentFull.getLast? = some slash then currentFull.dropLast else currentFull
    if beforeLast currentFull = [] then .file [slash] true
    else
      let plus := dropSlash plus
      let climbed := climb plus.length (beforeLast currentFull) plus
      let newDir := climbed.1
      let plus := climbed.2
      .file (if plus = [] then newDir else (if newDir = [slash] then newDir else newDir ++ [slash]) ++ plus) false

/- "mdns://", "network" and ".url". -/
def mdnsUrl : Str := [0x6d, 0x64, 0x6e, 0x73, 0x3a, 0x2f, 0x2f]
def networkName : Str := [0x6e, 0x65, 0x74, 0x77, 0x6f, 0x72, 0x6b]
def urlExtension : Str := [0x2e, 0x75, 0x72, 0x6c]

/-- `MFile::cd`. -/
def cd (newDir : Str) : Target :=
  if PeoplesUrlParser.hasScheme newDir = true then .file newDir false
  else if newDir.head? = some arrow then
    if f.path.length = 1 ∧ 1 < newDir.length then
      .file (slashEnded ((if mdnsUrl.isPrefixOf f.url = true then f.url else slashEnded f.url) ++ newDir)) false
    else f.cdParent (newDir.drop 1)
  else if newDir.take 2 = dotdot then
    if newDir.length = 2 then f.cdParent [] else .localParent (newDir.drop 2)
  else if newDir.take 2 = [slash, slash] then .localRoot (newDir.drop 2)
  else if newDir.head? = some upArrow then .root (newDir.drop 1)
  else if newDir.head? = some slash ∧ f.url.head? = some slash then .file newDir false
  else
    let newDir := dropSlash newDir
    let network := f.fullUrl = [slash] ∧ newDir = networkName
    let base := if network then mdnsUrl else f.fullUrl
    let newDir := if network then [] else newDir
    let newPath := (if newDir = [] then base else slashEnded base) ++ newDir
    if urlExtension <:+ MFSOwner.toLower newDir then .link newPath else .file newPath false

end Place

/-- The target is the file of the path, in whatever file system. -/
def Target.Resolves (t : Target) (path : Str) : Prop := ∃ default_fs, t = .file path default_fs

/- Steps up, with a slash behind each arrow or not. -/
def arrows (steps : List Bool) : Str := steps.flatMap fun slashed => if slashed = true then [arrow, slash] else [arrow]

/- Going up -/

theorem beforeLast_snoc (s : Str) {c : Str} (plain : slash ∉ c) : beforeLast (s ++ slash :: c) = s := by
  have kept : ∀ b ∈ c.reverse, decide (b ≠ slash) = true := by
    intro b member
    rw [decide_eq_true_eq]
    rintro rfl
    exact plain (List.mem_reverse.mp member)
  unfold beforeLast
  rw [List.reverse_append, List.reverse_cons, List.append_assoc, List.dropWhile_append_of_pos kept,
    List.singleton_append, List.dropWhile_cons_of_neg (by simp), List.drop_succ_cons, List.drop_zero, List.reverse_reverse]

/-- Above a directory is the path without its last component. -/
theorem beforeLast_rooted (dirs : List Str) {c : Str} (plain : slash ∉ c) :
    beforeLast (rooted (dirs ++ [c])) = if dirs = [] then [] else rooted dirs := by
  rw [rooted_snoc]
  split
  · exact beforeLast_snoc [] plain
  · rw [List.append_assoc, List.singleton_append]
    exact beforeLast_snoc _ plain

theorem dropSlash_of {s : Str} (plain : s.head? ≠ some slash) : dropSlash s = s := if_neg plain

/- Text behind the steps that is neither a step nor below the root. -/
structure Below (r : Str) : Prop where
  arrow : r.head? ≠ some arrow
  slash : r.head? ≠ some slash

theorem arrows_cons (slashed : Bool) (steps : List Bool) :
    arrows (slashed :: steps) = arrow :: (if slashed = true then [slash] else []) ++ arrows steps := by
  cases slashed with
  | true => rfl
  | false => rfl

/- What is left of the steps and the text has no slash in front. -/
theorem arrows_head (steps : List Bool) {r : Str} (below : Below r) : (arrows steps ++ r).head? ≠ some slash := by
  cases steps with
  | nil => exact below.slash
  | cons slashed steps =>
    rw [arrows_cons]
    exact fun no => absurd (Option.some.inj no) (by decide)

/- One step: the arrow goes, with its slash. -/
theorem dropSlash_arrows (slashed : Bool) (steps : List Bool) {r : Str} (below : Below r) :
    dropSlash ((arrows (slashed :: steps) ++ r).drop 1) = arrows steps ++ r := by
  rw [arrows_cons]
  cases slashed with
  | true => rfl
  | false => exact dropSlash_of (arrows_head steps below)

theorem arrows_length (steps : List Bool) : steps.length ≤ (arrows steps).length := by
  induction steps with
  | nil => exact Nat.le_refl _
  | cons slashed steps ih =>
    rw [arrows_cons, List.length_append, List.length_cons, List.length_cons]
    omega

/-- Below the root the loop goes up a step an arrow; it stops at the root, where it leaves the
arrows that are left. -/
theorem climb_arrows {r : Str} (below : Below r) (steps : List Bool) (dirs : List Str) (some : dirs ≠ [])
    (plain : ∀ d ∈ dirs, slash ∉ d) (fuel : Nat) (enough : steps.length ≤ fuel) :
    climb fuel (rooted dirs) (arrows steps ++ r) =
      if steps.length < dirs.length then (rooted (dirs.take (dirs.length - steps.length)), r)
      else ([slash], arrows (steps.drop dirs.length) ++ r) := by
  induction steps generalizing dirs fuel with
  | nil =>
    have here : climb fuel (rooted dirs) r = (rooted dirs, r) := by
      cases fuel with
      | zero => rfl
      | succ fuel => exact if_neg below.arrow
    rw [List.length_nil, if_pos (List.length_pos_iff.mpr some), Nat.sub_zero, List.take_length]
    exact here
  | cons slashed steps ih =>
    obtain ⟨fuel, rfl⟩ := Nat.exists_eq_succ_of_ne_zero (show fuel ≠ 0 by rw [List.length_cons] at enough; omega)
    obtain ⟨parents, d, rfl⟩ : ∃ parents d, dirs = parents ++ [d] :=
      ⟨dirs.dropLast, dirs.getLast some, (List.dropLast_concat_getLast some).symm⟩
    have last : slash ∉ d := plain d (by simp)
    have first : (arrows (slashed :: steps) ++ r).head? = Option.some arrow := by
      rw [arrows_cons]
      rfl
    rw [climb, if_pos first, dropSlash_arrows slashed steps below, beforeLast_rooted parents last]
    dsimp only
    by_cases top : parents = []
    · subst top
      rw [if_pos rfl, if_pos rfl, if_neg (by simp)]
      rfl
    · rw [if_neg top, if_neg (show rooted parents ≠ [] from List.cons_ne_nil _ _), ih parents top (fun e member => plain e (by simp [member])) fuel
        (by rw [List.length_cons] at enough; omega)]
      simp only [List.length_append, List.length_cons, List.length_nil, Nat.zero_add, Nat.add_lt_add_iff_right,
        List.drop_succ_cons, Nat.add_sub_add_right]
      split
      · rw [List.take_append_of_le_length (Nat.sub_le _ _)]
      · rfl

theorem rooted_ne_root {dirs : List Str} (named : ∀ d ∈ dirs, Component d) (some : dirs ≠ []) :
    rooted dirs ≠ [slash] := by
  intro root
  have last := rooted_open named some
  rw [root] at last
  exact last rfl

/- The path of something in the root. -/
theorem rooted_text (r : Str) : rooted (if r = [] then [] else [r]) = slash :: r := by
  split
  · rename_i empty
    rw [empty]
    rfl
  · simp [rooted, List.intercalate]

/- The path of a directory with something behind it. -/
theorem rooted_behind {dirs : List Str} (named : ∀ d ∈ dirs, Component d) (r : Str) :
    rooted (dirs ++ if r = [] then [] else [r]) =
      if r = [] then rooted dirs else (if rooted dirs = [slash] then rooted dirs else rooted dirs ++ [slash]) ++ r := by
  split
  · rw [List.append_nil]
  · rw [rooted_snoc]
    by_cases top : dirs = []
    · subst top
      rfl
    · rw [if_neg top, if_neg (rooted_ne_root named top)]

namespace MFile

open Place

variable {f : MFile} {dirs : List Str} {steps : List Bool} {r : Str}

/- The directory above, as `cdParent` finds it. -/
theorem cdParent_rooted {d : Str} (current : f.fullUrl = rooted (dirs ++ [d])) (named : ∀ e ∈ dirs ++ [d], Component e)
    (plus : Str) : f.cdParent plus =
      if dirs = [] then .file [slash] true
      else
        let climbed := climb (dropSlash plus).length (rooted dirs) (dropSlash plus)
        .file (if climbed.2 = [] then climbed.1
          else (if climbed.1 = [slash] then climbed.1 else climbed.1 ++ [slash]) ++ climbed.2) false := by
  have some : dirs ++ [d] ≠ [] := by simp
  have last : slash ∉ d := (named d (by simp)).2
  have full : rooted (dirs ++ [d]) ≠ [] := List.cons_ne_nil _ _
  have whole : (if 1 < (rooted (dirs ++ [d])).length ∧ (rooted (dirs ++ [d])).getLast? = Option.some slash then
      (rooted (dirs ++ [d])).dropLast else rooted (dirs ++ [d])) = rooted (dirs ++ [d]) :=
    if_neg fun ends => rooted_open named some ends.2
  unfold cdParent
  dsimp only
  rw [current, if_neg (not_or.mpr ⟨full, rooted_ne_root named some⟩), whole, beforeLast_rooted dirs last]
  by_cases top : dirs = []
  · rw [if_pos top, if_pos rfl, if_pos top]
  · rw [if_neg top, if_neg (show rooted dirs ≠ [] from List.cons_ne_nil _ _), if_neg top]

/-- Up from a deeper directory: the steps are taken as far as the root, where the arrows that
are left stay in the path. -/
theorem cdParent_deep {d : Str} (current : f.fullUrl = rooted (dirs ++ [d])) (named : ∀ e ∈ dirs ++ [d], Component e)
    (deep : dirs ≠ []) (below : Below r) {plus : Str} (text : dropSlash plus = arrows steps ++ r) :
    f.cdParent plus = .file (
      if steps.length < dirs.length then rooted (dirs.take (dirs.length - steps.length) ++ if r = [] then [] else [r])
      else slash :: (arrows (steps.drop dirs.length) ++ r)) false := by
  have above : ∀ e ∈ dirs, Component e := fun e member => named e (by simp [member])
  have enough : steps.length ≤ (arrows steps ++ r).length := by
    have long := arrows_length steps
    rw [List.length_append]
    omega
  rw [cdParent_rooted current named, if_neg deep, text,
    climb_arrows below steps dirs deep (fun e member => (above e member).2) _ enough]
  dsimp only
  split
  · rw [rooted_behind fun e member => above e (List.mem_of_mem_take member)]
  · dsimp only
    split
    · rename_i none
      rw [none]
    · rfl

end MFile

theorem hasScheme_arrow (rest : Str) : PeoplesUrlParser.hasScheme (arrow :: rest) = false := by
  have no : isalpha arrow = false := by decide
  unfold PeoplesUrlParser.hasScheme
  cases find colon (arrow :: rest) with
  | none => rfl
  | some pos => simp [no]

namespace MFile

open Place

variable {f : MFile} {dirs : List Str} {steps : List Bool} {r : Str}

/- The first arrow decides what `cd` does. -/
theorem cd_arrow (slashed : Bool) (steps : List Bool) (r : Str) : f.cd (arrows (slashed :: steps) ++ r) =
    if f.path.length = 1 ∧ 1 < (arrows (slashed :: steps) ++ r).length then
      .file (slashEnded ((if mdnsUrl.isPrefixOf f.url = true then f.url else slashEnded f.url) ++
        (arrows (slashed :: steps) ++ r))) false
    else f.cdParent ((arrows (slashed :: steps) ++ r).drop 1) := by
  have begins : ∃ rest, arrows (slashed :: steps) ++ r = arrow :: rest := by
    rw [arrows_cons]
    exact ⟨_, rfl⟩
  obtain ⟨rest, begins⟩ := begins
  unfold cd
  rw [begins, hasScheme_arrow, if_neg Bool.false_ne_true]
  exact if_pos rfl

/-- What steps up resolve to, except from the root of a file system. -/
theorem cd_arrows (current : f.fullUrl = rooted dirs) (named : ∀ d ∈ dirs, Component d) (some : dirs ≠ [])
    (up : steps ≠ []) (below : Below r) (inner : f.path.length = 1 → (arrows steps ++ r).length = 1) :
    f.cd (arrows steps ++ r) =
      if dirs.length = 1 then .file [slash] true
      else if steps.length ≤ dirs.length then
        .file (rooted (dirs.take (dirs.length - steps.length) ++ if r = [] then [] else [r])) false
      else .file (slash :: (arrows (steps.drop dirs.length) ++ r)) false := by
  obtain ⟨slashed, steps, rfl⟩ := List.exists_cons_of_ne_nil up
  obtain ⟨parents, d, rfl⟩ : ∃ parents d, dirs = parents ++ [d] :=
    ⟨dirs.dropLast, dirs.getLast some, (List.dropLast_concat_getLast some).symm⟩
  rw [cd_arrow, if_neg fun root => absurd (inner root.1) (Nat.ne_of_gt root.2)]
  have count : (parents ++ [d]).length = parents.length + 1 := by simp
  by_cases top : parents = []
  · rw [cdParent_rooted current named, if_pos top, if_pos (by simp [top])]
  · have deep : parents.length ≠ 0 := fun none => top (List.length_eq_zero_iff.mp none)
    have more : ¬ (parents ++ [d]).length = 1 := by omega
    rw [cdParent_deep current named top below (dropSlash_arrows slashed steps below), if_neg more]
    rcases Nat.lt_trichotomy steps.length parents.length with less | same | beyond
    · have within : (slashed :: steps).length ≤ (parents ++ [d]).length := by rw [count, List.length_cons]; omega
      rw [if_pos less, if_pos within, count, List.length_cons, Nat.add_sub_add_right,
        List.take_append_of_le_length (Nat.sub_le _ _)]
    · have within : (slashed :: steps).length ≤ (parents ++ [d]).length := by rw [count, List.length_cons]; omega
      have none : steps.drop parents.length = [] := List.drop_eq_nil_of_le (by omega)
      rw [if_neg (by omega), if_pos within, none, count, List.length_cons, same, Nat.sub_self, List.take_zero,
        List.nil_append, rooted_text]
      rfl
    · have out : ¬ (slashed :: steps).length ≤ (parents ++ [d]).length := by rw [count, List.length_cons]; omega
      rw [if_neg (by omega), if_neg out, count, List.drop_succ_cons]

end MFile

/- More components make a path longer. -/
theorem rooted_length_append (dirs more : List Str) : (rooted dirs).length ≤ (rooted (dirs ++ more)).length := by
  induction more generalizing dirs with
  | nil => rw [List.append_nil]
  | cons d more ih =>
    have next := ih (dirs ++ [d])
    rw [List.append_assoc, List.singleton_append] at next
    refine Nat.le_trans ?_ next
    rw [rooted_snoc]
    by_cases top : dirs = []
    · subst top
      exact Nat.succ_le_succ (Nat.zero_le _)
    · rw [if_neg top, List.length_append, List.length_append]
      omega

theorem rooted_take_length (dirs : List Str) (m : Nat) (r : Str) :
    (rooted (dirs.take m ++ if r = [] then [] else [r])).length ≤ (rooted dirs).length + 1 + r.length := by
  have front := rooted_length_append (dirs.take m) (dirs.drop m)
  rw [List.take_append_drop] at front
  split
  · rw [List.append_nil]
    omega
  · rw [rooted_snoc, List.length_append]
    split
    · rw [List.length_singleton]
      omega
    · rw [List.length_append, List.length_singleton]
      omega

theorem slashEnded_length (s : Str) : s.length ≤ (slashEnded s).length := by
  unfold slashEnded
  split
  · exact Nat.le_refl _
  · rw [List.length_append]
    exact Nat.le_add_right _ _

namespace MFile

open Place

variable {f : MFile} {dirs : List Str} {steps : List Bool} {r : Str}

/- At the root of a file system the arrows become part of the path, which is too long then. -/
theorem cd_arrows_root (current : f.fullUrl = rooted dirs) (named : ∀ d ∈ dirs, Component d) (some : dirs ≠ [])
    (up : steps ≠ []) (root : f.path.length = 1) (more : 1 < (arrows steps ++ r).length) :
    ¬ (f.cd (arrows steps ++ r)).Resolves
      (rooted (dirs.take (dirs.length - steps.length) ++ if r = [] then [] else [r])) := by
  obtain ⟨slashed, steps, rfl⟩ := List.exists_cons_of_ne_nil up
  have plain : f.pathInStream = [] := by
    by_contra inside
    exact f.placed inside root
  have url : f.url = rooted dirs := by
    rw [fullUrl, plain] at current
    exact current
  have open_ : slashEnded (rooted dirs) = rooted dirs ++ [slash] := if_neg (rooted_open named some)
  rw [cd_arrow, if_pos ⟨root, more⟩, url, if_neg (show ¬ mdnsUrl.isPrefixOf (rooted dirs) = true from Bool.false_ne_true),
    open_]
  rintro ⟨default_fs, same⟩
  have long := congrArg List.length (Target.file.inj same).1
  have ended := slashEnded_length (rooted dirs ++ [slash] ++ (arrows (slashed :: steps) ++ r))
  have short := rooted_take_length dirs (dirs.length - (slashed :: steps).length) r
  have text := arrows_length (slashed :: steps)
  rw [long, List.length_append, List.length_append, List.length_append, List.length_singleton] at ended
  rw [List.length_cons] at text
  omega

/-- Steps up and a path behind them resolve exactly, if and only if there is nothing behind
them in a directory of the root, or no more of them than components in a deeper directory;
the root of a file system has only the one step without a slash. -/
theorem cd_arrows_iff (f : MFile) (dirs : List Str) (current : f.fullUrl = rooted dirs)
    (named : ∀ d ∈ dirs, Component d) (some : dirs ≠ []) (steps : List Bool) (up : steps ≠ []) (r : Str)
    (below : Below r) :
    (f.cd (arrows steps ++ r)).Resolves
        (rooted (dirs.take (dirs.length - steps.length) ++ if r = [] then [] else [r])) ↔
      (f.path.length = 1 → (arrows steps ++ r).length = 1) ∧
        ((dirs.length = 1 ∧ r = []) ∨ (2 ≤ dirs.length ∧ steps.length ≤ dirs.length)) := by
  have count : 0 < steps.length := List.length_pos_iff.mpr up
  by_cases root : f.path.length = 1 ∧ 1 < (arrows steps ++ r).length
  · have wrong := cd_arrows_root current named some up root.1 root.2 (r := r)
    exact iff_of_false wrong fun right => absurd (right.1 root.1) (Nat.ne_of_gt root.2)
  · have text : 0 < (arrows steps ++ r).length := by
      have long := arrows_length steps
      rw [List.length_append]
      omega
    have inner : f.path.length = 1 → (arrows steps ++ r).length = 1 := by
      intro top
      have short : ¬ 1 < (arrows steps ++ r).length := fun more => root ⟨top, more⟩
      omega
    rw [cd_arrows current named some up below inner, and_iff_right inner]
    by_cases top : dirs.length = 1
    · rw [if_pos top, top, Nat.sub_eq_zero_of_le count, List.take_zero, List.nil_append, rooted_text]
      constructor
      · rintro ⟨_, same⟩
        have nothing := (List.cons_eq_cons.mp (Target.file.inj same).1).2
        exact .inl ⟨rfl, nothing.symm⟩
      · rintro (⟨-, rfl⟩ | ⟨no, -⟩)
        · exact ⟨true, rfl⟩
        · exact absurd no (by decide)
    · have deep : 2 ≤ dirs.length := by
        have positive := List.length_pos_iff.mpr some
        omega
      rw [if_neg top]
      by_cases few : steps.length ≤ dirs.length
      · rw [if_pos few]
        exact iff_of_true ⟨false, rfl⟩ (.inr ⟨deep, few⟩)
      · have left : (steps.drop dirs.length).length ≠ 0 := by
          rw [List.length_drop]
          omega
        have stay := arrows_length (steps.drop dirs.length)
        rw [if_neg few, Nat.sub_eq_zero_of_le (Nat.le_of_not_le few), List.take_zero, List.nil_append, rooted_text]
        refine iff_of_false ?_ fun right => right.elim (fun one => top one.1) fun deep => few deep.2
        rintro ⟨_, same⟩
        have long := congrArg List.length (List.cons_eq_cons.mp (Target.file.inj same).1).2
        rw [List.length_append] at long
        omega

/- "/a" and "/a/b/c". -/
def sampleDir (path : Str) (below : path.length ≠ 1) : MFile := { url := path, path := path, placed := fun _ => below }

/-- In "/a" the step up to "b" ends in the root, and in "/a/b" an arrow too many stays in the
path. -/
theorem cd_arrows_lost :
    (sampleDir [slash, 0x61] (by decide)).cd [arrow, 0x62] = .file [slash] true ∧
      ¬ ((sampleDir [slash, 0x61] (by decide)).cd [arrow, 0x62]).Resolves [slash, 0x62] ∧
    (sampleDir [slash, 0x61, slash, 0x62] (by decide)).cd [arrow, arrow, arrow, 0x63] =
        .file [slash, arrow, 0x63] false ∧
      ¬ ((sampleDir [slash, 0x61, slash, 0x62] (by decide)).cd [arrow, arrow, arrow, 0x63]).Resolves [slash, 0x63] := by
  have one : (sampleDir [slash, 0x61] (by decide)).cd [arrow, 0x62] = .file [slash] true := by decide
  have more : (sampleDir [slash, 0x61, slash, 0x62] (by decide)).cd [arrow, arrow, arrow, 0x63] =
      .file [slash, arrow, 0x63] false := by decide
  refine ⟨one, ?_, more, ?_⟩
  · rw [one]
    rintro ⟨_, same⟩
    cases same
  · rw [more]
    rintro ⟨_, same⟩
    cases same

/-- `cd_arrows_iff` applies to "__/d" in "/a/b/c". -/
theorem cd_arrows_exact :
    ((sampleDir (rooted [[0x61], [0x62], [0x63]]) (by decide)).cd [arrow, arrow, slash, 0x64]).Resolves
      (rooted [[0x61], [0x64]]) :=
  (cd_arrows_iff (sampleDir (rooted [[0x61], [0x62], [0x63]]) (by decide)) [[0x61], [0x62], [0x63]] rfl (by decide)
    (by decide) [false, true] (by decide) [0x64] ⟨by decide, by decide⟩).mpr
    ⟨fun no => absurd no (by decide), .inr ⟨by decide, by decide⟩⟩

end MFile

end Meatloaf
