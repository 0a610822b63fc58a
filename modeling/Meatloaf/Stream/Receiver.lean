import Meatloaf.Stream.Cd

/-! What `MFile::cd` does to the file it is called on. -/
namespace Meatloaf

/-- A file with the files it comes from: `sourceFile`, that of `sourceFile`, and so on. -/
structure Receiver extends Place where
  sources : List Place := []

namespace Receiver

variable (f : Receiver)

def sourceFile : Option Place := f.sources.head?

/- The path that `cdLocalParent` puts together. A slash at the end is passed over, and the
difference of the two lengths is unsigned. -/
def localParent (plus : Str) : Str :=
  let parent := beforeLast (if f.path.getLast? = some slash then f.path.dropLast else f.path)
  let parent :=
    match f.sourceFile with
    | none => parent
    | some sourceFile =>
      if 1 < (parent.length + 2 ^ 32 - sourceFile.path.length) % 2 ^ 32 then sourceFile.path else parent
  if plus = [] then parent else parent ++ slash :: plus

def rebuildUrl : Receiver := { f with toPeoplesUrlParser := f.toPeoplesUrlParser.rebuildUrl }

/-- `MFile::cdLocalParent`, with the receiver as it leaves it. -/
def cdLocalParent (plus : Str) : Receiver × Target :=
  let f := { f with path := f.localParent plus }.rebuildUrl
  (f, .file f.url false)

/-- `MFile::cdRoot`. -/
def cdRoot (plus : Str) : Target := .file (if plus.head? = some slash then plus else slash :: plus) true

/- The path of the root that `cdLocalRoot` goes to. -/
def localRoot : Str :=
  match f.sourceFile with
  | none => [slash]
  | some sourceFile => if f.path = [] then [slash] else sourceFile.path

/-- `MFile::cdLocalRoot`: the path and the url are put back. -/
def cdLocalRoot (plus : Str) : Receiver × Target :=
  let behind := if plus = [] then [] else slash :: plus
  if plus.head? = some slash then (f, .file plus false)
  else if (f.sourceFile.map Place.pathInStream).getD [] ≠ [] then (f, .file (f.path ++ behind) false)
  else
    let saved_path := f.path
    let saved_url := f.url
    let f := { f with path := f.localRoot ++ behind }.rebuildUrl
    let destUrl := f.url
    ({ f with path := saved_path, url := saved_url }, .file destUrl false)

/-- `MFile::cd`, with the receiver as it leaves it. -/
def cd (newDir : Str) : Receiver × Target :=
  match f.toPlace.cd newDir with
  | .localParent plus => f.cdLocalParent plus
  | .localRoot plus => f.cdLocalRoot plus
  | .root plus => (f, cdRoot plus)
  | target => (f, target)

/-- The path is the canonical one of the directory above with the text behind it, and the url
is put together from its parts. -/
structure Names (plus : Str) : Prop where
  path : f.path =
    util_get_canonical_url (if (f.localParent plus).head? = some slash then f.localParent plus
      else slash :: f.localParent plus)
  url : f.url = f.root ++ f.path ++ PeoplesUrlParser.mark question f.query ++ PeoplesUrlParser.mark hash f.fragment

end Receiver

namespace PeoplesUrlParser

/- What `rebuildUrl` leaves in the path is canonical, and it touches the path and the url only. -/

theorem rebuildUrl_path (p : PeoplesUrlParser) :
    p.rebuildUrl.path = util_get_canonical_url (if p.path.head? = some slash then p.path else slash :: p.path) := by
  unfold rebuildUrl cleanPath
  split
  · rename_i begins
    have nonempty : p.path ≠ [] := by
      intro none
      rw [none] at begins
      cases begins
    simp [nonempty]
  · simp

theorem rebuildUrl_eq (p : PeoplesUrlParser) :
    p.rebuildUrl = { p with
      path := p.rebuildUrl.path
      url := p.root ++ p.rebuildUrl.path ++ mark question p.query ++ mark hash p.fragment } := by
  unfold rebuildUrl cleanPath
  split
  · split
    · rfl
    · rfl
  · rfl

end PeoplesUrlParser

namespace Receiver

variable (f : Receiver)

/- The branch that leaves what it computed in the receiver. -/

theorem cdLocalParent_path (plus : Str) : (f.cdLocalParent plus).1.path =
    util_get_canonical_url (if (f.localParent plus).head? = some slash then f.localParent plus
      else slash :: f.localParent plus) :=
  PeoplesUrlParser.rebuildUrl_path _

theorem cdLocalParent_url (plus : Str) : (f.cdLocalParent plus).1.url =
    f.root ++ (f.cdLocalParent plus).1.path ++ PeoplesUrlParser.mark question f.query ++
      PeoplesUrlParser.mark hash f.fragment :=
  congrArg PeoplesUrlParser.url (PeoplesUrlParser.rebuildUrl_eq { f with path := f.localParent plus })

/-- The local parent stays in the receiver, unless it is where the receiver was. -/
theorem cdLocalParent_kept (plus : Str) :
    ((f.cdLocalParent plus).1.url = f.url ∧ (f.cdLocalParent plus).1.path = f.path) ↔ f.Names plus := by
  rw [cdLocalParent_url, cdLocalParent_path]
  constructor
  · rintro ⟨url, path⟩
    refine ⟨path.symm, ?_⟩
    rw [← path]
    exact url.symm
  · rintro ⟨path, url⟩
    rw [← path]
    exact ⟨url.symm, rfl⟩

/- The other branch that computes in the receiver puts everything back. -/
theorem cdLocalRoot_kept (plus : Str) : (f.cdLocalRoot plus).1 = f := by
  unfold cdLocalRoot
  dsimp only
  split
  · rfl
  · split
    · rfl
    · unfold rebuildUrl
      rw [PeoplesUrlParser.rebuildUrl_eq]

end Receiver

/- Text that begins with a dot has no scheme. -/
theorem hasScheme_dots {newDir : Str} (dots : newDir.take 2 = dotdot) : PeoplesUrlParser.hasScheme newDir = false := by
  have first : newDir.head? = some period := by
    have taken := List.head?_take (l := newDir) (i := 2)
    rw [dots] at taken
    exact taken.symm
  unfold PeoplesUrlParser.hasScheme
  split
  · rfl
  · rw [first]
    simp [show isalpha period = false by decide]

namespace Place

variable (f : Place) (newDir : Str)

/-- Two dots with more text are for the local parent. -/
theorem cd_dots (dots : newDir.take 2 = dotdot) (more : newDir.length ≠ 2) :
    f.cd newDir = .localParent (newDir.drop 2) := by
  have first : newDir.head? ≠ some arrow := by
    have taken := List.head?_take (l := newDir) (i := 2)
    rw [dots] at taken
    rw [← show some period = newDir.head? from taken]
    decide
  unfold cd
  rw [hasScheme_dots dots, if_neg Bool.false_ne_true, if_neg first, if_pos dots, if_neg more]

theorem cdParent_file (plus : Str) : ∃ path default_fs, f.cdParent plus = .file path default_fs := by
  unfold cdParent
  dsimp only
  split
  · exact ⟨_, _, rfl⟩
  · generalize (if 1 < f.fullUrl.length ∧ f.fullUrl.getLast? = some slash then f.fullUrl.dropLast
      else f.fullUrl) = currentFull
    split
    · exact ⟨_, _, rfl⟩
    · exact ⟨_, _, rfl⟩

theorem ite_ne {c : Prop} [Decidable c] {x y z : Target} (first : c → x ≠ z) (second : ¬ c → y ≠ z) :
    (if c then x else y) ≠ z := by
  by_cases holds : c
  · rw [if_pos holds]
    exact first holds
  · rw [if_neg holds]
    exact second holds

/-- No other text is. -/
theorem cd_other (other : ¬ (newDir.take 2 = dotdot ∧ newDir.length ≠ 2)) (plus : Str) :
    f.cd newDir ≠ .localParent plus := by
  have up : ∀ plus', f.cdParent plus' ≠ .localParent plus := by
    intro plus' same
    obtain ⟨path, default_fs, file⟩ := f.cdParent_file plus'
    rw [file] at same
    cases same
  unfold cd
  apply ite_ne
  · nofun
  · intro _
    apply ite_ne
    · intro _
      apply ite_ne
      · nofun
      · exact fun _ => up _
    · intro _
      apply ite_ne
      · intro dots
        apply ite_ne
        · exact fun _ => up _
        · exact fun more => absurd ⟨dots, more⟩ other
      · intro _
        apply ite_ne
        · nofun
        · intro _
          apply ite_ne
          · nofun
          · intro _
            apply ite_ne
            · nofun
            · intro _
              apply ite_ne
              · nofun
              · nofun

end Place

namespace Receiver

variable (f : Receiver) (newDir : Str)

theorem cd_dots (dots : newDir.take 2 = dotdot) (more : newDir.length ≠ 2) :
    f.cd newDir = f.cdLocalParent (newDir.drop 2) := by
  unfold cd
  rw [f.toPlace.cd_dots newDir dots more]

/-- Every other branch leaves the receiver as it was. -/
theorem cd_other (other : ¬ (newDir.take 2 = dotdot ∧ newDir.length ≠ 2)) : (f.cd newDir).1 = f := by
  have branch := f.toPlace.cd_other newDir other
  unfold cd
  cases target : f.toPlace.cd newDir with
  | localParent plus => exact absurd target (branch plus)
  | localRoot plus => exact f.cdLocalRoot_kept plus
  | root plus => rfl
  | link path => rfl
  | file path default_fs => rfl

/-- Changing the directory leaves the receiver where it was, if and only if it was not two dots
with a text behind them, or the text leads back into the receiver's own directory. -/
theorem cd_receiver_iff :
    ((f.cd newDir).1.url = f.url ∧ (f.cd newDir).1.path = f.path ∧ (f.cd newDir).1.pathInStream = f.pathInStream) ↔
      (newDir.take 2 = dotdot ∧ newDir.length ≠ 2 → f.Names (newDir.drop 2)) := by
  by_cases dots : newDir.take 2 = dotdot ∧ newDir.length ≠ 2
  · have stream : (f.cdLocalParent (newDir.drop 2)).1.pathInStream = f.pathInStream := rfl
    rw [f.cd_dots newDir dots.1 dots.2, stream, and_iff_left rfl, f.cdLocalParent_kept]
    exact ⟨fun names _ => names, fun names => names dots⟩
  · rw [f.cd_other newDir dots]
    exact iff_of_true ⟨rfl, rfl, rfl⟩ fun no => absurd no dots

/- "/a/b". -/
def sample : Receiver := { url := rooted [[0x61], [0x62]], path := rooted [[0x61], [0x62]] }

/-- "..x" in "/a/b" moves the receiver to "/a/x", whether that exists or not. -/
theorem cd_receiver_moved :
    (sample.cd (dotdot ++ [0x78])).1.path = rooted [[0x61], [0x78]] ∧
      (sample.cd (dotdot ++ [0x78])).1.url = rooted [[0x61], [0x78]] ∧
      (sample.cd (dotdot ++ [0x78])).2 = .file (rooted [[0x61], [0x78]]) false ∧
      ¬ ∀ (f : Receiver) (newDir : Str), (f.cd newDir).1.url = f.url ∧ (f.cd newDir).1.path = f.path ∧
        (f.cd newDir).1.pathInStream = f.pathInStream := by
  have path : (sample.cd (dotdot ++ [0x78])).1.path = rooted [[0x61], [0x78]] := by decide
  refine ⟨path, by decide, by decide +kernel, fun all => ?_⟩
  have kept := (all sample (dotdot ++ [0x78])).2.1
  rw [path] at kept
  exact absurd kept (by decide)

end Receiver

end Meatloaf
