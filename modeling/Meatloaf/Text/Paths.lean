import Meatloaf.Text.Names

/-! Paths as the url parser and `mstr` take them apart and put them together, for strings
without the characters ':', '?' and '#', which begin no scheme, query or fragment. -/
namespace Meatloaf

def colon : UInt8 := 0x3a

/-- `mstr::split`; the number is what is left of the limit. -/
def split (ch : UInt8) : Nat → Str → List Str
  | 0, toSplit => [toSplit]
  | limit + 1, toSplit =>
    if ch ∈ toSplit then
      toSplit.takeWhile (· ≠ ch) :: split ch limit (toSplit.drop ((toSplit.takeWhile (· ≠ ch)).length + 1))
    else [toSplit]

/-- `mstr::split(path, '/')` with its default limit of 9999 pieces. -/
def splitPath (path : Str) : List Str := split slash 9998 path

/-- `mstr::joinToString` over a range of pieces: the last separator is erased, unless it is
all there is. -/
def joinToString (pieces : List Str) : Str :=
  let res := pieces.flatMap (· ++ [slash])
  if 1 < res.length then res.dropLast else res

def dot : Str := [0x2e]
def dotdot : Str := [0x2e, 0x2e]

/- A component goes on the stack of `util_get_canonical_path`. -/
def pushComponent (st : List Str) (dir : Str) : List Str :=
  if dir = dotdot then st.dropLast else if dir = dot then st else st ++ [dir]

/- The components that stay. -/
def canonical (dirs : List Str) : List Str := dirs.foldl pushComponent []

def util_get_canonical_path (path : Str) : Str :=
  let res := (if path.head? = some slash then [slash] else []) ++
    [slash].intercalate (canonical (splitPathComponents path))
  if res ≠ [] ∧ res.getLast? ≠ some slash ∧ path.getLast? = some slash then res ++ [slash] else res

/-- The `url` after `resetURL`: cleaned, rooted, cleaned. -/
def resetURL (u : Str) : Str :=
  let path := util_get_canonical_path u
  util_get_canonical_path (if path.head? = some slash then path else slash :: path)

/-- The `name` after `resetURL`: the last piece. -/
def urlName (u : Str) : Str := (splitPath u).getLastD []

/-- `pathToFile`. -/
def pathToFile (url name : Str) : Str := url.take (url.length - name.length)

/- Pieces joined with slashes, below the root. -/
def rooted (pieces : List Str) : Str := slash :: [slash].intercalate pieces

/-- A piece of a path: components with one slash between them. -/
def Tidy (piece : Str) : Prop := piece ≠ [] ∧ [slash].intercalate (splitPathComponents piece) = piece

/- No component that means another directory. -/
def Dotless (dirs : List Str) : Prop := ∀ dir ∈ dirs, dir ≠ dot ∧ dir ≠ dotdot

instance (dirs : List Str) : Decidable (Dotless dirs) :=
  inferInstanceAs (Decidable (∀ dir ∈ dirs, dir ≠ dot ∧ dir ≠ dotdot))

theorem intercalate_cons_cons (a b : Str) (pieces : List Str) :
    [slash].intercalate (a :: b :: pieces) = a ++ slash :: [slash].intercalate (b :: pieces) := by
  simp [List.intercalate, List.intersperse]

theorem components_intercalate (pieces : List Str) :
    splitPathComponents ([slash].intercalate pieces) = pieces.flatMap splitPathComponents := by
  induction pieces with
  | nil => rfl
  | cons a pieces ih =>
    cases pieces with
    | nil => simp [List.intercalate]
    | cons b pieces => rw [intercalate_cons_cons, splitPathComponents_append, ih, List.flatMap_cons (x := a)]

theorem components_rooted (pieces : List Str) :
    splitPathComponents (rooted pieces) = pieces.flatMap splitPathComponents := components_intercalate pieces

theorem Tidy.of_plain {piece : Str} (nonempty : piece ≠ []) (plain : slash ∉ piece) : Tidy piece := by
  refine ⟨nonempty, ?_⟩
  rw [splitPathComponents_plain piece plain nonempty]
  simp [List.intercalate]

theorem components_plain {pieces : List Str} (nonempty : ∀ p ∈ pieces, p ≠ []) (plain : ∀ p ∈ pieces, slash ∉ p) :
    pieces.flatMap splitPathComponents = pieces := by
  rw [← components_intercalate]
  exact splitPathComponents_intercalate pieces plain nonempty

theorem Tidy.components_ne_nil {piece : Str} (tidy : Tidy piece) : splitPathComponents piece ≠ [] := by
  intro none
  have whole := tidy.2
  rw [none] at whole
  exact tidy.1 whole.symm

theorem intercalate_append {as bs : List Str} (front : as ≠ []) (back : bs ≠ []) :
    [slash].intercalate (as ++ bs) = [slash].intercalate as ++ slash :: [slash].intercalate bs := by
  induction as with
  | nil => exact absurd rfl front
  | cons a as ih =>
    cases as with
    | nil =>
      cases bs with
      | nil => exact absurd rfl back
      | cons b bs =>
        rw [List.singleton_append, intercalate_cons_cons]
        simp [List.intercalate]
    | cons a' as =>
      rw [List.cons_append, List.cons_append, intercalate_cons_cons, intercalate_cons_cons, List.append_assoc,
        List.cons_append, ← List.cons_append, ih (by simp)]

/- Tidy pieces joined are the components joined. -/
theorem intercalate_components {pieces : List Str} (tidy : ∀ p ∈ pieces, Tidy p) :
    [slash].intercalate (pieces.flatMap splitPathComponents) = [slash].intercalate pieces := by
  induction pieces with
  | nil => rfl
  | cons a pieces ih =>
    have head := tidy a List.mem_cons_self
    have tail := ih fun p member => tidy p (List.mem_cons_of_mem a member)
    cases pieces with
    | nil => simpa [List.intercalate] using head.2
    | cons b pieces =>
      have next := (tidy b (by simp)).components_ne_nil
      rw [List.flatMap_cons, intercalate_append head.components_ne_nil (by simp [next]), head.2, tail,
        intercalate_cons_cons]

theorem rooted_components {pieces : List Str} (tidy : ∀ p ∈ pieces, Tidy p) :
    rooted (pieces.flatMap splitPathComponents) = rooted pieces := congrArg (slash :: ·) (intercalate_components tidy)

/-- A path is known by its components. -/
theorem rooted_inj {pieces pieces' : List Str} (same : rooted pieces = rooted pieces') :
    pieces.flatMap splitPathComponents = pieces'.flatMap splitPathComponents := by
  rw [← components_rooted, ← components_rooted, same]

theorem rooted_snoc (pieces : List Str) (p : Str) :
    rooted (pieces ++ [p]) = (if pieces = [] then [slash] else rooted pieces ++ [slash]) ++ p := by
  cases pieces with
  | nil => simp [rooted, List.intercalate]
  | cons a pieces =>
    rw [if_neg (List.cons_ne_nil a pieces)]
    induction pieces generalizing a with
    | nil => simp [rooted, List.intercalate]
    | cons b pieces ih =>
      have tail := congrArg List.tail (ih b)
      simp only [rooted, List.cons_append, List.tail_cons] at tail ⊢
      rw [intercalate_cons_cons, intercalate_cons_cons, tail]
      simp

theorem mem_rooted (pieces : List Str) (c : UInt8) : c ∈ rooted pieces ↔ c = slash ∨ ∃ p ∈ pieces, c ∈ p := by
  induction pieces with
  | nil => simp [rooted, List.intercalate]
  | cons a pieces ih =>
    cases pieces with
    | nil => simp [rooted, List.intercalate]
    | cons b pieces =>
      simp only [rooted, intercalate_cons_cons, List.mem_cons, List.mem_append, exists_eq_or_imp] at ih ⊢
      rw [ih]
      tauto

theorem rooted_length (pieces : List Str) : pieces.length ≤ (rooted pieces).length := by
  induction pieces with
  | nil => exact Nat.zero_le _
  | cons a pieces ih =>
    cases pieces with
    | nil => exact Nat.succ_le_succ (Nat.zero_le _)
    | cons b pieces =>
      simp only [rooted, intercalate_cons_cons, List.length_cons, List.length_append] at ih ⊢
      omega

/- The stack of `util_get_canonical_path` -/

theorem foldl_push_dotless {dirs : List Str} (dotless : Dotless dirs) (st : List Str) :
    dirs.foldl pushComponent st = st ++ dirs := by
  induction dirs generalizing st with
  | nil => rw [List.foldl_nil, List.append_nil]
  | cons dir dirs ih =>
    obtain ⟨here, up⟩ := dotless dir List.mem_cons_self
    have push : pushComponent st dir = st ++ [dir] := by
      rw [pushComponent, if_neg up, if_neg here]
    rw [List.foldl_cons, push, ih fun d member => dotless d (List.mem_cons_of_mem dir member), List.append_assoc,
      List.singleton_append]

/- A component that stays. -/
def stays (dir : Str) : Bool := dir != dot && dir != dotdot

theorem pushComponent_length (st : List Str) (dir : Str) :
    (pushComponent st dir).length ≤ st.length + if stays dir = true then 1 else 0 := by
  unfold pushComponent
  split
  · rw [List.length_dropLast]
    omega
  · split
    · exact Nat.le_add_right _ _
    · rename_i up here
      have kept : stays dir = true := by simp [stays, up, here]
      rw [if_pos kept, List.length_append]
      exact Nat.le_refl _

theorem foldl_push_length (dirs st : List Str) :
    (dirs.foldl pushComponent st).length ≤ st.length + dirs.countP stays := by
  induction dirs generalizing st with
  | nil => exact Nat.le_refl _
  | cons dir dirs ih =>
    have first := pushComponent_length st dir
    have rest := ih (pushComponent st dir)
    rw [List.foldl_cons, List.countP_cons]
    omega

/-- Nothing is dropped exactly where no component is a dot or two. -/
theorem canonical_eq_iff (dirs : List Str) : canonical dirs = dirs ↔ Dotless dirs := by
  constructor
  · intro same dir member
    have short := foldl_push_length dirs []
    rw [show dirs.foldl pushComponent [] = dirs from same, List.length_nil, Nat.zero_add] at short
    have all := List.countP_eq_length.mp (Nat.le_antisymm List.countP_le_length short) dir member
    simpa [stays] using all
  · intro dotless
    exact foldl_push_dotless dotless []

/- What is on the stack came from the path, and is no dot. -/
theorem foldl_push_mem {dirs st : List Str} {dir : Str} (member : dir ∈ dirs.foldl pushComponent st) :
    dir ∈ st ∨ (dir ∈ dirs ∧ dir ≠ dot ∧ dir ≠ dotdot) := by
  induction dirs generalizing st with
  | nil => exact .inl member
  | cons d dirs ih =>
    rcases ih member with below | ⟨above, rest⟩
    · unfold pushComponent at below
      split at below
      · exact .inl ((List.dropLast_sublist st).subset below)
      · split at below
        · exact .inl below
        · rename_i up here
          rcases List.mem_append.mp below with old | new
          · exact .inl old
          · rw [List.mem_singleton.mp new]
            exact .inr ⟨List.mem_cons_self, here, up⟩
    · exact .inr ⟨List.mem_cons_of_mem d above, rest⟩

theorem canonical_mem {dirs : List Str} {dir : Str} (member : dir ∈ canonical dirs) :
    dir ∈ dirs ∧ dir ≠ dot ∧ dir ≠ dotdot := (foldl_push_mem member).resolve_left (by simp)

theorem canonical_dotless (dirs : List Str) : Dotless (canonical dirs) := fun _ member => (canonical_mem member).2

/- What the url parser makes of a path -/

theorem canonical_path_head {path : Str} (root : path.head? = some slash) :
    ∃ rest, util_get_canonical_path path = slash :: rest := by
  unfold util_get_canonical_path
  rw [if_pos root]
  dsimp only
  split
  · exact ⟨_, rfl⟩
  · exact ⟨_, rfl⟩

/-- A url is always absolute. -/
theorem resetURL_head (u : Str) : ∃ rest, resetURL u = slash :: rest := by
  unfold resetURL
  apply canonical_path_head
  split
  · rename_i root
    exact root
  · rfl

/- A component as the parser finds it. -/
def Component (dir : Str) : Prop := dir ≠ [] ∧ slash ∉ dir

instance (dir : Str) : Decidable (Component dir) := inferInstanceAs (Decidable (dir ≠ [] ∧ slash ∉ dir))

theorem components_component (path : Str) : ∀ dir ∈ splitPathComponents path, Component dir := fun dir member =>
  ⟨splitPathComponents_ne_nil path dir member, splitPieces_clean path [] (by simp) dir member⟩

theorem components_clean {dirs : List Str} (clean : ∀ d ∈ dirs, Component d) :
    dirs.flatMap splitPathComponents = dirs :=
  components_plain (fun d member => (clean d member).1) fun d member => (clean d member).2

/- Joined components end in no slash. -/
theorem getLast_intercalate {dirs : List Str} (clean : ∀ d ∈ dirs, Component d) :
    ([slash].intercalate dirs).getLast? ≠ some slash := by
  induction dirs with
  | nil => simp [List.intercalate]
  | cons a dirs ih =>
    have rest := ih fun d member => clean d (List.mem_cons_of_mem a member)
    cases dirs with
    | nil =>
      intro last
      rw [show [slash].intercalate [a] = a by simp [List.intercalate]] at last
      exact (clean a List.mem_cons_self).2 (List.mem_of_getLast? last)
    | cons b dirs =>
      rw [intercalate_cons_cons, List.getLast?_append_cons, List.getLast?_cons]
      cases tail : ([slash].intercalate (b :: dirs)).getLast? with
      | none =>
        have parts := components_intercalate (b :: dirs)
        rw [List.getLast?_eq_none_iff.mp tail,
          components_clean fun d member => clean d (List.mem_cons_of_mem a member)] at parts
        cases parts
      | some c =>
        rw [tail] at rest
        simpa using rest

theorem Tidy.getLast {p : Str} (tidy : Tidy p) : p.getLast? ≠ some slash := by
  rw [← tidy.2]
  exact getLast_intercalate (components_component p)

theorem Tidy.head {p : Str} (tidy : Tidy p) : p.head? ≠ some slash := by
  have whole := tidy.2
  cases parts : splitPathComponents p with
  | nil => exact absurd parts tidy.components_ne_nil
  | cons a dirs =>
    obtain ⟨nonempty, plain⟩ := components_component p a (parts ▸ List.mem_cons_self)
    rw [← whole, parts]
    cases a with
    | nil => exact absurd rfl nonempty
    | cons c a =>
      have first : ([slash].intercalate ((c :: a) :: dirs)).head? = some c := by
        cases dirs with
        | nil => simp [List.intercalate]
        | cons b dirs => rw [intercalate_cons_cons]; rfl
      intro begins
      rw [first, Option.some.injEq] at begins
      exact plain (begins ▸ List.mem_cons_self)

theorem Tidy.intercalate {pieces : List Str} (tidy : ∀ p ∈ pieces, Tidy p) (some : pieces ≠ []) :
    Tidy ([slash].intercalate pieces) := by
  have parts := components_intercalate pieces
  constructor
  · intro none
    rw [none] at parts
    obtain ⟨p, member⟩ := List.exists_mem_of_ne_nil pieces some
    have empty := List.flatMap_eq_nil_iff.mp parts.symm p member
    exact (tidy p member).components_ne_nil empty
  · rw [parts, intercalate_components tidy]

/- The pieces behind a path may be given as one. -/
theorem rooted_join {pieces after : List Str} (tidy : ∀ p ∈ pieces, Tidy p) (behind : ∀ p ∈ after, Tidy p)
    (some : after ≠ []) : rooted (pieces ++ [[slash].intercalate after]) = rooted (pieces ++ after) := by
  have one : ∀ p ∈ pieces ++ [[slash].intercalate after], Tidy p := by
    intro p member
    rcases List.mem_append.mp member with front | last
    · exact tidy p front
    · rw [List.mem_singleton.mp last]
      exact Tidy.intercalate behind some
  have all : ∀ p ∈ pieces ++ after, Tidy p := fun p member =>
    (List.mem_append.mp member).elim (tidy p) (behind p)
  rw [← rooted_components one, ← rooted_components all, List.flatMap_append, List.flatMap_append,
    List.flatMap_singleton, components_intercalate]

theorem rooted_getLast {pieces : List Str} (tidy : ∀ p ∈ pieces, Tidy p) (more : pieces ≠ []) :
    (rooted pieces).getLast? ≠ some slash := by
  have whole := Tidy.intercalate tidy more
  rw [rooted, List.getLast?_cons]
  cases tail : ([slash].intercalate pieces).getLast? with
  | none => exact absurd (List.getLast?_eq_none_iff.mp tail) whole.1
  | some c =>
    have last := whole.getLast
    rw [tail] at last
    simpa using last

theorem rooted_open {dirs : List Str} (clean : ∀ d ∈ dirs, Component d) (more : dirs ≠ []) :
    (rooted dirs).getLast? ≠ some slash :=
  rooted_getLast (fun d member => Tidy.of_plain (clean d member).1 (clean d member).2) more

/- An absolute path that ends in no slash. -/
theorem canonical_path_open {path : Str} (root : path.head? = some slash) (open_ : path.getLast? ≠ some slash) :
    util_get_canonical_path path = rooted (canonical (splitPathComponents path)) := by
  unfold util_get_canonical_path
  dsimp only
  rw [if_pos root, if_neg fun ends => open_ ends.2.2]
  rfl

theorem canonical_path_rooted {dirs : List Str} (clean : ∀ d ∈ dirs, Component d) :
    util_get_canonical_path (rooted dirs) = rooted (canonical dirs) := by
  cases dirs with
  | nil => rfl
  | cons a dirs =>
    have components := (components_rooted (a :: dirs)).trans (components_clean clean)
    rw [canonical_path_open rfl, components]
    rw [rooted, List.getLast?_cons]
    cases tail : ([slash].intercalate (a :: dirs)).getLast? with
    | none =>
      have parts := components_intercalate (a :: dirs)
      rw [List.getLast?_eq_none_iff.mp tail, components_clean clean] at parts
      cases parts
    | some c =>
      intro last
      exact getLast_intercalate clean (tail.trans (by simpa using last))

theorem resetURL_of {path : Str} {dirs : List Str} (clean : ∀ d ∈ dirs, Component d)
    (path' : util_get_canonical_path path = rooted (canonical dirs)) : resetURL path = rooted (canonical dirs) := by
  have kept : ∀ d ∈ canonical dirs, Component d := fun d member => clean d (canonical_mem member).1
  unfold resetURL
  dsimp only
  rw [path', if_pos (show (rooted (canonical dirs)).head? = some slash from rfl), canonical_path_rooted kept,
    (canonical_eq_iff (canonical dirs)).mpr (canonical_dotless dirs)]

/-- The url of a path below the root. -/
theorem resetURL_rooted {dirs : List Str} (clean : ∀ d ∈ dirs, Component d) :
    resetURL (rooted dirs) = rooted (canonical dirs) := resetURL_of clean (canonical_path_rooted clean)

theorem resetURL_open {path : Str} (root : path.head? = some slash) (open_ : path.getLast? ≠ some slash) :
    resetURL path = rooted (canonical (splitPathComponents path)) :=
  resetURL_of (components_component path) (canonical_path_open root open_)

/-- A url never goes through another directory. -/
theorem resetURL_dotless (u : Str) : Dotless (splitPathComponents (resetURL u)) := by
  have path : ∀ s : Str, splitPathComponents (util_get_canonical_path s) = canonical (splitPathComponents s) := by
    intro s
    have parts : splitPathComponents ([slash].intercalate (canonical (splitPathComponents s))) =
        canonical (splitPathComponents s) := by
      rw [components_intercalate]
      exact components_clean fun d member => components_component s d (canonical_mem member).1
    have top : splitPathComponents ((if s.head? = some slash then [slash] else []) ++
        [slash].intercalate (canonical (splitPathComponents s))) = canonical (splitPathComponents s) := by
      split
      · exact parts
      · exact parts
    unfold util_get_canonical_path
    dsimp only
    generalize (if s.head? = some slash then [slash] else []) ++
      [slash].intercalate (canonical (splitPathComponents s)) = res at top ⊢
    split
    · rw [splitPathComponents_append res [], top, splitPathComponents_nil, List.append_nil]
    · exact top
  unfold resetURL
  dsimp only
  rw [path]
  exact canonical_dotless _

/-- The url of a tidy path, and when it is the path. -/
theorem resetURL_tidy {pieces : List Str} (tidy : ∀ p ∈ pieces, Tidy p) :
    resetURL (rooted pieces) = rooted (canonical (pieces.flatMap splitPathComponents)) := by
  have clean : ∀ d ∈ pieces.flatMap splitPathComponents, Component d := by
    intro d member
    obtain ⟨p, -, inside⟩ := List.mem_flatMap.mp member
    exact components_component p d inside
  rw [← rooted_components tidy, resetURL_rooted clean]

/- Cutting a path at its slashes -/

theorem split_first {ch : UInt8} (n : Nat) (piece s : Str) (plain : ch ∉ piece) :
    split ch (n + 1) (piece ++ ch :: s) = piece :: split ch n s := by
  have taken : (piece ++ ch :: s).takeWhile (· ≠ ch) = piece := by
    rw [List.takeWhile_append_of_pos fun c member => by
      simpa using fun same : c = ch => plain (same ▸ member)]
    simp
  rw [split, if_pos (by simp), taken]
  simp

theorem split_whole {ch : UInt8} (n : Nat) {s : Str} (plain : ch ∉ s) : split ch n s = [s] := by
  cases n with
  | zero => rfl
  | succ n => rw [split, if_neg plain]

theorem split_slash (n : Nat) (s : Str) : split slash (n + 1) (slash :: s) = [] :: split slash n s :=
  split_first n [] s List.not_mem_nil

theorem split_piece (n : Nat) (piece s : Str) (plain : slash ∉ piece) :
    split slash (n + 1) (piece ++ slash :: s) = piece :: split slash n s := split_first n piece s plain

/- Pieces without slashes that are not too many come back as they were. -/
theorem split_intercalate {pieces : List Str} (plain : ∀ p ∈ pieces, slash ∉ p) (some : pieces ≠ []) {n : Nat}
    (few : pieces.length ≤ n + 1) : split slash n ([slash].intercalate pieces) = pieces := by
  induction pieces generalizing n with
  | nil => exact absurd rfl some
  | cons a pieces ih =>
    have head := plain a List.mem_cons_self
    cases pieces with
    | nil =>
      rw [show [slash].intercalate [a] = a by simp [List.intercalate]]
      cases n with
      | zero => rfl
      | succ n => rw [split, if_neg head]
    | cons b pieces =>
      obtain ⟨m, rfl⟩ : ∃ m, n = m + 1 := ⟨n - 1, by simp at few; omega⟩
      rw [intercalate_cons_cons, split_piece m a _ head,
        ih (fun p member => plain p (List.mem_cons_of_mem a member)) (by simp) (by simpa using few)]

/-- However many components there are, the pieces are tidy, and only the last one may hold
a slash. -/
theorem split_tidy {dirs : List Str} (clean : ∀ d ∈ dirs, Component d) (some : dirs ≠ []) (n : Nat) :
    [slash].intercalate (split slash n ([slash].intercalate dirs)) = [slash].intercalate dirs ∧
    (∀ p ∈ split slash n ([slash].intercalate dirs), Tidy p) ∧
    (∀ p ∈ (split slash n ([slash].intercalate dirs)).dropLast, slash ∉ p) ∧
    split slash n ([slash].intercalate dirs) ≠ [] ∧
    (split slash n ([slash].intercalate dirs)).length ≤ n + 1 := by
  induction n generalizing dirs with
  | zero =>
    have whole : Tidy ([slash].intercalate dirs) := by
      have parts := components_intercalate dirs
      rw [components_clean clean] at parts
      refine ⟨fun none => ?_, by rw [parts]⟩
      rw [none] at parts
      exact some parts.symm
    refine ⟨by simp [split, List.intercalate], fun p member => ?_, by simp [split], by simp [split], by simp [split]⟩
    rw [show p = [slash].intercalate dirs by simpa [split] using member]
    exact whole
  | succ n ih =>
    cases dirs with
    | nil => exact absurd rfl some
    | cons a dirs =>
      obtain ⟨nonempty, plain⟩ := clean a List.mem_cons_self
      have tidy := Tidy.of_plain nonempty plain
      cases dirs with
      | nil =>
        rw [show [slash].intercalate [a] = a by simp [List.intercalate], split, if_neg plain]
        exact ⟨by simp [List.intercalate], fun p member => List.mem_singleton.mp member ▸ tidy, by simp, by simp,
          by simp⟩
      | cons b dirs =>
        obtain ⟨join, all, inner, more, few⟩ :=
          @ih (b :: dirs) (fun d member => clean d (List.mem_cons_of_mem a member)) (by simp)
        rw [intercalate_cons_cons, split_piece n a _ plain]
        generalize split slash n ([slash].intercalate (b :: dirs)) = pieces at join all inner more few ⊢
        cases pieces with
        | nil => exact absurd rfl more
        | cons p pieces =>
          refine ⟨by rw [intercalate_cons_cons, join], ?_, ?_, by simp, by simpa using few⟩
          · intro q member
            rcases List.mem_cons.mp member with rfl | rest
            · exact tidy
            · exact all q rest
          · intro q member
            rw [List.dropLast_cons_cons] at member
            rcases List.mem_cons.mp member with rfl | rest
            · exact plain
            · exact inner q rest

theorem flatMap_slash (a : Str) (pieces : List Str) :
    (a :: pieces).flatMap (· ++ [slash]) = [slash].intercalate (a :: pieces) ++ [slash] := by
  induction pieces generalizing a with
  | nil => simp [List.intercalate]
  | cons b pieces ih => rw [List.flatMap_cons, ih, intercalate_cons_cons, List.append_assoc]; simp

/-- `joinToString` puts a slash between pieces. -/
theorem joinToString_pieces {pieces : List Str} (nonempty : ∀ p ∈ pieces, p ≠ []) :
    joinToString pieces = [slash].intercalate pieces := by
  cases pieces with
  | nil => rfl
  | cons a pieces =>
    have some : 0 < ([slash].intercalate (a :: pieces)).length := by
      have first := List.length_pos_iff.mpr (nonempty a List.mem_cons_self)
      cases pieces with
      | nil => simpa [List.intercalate] using first
      | cons b pieces =>
        rw [intercalate_cons_cons, List.length_append]
        omega
    unfold joinToString
    dsimp only
    rw [flatMap_slash, if_pos (by rw [List.length_append, List.length_singleton]; omega), List.dropLast_concat]

theorem joinToString_rooted (pieces : List Str) : joinToString ([] :: pieces) = rooted pieces := by
  unfold joinToString
  dsimp only
  rw [List.flatMap_cons]
  cases pieces with
  | nil => rfl
  | cons a pieces =>
    have cut : [] ++ [slash] ++ (a :: pieces).flatMap (· ++ [slash]) = rooted (a :: pieces) ++ [slash] := by
      rw [flatMap_slash]
      rfl
    rw [cut, if_pos (by simp [rooted]), List.dropLast_concat]

end Meatloaf
