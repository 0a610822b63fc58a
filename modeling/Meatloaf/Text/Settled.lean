import Mathlib.Algebra.BigOperators.Group.List.Basic
import Mathlib.Data.List.Chain
import Mathlib.Data.List.DropRight
import Meatloaf.Text.Url

/-! The path of a url, from what is behind the host to the field. A colon goes, the rest is made canonical
twice, and the name was taken before. -/
namespace Meatloaf

/- Two slashes do not follow each other. -/
def SingleSlashed (s : Str) : Prop := s.IsChain fun a b => ¬ (a = slash ∧ b = slash)

theorem SingleSlashed.append {a b : Str} (first : SingleSlashed a) (second : SingleSlashed b)
    (between : ¬ (a.getLast? = some slash ∧ b.head? = some slash)) : SingleSlashed (a ++ b) := by
  refine List.isChain_append.mpr ⟨first, second, ?_⟩
  rintro x last y head ⟨rfl, rfl⟩
  exact between ⟨last, head⟩

theorem singleSlashed_plain {s : Str} (plain : slash ∉ s) : SingleSlashed s := by
  induction s with
  | nil => exact List.isChain_nil
  | cons a s ih =>
    rw [List.mem_cons, not_or] at plain
    have whole : a :: s = [a] ++ s := rfl
    rw [whole]
    refine SingleSlashed.append (List.isChain_singleton a) (ih plain.2) ?_
    rintro ⟨last, -⟩
    exact plain.1 (Option.some.inj last).symm

theorem SingleSlashed.findProtocol {s : Str} (single : SingleSlashed s) : findProtocol s = none := by
  induction s with
  | nil => rfl
  | cons c s ih =>
    have rest : SingleSlashed s := single.tail
    have other : ¬ [colon, slash, slash].isPrefixOf (c :: s) = true := by
      rw [List.isPrefixOf_iff_prefix]
      rintro ⟨t, same⟩
      rw [List.cons_append, List.cons_append, List.cons_append, List.cons.injEq] at same
      rw [← same.2] at rest
      exact (List.isChain_cons_cons.mp rest).1 ⟨rfl, rfl⟩
    rw [Meatloaf.findProtocol, if_neg other, ih rest]
    rfl

/- What has no colon in front, and no slash behind, has no protocol. -/
theorem findProtocol_append {a b : Str} (front : colon ∉ a) (back : slash ∉ b) : findProtocol (a ++ b) = none := by
  induction a with
  | nil => exact (singleSlashed_plain back).findProtocol
  | cons c a ih =>
    rw [List.mem_cons, not_or] at front
    have other : ¬ [colon, slash, slash].isPrefixOf (c :: (a ++ b)) = true := by
      rw [List.isPrefixOf_iff_prefix]
      rintro ⟨t, same⟩
      exact front.1 (List.cons_eq_cons.mp same).1
    rw [List.cons_append, findProtocol, if_neg other, ih front.2]
    rfl

theorem rooted_singleton (a : Str) : rooted [a] = slash :: a := by
  simp [rooted, List.intercalate]

theorem rooted_cons (a : Str) {dirs : List Str} (more : dirs ≠ []) : rooted (a :: dirs) = slash :: a ++ rooted dirs := by
  cases dirs with
  | nil => exact absurd rfl more
  | cons b dirs => simp [rooted]

theorem rooted_single {dirs : List Str} (clean : ∀ d ∈ dirs, Component d) : SingleSlashed (rooted dirs) := by
  induction dirs with
  | nil => exact List.isChain_singleton slash
  | cons a dirs ih =>
    obtain ⟨nonempty, plain⟩ := clean a List.mem_cons_self
    have piece : SingleSlashed (slash :: a) := by
      refine SingleSlashed.append (a := [slash]) (List.isChain_singleton slash) (singleSlashed_plain plain) ?_
      exact fun both => plain (List.mem_of_head? both.2)
    by_cases none : dirs = []
    · rw [none, rooted_singleton]
      exact piece
    · rw [rooted_cons a none]
      refine piece.append (ih fun d member => clean d (List.mem_cons_of_mem a member)) fun both => ?_
      rw [List.getLast?_cons_of_ne_nil nonempty] at both
      exact plain (List.mem_of_getLast? both.1)

/-- A path of these components that ends in a slash, or does not. -/
def canonicalForm (dirs : List Str) (ends : Bool) : Str :=
  if dirs ≠ [] ∧ ends = true then rooted dirs ++ [slash] else rooted dirs

variable {dirs : List Str} {ends : Bool}

theorem canonicalForm_head (dirs : List Str) (ends : Bool) : (canonicalForm dirs ends).head? = some slash := by
  unfold canonicalForm
  split <;> rfl

theorem canonicalForm_single (clean : ∀ d ∈ dirs, Component d) : SingleSlashed (canonicalForm dirs ends) := by
  unfold canonicalForm
  split
  · rename_i more
    exact (rooted_single clean).append (List.isChain_singleton slash) fun both => rooted_open clean more.1 both.1
  · exact rooted_single clean

theorem canonicalForm_components (clean : ∀ d ∈ dirs, Component d) :
    splitPathComponents (canonicalForm dirs ends) = dirs := by
  have whole : splitPathComponents (rooted dirs) = dirs := (components_rooted dirs).trans (components_clean clean)
  unfold canonicalForm
  split
  · rw [splitPathComponents_append, whole, splitPathComponents_nil, List.append_nil]
  · exact whole

theorem canonical_component (path : Str) : ∀ d ∈ canonical (splitPathComponents path), Component d :=
  fun d member => components_component path d (canonical_mem member).1

/-- What is put together of the components of a path, below the root, is of that form. -/
theorem canonical_path_form {path : Str} (root : path.head? = some slash) :
    util_get_canonical_path path =
      canonicalForm (canonical (splitPathComponents path)) (path.getLast? == some slash) := by
  have clean := canonical_component path
  unfold util_get_canonical_path
  rw [if_pos root]
  generalize canonical (splitPathComponents path) = dirs at clean ⊢
  have whole : [slash] ++ [slash].intercalate dirs = rooted dirs := rfl
  simp only [whole]
  unfold canonicalForm
  by_cases more : dirs = []
  · rw [more]
    simp [rooted, List.intercalate]
  · have last := rooted_open clean more
    have nonempty : rooted dirs ≠ [] := List.cons_ne_nil _ _
    simp [more, last, nonempty]

/-- `cleanPath`. -/
def cleaned (path : Str) : Str := if path = [] then [] else util_get_canonical_url path

/- A path is below the root. -/
def rootedPath (path : Str) : Str := if path.head? = some slash then path else slash :: path

theorem canonical_url_plain {path : Str} (plain : findProtocol path = none) :
    util_get_canonical_url path = util_get_canonical_path path := by
  rw [util_get_canonical_url, plain]

theorem intercalate_head {dirs : List Str} (clean : ∀ d ∈ dirs, Component d) :
    ([slash].intercalate dirs).head? ≠ some slash := by
  by_cases none : dirs = []
  · rw [none]
    simp [List.intercalate]
  · exact (Tidy.intercalate (fun d member => Tidy.of_plain (clean d member).1 (clean d member).2) none).head

theorem rootedPath_cleaned {path : Str} (plain : findProtocol path = none) :
    rootedPath (cleaned path) = canonicalForm (canonical (splitPathComponents path)) (path.getLast? == some slash) := by
  unfold cleaned
  by_cases empty : path = []
  · rw [if_pos empty, empty]
    rfl
  · rw [if_neg empty, canonical_url_plain plain]
    by_cases root : path.head? = some slash
    · rw [canonical_path_form root, rootedPath, if_pos (canonicalForm_head _ _)]
    · have clean := canonical_component path
      unfold util_get_canonical_path
      rw [if_neg root]
      generalize canonical (splitPathComponents path) = dirs at clean ⊢
      have head := intercalate_head clean
      have last := getLast_intercalate clean
      have whole : slash :: [slash].intercalate dirs = rooted dirs := rfl
      simp only [List.nil_append]
      unfold canonicalForm
      by_cases none : dirs = []
      · simp [none, List.intercalate, rootedPath, rooted]
      · have nonempty : [slash].intercalate dirs ≠ [] :=
          (Tidy.intercalate (fun d member => Tidy.of_plain (clean d member).1 (clean d member).2) none).1
        by_cases open_ : path.getLast? = some slash
        · have head' : ([slash].intercalate dirs ++ [slash]).head? ≠ some slash := by
            rw [List.head?_append_of_ne_nil _ nonempty]
            exact head
          rw [if_pos ⟨nonempty, last, open_⟩, rootedPath, if_neg head', if_pos ⟨none, by simp [open_]⟩]
          rfl
        · rw [if_neg fun all => open_ all.2.2, rootedPath, if_neg head, if_neg fun all => open_ (by simpa using all.2)]
          rfl

/-- Such a path is canonical. -/
theorem cleaned_canonicalForm {dirs : List Str} (clean : ∀ d ∈ dirs, Component d) (dotless : Dotless dirs) (ends : Bool) :
    cleaned (canonicalForm dirs ends) = canonicalForm dirs ends := by
  have nonempty : canonicalForm dirs ends ≠ [] := by
    intro none
    have head := canonicalForm_head dirs ends
    rw [none] at head
    cases head
  rw [cleaned, if_neg nonempty, canonical_url_plain (canonicalForm_single clean).findProtocol,
    canonical_path_form (canonicalForm_head dirs ends), canonicalForm_components clean, (canonical_eq_iff dirs).mpr dotless]
  unfold canonicalForm
  by_cases more : dirs = []
  · simp [more]
  · cases ends with
    | true => simp [more]
    | false =>
      have last := rooted_open clean more
      simp [last]

/-- The path field, from the path without its colon. -/
def settled (path : Str) : Str := cleaned (rootedPath (cleaned path))

theorem settled_eq {path : Str} (plain : findProtocol path = none) :
    settled path = canonicalForm (canonical (splitPathComponents path)) (path.getLast? == some slash) := by
  rw [settled, rootedPath_cleaned plain, cleaned_canonicalForm (canonical_component path) (canonical_dotless _)]

/-- Nothing more happens to it. -/
theorem settled_canonicalForm {dirs : List Str} (clean : ∀ d ∈ dirs, Component d) (dotless : Dotless dirs) (ends : Bool) :
    settled (canonicalForm dirs ends) = canonicalForm dirs ends := by
  rw [settled, cleaned_canonicalForm clean dotless, rootedPath, if_pos (canonicalForm_head dirs ends),
    cleaned_canonicalForm clean dotless]

/- The characters of such a path, and its slashes. -/
theorem mem_canonicalForm {c : UInt8} (other : c ≠ slash) (dirs : List Str) (ends : Bool) :
    c ∈ canonicalForm dirs ends ↔ ∃ d ∈ dirs, c ∈ d := by
  have whole : c ∈ rooted dirs ↔ ∃ d ∈ dirs, c ∈ d := by
    induction dirs with
    | nil => simp [rooted, List.intercalate, other]
    | cons a dirs ih =>
      by_cases none : dirs = []
      · simp [none, rooted_singleton, other]
      · rw [rooted_cons a none, List.mem_append, List.mem_cons, ih]
        simp [other]
  unfold canonicalForm
  split
  · simp [whole, other]
  · exact whole

theorem count_canonicalForm {dirs : List Str} (clean : ∀ d ∈ dirs, Component d) (ends : Bool) :
    (canonicalForm dirs ends).count slash = if dirs = [] then 1 else dirs.length + if ends = true then 1 else 0 := by
  have whole : (rooted dirs).count slash = if dirs = [] then 1 else dirs.length := by
    induction dirs with
    | nil => rfl
    | cons a dirs ih =>
      have plain := List.count_eq_zero.mpr (clean a List.mem_cons_self).2
      by_cases none : dirs = []
      · simp [none, rooted_singleton, plain]
      · rw [rooted_cons a none, List.count_append, List.count_cons_self, plain,
          ih fun d member => clean d (List.mem_cons_of_mem a member), if_neg none, if_neg (List.cons_ne_nil _ _),
          List.length_cons]
        omega
  unfold canonicalForm
  by_cases none : dirs = []
  · simp [none, rooted, List.intercalate]
  · cases ends with
    | true =>
      rw [if_pos ⟨none, rfl⟩, List.count_append, whole]
      simp [none]
    | false =>
      rw [if_neg fun no => Bool.false_ne_true no.2, whole]
      simp [none]

/-! The last piece -/

/-- What is behind the last slash. -/
def afterSlash (path : Str) : Str := path.rtakeWhile (· ≠ slash)

theorem afterSlash_plain {s : Str} (plain : slash ∉ s) : afterSlash s = s := by
  refine List.rtakeWhile_eq_self_iff.mpr fun c member => ?_
  simpa using fun same : c = slash => plain (same ▸ member)

theorem afterSlash_bare (path : Str) : slash ∉ afterSlash path := fun member => by
  simpa using List.mem_rtakeWhile_imp member

theorem afterSlash_append {a b : Str} (plain : slash ∉ b) : afterSlash (a ++ b) = afterSlash a ++ b := by
  induction b using List.reverseRecOn with
  | nil => simp
  | append_singleton b c ih =>
    rw [List.mem_append, not_or, List.mem_singleton] at plain
    rw [← List.append_assoc, afterSlash, List.rtakeWhile_concat_pos _ _ _ (by simpa using Ne.symm plain.2)]
    rw [← afterSlash, ih plain.1, List.append_assoc]

theorem afterSlash_slash (a : Str) : afterSlash (a ++ [slash]) = [] :=
  List.rtakeWhile_concat_neg _ _ _ (by simp)

/- No piece is left behind a slash, or in nothing at all. -/
theorem afterSlash_nil_iff {path : Str} : afterSlash path = [] ↔ path = [] ∨ path.getLast? = some slash := by
  rw [afterSlash, List.rtakeWhile_eq_nil_iff]
  by_cases none : path = []
  · simp [none]
  · simp [none, List.getLast?_eq_some_getLast]

/- A path is cut behind its last slash. -/
theorem exists_front (path : Str) : ∃ front, path = front ++ afterSlash path ∧ afterSlash front = [] := by
  refine ⟨path.rdropWhile (· ≠ slash), List.rdropWhile_append_rtakeWhile.symm, afterSlash_nil_iff.mpr ?_⟩
  by_cases none : path.rdropWhile (· ≠ slash) = []
  · exact .inl none
  · have last := List.rdropWhile_last_not (· ≠ slash) path none
    rw [List.getLast?_eq_some_getLast none]
    exact .inr (congrArg some (by simpa using last))

theorem afterSlash_ends (dirs : List Str) : afterSlash (canonicalForm dirs true) = [] := by
  unfold canonicalForm
  by_cases none : dirs = []
  · simp [none, rooted, List.intercalate, afterSlash]
  · rw [if_pos ⟨none, rfl⟩, afterSlash_slash]

theorem afterSlash_open {dirs : List Str} (clean : ∀ d ∈ dirs, Component d) :
    afterSlash (canonicalForm dirs false) = dirs.getLastD [] := by
  have form : canonicalForm dirs false = rooted dirs := if_neg fun no => Bool.false_ne_true no.2
  rw [form]
  rcases List.eq_nil_or_concat dirs with none | ⟨init, d, rfl⟩
  · simp [none, rooted, List.intercalate, afterSlash]
  · have plain := (clean d (by simp)).2
    rw [List.concat_eq_append, rooted_snoc, afterSlash_append plain]
    split
    · simp [afterSlash]
    · rw [afterSlash_slash]
      simp

/- The components of a path whose last piece is not empty. -/
theorem components_last {front last : Str} (bare : slash ∉ last) (more : last ≠ []) (cut : afterSlash front = []) :
    splitPathComponents (front ++ last) = splitPathComponents front ++ [last] := by
  rcases afterSlash_nil_iff.mp cut with rfl | ends
  · rw [List.nil_append, splitPathComponents_plain last bare more, splitPathComponents_nil, List.nil_append]
  · obtain ⟨f, rfl⟩ := List.getLast?_eq_some_iff.mp ends
    rw [List.append_assoc, List.singleton_append, splitPathComponents_append, splitPathComponents_append,
      splitPathComponents_plain last bare more, splitPathComponents_nil, List.append_nil]

theorem canonical_snoc (dirs : List Str) (d : Str) : canonical (dirs ++ [d]) = pushComponent (canonical dirs) d := by
  rw [canonical, List.foldl_append]
  rfl

/-- What is behind the last slash of the path field, for a path with these last pieces. -/
theorem afterSlash_settled {front last : Str} (plain : findProtocol (front ++ last) = none) (bare : slash ∉ last)
    (cut : afterSlash front = []) : afterSlash (settled (front ++ last)) =
      if last = [] then [] else (pushComponent (canonical (splitPathComponents front)) last).getLastD [] := by
  rw [settled_eq plain]
  by_cases none : last = []
  · rw [if_pos none, none, List.append_nil]
    rcases afterSlash_nil_iff.mp cut with rfl | ends
    · rfl
    · rw [ends]
      exact afterSlash_ends _
  · have open_ : (front ++ last).getLast? ≠ some slash := by
      rw [List.getLast?_append_of_ne_nil _ none]
      exact fun ends => bare (List.mem_of_getLast? ends)
    have ends : ((front ++ last).getLast? == some slash) = false := by simpa using open_
    rw [if_neg none, ends, afterSlash_open (canonical_component _), components_last bare none cut, canonical_snoc]

/- The last component that stays is no dot, and there is one if any stays. -/
theorem getLastD_dotless {dirs : List Str} (dotless : Dotless dirs) :
    dirs.getLastD [] ≠ dot ∧ dirs.getLastD [] ≠ dotdot := by
  rcases List.eq_nil_or_concat dirs with none | ⟨init, d, rfl⟩
  · rw [none]
    exact ⟨by decide, by decide⟩
  · simpa using dotless d (by simp)

theorem getLastD_nil_iff {dirs : List Str} (clean : ∀ d ∈ dirs, Component d) : dirs.getLastD [] = [] ↔ dirs = [] := by
  rcases List.eq_nil_or_concat dirs with none | ⟨init, d, rfl⟩
  · simp [none]
  · simpa using (clean d (by simp)).1

/-- A name that was taken is what is behind the last slash in the end, if and only if it was that before, and
is no dot, or if it is nothing and all of the path goes with the dots in front of it. -/
theorem name_eq_iff {front name : Str} (plain : findProtocol (front ++ name) = none) (bare : slash ∉ name) :
    name = afterSlash (settled (front ++ name)) ↔
      (afterSlash front = [] ∧ name ≠ dot ∧ name ≠ dotdot) ∨
        (name = [] ∧ (afterSlash front = dot ∨ afterSlash front = dotdot) ∧ canonical (splitPathComponents front) = []) := by
  obtain ⟨before, whole, cut⟩ := exists_front front
  have bare' : slash ∉ afterSlash front ++ name := fun member =>
    (List.mem_append.mp member).elim (afterSlash_bare front) bare
  have split : front ++ name = before ++ (afterSlash front ++ name) := by rw [← List.append_assoc, ← whole]
  have settled_ := afterSlash_settled (split ▸ plain) bare' cut
  have components : splitPathComponents front = splitPathComponents before ++ if afterSlash front = [] then [] else [afterSlash front] := by
    split
    · rename_i none
      rw [none, List.append_nil] at whole
      rw [whole, List.append_nil]
    · rename_i some
      exact (congrArg splitPathComponents whole).trans (components_last (afterSlash_bare front) some cut)
  rw [split, settled_, components]
  have dotless := canonical_dotless (splitPathComponents before)
  have clean := canonical_component before
  generalize afterSlash front = piece
  by_cases none : piece = []
  · subst none
    rw [if_pos rfl, List.nil_append, List.append_nil]
    generalize canonical (splitPathComponents before) = dirs at dotless
    have apart := getLastD_dotless dotless
    have apart' : dirs.dropLast.getLastD [] ≠ dotdot :=
      (getLastD_dotless fun d member => dotless d ((List.dropLast_sublist dirs).subset member)).2
    by_cases empty : name = []
    · rw [empty]
      exact iff_of_true rfl (.inl ⟨rfl, by decide, by decide⟩)
    · rw [if_neg empty, pushComponent]
      split
      · rename_i up
        exact iff_of_false (fun same => apart' (same.symm.trans up)) (by simp [up, dotdot])
      · split
        · rename_i here
          exact iff_of_false (fun same => apart.1 (same.symm.trans here)) (by simp [here, dot])
        · rename_i up here
          exact iff_of_true (by simp) (.inl ⟨rfl, here, up⟩)
  · have more : piece ++ name ≠ [] := by simp [none]
    rw [if_neg more, if_neg none, canonical_snoc]
    generalize canonical (splitPathComponents before) = dirs at dotless clean
    have apart' : dirs.dropLast.getLastD [] ≠ dot :=
      (getLastD_dotless fun d member => dotless d ((List.dropLast_sublist dirs).subset member)).1
    constructor
    · intro same
      right
      obtain ⟨c, piece, rfl⟩ := List.exists_cons_of_ne_nil none
      unfold pushComponent at same
      split at same
      · rename_i up
        -- of two dots the name can only have none
        rw [dotdot, List.cons_append, List.cons.injEq] at up
        cases piece with
        | nil => exact absurd (same.symm.trans up.2) apart'
        | cons c' piece =>
          rw [List.cons_append, List.cons.injEq, List.append_eq_nil_iff] at up
          obtain ⟨rfl, rfl, rfl, rfl⟩ := up
          refine ⟨rfl, .inr rfl, ?_⟩
          rw [pushComponent, if_pos (show [0x2e, 0x2e] = dotdot from rfl)]
          exact (getLastD_nil_iff fun d member => clean d ((List.dropLast_sublist dirs).subset member)).mp same.symm
      · split at same
        · rename_i here
          rw [dot, List.cons_append, List.cons.injEq, List.append_eq_nil_iff] at here
          obtain ⟨rfl, rfl, rfl⟩ := here
          refine ⟨rfl, .inl rfl, ?_⟩
          rw [pushComponent, if_neg (by decide), if_pos (show [0x2e] = dot from rfl)]
          exact (getLastD_nil_iff clean).mp same.symm
        · -- the name would be longer than it is
          have longer := congrArg List.length same
          rw [List.getLastD_concat, List.cons_append, List.length_cons, List.length_append] at longer
          omega
    · rintro (⟨no, -⟩ | ⟨rfl, -, gone⟩)
      · exact absurd no none
      · rw [List.append_nil, gone]
        rfl

/-! Other characters than slashes, of which cleaning a path makes no more -/

section count

variable {c : UInt8} (other : c ≠ slash)
include other

theorem count_pieces (s acc : Str) : ((splitPieces s acc).map (List.count c)).sum = acc.count c + s.count c := by
  induction s generalizing acc with
  | nil =>
    unfold splitPieces
    split
    · rename_i none
      simp [none]
    · simp
  | cons b s ih =>
    unfold splitPieces
    by_cases cut : b = slash
    · rw [if_pos cut, cut, List.count_cons_of_ne (Ne.symm other)]
      split
      · rename_i none
        rw [ih, none]
      · rw [List.map_cons, List.sum_cons, ih, List.count_nil, Nat.zero_add]
    · rw [if_neg cut, ih]
      simp only [List.count_append, List.count_cons, List.count_nil]
      omega

theorem count_intercalate (dirs : List Str) : ([slash].intercalate dirs).count c = (dirs.map (List.count c)).sum := by
  induction dirs with
  | nil => rfl
  | cons a dirs ih =>
    cases dirs with
    | nil => simp [List.intercalate]
    | cons b dirs =>
      rw [intercalate_cons_cons, List.count_append, List.count_cons_of_ne (Ne.symm other), ih]
      simp

omit other in
theorem count_push (st : List Str) (d : Str) :
    ((pushComponent st d).map (List.count c)).sum ≤ (st.map (List.count c)).sum + d.count c := by
  unfold pushComponent
  split
  · rcases List.eq_nil_or_concat st with rfl | ⟨init, last, rfl⟩
    · simp
    · simp
      omega
  · split
    · exact Nat.le_add_right _ _
    · simp

omit other in
theorem count_canonical (dirs st : List Str) :
    ((dirs.foldl pushComponent st).map (List.count c)).sum ≤ (st.map (List.count c)).sum + (dirs.map (List.count c)).sum := by
  induction dirs generalizing st with
  | nil => exact Nat.le_add_right _ _
  | cons d dirs ih =>
    have one := @count_push c st d
    have rest := ih (pushComponent st d)
    rw [List.foldl_cons, List.map_cons, List.sum_cons]
    omega

/- What is put together of the components of a path. -/
theorem count_components (path : Str) : ([slash].intercalate (canonical (splitPathComponents path))).count c ≤ path.count c := by
  have kept := @count_canonical c (splitPathComponents path) []
  have all := count_pieces other path []
  rw [count_intercalate other, canonical]
  simp only [List.map_nil, List.sum_nil, List.count_nil, Nat.zero_add] at kept all
  rw [splitPathComponents] at kept ⊢
  omega

theorem count_cleaned (path : Str) : (cleaned path).count c ≤ path.count c := by
  have none : List.count c [slash] = 0 := List.count_eq_zero.mpr (by simpa using other)
  unfold cleaned util_get_canonical_url util_get_canonical_path
  split
  · exact Nat.zero_le _
  · split
    · have parts := count_components other path
      have front : List.count c (if path.head? = some slash then [slash] else []) = 0 := by split <;> simp [none]
      dsimp only
      generalize (if path.head? = some slash then [slash] else []) = lead at front ⊢
      split
      · rw [List.count_append, List.count_append, front, none]
        omega
      · rw [List.count_append, front]
        omega
    · dsimp only
      generalize ((find slash (path.drop (_ + 3))).map _).getD 0 = k
      have parts := count_components other (path.drop k)
      have whole : (path.take k).count c + (path.drop k).count c = path.count c := by
        rw [← List.count_append, List.take_append_drop]
      split
      · rw [List.count_append, List.count_append, none]
        omega
      · rw [List.count_append]
        omega

theorem count_settled (path : Str) : (settled path).count c ≤ path.count c := by
  have first := count_cleaned other path
  have second := count_cleaned other (rootedPath (cleaned path))
  have front : (rootedPath (cleaned path)).count c = (cleaned path).count c := by
    unfold rootedPath
    split
    · rfl
    · exact List.count_cons_of_ne (Ne.symm other)
  unfold settled
  omega

end count

/-! A path with a piece that ends in an '@', and a canonical path behind it -/

theorem findProtocol_le {s : Str} {k : Nat} (found : findProtocol s = some k) : k + 3 ≤ s.length := by
  induction s generalizing k with
  | nil => cases found
  | cons c s ih =>
    rw [findProtocol] at found
    split at found
    · rename_i here
      have long := (List.isPrefixOf_iff_prefix.mp here).length_le
      cases found
      exact long
    · obtain ⟨k', found', rfl⟩ := Option.map_eq_some_iff.mp found
      have := ih found'
      rw [List.length_cons]
      omega

/- A protocol is in front of the '@'. -/
theorem findProtocol_sign (y : Str) {path : Str} (single : SingleSlashed path) :
    findProtocol (y ++ atSign :: path) = findProtocol y := by
  induction y with
  | nil =>
    have none := single.findProtocol
    have other : ¬ [colon, slash, slash].isPrefixOf (atSign :: path) = true := by
      rw [List.isPrefixOf_iff_prefix]
      rintro ⟨t, same⟩
      exact absurd (List.cons_eq_cons.mp same).1 (by decide)
    have sign : findProtocol (atSign :: path) = Option.none := by
      rw [findProtocol, if_neg other, none]
      rfl
    exact sign
  | cons c y ih =>
    have same : [colon, slash, slash].isPrefixOf (c :: (y ++ atSign :: path)) = [colon, slash, slash].isPrefixOf (c :: y) := by
      have slash_sign : (slash == atSign) = false := by decide
      rcases y with _ | ⟨d, _ | ⟨e, y⟩⟩
      · simp [List.isPrefixOf, slash_sign]
      · simp [List.isPrefixOf, slash_sign]
      · simp [List.isPrefixOf]
    rw [List.cons_append, findProtocol, findProtocol, same, ih]

variable {dirs : List Str} {ends : Bool}

theorem canonicalForm_cons (dirs : List Str) (ends : Bool) :
    ∃ tail, canonicalForm dirs ends = slash :: tail ∧ splitPathComponents (slash :: tail) = splitPathComponents tail := by
  have head := canonicalForm_head dirs ends
  cases form : canonicalForm dirs ends with
  | nil => rw [form] at head; cases head
  | cons c tail =>
    rw [form] at head
    cases head
    exact ⟨tail, rfl, splitPathComponents_slash tail⟩

/- The components that stay: one that ends in the '@', and all of the path. -/
theorem canonical_sign (y : Str) (clean : ∀ d ∈ dirs, Component d) (dotless : Dotless dirs) :
    ∃ before piece, canonical (splitPathComponents (y ++ atSign :: canonicalForm dirs ends)) =
      before ++ (piece ++ [atSign]) :: dirs := by
  obtain ⟨front, whole, cut⟩ := exists_front y
  obtain ⟨tail, form, same⟩ := canonicalForm_cons dirs ends
  have bare : slash ∉ afterSlash y ++ [atSign] := by
    rw [List.mem_append, List.mem_singleton]
    exact fun member => member.elim (afterSlash_bare y) (by decide)
  have apart (d : Str) (plain : atSign ∉ d) : afterSlash y ++ [atSign] ≠ d := fun same => plain (same ▸ by simp)
  have path : y ++ atSign :: canonicalForm dirs ends = (front ++ (afterSlash y ++ [atSign])) ++ slash :: tail := by
    rw [form, ← List.append_assoc front, ← whole, List.append_assoc]
    rfl
  have behind : splitPathComponents tail = dirs := by
    rw [← same, ← form]
    exact canonicalForm_components clean
  refine ⟨canonical (splitPathComponents front), afterSlash y, ?_⟩
  rw [path, splitPathComponents_append, components_last bare (by simp) cut, behind, canonical, List.foldl_append,
    foldl_push_dotless dotless, ← canonical, canonical_snoc, pushComponent, if_neg (apart dotdot (by decide)),
    if_neg (apart dot (by decide)), List.append_assoc]
  rfl

/- They are put together with the '@' in front of the path. -/
theorem intercalate_sign (before : List Str) (piece : Str) (dirs : List Str) :
    ∃ y, [slash].intercalate (before ++ (piece ++ [atSign]) :: dirs) =
      y ++ atSign :: if dirs = [] then [] else rooted dirs := by
  have cut : before ++ (piece ++ [atSign]) :: dirs = (before ++ [piece ++ [atSign]]) ++ dirs := by simp
  have front : ∃ y, [slash].intercalate (before ++ [piece ++ [atSign]]) = y ++ [atSign] := by
    by_cases none : before = []
    · exact ⟨piece, by simp [none, List.intercalate]⟩
    · refine ⟨[slash].intercalate before ++ slash :: piece, ?_⟩
      rw [intercalate_append none (List.cons_ne_nil _ _)]
      simp [List.intercalate]
  obtain ⟨y, y_⟩ := front
  refine ⟨y, ?_⟩
  rw [cut]
  by_cases none : dirs = []
  · rw [if_pos none, none, List.append_nil, y_]
  · rw [if_neg none, intercalate_append (by simp) none, y_, List.append_assoc]
    rfl

theorem getLast_sign (y : Str) {path : Str} (some : path ≠ []) : (y ++ atSign :: path).getLast? = path.getLast? := by
  rw [← List.singleton_append, ← List.append_assoc, List.getLast?_append_of_ne_nil _ some]

/- The end of `util_get_canonical_path`: the slash that the path ended in is there again. -/
theorem closed_sign (y z : Str) (clean : ∀ d ∈ dirs, Component d) {tail : Str}
    (tail_ : tail = (if dirs = [] then [] else rooted dirs) ∨ dirs = [] ∧ tail = [slash]) :
    (if z ++ atSign :: tail ≠ [] ∧ (z ++ atSign :: tail).getLast? ≠ some slash ∧
        (y ++ atSign :: canonicalForm dirs ends).getLast? = some slash then z ++ atSign :: tail ++ [slash]
      else z ++ atSign :: tail) = z ++ atSign :: canonicalForm dirs ends := by
  have last : (y ++ atSign :: canonicalForm dirs ends).getLast? = (canonicalForm dirs ends).getLast? := by
    obtain ⟨tail, form, -⟩ := canonicalForm_cons dirs ends
    rw [form]
    exact getLast_sign y (List.cons_ne_nil _ _)
  rw [last]
  by_cases none : dirs = []
  · have form : canonicalForm dirs ends = [slash] := by simp [none, canonicalForm, rooted, List.intercalate]
    rw [form]
    rcases tail_ with rfl | ⟨-, rfl⟩
    · rw [if_pos none]
      have sign : (z ++ [atSign]).getLast? ≠ some slash := by
        rw [List.getLast?_concat]
        decide
      rw [if_pos ⟨by simp, sign, rfl⟩, List.append_assoc]
      rfl
    · exact if_neg fun all => all.2.1 (by simp)
  · have tail' : tail = rooted dirs := by
      rcases tail_ with same | ⟨empty, -⟩
      · exact same.trans (if_neg none)
      · exact absurd empty none
    have open_ := rooted_open clean none
    have whole : (z ++ atSign :: rooted dirs).getLast? = (rooted dirs).getLast? :=
      getLast_sign z (List.cons_ne_nil _ _)
    rw [tail', whole]
    cases ends with
    | true =>
      have form : canonicalForm dirs true = rooted dirs ++ [slash] := if_pos ⟨none, rfl⟩
      rw [form, List.getLast?_concat, if_pos ⟨by simp, open_, rfl⟩, List.append_assoc]
      rfl
    | false =>
      have form : canonicalForm dirs false = rooted dirs := if_neg fun no => Bool.false_ne_true no.2
      rw [form, if_neg fun all => open_ all.2.2]

theorem cleaned_sign (y : Str) (clean : ∀ d ∈ dirs, Component d) (dotless : Dotless dirs) :
    ∃ z, cleaned (y ++ atSign :: canonicalForm dirs ends) = z ++ atSign :: canonicalForm dirs ends := by
  have nonempty : y ++ atSign :: canonicalForm dirs ends ≠ [] := by simp
  rw [cleaned, if_neg nonempty, util_get_canonical_url, findProtocol_sign y (canonicalForm_single clean)]
  cases found : findProtocol y with
  | none =>
    obtain ⟨before, piece, kept⟩ := @canonical_sign _ ends y clean dotless
    obtain ⟨z, joined⟩ := intercalate_sign before piece dirs
    dsimp only
    unfold util_get_canonical_path
    rw [kept, joined]
    generalize (if (y ++ atSign :: canonicalForm dirs ends).head? = some slash then [slash] else []) = lead
    refine ⟨lead ++ z, ?_⟩
    dsimp only
    rw [← List.append_assoc lead]
    exact closed_sign y (lead ++ z) clean (.inl rfl)
  | some proto =>
    dsimp only
    -- the path behind the host begins in front of the '@', or behind the first slash of the path
    generalize cut : ((find slash ((y ++ atSign :: canonicalForm dirs ends).drop (proto + 3))).map
      (proto + 3 + · + 1)).getD 0 = k
    have parts : k ≤ y.length ∨ k = y.length + 2 := by
      obtain ⟨tail, form, -⟩ := canonicalForm_cons dirs ends
      have inside := findProtocol_le found
      rw [List.drop_append_of_le_length inside, form] at cut
      by_cases there : slash ∈ y.drop (proto + 3)
      · obtain ⟨front, rest, host, plain⟩ := List.eq_append_cons_of_mem there
        have long := congrArg List.length host
        rw [List.length_drop, List.length_append, List.length_cons] at long
        rw [host, List.append_assoc, List.cons_append, find_first plain, Option.map_some, Option.getD_some] at cut
        omega
      · have plain : slash ∉ y.drop (proto + 3) ++ [atSign] := by
          rw [List.mem_append, List.mem_singleton]
          exact fun member => member.elim there (by decide)
        have host : y.drop (proto + 3) ++ atSign :: slash :: tail = (y.drop (proto + 3) ++ [atSign]) ++ slash :: tail := by
          simp
        rw [host, find_first plain, Option.map_some, Option.getD_some, List.length_append, List.length_drop,
          List.length_singleton] at cut
        omega
    rcases parts with front | behind
    · obtain ⟨before, piece, kept⟩ := @canonical_sign _ ends (y.drop k) clean dotless
      obtain ⟨z, joined⟩ := intercalate_sign before piece dirs
      rw [List.drop_append_of_le_length front, List.take_append_of_le_length front, kept, joined]
      refine ⟨y.take k ++ z, ?_⟩
      rw [← List.append_assoc]
      exact closed_sign y (y.take k ++ z) clean (.inl rfl)
    · obtain ⟨tail, form, same⟩ := canonicalForm_cons dirs ends
      have taken : (y ++ atSign :: canonicalForm dirs ends).take k = y ++ [atSign, slash] := by
        rw [behind, form, List.take_append]
        simp
      have dropped : (y ++ atSign :: canonicalForm dirs ends).drop k = tail := by
        rw [behind, form, List.drop_append]
        simp
      have components : splitPathComponents tail = dirs := by
        rw [← same, ← form]
        exact canonicalForm_components clean
      rw [taken, dropped, components, (canonical_eq_iff dirs).mpr dotless]
      refine ⟨y, ?_⟩
      have whole : y ++ [atSign, slash] ++ [slash].intercalate dirs = y ++ atSign :: rooted dirs := by
        rw [List.append_assoc]
        rfl
      rw [whole]
      refine closed_sign y y clean ?_
      by_cases none : dirs = []
      · rw [none]
        exact .inr ⟨rfl, rfl⟩
      · exact .inl (if_neg none).symm

/-- Such a path stays longer than the one that it ends in. -/
theorem settled_sign (y : Str) (clean : ∀ d ∈ dirs, Component d) (dotless : Dotless dirs) :
    settled (y ++ atSign :: canonicalForm dirs ends) ≠ canonicalForm dirs ends := by
  obtain ⟨z, once⟩ := @cleaned_sign _ ends y clean dotless
  have rooted_ : ∃ z', rootedPath (z ++ atSign :: canonicalForm dirs ends) = z' ++ atSign :: canonicalForm dirs ends := by
    unfold rootedPath
    split
    · exact ⟨z, rfl⟩
    · exact ⟨slash :: z, rfl⟩
  obtain ⟨z', root⟩ := rooted_
  obtain ⟨w, twice⟩ := @cleaned_sign _ ends z' clean dotless
  rw [settled, once, root, twice]
  intro same
  have longer := congrArg List.length same
  rw [List.length_append, List.length_cons] at longer
  omega

/-! The last of a limited number of pieces -/

theorem afterSlash_behind (a b : Str) : afterSlash (a ++ slash :: b) = afterSlash b := by
  obtain ⟨front, whole, cut⟩ := exists_front b
  have joined : a ++ slash :: b = (a ++ slash :: front) ++ afterSlash b := by
    rw [List.append_assoc, List.cons_append, ← whole]
  rw [joined, afterSlash_append (afterSlash_bare b)]
  have none : afterSlash (a ++ slash :: front) = [] := by
    refine afterSlash_nil_iff.mpr (.inr ?_)
    rcases afterSlash_nil_iff.mp cut with rfl | ends
    · simp
    · rw [List.getLast?_append_of_ne_nil _ (List.cons_ne_nil _ _)]
      cases front with
      | nil => rfl
      | cons c front => exact ends
  rw [none, List.nil_append]

theorem split_ne_nil (ch : UInt8) (n : Nat) (s : Str) : split ch n s ≠ [] := by
  cases n with
  | zero => exact List.cons_ne_nil _ _
  | succ n =>
    rw [split]
    split <;> exact List.cons_ne_nil _ _

/-- The last piece is what is behind the last slash, if there are not too many, and has a slash otherwise. -/
theorem split_last (n : Nat) (s : Str) :
    (s.count slash ≤ n → (split slash n s).getLastD [] = afterSlash s) ∧
      (n < s.count slash → slash ∈ (split slash n s).getLastD []) := by
  induction n generalizing s with
  | zero =>
    have whole : (split slash 0 s).getLastD [] = s := rfl
    rw [whole]
    refine ⟨fun none => (afterSlash_plain ?_).symm, fun more => List.count_pos_iff.mp more⟩
    exact List.count_eq_zero.mp (Nat.le_zero.mp none)
  | succ n ih =>
    by_cases there : slash ∈ s
    · obtain ⟨a, b, rfl, plain⟩ := List.eq_append_cons_of_mem there
      have last : (split slash (n + 1) (a ++ slash :: b)).getLastD [] = (split slash n b).getLastD [] := by
        rw [split_first n a b plain]
        obtain ⟨p, ps, cons⟩ := List.exists_cons_of_ne_nil (split_ne_nil slash n b)
        rw [cons]
        simp
      have counted : (a ++ slash :: b).count slash = b.count slash + 1 := by
        rw [List.count_append, List.count_cons_self, List.count_eq_zero.mpr plain, Nat.zero_add]
      rw [last, counted, afterSlash_behind]
      exact ⟨fun few => (ih b).1 (by omega), fun many => (ih b).2 (by omega)⟩
    · rw [split_whole (n + 1) there, List.count_eq_zero.mpr there]
      exact ⟨fun _ => (afterSlash_plain there).symm, fun no => absurd no (Nat.not_lt_zero _)⟩

/-- `urlName` cuts a path into at most 9999 pieces. -/
theorem urlName_iff (path : Str) : slash ∉ urlName path ↔ path.count slash ≤ 9998 := by
  obtain ⟨few, many⟩ := split_last 9998 path
  constructor
  · intro bare
    by_contra more
    exact bare (many (by omega))
  · intro short
    rw [urlName, splitPath, few short]
    exact afterSlash_bare path

theorem urlName_eq {path : Str} (short : path.count slash ≤ 9998) : urlName path = afterSlash path :=
  (split_last 9998 path).1 short

end Meatloaf
