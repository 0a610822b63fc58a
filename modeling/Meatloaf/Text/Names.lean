import Meatloaf.Text.U8Char

/-! File names as the media streams compare them: the string helpers of `mstr`
that `seekEntry` and `seekPath` call. -/
namespace Meatloaf

def slash : UInt8 := 0x2f
def backslash : UInt8 := 0x5c
def star : UInt8 := 0x2a
def question : UInt8 := 0x3f
def hash : UInt8 := 0x23

/- `mstr::replaceAll(s, "\\", "/")`. -/
def slashed (s : Str) : Str := s.map fun c => if c = backslash then slash else c

/- The `wildcard` flag of every `seekEntry`. -/
def isWildcard (s : Str) : Bool := s.contains star || s.contains question

/- One row of the table of `mstr::compare`, left to right. `diag`, `up` and
`left` are `prev[j - 1]`, `prev[j]` and `curr[j - 1]`. -/
def compareCells (p : UInt8) : Str → List Bool → Bool → List Bool
  | c :: content, diag :: up :: prev, left =>
    let v := if p = star then up || left else if p = question then diag else (p == c) && diag
    v :: compareCells p content (up :: prev) v
  | _, _, _ => []

def compareRow (content : Str) (prev : List Bool) (p : UInt8) : List Bool :=
  let first := if p = star then prev.getD 0 false else false
  first :: compareCells p content prev first

/-- `mstr::compare` with its default, case sensitive. -/
def compare (content pattern : Str) : Bool :=
  (pattern.foldl (compareRow content) (true :: content.map fun _ => false)).getD content.length false

def compareFilename (entry filename : Str) (wildcard : Bool) : Bool :=
  filename == entry || (wildcard && (filename == [star] || compare entry filename))

def endsWithHash (s : Str) : Bool := s.getLast? == some hash

/- `splitPathComponents`: the non-empty pieces between slashes. `acc` is the
piece being collected. -/
def splitPieces : Str → Str → List Str
  | [], acc => if acc = [] then [] else [acc]
  | c :: rest, acc =>
    if c = slash then (if acc = [] then splitPieces rest [] else acc :: splitPieces rest [])
    else splitPieces rest (acc ++ [c])

def splitPathComponents (path : Str) : List Str := splitPieces path []

/- The pieces but the last, joined again with slashes. -/
def parentPath (parts : List Str) : Str := [slash].intercalate parts.dropLast

theorem splitPieces_plain (s acc : Str) (plain : slash ∉ s) :
    splitPieces s acc = if acc ++ s = [] then [] else [acc ++ s] := by
  induction s generalizing acc with
  | nil => simp [splitPieces]
  | cons c rest ih =>
    have hc : c ≠ slash := fun h => plain (by simp [h])
    have hrest : slash ∉ rest := fun h => plain (by simp [h])
    rw [splitPieces, if_neg hc, ih _ hrest]
    simp

/-- A name without a slash is one component. -/
theorem splitPathComponents_plain (s : Str) (plain : slash ∉ s) (nonempty : s ≠ []) :
    splitPathComponents s = [s] := by
  rw [splitPathComponents, splitPieces_plain s [] plain]
  simp [nonempty]

theorem splitPieces_ne_nil (s acc : Str) : ∀ p ∈ splitPieces s acc, p ≠ [] := by
  induction s generalizing acc with
  | nil =>
    intro p member
    unfold splitPieces at member
    split at member
    · cases member
    · rename_i nonempty
      rw [List.mem_singleton.mp member]
      exact nonempty
  | cons c rest ih =>
    intro p member
    unfold splitPieces at member
    split at member
    · split at member
      · exact ih [] p member
      · rename_i nonempty
        rcases List.mem_cons.mp member with rfl | member
        · exact nonempty
        · exact ih [] p member
    · exact ih _ p member

/-- A component is never empty. -/
theorem splitPathComponents_ne_nil (path : Str) : ∀ p ∈ splitPathComponents path, p ≠ [] :=
  splitPieces_ne_nil path []

theorem splitPieces_clean (s acc : Str) (clean : slash ∉ acc) : ∀ p ∈ splitPieces s acc, slash ∉ p := by
  induction s generalizing acc with
  | nil =>
    intro p member
    unfold splitPieces at member
    split at member
    · cases member
    · rw [List.mem_singleton.mp member]
      exact clean
  | cons c rest ih =>
    intro p member
    unfold splitPieces at member
    split at member
    · split at member
      · exact ih [] (by simp) p member
      · rcases List.mem_cons.mp member with rfl | member
        · exact clean
        · exact ih [] (by simp) p member
    · rename_i other
      refine ih _ ?_ p member
      simp [clean, Ne.symm other]

/- A piece that was begun is a piece. -/
theorem splitPieces_begun (s acc : Str) (begun : acc ≠ []) : splitPieces s acc ≠ [] := by
  induction s generalizing acc with
  | nil => simp [splitPieces, begun]
  | cons c rest ih =>
    unfold splitPieces
    split
    · simp
    · exact ih _ (by simp)

/- Pieces on both sides of a slash. -/
theorem splitPieces_append (a b acc : Str) :
    splitPieces (a ++ slash :: b) acc = splitPieces a acc ++ splitPieces b [] := by
  induction a generalizing acc with
  | nil =>
    have start : splitPieces (slash :: b) acc = if acc = [] then splitPieces b [] else acc :: splitPieces b [] :=
      if_pos rfl
    have none : splitPieces [] acc = if acc = [] then [] else [acc] := rfl
    rw [List.nil_append, start, none]
    split
    · rfl
    · rfl
  | cons c a ih =>
    rw [List.cons_append, splitPieces, splitPieces, ih, ih]
    split
    · split
      · rfl
      · rfl
    · rfl

theorem splitPathComponents_append (a b : Str) :
    splitPathComponents (a ++ slash :: b) = splitPathComponents a ++ splitPathComponents b :=
  splitPieces_append a b []

@[simp] theorem splitPathComponents_slash (s : Str) :
    splitPathComponents (slash :: s) = splitPathComponents s := rfl

/-- Components joined with slashes come apart again. -/
theorem splitPathComponents_intercalate (parts : List Str) (clean : ∀ p ∈ parts, slash ∉ p)
    (nonempty : ∀ p ∈ parts, p ≠ []) : splitPathComponents ([slash].intercalate parts) = parts := by
  induction parts with
  | nil => rfl
  | cons a parts ih =>
    have first := clean a List.mem_cons_self
    have some := nonempty a List.mem_cons_self
    cases parts with
    | nil => simp [splitPathComponents, splitPieces_plain a [] first, some]
    | cons b parts =>
      have join : [slash].intercalate (a :: b :: parts) = a ++ slash :: [slash].intercalate (b :: parts) := by
        simp [List.intercalate, List.intersperse]
      have rest := ih (fun p member => clean p (List.mem_cons_of_mem a member))
        fun p member => nonempty p (List.mem_cons_of_mem a member)
      rw [join, splitPathComponents_append, splitPathComponents_plain a first some, rest]
      rfl

/-- The parent of a path has all its components but the last. -/
theorem splitPathComponents_parent {path name : Str} {parents : List Str}
    (parts : splitPathComponents path = parents ++ [name]) :
    splitPathComponents (parentPath (splitPathComponents path)) = parents := by
  have from_path : ∀ p ∈ parents, p ∈ splitPathComponents path := by
    intro p member
    rw [parts]
    exact List.mem_append_left _ member
  rw [parentPath, parts, List.dropLast_concat]
  exact splitPathComponents_intercalate parents
    (fun p member => splitPieces_clean path [] (by simp) p (from_path p member))
    fun p member => splitPathComponents_ne_nil path p (from_path p member)

/-- The path of a file in a directory has the directory for a parent. -/
theorem parentPath_components {path a b : Str} {rest : List Str}
    (split : splitPathComponents path = a :: b :: rest) :
    splitPathComponents (parentPath (a :: b :: rest)) ≠ [] := by
  have nonempty := splitPieces_ne_nil path [] a (by
    have : a ∈ splitPathComponents path := by rw [split]; simp
    exact this)
  have clean := splitPieces_clean path [] (by simp) a (by
    have : a ∈ splitPathComponents path := by rw [split]; simp
    exact this)
  cases a with
  | nil => exact absurd rfl nonempty
  | cons x a =>
    have first : x ≠ slash := fun same => clean (by simp [same])
    have starts : ∃ tail, parentPath ((x :: a) :: b :: rest) = x :: tail := by
      unfold parentPath
      rw [List.dropLast_cons_cons]
      cases (b :: rest).dropLast with
      | nil => exact ⟨a, by simp [List.intercalate]⟩
      | cons e l => exact ⟨_, by simp [List.intercalate, List.intersperse]; rfl⟩
    obtain ⟨tail, shape⟩ := starts
    rw [shape, splitPathComponents, splitPieces, if_neg first]
    exact splitPieces_begun _ _ (by simp)

@[simp] theorem splitPathComponents_nil : splitPathComponents [] = [] := rfl

@[simp] theorem parentPath_single (s : Str) : parentPath [s] = [] := rfl

theorem compareFilename_plain (entry filename : Str) :
    compareFilename entry filename false = (filename == entry) := by
  simp [compareFilename]

end Meatloaf
