import Mathlib.Logic.Function.Basic
import Meatloaf.Lib.Glob
import Meatloaf.Text.Names

/-! `mstr::compare`: a table of prefixes, of which two rows are kept and swapped. -/
namespace Meatloaf.Mstr

open Lib.Glob

/-- `std::tolower` of a byte. -/
def tolower (c : UInt8) : UInt8 := if 0x41 ≤ c ∧ c ≤ 0x5a then c + 0x20 else c

def eq (case_sensitive : Bool) (a b : UInt8) : Bool := if case_sensitive then a == b else tolower a == tolower b

structure Rows where
  prev : Nat → Bool
  curr : Nat → Bool

section Table

variable (case_sensitive : Bool)

/- The loop over the content, from cell `j` on. It writes over what the swap has left in the row. -/
def fillCells (p : UInt8) (prev : Nat → Bool) : Str → Nat → (Nat → Bool) → Nat → Bool
  | [], _, curr => curr
  | c :: rest, j, curr =>
    let cell :=
      if p = star then prev j || curr (j - 1)
      else if p = question then prev (j - 1)
      else eq case_sensitive p c && prev (j - 1)
    fillCells p prev rest (j + 1) (Function.update curr j cell)

/- A pass of the loop over the pattern, with the swap at its end. -/
def fillRow (content : Str) (rows : Rows) (p : UInt8) : Rows where
  prev := fillCells case_sensitive p rows.prev content 1
    (Function.update rows.curr 0 (if p = star then rows.prev 0 else false))
  curr := rows.prev

/- The rows before the first pass. -/
def emptyPattern : Rows where
  prev := Function.update (fun _ => false) 0 true
  curr := fun _ => false

/-- `mstr::compare(content, pattern, case_sensitive)`. -/
def compare (content pattern : Str) : Bool :=
  (pattern.foldl (fillRow case_sensitive content) emptyPattern).prev content.length

end Table

/- What a byte of a pattern stands for. -/
def item (p : UInt8) : Item UInt8 := if p = star then .any else if p = question then .one else .char p

/-- Two bytes are the same, up to their case if that does not count. -/
def Same (case_sensitive : Bool) (a b : UInt8) : Prop := if case_sensitive then a = b else tolower a = tolower b

variable {case_sensitive : Bool} {content pattern : Str} {p : UInt8}

theorem eq_iff (a b : UInt8) : eq case_sensitive a b = true ↔ Same case_sensitive a b := by
  cases case_sensitive <;> simp [eq, Same]

/-- A row of the table: which beginnings of the content the beginning of a pattern matches. -/
def RowOf (case_sensitive : Bool) (content pattern : Str) (row : Nat → Bool) (n : Nat) : Prop :=
  ∀ i ≤ n, row i = true ↔ Matches (Same case_sensitive) (pattern.map item) (content.take i)

theorem emptyPattern_row (n : Nat) (inside : n ≤ content.length) : RowOf case_sensitive content [] emptyPattern.prev n := by
  intro i below
  rw [List.map_nil, matches_nil_iff]
  cases i with
  | zero => simp [emptyPattern]
  | succ i =>
    have some : content ≠ [] := by
      rintro rfl
      exact absurd (below.trans inside) (Nat.not_succ_le_zero i)
    simp [emptyPattern, some]

theorem firstCell_row {prev : Nat → Bool} (row : RowOf case_sensitive content pattern prev content.length)
    (curr : Nat → Bool) :
    RowOf case_sensitive content (pattern ++ [p])
      (Function.update curr 0 (if p = star then prev 0 else false)) 0 := by
  intro i below
  obtain rfl := Nat.le_zero.mp below
  have first := row 0 (Nat.zero_le _)
  rw [List.take_zero] at first ⊢
  rw [Function.update_self, List.map_append, List.map_singleton, item]
  split
  · rw [empty_any, first]
  · split
    · simp [empty_one]
    · simp [empty_char]

/-- A cell takes one letter more into account. -/
theorem nextCell_row {prev curr : Nat → Bool} {before rest : Str} {c : UInt8} (cut : content = before ++ c :: rest)
    (row : RowOf case_sensitive content pattern prev content.length)
    (left : RowOf case_sensitive content (pattern ++ [p]) curr before.length) :
    RowOf case_sensitive content (pattern ++ [p])
      (Function.update curr (before.length + 1)
        (if p = star then prev (before.length + 1) || curr before.length
          else if p = question then prev before.length
          else eq case_sensitive p c && prev before.length)) (before.length + 1) := by
  intro i below
  rcases Nat.lt_or_eq_of_le below with less | rfl
  · rw [Function.update_of_ne (Nat.ne_of_lt less)]
    exact left i (Nat.le_of_lt_succ less)
  · have inside : before.length + 1 ≤ content.length := by
      rw [cut, List.length_append, List.length_cons]
      omega
    have start : content.take before.length = before := by
      rw [cut, List.take_left]
    have more : content.take (before.length + 1) = before ++ [c] := by
      rw [cut, List.append_cons, List.take_left' (by simp)]
    have diag := row before.length (Nat.le_of_succ_le inside)
    have up := row (before.length + 1) inside
    have here := left before.length (Nat.le_refl _)
    rw [start] at diag here
    rw [more] at up ⊢
    rw [List.map_append, List.map_singleton] at here ⊢
    rw [Function.update_self]
    by_cases all : p = star
    · have letter : item p = .any := if_pos all
      rw [letter] at here ⊢
      rw [if_pos all, Bool.or_eq_true, snoc_any, up, here]
    · by_cases one : p = question
      · have letter : item p = .one := by rw [item, if_neg all, if_pos one]
        rw [if_neg all, if_pos one, letter, snoc_one, diag]
      · have letter : item p = .char p := by rw [item, if_neg all, if_neg one]
        rw [if_neg all, if_neg one, letter, Bool.and_eq_true, snoc_char, diag, eq_iff]

/-- The loop over the content fills the row. -/
theorem fillCells_row {prev curr : Nat → Bool} {before rest : Str} (cut : content = before ++ rest)
    (row : RowOf case_sensitive content pattern prev content.length)
    (left : RowOf case_sensitive content (pattern ++ [p]) curr before.length) :
    RowOf case_sensitive content (pattern ++ [p])
      (fillCells case_sensitive p prev rest (before.length + 1) curr) content.length := by
  induction rest generalizing before curr with
  | nil =>
    rw [List.append_nil] at cut
    rw [cut, fillCells, ← cut]
    exact cut ▸ left
  | cons c rest ih =>
    have next := nextCell_row cut row left
    have cut' : content = (before ++ [c]) ++ rest := by simp [cut]
    have length : (before ++ [c]).length = before.length + 1 := by simp
    rw [fillCells, Nat.add_sub_cancel, ← length]
    apply ih cut'
    rw [length]
    exact next

/-- Every pass of the loop over the pattern leaves the row of one letter more. -/
theorem fillRow_row {rows : Rows} (row : RowOf case_sensitive content pattern rows.prev content.length) (p : UInt8) :
    RowOf case_sensitive content (pattern ++ [p]) (fillRow case_sensitive content rows p).prev content.length :=
  @fillCells_row _ _ _ _ _ _ [] content rfl row (firstCell_row row rows.curr)

theorem foldl_row (rest : Str) {rows : Rows} (row : RowOf case_sensitive content pattern rows.prev content.length) :
    RowOf case_sensitive content (pattern ++ rest) (rest.foldl (fillRow case_sensitive content) rows).prev
      content.length := by
  induction rest generalizing pattern rows with
  | nil => simpa using row
  | cons p rest ih =>
    have all := ih (fillRow_row row p)
    simpa using all

/-- The table decides whether the pattern matches the content. -/
theorem compare_iff (case_sensitive : Bool) (content pattern : Str) :
    compare case_sensitive content pattern = true ↔ Matches (Same case_sensitive) (pattern.map item) content := by
  have row := @foldl_row case_sensitive content [] pattern emptyPattern (emptyPattern_row _ (Nat.le_refl _))
  have last := row content.length (Nat.le_refl _)
  rw [List.take_length] at last
  exact last

/- The comparison that `compareFilename` uses keeps its rows as lists. -/

theorem fillCells_before (p : UInt8) (prev : Nat → Bool) (rest : Str) {i j : Nat} (before : i < j) (curr : Nat → Bool) :
    fillCells case_sensitive p prev rest j curr i = curr i := by
  induction rest generalizing j curr with
  | nil => rfl
  | cons c rest ih =>
    rw [fillCells, ih (Nat.lt_succ_of_lt before), Function.update_of_ne (Nat.ne_of_lt before)]

theorem compareCells_eq (p : UInt8) (prev : Nat → Bool) (rest : Str) (j : Nat) (curr : Nat → Bool) :
    compareCells p rest ((List.range' j (rest.length + 1)).map prev) (curr j) =
      (List.range' (j + 1) rest.length).map (fillCells true p prev rest (j + 1) curr) := by
  induction rest generalizing j curr with
  | nil => rfl
  | cons c rest ih =>
    have cells := ih (j + 1) (Function.update curr (j + 1) (if p = star then prev (j + 1) || curr j
      else if p = question then prev j else eq true p c && prev j))
    rw [Function.update_self] at cells
    have same : eq true p c = (p == c) := rfl
    rw [same] at cells
    rw [List.range'_succ] at cells
    rw [List.length_cons, List.range'_succ, List.range'_succ, List.map_cons, List.map_cons, List.map_cons, compareCells, fillCells, fillCells_before p prev rest (Nat.lt_succ_self _), Function.update_self,
      Nat.add_sub_cancel, same]
    exact congrArg (List.cons _) cells

theorem compareRow_eq (content : Str) (rows : Rows) (p : UInt8) :
    compareRow content ((List.range' 0 (content.length + 1)).map rows.prev) p =
      (List.range' 0 (content.length + 1)).map (fillRow true content rows p).prev := by
  have cells := compareCells_eq p rows.prev content 0
    (Function.update rows.curr 0 (if p = star then rows.prev 0 else false))
  rw [Function.update_self] at cells
  have first : ((List.range' 0 (content.length + 1)).map rows.prev).getD 0 false = rows.prev 0 := by
    simp [List.range'_succ]
  have kept : (fillRow true content rows p).prev 0 = if p = star then rows.prev 0 else false := by
    exact (fillCells_before p rows.prev content Nat.zero_lt_one _).trans (Function.update_self ..)
  rw [compareRow, first, cells, List.range'_succ, List.map_cons, kept]
  rfl

/-- Both are one comparison. -/
theorem compare_eq (content pattern : Str) : Meatloaf.compare content pattern = compare true content pattern := by
  have rows (rest : Str) (rows : Rows) :
      rest.foldl (compareRow content) ((List.range' 0 (content.length + 1)).map rows.prev) =
        (List.range' 0 (content.length + 1)).map (rest.foldl (fillRow true content) rows).prev := by
    induction rest generalizing rows with
    | nil => rfl
    | cons p rest ih => rw [List.foldl_cons, List.foldl_cons, compareRow_eq, ih]
  have start : true :: content.map (fun _ => false) = (List.range' 0 (content.length + 1)).map emptyPattern.prev := by
    apply List.ext_getElem
    · simp
    · intro i _ inside
      cases i with
      | zero => simp [emptyPattern]
      | succ i => simp [emptyPattern]
  rw [Meatloaf.compare, compare, start, rows pattern emptyPattern]
  simp

end Meatloaf.Mstr
