import Mathlib.Data.List.DropRight
import Meatloaf.Text.Names

/-! Letters and digits, `atoi`, and the decimal numbers it reads. -/
namespace Meatloaf

def isspace (c : UInt8) : Bool := c == 0x20 || (0x09 ≤ c && c ≤ 0x0d)
def isdigit (c : UInt8) : Bool := 0x30 ≤ c && c ≤ 0x39
def isalpha (c : UInt8) : Bool := (0x41 ≤ c && c ≤ 0x5a) || (0x61 ≤ c && c ≤ 0x7a)
def isalnum (c : UInt8) : Bool := isalpha c || isdigit c

def carriageReturn : UInt8 := 0x0d

/-- `mstr::trim`. -/
def trim (s : Str) : Str := ((s.dropWhile isspace).rdropWhile (· == carriageReturn)).rdropWhile isspace

/- `util_tokenize`: nothing comes behind a separator that ends the string. -/
def tokens (separator : UInt8) : Str → Str → List Str
  | token, [] => if token = [] then [] else [token]
  | token, c :: rest => if c = separator then token :: tokens separator [] rest else tokens separator (token ++ [c]) rest

def util_tokenize (s : Str) (separator : UInt8) : List Str := tokens separator [] s

/- Digits in front of a string, behind those that have been read. -/
def readDigits : Nat → Str → Nat
  | value, [] => value
  | value, c :: s => if isdigit c = true then readDigits (10 * value + (c.toNat - 0x30)) s else value

/-- `atoi`: white space, a sign, digits. -/
def atoi (s : Str) : Int :=
  match s.dropWhile isspace with
  | 0x2d :: s => - (readDigits 0 s : Int)
  | 0x2b :: s => readDigits 0 s
  | s => readDigits 0 s

/-- A number in decimal digits, with spaces around it. -/
structure Numeral (n : Nat) (text : Str) : Prop where
  parts : ∃ before digits after, text = before ++ digits ++ after ∧ (∀ c ∈ before, c = 0x20) ∧ digits ≠ [] ∧
    (∀ c ∈ digits, isdigit c = true) ∧ (∀ c ∈ after, c = 0x20) ∧ readDigits 0 digits = n

theorem readDigits_append {digits : Str} (all : ∀ c ∈ digits, isdigit c = true) (value : Nat) (rest : Str) :
    readDigits value (digits ++ rest) = readDigits (readDigits value digits) rest := by
  induction digits generalizing value with
  | nil => rfl
  | cons c digits ih =>
    have first := all c List.mem_cons_self
    rw [List.cons_append, readDigits, if_pos first, readDigits, if_pos first,
      ih fun d member => all d (List.mem_cons_of_mem c member)]

/-- `atoi` reads a numeral. -/
theorem Numeral.atoi {n : Nat} {text : Str} (numeral : Numeral n text) : atoi text = n := by
  obtain ⟨before, digits, after, rfl, spaces, some, all, behind, value⟩ := numeral.parts
  cases digits with
  | nil => exact absurd rfl some
  | cons c digits =>
    have first := all c List.mem_cons_self
    have begins : (before ++ (c :: digits) ++ after).dropWhile isspace = c :: digits ++ after := by
      have blank : ∀ d ∈ before, isspace d = true := fun d member => spaces d member ▸ rfl
      rw [List.append_assoc, List.dropWhile_append_of_pos blank, List.cons_append, List.dropWhile_cons_of_neg]
      exact forall_byte (fun c => isdigit c = true → ¬ isspace c = true) (by decide +kernel) c first
    have ends : readDigits n after = n := by
      cases after with
      | nil => rfl
      | cons d after =>
        rw [behind d List.mem_cons_self]
        rfl
    have number : readDigits 0 (c :: digits ++ after) = n := by
      rw [readDigits_append all, value, ends]
    have unsigned : c ≠ 0x2d ∧ c ≠ 0x2b :=
      forall_byte (fun c => isdigit c = true → c ≠ 0x2d ∧ c ≠ 0x2b) (by decide +kernel) c first
    unfold Meatloaf.atoi
    rw [begins]
    split
    · rename_i minus
      exact absurd (List.cons_eq_cons.mp minus).1 unsigned.1
    · rename_i plus
      exact absurd (List.cons_eq_cons.mp plus).1 unsigned.2
    · rw [number]

theorem Numeral.digits {n : Nat} {text : Str} (some : text ≠ []) (all : ∀ c ∈ text, isdigit c = true)
    (value : readDigits 0 text = n) : Numeral n text :=
  ⟨[], text, [], (List.append_nil text).symm, (fun _ no => absurd no List.not_mem_nil), some, all,
    (fun _ no => absurd no List.not_mem_nil), value⟩

/- A numeral has no other characters than spaces and digits. -/
theorem Numeral.plain {n : Nat} {text : Str} (numeral : Numeral n text) {c : UInt8} (member : c ∈ text) :
    c = 0x20 ∨ isdigit c = true := by
  obtain ⟨before, digits, after, rfl, spaces, -, all, behind, -⟩ := numeral.parts
  rcases List.mem_append.mp member with front | back
  · exact (List.mem_append.mp front).elim (fun blank => .inl (spaces c blank)) fun digit => .inr (all c digit)
  · exact .inl (behind c back)

end Meatloaf
