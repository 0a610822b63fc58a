import Meatloaf.Text.Url

/-! `std::stoi` and `std::stoul` of texts that come with a URL or from a server. Where they would throw, the device
aborts. -/
namespace Meatloaf.Network

/- The sign in front of a number. -/
def signed : Str → Bool × Str
  | 0x2d :: s => (true, s)
  | 0x2b :: s => (false, s)
  | s => (false, s)

/- What `strtol` reads: white space, a sign, and digits, of which there is at least one. -/
def leading (s : Str) : Option (Bool × Nat) :=
  let r := signed (s.dropWhile isspace)
  let digits := r.2.takeWhile isdigit
  if digits = [] then none else some (r.1, readDigits 0 digits)

/- An `int` and an `unsigned long` have 32 bits. With a sign, the latter is taken off 2^32. -/
def stoi (s : Str) : Option Int :=
  match leading s with
  | none => none
  | some (minus, m) => if minus then (if m ≤ 2 ^ 31 then some (-m) else none) else if m < 2 ^ 31 then some m else none

def stoul (s : Str) : Option Nat :=
  match leading s with
  | none => none
  | some (minus, m) => if m < 2 ^ 32 then some (if minus then (2 ^ 32 - m) % 2 ^ 32 else m) else none

/- An `int` that is stored in a `uint16_t`. -/
def toPort (n : Int) : Nat := (n % 2 ^ 16).toNat

def getPort (p : PeoplesUrlParser) : Option Nat := if p.port = [] then some 0 else (stoi p.port).map toPort

/- "http" and "https". -/
def httpScheme : Str := [0x68, 0x74, 0x74, 0x70]
def httpsScheme : Str := [0x68, 0x74, 0x74, 0x70, 0x73]

/-- The sessions that streams have obtained, by host and port, and what the client has from "Content-Range". -/
structure Device where
  sessions : List (Str × Nat) := []
  rangeSize : Nat := 0
  isFriendlySkipper : Bool := false

inductive Conversion where
  | parseURL
  | getPort
  | opens
  | onHeader

namespace Device

/- `HTTPMStream::open`, up to the session. A URL of another scheme is an error. -/
def opens (u : Str) (d : Device) : Option Device :=
  let parser := PeoplesUrlParser.parseURL u
  if parser.scheme ≠ httpScheme ∧ parser.scheme ≠ httpsScheme then some d
  else
    let http_port := if parser.port = [] then some (if parser.scheme = httpsScheme then 443 else 80) else (stoi parser.port).map toPort
    http_port.map fun port => { d with sessions := d.sessions ++ [(parser.host, port)] }

/- The event of a header "Content-Range". -/
def onHeader (v : Str) (d : Device) : Option Device :=
  let cr := util_tokenize v slash
  if 1 < cr.length then (stoul (cr.getD 1 [])).map fun n => { d with isFriendlySkipper := true, rangeSize := n }
  else some { d with isFriendlySkipper := true }

def step (u v : Str) (d : Device) : Conversion → Option Device
  | .parseURL => some d
  | .getPort => (Network.getPort (PeoplesUrlParser.parseURL u)).map fun _ => d
  | .opens => d.opens u
  | .onHeader => d.onHeader v

end Device

/- ## Numbers at the start of a text -/

/- No sign, a plus, or a minus. -/
inductive Sign : Bool → Str → Prop
  | none : Sign false []
  | plus : Sign false [0x2b]
  | minus : Sign true [0x2d]

/-- The text begins with this number, behind white space and a sign. -/
def Begins (s : Str) (minus : Bool) (m : Nat) : Prop :=
  ∃ blanks sign digits rest, s = blanks ++ (sign ++ (digits ++ rest)) ∧ (∀ c ∈ blanks, isspace c = true) ∧ Sign minus sign ∧
    digits ≠ [] ∧ (∀ c ∈ digits, isdigit c = true) ∧ (∀ c ∈ rest.head?, isdigit c = false) ∧ readDigits 0 digits = m

theorem takeWhile_exact {p : UInt8 → Bool} {front rest : Str} (inside : ∀ c ∈ front, p c = true)
    (ends : ∀ c ∈ rest.head?, p c = false) : (front ++ rest).takeWhile p = front := by
  rw [List.takeWhile_append_of_pos inside]
  cases rest with
  | nil => exact List.append_nil front
  | cons c rest => rw [List.takeWhile_cons, ends c rfl, if_neg Bool.noConfusion, List.append_nil]

theorem dropWhile_exact {p : UInt8 → Bool} {front rest : Str} (inside : ∀ c ∈ front, p c = true)
    (ends : ∀ c ∈ rest.head?, p c = false) : (front ++ rest).dropWhile p = rest := by
  rw [List.dropWhile_append_of_pos inside]
  cases rest with
  | nil => rfl
  | cons c rest => rw [List.dropWhile_cons, ends c rfl, if_neg Bool.noConfusion]

theorem head_dropWhile (p : UInt8 → Bool) (s : Str) : ∀ c ∈ (s.dropWhile p).head?, p c = false := by
  intro c first
  have stops := List.head?_dropWhile_not p s
  rw [Option.mem_def.mp first] at stops
  simpa using stops

theorem signed_sign (s : Str) : ∃ sign, Sign (signed s).1 sign ∧ s = sign ++ (signed s).2 := by
  unfold signed
  split
  · exact ⟨_, .minus, rfl⟩
  · exact ⟨_, .plus, rfl⟩
  · exact ⟨_, .none, rfl⟩

theorem signed_of_sign {minus : Bool} {sign : Str} (is : Sign minus sign) {c : UInt8} (digit : isdigit c = true) (s : Str) :
    signed (sign ++ c :: s) = (minus, c :: s) := by
  cases is with
  | minus => rfl
  | plus => rfl
  | none =>
    have other : c ≠ 0x2d ∧ c ≠ 0x2b := forall_byte
      (fun c => isdigit c = true → c ≠ 0x2d ∧ c ≠ 0x2b) (by decide +kernel) c digit
    rw [List.nil_append]
    unfold signed
    split
    · rename_i same
      exact absurd (List.cons.inj same).1 other.1
    · rename_i same
      exact absurd (List.cons.inj same).1 other.2
    · rfl

/-- What is read is the number the text begins with. -/
theorem leading_iff {s : Str} {minus : Bool} {m : Nat} : leading s = some (minus, m) ↔ Begins s minus m := by
  constructor
  · intro read
    obtain ⟨sign, is, behind⟩ := signed_sign (s.dropWhile isspace)
    simp only [leading] at read
    by_cases none : (signed (s.dropWhile isspace)).2.takeWhile isdigit = []
    · rw [if_pos none] at read
      cases read
    · rw [if_neg none] at read
      obtain ⟨rfl, rfl⟩ := Prod.mk.inj (Option.some.inj read)
      refine ⟨s.takeWhile isspace, sign, _, (signed (s.dropWhile isspace)).2.dropWhile isdigit, ?_, ?_, is, none, ?_, ?_, rfl⟩
      · rw [List.takeWhile_append_dropWhile, ← behind, List.takeWhile_append_dropWhile]
      · exact fun c member => List.mem_takeWhile_imp member
      · exact fun c member => List.mem_takeWhile_imp member
      · exact head_dropWhile isdigit _
  · rintro ⟨blanks, sign, digits, rest, rfl, space, is, some, all, ends, rfl⟩
    obtain ⟨d, digits, rfl⟩ := List.exists_cons_of_ne_nil some
    have cut : (d :: digits ++ rest).takeWhile isdigit = d :: digits := takeWhile_exact all ends
    have digit := all d List.mem_cons_self
    have solid : ∀ c ∈ (sign ++ (d :: digits ++ rest)).head?, isspace c = false := by
      have plain : isspace d = false := forall_byte
        (fun d => isdigit d = true → isspace d = false) (by decide +kernel) d digit
      cases is with
      | none => rintro c ⟨⟩; exact plain
      | plus => rintro c ⟨⟩; rfl
      | minus => rintro c ⟨⟩; rfl
    have sign' : signed (sign ++ (d :: digits ++ rest)) = (minus, d :: digits ++ rest) := signed_of_sign is digit _
    simp only [leading, dropWhile_exact space solid, sign', cut]
    rw [if_neg some]

/-- The number itself. -/
def value (minus : Bool) (m : Nat) : Int := if minus then -m else m

theorem stoi_iff {s : Str} {n : Int} :
    stoi s = some n ↔ ∃ minus m, Begins s minus m ∧ value minus m = n ∧ -2 ^ 31 ≤ n ∧ n < 2 ^ 31 := by
  simp only [← leading_iff]
  unfold stoi
  cases read : leading s with
  | none => simp
  | some r =>
    obtain ⟨minus, m⟩ := r
    simp only [Option.some.injEq, Prod.mk.injEq, exists_and_left, and_assoc, exists_eq_left', value]
    cases minus with
    | true =>
      by_cases fits : m ≤ 2 ^ 31
      · simp only [if_true, if_pos fits, Option.some.injEq]
        omega
      · simp only [if_true, if_neg fits]
        constructor
        · intro none
          cases none
        · omega
    | false =>
      by_cases fits : m < 2 ^ 31
      · simp only [Bool.false_eq_true, if_false, if_pos fits, Option.some.injEq]
        omega
      · simp only [Bool.false_eq_true, if_false, if_neg fits]
        constructor
        · intro none
          cases none
        · omega

theorem stoul_isSome_iff {s : Str} : (stoul s).isSome = true ↔ ∃ minus m, Begins s minus m ∧ m < 2 ^ 32 := by
  simp only [← leading_iff]
  unfold stoul
  cases read : leading s with
  | none => simp
  | some r =>
    obtain ⟨minus, m⟩ := r
    by_cases fits : m < 2 ^ 32
    · simp only [if_pos fits, Option.isSome_some, true_iff]
      exact ⟨minus, m, rfl, fits⟩
    · simp only [if_neg fits, Option.isSome_none, Bool.false_eq_true, false_iff]
      rintro ⟨minus', m', same, fits'⟩
      cases same
      exact fits fits'

theorem toPort_iff {n : Int} : (toPort n : Int) = n ↔ 0 ≤ n ∧ n < 2 ^ 16 := by
  unfold toPort
  omega

theorem Begins.unique {s : Str} {minus minus' : Bool} {m m' : Nat} (begins : Begins s minus m) (begins' : Begins s minus' m') :
    minus = minus' ∧ m = m' := by
  have same := (leading_iff.mpr begins).symm.trans (leading_iff.mpr begins')
  exact Prod.mk.inj (Option.some.inj same)

/- ## Runs -/

/-- What the texts would have to be. -/
def Clean (u v : Str) : Conversion → Prop
  | .parseURL => True
  | .getPort => (PeoplesUrlParser.parseURL u).port = [] ∨
      ∃ minus m, Begins (PeoplesUrlParser.parseURL u).port minus m ∧ -2 ^ 31 ≤ value minus m ∧ value minus m < 2 ^ 31
  | .opens => (PeoplesUrlParser.parseURL u).scheme = httpScheme ∨ (PeoplesUrlParser.parseURL u).scheme = httpsScheme →
      (PeoplesUrlParser.parseURL u).port = [] ∨
        ∃ minus m, Begins (PeoplesUrlParser.parseURL u).port minus m ∧ 0 ≤ value minus m ∧ value minus m < 2 ^ 16
  | .onHeader => 1 < (util_tokenize v slash).length → ∃ minus m, Begins ((util_tokenize v slash).getD 1 []) minus m ∧ m < 2 ^ 32

namespace Device

/- The port of every session is the number in the URL, where there is one. -/
def Right (u : Str) (d : Device) : Prop :=
  ∀ s ∈ d.sessions, ∀ minus m, Begins (PeoplesUrlParser.parseURL u).port minus m → (s.2 : Int) = value minus m

variable {u v : Str} {d : Device}

theorem getPort_isSome_iff : (Network.getPort (PeoplesUrlParser.parseURL u)).isSome = true ↔ Clean u v .getPort := by
  generalize same : PeoplesUrlParser.parseURL u = p
  simp only [Network.getPort, Clean, same]
  by_cases none : p.port = []
  · simp [none]
  · rw [if_neg none, Option.isSome_map, Option.isSome_iff_exists]
    simp only [stoi_iff, none, false_or]
    constructor
    · rintro ⟨n, minus, m, begins, rfl, low, high⟩
      exact ⟨minus, m, begins, low, high⟩
    · rintro ⟨minus, m, begins, low, high⟩
      exact ⟨_, minus, m, begins, rfl, low, high⟩

theorem begins_nil {minus : Bool} {m : Nat} : ¬ Begins [] minus m := by
  intro begins
  have nothing : leading [] = none := rfl
  have read := leading_iff.mpr begins
  rw [nothing] at read
  cases read

/- One session more. -/
theorem right_snoc (right : d.Right u) (host : Str) (port : Nat) :
    Right u { d with sessions := d.sessions ++ [(host, port)] } ↔
      ∀ minus m, Begins (PeoplesUrlParser.parseURL u).port minus m → (port : Int) = value minus m := by
  constructor
  · exact fun all => all (host, port) (List.mem_append_right _ List.mem_cons_self)
  · intro last s member
    rcases List.mem_append.mp member with before | new
    · exact right s before
    · rw [List.mem_singleton.mp new]
      exact last

theorem opens_iff (right : d.Right u) : (∃ d', d.opens u = some d' ∧ d'.Right u) ↔ Clean u v .opens := by
  simp only [opens, Clean]
  by_cases other : (PeoplesUrlParser.parseURL u).scheme ≠ httpScheme ∧ (PeoplesUrlParser.parseURL u).scheme ≠ httpsScheme
  · rw [if_pos other]
    constructor
    · exact fun _ web => absurd web (not_or.mpr other)
    · exact fun _ => ⟨d, rfl, right⟩
  · have web : (PeoplesUrlParser.parseURL u).scheme = httpScheme ∨ (PeoplesUrlParser.parseURL u).scheme = httpsScheme := by
      rwa [← not_or, not_not] at other
    rw [if_neg other]
    simp only [web, forall_const]
    by_cases none : (PeoplesUrlParser.parseURL u).port = []
    · simp only [none, if_true, Option.map_some, true_or, iff_true]
      refine ⟨_, rfl, (right_snoc right _ _).mpr fun minus m begins => ?_⟩
      rw [none] at begins
      exact absurd begins begins_nil
    · simp only [none, if_false, false_or, Option.map_map, Option.map_eq_some_iff]
      constructor
      · rintro ⟨d', ⟨n, read, rfl⟩, right'⟩
        obtain ⟨minus, m, begins, rfl, -⟩ := stoi_iff.mp read
        have same := (right_snoc right _ _).mp right' minus m begins
        exact ⟨minus, m, begins, toPort_iff.mp same⟩
      · rintro ⟨minus, m, begins, low, high⟩
        have read : stoi (PeoplesUrlParser.parseURL u).port = some (value minus m) :=
          stoi_iff.mpr ⟨minus, m, begins, rfl, by omega, by omega⟩
        refine ⟨_, ⟨value minus m, read, rfl⟩, (right_snoc right _ _).mpr fun minus' m' begins' => ?_⟩
        obtain ⟨rfl, rfl⟩ := begins.unique begins'
        exact toPort_iff.mpr ⟨low, high⟩

theorem onHeader_iff (right : d.Right u) : (∃ d', d.onHeader v = some d' ∧ d'.Right u) ↔ Clean u v .onHeader := by
  simp only [onHeader, Clean]
  by_cases total : 1 < (util_tokenize v slash).length
  · rw [if_pos total]
    simp only [total, forall_const, ← stoul_isSome_iff, Option.isSome_iff_exists, Option.map_eq_some_iff]
    constructor
    · rintro ⟨d', ⟨n, read, -⟩, -⟩
      exact ⟨n, read⟩
    · rintro ⟨n, read⟩
      exact ⟨_, ⟨n, read, rfl⟩, right⟩
  · rw [if_neg total]
    exact ⟨fun _ wrong => absurd wrong total, fun _ => ⟨_, rfl, right⟩⟩

/-- A call that is made where all is right neither aborts nor leaves a wrong port, if and only if its texts are clean. -/
theorem step_iff (right : d.Right u) (c : Conversion) : (∃ d', d.step u v c = some d' ∧ d'.Right u) ↔ Clean u v c := by
  cases c with
  | parseURL => exact ⟨fun _ => trivial, fun _ => ⟨d, rfl, right⟩⟩
  | getPort =>
    rw [← getPort_isSome_iff, Option.isSome_iff_exists]
    simp only [step, Option.map_eq_some_iff]
    constructor
    · rintro ⟨d', ⟨n, read, -⟩, -⟩
      exact ⟨n, read⟩
    · rintro ⟨n, read⟩
      exact ⟨d, ⟨n, read, rfl⟩, right⟩
  | opens => exact opens_iff right
  | onHeader => exact onHeader_iff right

end Device

end Meatloaf.Network
