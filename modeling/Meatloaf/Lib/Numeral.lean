import Mathlib.Data.Nat.Basic
import Mathlib.Tactic.Ring

/-! Numerals of variable length, the least digit first. Every place has a threshold. A digit below it is the
last one, and the digits from it on count the place. -/
namespace Meatloaf.Lib

variable {α : Type*} {digit : α → Option Nat} {t : Nat → Nat} {base limit : Nat}

/-- A numeral from a place on, with its value and the weight of its last digit. -/
inductive Numeral (digit : α → Option Nat) (t : Nat → Nat) (base : Nat) : Nat → List α → Nat → Nat → Prop
  | last {j : Nat} {a : α} {d : Nat} : digit a = some d → d < t j → Numeral digit t base j [a] d 1
  | more {j : Nat} {a : α} {d : Nat} {text : List α} {v weight : Nat} : digit a = some d → t j ≤ d →
      Numeral digit t base (j + 1) text v weight →
      Numeral digit t base j (a :: text) (d + (base - t j) * v) ((base - t j) * weight)

/-- A numeral is read from a place on, whose weight is `w`, into a number that is `i` so far. No number may
be above the limit. -/
def readNumeral (digit : α → Option Nat) (t : Nat → Nat) (base limit : Nat) :
    Nat → Nat → Nat → List α → Option (Nat × List α)
  | _, _, _, [] => none
  | j, w, i, a :: rest =>
    match digit a with
    | none => none
    | some d =>
      if (limit - i) / w < d then none
      else if d < t j then some (i + d * w, rest)
      else if limit / (base - t j) < w then none
      else readNumeral digit t base limit (j + 1) (w * (base - t j)) (i + d * w) rest

/-- The digits of a number, from a place on. -/
def writeNumeral (t : Nat → Nat) (base : Nat) : Nat → Nat → Nat → List Nat
  | 0, _, _ => []
  | turns + 1, j, q =>
    if q < t j then [q]
    else (t j + (q - t j) % (base - t j)) :: writeNumeral t base turns (j + 1) ((q - t j) / (base - t j))

theorem Numeral.ne_nil {j : Nat} {text : List α} {v weight : Nat} (numeral : Numeral digit t base j text v weight) :
    text ≠ [] := by
  cases numeral with
  | last _ _ => simp
  | more _ _ _ => simp

theorem Numeral.weighs (small : ∀ j, t j < base) {j : Nat} {text : List α} {v weight : Nat}
    (numeral : Numeral digit t base j text v weight) : 0 < weight := by
  induction numeral with
  | last _ _ => exact Nat.one_pos
  | more _ _ _ ih => exact Nat.mul_pos (Nat.sub_pos_of_lt (small _)) ih

/-- What is read is a numeral, whose value and weight are within the limit. -/
theorem readNumeral_some (small : ∀ j, t j < base) {s : List α} {j w i x : Nat} {rest : List α} (positive : 0 < w)
    (inside : i ≤ limit) (light : w ≤ limit) (read : readNumeral digit t base limit j w i s = some (x, rest)) :
    ∃ text v weight, s = text ++ rest ∧ Numeral digit t base j text v weight ∧ x = i + w * v ∧ x ≤ limit ∧
      w * weight ≤ limit := by
  induction s generalizing j w i with
  | nil => cases read
  | cons a s ih =>
    have places : 0 < base - t j := Nat.sub_pos_of_lt (small j)
    rw [readNumeral] at read
    cases known : digit a with
    | none => simp [known] at read
    | some d =>
      simp only [known, Nat.div_lt_iff_lt_mul positive, Nat.div_lt_iff_lt_mul places] at read
      split at read
      · cases read
      · rename_i sum
        split at read
        · rename_i last
          cases read
          refine ⟨[a], d, 1, rfl, .last known last, ?_, ?_, ?_⟩
          · rw [Nat.mul_comm]
          · omega
          · omega
        · rename_i more
          split at read
          · cases read
          · rename_i heavy
            have next := ih (Nat.mul_pos positive places) (by omega) (Nat.not_lt.mp heavy) read
            obtain ⟨text, v, weight, join, numeral, value, within, weighed⟩ := next
            refine ⟨a :: text, _, _, by rw [join, List.cons_append], .more known (Nat.not_lt.mp more) numeral, ?_, within, ?_⟩
            · rw [value]
              ring
            · rw [← Nat.mul_assoc]
              exact weighed

/-- A numeral whose value and weight are within the limit is read. -/
theorem Numeral.read (small : ∀ j, t j < base) {j : Nat} {text : List α} {v weight : Nat}
    (numeral : Numeral digit t base j text v weight) {w i : Nat} (positive : 0 < w) (value : i + w * v ≤ limit)
    (light : w * weight ≤ limit) (rest : List α) :
    readNumeral digit t base limit j w i (text ++ rest) = some (i + w * v, rest) := by
  induction numeral generalizing w i with
  | last known last =>
    rename_i j a d
    have sum : ¬ limit - i < d * w := by
      rw [Nat.mul_comm]
      omega
    rw [List.cons_append, readNumeral]
    simp only [known, Nat.div_lt_iff_lt_mul positive, if_neg sum, if_pos last, List.nil_append, Nat.mul_comm]
  | more known more numeral ih =>
    rename_i j a d text v weight
    have places : 0 < base - t j := Nat.sub_pos_of_lt (small j)
    have whole : i + d * w + w * (base - t j) * v = i + w * (d + (base - t j) * v) := by ring
    have sum : ¬ limit - i < d * w := by omega
    have counted := numeral.weighs small
    have heavy : ¬ limit < w * (base - t j) := by
      rw [← Nat.mul_assoc] at light
      exact Nat.not_lt.mpr (Nat.le_trans (Nat.le_mul_of_pos_right _ counted) light)
    rw [List.cons_append, readNumeral]
    simp only [known, Nat.div_lt_iff_lt_mul positive, if_neg sum, if_neg (Nat.not_lt.mpr more),
      Nat.div_lt_iff_lt_mul places, if_neg heavy]
    rw [ih (Nat.mul_pos positive places) (whole.symm ▸ value) (by rw [Nat.mul_assoc]; exact light), whole]

theorem writeNumeral_lt (small : ∀ j, t j < base) (turns j q : Nat) : ∀ d ∈ writeNumeral t base turns j q, d < base := by
  induction turns generalizing j q with
  | zero => simp [writeNumeral]
  | succ turns ih =>
    have below := small j
    rw [writeNumeral]
    split
    · rw [List.forall_mem_singleton]
      omega
    · have digit_ : (q - t j) % (base - t j) < base - t j := Nat.mod_lt _ (by omega)
      rw [List.forall_mem_cons]
      exact ⟨by omega, ih _ _⟩

/-- What is written is a numeral. -/
theorem writeNumeral_numeral (positive : ∀ j, 0 < t j) (small : ∀ j, t j < base) {char : Nat → α}
    (known : ∀ d < base, digit (char d) = some d) {turns j q : Nat} (enough : q < turns) :
    ∃ weight, Numeral digit t base j ((writeNumeral t base turns j q).map char) q weight ∧ weight ≤ max 1 (base * q) := by
  induction turns generalizing j q with
  | zero => omega
  | succ turns ih =>
    rw [writeNumeral]
    have places : 0 < base - t j := Nat.sub_pos_of_lt (small j)
    split
    · rename_i last
      exact ⟨1, .last (known q (Nat.lt_trans last (small j))) last, Nat.le_max_left _ _⟩
    · rename_i more
      have counted := positive j
      have rest : (q - t j) / (base - t j) ≤ q - t j := Nat.div_le_self _ _
      obtain ⟨weight, numeral, light⟩ := ih (j := j + 1) (q := (q - t j) / (base - t j)) (by omega)
      have digit_ : (q - t j) % (base - t j) < base - t j := Nat.mod_lt _ places
      have value : t j + (q - t j) % (base - t j) + (base - t j) * ((q - t j) / (base - t j)) = q := by
        have parts := Nat.mod_add_div (q - t j) (base - t j)
        omega
      have whole := Numeral.more (known _ (by omega)) (Nat.le_add_right (t j) ((q - t j) % (base - t j))) numeral
      rw [value] at whole
      refine ⟨_, whole, Nat.le_trans ?_ (Nat.le_max_right _ _)⟩
      -- the weight grows as the number shrinks
      have shrunk : (base - t j) * ((q - t j) / (base - t j)) ≤ q := by omega
      rcases Nat.le_total (base * ((q - t j) / (base - t j))) 1 with one | big
      · rw [Nat.max_eq_left one] at light
        calc (base - t j) * weight ≤ base * 1 := Nat.mul_le_mul (Nat.sub_le _ _) light
          _ ≤ base * q := Nat.mul_le_mul_left base (by omega)
      · rw [Nat.max_eq_right big] at light
        calc (base - t j) * weight ≤ (base - t j) * (base * ((q - t j) / (base - t j))) := Nat.mul_le_mul_left _ light
          _ = base * ((base - t j) * ((q - t j) / (base - t j))) := by ring
          _ ≤ base * q := Nat.mul_le_mul_left base shrunk

end Meatloaf.Lib
