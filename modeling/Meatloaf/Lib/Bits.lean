import Mathlib.Data.Nat.Bitwise
import Mathlib.Tactic.Ring

/-! Numbers read from a stream of bits, the most significant bit first, and the window that rolls over such a
stream. -/
namespace Meatloaf.Lib

variable {f g : Nat → Bool} {x y n : Nat}

/- The number in `n` bits from `x` on. -/
def word (f : Nat → Bool) (x : Nat) : Nat → Nat
  | 0 => 0
  | n + 1 => word f x n * 2 + (f (x + n)).toNat

theorem word_lt (f : Nat → Bool) (x n : Nat) : word f x n < 2 ^ n := by
  induction n with
  | zero => simp [word]
  | succ n ih =>
    have := Bool.toNat_lt (f (x + n))
    simp only [word, pow_succ]
    omega

theorem word_append (f : Nat → Bool) (x m n : Nat) :
    word f x (m + n) = word f x m * 2 ^ n + word f (x + m) n := by
  induction n with
  | zero => simp [word]
  | succ n ih =>
    rw [← Nat.add_assoc, word, ih, word, pow_succ, Nat.add_assoc x]
    ring

theorem word_congr (same : ∀ i < n, f (x + i) = g (y + i)) : word f x n = word g y n := by
  induction n with
  | zero => rfl
  | succ n ih => simp only [word, same n (by omega), ih fun i inside => same i (by omega)]

/- Equal numbers have equal bits. -/
theorem word_inj (same : word f x n = word g y n) : ∀ i < n, f (x + i) = g (y + i) := by
  induction n with
  | zero => simp
  | succ n ih =>
    intro i inside
    simp only [word] at same
    have lowF := Bool.toNat_lt (f (x + n))
    have lowG := Bool.toNat_lt (g (y + n))
    by_cases last : i = n
    · subst last
      have bits : (f (x + i)).toNat = (g (y + i)).toNat := by omega
      cases left : f (x + i) <;> cases right : g (y + i) <;> simp [left, right] at bits ⊢
    · exact ih (by omega) i (by omega)

theorem testBit_word (f : Nat → Bool) (x n : Nat) : ∀ i < n, (word f x n).testBit (n - 1 - i) = f (x + i) := by
  induction n with
  | zero => simp
  | succ n ih =>
    intro i inside
    have bit : word f x (n + 1) = Nat.bit (f (x + n)) (word f x n) := by
      rw [Nat.bit_val, word, Nat.mul_comm]
    rw [bit]
    by_cases last : i = n
    · subst last
      simp
    · obtain ⟨d, deep⟩ : ∃ d, n + 1 - 1 - i = d + 1 := ⟨n - 1 - i, by omega⟩
      rw [deep, Nat.testBit_bit_succ, ← ih i (by omega)]
      congr 1
      omega

/- The bits of a number spell it. -/
theorem word_testBit (v w : Nat) (small : v < 2 ^ w) :
    ∀ n ≤ w, word (fun i => v.testBit (w - 1 - i)) 0 n = v / 2 ^ (w - n) := by
  intro n
  induction n with
  | zero => simp [word, Nat.div_eq_of_lt small]
  | succ n ih =>
    intro inside
    have split : w - n = w - (n + 1) + 1 := by omega
    have place : w - 1 - (0 + n) = w - (n + 1) := by omega
    simp only [word, ih (by omega), place, Nat.toNat_testBit]
    rw [split, pow_succ, ← Nat.div_div_eq_div_mul]
    omega

/- Shifting a bit into a window of `n` bits. -/
theorem word_roll (f : Nat → Bool) (x t n : Nat) :
    (word f x t % 2 ^ n * 2 + (f (x + t)).toNat) % 2 ^ n = word f x (t + 1) % 2 ^ n := by
  rw [word, Nat.add_mod, Nat.mod_mul_mod, ← Nat.add_mod]

/- A window that has been filled holds the last bits. -/
theorem word_window (f : Nat → Bool) (x t n : Nat) : word f x (t + n) % 2 ^ n = word f (x + t) n := by
  rw [word_append, Nat.mul_add_mod_self_right, Nat.mod_eq_of_lt (word_lt f (x + t) n)]

/- No number of the list comes twice, and none is a bit of `seen`. -/
def distinctFrom : Nat → List Nat → Bool
  | _, [] => true
  | seen, n :: ns => !seen.testBit n && distinctFrom (seen ||| 1 <<< n) ns

/-- One pass over a list tells that its numbers are distinct. -/
theorem distinctFrom_spec {seen : Nat} {ns : List Nat} (distinct : distinctFrom seen ns = true) :
    ns.Nodup ∧ ∀ n ∈ ns, seen.testBit n = false := by
  induction ns generalizing seen with
  | nil => exact ⟨List.nodup_nil, nofun⟩
  | cons n ns ih =>
    rw [distinctFrom, Bool.and_eq_true, Bool.not_eq_true'] at distinct
    obtain ⟨nodup, unseen⟩ := ih distinct.2
    simp only [Nat.testBit_or, Bool.or_eq_false_iff] at unseen
    refine ⟨List.nodup_cons.mpr ⟨fun member => ?_, nodup⟩, ?_⟩
    · have bit := (unseen n member).2
      simp at bit
    · exact List.forall_mem_cons.mpr ⟨distinct.1, fun m member => (unseen m member).1⟩

end Meatloaf.Lib
