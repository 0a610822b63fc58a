import Mathlib.Data.Nat.Count
import Mathlib.Tactic.Linarith
import Meatloaf.Archive.ArcBits

/-! Modes 2 and 4 of an ARC entry: a table of Huffman codes comes first, and `huffin` decodes by it.
The lengths of the codes have five bits, of which the table accepts those up to 24. -/
namespace Meatloaf.Archive

open Lib Function

/- Falling values below `n`, and the same but for one place, whose value is no smaller than those behind it. -/
def Falling (f : Nat → Nat) (n : Nat) : Prop := ∀ a b, a ≤ b → b < n → f b ≤ f a

structure FallingExcept (f : Nat → Nat) (n i : Nat) : Prop where
  others : ∀ a b, a ≤ b → b < n → a ≠ i → b ≠ i → f b ≤ f a
  behind : ∀ b, i < b → b < n → f b ≤ f i

theorem FallingExcept.done {f : Nat → Nat} {n i : Nat} (except : FallingExcept f n i)
    (before : i = 0 ∨ f i ≤ f (i - 1)) : Falling f n := by
  intro a b order inside
  by_cases first : a = i
  · subst first
    by_cases same : b = a
    · rw [same]
    · exact except.behind b (by omega) inside
  · by_cases second : b = i
    · subst second
      rcases before with zero | smaller
      · omega
      · exact smaller.trans (except.others a (b - 1) (by omega) (by omega) first (by omega))
    · exact except.others a b order inside first second

/-- The value goes one place down. -/
theorem FallingExcept.swap {f : Nat → Nat} {n i : Nat} (except : FallingExcept f n i) (positive : 0 < i)
    (larger : f (i - 1) < f i) : FallingExcept (fun k => f (Equiv.swap (i - 1) i k)) n (i - 1) := by
  have here : f (Equiv.swap (i - 1) i (i - 1)) = f i := by rw [Equiv.swap_apply_left]
  have next : f (Equiv.swap (i - 1) i i) = f (i - 1) := by rw [Equiv.swap_apply_right]
  have other : ∀ k, k ≠ i - 1 → k ≠ i → f (Equiv.swap (i - 1) i k) = f k :=
    fun k apart apart' => by rw [Equiv.swap_apply_of_ne_of_ne apart apart']
  constructor
  · intro a b order inside notA notB
    by_cases first : a = i
    · subst first
      by_cases same : b = a
      · rw [same]
      · rw [next, other b notB same]
        exact except.others _ b (by omega) inside (by omega) same
    · by_cases second : b = i
      · subst second
        rw [next, other a notA first]
        exact except.others a _ (by omega) (by omega) first (by omega)
      · rw [other a notA first, other b notB second]
        exact except.others a b order inside first second
  · intro b order inside
    by_cases same : b = i
    · rw [here, same, next]
      exact larger.le
    · rw [here, other b (by omega) same]
      exact except.behind b (by omega) inside

namespace ArcTable

/- The rows of one table are those of another in some order, each row whole. -/
def Rearranged (t t' : ArcTable) : Prop :=
  ∃ σ : Equiv.Perm Nat, (∀ k, σ k < 256 ↔ k < 256) ∧
    ∀ k, t'.hc k = t.hc (σ k) ∧ t'.hl k = t.hl (σ k) ∧ t'.hv k = t.hv (σ k)

variable {t t' t'' : ArcTable} {n m i fuel : Nat}

theorem Rearranged.refl (t : ArcTable) : Rearranged t t := ⟨Equiv.refl Nat, fun _ => Iff.rfl, fun _ => ⟨rfl, rfl, rfl⟩⟩

theorem Rearranged.trans (first : Rearranged t t') (second : Rearranged t' t'') : Rearranged t t'' := by
  obtain ⟨σ, inside, rows⟩ := first
  obtain ⟨τ, inside', rows'⟩ := second
  refine ⟨τ.trans σ, fun k => (inside (τ k)).trans (inside' k), fun k => ?_⟩
  obtain ⟨hc, hl, hv⟩ := rows' k
  obtain ⟨hc', hl', hv'⟩ := rows (τ k)
  exact ⟨hc.trans hc', hl.trans hl', hv.trans hv'⟩

theorem exchange_rearranged {a b : Nat} (left : a < 256) (right : b < 256) : Rearranged t (t.exchange a b) := by
  refine ⟨Equiv.swap a b, fun k => ?_, fun _ => ⟨rfl, rfl, rfl⟩⟩
  by_cases first : k = a
  · subst first
    rw [Equiv.swap_apply_left]
    omega
  · by_cases second : k = b
    · subst second
      rw [Equiv.swap_apply_right]
      omega
    · rw [Equiv.swap_apply_of_ne_of_ne first second]

theorem sink_rearranged (positive : 0 < i) (inside : i + m ≤ 256) : Rearranged t (sink m fuel i t) := by
  induction fuel generalizing i t with
  | zero => exact .refl t
  | succ fuel ih =>
    have moved : Rearranged t (t.exchange (i - 1) (i + m - 1)) := exchange_rearranged (by omega) (by omega)
    rw [sink]
    split
    · split
      · exact moved.trans (ih (by omega) (by omega))
      · exact moved
    · exact .refl t

/-- Steps of one place put the row where it belongs. -/
theorem sink_falls (enough : i ≤ fuel) (positive : 0 < i) (except : FallingExcept t.hl n i) :
    Falling (sink 1 fuel i t).hl n := by
  induction fuel generalizing i t with
  | zero => omega
  | succ fuel ih =>
    rw [sink, Nat.add_sub_cancel]
    split
    · rename_i larger
      have moved := except.swap positive larger
      split
      · exact ih (by omega) (by omega) moved
      · exact moved.done (.inl (by omega))
    · exact except.done (.inr (by omega))

/-- One pass of the sort. -/
theorem pass_rearranged (m : Nat) (js : List Nat) (inside : ∀ j ∈ js, 0 < j ∧ j + m ≤ 256) :
    Rearranged t (js.foldl (fun t j => sink m j j t) t) := by
  induction js generalizing t with
  | nil => exact .refl t
  | cons j js ih =>
    rw [List.forall_mem_cons] at inside
    exact (sink_rearranged inside.1.1 inside.1.2).trans (ih inside.2)

theorem pass_falls (k j : Nat) (positive : 0 < j) (falling : Falling t.hl j) :
    Falling ((List.range' j k).foldl (fun t j => sink 1 j j t) t).hl (j + k) := by
  induction k generalizing j t with
  | zero => exact falling
  | succ k ih =>
    have except : FallingExcept t.hl (j + 1) j :=
      ⟨fun a b order inside _ apart => falling a b order (by omega), fun b order inside => by omega⟩
    have next := ih (j + 1) (by omega) (sink_falls (Nat.le_refl j) positive except)
    rw [List.range'_succ, List.foldl_cons]
    convert next using 1
    omega

theorem sortHuffman_spec (t : ArcTable) : Rearranged t t.sortHuffman ∧ Falling t.sortHuffman.hl 256 := by
  have pass : ∀ (t : ArcTable) (m : Nat), m ≤ 256 →
      Rearranged t ((List.range' 1 (256 - m)).foldl (fun t j => sink m j j t) t) := by
    intro t m small
    apply pass_rearranged
    intro j member
    rw [List.mem_range'_1] at member
    omega
  refine ⟨?_, ?_⟩
  · unfold sortHuffman
    have all : ∀ (ms : List Nat) (t : ArcTable), (∀ m ∈ ms, m ≤ 256) → Rearranged t
        (ms.foldl (fun t m => (List.range' 1 (256 - m)).foldl (fun t j => sink m j j t) t) t) := by
      intro ms
      induction ms with
      | nil => exact fun t _ => .refl t
      | cons m ms ih =>
        intro t small
        rw [List.forall_mem_cons] at small
        exact (pass t m small.1).trans (ih _ small.2)
    exact all _ t (by decide)
  · unfold sortHuffman
    rw [show [128, 64, 32, 16, 8, 4, 2, 1] = [128, 64, 32, 16, 8, 4, 2] ++ [1] from rfl, List.foldl_append]
    generalize [128, 64, 32, 16, 8, 4, 2].foldl _ t = u
    have single : Falling u.hl 1 := fun a b order inside => by rw [show b = a by omega]
    rw [List.foldl_cons, List.foldl_nil]
    exact pass_falls (256 - 1) 1 (by decide) single

end ArcTable

/- The row of a byte in the file: the length of its code, in five bits, and the code. -/
def rowBits (code : List Bool) : List Bool := (List.range 5).map code.length.testBit ++ code

/- The rows of `n` bytes from `w` on. -/
def rowsBits (codes : UInt8 → List Bool) : Nat → Nat → List Bool
  | 0, _ => []
  | n + 1, w => rowBits (codes (UInt8.ofNat w)) ++ rowsBits codes n (w + 1)

/- No code begins with the code of another byte. A byte without a code has the empty one. -/
def PrefixFree (codes : UInt8 → List Bool) : Prop := ∀ v w, codes v ≠ [] → codes v <+: codes w → v = w

theorem numberLE_inj {a b : List Bool} (long : a.length = b.length) (same : numberLE a = numberLE b) : a = b := by
  induction a generalizing b with
  | nil => exact (List.length_eq_zero_iff.mp long.symm).symm
  | cons x a ih =>
    cases b with
    | nil => cases long
    | cons y b =>
      have lowX := Bool.toNat_lt x
      have lowY := Bool.toNat_lt y
      rw [numberLE, numberLE] at same
      have rest := ih (by simpa using long) (by omega)
      have first : x.toNat = y.toNat := by omega
      rw [rest]
      cases x <;> cases y <;> simp at first ⊢

theorem numberLE_snoc (a : List Bool) (b : Bool) : numberLE (a ++ [b]) = numberLE a + 2 ^ a.length * b.toNat := by
  induction a with
  | nil => simp [numberLE]
  | cons x a ih =>
    rw [List.cons_append, numberLE, ih, numberLE, List.length_cons, pow_succ]
    ring

theorem numberLE_range (n v : Nat) (small : v < 2 ^ n) : numberLE ((List.range n).map v.testBit) = v := by
  induction n generalizing v with
  | zero =>
    have : v = 0 := by simpa using small
    simp [this, numberLE]
  | succ n ih =>
    have half : v / 2 < 2 ^ n := by rw [pow_succ] at small; omega
    have low : (v.testBit 0).toNat = v % 2 := by simpa using Nat.toNat_testBit v 0
    rw [ArcReader.range_succ_testBit, numberLE, ih _ half, low]
    omega

namespace ArcDecoder

open ArcTable

variable {codes : UInt8 → List Bool} {d e : ArcDecoder} {t : ArcTable} {n w last now : Nat} {rest : List Bool}

/- How many rows have a code. -/
def codedRows (t : ArcTable) : Nat := Nat.count (fun i => t.hl i ≠ 0) 256

/- As many calls of `huffin`, and the bytes they give. -/
def huffinAll : Nat → ArcDecoder → Option (List UInt8 × ArcDecoder)
  | 0, d => some ([], d)
  | n + 1, d => d.huffin.bind fun r => (huffinAll n r.2).map fun s => (r.1 :: s.1, s.2)

/- The table is read, and then a text, and nothing has run out. -/
def Decodes (d : ArcDecoder) (text : List UInt8) : Prop :=
  d.readHuffmanTable.1 = true ∧ ∃ e, d.readHuffmanTable.2.huffinAll text.length = some (text, e) ∧ e.eof = false

theorem readRow_count (w : Nat) (d : ArcDecoder) (accepted : (d.readRow w).1 = true) :
    (d.readRow w).2.hcount + 1 = d.hcount + (if (d.readRow w).2.hl w ≠ 0 then 1 else 0) ∧
      ∀ i < w, (d.readRow w).2.hl i = d.hl i := by
  rw [readRow] at accepted ⊢
  dsimp only at accepted ⊢
  split at accepted
  · cases accepted
  · rename_i short
    rw [if_neg short]
    split
    · rename_i empty
      refine ⟨?_, fun i below => update_of_ne (by omega) ..⟩
      simp [update_self, empty]
    · rename_i coded
      refine ⟨?_, fun i below => update_of_ne (by omega) ..⟩
      simp [update_self, coded]

/-- The rows with a code are counted. -/
theorem readRows_count (n w : Nat) (d : ArcDecoder) (accepted : (readRows n w d).1 = true) :
    (readRows n w d).2.hcount + n + Nat.count (fun i => (readRows n w d).2.hl i ≠ 0) w =
        d.hcount + Nat.count (fun i => (readRows n w d).2.hl i ≠ 0) (w + n) ∧
      ∀ i < w, (readRows n w d).2.hl i = d.hl i := by
  induction n generalizing w d with
  | zero => exact ⟨by rw [Nat.cast_zero, add_zero]; rfl, fun _ _ => rfl⟩
  | succ n ih =>
    rw [readRows] at accepted ⊢
    split at accepted
    · rename_i read
      rw [if_pos read]
      obtain ⟨one, same⟩ := readRow_count w d read
      obtain ⟨count, older⟩ := ih _ _ accepted
      refine ⟨?_, fun i below => (older i (by omega)).trans (same i below)⟩
      rw [← older w (Nat.lt_succ_self w)] at one
      rw [Nat.count_succ, Nat.add_right_comm w 1 n] at count
      push_cast at count ⊢
      rw [← Nat.add_assoc]
      linarith
    · rename_i unread
      exact absurd accepted unread

/- In a falling table the rows with a code come first. -/
theorem falling_count {f : Nat → Nat} (falling : Falling f n) {i : Nat} (inside : i < n) :
    f i ≠ 0 ↔ i < Nat.count (fun i => f i ≠ 0) n := by
  constructor
  · intro coded
    have all : Nat.count (fun i => f i ≠ 0) (i + 1) = i + 1 := by
      apply Nat.count_of_forall
      intro j below
      have := falling j i (by omega) inside
      omega
    have := Nat.count_monotone (fun i => f i ≠ 0) (show i + 1 ≤ n from inside)
    omega
  · intro below coded
    have none : Nat.count (fun k => f (i + k) ≠ 0) (n - i) = 0 := by
      apply Nat.count_of_forall_not
      intro k inside'
      have := falling i (i + k) (by omega) (by omega)
      simp only [ne_eq, not_not]
      omega
    have split := Nat.count_add (fun i => f i ≠ 0) i (n - i)
    rw [none, Nat.add_sub_cancel' inside.le] at split
    have := Nat.count_le (p := fun i => f i ≠ 0) (n := i)
    omega

theorem rearranged_count {t' : ArcTable} (rearranged : Rearranged t t') :
    codedRows t' = codedRows t := by
  obtain ⟨σ, inside, rows⟩ := rearranged
  rw [codedRows, codedRows, Nat.count_eq_card_filter_range, Nat.count_eq_card_filter_range]
  apply Finset.card_bij (fun i _ => σ i)
  · intro i member
    simp only [Finset.mem_filter, Finset.mem_range] at member ⊢
    exact ⟨(inside i).mpr member.1, (rows i).2.1 ▸ member.2⟩
  · intro i _ j _ same
    exact σ.injective same
  · intro i member
    simp only [Finset.mem_filter, Finset.mem_range] at member
    refine ⟨σ.symm i, ?_, σ.apply_symm_apply i⟩
    simp only [Finset.mem_filter, Finset.mem_range]
    refine ⟨(inside _).mp (by simpa using member.1), ?_⟩
    rw [(rows _).2.1, σ.apply_symm_apply]
    exact member.2

theorem readHuffmanTable_eq (d : ArcDecoder) (accepted : d.readHuffmanTable.1 = true) :
    (readRows 256 0 { d with hcount := 255 }).1 = true ∧
      d.readHuffmanTable.2 = { (readRows 256 0 { d with hcount := 255 }).2 with
        toArcTable := (readRows 256 0 { d with hcount := 255 }).2.toArcTable.sortHuffman } := by
  unfold readHuffmanTable at accepted ⊢
  generalize readRows 256 0 { d with hcount := 255 } = r at *
  dsimp only at accepted ⊢
  split at accepted
  · rename_i read
    exact ⟨read, by rw [if_pos read]⟩
  · cases accepted

/-- What is known of a table that was accepted, whatever its codes. -/
theorem readHuffmanTable_count (accepted : d.readHuffmanTable.1 = true) :
    Falling d.readHuffmanTable.2.hl 256 ∧
      d.readHuffmanTable.2.hcount + 1 = codedRows d.readHuffmanTable.2.toArcTable := by
  obtain ⟨read, result⟩ := readHuffmanTable_eq d accepted
  have count := (readRows_count 256 0 { d with hcount := 255 } read).1
  rw [Nat.count_zero, Nat.zero_add, Nat.cast_zero, add_zero, Nat.cast_ofNat] at count
  rw [result]
  generalize readRows 256 0 { d with hcount := 255 } = r at *
  have counted : r.2.hcount + 256 = 255 + codedRows r.2.toArcTable := count
  obtain ⟨rearranged, falling⟩ := sortHuffman_spec r.2.toArcTable
  have same := rearranged_count rearranged
  refine ⟨falling, ?_⟩
  dsimp only
  rw [same]
  linarith

/-- The last row that has a code. -/
theorem lastRow (falling : Falling t.hl 256) {i : Nat} (inside : i < 256) : t.hl i ≠ 0 ↔ i < codedRows t :=
  falling_count falling inside

theorem codedRows_le (t : ArcTable) : codedRows t ≤ 256 := Nat.count_le _

/-- A look at the rows stays in the table. -/
theorem matchRows_some (size hcode : Nat) (inside : now < 256) :
    ∃ m, matchRows t size hcode now = some m ∧ ∀ next, m = .shorter next → next ≤ now := by
  induction now with
  | zero =>
    refine ⟨_, rfl, fun next same => ?_⟩
    split at same
    · split at same <;> cases same
    · cases same
      exact Nat.le_refl _
  | succ now ih =>
    rw [matchRows, if_neg (by omega)]
    split
    · split
      · exact ⟨_, rfl, nofun⟩
      · obtain ⟨m, result, lower⟩ := ih (by omega)
        exact ⟨m, result, fun next same => (lower next same).trans (Nat.le_succ now)⟩
    · refine ⟨_, rfl, fun next same => ?_⟩
      cases same
      exact Nat.le_refl _

theorem huffinLoop_some (n size mask hcode : Nat) (d : ArcDecoder) (inside : now < 256) :
    ∃ r, huffinLoop n size mask hcode now d = some r ∧ r.2.toArcTable = d.toArcTable ∧ r.2.hcount = d.hcount := by
  induction n generalizing size mask hcode now d with
  | zero => exact ⟨_, rfl, rfl, rfl⟩
  | succ n ih =>
    rw [huffinLoop]
    dsimp only
    obtain ⟨m, result, lower⟩ := matchRows_some size (if d.toArcReader.getBit.1 then hcode ||| mask else hcode) inside
      (t := d.toArcTable)
    rw [result, Option.bind_some]
    cases m with
    | found v => exact ⟨_, rfl, rfl, rfl⟩
    | exhausted => exact ⟨_, rfl, rfl, rfl⟩
    | shorter next =>
      have below := lower next rfl
      exact ih _ _ _ { d with toArcReader := d.toArcReader.getBit.2 } (by omega)

/-- The rows that are looked at are rows of the table when there is a last one. -/
theorem huffinAll_isSome (last : d.hcount < 256) :
    (∀ n, (d.huffinAll n).isSome) ↔ 0 ≤ d.hcount := by
  constructor
  · intro all
    by_contra before
    have one := all 1
    rw [huffinAll, huffin, if_pos (by omega)] at one
    cases one
  · intro inside n
    induction n generalizing d with
    | zero => rfl
    | succ n ih =>
      obtain ⟨r, result, -, count⟩ := huffinLoop_some 23 1 1 0 d (show d.hcount.toNat < 256 by omega)
      rw [huffinAll, huffin, if_neg (by omega), result, Option.bind_some, Option.isSome_map]
      exact ih (count ▸ last) (count ▸ inside)

/- The rows of a table up to the last one with a code. -/
structure Serves (codes : UInt8 → List Bool) (t : ArcTable) (last : Nat) : Prop where
  small : last < 256
  rows : ∀ i ≤ last, codes (t.hv i) ≠ [] ∧ t.hl i = (codes (t.hv i)).length ∧ t.hc i = numberLE (codes (t.hv i))
  place : ∀ v, codes v ≠ [] → ∃ i ≤ last, t.hv i = v
  falling : ∀ i j, i ≤ j → j ≤ last → t.hl j ≤ t.hl i

variable {v : UInt8} {p q : List Bool} {i : Nat}

/-- No row of a length below that of the code matches. -/
theorem Serves.shorter (serves : Serves codes t last) (free : PrefixFree codes) (code : codes v = p ++ q) (more : q ≠ [])
    (inside : now ≤ last) (least : ∀ k ≤ now, p.length ≤ t.hl k) (ahead : i ≤ now) (row : t.hv i = v) :
    ∃ next ≤ now, matchRows t p.length (numberLE p) now = some (.shorter next) ∧ i ≤ next ∧
      ∀ k ≤ next, p.length + 1 ≤ t.hl k := by
  have positive := List.length_pos_iff.mpr more
  have length : t.hl i = p.length + q.length := by
    rw [(serves.rows i (ahead.trans inside)).2.1, row, code, List.length_append]
  -- a row of this length is not that of a beginning of the code
  have differs : ∀ k ≤ last, t.hl k = p.length → t.hc k ≠ numberLE p := by
    intro k row' long same
    obtain ⟨coded, length', number⟩ := serves.rows k row'
    have equal : codes (t.hv k) = p := numberLE_inj (length'.symm.trans long) (number.symm.trans same)
    have begins : codes (t.hv k) <+: codes v := equal ▸ code ▸ List.prefix_append p q
    have whole := congrArg List.length (equal.symm.trans ((congrArg codes (free _ v coded begins)).trans code))
    rw [List.length_append] at whole
    omega
  have longer : ∀ next ≤ last, t.hl next ≠ p.length → p.length ≤ t.hl next → ∀ k ≤ next, p.length + 1 ≤ t.hl k := by
    intro next below apart least k before
    have := serves.falling k next before below
    omega
  induction now with
  | zero =>
    obtain rfl : i = 0 := by omega
    refine ⟨0, Nat.le_refl _, ?_, Nat.le_refl _, longer 0 inside (by omega) (by omega)⟩
    rw [matchRows, if_neg (by omega)]
  | succ now ih =>
    have small := serves.small
    rw [matchRows, if_neg (by omega)]
    split
    · rename_i long
      rw [if_neg (differs _ inside long)]
      have before : i ≠ now + 1 := by
        rintro rfl
        omega
      obtain ⟨next, below, rest⟩ := ih (by omega) (fun k below => least k (by omega)) (by omega)
      exact ⟨next, by omega, rest⟩
    · rename_i long
      exact ⟨now + 1, Nat.le_refl _, rfl, ahead, longer _ inside long (least _ (Nat.le_refl _))⟩

/-- The row of a code is found at its length. -/
theorem Serves.found (serves : Serves codes t last) (free : PrefixFree codes) (code : codes v = p) (coded : p ≠ [])
    (inside : now ≤ last) (least : ∀ k ≤ now, p.length ≤ t.hl k) (ahead : i ≤ now) (row : t.hv i = v) :
    matchRows t p.length (numberLE p) now = some (.found v) := by
  have length : t.hl i = p.length := by rw [(serves.rows i (ahead.trans inside)).2.1, row, code]
  have number : t.hc i = numberLE p := by rw [(serves.rows i (ahead.trans inside)).2.2, row, code]
  have only : ∀ k ≤ last, t.hl k = p.length → t.hc k = numberLE p → t.hv k = v := by
    intro k row' long same
    obtain ⟨coded, length', number'⟩ := serves.rows k row'
    have equal : codes (t.hv k) = codes v := code ▸ numberLE_inj (length'.symm.trans long) (number'.symm.trans same)
    exact free _ v coded (equal ▸ List.prefix_rfl)
  induction now with
  | zero =>
    obtain rfl : i = 0 := by omega
    rw [matchRows, if_pos length, if_pos number, row]
  | succ now ih =>
    have small := serves.small
    have long : t.hl (now + 1) = p.length := by
      have := serves.falling i (now + 1) ahead inside
      have := least (now + 1) (Nat.le_refl _)
      omega
    rw [matchRows, if_neg (by omega), if_pos long]
    split
    · rename_i same
      rw [only _ inside long same]
    · rename_i apart
      have before : i ≠ now + 1 := by
        rintro rfl
        exact apart number
      exact ih (by omega) (fun k below => least k (by omega)) (by omega)

/-- The bits of a code, one after the other: its byte is found when there are lengths enough. -/
theorem Serves.loop (serves : Serves codes d.toArcTable last) (free : PrefixFree codes) (code : codes v = p ++ q)
    (more : q ≠ []) (inside : now ≤ last) (least : ∀ k ≤ now, p.length + 1 ≤ d.hl k) (ahead : i ≤ now)
    (row : d.hv i = v) (holds : d.Holds (q ++ rest)) (short : (codes v).length ≤ 24) :
    (q.length ≤ n → ∃ r, huffinLoop n (p.length + 1) (2 ^ p.length % 2 ^ 32) (numberLE p) now d =
      some (v, { d with toArcReader := r }) ∧ r.Holds rest) ∧
    (n < q.length → ∃ r, huffinLoop n (p.length + 1) (2 ^ p.length % 2 ^ 32) (numberLE p) now d = some r ∧
      r.2.eof = true) := by
  induction n generalizing d p q now with
  | zero =>
    have := List.length_pos_iff.mpr more
    exact ⟨fun enough => by omega, fun _ => ⟨_, rfl, rfl⟩⟩
  | succ n ih =>
    obtain ⟨b, q, rfl⟩ := List.exists_cons_of_ne_nil more
    obtain ⟨bit, next⟩ := holds.getBit
    have room := short
    rw [code, List.length_append, List.length_cons] at room
    have grown : (if b then numberLE p ||| 2 ^ p.length % 2 ^ 32 else numberLE p) = numberLE (p ++ [b]) := by
      rw [ArcReader.or_bit b (numberLE_lt p) (by omega), numberLE_snoc]
    have long : (p ++ [b]).length = p.length + 1 := by simp
    have code' : codes v = (p ++ [b]) ++ q := by simpa using code
    rw [huffinLoop, bit, grown, ArcReader.shift_mask (by omega), ← long]
    dsimp only
    by_cases last' : q = []
    · subst last'
      rw [List.append_nil] at code'
      have hit := serves.found free code' (by simp) inside (by simpa [long] using least) ahead row
      rw [hit, Option.bind_some]
      refine ⟨fun _ => ⟨d.toArcReader.getBit.2, rfl, next⟩, fun few => ?_⟩
      simp at few
    · obtain ⟨now', below, miss, ahead', least'⟩ :=
        serves.shorter free code' last' inside (by simpa [long] using least) ahead row
      rw [miss, Option.bind_some]
      have rest := ih (d := { d with toArcReader := d.toArcReader.getBit.2 }) serves code' last' (below.trans inside) least'
        ahead' row next
      simpa using rest

/-- A code of up to 23 bits is decoded, and one of 24 is not. -/
theorem Serves.huffin (serves : Serves codes d.toArcTable last) (count : d.hcount = last) (free : PrefixFree codes)
    (coded : codes v ≠ []) (short : (codes v).length ≤ 24) (holds : d.Holds (codes v ++ rest)) :
    ((codes v).length ≤ 23 → ∃ r, d.huffin = some (v, { d with toArcReader := r }) ∧ r.Holds rest) ∧
      (23 < (codes v).length → ∃ r, d.huffin = some r ∧ r.2.eof = true) := by
  obtain ⟨i, inside, row⟩ := serves.place v coded
  have start : d.huffin = huffinLoop 23 1 1 0 last d := by
    rw [ArcDecoder.huffin, if_neg (by omega), count, Int.toNat_natCast]
  have least : ∀ k ≤ last, ([] : List Bool).length + 1 ≤ d.hl k := by
    intro k below
    obtain ⟨coded', length, -⟩ := serves.rows k below
    rw [length]
    exact List.length_pos_iff.mpr coded'
  rw [start]
  exact serves.loop (p := []) free rfl coded (Nat.le_refl _) least inside row holds short

/-- A text of such codes. -/
theorem Serves.text (serves : Serves codes d.toArcTable last) (count : d.hcount = last) (free : PrefixFree codes)
    (text : List UInt8) (coded : ∀ v ∈ text, codes v ≠ []) (short : ∀ v, (codes v).length ≤ 23)
    (holds : d.Holds (text.flatMap codes ++ rest)) :
    ∃ e, d.huffinAll text.length = some (text, e) ∧ e.eof = false := by
  induction text generalizing d with
  | nil => exact ⟨d, rfl, holds.1⟩
  | cons v text ih =>
    rw [List.forall_mem_cons] at coded
    rw [List.flatMap_cons, List.append_assoc] at holds
    obtain ⟨r, first, left⟩ := (serves.huffin count free coded.1 ((short v).trans (by decide)) holds).1 (short v)
    obtain ⟨e, others, alive⟩ := ih (d := { d with toArcReader := r }) serves count coded.2 left
    exact ⟨e, by rw [List.length_cons, huffinAll, first, Option.bind_some, others]; rfl, alive⟩

/- The rows of a table in the order of the bytes. -/
def Listed (codes : UInt8 → List Bool) (t : ArcTable) (i : Nat) : Prop :=
  t.hl i = (codes (UInt8.ofNat i)).length ∧ t.hc i = numberLE (codes (UInt8.ofNat i)) ∧ t.hv i = UInt8.ofNat i

theorem readRow_spec (w : Nat) (short : (codes (UInt8.ofNat w)).length ≤ 24)
    (holds : d.Holds (rowBits (codes (UInt8.ofNat w)) ++ rest)) :
    (d.readRow w).1 = true ∧ (d.readRow w).2.Holds rest ∧ Listed codes (d.readRow w).2.toArcTable w ∧
      ∀ i ≠ w, (d.readRow w).2.hl i = d.hl i ∧ (d.readRow w).2.hc i = d.hc i ∧ (d.readRow w).2.hv i = d.hv i := by
  have five : (codes (UInt8.ofNat w)).length < 2 ^ 5 := Nat.lt_of_le_of_lt short (by decide)
  rw [rowBits, List.append_assoc] at holds
  obtain ⟨number, left⟩ := holds.getMasked (k := 0) (v := 0) _ (by decide) (by simp)
  rw [List.length_map, List.length_range, numberLE_range 5 _ five, Nat.zero_add, pow_zero, Nat.one_mul] at number
  rw [List.length_map, List.length_range] at left
  have length : (d.toArcReader.getMasked 5 1 0).1 = (codes (UInt8.ofNat w)).length := number
  rw [readRow]
  dsimp only
  rw [length, if_neg (by omega)]
  split
  · rename_i empty
    have none : codes (UInt8.ofNat w) = [] := List.length_eq_zero_iff.mp empty
    rw [none, List.nil_append] at left
    refine ⟨rfl, left, ⟨update_self .., ?_, update_self ..⟩, fun i apart => ?_⟩
    · rw [none]
      exact update_self ..
    · exact ⟨update_of_ne apart .., update_of_ne apart .., update_of_ne apart ..⟩
  · obtain ⟨code, left'⟩ := left.getMasked (k := 0) (v := 0) _ (by decide) (by omega)
    rw [pow_zero, Nat.zero_add, Nat.one_mul] at code
    refine ⟨rfl, left', ⟨update_self .., (update_self ..).trans code, update_self ..⟩, fun i apart => ?_⟩
    exact ⟨update_of_ne apart .., update_of_ne apart .., update_of_ne apart ..⟩

/-- The table as it is written is the table that is read. -/
theorem readRows_spec (short : ∀ v, (codes v).length ≤ 24) (n w : Nat) (d : ArcDecoder)
    (holds : d.Holds (rowsBits codes n w ++ rest)) :
    (readRows n w d).1 = true ∧ (readRows n w d).2.Holds rest ∧
      (∀ i, w ≤ i → i < w + n → Listed codes (readRows n w d).2.toArcTable i) ∧
      ∀ i < w, (readRows n w d).2.hl i = d.hl i ∧ (readRows n w d).2.hc i = d.hc i ∧ (readRows n w d).2.hv i = d.hv i := by
  induction n generalizing w d with
  | zero => exact ⟨rfl, holds, fun i _ _ => by omega, fun _ _ => ⟨rfl, rfl, rfl⟩⟩
  | succ n ih =>
    rw [rowsBits, List.append_assoc] at holds
    obtain ⟨read, left, here, others⟩ := readRow_spec w (short _) holds
    obtain ⟨all, last, listed, older⟩ := ih (w + 1) _ left
    rw [readRows, if_pos read]
    refine ⟨all, last, fun i from_w inside => ?_, fun i below => ?_⟩
    · by_cases same : i = w
      · subst same
        obtain ⟨hl, hc, hv⟩ := older i (Nat.lt_succ_self i)
        exact ⟨hl.trans here.1, hc.trans here.2.1, hv.trans here.2.2⟩
      · exact listed i (by omega) (by omega)
    · obtain ⟨hl, hc, hv⟩ := older i (by omega)
      obtain ⟨hl', hc', hv'⟩ := others i (by omega)
      exact ⟨hl.trans hl', hc.trans hc', hv.trans hv'⟩

/-- The rows of a table and their order, once it is sorted. -/
theorem serves_sorted (listed : ∀ i < 256, Listed codes t i) {t' : ArcTable} (rearranged : Rearranged t t')
    (falling : Falling t'.hl 256) (coded : ∃ v, codes v ≠ []) :
    0 < codedRows t' ∧ Serves codes t' (codedRows t' - 1) := by
  obtain ⟨σ, inside, rows⟩ := rearranged
  have few := codedRows_le t'
  have row : ∀ i < 256, codes (t'.hv i) = codes (UInt8.ofNat (σ i)) ∧ t'.hl i = (codes (t'.hv i)).length ∧
      t'.hc i = numberLE (codes (t'.hv i)) := by
    intro i below
    obtain ⟨hc, hl, hv⟩ := rows i
    obtain ⟨hl', hc', hv'⟩ := listed (σ i) ((inside i).mpr below)
    have same : t'.hv i = UInt8.ofNat (σ i) := hv.trans hv'
    rw [same]
    exact ⟨rfl, hl.trans hl', hc.trans hc'⟩
  have place : ∀ v, codes v ≠ [] → ∃ i < codedRows t', t'.hv i = v := by
    intro v nonempty
    have here : σ (σ.symm v.toNat) = v.toNat := σ.apply_symm_apply _
    have below : σ.symm v.toNat < 256 := (inside _).mp (by rw [here]; exact v.toNat_lt)
    have byte : t'.hv (σ.symm v.toNat) = v := by
      rw [(rows _).2.2, (listed _ ((inside _).mpr below)).2.2, here, UInt8.ofNat_toNat]
    refine ⟨_, (lastRow falling below).mp ?_, byte⟩
    rw [(row _ below).2.1, byte]
    exact fun empty => nonempty (List.length_eq_zero_iff.mp empty)
  obtain ⟨v, nonempty⟩ := coded
  obtain ⟨i, below, -⟩ := place v nonempty
  refine ⟨by omega, by omega, fun k last => ?_, fun w nonempty => ?_, fun k l order last => falling k l order (by omega)⟩
  · have known := row k (by omega)
    refine ⟨?_, known.2⟩
    have present := (lastRow falling (show k < 256 by omega)).mpr (by omega)
    rw [known.2.1] at present
    exact fun empty => present (by rw [empty]; rfl)
  · obtain ⟨k, last, byte⟩ := place w nonempty
    exact ⟨k, by omega, byte⟩

/- A table as it is written is accepted. -/
theorem readHuffmanTable_accepted (short : ∀ v, (codes v).length ≤ 24)
    (holds : d.Holds (rowsBits codes 256 0 ++ rest)) : d.readHuffmanTable.1 = true := by
  obtain ⟨read, left, -⟩ := readRows_spec short 256 0 { d with hcount := 255 } holds
  rw [readHuffmanTable]
  generalize readRows 256 0 { d with hcount := 255 } = r at *
  dsimp only
  rw [if_pos read, left.1]
  rfl

/-- Behind the table. -/
theorem readHuffmanTable_spec (short : ∀ v, (codes v).length ≤ 24) (coded : ∃ v, codes v ≠ [])
    (holds : d.Holds (rowsBits codes 256 0 ++ rest)) :
    d.readHuffmanTable.1 = true ∧ d.readHuffmanTable.2.Holds rest ∧
      ∃ last, d.readHuffmanTable.2.hcount = (last : Nat) ∧ Serves codes d.readHuffmanTable.2.toArcTable last := by
  obtain ⟨-, left, listed, -⟩ := readRows_spec short 256 0 { d with hcount := 255 } holds
  have accepted := readHuffmanTable_accepted short holds
  have count := (readHuffmanTable_count accepted).2
  obtain ⟨-, result⟩ := readHuffmanTable_eq d accepted
  rw [result] at count ⊢
  generalize readRows 256 0 { d with hcount := 255 } = r at *
  dsimp only at count ⊢
  obtain ⟨rearranged, falling⟩ := sortHuffman_spec r.2.toArcTable
  obtain ⟨positive, serves⟩ := serves_sorted (fun i below => listed i (Nat.zero_le i) (by omega)) rearranged falling coded
  exact ⟨accepted, left, _, by omega, serves⟩

/- A file with the table, and a byte whose code has 24 bits. -/
theorem undecoded (free : PrefixFree codes) (short : ∀ v, (codes v).length ≤ 24) (long : 23 < (codes v).length) :
    ∃ (d : ArcDecoder) (rest : List Bool), d.Holds (rowsBits codes 256 0 ++ ([v].flatMap codes ++ rest)) ∧
      ¬ d.Decodes [v] := by
  have nonempty : codes v ≠ [] := by
    intro empty
    rw [empty] at long
    exact absurd long (by decide)
  obtain ⟨pad, packed⟩ := bytesBits_pack (rowsBits codes 256 0 ++ [v].flatMap codes)
  let d : ArcDecoder := { input := pack (rowsBits codes 256 0 ++ [v].flatMap codes) }
  have holds : d.Holds (rowsBits codes 256 0 ++ ([v].flatMap codes ++ pad)) := by
    have start := ArcReader.holds_start (pack (rowsBits codes 256 0 ++ [v].flatMap codes)) 0
    rw [List.drop_zero, packed, List.append_assoc] at start
    exact start
  refine ⟨d, pad, holds, ?_⟩
  rintro ⟨-, e, read, alive⟩
  obtain ⟨-, left, last, count, serves⟩ := readHuffmanTable_spec short ⟨v, nonempty⟩ holds
  rw [List.flatMap_cons, List.flatMap_nil, List.append_nil] at left
  obtain ⟨r, called, ended⟩ := (serves.huffin count free nonempty (short v) left).2 long
  rw [List.length_singleton, huffinAll, called, Option.bind_some] at read
  simp only [huffinAll, Option.map_some, Option.some.injEq, Prod.mk.injEq] at read
  rw [← read.2, ended] at alive
  cases alive

/-- The rows that are looked at are rows of the table when one of them has a code. -/
theorem huffinAll_iff (accepted : d.readHuffmanTable.1 = true) :
    (∀ n, (d.readHuffmanTable.2.huffinAll n).isSome) ↔ ∃ w < 256, d.readHuffmanTable.2.hl w ≠ 0 := by
  obtain ⟨falling, count⟩ := readHuffmanTable_count accepted
  have few := codedRows_le d.readHuffmanTable.2.toArcTable
  rw [huffinAll_isSome (by omega)]
  constructor
  · intro inside
    exact ⟨0, by decide, (lastRow falling (by decide)).mpr (by omega)⟩
  · rintro ⟨w, below, present⟩
    have := (lastRow falling below).mp present
    omega

/-- Every text over the codes of a table is decoded exactly when no code has 24 bits; and the rows
that are looked at are in the table exactly when one of them has a code. -/
theorem huffin_iff (codes : UInt8 → List Bool) (table : ArcDecoder) :
    (PrefixFree codes → (∀ v, (codes v).length ≤ 24) → (∃ v, codes v ≠ []) →
      ((∀ text : List UInt8, (∀ v ∈ text, codes v ≠ []) → ∀ (d : ArcDecoder) (rest : List Bool),
          d.Holds (rowsBits codes 256 0 ++ (text.flatMap codes ++ rest)) → d.Decodes text) ↔
        ∀ v, (codes v).length ≤ 23)) ∧
    (table.readHuffmanTable.1 = true →
      ((∀ n, (table.readHuffmanTable.2.huffinAll n).isSome) ↔ ∃ w < 256, table.readHuffmanTable.2.hl w ≠ 0)) := by
  refine ⟨fun free short coded => ⟨fun decodes v => ?_, ?_⟩, huffinAll_iff⟩
  · by_contra long
    obtain ⟨d, rest, holds, fails⟩ := undecoded (v := v) free short (by omega)
    refine fails (decodes [v] ?_ d rest holds)
    rw [List.forall_mem_singleton]
    intro empty
    rw [empty] at long
    exact long (Nat.zero_le _)
  · intro shorter text members d rest holds
    obtain ⟨accepted, left, last, count, serves⟩ := readHuffmanTable_spec short coded holds
    exact ⟨accepted, serves.text count free text members shorter left⟩

/- No byte of an empty table has a code after the sort either. -/
theorem unlisted_sorted {t : ArcTable} (listed : ∀ i < 256, Listed (fun _ => []) t i) : t.sortHuffman.hl 0 = 0 := by
  obtain ⟨σ, inside, rows⟩ := (sortHuffman_spec t).1
  have row := (inside 0).mpr (by decide)
  exact (rows 0).2.1.trans (listed (σ 0) row).1

theorem huffin_outside (negative : d.hcount < 0) : d.huffin = none := if_pos negative

/-- A table in which no byte has a code is accepted, and `huffin` begins before its first row. -/
theorem huffin_empty (holds : d.Holds (rowsBits (fun _ => []) 256 0 ++ rest)) :
    d.readHuffmanTable.1 = true ∧ d.readHuffmanTable.2.huffin = none := by
  have short : ∀ v : UInt8, ((fun _ => []) v : List Bool).length ≤ 24 := fun _ => Nat.zero_le _
  obtain ⟨-, -, listed, -⟩ := readRows_spec short 256 0 { d with hcount := 255 } holds
  have accepted := readHuffmanTable_accepted short holds
  have count := (readHuffmanTable_count accepted).2
  have falling := (readHuffmanTable_count accepted).1
  refine ⟨accepted, ?_⟩
  obtain ⟨-, result⟩ := readHuffmanTable_eq d accepted
  rw [result] at count falling ⊢
  generalize readRows 256 0 { d with hcount := 255 } = r at *
  dsimp only at count falling ⊢
  have zero := unlisted_sorted fun i below => listed i (Nat.zero_le i) (by omega)
  have empty : ¬ 0 < codedRows r.2.sortHuffman := fun present => (lastRow falling (by decide)).mpr present zero
  apply huffin_outside
  dsimp only
  omega

theorem rowsBits_empty (n w : Nat) : rowsBits (fun _ => []) n w = List.replicate (5 * n) false := by
  induction n generalizing w with
  | zero => rfl
  | succ n ih =>
    rw [rowsBits, ih, Nat.mul_succ, Nat.add_comm, ← List.replicate_append_replicate]
    rfl

theorem bytesBits_zeros (n : Nat) : bytesBits (List.replicate n 0) = List.replicate (8 * n) false := by
  induction n with
  | zero => rfl
  | succ n ih =>
    rw [List.replicate_succ, bytesBits, List.flatMap_cons, ← bytesBits, ih, Nat.mul_succ, Nat.add_comm,
      ← List.replicate_append_replicate]
    rfl

/- One byte has a code, and that has 24 bits. -/
def longCode (v : UInt8) : List Bool := if v = 0x41 then List.replicate 24 false else []

/- A table without codes: 160 bytes of zeros. -/
def emptyTable : ArcDecoder := { input := List.replicate 160 0 }

theorem long_code :
    ¬ (∀ codes : UInt8 → List Bool, PrefixFree codes → (∀ v, (codes v).length ≤ 24) → (∃ v, codes v ≠ []) →
      ∀ text : List UInt8, (∀ v ∈ text, codes v ≠ []) → ∀ (d : ArcDecoder) (rest : List Bool),
        d.Holds (rowsBits codes 256 0 ++ (text.flatMap codes ++ rest)) → d.Decodes text) ∧
    emptyTable.readHuffmanTable.1 = true ∧ emptyTable.readHuffmanTable.2.huffin = none := by
  constructor
  · intro decodes
    have nonempty : ∀ v, longCode v ≠ [] → v = 0x41 := by
      intro v coded
      by_contra other
      exact coded (if_neg other)
    have free : PrefixFree longCode := by
      intro v w coded begins
      rw [nonempty v coded]
      refine (nonempty w fun empty => coded ?_).symm
      rw [empty] at begins
      exact List.prefix_nil.mp begins
    have short : ∀ v, (longCode v).length ≤ 24 := by
      intro v
      unfold longCode
      split <;> decide
    obtain ⟨d, rest, holds, fails⟩ := undecoded (v := 0x41) free short (by decide)
    have coded : ∀ v ∈ [0x41], longCode v ≠ [] := List.forall_mem_singleton.mpr (by decide)
    exact fails (decodes longCode free short ⟨0x41, by decide⟩ [0x41] coded d rest holds)
  · have holds : emptyTable.Holds (rowsBits (fun _ => []) 256 0 ++ []) := by
      have bits : rowsBits (fun _ => []) 256 0 ++ [] = bytesBits ((List.replicate 160 0).drop 0) := by
        simp only [List.append_nil, rowsBits_empty, List.drop_zero, bytesBits_zeros, Nat.reduceMul]
      rw [bits]
      exact ArcReader.holds_start (List.replicate 160 0) 0
    exact huffin_empty holds

end ArcDecoder

end Meatloaf.Archive
