import Mathlib.Data.List.Basic
import Mathlib.Tactic.Ring

/-! Welch's compression: a text is cut into phrases, each of them a single symbol or an entry of a
table, and each entry is a phrase with the first symbol of the next one. The codes of the entries
begin at `first`; the table has at most `limit` of them. -/
namespace Meatloaf.Lib.Lzw

variable {α : Type*}

/- What a list of phrases puts into the table. -/
def entries : List (List α) → List (List α)
  | v :: w :: rest => (v ++ w.take 1) :: entries (w :: rest)
  | _ => []

/- Phrases and codes that may follow the phrases `ws`. The entry of a phrase may be the one it completes itself. -/
inductive Continues (symbol : α → Nat) (first limit : Nat) : List (List α) → List (List α) → List Nat → Prop
  | nil {ws : List (List α)} : Continues symbol first limit ws [] []
  | symbol {ws us : List (List α)} {ks : List Nat} {a : α} (rest : Continues symbol first limit (ws ++ [[a]]) us ks) :
    Continues symbol first limit ws ([a] :: us) (symbol a :: ks)
  | entry {ws us : List (List α)} {ks : List Nat} {w : List α} {j : Nat} (room : j < limit)
    (found : (entries (ws ++ [w]))[j]? = some w) (rest : Continues symbol first limit (ws ++ [w]) us ks) :
    Continues symbol first limit ws (w :: us) ((first + j) :: ks)

section Encoder

variable [DecidableEq α] (symbol : α → Nat) (first limit : Nat)

def codeOf (table : List (List α)) : List α → Nat
  | [a] => symbol a
  | w => first + table.idxOf w

/- The encoder, with what it has of the next phrase. -/
def welch : List α → List (List α) → List α → List Nat
  | [], table, w => [codeOf symbol first table w]
  | a :: rest, table, w =>
    if w ++ [a] ∈ table then welch rest table (w ++ [a])
    else codeOf symbol first table w :: welch rest (if table.length < limit then table ++ [w ++ [a]] else table) [a]

def encode : List α → List Nat
  | [] => []
  | a :: rest => welch symbol first limit rest [] [a]

end Encoder

variable {symbol : α → Nat} {first limit : Nat} {ws us : List (List α)} {ks : List Nat} {v w : List α}

theorem entries_snoc (ws : List (List α)) (v w : List α) :
    entries (ws ++ [v, w]) = entries (ws ++ [v]) ++ [v ++ w.take 1] := by
  induction ws with
  | nil => rfl
  | cons u ws ih =>
    cases ws with
    | nil => rfl
    | cons t ws =>
      simp only [List.cons_append, entries] at ih ⊢
      rw [ih]

theorem length_entries (ws : List (List α)) : (entries ws).length = ws.length - 1 := by
  induction ws with
  | nil => rfl
  | cons u ws ih =>
    cases ws with
    | nil => rfl
    | cons t ws =>
      rw [entries, List.length_cons, ih]
      rfl

/- The table has no more of the last phrase than its first symbol. -/
theorem entries_grow (ws : List (List α)) (nonempty : w ≠ []) (t : List α) :
    entries (ws ++ [w ++ t]) = entries (ws ++ [w]) := by
  rcases List.eq_nil_or_concat ws with rfl | ⟨init, v, rfl⟩
  · rfl
  · have same : (w ++ t).take 1 = w.take 1 := by
      cases w with
      | nil => exact absurd rfl nonempty
      | cons a w => rfl
    simp only [List.concat_eq_append, List.append_assoc, List.cons_append, List.nil_append, entries_snoc, same]

/-- An entry is a phrase and the first symbol of the next. -/
theorem entries_get {j : Nat} (found : (entries ws)[j]? = some w) :
    ∃ u v, ws[j]? = some u ∧ ws[j + 1]? = some v ∧ w = u ++ v.take 1 := by
  induction ws generalizing j with
  | nil => simp [entries] at found
  | cons a ws ih =>
    cases ws with
    | nil => simp [entries] at found
    | cons b ws =>
      cases j with
      | zero => exact ⟨a, b, rfl, rfl, by simpa [entries] using found.symm⟩
      | succ j => simpa [entries] using ih (by simpa [entries] using found)

theorem entries_get_lt {j : Nat} (found : (entries (ws ++ [w]))[j]? = some v) : j < ws.length := by
  have inside := (List.getElem?_eq_some_iff.mp found).1
  rw [length_entries, List.length_append] at inside
  simpa using inside

/- Entries that were there before the last phrase, and the one it makes. -/
theorem entries_get_snoc (ws : List (List α)) (v w : List α) (j : Nat) :
    (entries (ws ++ [v, w]))[j]? =
      if j < ws.length then (entries (ws ++ [v]))[j]? else if j = ws.length then some (v ++ w.take 1) else none := by
  have long : (entries (ws ++ [v])).length = ws.length := by simp [length_entries]
  rw [entries_snoc, List.getElem?_append, long]
  split
  · rfl
  · split
    · simp_all
    · rw [List.getElem?_eq_none]
      simp only [List.length_singleton]
      omega

theorem flatten_take_le (ws : List (List α)) (n : Nat) : (ws.take n).flatten.length ≤ ws.flatten.length := by
  have whole := congrArg (fun ws => ws.flatten.length) (List.take_append_drop n ws)
  simp only [List.flatten_append, List.length_append] at whole
  omega

/-- A phrase as long as `n` follows one of length `n - 1` before it, and so on down to one symbol:
together they have taken `n * (n + 1) / 2` symbols of the text. -/
def Triangular (ws : List (List α)) : Prop :=
  ∀ i w, ws[i]? = some w → w.length * (w.length + 1) ≤ 2 * (ws.take (i + 1)).flatten.length

theorem Triangular.snoc (known : Triangular ws)
    (made : w.length = 1 ∨ ∃ j : Nat, (entries (ws ++ [w]))[j]? = some w) : Triangular (ws ++ [w]) := by
  intro i u at_i
  by_cases older : i < ws.length
  · rw [List.getElem?_append_left older] at at_i
    rw [List.take_append_of_le_length (by omega)]
    exact known i u at_i
  · have last : i = ws.length := by
      have := (List.getElem?_eq_some_iff.mp at_i).1
      rw [List.length_append, List.length_singleton] at this
      omega
    subst last
    have same : w = u := by simpa using at_i
    subst same
    rw [List.take_of_length_le (by simp), List.flatten_append, List.length_append, List.flatten_singleton]
    rcases made with single | ⟨j, found⟩
    · rw [single]
      omega
    · obtain ⟨v, t, at_j, -, split⟩ := entries_get found
      have inside := entries_get_lt found
      rw [List.getElem?_append_left inside] at at_j
      have shorter := known j v at_j
      have part := flatten_take_le ws (j + 1)
      have longer : w.length ≤ v.length + 1 := by
        rw [split, List.length_append, List.length_take]
        omega
      calc w.length * (w.length + 1) = w.length * (w.length - 1) + 2 * w.length := by
            cases w.length with
            | zero => rfl
            | succ n => simp only [Nat.add_sub_cancel]; ring
        _ ≤ (v.length + 1) * v.length + 2 * w.length := by
            have := Nat.mul_le_mul longer (show w.length - 1 ≤ v.length by omega)
            omega
        _ ≤ 2 * (ws.flatten.length + w.length) := by
            rw [Nat.mul_comm (v.length + 1)]
            omega

theorem Continues.triangular (continues : Continues symbol first limit ws us ks) (known : Triangular ws) :
    Triangular (ws ++ us) := by
  induction continues with
  | nil => simpa using known
  | symbol _ ih => simpa using ih (Triangular.snoc known (.inl rfl))
  | entry _ found _ ih => simpa using ih (Triangular.snoc known (.inr ⟨_, found⟩))

/-- How long the phrases of a text are. -/
theorem Continues.length_le (continues : Continues symbol first limit [] us ks) (member : w ∈ us) :
    w.length * (w.length + 1) ≤ 2 * us.flatten.length := by
  have known : Triangular us := by simpa using continues.triangular (by simp [Triangular])
  obtain ⟨i, at_i⟩ := List.mem_iff_getElem?.mp member
  have part := flatten_take_le us (i + 1)
  exact (known i w at_i).trans (by omega)

section Encoder

variable [DecidableEq α] {table : List (List α)}

/- The phrase that has been collected can be written. -/
theorem codeOf_continues (kept : table = (entries (ws ++ [w])).take limit) (coded : w.length = 1 ∨ w ∈ table)
    (rest : Continues symbol first limit (ws ++ [w]) us ks) :
    Continues symbol first limit ws (w :: us) (codeOf symbol first table w :: ks) := by
  by_cases single : w.length = 1
  · obtain ⟨a, rfl⟩ := List.length_eq_one_iff.mp single
    exact .symbol rest
  · have member := coded.resolve_left single
    have inside := List.idxOf_lt_length_of_mem member
    have found : table[table.idxOf w]? = some w := by
      rw [List.getElem?_eq_getElem inside, List.getElem_idxOf]
    have code : codeOf symbol first table w = first + table.idxOf w := by
      unfold codeOf
      split
      · exact absurd rfl single
      · rfl
    rw [kept, List.length_take] at inside
    rw [code]
    apply Continues.entry (by rw [kept]; omega) _ rest
    rwa [kept, List.getElem?_take_of_lt (by omega), ← kept] at found

/-- What the encoder writes are the codes of phrases of its text. -/
theorem welch_continues (rest : List α) (nonempty : w ≠ []) (kept : table = (entries (ws ++ [w])).take limit)
    (coded : w.length = 1 ∨ w ∈ table) :
    ∃ us, Continues symbol first limit ws us (welch symbol first limit rest table w) ∧ us.flatten = w ++ rest ∧
      ∀ u ∈ us, u ≠ [] := by
  induction rest generalizing ws w table with
  | nil => exact ⟨[w], codeOf_continues kept coded .nil, by simp, by simpa using nonempty⟩
  | cons a rest ih =>
    rw [welch]
    split
    · rename_i longer
      obtain ⟨us, continues, whole, nonempties⟩ :=
        ih (w := w ++ [a]) (by simp) ((entries_grow ws nonempty [a]).symm ▸ kept) (.inr longer)
      exact ⟨us, continues, by simpa using whole, nonempties⟩
    · have next : (if table.length < limit then table ++ [w ++ [a]] else table) =
          (entries (ws ++ [w] ++ [[a]])).take limit := by
        have all : entries (ws ++ [w] ++ [[a]]) = entries (ws ++ [w]) ++ [w ++ [a]] := by
          rw [List.append_assoc, List.cons_append, List.nil_append, entries_snoc]
          rfl
        rw [all, kept, List.length_take]
        split
        · rw [List.take_of_length_le (by omega), List.take_of_length_le]
          rw [List.length_append, List.length_singleton]
          omega
        · rw [List.take_append_of_le_length (by omega)]
      obtain ⟨us, continues, whole, nonempties⟩ := ih (w := [a]) (by simp) next (.inl rfl)
      refine ⟨w :: us, codeOf_continues kept coded continues, by simp [whole], ?_⟩
      simpa [nonempty] using nonempties

/-- The codes of a text are those of phrases that make it up. -/
theorem encode_continues (text : List α) : ∃ us, Continues symbol first limit [] us (encode symbol first limit text) ∧
    us.flatten = text ∧ ∀ u ∈ us, u ≠ [] := by
  cases text with
  | nil => exact ⟨[], .nil, rfl, by simp⟩
  | cons a rest => exact welch_continues rest (by simp) (by simp [entries]) (.inl rfl)

end Encoder

end Meatloaf.Lib.Lzw
