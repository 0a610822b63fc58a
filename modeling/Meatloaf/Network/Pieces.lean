import Meatloaf.Network.FullMode

/-! What a new stream makes of bytes that are written to it in pieces. It looks at the first bytes of a piece alone to
find out whether they are a command. -/
namespace Meatloaf.Network

open Lib MFSOwner

namespace FullStream

variable (around : Around)

def writes (w : FullStream) (pieces : List Str) : FullStream := pieces.foldl (fun w buf => (w.write around buf).2) w

/- `pieces` is a way to cut `bytes`. -/
def Cuts (bytes : Str) (pieces : List Str) : Prop := pieces.flatten = bytes ∧ ∀ p ∈ pieces, p ≠ []

/- The same state of the full mode, request, pending line, and data for the client. -/
def Alike (w w' : FullStream) : Prop :=
  w.fullMode = w'.fullMode ∧ w.ctx = w'.ctx ∧ w.cmdLine = w'.cmdLine ∧ w.postBuffer = w'.postBuffer

/- A letter that a command begins with. -/
def Starts (b : UInt8) : Bool := letter 0x6d b || letter 0x68 b || letter 0x62 b || letter 0x73 b || letter 0x63 b

/- `r-` and something. -/
def Repositions (s : Str) : Prop := [0x72, 0x2d] <+: s ∧ 3 ≤ s.length

/-- The bytes begin with the letter of a command, or there is no such letter and no `r-` with something behind it
anywhere among them. -/
def Uniform (bytes : Str) : Prop :=
  bytes = [] ∨ Starts (bytes.getD 0 0) = true ∨
    (∀ b ∈ bytes, Starts b = false) ∧ ∀ s, s <:+ bytes → ¬ Repositions s

variable {around} {w : FullStream} {bytes : Str} {pieces : List Str}

theorem looksLikeCommand_iff : looksLikeCommand bytes = true ↔ Starts (bytes.getD 0 0) = true ∨ Repositions bytes := by
  have status : 6 ≤ bytes.length ∧ toLower (bytes.take 6) = statusWord → Starts (bytes.getD 0 0) = true := by
    rintro ⟨-, same⟩
    obtain ⟨a, s, text, first, -⟩ := toLower_cons same
    cases bytes with
    | nil => cases text
    | cons b bytes =>
      obtain ⟨rfl, -⟩ := List.cons.inj text
      have small : Starts b = true := forall_byte
        (fun b => (if 0x41 ≤ b ∧ b ≤ 0x5a then b + 0x20 else b) = 0x73 → Starts b = true) (by decide +kernel) b first
      exact small
  have dash : Repositions bytes ↔ 3 ≤ bytes.length ∧ bytes.getD 0 0 = 0x72 ∧ bytes.getD 1 0 = 0x2d := by
    match bytes with
    | [] => simp [Repositions]
    | [_] => simp [Repositions]
    | a :: b :: s =>
      simp only [Repositions, List.cons_prefix_cons, List.nil_prefix, and_true, List.getD_cons_zero, List.getD_cons_succ]
      constructor
      · rintro ⟨⟨rfl, rfl⟩, long⟩
        exact ⟨long, rfl, rfl⟩
      · rintro ⟨long, rfl, rfl⟩
        exact ⟨⟨rfl, rfl⟩, long⟩
  rw [dash]
  unfold looksLikeCommand
  simp only [Bool.or_eq_true, Bool.and_eq_true, decide_eq_true_eq, beq_iff_eq]
  constructor
  · rintro ((starts | ⟨⟨long, first⟩, second⟩) | word)
    · left
      simpa only [Starts, Bool.or_eq_true] using starts
    · exact .inr ⟨long, first, second⟩
    · exact .inl (status word)
  · rintro (starts | ⟨long, first, second⟩)
    · simp only [Starts, Bool.or_eq_true] at starts
      exact .inl (.inl starts)
    · exact .inl (.inr ⟨⟨long, first⟩, second⟩)

/- ### The full mode is not left -/

theorem performJsonQuery_fullMode (w : FullStream) (pointer : Str) : (w.performJsonQuery around pointer).fullMode = w.fullMode := by
  unfold performJsonQuery
  dsimp only
  split
  · rfl
  · split <;> rfl

theorem query_fullMode (pointer : Str) : (w.query around pointer).fullMode = w.fullMode := by
  unfold query
  dsimp only
  split
  · rfl
  · exact performJsonQuery_fullMode _ pointer

theorem header_fullMode {w' : FullStream} {append : Bool} {rest : Str} (set : w.header append rest = some w') :
    w'.fullMode = w.fullMode := by
  unfold header at set
  generalize (if rest.head? = some 0x20 then rest.drop 1 else rest) = rest at set
  dsimp only at set
  by_cases colon : 0x3a ∈ rest
  · rw [if_pos colon] at set
    cases set
    rfl
  · rw [if_neg colon] at set
    cases set

theorem ite_full {P : Prop} [Decidable P] {r r' : Bool × FullStream} (one : r.2.fullMode ≠ .SIMPLE)
    (other : r'.2.fullMode ≠ .SIMPLE) : (if P then r else r').2.fullMode ≠ .SIMPLE := by
  by_cases which : P
  · rwa [if_pos which]
  · rwa [if_neg which]

theorem handleCommand_full (full : w.fullMode ≠ .SIMPLE) (line : Str) :
    (w.handleCommand around line).2.fullMode ≠ .SIMPLE := by
  unfold handleCommand
  dsimp only
  generalize toUTF8 (trim line) = c
  -- one command after the other
  apply ite_full full
  apply ite_full
  · exact ite_full full (ite_full full full)
  apply ite_full FullModeState.noConfusion
  apply ite_full FullModeState.noConfusion
  apply ite_full full
  apply ite_full ((query_fullMode _).trans_ne full)
  apply ite_full full
  apply ite_full full
  by_cases named : 2 ≤ c.length ∧ letter 0x68 (c.getD 0 0) = true
  · rw [if_pos named]
    cases set : w.header (c.getD 1 0 == 0x2b) (c.drop (if c.getD 1 0 = 0x2b then 2 else 1)) with
    | some w' => exact (header_fullMode set).trans_ne full
    | none => exact ite_full full full
  · rw [if_neg named]
    exact ite_full full full

theorem feed_full (around : Around) (full : w.fullMode ≠ .SIMPLE) (bytes : Str) : (bytes.foldl (feed around) w).fullMode ≠ .SIMPLE := by
  induction bytes generalizing w with
  | nil => exact full
  | cons c bytes ih =>
    apply ih
    unfold feed
    split
    · split
      · exact full
      · exact handleCommand_full full _
    · exact full

theorem writes_full (full : w.fullMode ≠ .SIMPLE) (pieces : List Str) :
    w.writes around pieces = pieces.flatten.foldl (feed around) w := by
  induction pieces generalizing w with
  | nil => rfl
  | cons p pieces ih =>
    have first : (w.write around p).2 = p.foldl (feed around) w := by
      unfold write
      rw [if_pos full]
    rw [writes, List.foldl_cons, first, List.flatten_cons, List.foldl_append]
    exact ih (feed_full around full p)

/- ### A piece in simple mode -/

theorem write_command (simple : w.fullMode = .SIMPLE) (some : bytes ≠ []) (looks : looksLikeCommand bytes = true) :
    (w.write around bytes).2 = bytes.foldl (feed around) { w with fullMode := .BUILDING_REQUEST } := by
  unfold write
  rw [if_neg (not_not_intro simple), if_pos ⟨some, looks⟩]

theorem write_through (simple : w.fullMode = .SIMPLE) (looks : looksLikeCommand bytes = false) :
    (w.write around bytes).2 = { w with
      postBuffer := w.postBuffer ++ bytes
      clientPosition := (w.clientPosition + bytes.length) % 2 ^ 32
      position := (w.position + bytes.length) % 2 ^ 32 } := by
  unfold write
  rw [if_neg (not_not_intro simple), if_neg (by simp [looks])]

/- Where the first piece is a command, it is no matter how it is cut. -/
theorem writes_command (simple : w.fullMode = .SIMPLE) {p : Str} (some : p ≠ []) (looks : looksLikeCommand p = true) :
    w.writes around (p :: pieces) =
      (p ++ pieces.flatten).foldl (feed around) { w with fullMode := .BUILDING_REQUEST } := by
  rw [writes, List.foldl_cons, write_command simple some looks, List.foldl_append]
  exact writes_full (feed_full around FullModeState.noConfusion p) pieces

/- Where no piece is a command, the client gets them all. -/
theorem writes_through (around : Around) (simple : w.fullMode = .SIMPLE) (looks : ∀ p ∈ pieces, looksLikeCommand p = false) :
    Alike (w.writes around pieces) { w with postBuffer := w.postBuffer ++ pieces.flatten } := by
  induction pieces generalizing w with
  | nil => exact ⟨rfl, rfl, rfl, (List.append_nil _).symm⟩
  | cons p pieces ih =>
    rw [List.forall_mem_cons] at looks
    rw [writes, List.foldl_cons, write_through simple looks.1]
    obtain ⟨full, ctx, line, post⟩ := ih (w := { w with
      postBuffer := w.postBuffer ++ p
      clientPosition := (w.clientPosition + p.length) % 2 ^ 32
      position := (w.position + p.length) % 2 ^ 32 }) simple looks.2
    refine ⟨full, ctx, line, post.trans ?_⟩
    simp only [List.flatten_cons, List.append_assoc]

/- ### Two ways to cut the same bytes -/

theorem Cuts.cons_head {p : Str} (cuts : Cuts bytes (p :: pieces)) : p ≠ [] ∧ p.getD 0 0 = bytes.getD 0 0 := by
  obtain ⟨rfl, some⟩ := cuts
  have some := some p List.mem_cons_self
  obtain ⟨b, p, rfl⟩ := List.exists_cons_of_ne_nil some
  exact ⟨some, rfl⟩

/- No piece is a command where no letter of one is among the bytes, nor an `r-`. -/
theorem looks_piece (free : ∀ b ∈ bytes, Starts b = false) (plain : ∀ s, s <:+ bytes → ¬ Repositions s)
    (cuts : Cuts bytes pieces) : ∀ p ∈ pieces, looksLikeCommand p = false := by
  intro p member
  obtain ⟨before, behind, rfl⟩ := List.append_of_mem member
  obtain ⟨rfl, some⟩ := cuts
  rw [← Bool.not_eq_true, looksLikeCommand_iff]
  rintro (starts | ⟨⟨rest, dash⟩, long⟩)
  · obtain ⟨b, p, rfl⟩ := List.exists_cons_of_ne_nil (some p member)
    have quiet := free b (by simp)
    rw [List.getD_cons_zero, quiet] at starts
    cases starts
  · refine plain (p ++ behind.flatten) ⟨before.flatten, by simp⟩ ⟨⟨rest ++ behind.flatten, ?_⟩, ?_⟩
    · rw [← dash, List.append_assoc]
    · rw [List.length_append]
      omega

/- The stream is in full mode behind a piece that is a command. -/
theorem writes_mode (simple : w.fullMode = .SIMPLE) (some : ∀ p ∈ pieces, p ≠ []) :
    (w.writes around pieces).fullMode ≠ .SIMPLE ↔ ∃ p ∈ pieces, looksLikeCommand p = true := by
  induction pieces generalizing w with
  | nil => simp [writes, simple]
  | cons p pieces ih =>
    rw [List.forall_mem_cons] at some
    cases looks : looksLikeCommand p with
    | true =>
      rw [writes_command simple some.1 looks]
      have full := feed_full around (w := { w with fullMode := .BUILDING_REQUEST }) FullModeState.noConfusion (p ++ pieces.flatten)
      exact ⟨fun _ => ⟨p, List.mem_cons_self, looks⟩, fun _ => full⟩
    | false =>
      have later : (∃ q ∈ p :: pieces, looksLikeCommand q = true) ↔ ∃ q ∈ pieces, looksLikeCommand q = true := by
        simp only [List.mem_cons, exists_eq_or_imp, looks, Bool.false_eq_true, false_or]
      rw [writes, List.foldl_cons, write_through simple looks, later]
      exact ih (w := { w with
        postBuffer := w.postBuffer ++ p
        clientPosition := (w.clientPosition + p.length) % 2 ^ 32
        position := (w.position + p.length) % 2 ^ 32 }) simple some.2

/- Bytes that are a command in one of two ways to cut them are not in both alike. -/
theorem whole_or_split {u v : Str} (simple : w.fullMode = .SIMPLE) (before : u ≠ []) (behind : v ≠ [])
    (whole : looksLikeCommand (u ++ v) = true ↔ ¬ (looksLikeCommand u = true ∨ looksLikeCommand v = true)) :
    ∃ ps qs, Cuts (u ++ v) ps ∧ Cuts (u ++ v) qs ∧ ¬ Alike (w.writes around ps) (w.writes around qs) := by
  have one : Cuts (u ++ v) [u ++ v] := ⟨by simp, by simp [before]⟩
  have two : Cuts (u ++ v) [u, v] := ⟨by simp, by simp [before, behind]⟩
  refine ⟨[u ++ v], [u, v], one, two, fun alike => ?_⟩
  have same : (w.writes around [u ++ v]).fullMode ≠ .SIMPLE ↔ (w.writes around [u, v]).fullMode ≠ .SIMPLE := by
    rw [alike.1]
  rw [writes_mode simple one.2, writes_mode simple two.2] at same
  simp only [List.mem_cons, List.not_mem_nil, or_false, exists_eq_left, exists_eq_or_imp, whole] at same
  exact not_iff_self same

theorem not_uniform_cuts (around : Around) (simple : w.fullMode = .SIMPLE) (mixed : ¬ Uniform bytes) :
    ∃ ps qs, Cuts bytes ps ∧ Cuts bytes qs ∧ ¬ Alike (w.writes around ps) (w.writes around qs) := by
  simp only [Uniform, not_or, Bool.not_eq_true] at mixed
  obtain ⟨some, quiet, inside⟩ := mixed
  cases looks : looksLikeCommand bytes with
  | true =>
    -- `r-` is cut behind the letter
    obtain ⟨⟨rest, rfl⟩, long⟩ : Repositions bytes := by
      have which := looksLikeCommand_iff.mp looks
      rw [quiet] at which
      exact which.resolve_left Bool.noConfusion
    refine whole_or_split (u := [0x72]) (v := 0x2d :: rest) simple (List.cons_ne_nil _ _) (List.cons_ne_nil _ _) ?_
    have tail : looksLikeCommand (0x2d :: rest) = false := by
      rw [← Bool.not_eq_true, looksLikeCommand_iff]
      rintro (starts | ⟨⟨more, dash⟩, -⟩)
      · have other : Starts 0x2d = false := by decide
        rw [List.getD_cons_zero, other] at starts
        cases starts
      · exact absurd (List.cons.inj dash).1 (by decide)
    have head : looksLikeCommand [0x72] = false := by decide
    rw [tail, head]
    simpa using looks
  | false =>
    -- a command inside is cut off
    obtain ⟨u, v, rfl, command⟩ : ∃ u v, bytes = u ++ v ∧ looksLikeCommand v = true := by
      by_contra none
      refine inside ⟨fun b member => ?_, fun v ⟨u, join⟩ dash => ?_⟩
      · rw [← Bool.not_eq_true]
        intro starts
        obtain ⟨u, v, rfl⟩ := List.append_of_mem member
        exact none ⟨u, b :: v, rfl, looksLikeCommand_iff.mpr (.inl starts)⟩
      · exact none ⟨u, v, join.symm, looksLikeCommand_iff.mpr (.inr dash)⟩
    refine whole_or_split (u := u) (v := v) simple ?_ ?_ ?_
    · rintro rfl
      rw [List.nil_append, command] at looks
      cases looks
    · rintro rfl
      exact absurd command (by decide)
    · simp [looks, command]

/-- What a stream makes of bytes that are written to it in simple mode does not depend on how they are cut, if and only
if they begin with the letter of a command, or have no such letter and no `r-` with something behind it in them. -/
theorem cuts_alike_iff (around : Around) (w : FullStream) (simple : w.fullMode = .SIMPLE) (bytes : Str) :
    (∀ ps qs, Cuts bytes ps → Cuts bytes qs → Alike (w.writes around ps) (w.writes around qs)) ↔ Uniform bytes := by
  constructor
  · intro all
    by_contra mixed
    obtain ⟨ps, qs, cuts, cuts', differ⟩ := not_uniform_cuts around simple mixed
    exact differ (all ps qs cuts cuts')
  · intro uniform ps qs cuts cuts'
    rcases uniform with rfl | starts | ⟨free, plain⟩
    · have none : ∀ ps, Cuts [] ps → ps = [] := by
        rintro (_ | ⟨p, ps⟩) ⟨join, some⟩
        · rfl
        · exact absurd (List.append_eq_nil_iff.mp join).1 (some p List.mem_cons_self)
      rw [none ps cuts, none qs cuts']
      exact ⟨rfl, rfl, rfl, rfl⟩
    · have same : ∀ ps, Cuts bytes ps →
          w.writes around ps = bytes.foldl (feed around) { w with fullMode := .BUILDING_REQUEST } := by
        rintro (_ | ⟨p, ps⟩) cuts
        · obtain ⟨rfl, -⟩ := cuts
          exact absurd starts (by decide +kernel)
        · obtain ⟨some, head⟩ := cuts.cons_head
          rw [writes_command simple some (looksLikeCommand_iff.mpr (.inl (head ▸ starts))), ← List.flatten_cons, cuts.1]
      rw [same ps cuts, same qs cuts']
      exact ⟨rfl, rfl, rfl, rfl⟩
    · have through := writes_through around simple (looks_piece free plain cuts)
      have through' := writes_through around simple (looks_piece free plain cuts')
      rw [cuts.1] at through
      rw [cuts'.1] at through'
      exact ⟨through.1.trans through'.1.symm, through.2.1.trans through'.2.1.symm,
        through.2.2.1.trans through'.2.2.1.symm, through.2.2.2.trans through'.2.2.2.symm⟩

/-- `cuts_alike_iff` applies to a new stream and the letters of "m put". -/
theorem cuts_alike_put : (∀ ps qs, Cuts [0x4d, 0x20, 0x50, 0x55, 0x54, 0x0d] ps → Cuts [0x4d, 0x20, 0x50, 0x55, 0x54, 0x0d] qs →
      Alike (writes plainAround {} ps) (writes plainAround {} qs)) ↔ Uniform [0x4d, 0x20, 0x50, 0x55, 0x54, 0x0d] :=
  cuts_alike_iff plainAround {} rfl _

/-- The line `r-h` is a command when it is written at once. Byte by byte, the client gets the beginning of it. -/
theorem dash_split : ¬ ∀ (around : Around) (bytes : Str) (ps qs : List Str), Cuts bytes ps → Cuts bytes qs →
    Alike (writes around {} ps) (writes around {} qs) := by
  intro all
  have alike := all plainAround [0x72, 0x2d, 0x68, 0x0d] [[0x72, 0x2d, 0x68, 0x0d]] [[0x72], [0x2d], [0x68], [0x0d]]
    ⟨by decide, by decide⟩ ⟨by decide, by decide⟩
  have passed := alike.2.2.2
  revert passed
  decide

end FullStream

end Meatloaf.Network
