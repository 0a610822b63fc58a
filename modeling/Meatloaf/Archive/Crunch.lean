import Meatloaf.Archive.ArcBits
import Meatloaf.Archive.ArcWalk
import Meatloaf.Lib.Lzw

/-! Mode 3 of an ARC entry: what Welch's encoder writes, `uncrunch` gives back. -/
namespace Meatloaf.Archive

open Lib Function

/- How many entries there is room for. -/
def crunchRoom : Nat := 3838

/- The width of a code behind `n` others. -/
def codeWidth (n : Nat) : Nat := if n < 254 then 9 else if n < 766 then 10 else if n < 1790 then 11 else 12

/- The bits of codes that come behind `n` others. -/
def codeBits : Nat → List Nat → List Bool
  | _, [] => []
  | n, k :: ks => bitsBE (codeWidth n) k ++ codeBits (n + 1) ks

/- The encoding of a text, with the code that ends it. -/
def crunch (text : List UInt8) : List UInt8 :=
  pack (codeBits 0 (Lzw.encode UInt8.toNat 258 crunchRoom text ++ [ARC_LZW_EOF]))

namespace ArcDecoder

/- A decoder of mode 3 before the encoding of a text, which stands between other bytes. -/
def crunched (header text slack : List UInt8) : ArcDecoder where
  input := header ++ crunch text ++ slack
  input_pos := header.length
  mode := ARC_MODE_CRUNCHED

/- The bytes of the calls before the one that sets `eof`, which is one of the first `n`. -/
def uncrunchAll (fuel : Nat) : Nat → ArcDecoder → Option (List UInt8)
  | 0, _ => none
  | n + 1, d => (d.uncrunch fuel).bind fun r => if r.2.eof then some [] else (uncrunchAll fuel n r.2).map (r.1 :: ·)

/- The decoder's schedule behind `n` codes. -/
structure Scheduled (d : ArcDecoder) (n : Nat) : Prop where
  nine : n < 254 → d.cdlen = 9 ∧ d.wtcl = 256 ∧ d.wttcl = 254 - n
  ten : 254 ≤ n → n < 766 → d.cdlen = 10 ∧ d.wtcl = 512 ∧ d.wttcl = 766 - n
  eleven : 766 ≤ n → n < 1790 → d.cdlen = 11 ∧ d.wtcl = 1024 ∧ d.wttcl = 1790 - n
  twelve : 1790 ≤ n → d.cdlen = 12

variable {d e : ArcDecoder} {n k : Nat} {rest : List Bool}

theorem Scheduled.width (scheduled : Scheduled d n) : d.cdlen = codeWidth n := by
  have := scheduled.nine
  have := scheduled.ten
  have := scheduled.eleven
  have := scheduled.twelve
  unfold codeWidth
  split_ifs <;> grind

theorem Scheduled.widen (scheduled : Scheduled d n) : Scheduled d.widen (n + 1) := by
  have nine := scheduled.nine
  have ten := scheduled.ten
  have eleven := scheduled.eleven
  have twelve := scheduled.twelve
  unfold ArcDecoder.widen
  split
  · split
    · constructor <;> dsimp only <;> grind
    · constructor <;> dsimp only <;> grind
  · constructor <;> grind

theorem widen_frame (d : ArcDecoder) :
    d.widen.toArcReader = d.toArcReader ∧ d.widen.stack = d.stack ∧ d.widen.finchar = d.finchar := by
  unfold ArcDecoder.widen
  split
  · split <;> exact ⟨rfl, rfl, rfl⟩
  · exact ⟨rfl, rfl, rfl⟩

/-- Reading a code of the right width. -/
theorem getCode_spec (mode : d.mode = ARC_MODE_CRUNCHED) (scheduled : Scheduled d n)
    (holds : d.Holds (bitsBE (codeWidth n) k ++ rest)) (small : k < 2 ^ codeWidth n) :
    d.getCode.1 = k ∧ d.getCode.2.Holds rest ∧ Scheduled d.getCode.2 (n + 1) ∧ d.getCode.2.stack = d.stack ∧
      d.getCode.2.finchar = d.finchar := by
  obtain ⟨number, left⟩ := holds.getNumber (bitsBE (codeWidth n) k) 0
  rw [length_bitsBE] at number left
  rw [numberBE_bitsBE _ k small] at number
  have plain : d.getCode = (k, (d.reading (d.toArcReader.getNumber (codeWidth n) 0)).2.widen) := by
    simp only [getCode, scheduled.width, reading, number]
    rw [if_neg]
    rintro ⟨-, trailed⟩
    rw [mode] at trailed
    cases trailed
  have frame := widen_frame (d.reading (d.toArcReader.getNumber (codeWidth n) 0)).2
  have next : Scheduled (d.reading (d.toArcReader.getNumber (codeWidth n) 0)).2 n :=
    ⟨scheduled.nine, scheduled.ten, scheduled.eleven, scheduled.twelve⟩
  rw [plain]
  exact ⟨rfl, frame.1.symm ▸ left, next.widen, frame.2.1, frame.2.2⟩

/- What a code below `n` stands for. -/
inductive Spells (prefixes : Nat → Nat) (ext : Nat → UInt8) (n : Nat) : Nat → List UInt8 → Prop
  | byte (b : UInt8) : Spells prefixes ext n b.toNat [b]
  | entry {code : Nat} {w : List UInt8} (large : 258 ≤ code) (known : code < n)
    (front : Spells prefixes ext n (prefixes code) w) : Spells prefixes ext n code (w ++ [ext code])

variable {prefixes prefixes' : Nat → Nat} {ext ext' : Nat → UInt8} {code m : Nat} {w : List UInt8}

theorem Spells.nonempty (spells : Spells prefixes ext n code w) : w ≠ [] := by
  cases spells <;> simp

/-- A table that grows says the same of the old codes. -/
theorem Spells.mono (spells : Spells prefixes ext n code w) (more : n ≤ m)
    (same : ∀ i < n, prefixes' i = prefixes i ∧ ext' i = ext i) : Spells prefixes' ext' m code w := by
  induction spells with
  | byte b => exact .byte b
  | @entry code w large known front ih =>
    rw [← (same code known).2]
    exact .entry large (by omega) ((same code known).1 ▸ ih)

theorem push_room (c : UInt8) (room : d.stack.length < ARC_LZW_STACK_SIZE) :
    d.push c = { d with stack := c :: d.stack } := by
  rw [push, if_neg (by omega)]

/-- The walk leaves the first byte of a string, and the others on the stack in their order. -/
theorem Spells.walk {c : UInt8} {t : List UInt8} (spells : Spells d.lz_prefixes d.lz_ext n code (c :: t))
    (short : n ≤ ARC_LZW_TABLE_SIZE) (room : t.length + d.stack.length ≤ ARC_LZW_STACK_SIZE) {fuel : Nat}
    (enough : t.length < fuel) :
    loop ArcDecoder.walk fuel (code, d) = some (c.toNat, { d with stack := t ++ d.stack }) := by
  generalize whole : c :: t = w at spells
  generalize tableEq : d.lz_prefixes = prefixes at spells
  generalize extEq : d.lz_ext = ext at spells
  obtain ⟨fuel, rfl⟩ : ∃ f, fuel = f + 1 := ⟨fuel - 1, by omega⟩
  induction spells generalizing t d fuel with
  | byte b =>
    obtain ⟨rfl, rfl⟩ := List.cons.inj whole
    have byte := c.toNat_lt
    subst tableEq extEq
    rw [loop, ArcDecoder.walk, if_neg (by dsimp only; omega)]
    rfl
  | @entry code w large known front ih =>
    obtain ⟨a, w, rfl⟩ := List.exists_cons_of_ne_nil front.nonempty
    rw [List.cons_append] at whole
    obtain ⟨rfl, rfl⟩ := List.cons.inj whole
    rw [List.length_append, List.length_singleton] at enough room
    obtain ⟨fuel, rfl⟩ : ∃ f, fuel = f + 1 := ⟨fuel - 1, by omega⟩
    subst tableEq extEq
    have step : ArcDecoder.walk (code, d) =
        some (d.lz_prefixes code, { d with stack := d.lz_ext code :: d.stack }) := by
      rw [ArcDecoder.walk, if_pos (by dsimp only; omega), push_room _ (by dsimp only; omega)]
    rw [loop, step]
    have rest := ih (d := { d with stack := d.lz_ext code :: d.stack }) (t := w)
      (by simp only [List.length_cons]; omega) rfl rfl rfl fuel (by omega)
    simpa using rest

/- Ready for the next code, the codes of some phrases having been read. -/
structure Ready (ws : List (List UInt8)) (d : ArcDecoder) : Prop where
  mode : d.mode = ARC_MODE_CRUNCHED
  state : d.state = 1
  stack : d.stack = []
  ncodes : d.ncodes = 258 + min (ws.length - 1) crunchRoom
  table : ∀ (j : Nat) (w : List UInt8), j < crunchRoom → (Lzw.entries ws)[j]? = some w →
    Spells d.lz_prefixes d.lz_ext d.ncodes (258 + j) w
  old : ∀ w, ws.getLast? = some w → Spells d.lz_prefixes d.lz_ext d.ncodes d.oldcode w ∧ w.head? = some d.finchar

/- A phrase that may be next, and its code. -/
def Codes (ws : List (List UInt8)) (u : List UInt8) (k : Nat) : Prop :=
  (∃ b : UInt8, u = [b] ∧ k = b.toNat) ∨
    ∃ j : Nat, j < crunchRoom ∧ (Lzw.entries (ws ++ [u]))[j]? = some u ∧ k = 258 + j

variable {ws us : List (List UInt8)} {u t : List UInt8} {c : UInt8} {ks : List Nat}

/-- The code of the next phrase fits its width. -/
theorem Codes.small (codes : Codes ws u k) : k ≠ ARC_LZW_EOF ∧ k < 2 ^ codeWidth ws.length := by
  rcases codes with ⟨b, -, rfl⟩ | ⟨j, room, found, rfl⟩
  · have byte := b.toNat_lt
    refine ⟨by simp only [ARC_LZW_EOF]; omega, byte.trans_le (Nat.pow_le_pow_right (by decide) ?_)⟩
    unfold codeWidth
    split_ifs <;> omega
  · have older := Lzw.entries_get_lt found
    simp only [crunchRoom] at room
    refine ⟨by simp only [ARC_LZW_EOF]; omega, ?_⟩
    unfold codeWidth
    split_ifs <;> omega

/-- What is expanded for the code of the next phrase: the phrase, in its order on the stack. -/
theorem Ready.expands (ready : Ready (ws ++ [w]) d) (codes : Codes (ws ++ [w]) (c :: t) k)
    (short : t.length ≤ ARC_LZW_STACK_SIZE) {fuel : Nat} (enough : t.length < fuel) :
    loop ArcDecoder.walk fuel (d.resolve k) =
      some (c.toNat, { d with kay := (d.resolve k).2.kay, incode := k, stack := t }) := by
  have count := ready.ncodes
  simp only [List.length_append, List.length_singleton, Nat.add_sub_cancel] at count
  have full : d.ncodes ≤ ARC_LZW_TABLE_SIZE := by
    simp only [crunchRoom, ARC_LZW_TABLE_SIZE] at *
    omega
  have known : ∀ {v}, d.ncodes > k → Spells d.lz_prefixes d.lz_ext d.ncodes k v → v = c :: t →
      loop ArcDecoder.walk fuel (d.resolve k) =
        some (c.toNat, { d with kay := (d.resolve k).2.kay, incode := k, stack := t }) := by
    rintro v old spells rfl
    have result : d.resolve k = (k, { d with incode := k }) := if_neg (by omega)
    have walked := Spells.walk (d := { d with incode := k }) spells full
      (by simp only [ready.stack, List.length_nil]; omega) enough
    simpa [result, ready.stack] using walked
  rcases codes with ⟨b, single, rfl⟩ | ⟨j, room, found, rfl⟩
  · exact known (by have := b.toNat_lt; omega) (.byte b) single.symm
  · rw [List.append_assoc, List.cons_append, List.nil_append, Lzw.entries_get_snoc] at found
    split at found
    · exact known (by omega) (ready.table j _ room found) rfl
    · -- the entry that the phrase before makes with this one
      split at found
      · rename_i newest
        subst newest
        obtain ⟨spells, head⟩ := ready.old w (by simp)
        obtain ⟨a, s, rfl⟩ := List.exists_cons_of_ne_nil spells.nonempty
        obtain rfl : a = d.finchar := by simpa using head
        have grown : d.finchar = c ∧ s ++ [c] = t := by simpa using found
        obtain ⟨rfl, rfl⟩ := grown
        have code : d.ncodes = 258 + ws.length := by omega
        have result : d.resolve (258 + ws.length) =
            (d.oldcode, { d with kay := d.finchar, incode := d.ncodes, stack := [d.finchar] }) := by
          have pushed := push_room (d := { d with kay := d.finchar, incode := d.ncodes }) d.finchar
            (by simp only [ready.stack]; decide)
          rw [resolve, if_pos code.le, pushed, ready.stack]
        rw [List.length_append, List.length_singleton] at short enough
        have walked := Spells.walk (d := { d with kay := d.finchar, incode := d.ncodes, stack := [d.finchar] }) spells
          full (by simp only [List.length_singleton]; omega) (show s.length < fuel by omega)
        simpa [result, code] using walked
      · cases found

/- The decoder behind the next code, its stack apart. -/
def advance (k : Nat) (c : UInt8) (d : ArcDecoder) : ArcDecoder :=
  { d with kay := c, finchar := c, state := 2, incode := k, stack := [] }

/-- The next phrase is filed. -/
theorem Ready.next (ready : Ready (ws ++ [w]) d) (codes : Codes (ws ++ [w]) (c :: t) k) :
    Ready (ws ++ [w] ++ [c :: t]) (d.advance k c).file := by
  have count := ready.ncodes
  simp only [List.length_append, List.length_singleton, Nat.add_sub_cancel] at count
  obtain ⟨spells, -⟩ := ready.old w (by simp)
  -- the tables, by whether there is room for another entry
  have tables : (d.advance k c).file.ncodes = 258 + min (ws.length + 1) crunchRoom ∧ (d.advance k c).file.oldcode = k ∧
      (∀ i < d.ncodes, (d.advance k c).file.lz_prefixes i = d.lz_prefixes i ∧ (d.advance k c).file.lz_ext i = d.lz_ext i) ∧
      (ws.length < crunchRoom → (d.advance k c).file.lz_prefixes d.ncodes = d.oldcode ∧
        (d.advance k c).file.lz_ext d.ncodes = c) := by
    unfold file
    split
    · rename_i room
      have space : ws.length < crunchRoom := by
        simp only [advance, ARC_LZW_TABLE_SIZE, crunchRoom] at *
        omega
      refine ⟨by simp only [advance]; omega, rfl, ?_, ?_⟩
      · intro i old
        have apart : i ≠ d.ncodes := by omega
        exact ⟨update_of_ne apart .., update_of_ne apart ..⟩
      · intro _
        exact ⟨update_self .., update_self ..⟩
    · rename_i full
      have space : ¬ ws.length < crunchRoom := by
        simp only [advance, ARC_LZW_TABLE_SIZE, crunchRoom] at *
        omega
      refine ⟨by simp only [advance]; omega, rfl, fun _ _ => ⟨rfl, rfl⟩, fun room => absurd room space⟩
  obtain ⟨counted, code, same, newest⟩ := tables
  have mono : ∀ {i v}, Spells d.lz_prefixes d.lz_ext d.ncodes i v →
      Spells (d.advance k c).file.lz_prefixes (d.advance k c).file.lz_ext (d.advance k c).file.ncodes i v :=
    fun spells => spells.mono (by omega) same
  have entry : ∀ (j : Nat) (v : List UInt8), j < crunchRoom →
      (Lzw.entries (ws ++ [w] ++ [c :: t]))[j]? = some v →
      Spells (d.advance k c).file.lz_prefixes (d.advance k c).file.lz_ext (d.advance k c).file.ncodes (258 + j) v := by
    intro j v room found
    rw [List.append_assoc, List.cons_append, List.nil_append, Lzw.entries_get_snoc] at found
    split at found
    · exact mono (ready.table j v room found)
    · split at found
      · rename_i place
        subst place
        have at_new : d.ncodes = 258 + ws.length := by omega
        obtain ⟨front, last⟩ := newest room
        rw [at_new] at front last
        obtain rfl : w ++ [c] = v := by simpa using found
        have known : 258 + ws.length < (d.advance k c).file.ncodes := by omega
        have filed := Spells.entry (by omega) known (front.symm ▸ mono spells)
        rwa [last] at filed
      · cases found
  refine ⟨?_, rfl, ?_, ?_, entry, ?_⟩
  · unfold file
    split <;> exact ready.mode
  · unfold file
    split <;> rfl
  · rw [counted]
    simp
  · intro v last
    obtain rfl : c :: t = v := by simpa using last
    rw [code]
    refine ⟨?_, ?_⟩
    · rcases codes with ⟨b, single, rfl⟩ | ⟨j, room, found, rfl⟩
      · rw [single]
        exact .byte b
      · exact entry j _ room found
    · unfold file
      split <;> rfl

/- The decoder gives the bytes on its stack one after the other. -/
theorem uncrunchAll_pop (second : d.state = 2) (alive : d.eof = false) (t : List UInt8) (fuel n : Nat) :
    { d with stack := t }.uncrunchAll fuel (t.length + n) =
      ({ d with stack := [] }.uncrunchAll fuel n).map (t ++ ·) := by
  induction t with
  | nil => simp
  | cons a t ih =>
    have popped : { d with stack := a :: t }.uncrunch fuel = some (a, { d with stack := t }) := by
      simp [uncrunch, second, pop]
    rw [List.length_cons, Nat.add_right_comm, uncrunchAll, popped, Option.bind_some, if_neg (by simp [alive]), ih,
      Option.map_map]
    rfl

/- Before the next code, which is read at once or behind a new entry. -/
def Pending (ws : List (List UInt8)) (d : ArcDecoder) : Prop :=
  Ready ws d ∨ d.state = 2 ∧ d.stack = [] ∧ Ready ws d.file

/- The state in which the code is read. -/
theorem Pending.ready (pending : Pending ws d) (fuel : Nat) :
    ∃ e, d.uncrunch fuel = e.expand fuel ∧ Ready ws e ∧ e.toArcReader = d.toArcReader ∧ ∀ n, Scheduled d n → Scheduled e n := by
  rcases pending with ready | ⟨second, empty, ready⟩
  · exact ⟨d, by simp [uncrunch, ready.state], ready, rfl, fun _ => id⟩
  · refine ⟨d.file, by simp [uncrunch, second, empty], ready, ?_, ?_⟩
    · unfold file
      split <;> rfl
    · intro n scheduled
      unfold file
      split
      · exact ⟨scheduled.nine, scheduled.ten, scheduled.eleven, scheduled.twelve⟩
      · exact ⟨scheduled.nine, scheduled.ten, scheduled.eleven, scheduled.twelve⟩

/- A code has been read. -/
theorem Ready.getCode (ready : Ready ws d) (scheduled : Scheduled d n)
    (holds : d.Holds (bitsBE (codeWidth n) k ++ rest)) (small : k < 2 ^ codeWidth n) :
    d.getCode.1 = k ∧ Ready ws d.getCode.2 ∧ d.getCode.2.Holds rest ∧ Scheduled d.getCode.2 (n + 1) := by
  obtain ⟨code, left, next, stack, finchar⟩ := getCode_spec ready.mode scheduled holds small
  have kept := (getCode_kept d).1
  refine ⟨code, ⟨kept.mode.trans ready.mode, kept.state.trans ready.state, stack.trans ready.stack,
    kept.ncodes.trans ready.ncodes, ?_, ?_⟩, left, next⟩
  · rw [kept.lz_prefixes, kept.lz_ext, kept.ncodes]
    exact ready.table
  · rw [kept.lz_prefixes, kept.lz_ext, kept.ncodes, kept.oldcode, finchar]
    exact ready.old

/-- The code of the next phrase: its first byte comes at once, the others are on the stack. -/
theorem Pending.phrase (pending : Pending (ws ++ [w]) d) (codes : Codes (ws ++ [w]) (c :: t) k)
    (scheduled : Scheduled d (ws ++ [w]).length) (holds : d.Holds (bitsBE (codeWidth (ws ++ [w]).length) k ++ rest))
    (short : t.length < ARC_LZW_STACK_SIZE) :
    ∃ e, d.uncrunch 512 = some (c, { e with stack := t }) ∧ e.state = 2 ∧ e.stack = [] ∧ e.eof = false ∧
      Ready (ws ++ [w] ++ [c :: t]) e.file ∧ Scheduled e ((ws ++ [w]).length + 1) ∧ e.Holds rest := by
  obtain ⟨f, called, ready, reader, schedule⟩ := pending.ready 512
  obtain ⟨nonfinal, small⟩ := codes.small
  obtain ⟨code, readyNext, left, next⟩ := ready.getCode (schedule _ scheduled) (reader ▸ holds) small
  have walked := readyNext.expands codes (by omega) (show t.length < 512 from short)
  have byte := c.toNat_lt
  refine ⟨f.getCode.2.advance k c, ?_, rfl, rfl, left.1, readyNext.next codes, ?_, left⟩
  · rw [called, expand, code, if_neg nonfinal, walked, Option.map_some, if_neg (by simp only [ARC_LZW_TABLE_SIZE]; omega),
      UInt8.ofNat_toNat]
    rfl
  · exact ⟨next.nine, next.ten, next.eleven, next.twelve⟩

/-- The code that ends an entry. -/
theorem Pending.final (pending : Pending ws d) (scheduled : Scheduled d ws.length)
    (holds : d.Holds (bitsBE (codeWidth ws.length) ARC_LZW_EOF ++ rest)) (n : Nat) :
    d.uncrunchAll 512 (n + 1) = some [] := by
  obtain ⟨f, called, ready, reader, schedule⟩ := pending.ready 512
  have small : ARC_LZW_EOF < 2 ^ codeWidth ws.length := by
    refine Nat.lt_of_lt_of_le (show 256 < 2 ^ 9 by decide) (Nat.pow_le_pow_right (by decide) ?_)
    unfold codeWidth
    split_ifs <;> omega
  obtain ⟨code, -⟩ := ready.getCode (schedule _ scheduled) (reader ▸ holds) small
  rw [ArcDecoder.uncrunchAll, called, expand, code, if_pos rfl, Option.bind_some, if_pos rfl]

/- A phrase is given when those behind it are. -/
theorem Pending.step (codes : Codes ws u k) (pending : Pending ws d) (started : ws ≠ [])
    (scheduled : Scheduled d ws.length) (holds : d.Holds (codeBits ws.length (k :: ks) ++ rest)) (nonempty : u ≠ [])
    (short : u.length ≤ ARC_LZW_STACK_SIZE)
    (behind : ∀ e : ArcDecoder, Pending (ws ++ [u]) e → Scheduled e (ws ++ [u]).length →
      e.Holds (codeBits (ws ++ [u]).length ks ++ rest) →
      e.uncrunchAll 512 (us.flatten.length + 1) = some us.flatten) :
    d.uncrunchAll 512 ((u :: us).flatten.length + 1) = some (u :: us).flatten := by
  obtain ⟨c, t, rfl⟩ := List.exists_cons_of_ne_nil nonempty
  rcases List.eq_nil_or_concat ws with rfl | ⟨init, w, rfl⟩
  · exact absurd rfl started
  · simp only [List.concat_eq_append] at *
    rw [codeBits, List.append_assoc] at holds
    rw [List.length_cons] at short
    obtain ⟨e, called, second, empty, alive, ready, next, left⟩ := pending.phrase codes scheduled holds (by omega)
    have popped := uncrunchAll_pop second alive t 512 (us.flatten.length + 1)
    have same : { e with stack := [] } = e := by rw [← empty]
    rw [same, behind e (.inr ⟨second, empty, ready⟩) (by simpa using next) (by simpa using left), Option.map_some] at popped
    have long : (List.flatten ((c :: t) :: us)).length + 1 = t.length + (us.flatten.length + 1) + 1 := by
      simp only [List.flatten_cons, List.length_append, List.length_cons]
      omega
    rw [long, uncrunchAll, called, Option.bind_some, if_neg (by simp [alive]), popped]
    rfl

/-- From phrase to phrase, up to the code that ends the entry. -/
theorem Pending.all (continues : Lzw.Continues UInt8.toNat 258 crunchRoom ws us ks) (pending : Pending ws d)
    (started : ws ≠ []) (scheduled : Scheduled d ws.length)
    (holds : d.Holds (codeBits ws.length (ks ++ [ARC_LZW_EOF]) ++ rest))
    (short : ∀ u ∈ us, u ≠ [] ∧ u.length ≤ ARC_LZW_STACK_SIZE) :
    d.uncrunchAll 512 (us.flatten.length + 1) = some us.flatten := by
  induction continues generalizing d with
  | nil =>
    rw [List.nil_append, codeBits, codeBits, List.append_nil] at holds
    exact pending.final scheduled holds _
  | @symbol ws us ks b tail ih =>
    rw [List.forall_mem_cons] at short
    exact pending.step (.inl ⟨b, rfl, rfl⟩) started scheduled holds short.1.1 short.1.2
      fun e pending scheduled holds => ih pending (by simp) scheduled holds short.2
  | @entry ws us ks u j room found tail ih =>
    rw [List.forall_mem_cons] at short
    exact pending.step (.inr ⟨j, room, found, rfl⟩) started scheduled holds short.1.1 short.1.2
      fun e pending scheduled holds => ih pending (by simp) scheduled holds short.2

/-- A decoder that has read nothing, before the codes of a text. -/
theorem uncrunchAll_first (continues : Lzw.Continues UInt8.toNat 258 crunchRoom [] us ks) (fresh : d.state = 0)
    (mode : d.mode = ARC_MODE_CRUNCHED) (holds : d.Holds (codeBits 0 (ks ++ [ARC_LZW_EOF]) ++ rest))
    (short : ∀ u ∈ us, u ≠ [] ∧ u.length ≤ ARC_LZW_STACK_SIZE) :
    d.uncrunchAll 512 (us.flatten.length + 1) = some us.flatten := by
  have scheduled : Scheduled d.clear 0 := ⟨fun _ => ⟨rfl, rfl, rfl⟩, fun _ _ => by omega, fun _ _ => by omega, fun _ => by omega⟩
  cases continues with
  | nil =>
    rw [List.nil_append, codeBits, codeBits, List.append_nil] at holds
    obtain ⟨code, -⟩ := getCode_spec (d := d.clear) mode scheduled holds (by decide)
    rw [uncrunchAll, uncrunch, fresh]
    simp [begin, code]
  | entry _ found => simp [Lzw.entries] at found
  | @symbol _ us ks b tail =>
    rw [List.forall_mem_cons] at short
    rw [List.cons_append, codeBits, List.append_assoc] at holds
    have byte := b.toNat_lt
    have nonfinal : b.toNat ≠ ARC_LZW_EOF := by simp only [ARC_LZW_EOF]; omega
    obtain ⟨code, left, next, stack, -⟩ := getCode_spec (d := d.clear) mode scheduled holds (byte.trans_le (by decide))
    have kept := (getCode_kept d.clear).1
    let e : ArcDecoder := { d.clear.getCode.2 with oldcode := b.toNat, kay := b, finchar := b, state := 1 }
    have called : d.uncrunch 512 = some (b, e) := by
      simp [uncrunch, fresh, begin, code, nonfinal, e]
    have ready : Ready [[b]] e := by
      refine ⟨kept.mode.trans mode, rfl, stack, kept.ncodes, by simp [Lzw.entries], ?_⟩
      intro w last
      obtain rfl : [b] = w := by simpa using last
      exact ⟨.byte b, rfl⟩
    have all := Pending.all (d := e) tail (.inl ready) (by simp) ⟨next.nine, next.ten, next.eleven, next.twelve⟩ left
      short.2
    rw [List.flatten_cons, List.length_append, List.length_singleton, Nat.add_comm 1, uncrunchAll, called,
      Option.bind_some, if_neg (by simp [e, left.1]), all]
    rfl

/-- The strings of a text of 64 kilobytes fit the stack. -/
theorem phrase_short {l total : Nat} (known : l * (l + 1) ≤ 2 * total) (small : total ≤ 65536) :
    l ≤ ARC_LZW_STACK_SIZE := by
  by_contra long
  have := Nat.mul_le_mul (show 513 ≤ l by simp only [ARC_LZW_STACK_SIZE] at long; omega)
    (show 514 ≤ l + 1 by simp only [ARC_LZW_STACK_SIZE] at long; omega)
  omega

/-- Welch's encoding of a text is decoded to the text, wherever it stands in the bytes of the entry. -/
theorem uncrunch_crunch (text : List UInt8) (small : text.length ≤ 65536) (header slack : List UInt8) :
    (crunched header text slack).uncrunchAll 512 (text.length + 1) = some text := by
  obtain ⟨us, continues, whole, nonempty⟩ := @Lzw.encode_continues _ UInt8.toNat 258 crunchRoom _ text
  obtain ⟨pad, bits⟩ := bytesBits_pack (codeBits 0 (Lzw.encode UInt8.toNat 258 crunchRoom text ++ [ARC_LZW_EOF]))
  have behind : bytesBits ((crunched header text slack).input.drop header.length) =
      codeBits 0 (Lzw.encode UInt8.toNat 258 crunchRoom text ++ [ARC_LZW_EOF]) ++ (pad ++ bytesBits slack) := by
    rw [crunched, List.append_assoc, List.drop_left' rfl, bytesBits, List.flatMap_append, ← bytesBits, crunch, bits,
      List.append_assoc]
    rfl
  have holds : (crunched header text slack).Holds (bytesBits ((crunched header text slack).input.drop header.length)) :=
    ArcReader.holds_start _ header.length
  have short : ∀ u ∈ us, u ≠ [] ∧ u.length ≤ ARC_LZW_STACK_SIZE := by
    intro u member
    exact ⟨nonempty u member, phrase_short (continues.length_le member) (whole ▸ small)⟩
  have all := uncrunchAll_first (d := crunched header text slack) continues rfl rfl (behind ▸ holds) short
  rwa [whole] at all

theorem uncrunch_crunch_sample : [0x41, 0x41, 0x41, 0x42].length ≤ 65536 ∧
    (crunched [] [0x41, 0x41, 0x41, 0x42] []).uncrunchAll 512 5 = some [0x41, 0x41, 0x41, 0x42] :=
  ⟨by decide, uncrunch_crunch [0x41, 0x41, 0x41, 0x42] (by decide) [] []⟩

end ArcDecoder

end Meatloaf.Archive
