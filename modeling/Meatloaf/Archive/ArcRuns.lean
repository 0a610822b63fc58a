import Meatloaf.Archive.ArcBytes
import Meatloaf.Archive.Squeeze
import Meatloaf.Lib.Deliver

/-! The run-length coding that rides on top of the other codings of an ARC entry. -/
namespace Meatloaf.Archive

open Lib

namespace ArcEntry

variable (e : ArcEntry)

/- How often a run has its byte. -/
def times (count : UInt8) : Nat := if count = 0 then if e.version = 1 then 255 else 256 else count.toNat

/- What the bytes before the first run that is not complete stand for, one by one. -/
def runs (ctrl : Nat) : List UInt8 → List (List UInt8)
  | [] => []
  | c :: u =>
    if c.toNat = ctrl then
      match u with
      | n :: v :: u => List.replicate (e.times n) v :: runs ctrl u
      | _ => []
    else [c] :: runs ctrl u

/-- What the bytes of an entry stand for, in pieces. -/
def pieces (ctrl : Nat) (u : List UInt8) : List (List UInt8) :=
  if e.mode = ARC_MODE_STORED ∨ e.mode = ARC_MODE_SQUEEZED then u.map fun c => [c] else e.runs ctrl u

/- The checksum of these bytes. -/
def checksum (data : List UInt8) : Nat := (ArcDecoder.checked data { input := [], version := e.version }).crc

variable {e} {d t : ArcDecoder} {u : List UInt8}

theorem times_pos (count : UInt8) : 0 < e.times count := by
  unfold times
  split
  · split <;> decide
  · exact Nat.pos_of_ne_zero fun zero => ‹¬ count = 0› (UInt8.toNat_inj.mp zero)

/- A run goes out, cut by the limit and once more. -/
theorem repeated_eq (length : Nat) (c : UInt8) (n : Nat) (data : List UInt8) :
    repeated length c n (d, data) =
      let out := List.replicate (min n (length - data.length)) c
      (ArcDecoder.checked out d, data ++ out) := by
  induction n generalizing d data with
  | zero => simp [repeated, ArcDecoder.checked]
  | succ n ih =>
    rw [repeated]
    split
    · rename_i room
      have count : min (n + 1) (length - data.length) = min n (length - (data.length + 1)) + 1 := by
        dsimp only at room
        omega
      rw [ih, count]
      simp [List.replicate_succ, ArcDecoder.checked]
    · rename_i full
      have count : min (n + 1) (length - data.length) = 0 := by
        dsimp only at full
        omega
      rw [count]
      simp [ArcDecoder.checked]

theorem emit_repeated (c : UInt8) (n : Nat) (data : List UInt8) :
    emit c (repeated e.wanted c n (d, data)) =
      let out := List.replicate (min n (e.wanted - data.length) + 1) c
      (ArcDecoder.checked out d, data ++ out) := by
  rw [repeated_eq, List.replicate_succ']
  simp [emit, ArcDecoder.checked]

/-- What one round makes of the bytes that come: it is the last one, or a piece goes out, and one that
the limit cuts is a byte too long. -/
inductive Makes (e : ArcEntry) (t : ArcDecoder) (u data : List UInt8) : Bool × ArcDecoder × List UInt8 → Prop
  | last {d : ArcDecoder} (full : e.wanted ≤ data.length ∨ e.pieces t.ctrl u = []) (same : ArcDecoder.stamp t d = d) :
      Makes e t u data (false, d, data)
  | piece {d : ArcDecoder} {v piece out : List UInt8} (room : data.length < e.wanted)
      (first : e.pieces t.ctrl u = piece :: e.pieces t.ctrl v) (rest : d.Produces v)
      (fits : piece.length ≤ e.wanted - data.length → out = piece)
      (cut : e.wanted - data.length < piece.length → out.length = e.wanted - data.length + 1)
      (same : ArcDecoder.stamp (ArcDecoder.checked out t) d = d) : Makes e t u data (true, d, data ++ out)

theorem pieces_nil (ctrl : Nat) : e.pieces ctrl [] = [] := by
  unfold pieces
  split <;> rfl

/- A byte that is not the control byte of runs. -/
theorem pieces_byte {ctrl : Nat} {c : UInt8}
    (byte : ¬ ((e.mode ≠ ARC_MODE_STORED ∧ e.mode ≠ ARC_MODE_SQUEEZED) ∧ c.toNat = ctrl)) :
    e.pieces ctrl (c :: u) = [c] :: e.pieces ctrl u := by
  unfold pieces
  split
  · rfl
  · rename_i coded
    rw [not_or] at coded
    rw [runs.eq_def]
    exact if_neg fun control => byte ⟨coded, control⟩

theorem pieces_control {ctrl : Nat} {c : UInt8}
    (control : (e.mode ≠ ARC_MODE_STORED ∧ e.mode ≠ ARC_MODE_SQUEEZED) ∧ c.toNat = ctrl) :
    e.pieces ctrl [c] = [] ∧ (∀ n, e.pieces ctrl [c, n] = []) ∧
      ∀ n v u, e.pieces ctrl (c :: n :: v :: u) = List.replicate (e.times n) v :: e.pieces ctrl u := by
  have coded : ¬ (e.mode = ARC_MODE_STORED ∨ e.mode = ARC_MODE_SQUEEZED) := not_or.mpr control.1
  simp only [pieces, if_neg coded, runs, if_pos control.2, implies_true, and_self]

theorem round_makes {data : List UInt8} {fuel : Nat} {r : Bool × ArcDecoder × List UInt8} (produces : d.Produces u)
    (same : ArcDecoder.stamp t d = d) (made : e.round fuel (d, data) = some r) : Makes e t u data r := by
  unfold round at made
  split at made
  · rename_i full
    cases made
    exact .last (.inl full) same
  · rename_i room
    dsimp only at room
    rw [not_le] at room
    rw [Option.bind_eq_some_iff] at made
    obtain ⟨byte, first, made⟩ := made
    have sameByte := ArcDecoder.unpack_same first same
    have ctrl : byte.2.ctrl = t.ctrl := (congrArg ArcDecoder.ctrl sameByte).symm
    rw [ctrl] at made
    rcases produces.call first with ⟨finished, rfl⟩ | ⟨alive, v, rfl, afterByte⟩
    · rw [if_pos finished] at made
      cases made
      exact .last (.inr (pieces_nil _)) sameByte
    · rw [if_neg (by simp [alive])] at made
      split at made
      · rename_i control
        rw [Option.bind_eq_some_iff] at made
        obtain ⟨count, second, made⟩ := made
        rw [Option.bind_eq_some_iff] at made
        obtain ⟨c, third, made⟩ := made
        have sameCount := ArcDecoder.unpack_same second sameByte
        have sameValue := ArcDecoder.unpack_same third sameCount
        obtain ⟨alone, two, run⟩ := pieces_control control
        rcases afterByte.call second with ⟨finished, rfl⟩ | ⟨-, v, rfl, afterCount⟩
        · rw [if_pos (ArcDecoder.unpack_eof finished third)] at made
          cases made
          exact .last (.inr alone) sameValue
        · rcases afterCount.call third with ⟨finished, rfl⟩ | ⟨alive, v, rfl, afterValue⟩
          · rw [if_pos finished] at made
            cases made
            exact .last (.inr (two _)) sameValue
          · rw [if_neg (by simp [alive]), emit_repeated] at made
            dsimp only at made
            cases made
            have positive := times_pos (e := e) count.1
            have length : e.runLength count.1 = e.times count.1 - 1 := rfl
            refine .piece room (run _ _ v) (afterValue.checked _) (fun fits => ?_) (fun cut => ?_) ?_
            · rw [List.length_replicate] at fits
              rw [length]
              congr 1
              omega
            · rw [List.length_replicate] at cut ⊢
              omega
            · exact ArcDecoder.checked_same _ sameValue
      · rename_i byte'
        cases made
        refine Makes.piece room (pieces_byte byte') (afterByte.checked [byte.1]) (fun _ => rfl) (fun cut => ?_) ?_
        · simp only [List.length_singleton] at cut
          omega
        · exact ArcDecoder.checked_same [byte.1] sameByte

/-- What the decode loop writes: all that is wanted, unless the limit cuts a run; then one byte more. -/
theorem decodeLoop_spec {fuel n : Nat} {data : List UInt8} {s : ArcDecoder × List UInt8} (produces : d.Produces u)
    (same : ArcDecoder.stamp t d = d) (left : e.decodeLoop fuel n (d, data) = some s) :
    ∃ out, s.2 = data ++ out ∧ ArcDecoder.stamp (ArcDecoder.checked out t) s.1 = s.1 ∧
      (¬ Cut (e.wanted - data.length) (e.pieces t.ctrl u) →
        out = (e.pieces t.ctrl u).flatten.take (e.wanted - data.length)) ∧
      (Cut (e.wanted - data.length) (e.pieces t.ctrl u) → out.length = e.wanted - data.length + 1) := by
  induction n generalizing d t u data with
  | zero => cases left
  | succ n ih =>
    rw [decodeLoop, Option.bind_eq_some_iff] at left
    obtain ⟨r, made, left⟩ := left
    cases round_makes produces same made with
    | last full same =>
      cases left
      refine ⟨[], (List.append_nil data).symm, same, fun _ => ?_, fun cut => ?_⟩
      · rcases full with full | none
        · rw [Nat.sub_eq_zero_of_le full, List.take_zero]
        · rw [none, List.flatten_nil, List.take_nil]
      · rcases full with full | none
        · rw [Nat.sub_eq_zero_of_le full] at cut
          exact absurd cut (not_cut_zero _)
        · rw [none] at cut
          exact absurd cut (not_cut_nil _)
    | @piece d v piece out room first rest fits cut same =>
      obtain ⟨more, written, sum, whole, long⟩ := ih rest same left
      rw [ArcDecoder.checked_ctrl, List.length_append] at whole long
      rw [first, cut_cons (by omega)]
      refine ⟨out ++ more, ?_, ?_, ?_, ?_⟩
      · rw [written, List.append_assoc]
      · rw [ArcDecoder.checked_append]
        exact sum
      · intro uncut
        rw [not_or, not_lt, Nat.sub_sub] at uncut
        obtain rfl := fits uncut.1
        rw [whole uncut.2, List.flatten_cons, List.take_append, List.take_of_length_le uncut.1, Nat.sub_sub]
      · rintro (finished | later)
        · -- nothing is wanted behind the piece that is cut
          have length := cut finished
          have full : e.wanted - (data.length + out.length) = 0 := by omega
          rw [full] at whole
          rw [whole (not_cut_zero _), List.take_zero, List.append_nil, length]
        · have positive : piece.length ≤ e.wanted - data.length := by
            by_contra finished
            rw [Nat.sub_eq_zero_of_le (by omega)] at later
            exact not_cut_zero _ later
          obtain rfl := fits positive
          rw [Nat.sub_sub] at later
          rw [List.length_append, long later]
          have : out.length ≠ e.wanted - data.length := by
            intro full
            rw [← Nat.sub_sub, full, Nat.sub_self] at later
            exact not_cut_zero _ later
          omega

/- What the table of codes takes before the bytes. -/
theorem readRows_frame (n w : Nat) (d : ArcDecoder) :
    ∃ (r : ArcReader) (table : ArcTable) (hcount : Int), ArcReader.Draws 0 d.toArcReader r ∧
      (ArcDecoder.readRows n w d).2 = { d with toArcReader := r, toArcTable := table, hcount := hcount } := by
  induction n generalizing w d with
  | zero => exact ⟨d.toArcReader, d.toArcTable, d.hcount, .refl _, rfl⟩
  | succ n ih =>
    have row : ∃ (r : ArcReader) (table : ArcTable) (hcount : Int), ArcReader.Draws 0 d.toArcReader r ∧
        (d.readRow w).2 = { d with toArcReader := r, toArcTable := table, hcount := hcount } := by
      have len := ArcReader.getMasked_draws 5 1 0 d.toArcReader
      unfold ArcDecoder.readRow
      dsimp only
      split
      · exact ⟨_, _, _, len, rfl⟩
      · split
        · exact ⟨_, _, _, len, rfl⟩
        · exact ⟨_, _, _, len.trans (ArcReader.getMasked_draws ..), rfl⟩
    rw [ArcDecoder.readRows]
    split
    · obtain ⟨r, table, hcount, first, middle⟩ := row
      obtain ⟨r', table', hcount', second, result⟩ := ih (w + 1) (d.readRow w).2
      rw [result, middle] at *
      exact ⟨r', table', hcount', first.trans second, rfl⟩
    · exact row

theorem prepare_frame {compressed : List UInt8} (prepared : e.prepare compressed = some d) :
    ∃ (r : ArcReader) (table : ArcTable) (hcount : Int) (ctrl : Nat),
      ArcReader.Draws 0 (e.decoder compressed).toArcReader r ∧
      d = { e.decoder compressed with toArcReader := r, toArcTable := table, hcount := hcount, ctrl := ctrl } := by
  unfold prepare at prepared
  dsimp only at prepared
  split at prepared
  · cases prepared
    exact ⟨_, _, _, _, (ArcReader.getByte_draws _).mono (Nat.zero_le 1), rfl⟩
  · split at prepared
    · rw [Option.ite_none_right_eq_some] at prepared
      obtain ⟨r, table, hcount, draws, rows⟩ := readRows_frame 256 0 { e.decoder compressed with hcount := 255 }
      have result := (ArcDecoder.readHuffmanTable_eq _ prepared.1).2
      rw [rows] at result
      exact ⟨r, _, hcount, _, draws, (Option.some.inj prepared.2).symm.trans result⟩
    · cases prepared
      exact ⟨_, _, _, _, .refl _, rfl⟩

/-- The calls for an entry produce one sequence of bytes, and that has an end. -/
theorem prepare_produces {compressed : List UInt8} (prepared : e.prepare compressed = some d) : ∃! u, d.Produces u := by
  obtain ⟨r, table, hcount, ctrl, draws, rfl⟩ := prepare_frame prepared
  have lasts : ∃ k, ArcDecoder.Lasts
      { e.decoder compressed with toArcReader := r, toArcTable := table, hcount := hcount, ctrl := ctrl } k := by
    rcases draws with finished | ⟨-, left⟩
    · exact ⟨0, .inl finished⟩
    · obtain ⟨rest, holds, -⟩ := left _ (ArcReader.holds_start compressed _)
      exact ⟨_, .inr ⟨Nat.zero_le _, fun started => absurd rfl started, rest, holds, Nat.lt_succ_self _⟩⟩
  obtain ⟨k, lasts⟩ := lasts
  obtain ⟨u, produces⟩ := lasts.produces
  exact ⟨u, produces, fun v produces' => produces'.unique produces⟩

/-- What an entry is expanded to is what its bytes stand for, as far as it is wanted, with the checksum of
just that, exactly when the limit does not fall inside a run. -/
theorem extract_exact {compressed : List UInt8} (prepared : e.prepare compressed = some d) (produces : d.Produces u)
    {fuel n : Nat} {s : ArcDecoder × List UInt8} (left : e.decodeLoop fuel n (d, []) = some s) :
    e.extract fuel n compressed = some s.2 ∧
      (s.2 = (e.pieces d.ctrl u).flatten.take e.wanted ∧ s.1.crc = e.checksum s.2 ↔
        ¬ Cut e.wanted (e.pieces d.ctrl u)) := by
  obtain ⟨r, table, hcount, ctrl, -, fresh⟩ := prepare_frame prepared
  obtain ⟨out, written, sum, whole, long⟩ := decodeLoop_spec produces (t := d) rfl left
  rw [List.nil_append] at written
  subst written
  rw [List.length_nil, Nat.sub_zero] at whole long
  have crc : s.1.crc = e.checksum s.2 := by
    rw [← sum]
    exact ArcDecoder.checked_crc s.2 (by rw [fresh]; rfl) (by rw [fresh]; rfl) (by rw [fresh]; rfl)
  constructor
  · rw [extract, prepared, Option.bind_some, left, Option.map_some]
  · constructor
    · rintro ⟨exact, -⟩ cut
      have length := long cut
      rw [exact, List.length_take] at length
      omega
    · exact fun uncut => ⟨whole uncut, crc⟩

/- Behind a header of fifteen bytes the control byte, and a run of three. -/
def runBytes : List UInt8 := List.replicate 15 0 ++ [0xFE, 0xFE, 3, 0x42]

def runEntry (size : Nat) : ArcEntry := ⟨[0x41], 2, ARC_MODE_PACKED, size⟩

def runDecoder : ArcDecoder := { (runEntry 0).decoder runBytes with input_pos := 16, ctrl := 0xFE }

theorem run_produces : runDecoder.Produces [0xFE, 3, 0x42] :=
  .next (show runDecoder.unpack 0 = some (0xFE, _) from rfl) rfl
    (.next (show ArcDecoder.unpack 0 _ = some (3, _) from rfl) rfl
      (.next (show ArcDecoder.unpack 0 _ = some (0x42, _) from rfl) rfl
        (.ended (show ArcDecoder.unpack 0 _ = some (0, _) from rfl) rfl)))

theorem extract_exact_whole : (runEntry 3).prepare runBytes = some runDecoder ∧
    runDecoder.Produces [0xFE, 3, 0x42] ∧ ∃ s, (runEntry 3).decodeLoop 0 2 (runDecoder, []) = some s ∧
      (runEntry 3).extract 0 2 runBytes = some s.2 ∧
      (s.2 = ((runEntry 3).pieces runDecoder.ctrl [0xFE, 3, 0x42]).flatten.take (runEntry 3).wanted ∧
          s.1.crc = (runEntry 3).checksum s.2 ↔
        ¬ Cut (runEntry 3).wanted ((runEntry 3).pieces runDecoder.ctrl [0xFE, 3, 0x42])) :=
  ⟨rfl, run_produces, _, rfl, extract_exact rfl run_produces rfl⟩

/-- Two bytes are declared, and the run of three goes out whole. -/
theorem run_over_the_limit :
    ¬ ∀ (e : ArcEntry) (compressed : List UInt8) (d : ArcDecoder) (u : List UInt8) (fuel n : Nat)
        (s : ArcDecoder × List UInt8), e.prepare compressed = some d → d.Produces u →
        e.decodeLoop fuel n (d, []) = some s →
        s.2 = (e.pieces d.ctrl u).flatten.take e.wanted ∧ s.1.crc = e.checksum s.2 := by
  intro exact
  have two := (exact (runEntry 2) runBytes runDecoder _ 0 2 _ rfl run_produces rfl).1
  have length := congrArg List.length two
  revert length
  decide

end ArcEntry

end Meatloaf.Archive
