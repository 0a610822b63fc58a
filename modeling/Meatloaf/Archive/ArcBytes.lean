import Meatloaf.Archive.Crunch

/-! What an ARC decoder produces call by call, before the end of its bytes: that comes, since each
call reads a bit or takes a byte from the stack, and the checksum has no part in it. -/
namespace Meatloaf.Archive

open Lib

namespace ArcDecoder

/- The decoder with the control byte and the checksum of another one. -/
def stamp (t d : ArcDecoder) : ArcDecoder :=
  { d with ctrl := t.ctrl, version := t.version, crc := t.crc, crc2 := t.crc2 }

variable (t : ArcDecoder)

theorem huffinLoop_stamp (n size mask hcode now : Nat) (d : ArcDecoder) :
    huffinLoop n size mask hcode now (stamp t d) = (huffinLoop n size mask hcode now d).map (Prod.map id (stamp t)) := by
  induction n generalizing size mask hcode now d with
  | zero => rfl
  | succ n ih =>
    simp only [huffinLoop, Option.map_bind]
    congr 1
    funext m
    cases m with
    | found v => rfl
    | exhausted => rfl
    | shorter next => exact ih _ _ _ _ { d with toArcReader := d.toArcReader.getBit.2 }

theorem push_stamp (c : UInt8) (d : ArcDecoder) : (stamp t d).push c = stamp t (d.push c) := by
  unfold push
  rw [apply_ite (stamp t)]
  rfl

theorem widen_stamp (d : ArcDecoder) : (stamp t d).widen = stamp t d.widen := by
  unfold widen
  rw [apply_ite (stamp t), apply_ite (stamp t)]
  rfl

theorem getCode_stamp (d : ArcDecoder) : (stamp t d).getCode = Prod.map id (stamp t) d.getCode := by
  refine Prod.ext rfl ?_
  simp only [getCode, Prod.map_snd, ← widen_stamp]
  rw [apply_ite (stamp t)]
  rfl

theorem begin_stamp (d : ArcDecoder) : (stamp t d).begin = Prod.map id (stamp t) d.begin := by
  unfold ArcDecoder.begin
  have code := getCode_stamp t d.clear
  have clear : (stamp t d).clear = stamp t d.clear := rfl
  simp only [clear, code, Prod.map_fst, Prod.map_snd, id_eq]
  rw [apply_ite (Prod.map id (stamp t))]
  rfl

theorem resolve_stamp (incode : Nat) (d : ArcDecoder) :
    (stamp t d).resolve incode = Prod.map id (stamp t) (d.resolve incode) := by
  unfold resolve
  rw [apply_ite (Prod.map id (stamp t)), Prod.map_apply, Prod.map_apply, ← push_stamp]
  rfl

theorem walk_stamp (s : Nat × ArcDecoder) :
    walk (Prod.map id (stamp t) s) = (walk s).map (Prod.map id (stamp t)) := by
  unfold walk
  simp only [apply_ite (Option.map (Prod.map id (stamp t))), Option.map_some, Prod.map_apply, Prod.map_fst,
    Prod.map_snd, push_stamp]
  rfl

theorem expand_stamp (fuel : Nat) (d : ArcDecoder) :
    (stamp t d).expand fuel = (d.expand fuel).map (Prod.map id (stamp t)) := by
  have walked := loop_proj (I := fun _ => True) (fun _ _ _ _ => trivial)
    (fun s _ => (walk_stamp t s).symm) trivial fuel (s := d.getCode.2.resolve d.getCode.1)
  unfold expand
  simp only [getCode_stamp, Prod.map_fst, Prod.map_snd, id_eq, resolve_stamp]
  rw [← walked, apply_ite (Option.map (Prod.map id (stamp t))), Option.map_map, Option.map_map]
  congr 2
  funext s
  rw [Function.comp_apply, Function.comp_apply, apply_ite (Prod.map id (stamp t))]
  rfl

theorem file_stamp (d : ArcDecoder) : (stamp t d).file = stamp t d.file := by
  unfold file
  by_cases room : d.ncodes < ARC_LZW_TABLE_SIZE
  · rw [if_pos room, if_pos (show (stamp t d).ncodes < ARC_LZW_TABLE_SIZE from room)]
    rfl
  · rw [if_neg room, if_neg (show ¬ (stamp t d).ncodes < ARC_LZW_TABLE_SIZE from room)]
    rfl

theorem pop_stamp (d : ArcDecoder) : (stamp t d).pop = Prod.map id (stamp t) d.pop := by
  have stack : (stamp t d).stack = d.stack := rfl
  unfold pop
  rw [stack]
  cases d.stack <;> rfl

theorem uncrunch_stamp (fuel : Nat) (d : ArcDecoder) :
    (stamp t d).uncrunch fuel = (d.uncrunch fuel).map (Prod.map id (stamp t)) := by
  have state : (stamp t d).state = d.state := rfl
  have stack : (stamp t d).stack = d.stack := rfl
  unfold uncrunch
  rw [state]
  split
  · rw [begin_stamp, Option.map_some]
  · exact expand_stamp t fuel d
  · rw [stack, file_stamp, expand_stamp, pop_stamp, apply_ite (Option.map (Prod.map id (stamp t))), Option.map_some]
  · rfl

/-- What a call leaves apart from these does not depend on them, and it leaves them. -/
theorem unpack_stamp (fuel : Nat) (d : ArcDecoder) :
    (stamp t d).unpack fuel = (d.unpack fuel).map (Prod.map id (stamp t)) := by
  have huffin : (stamp t d).huffin = d.huffin.map (Prod.map id (stamp t)) := by
    unfold ArcDecoder.huffin
    rw [apply_ite (Option.map (Prod.map id (stamp t))), ← huffinLoop_stamp]
    rfl
  unfold unpack
  simp only [apply_ite (Option.map (Prod.map id (stamp t))), ← huffin, ← uncrunch_stamp]
  rfl

end ArcDecoder

namespace ArcReader

/-- What comes behind `r` has seen the end, or took at least `n` of the bits that `r` had left. -/
def Draws (n : Nat) (r r' : ArcReader) : Prop :=
  r'.eof = true ∨ r.eof = false ∧ ∀ bits, r.Holds bits → ∃ rest, r'.Holds rest ∧ rest.length + n ≤ bits.length

variable {n m : Nat} {r r' r'' : ArcReader}

theorem Draws.refl (r : ArcReader) : Draws 0 r r := by
  cases alive : r.eof with
  | true => exact .inl alive
  | false => exact .inr ⟨alive, fun bits holds => ⟨bits, holds, Nat.le_refl _⟩⟩

theorem Draws.trans (first : Draws n r r') (second : Draws m r' r'') : Draws (n + m) r r'' := by
  rcases second with finished | ⟨alive, left⟩
  · exact .inl finished
  · rcases first with finished | ⟨fresh, before⟩
    · rw [alive] at finished
      cases finished
    · refine .inr ⟨fresh, fun bits holds => ?_⟩
      obtain ⟨middle, held, fewer⟩ := before bits holds
      obtain ⟨rest, last, least⟩ := left middle held
      exact ⟨rest, last, by omega⟩

theorem Draws.mono (draws : Draws n r r') (fewer : m ≤ n) : Draws m r r' := by
  refine draws.imp_right fun more => ⟨more.1, fun bits holds => ?_⟩
  obtain ⟨rest, held, least⟩ := more.2 bits holds
  exact ⟨rest, held, by omega⟩

theorem getByte_eof (finished : r.eof = true) : r.getByte.2.eof = true := by
  rw [getByte, if_pos (.inl finished)]

theorem getBit_eof (finished : r.eof = true) : r.getBit.2.eof = true := by
  unfold getBit
  dsimp only
  split
  · exact getByte_eof finished
  · exact finished

/- Without a bit that is left, the next one is behind the end. -/
theorem Holds.getBit_nil (holds : r.Holds []) : r.getBit.2.eof = true := by
  obtain ⟨alive, k, x, buffer, small, all⟩ := holds
  rw [eq_comm, List.append_eq_nil_iff, List.map_eq_nil_iff, List.range_eq_nil] at all
  obtain ⟨rfl, empty⟩ := all
  have marker : r.bit_buffer >>> 1 = 1 := by
    rw [Nat.shiftRight_one]
    omega
  have last : r.input.length ≤ r.input_pos := by
    by_contra inside
    rw [List.drop_eq_getElem_cons (by omega)] at empty
    have none := congrArg List.length empty
    simp only [bytesBits, byteBits, List.flatMap_cons, List.length_append, List.length_map, List.length_range,
      List.length_nil] at none
    omega
  unfold ArcReader.getBit
  rw [marker]
  simp only [if_true, getByte, last, or_true]

theorem getBit_draws (r : ArcReader) : Draws 1 r r.getBit.2 := by
  cases alive : r.eof with
  | true => exact .inl (getBit_eof alive)
  | false =>
    by_cases finished : r.getBit.2.eof = true
    · exact .inl finished
    · refine .inr ⟨alive, fun bits holds => ?_⟩
      cases bits with
      | nil => exact absurd holds.getBit_nil finished
      | cons b bits => exact ⟨bits, holds.getBit.2, Nat.le_refl _⟩

theorem getNumber_draws (n code : Nat) (r : ArcReader) : Draws n r (r.getNumber n code).2 := by
  induction n generalizing code r with
  | zero => exact .refl r
  | succ n ih =>
    have both := (getBit_draws r).trans (ih (code <<< 1 ||| r.getBit.1.toNat) r.getBit.2)
    rwa [Nat.add_comm] at both

theorem getMasked_draws (n mask v : Nat) (r : ArcReader) : Draws 0 r (r.getMasked n mask v).2 := by
  induction n generalizing mask v r with
  | zero => exact .refl r
  | succ n ih =>
    exact ((getBit_draws r).trans (ih _ (if r.getBit.1 then v ||| mask else v) r.getBit.2)).mono (Nat.zero_le _)

theorem getByte_draws (r : ArcReader) : Draws 1 r r.getByte.2 := by
  by_cases last : r.eof ∨ r.input.length ≤ r.input_pos
  · exact .inl (by rw [getByte, if_pos last])
  · rw [not_or, Bool.not_eq_true] at last
    refine .inr ⟨last.1, fun bits holds => ?_⟩
    obtain ⟨alive, k, x, buffer, small, rfl⟩ := holds
    have byte : r.getByte.2 = { r with input_pos := r.input_pos + 1 } := by
      rw [getByte, if_neg (by simp [last])]
    rw [byte]
    refine ⟨_, ⟨alive, k, x, buffer, small, rfl⟩, ?_⟩
    rw [List.drop_eq_getElem_cons (show r.input_pos < r.input.length by omega)]
    simp only [bytesBits, byteBits, List.flatMap_cons, List.length_append, List.length_map, List.length_range]
    omega

end ArcReader

namespace ArcDecoder

open ArcReader

variable {d e f : ArcDecoder} {n m k : Nat}

/- What a part of a call does to the bits, the stack and the width of the codes. -/
structure Spends (n : Nat) (d e : ArcDecoder) : Prop where
  draws : Draws n d.toArcReader e.toArcReader
  room : d.stack.length ≤ ARC_LZW_STACK_SIZE → e.stack.length ≤ ARC_LZW_STACK_SIZE
  width : d.cdlen ≠ 0 → e.cdlen ≠ 0

theorem Spends.trans (first : Spends n d e) (second : Spends m e f) : Spends (n + m) d f :=
  ⟨first.draws.trans second.draws, second.room ∘ first.room, second.width ∘ first.width⟩

theorem Spends.mono (spends : Spends n d e) (fewer : m ≤ n) : Spends m d e :=
  ⟨spends.draws.mono fewer, spends.room, spends.width⟩

theorem huffinLoop_spends (n size mask hcode now : Nat) (d : ArcDecoder) {r : UInt8 × ArcDecoder}
    (called : huffinLoop n size mask hcode now d = some r) : Spends 1 d r.2 ∧ r.2.state = d.state := by
  induction n generalizing size mask hcode now d with
  | zero =>
    cases called
    exact ⟨⟨.inl rfl, id, id⟩, rfl⟩
  | succ n ih =>
    rw [huffinLoop, Option.bind_eq_some_iff] at called
    obtain ⟨m, -, called⟩ := called
    have bit := getBit_draws d.toArcReader
    cases m with
    | found v =>
      cases called
      exact ⟨⟨bit, id, id⟩, rfl⟩
    | exhausted =>
      cases called
      exact ⟨⟨.inl rfl, id, id⟩, rfl⟩
    | shorter next =>
      obtain ⟨rest, state⟩ := ih _ _ _ _ { d with toArcReader := d.toArcReader.getBit.2 } called
      exact ⟨⟨(bit.trans rest.draws).mono (by omega), rest.room, rest.width⟩, state⟩

theorem push_spends (c : UInt8) (d : ArcDecoder) : Spends 0 d (d.push c) := by
  unfold push
  split
  · exact ⟨.inl rfl, id, id⟩
  · exact ⟨.refl _, fun _ => by simp only [List.length_cons]; omega, id⟩

theorem getCode_spends (d : ArcDecoder) : Spends d.cdlen d d.getCode.2 := by
  have code := getNumber_draws d.cdlen 0 d.toArcReader
  have wider : ∀ e : ArcDecoder, e.cdlen ≠ 0 → e.widen.cdlen ≠ 0 := by
    intro e width
    unfold widen
    split
    · split
      · exact Nat.succ_ne_zero _
      · exact width
    · exact width
  unfold getCode
  dsimp only
  split
  · have frame := widen_frame (d.reading (d.toArcReader.getNumber d.cdlen 0)).2.getTrailer
    have trailer := ((getNumber_draws 16 0 _).trans (getNumber_draws 24 0 _)).trans
      (getNumber_draws 16 0 ((d.toArcReader.getNumber d.cdlen 0).2.getNumber 16 0 |>.2.getNumber 24 0).2)
    refine ⟨?_, fun room => ?_, fun width => wider _ width⟩
    · rw [frame.1]
      exact (code.trans trailer).mono (Nat.le_add_right _ _)
    · rw [frame.2.1]
      exact room
  · have frame := widen_frame (d.reading (d.toArcReader.getNumber d.cdlen 0)).2
    refine ⟨?_, fun room => ?_, fun width => wider _ width⟩
    · rw [frame.1]
      exact code
    · rw [frame.2.1]
      exact room

theorem resolve_spends (incode : Nat) (d : ArcDecoder) : Spends 0 d (d.resolve incode).2 := by
  unfold resolve
  split
  · have pushed := push_spends d.finchar { d with kay := d.finchar, incode := d.ncodes }
    exact ⟨pushed.draws, pushed.room, pushed.width⟩
  · exact ⟨.refl _, id, id⟩

theorem expand_spends {fuel : Nat} {r : UInt8 × ArcDecoder} (called : d.expand fuel = some r) :
    Spends d.cdlen d r.2 := by
  have code := getCode_spends d
  rw [expand] at called
  split at called
  · cases called
    exact ⟨.inl rfl, code.room, code.width⟩
  · rw [Option.map_eq_some_iff] at called
    obtain ⟨s, left, rfl⟩ := called
    have walked : Spends d.cdlen d s.2 := by
      apply (loop_keeps (I := fun s : Nat × ArcDecoder => Spends d.cdlen d s.2) _
        (code.trans (resolve_spends ..)) left).1
      intro s t kept taken
      simp only [walk, Option.ite_none_right_eq_some, Option.some.injEq] at taken
      obtain ⟨-, rfl⟩ := taken
      exact kept.trans (push_spends ..)
    split
    · exact ⟨.inl rfl, walked.room, walked.width⟩
    · exact ⟨walked.draws, walked.room, walked.width⟩

/- A bound on the calls before the end: each reads a bit, or takes one of the bytes from the stack. -/
def Lasts (d : ArcDecoder) (k : Nat) : Prop :=
  d.eof = true ∨ d.stack.length ≤ ARC_LZW_STACK_SIZE ∧ (d.state ≠ 0 → d.cdlen ≠ 0) ∧
    ∃ bits, d.toArcReader.Holds bits ∧ (ARC_LZW_STACK_SIZE + 1) * bits.length + d.stack.length < k

theorem Lasts.spend (lasts : d.Lasts k) (spends : Spends 1 d e) (begun : e.state ≠ 0 → d.state ≠ 0 ∨ d.cdlen ≠ 0) :
    e.Lasts (k - 1) := by
  rcases spends.draws with finished | ⟨alive, left⟩
  · exact .inl finished
  · rcases lasts with finished | ⟨room, width, bits, holds, few⟩
    · rw [alive] at finished
      cases finished
    · obtain ⟨rest, held, fewer⟩ := left bits holds
      have stack := spends.room room
      refine .inr ⟨stack, fun started => spends.width ((begun started).elim width id), rest, held, ?_⟩
      simp only [ARC_LZW_STACK_SIZE] at *
      omega

theorem Lasts.file (lasts : d.Lasts k) (started : d.state ≠ 0) : d.file.Lasts k ∧ d.file.state ≠ 0 := by
  refine ⟨?_, Nat.one_ne_zero⟩
  unfold ArcDecoder.file
  split
  · exact lasts.imp id fun ⟨room, width, bits⟩ => ⟨room, fun _ => width started, bits⟩
  · exact lasts.imp id fun ⟨room, width, bits⟩ => ⟨room, fun _ => width started, bits⟩

theorem Lasts.expand (lasts : d.Lasts k) (started : d.state ≠ 0) {fuel : Nat} {r : UInt8 × ArcDecoder}
    (called : d.expand fuel = some r) : r.2.Lasts (k - 1) := by
  have spends := expand_spends called
  by_cases width : d.cdlen = 0
  · -- there are no codes without a bit after the first one
    rcases lasts with finished | ⟨-, wide, -⟩
    · rcases spends.draws with finished' | ⟨alive, -⟩
      · exact .inl finished'
      · rw [alive] at finished
        cases finished
    · exact absurd width (wide started)
  · exact lasts.spend (spends.mono (Nat.one_le_iff_ne_zero.mpr width)) fun _ => .inl started

theorem Lasts.uncrunch (lasts : d.Lasts k) {fuel : Nat} {r : UInt8 × ArcDecoder} (called : d.uncrunch fuel = some r) :
    r.2.Lasts (k - 1) := by
  unfold ArcDecoder.uncrunch at called
  split at called
  · rename_i fresh
    cases called
    have cleared : d.clear.Lasts k := by
      refine lasts.imp id fun ⟨_, _, bits, holds, few⟩ => ⟨Nat.zero_le _, fun _ => Nat.succ_ne_zero 8, bits, holds, ?_⟩
      exact (Nat.add_le_add_left (Nat.zero_le _) _).trans_lt few
    have code := getCode_spends d.clear
    have width : d.clear.cdlen = 9 := rfl
    refine cleared.spend (e := d.begin.2) (Spends.mono (n := 9) ?_ (by decide)) fun _ => .inr (by rw [width]; decide)
    rw [width] at code
    unfold ArcDecoder.begin
    dsimp only
    split
    · exact ⟨.inl rfl, code.room, code.width⟩
    · exact ⟨code.draws, code.room, code.width⟩
  · rename_i first
    exact lasts.expand (by omega) called
  · rename_i second
    split at called
    · obtain ⟨filed, started⟩ := lasts.file (by omega)
      exact filed.expand started called
    · rename_i more
      cases called
      unfold ArcDecoder.pop
      split
      · exact .inl rfl
      · rename_i c stack pushed
        refine lasts.imp id fun ⟨room, width, bits, holds, few⟩ => ?_
        rw [pushed, List.length_cons] at room few
        exact ⟨Nat.le_of_succ_le room, width, bits, holds, by dsimp only; omega⟩
  · cases called
    exact .inl rfl

theorem Lasts.unpack (lasts : d.Lasts k) {fuel : Nat} {r : UInt8 × ArcDecoder} (called : d.unpack fuel = some r) :
    r.2.Lasts (k - 1) := by
  unfold ArcDecoder.unpack at called
  split at called
  · cases called
    exact lasts.spend ⟨getByte_draws d.toArcReader, id, id⟩ .inl
  · split at called
    · rw [huffin, Option.ite_none_left_eq_some] at called
      obtain ⟨spends, state⟩ := huffinLoop_spends _ _ _ _ _ d called.2
      exact lasts.spend spends fun started => .inl (state ▸ started)
    · split at called
      · exact lasts.uncrunch called
      · cases called
        exact .inl rfl

theorem unpack_eof (finished : d.eof = true) {fuel : Nat} {r : UInt8 × ArcDecoder} (called : d.unpack fuel = some r) :
    r.2.eof = true := by
  have after := Lasts.unpack (k := 0) (.inl finished) called
  exact after.resolve_right fun ⟨_, _, _, _, few⟩ => Nat.not_lt_zero _ few

/-- The bytes that one call after the other produces, until a call sees the end or never returns. -/
inductive Produces : ArcDecoder → List UInt8 → Prop
  | ended {d : ArcDecoder} {fuel : Nat} {r : UInt8 × ArcDecoder} (called : d.unpack fuel = some r)
    (finished : r.2.eof = true) : Produces d []
  | stuck {d : ArcDecoder} (never : ∀ fuel, d.unpack fuel = none) : Produces d []
  | next {d : ArcDecoder} {fuel : Nat} {r : UInt8 × ArcDecoder} {u : List UInt8} (called : d.unpack fuel = some r)
    (alive : r.2.eof = false) (rest : Produces r.2 u) : Produces d (r.1 :: u)

variable {u : List UInt8}

theorem produces_nothing (never : ¬ ∃ fuel r, d.unpack fuel = some r) : d.Produces [] :=
  .stuck fun fuel => Option.eq_none_iff_forall_ne_some.mpr fun r called => never ⟨fuel, r, called⟩

/-- They come to an end. -/
theorem Lasts.produces (lasts : d.Lasts k) : ∃ u, d.Produces u := by
  induction k generalizing d with
  | zero =>
    rcases lasts with finished | ⟨-, -, bits, -, few⟩
    · by_cases returns : ∃ fuel r, d.unpack fuel = some r
      · obtain ⟨fuel, r, called⟩ := returns
        exact ⟨[], .ended called (unpack_eof finished called)⟩
      · exact ⟨[], produces_nothing returns⟩
    · omega
  | succ k ih =>
    by_cases returns : ∃ fuel r, d.unpack fuel = some r
    · obtain ⟨fuel, r, called⟩ := returns
      cases alive : r.2.eof with
      | true => exact ⟨[], .ended called alive⟩
      | false =>
        obtain ⟨u, rest⟩ := ih (lasts.unpack called)
        exact ⟨r.1 :: u, .next called alive rest⟩
    · exact ⟨[], produces_nothing returns⟩

/- More fuel changes nothing. -/
theorem expand_more {fuel more : Nat} (enough : fuel ≤ more) {r : UInt8 × ArcDecoder} (called : d.expand fuel = some r) :
    d.expand more = some r := by
  unfold ArcDecoder.expand at called ⊢
  dsimp only at called ⊢
  split at called
  · rwa [if_pos ‹_›]
  · rw [if_neg ‹_›]
    rw [Option.map_eq_some_iff] at called ⊢
    obtain ⟨s, left, rfl⟩ := called
    exact ⟨s, loop_more enough left, rfl⟩

theorem uncrunch_more {fuel more : Nat} (enough : fuel ≤ more) {r : UInt8 × ArcDecoder}
    (called : d.uncrunch fuel = some r) : d.uncrunch more = some r := by
  rcases state : d.state with _ | _ | _ | n <;> simp only [ArcDecoder.uncrunch, state] at called ⊢
  · exact called
  · exact expand_more enough called
  · split at called
    · rw [if_pos ‹_›]
      exact expand_more enough called
    · rwa [if_neg ‹_›]
  · exact called

theorem unpack_more {fuel more : Nat} (enough : fuel ≤ more) {r : UInt8 × ArcDecoder} (called : d.unpack fuel = some r) :
    d.unpack more = some r := by
  unfold ArcDecoder.unpack at called ⊢
  split at called
  · rwa [if_pos ‹_›]
  · rw [if_neg ‹_›]
    split at called
    · rwa [if_pos ‹_›]
    · rw [if_neg ‹_›]
      split at called
      · rw [if_pos ‹_›]
        exact uncrunch_more enough called
      · rwa [if_neg ‹_›]

theorem unpack_unique {fuel fuel' : Nat} {r r' : UInt8 × ArcDecoder} (called : d.unpack fuel = some r)
    (called' : d.unpack fuel' = some r') : r = r' := by
  have both := unpack_more (Nat.le_max_left fuel fuel') called
  rw [unpack_more (Nat.le_max_right fuel fuel') called'] at both
  exact (Option.some.inj both).symm

/- The first of the bytes is what a call returns, unless that sees the end. -/
theorem Produces.call (produces : d.Produces u) {fuel : Nat} {r : UInt8 × ArcDecoder} (called : d.unpack fuel = some r) :
    r.2.eof = true ∧ u = [] ∨ r.2.eof = false ∧ ∃ v, u = r.1 :: v ∧ r.2.Produces v := by
  cases produces with
  | ended called' finished => exact .inl ⟨unpack_unique called' called ▸ finished, rfl⟩
  | stuck never =>
    rw [never fuel] at called
    cases called
  | next called' alive rest =>
    obtain rfl := unpack_unique called' called
    exact .inr ⟨alive, _, rfl, rest⟩

theorem Produces.unique (produces : d.Produces u) {v : List UInt8} (produces' : d.Produces v) : u = v := by
  induction produces generalizing v with
  | ended called finished =>
    rcases produces'.call called with ⟨-, empty⟩ | ⟨alive, -⟩
    · exact empty.symm
    · rw [finished] at alive
      cases alive
  | stuck never =>
    cases produces' with
    | ended called => exact absurd called (by simp [never])
    | stuck => rfl
    | next called => exact absurd called (by simp [never])
  | next called alive rest ih =>
    rcases produces'.call called with ⟨finished, -⟩ | ⟨-, w, rfl, rest'⟩
    · rw [alive] at finished
      cases finished
    · rw [ih rest']

theorem Produces.stamp (t : ArcDecoder) (produces : d.Produces u) :
    (ArcDecoder.stamp t d).Produces u := by
  induction produces with
  | @ended d fuel r called finished =>
    have stamped : (ArcDecoder.stamp t d).unpack fuel = some (Prod.map id (ArcDecoder.stamp t) r) := by
      rw [unpack_stamp, called, Option.map_some]
    exact .ended stamped finished
  | stuck never => exact .stuck fun fuel => by rw [unpack_stamp, never, Option.map_none]
  | @next d fuel r u called alive rest ih =>
    have stamped : (ArcDecoder.stamp t d).unpack fuel = some (Prod.map id (ArcDecoder.stamp t) r) := by
      rw [unpack_stamp, called, Option.map_some]
    exact .next (r := Prod.map id (ArcDecoder.stamp t) r) stamped alive ih

/- The checksum goes over these bytes. -/
def checked (data : List UInt8) (d : ArcDecoder) : ArcDecoder := data.foldl (fun d c => d.updateChecksum c) d

@[simp] theorem checked_append (data more : List UInt8) (d : ArcDecoder) :
    checked (data ++ more) d = checked more (checked data d) := List.foldl_append

@[simp] theorem updateChecksum_ctrl (c : UInt8) (d : ArcDecoder) : (d.updateChecksum c).ctrl = d.ctrl := by
  unfold updateChecksum
  split <;> rfl

@[simp] theorem checked_ctrl (data : List UInt8) (d : ArcDecoder) : (checked data d).ctrl = d.ctrl := by
  induction data generalizing d with
  | nil => rfl
  | cons c data ih => exact (ih _).trans (updateChecksum_ctrl c d)

theorem updateChecksum_stamp (c : UInt8) (t d : ArcDecoder) :
    (stamp t d).updateChecksum c = stamp (t.updateChecksum c) d := by
  unfold updateChecksum
  split
  · rw [if_pos (show t.version = 1 from ‹_›)]
    rfl
  · rw [if_neg (show ¬ t.version = 1 from ‹_›)]
    rfl

theorem checked_stamp (data : List UInt8) (t d : ArcDecoder) : checked data (stamp t d) = stamp (checked data t) d := by
  induction data generalizing t with
  | nil => rfl
  | cons c data ih => exact (congrArg (checked data) (updateChecksum_stamp c t d)).trans (ih _)

theorem checked_same (data : List UInt8) {t : ArcDecoder} (same : ArcDecoder.stamp t d = d) :
    ArcDecoder.stamp (ArcDecoder.checked data t) (ArcDecoder.checked data d) = ArcDecoder.checked data d := by
  have result : ArcDecoder.checked data d = ArcDecoder.stamp (ArcDecoder.checked data t) d := by
    rw [← checked_stamp, same]
  rw [result]
  rfl

theorem Produces.checked (produces : d.Produces u) (data : List UInt8) : (checked data d).Produces u :=
  checked_stamp data d d ▸ produces.stamp (ArcDecoder.checked data d)

/- The checksum depends on what it was and on the version alone. -/
theorem checked_crc (data : List UInt8) {d e : ArcDecoder} (version : d.version = e.version) (crc : d.crc = e.crc)
    (crc2 : d.crc2 = e.crc2) : (ArcDecoder.checked data d).crc = (ArcDecoder.checked data e).crc := by
  induction data generalizing d e with
  | nil => exact crc
  | cons c data ih =>
    refine ih (d := d.updateChecksum c) (e := e.updateChecksum c) ?_ ?_ ?_ <;> unfold updateChecksum <;>
      rw [version] <;> split <;> simp only [crc, crc2]

/- A call has no part in the checksum. -/
theorem unpack_same {fuel : Nat} {r : UInt8 × ArcDecoder} (called : d.unpack fuel = some r) {t : ArcDecoder}
    (same : ArcDecoder.stamp t d = d) : ArcDecoder.stamp t r.2 = r.2 := by
  have stamped := unpack_stamp t fuel d
  rw [same, called, Option.map_some, Option.some.injEq] at stamped
  exact (congrArg Prod.snd stamped).symm

end ArcDecoder

end Meatloaf.Archive
