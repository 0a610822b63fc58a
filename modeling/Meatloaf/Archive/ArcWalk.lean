import Meatloaf.Archive.Arc

/-! Whether the LZW decoder of an ARC entry comes to an end. The prefix of an entry is an older
entry, so the walk from prefix to prefix goes down; but the prefix of entry 258 is the first code
of the stream, which nothing checks. -/
namespace Meatloaf.Archive

open Lib Function

namespace ArcDecoder

/- The walk, as far as its length goes. -/
def link (prefixes : Nat → Nat) (code : Nat) : Option Nat :=
  if 255 < code ∧ code < ARC_LZW_TABLE_SIZE then some (prefixes code) else none

/- The walk from a code comes to another one. -/
def Leads (prefixes : Nat → Nat) (code target : Nat) : Prop := ∃ n, pass (link prefixes) n code = some target

/- The code that is read next is expanded by way of entry 258, and that entry leads to itself. -/
def Recurs (d : ArcDecoder) : Prop :=
  d.getCode.1 ≠ ARC_LZW_EOF ∧ Leads d.lz_prefixes (d.getCode.2.resolve d.getCode.1).1 258 ∧
    Leads d.lz_prefixes (d.lz_prefixes 258) 258

/- No such code is expanded in the next call. -/
def Straight (d : ArcDecoder) : Prop :=
  (d.state = 1 → ¬ d.Recurs) ∧ (d.state = 2 → d.stack = [] → ¬ d.file.Recurs)

/- The order of the table. -/
structure Descends (prefixes : Nat → Nat) : Prop where
  reserved : ∀ code < 258, prefixes code < 256
  entries : ∀ code, 258 < code → prefixes code < code
  first : prefixes 258 < ARC_LZW_TABLE_SIZE

variable {prefixes : Nat → Nat} {code target : Nat} {d e : ArcDecoder}

theorem link_some {next : Nat} (taken : link prefixes code = some next) :
    255 < code ∧ code < ARC_LZW_TABLE_SIZE ∧ next = prefixes code := by
  simp only [link, Option.ite_none_right_eq_some, Option.some.injEq] at taken
  exact ⟨taken.1.1, taken.1.2, taken.2.symm⟩

/- A walk that leads somewhere is there or takes a step. -/
theorem Leads.cases (leads : Leads prefixes code target) :
    code = target ∨ ∃ next, link prefixes code = some next ∧ Leads prefixes next target := by
  obtain ⟨n, reached⟩ := leads
  cases n with
  | zero => exact .inl (Option.some.inj reached)
  | succ n =>
    rw [Lib.pass, Option.bind_eq_some_iff] at reached
    obtain ⟨next, taken, rest⟩ := reached
    exact .inr ⟨next, taken, n, rest⟩

theorem Leads.step {next : Nat} (taken : link prefixes code = some next) (leads : Leads prefixes next target) :
    Leads prefixes code target := by
  obtain ⟨n, reached⟩ := leads
  exact ⟨n + 1, by rw [Lib.pass, taken]; exact reached⟩

theorem Descends.lower (descends : Descends prefixes) {next : Nat} (taken : link prefixes code = some next)
    (other : code ≠ 258) : next < code := by
  obtain ⟨large, -, rfl⟩ := link_some taken
  by_cases reserved : code < 258
  · have := descends.reserved code reserved
    omega
  · exact descends.entries code (by omega)

/-- A walk ends unless it comes to entry 258 and that comes to itself; and then soon. -/
theorem Descends.ends (descends : Descends prefixes) (small : code < ARC_LZW_TABLE_SIZE)
    (straight : ¬ (Leads prefixes code 258 ∧ Leads prefixes (prefixes 258) 258)) :
    (loop (link prefixes) 8193 code).isSome := by
  by_cases passes : Leads prefixes code 258
  · -- down to 258, from there to its prefix, and down again without coming back
    have unreturned : ¬ Leads prefixes (prefixes 258) 258 := fun back => straight ⟨passes, back⟩
    classical
    apply loop_ends (I := fun code => code < ARC_LZW_TABLE_SIZE)
      (fun code => if Leads prefixes code 258 then ARC_LZW_TABLE_SIZE + code else code) _ small
    · rw [if_pos passes]
      simp only [ARC_LZW_TABLE_SIZE] at *
      omega
    · intro code next inside taken
      by_cases first : code = 258
      · subst first
        obtain ⟨-, -, rfl⟩ := link_some taken
        refine ⟨descends.first, ?_⟩
        rw [if_neg unreturned, if_pos ⟨0, rfl⟩]
        exact Nat.lt_add_right _ descends.first
      · have lower := descends.lower taken first
        refine ⟨lower.trans inside, ?_⟩
        split
        · rename_i ahead
          rw [if_pos (ahead.step taken)]
          omega
        · split <;> omega
  · apply loop_ends (I := fun code => ¬ Leads prefixes code 258) id _ passes
    · simp only [ARC_LZW_TABLE_SIZE, id_eq] at *
      omega
    · intro code next apart taken
      refine ⟨fun leads => apart (leads.step taken), descends.lower taken ?_⟩
      rintro rfl
      exact apart ⟨0, rfl⟩

/-- A walk that comes back to entry 258 goes round for ever. -/
theorem endless (arrives : Leads prefixes code 258) (returns : Leads prefixes (prefixes 258) 258) (fuel : Nat) :
    loop (link prefixes) fuel code = none := by
  apply loop_endless (I := fun code => Leads prefixes code 258) _ arrives
  intro code leads
  rcases leads.cases with rfl | ⟨next, taken, rest⟩
  · exact ⟨prefixes 258, by simp [link, ARC_LZW_TABLE_SIZE], returns⟩
  · exact ⟨next, taken, rest⟩

theorem push_lz_prefixes (c : UInt8) (d : ArcDecoder) : (d.push c).lz_prefixes = d.lz_prefixes := by
  unfold push
  split <;> rfl

/-- The loop of `uncrunch` takes as many passes as the walk on the codes. -/
theorem walk_proj (fuel code : Nat) (d : ArcDecoder) :
    (loop walk fuel (code, d)).map Prod.fst = loop (link d.lz_prefixes) fuel code := by
  apply loop_proj (I := fun s : Nat × ArcDecoder => s.2.lz_prefixes = d.lz_prefixes) _ _ rfl
  · intro s t same taken
    simp only [walk, Option.ite_none_right_eq_some, Option.some.injEq] at taken
    obtain ⟨-, rfl⟩ := taken
    exact (push_lz_prefixes ..).trans same
  · intro s same
    simp only [walk, link]
    split
    · rw [Option.map_some, same]
    · rfl

theorem getNumber_lt (n code : Nat) (r : ArcReader) : (r.getNumber n code).1 < (code + 1) * 2 ^ n := by
  induction n generalizing code r with
  | zero => simp [ArcReader.getNumber]
  | succ n ih =>
    have bit := Bool.toNat_lt r.getBit.1
    have next : (code <<< 1 ||| r.getBit.1.toNat) = code * 2 + r.getBit.1.toNat := by
      rw [← Nat.shiftLeft_add_eq_or_of_lt (by simpa using bit), Nat.shiftLeft_eq]
    calc (r.getNumber (n + 1) code).1 < (code * 2 + r.getBit.1.toNat + 1) * 2 ^ n := next ▸ ih _ _
      _ ≤ ((code + 1) * 2) * 2 ^ n := Nat.mul_le_mul_right _ (by omega)
      _ = (code + 1) * 2 ^ (n + 1) := by rw [Nat.pow_succ, Nat.mul_assoc, Nat.mul_comm 2]

/- What reading a code and pushing a byte leave alone. -/
structure Kept (d e : ArcDecoder) : Prop where
  lz_prefixes : e.lz_prefixes = d.lz_prefixes
  lz_ext : e.lz_ext = d.lz_ext
  state : e.state = d.state
  oldcode : e.oldcode = d.oldcode
  incode : e.incode = d.incode
  ncodes : e.ncodes = d.ncodes
  mode : e.mode = d.mode

theorem Kept.refl (d : ArcDecoder) : Kept d d := ⟨rfl, rfl, rfl, rfl, rfl, rfl, rfl⟩

theorem Kept.trans {f : ArcDecoder} (first : Kept d e) (second : Kept e f) : Kept d f where
  lz_prefixes := second.lz_prefixes.trans first.lz_prefixes
  lz_ext := second.lz_ext.trans first.lz_ext
  state := second.state.trans first.state
  oldcode := second.oldcode.trans first.oldcode
  incode := second.incode.trans first.incode
  ncodes := second.ncodes.trans first.ncodes
  mode := second.mode.trans first.mode

theorem push_kept (c : UInt8) (d : ArcDecoder) : Kept d (d.push c) ∧ (d.push c).cdlen = d.cdlen := by
  unfold push
  split
  · exact ⟨⟨rfl, rfl, rfl, rfl, rfl, rfl, rfl⟩, rfl⟩
  · exact ⟨⟨rfl, rfl, rfl, rfl, rfl, rfl, rfl⟩, rfl⟩

theorem widen_kept (d : ArcDecoder) : Kept d d.widen ∧ (d.cdlen ≤ 12 → d.widen.cdlen ≤ 12) := by
  unfold widen
  split
  · split
    · exact ⟨⟨rfl, rfl, rfl, rfl, rfl, rfl, rfl⟩, fun _ => ‹d.cdlen < 12›⟩
    · exact ⟨⟨rfl, rfl, rfl, rfl, rfl, rfl, rfl⟩, id⟩
  · exact ⟨Kept.refl d, id⟩

theorem getCode_kept (d : ArcDecoder) : Kept d d.getCode.2 ∧ (d.cdlen ≤ 12 → d.getCode.2.cdlen ≤ 12) := by
  unfold getCode
  dsimp only
  split
  · have last := widen_kept (d.reading (d.toArcReader.getNumber d.cdlen 0)).2.getTrailer
    exact ⟨⟨last.1.lz_prefixes, last.1.lz_ext, last.1.state, last.1.oldcode, last.1.incode, last.1.ncodes,
      last.1.mode⟩, last.2⟩
  · have last := widen_kept (d.reading (d.toArcReader.getNumber d.cdlen 0)).2
    exact ⟨⟨last.1.lz_prefixes, last.1.lz_ext, last.1.state, last.1.oldcode, last.1.incode, last.1.ncodes,
      last.1.mode⟩, last.2⟩

theorem getCode_lt (narrow : d.cdlen ≤ 12) : d.getCode.1 < ARC_LZW_TABLE_SIZE := by
  have code := getNumber_lt d.cdlen 0 d.toArcReader
  rw [Nat.zero_add, Nat.one_mul] at code
  exact code.trans_le (Nat.pow_le_pow_right (by decide) narrow)

/-- The invariant: the table descends, but for the first entry. -/
structure Tidy (d : ArcDecoder) : Prop where
  descends : Descends d.lz_prefixes
  narrow : d.cdlen ≤ 12
  crunched : d.mode = ARC_MODE_CRUNCHED ∨ d.mode = ARC_MODE_CRUNCHED1
  counted : d.state ≠ 0 → 258 ≤ d.ncodes ∧ d.ncodes ≤ ARC_LZW_TABLE_SIZE
  old : d.state ≠ 0 → d.oldcode < d.ncodes ∨ d.ncodes = 258 ∧ d.oldcode < ARC_LZW_TABLE_SIZE
  current : d.state = 2 → d.incode < d.ncodes ∨ d.incode = d.ncodes ∧ d.ncodes < ARC_LZW_TABLE_SIZE

/-- The first code of a stream. -/
theorem Tidy.begin (tidy : d.Tidy) (fresh : d.state = 0) : d.begin.2.Tidy := by
  have kept := getCode_kept d.clear
  have narrow : d.clear.cdlen ≤ 12 := show 9 ≤ 12 by decide
  have short := getCode_lt narrow
  have descends : Descends d.clear.getCode.2.lz_prefixes := kept.1.lz_prefixes ▸ tidy.descends
  have crunched : d.clear.getCode.2.mode = ARC_MODE_CRUNCHED ∨ d.clear.getCode.2.mode = ARC_MODE_CRUNCHED1 :=
    kept.1.mode ▸ tidy.crunched
  have count : d.clear.getCode.2.ncodes = 258 := kept.1.ncodes
  have state : d.clear.getCode.2.state = 0 := kept.1.state.trans fresh
  unfold ArcDecoder.begin
  dsimp only
  split
  · exact ⟨descends, kept.2 narrow, crunched, fun started => absurd state started, fun started => absurd state started,
      fun second => absurd (state.symm.trans second) (by decide)⟩
  · exact ⟨descends, kept.2 narrow, crunched, fun _ => ⟨count.ge, count.le.trans (by decide)⟩,
      fun _ => .inr ⟨count, short⟩, nofun⟩

/-- A new entry's prefix is below it. -/
theorem Tidy.file (tidy : d.Tidy) (second : d.state = 2) : d.file.Tidy ∧ d.file.state = 1 := by
  have started : d.state ≠ 0 := by omega
  have counted := tidy.counted started
  have old := tidy.old started
  have current := tidy.current second
  refine ⟨?_, rfl⟩
  unfold ArcDecoder.file
  split
  · refine ⟨⟨?_, ?_, ?_⟩, tidy.narrow, tidy.crunched, fun _ => ⟨?_, ?_⟩, fun _ => .inl ?_, nofun⟩
    · intro code reserved
      dsimp only
      rw [update_of_ne (by omega)]
      exact tidy.descends.reserved code reserved
    · intro code large
      dsimp only
      by_cases here : code = d.ncodes
      · subst here
        rw [update_self]
        omega
      · rw [update_of_ne here]
        exact tidy.descends.entries code large
    · dsimp only
      by_cases here : 258 = d.ncodes
      · rw [here, update_self]
        simp only [ARC_LZW_TABLE_SIZE] at *
        omega
      · rw [update_of_ne here]
        exact tidy.descends.first
    all_goals
      dsimp only
      omega
  · refine ⟨tidy.descends, tidy.narrow, tidy.crunched, fun _ => counted, fun _ => .inl ?_, nofun⟩
    dsimp only
    omega

/- The invariant while a string is expanded: the code that comes to be the old one is known. -/
structure Expanding (d : ArcDecoder) : Prop where
  descends : Descends d.lz_prefixes
  narrow : d.cdlen ≤ 12
  crunched : d.mode = ARC_MODE_CRUNCHED ∨ d.mode = ARC_MODE_CRUNCHED1
  counted : 258 ≤ d.ncodes ∧ d.ncodes ≤ ARC_LZW_TABLE_SIZE
  old : d.oldcode < d.ncodes ∨ d.ncodes = 258 ∧ d.oldcode < ARC_LZW_TABLE_SIZE
  current : d.incode < d.ncodes ∨ d.incode = d.ncodes ∧ d.ncodes < ARC_LZW_TABLE_SIZE

theorem Expanding.tidy (expanding : d.Expanding) : d.Tidy :=
  ⟨expanding.descends, expanding.narrow, expanding.crunched, fun _ => expanding.counted, fun _ => expanding.old,
    fun _ => expanding.current⟩

theorem Expanding.push (expanding : d.Expanding) (c : UInt8) : (d.push c).Expanding := by
  obtain ⟨kept, width⟩ := push_kept c d
  constructor
  · exact kept.lz_prefixes ▸ expanding.descends
  · exact width ▸ expanding.narrow
  · exact kept.mode ▸ expanding.crunched
  · exact kept.ncodes ▸ expanding.counted
  · rw [kept.ncodes, kept.oldcode]
    exact expanding.old
  · rw [kept.ncodes, kept.incode]
    exact expanding.current

/-- What is expanded for a code that was read. -/
theorem Tidy.resolve (tidy : d.Tidy) (started : d.state ≠ 0) {incode : Nat} (short : incode < ARC_LZW_TABLE_SIZE) :
    (d.resolve incode).1 < ARC_LZW_TABLE_SIZE ∧ (d.resolve incode).2.Expanding ∧
      (d.resolve incode).2.lz_prefixes = d.lz_prefixes := by
  have old := tidy.old started
  have counted := tidy.counted started
  unfold ArcDecoder.resolve
  split
  · have expanding : Expanding { d with kay := d.finchar, incode := d.ncodes } :=
      ⟨tidy.descends, tidy.narrow, tidy.crunched, counted, old, .inr ⟨rfl, by dsimp only; omega⟩⟩
    exact ⟨by dsimp only; omega, expanding.push _, push_lz_prefixes ..⟩
  · exact ⟨short, ⟨tidy.descends, tidy.narrow, tidy.crunched, counted, old, .inl (by dsimp only; omega)⟩, rfl⟩

/- A code is read in a state that is not the first. -/
theorem Tidy.getCode (tidy : d.Tidy) : d.getCode.2.Tidy := by
  obtain ⟨kept, narrow⟩ := getCode_kept d
  constructor
  · exact kept.lz_prefixes ▸ tidy.descends
  · exact narrow tidy.narrow
  · exact kept.mode ▸ tidy.crunched
  · rw [kept.state, kept.ncodes]
    exact tidy.counted
  · rw [kept.state, kept.ncodes, kept.oldcode]
    exact tidy.old
  · rw [kept.state, kept.ncodes, kept.incode]
    exact tidy.current

theorem Tidy.expand (tidy : d.Tidy) (started : d.state ≠ 0) {fuel : Nat} {r : UInt8 × ArcDecoder}
    (expanded : d.expand fuel = some r) : r.2.Tidy := by
  have next := tidy.getCode
  have begun : d.getCode.2.state ≠ 0 := by rwa [(getCode_kept d).1.state]
  simp only [ArcDecoder.expand] at expanded
  split at expanded
  · cases expanded
    exact ⟨next.descends, next.narrow, next.crunched, fun started => absurd rfl started,
      fun started => absurd rfl started, nofun⟩
  · obtain ⟨-, expanding, -⟩ := next.resolve begun (getCode_lt tidy.narrow)
    rw [Option.map_eq_some_iff] at expanded
    obtain ⟨s, left, rfl⟩ := expanded
    have last : s.2.Expanding := by
      apply (loop_keeps (I := fun s : Nat × ArcDecoder => s.2.Expanding) _ expanding left).1
      intro s t kept taken
      simp only [walk, Option.ite_none_right_eq_some, Option.some.injEq] at taken
      obtain ⟨-, rfl⟩ := taken
      exact kept.push _
    split
    · exact Expanding.tidy ⟨last.descends, last.narrow, last.crunched, last.counted, last.old, last.current⟩
    · exact Expanding.tidy ⟨last.descends, last.narrow, last.crunched, last.counted, last.old, last.current⟩

/-- A call keeps the invariant. -/
theorem Tidy.uncrunch (tidy : d.Tidy) {fuel : Nat} {r : UInt8 × ArcDecoder} (called : d.uncrunch fuel = some r) :
    r.2.Tidy := by
  unfold ArcDecoder.uncrunch at called
  split at called
  · rename_i fresh
    cases called
    exact tidy.begin fresh
  · rename_i first
    exact tidy.expand (by omega) called
  · rename_i second
    split at called
    · obtain ⟨filed, first⟩ := tidy.file second
      exact filed.expand (by omega) called
    · cases called
      unfold ArcDecoder.pop
      split
      · exact ⟨tidy.descends, tidy.narrow, tidy.crunched, tidy.counted, tidy.old, tidy.current⟩
      · exact ⟨tidy.descends, tidy.narrow, tidy.crunched, tidy.counted, tidy.old, tidy.current⟩
  · cases called
    exact ⟨tidy.descends, tidy.narrow, tidy.crunched, tidy.counted, tidy.old, tidy.current⟩

/-- A code is expanded, and soon, unless the walk goes round. -/
theorem Tidy.expand_iff (tidy : d.Tidy) (started : d.state ≠ 0) :
    ((∃ fuel, (d.expand fuel).isSome) ↔ ¬ d.Recurs) ∧ (¬ d.Recurs → (d.expand 8193).isSome) := by
  have next := tidy.getCode
  have begun : d.getCode.2.state ≠ 0 := by rwa [(getCode_kept d).1.state]
  have table := (getCode_kept d).1.lz_prefixes
  obtain ⟨short, -, same⟩ := next.resolve begun (getCode_lt tidy.narrow)
  have expands : ∀ fuel, d.getCode.1 ≠ ARC_LZW_EOF →
      (d.expand fuel).isSome = (loop (link d.lz_prefixes) fuel (d.getCode.2.resolve d.getCode.1).1).isSome := by
    intro fuel code
    rw [ArcDecoder.expand, if_neg code, ← table, ← same, ← walk_proj, Option.isSome_map, Option.isSome_map]
  by_cases last : d.getCode.1 = ARC_LZW_EOF
  · have read : ∀ fuel, (d.expand fuel).isSome := by
      intro fuel
      rw [ArcDecoder.expand, if_pos last]
      rfl
    have straight : ¬ d.Recurs := fun recurs => recurs.1 last
    exact ⟨⟨fun _ => straight, fun _ => ⟨0, read 0⟩⟩, fun _ => read 8193⟩
  · have soon : ¬ d.Recurs → (d.expand 8193).isSome := by
      intro straight
      rw [expands 8193 last]
      exact tidy.descends.ends short fun round => straight ⟨last, round⟩
    refine ⟨⟨?_, fun straight => ⟨8193, soon straight⟩⟩, soon⟩
    rintro ⟨fuel, expanded⟩ ⟨-, arrives, returns⟩
    rw [expands fuel last, endless arrives returns fuel] at expanded
    cases expanded

/-- A call returns exactly when it does not expand a code that goes round. -/
theorem Tidy.uncrunch_iff (tidy : d.Tidy) :
    ((∃ fuel, (d.uncrunch fuel).isSome) ↔ d.Straight) ∧ (d.Straight → (d.uncrunch 8193).isSome) := by
  unfold Straight ArcDecoder.uncrunch
  split
  · rename_i fresh
    simp [fresh]
  · rename_i first
    simpa [first] using tidy.expand_iff (by omega)
  · rename_i second
    by_cases whole : d.stack = []
    · obtain ⟨filed, first⟩ := tidy.file second
      simpa [second, whole] using filed.expand_iff (by omega)
    · simp [second, whole]
  · rename_i other other' other''
    exact ⟨⟨fun _ => ⟨fun first => (other' first).elim, fun second => (other'' second).elim⟩, fun _ => ⟨0, rfl⟩⟩,
      fun _ => rfl⟩

theorem Tidy.unpack (tidy : d.Tidy) (fuel : Nat) : d.unpack fuel = d.uncrunch fuel := by
  rcases tidy.crunched with mode | mode
  · simp [ArcDecoder.unpack, mode, ARC_MODE_STORED, ARC_MODE_PACKED, ARC_MODE_SQUEEZED, ARC_MODE_SQUASHED,
      ARC_MODE_CRUNCHED]
  · simp [ArcDecoder.unpack, mode, ARC_MODE_STORED, ARC_MODE_PACKED, ARC_MODE_SQUEEZED, ARC_MODE_SQUASHED,
      ARC_MODE_CRUNCHED1]

theorem Tidy.updateChecksum (tidy : d.Tidy) (c : UInt8) : (d.updateChecksum c).Tidy := by
  unfold ArcDecoder.updateChecksum
  split
  · exact ⟨tidy.descends, tidy.narrow, tidy.crunched, tidy.counted, tidy.old, tidy.current⟩
  · exact ⟨tidy.descends, tidy.narrow, tidy.crunched, tidy.counted, tidy.old, tidy.current⟩

end ArcDecoder

namespace ArcEntry

variable (e : ArcEntry)

/- The decoders that the loop asks for a byte, from a state on: for a byte, for the count of a run
and for the byte of the run, in this round or a later one. -/
inductive Asked : ArcDecoder × List UInt8 → ArcDecoder → Prop
  | byte {s : ArcDecoder × List UInt8} (more : s.2.length < e.wanted) : Asked s s.1
  | count {s : ArcDecoder × List UInt8} {fuel : Nat} {c : UInt8} {d : ArcDecoder} (more : s.2.length < e.wanted)
    (read : s.1.unpack fuel = some (c, d)) (alive : d.eof = false) (run : c.toNat = d.ctrl) : Asked s d
  | value {s : ArcDecoder × List UInt8} {fuel fuel' : Nat} {c n : UInt8} {d d' : ArcDecoder}
    (more : s.2.length < e.wanted) (read : s.1.unpack fuel = some (c, d)) (alive : d.eof = false)
    (run : c.toNat = d.ctrl) (counted : d.unpack fuel' = some (n, d')) : Asked s d'
  | later {s t : ArcDecoder × List UInt8} {fuel : Nat} {d : ArcDecoder} (next : e.round fuel s = some (true, t))
    (asked : Asked t d) : Asked s d

variable {e} {s : ArcDecoder × List UInt8} {d : ArcDecoder}

theorem repeated_spec (length : Nat) (c : UInt8) (n : Nat) (tidy : s.1.Tidy) :
    (repeated length c n s).1.Tidy ∧ s.2.length ≤ (repeated length c n s).2.length := by
  induction n generalizing s with
  | zero => exact ⟨tidy, Nat.le_refl _⟩
  | succ n ih =>
    rw [repeated]
    split
    · obtain ⟨kept, grown⟩ := @ih (s.1.updateChecksum c, s.2 ++ [c]) (tidy.updateChecksum c)
      rw [List.length_append] at grown
      exact ⟨kept, by omega⟩
    · exact ⟨tidy, Nat.le_refl _⟩

/-- A round keeps the decoder in order, and one that is followed by another has written. -/
theorem round_keeps {fuel : Nat} {r : Bool × ArcDecoder × List UInt8} (tidy : s.1.Tidy)
    (made : e.round fuel s = some r) : r.2.1.Tidy ∧ (r.1 = true → s.2.length < r.2.2.length ∧ s.2.length < e.wanted) := by
  unfold round at made
  split at made
  · cases made
    exact ⟨tidy, nofun⟩
  · rename_i more
    rw [Option.bind_eq_some_iff] at made
    obtain ⟨byte, first, made⟩ := made
    have tidyByte := tidy.uncrunch (tidy.unpack fuel ▸ first)
    split at made
    · cases made
      exact ⟨tidyByte, nofun⟩
    · split at made
      · rw [Option.bind_eq_some_iff] at made
        obtain ⟨count, second, made⟩ := made
        have tidyCount := tidyByte.uncrunch (tidyByte.unpack fuel ▸ second)
        rw [Option.bind_eq_some_iff] at made
        obtain ⟨c, third, made⟩ := made
        have tidyValue := tidyCount.uncrunch (tidyCount.unpack fuel ▸ third)
        split at made
        · cases made
          exact ⟨tidyValue, nofun⟩
        · cases made
          obtain ⟨kept, grown⟩ := @repeated_spec (c.2, s.2) e.wanted c.1 (e.runLength count.1) tidyValue
          refine ⟨kept.updateChecksum _, fun _ => ⟨?_, by omega⟩⟩
          simp only [emit, List.length_append, List.length_singleton]
          exact Nat.lt_succ_of_le grown
      · cases made
        exact ⟨tidyByte.updateChecksum _, fun _ => ⟨by simp [emit], by omega⟩⟩

theorem Asked.tidy (asked : e.Asked s d) (tidy : s.1.Tidy) : d.Tidy := by
  induction asked with
  | byte => exact tidy
  | @count s fuel c d _ read => exact tidy.uncrunch (tidy.unpack fuel ▸ read)
  | @value s fuel fuel' c n d d' _ read _ _ counted =>
    have next := tidy.uncrunch (tidy.unpack fuel ▸ read)
    exact next.uncrunch (next.unpack fuel' ▸ counted)
  | later next _ ih => exact ih (round_keeps tidy next).1

/-- A round whose calls all return is over. -/
theorem round_ends (tidy : s.1.Tidy) (straight : ∀ d, e.Asked s d → d.Straight) :
    (e.round 8193 s).isSome := by
  have returns : ∀ d, d.Tidy → e.Asked s d → ∃ r, d.unpack 8193 = some r := by
    intro d tidy asked
    rw [tidy.unpack]
    exact Option.isSome_iff_exists.mp (tidy.uncrunch_iff.2 (straight d asked))
  unfold round
  split
  · rfl
  · rename_i more
    obtain ⟨byte, first⟩ := returns s.1 tidy (.byte (by omega))
    have tidyByte := tidy.uncrunch (tidy.unpack 8193 ▸ first)
    rw [first, Option.bind_some]
    split
    · rfl
    · rename_i alive
      split
      · rename_i run
        rw [Bool.not_eq_true] at alive
        obtain ⟨count, second⟩ := returns byte.2 tidyByte (.count (by omega) first alive run.2)
        have tidyCount := tidyByte.uncrunch (tidyByte.unpack 8193 ▸ second)
        obtain ⟨c, third⟩ := returns count.2 tidyCount (.value (by omega) first alive run.2 second)
        rw [second, Option.bind_some, third, Option.bind_some]
        split <;> rfl
      · rfl

theorem decodeLoop_ends (tidy : s.1.Tidy) (straight : ∀ d, e.Asked s d → d.Straight) {n : Nat}
    (enough : e.wanted - s.2.length < n) : (e.decodeLoop 8193 n s).isSome := by
  induction n generalizing s with
  | zero => omega
  | succ n ih =>
    obtain ⟨⟨more, t⟩, made⟩ := Option.isSome_iff_exists.mp (round_ends tidy straight)
    obtain ⟨kept, grown⟩ := round_keeps tidy made
    rw [decodeLoop, made, Option.bind_some]
    cases more with
    | false => rfl
    | true =>
      have longer := grown rfl
      exact ih kept (fun d asked => straight d (.later made asked)) (by omega)

theorem decoder_tidy (crunched : e.mode = ARC_MODE_CRUNCHED ∨ e.mode = ARC_MODE_CRUNCHED1)
    (compressed : List UInt8) : (e.decoder compressed).Tidy where
  descends := ⟨fun _ _ => Nat.succ_pos _, fun _ large => Nat.zero_lt_of_lt large, Nat.succ_pos _⟩
  narrow := Nat.zero_le _
  crunched := crunched
  counted := fun started => absurd rfl started
  old := fun started => absurd rfl started
  current := nofun

/-- Every call returns and the loop comes to its end, exactly when none of the calls that are made
expands a code that leads to entry 258 while that entry leads to itself. -/
theorem extract_iff (e : ArcEntry) (crunched : e.mode = ARC_MODE_CRUNCHED ∨ e.mode = ARC_MODE_CRUNCHED1)
    (compressed : List UInt8) :
    ((∀ d, e.Asked (e.decoder compressed, []) d → ∃ fuel, (d.uncrunch fuel).isSome) ∧
        ∃ fuel n, (e.extract fuel n compressed).isSome) ↔
      ∀ d, e.Asked (e.decoder compressed, []) d → d.Straight := by
  have tidy := decoder_tidy crunched compressed
  constructor
  · rintro ⟨returns, -⟩ d asked
    exact (asked.tidy tidy).uncrunch_iff.1.mp (returns d asked)
  · intro straight
    refine ⟨fun d asked => (asked.tidy tidy).uncrunch_iff.1.mpr (straight d asked), 8193, e.wanted + 1, ?_⟩
    have ends := decodeLoop_ends tidy straight (n := e.wanted + 1) (by omega)
    have prepared : e.prepare compressed = some (e.decoder compressed) := by
      rcases crunched with mode | mode
      · simp [prepare, mode, ARC_MODE_PACKED, ARC_MODE_SQUEEZED, ARC_MODE_SQUASHED, ARC_MODE_CRUNCHED]
      · simp [prepare, mode, ARC_MODE_PACKED, ARC_MODE_SQUEEZED, ARC_MODE_SQUASHED, ARC_MODE_CRUNCHED1]
    rw [extract, prepared, Option.bind_some, Option.isSome_map]
    exact ends

/- Behind a header of eleven bytes come the codes 258, 65 and 258. -/
def circularBytes : List UInt8 := List.replicate 11 0 ++ [0x81, 0x08, 0x06, 0x02]

def circularEntry : ArcEntry := ⟨[], 1, ARC_MODE_CRUNCHED, 100⟩

theorem extract_iff_circular : circularEntry.mode = ARC_MODE_CRUNCHED ∧
    (((∀ d, circularEntry.Asked (circularEntry.decoder circularBytes, []) d → ∃ fuel, (d.uncrunch fuel).isSome) ∧
        ∃ fuel n, (circularEntry.extract fuel n circularBytes).isSome) ↔
      ∀ d, circularEntry.Asked (circularEntry.decoder circularBytes, []) d → d.Straight) :=
  ⟨rfl, extract_iff circularEntry (.inl rfl) circularBytes⟩

/-- Entry 258 becomes its own prefix, and the third call walks along it for ever. -/
theorem circular_entry :
    (∃ d, circularEntry.Asked (circularEntry.decoder circularBytes, []) d ∧ ∀ fuel, d.uncrunch fuel = none) ∧
      ∀ fuel n, circularEntry.extract fuel n circularBytes = none := by
  obtain ⟨s, t, first, second, unread, state, stack, short, code, same, itself⟩ : ∃ s t,
      (∀ fuel, circularEntry.round fuel (circularEntry.decoder circularBytes, []) = some (true, s)) ∧
      (∀ fuel, circularEntry.round (fuel + 1) s = some (true, t)) ∧ circularEntry.round 0 s = none ∧
      t.1.state = 2 ∧ t.1.stack = [] ∧ t.2.length = 2 ∧ t.1.file.getCode.1 = 258 ∧
      (t.1.file.getCode.2.resolve t.1.file.getCode.1).1 = 258 ∧ t.1.file.lz_prefixes 258 = 258 :=
    ⟨_, _, fun _ => rfl, fun _ => rfl, rfl, rfl, rfl, rfl, rfl, rfl, rfl⟩
  have tidy : t.1.Tidy := (round_keeps (round_keeps (decoder_tidy (.inl rfl) _) (first 0)).1 (second 0)).1
  have recurs : t.1.file.Recurs := by
    refine ⟨?_, ?_, ?_⟩
    · rw [code]
      decide
    · rw [same]
      exact ⟨0, rfl⟩
    · rw [itself]
      exact ⟨0, rfl⟩
  have never : ∀ fuel, t.1.uncrunch fuel = none := by
    intro fuel
    cases called : t.1.uncrunch fuel with
    | none => rfl
    | some r =>
      have straight := tidy.uncrunch_iff.1.mp ⟨fuel, by rw [called]; rfl⟩
      exact absurd recurs (straight.2 state stack)
  have more : t.2.length < circularEntry.wanted := by
    rw [short]
    decide
  refine ⟨⟨t.1, .later (first 0) (.later (second 0) (.byte more)), never⟩, ?_⟩
  have third : ∀ fuel, circularEntry.round fuel t = none := by
    intro fuel
    rw [round, if_neg (by omega), tidy.unpack, never fuel, Option.bind_none]
  have after : ∀ fuel n, circularEntry.decodeLoop fuel n s = none := by
    intro fuel n
    cases n with
    | zero => rfl
    | succ n =>
      cases fuel with
      | zero => rw [decodeLoop, unread, Option.bind_none]
      | succ fuel =>
        cases n with
        | zero => rw [decodeLoop, second, Option.bind_some]; rfl
        | succ n => simp [decodeLoop, second, third]
  intro fuel n
  have prepared : circularEntry.prepare circularBytes = some (circularEntry.decoder circularBytes) := rfl
  cases n with
  | zero => rfl
  | succ n => simp [extract, prepared, decodeLoop, first, after]

end ArcEntry

end Meatloaf.Archive
