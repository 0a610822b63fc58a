import Meatloaf.Lib.While
import Meatloaf.Tape.Csm

/-! `tap.cpp`: programs on a tape image, found by running the tape forward from where it stands and
round its end. What `TapeDecoder::nextProgram` finds is the first program that ends behind a place. -/
namespace Meatloaf.Tape

open Lib

/-- `TapeEntry`, without its loader and its times. -/
structure TapeEntry where
  tape_offset : Nat := 0
  tape_end_offset : Nat := 0
  name : Str := []
  prg : Str := []
deriving DecidableEq

/- The programs that the decoder knows, in the order of the tape, and its clock. -/
structure Recording where
  programs : List TapeEntry
  spans : ∀ e ∈ programs, e.tape_offset < e.tape_end_offset
  rising : programs.Pairwise fun e f => e.tape_offset < f.tape_offset ∧ e.tape_end_offset < f.tape_end_offset
  imageLen : Nat
  offsetAtTime : Nat → Nat

/-- `TapeDecoder::nextProgram`. -/
def Recording.nextProgram (r : Recording) (from_offset : Nat) : Option TapeEntry :=
  r.programs.find? fun e => from_offset < e.tape_end_offset

/-- `TapeState`, once its decoder is open. -/
structure TapeState where
  tape_pos : Nat := 0
  tape_ended : Bool := false
  current : TapeEntry := {}
  have_current : Bool := false

/-- `IdxEntry`. -/
structure IdxEntry where
  offset : Nat
  size : Nat
  name : Str

/-- `TAPMStream`, without what it shares. `setDefaultName` takes no empty name. -/
structure TAPMStream where
  mode : OpenMode := .reading
  default_name : Str
  named : default_name ≠ []
  has_idx : Bool := false
  idx_entries : List IdxEntry := []
  seekCalled : Bool := false
  _size : Nat := 0
  _position : Nat := 0
  scan_started : Bool := false
  scan_wrapped : Bool := false
  scan_exhausted : Bool := false
  scan_origin : Nat := 0

namespace Tap

variable (r : Recording)

/-- `entryDisplayName`. -/
def entryDisplayName (s : TAPMStream) (e : TapeEntry) : Str := if e.name ≠ [] then e.name else s.default_name

/-- `resetTape`. -/
def resetTape (st : TapeState) : TapeState := { st with tape_pos := 0, tape_ended := false, have_current := false }

/-- `setCounterMs`. -/
def setCounterMs (ms : Nat) (st : TapeState) : TapeState :=
  { st with
    tape_pos := r.offsetAtTime ms
    tape_ended := r.imageLen ≤ r.offsetAtTime ms
    have_current := false }

/-- `nextTapeEntry`. -/
def nextTapeEntry (st : TapeState) : Bool × TapeState :=
  match r.nextProgram st.tape_pos with
  | some e => (true, { st with tape_pos := e.tape_end_offset, current := e, have_current := true })
  | none => (false, { st with tape_ended := true, have_current := false })

/-- `serveCurrent`. -/
def serveCurrent (s : TAPMStream) (st : TapeState) : TAPMStream × TapeState :=
  ({ s with seekCalled := true, _size := st.current.prg.length, _position := 0 }, { st with have_current := false })

/- The end of `seekNextEntry`: the program that was found. -/
def offered (s : TAPMStream) (st : TapeState) : Str × TAPMStream × TapeState :=
  let s := if s.scan_wrapped ∧ s.scan_origin ≤ st.current.tape_offset then { s with scan_exhausted := true } else s
  (entryDisplayName s st.current, serveCurrent s st)

/- `seekNextEntry` in a scan that has started. -/
def advance (s : TAPMStream) (st : TapeState) : Str × TAPMStream × TapeState :=
  let next := nextTapeEntry r st
  if next.1 then offered s next.2
  else if s.scan_wrapped ∨ s.scan_origin = 0 then ([], s, next.2)
  else
    let s := { s with scan_wrapped := true }
    let next := nextTapeEntry r (resetTape next.2)
    if next.1 then offered s next.2 else ([], s, next.2)

/-- `seekNextEntry`. -/
def seekNextEntry (s : TAPMStream) (st : TapeState) : Str × TAPMStream × TapeState :=
  if s.has_idx then ([], s, st)
  else if s.mode = .writing then ([], s, st)
  else if s.scan_exhausted then ([], s, st)
  else if s.scan_started then advance r s st
  else
    let ended := st.tape_ended
    let st := if ended then resetTape st else st
    let s := { s with scan_started := true, scan_wrapped := s.scan_wrapped || ended, scan_origin := st.tape_pos }
    if st.have_current then (entryDisplayName s st.current, serveCurrent s st) else advance r s st

/- The loop of `seekPath`, when it is left within so many rounds. -/
def search (path : Str) (scan_start : Nat) : Nat → Bool → TAPMStream → TapeState → Option (Bool × TAPMStream × TapeState)
  | 0, _, _, _ => none
  | n + 1, wrapped, s, st =>
    let next := nextTapeEntry r st
    if next.1 then
      if compareFilename (entryDisplayName s next.2.current) path (isWildcard path) then some (true, serveCurrent s next.2)
      else if wrapped ∧ scan_start ≤ next.2.current.tape_offset then some (false, s, next.2)
      else search path scan_start n wrapped s next.2
    else if wrapped ∨ scan_start = 0 then some (false, s, next.2)
    else search path scan_start n true s (resetTape next.2)

/-- `seekPath`. Its loop takes every program at most twice. -/
def seekPath (path : Str) (s : TAPMStream) (st : TapeState) : Option (Bool × TAPMStream × TapeState) :=
  let s := { s with seekCalled := true, _position := 0, _size := 0 }
  let path := slashed path
  if s.mode = .writing then some (false, s, st)
  else if s.has_idx then
    match s.idx_entries.find? fun ie => compareFilename ie.name path (isWildcard path) with
    | none => some (false, s, st)
    | some ie =>
      match r.nextProgram ie.offset with
      | none => some (false, s, st)
      | some e => some (true, serveCurrent s { st with current := e, have_current := true })
  else if st.have_current ∧ compareFilename (entryDisplayName s st.current) path (isWildcard path) then
    some (true, serveCurrent s st)
  else
    let wrapped := st.tape_ended
    let st := if wrapped then resetTape st else st
    search r path st.tape_pos (2 * r.programs.length + 2) wrapped s st

/- What happens to the tape of an image. -/
inductive Access
  | listing
  | next
  | rewind
  | counter (ms : Nat)
  | scan (s : TAPMStream)
  | seek (path : Str) (s : TAPMStream)

/- A listing begins again after the end of the tape. -/
def access (st : TapeState) : Access → TapeState
  | .listing => (nextTapeEntry r (if st.tape_ended then resetTape st else st)).2
  | .next => (nextTapeEntry r st).2
  | .rewind => resetTape st
  | .counter ms => setCounterMs r ms st
  | .scan s => (seekNextEntry r s st).2.2
  | .seek path s => ((seekPath r path s st).map fun a => a.2.2).getD st

/- A call of `seekNextEntry` that finds something, and what was found before it. -/
def scanStep (c : TAPMStream × TapeState × List Str) : Option (TAPMStream × TapeState × List Str) :=
  let call := seekNextEntry r c.1 c.2.1
  if call.1 = [] then none else some (call.2.1, call.2.2, c.2.2 ++ [call.1])

/- The name of a program is the one that is wanted. -/
def Hit (s : TAPMStream) (path : Str) (e : TapeEntry) : Prop :=
  compareFilename (entryDisplayName s e) path (isWildcard path) = true

instance (s : TAPMStream) (path : Str) (e : TapeEntry) : Decidable (Hit s path e) := inferInstanceAs (Decidable (_ = true))

/-- What is asked of `seekPath`. -/
def Finds (s : TAPMStream) (st : TapeState) (path : Str) : Prop :=
  ∃ found s' st', seekPath r path s st = some (found, s', st') ∧ (found = true ↔ ∃ e ∈ r.programs, Hit s (slashed path) e)

/-- What is asked of `seekNextEntry`, called until it returns nothing. -/
def OffersAll (s : TAPMStream) (st : TapeState) : Prop :=
  ∃ calls s' st' names, loop (scanStep r) calls (s, st, []) = some (s', st', names) ∧
    ∀ e ∈ r.programs, entryDisplayName s e ∈ names

variable {r} {s : TAPMStream} {st : TapeState} {e : TapeEntry} {es : List TapeEntry} {k : Nat} {path : Str}

/- The programs that end behind a place. -/
def ahead (r : Recording) (pos : Nat) : List TapeEntry := r.programs.filter fun e => pos < e.tape_end_offset

theorem ahead_start (r : Recording) : ahead r 0 = r.programs := by
  rw [ahead, List.filter_eq_self]
  intro e member
  have := r.spans e member
  simp only [decide_eq_true_eq]
  omega

theorem ahead_sublist (r : Recording) (pos : Nat) : (ahead r pos).Sublist r.programs := List.filter_sublist

theorem nextProgram_eq (pos : Nat) : r.nextProgram pos = (ahead r pos).head? := by
  rw [Recording.nextProgram, ahead, List.head?_filter]

/-- Behind the next program are the ones after it. -/
theorem ahead_next {pos : Nat} (here : ahead r pos = e :: es) : ahead r e.tape_end_offset = es := by
  have later : pos < e.tape_end_offset := by
    have member : e ∈ ahead r pos := here ▸ List.mem_cons_self
    simpa [ahead] using (List.mem_filter.mp member).2
  have order := List.pairwise_cons.mp (here ▸ r.rising.sublist (ahead_sublist r pos))
  have same : ahead r e.tape_end_offset = (ahead r pos).filter fun f => e.tape_end_offset < f.tape_end_offset := by
    rw [ahead, ahead, List.filter_filter]
    apply List.filter_congr
    intro f _
    have : e.tape_end_offset < f.tape_end_offset → pos < f.tape_end_offset := by omega
    simpa using this
  rw [same, here, List.filter_cons_of_neg (by simp), List.filter_eq_self]
  intro f member
  simpa using (order.1 f member).2

theorem nextTapeEntry_end (finished : ahead r st.tape_pos = []) :
    nextTapeEntry r st = (false, { st with tape_ended := true, have_current := false }) := by
  rw [nextTapeEntry, nextProgram_eq, finished]
  rfl

theorem nextTapeEntry_next (here : ahead r st.tape_pos = e :: es) :
    nextTapeEntry r st = (true, { st with tape_pos := e.tape_end_offset, current := e, have_current := true }) := by
  rw [nextTapeEntry, nextProgram_eq, here]
  rfl

/- The programs that are looked at after the wrap: up to the first that begins where the search began. -/
def examined (k : Nat) : List TapeEntry → List TapeEntry
  | [] => []
  | e :: es => e :: if k ≤ e.tape_offset then [] else examined k es

theorem examined_subset (k : Nat) (es : List TapeEntry) : examined k es ⊆ es := by
  induction es with
  | nil => exact List.Subset.refl _
  | cons e es ih =>
    rw [examined]
    apply List.cons_subset_cons
    split
    · exact List.nil_subset _
    · exact ih

/-- A search from the start looks at one program. -/
theorem examined_zero (es : List TapeEntry) : examined 0 es = es.take 1 := by
  cases es with
  | nil => rfl
  | cons e es => rw [examined, if_pos (Nat.zero_le _), List.take_succ_cons, List.take_zero]

/-- The programs before the place where a search began are looked at. -/
theorem mem_examined (rising : es.Pairwise fun e f => e.tape_offset < f.tape_offset) (member : e ∈ es) (before : e.tape_offset < k) :
    e ∈ examined k es := by
  induction es with
  | nil => cases member
  | cons f es ih =>
    rw [List.pairwise_cons] at rising
    rcases List.mem_cons.mp member with rfl | member
    · exact List.mem_cons_self
    · have := rising.1 e member
      rw [examined, if_neg (by omega)]
      exact List.mem_cons_of_mem _ (ih rising.2 member)

/-- After the way to the end and the way from the start to where it began, a search has seen the whole tape. -/
theorem round_trip (r : Recording) (k : Nat) (member : e ∈ r.programs) :
    e ∈ ahead r k ∨ k ≠ 0 ∧ e ∈ examined k r.programs := by
  have span := r.spans e member
  by_cases behind : k < e.tape_end_offset
  · exact .inl (List.mem_filter.mpr ⟨member, by simpa using behind⟩)
  · exact .inr ⟨by omega, mem_examined (r.rising.imp And.left) member (by omega)⟩

section Search

/-- The loop after the wrap. -/
theorem search_wrapped {n : Nat} (here : ahead r st.tape_pos = es) (enough : es.length < n) :
    ∃ found s' st', search r path k n true s st = some (found, s', st') ∧
      (found = true ↔ ∃ e ∈ examined k es, Hit s path e) := by
  induction es generalizing st n with
  | nil =>
    obtain ⟨n, rfl⟩ : ∃ m, n = m + 1 := ⟨n - 1, by omega⟩
    rw [search, nextTapeEntry_end here]
    exact ⟨false, _, _, rfl, by simp [examined]⟩
  | cons e es ih =>
    obtain ⟨n, rfl⟩ : ∃ m, n = m + 1 := ⟨n - 1, by omega⟩
    rw [List.length_cons] at enough
    rw [search, nextTapeEntry_next here, examined]
    dsimp only
    rw [if_pos rfl]
    by_cases hit : Hit s path e
    · refine ⟨true, _, _, if_pos hit, iff_of_true rfl ⟨e, List.mem_cons_self, hit⟩⟩
    · have miss : ¬ compareFilename (entryDisplayName s e) path (isWildcard path) = true := hit
      rw [if_neg miss]
      by_cases past : k ≤ e.tape_offset
      · rw [if_pos ⟨rfl, past⟩, if_pos past]
        exact ⟨false, _, _, rfl, iff_of_false (by decide) (by simpa using hit)⟩
      · rw [if_neg (fun both => past both.2), if_neg past]
        have behind : ahead r { st with
          tape_pos := e.tape_end_offset, current := e, have_current := true : TapeState }.tape_pos = es := ahead_next here
        obtain ⟨found, s', st', result, spec⟩ := ih behind (n := n) (by omega)
        refine ⟨found, s', st', result, spec.trans ?_⟩
        rw [List.exists_mem_cons_iff, or_iff_right hit]

/-- The loop before the wrap. -/
theorem search_forward {n : Nat} (here : ahead r st.tape_pos = es) (enough : es.length + r.programs.length + 1 < n) :
    ∃ found s' st', search r path k n false s st = some (found, s', st') ∧
      (found = true ↔ (∃ e ∈ es, Hit s path e) ∨ k ≠ 0 ∧ ∃ e ∈ examined k r.programs, Hit s path e) := by
  induction es generalizing st n with
  | nil =>
    obtain ⟨n, rfl⟩ : ∃ m, n = m + 1 := ⟨n - 1, by omega⟩
    rw [search, nextTapeEntry_end here]
    dsimp only
    rw [if_neg (by decide)]
    by_cases start : k = 0
    · rw [if_pos (.inr start)]
      exact ⟨false, _, _, rfl, by simp [start]⟩
    · rw [if_neg (by simpa using start)]
      have fewer : r.programs.length < n := by
        rw [List.length_nil] at enough
        omega
      obtain ⟨found, s', st', result, spec⟩ := @search_wrapped r s
        (resetTape { st with tape_ended := true, have_current := false }) _ k path _ (ahead_start r) fewer
      exact ⟨found, s', st', result, spec.trans (by simp [start])⟩
  | cons e es ih =>
    obtain ⟨n, rfl⟩ : ∃ m, n = m + 1 := ⟨n - 1, by omega⟩
    rw [List.length_cons] at enough
    rw [search, nextTapeEntry_next here]
    dsimp only
    rw [if_pos rfl]
    by_cases hit : Hit s path e
    · refine ⟨true, _, _, if_pos hit, iff_of_true rfl (.inl ⟨e, List.mem_cons_self, hit⟩)⟩
    · have miss : ¬ compareFilename (entryDisplayName s e) path (isWildcard path) = true := hit
      rw [if_neg miss, if_neg (fun both => by cases both.1)]
      have behind : ahead r { st with
        tape_pos := e.tape_end_offset, current := e, have_current := true : TapeState }.tape_pos = es := ahead_next here
      obtain ⟨found, s', st', result, spec⟩ := ih behind (n := n) (by omega)
      refine ⟨found, s', st', result, spec.trans ?_⟩
      rw [List.exists_mem_cons_iff, or_iff_right hit]

/-- What holds of the state of a tape: the program that is ready is the one before the head. -/
structure Ready (r : Recording) (st : TapeState) : Prop where
  listed : st.have_current = true → st.current ∈ r.programs
  behind : st.have_current = true → st.tape_pos = st.current.tape_end_offset

theorem Ready.of_none (none : st.have_current = false) : Ready r st :=
  ⟨fun ready => Bool.noConfusion (none.symm.trans ready), fun ready => Bool.noConfusion (none.symm.trans ready)⟩

/-- What `seekPath` finds. -/
theorem seekPath_spec (ready : Ready r st) (readable : s.mode ≠ .writing) (directory : s.has_idx = false) (path : Str) :
    ∃ found s' st', seekPath r path s st = some (found, s', st') ∧ (found = true ↔
      (st.have_current = true ∧ Hit s (slashed path) st.current) ∨
        ∃ e ∈ if st.tape_ended then r.programs.take 1 else r.programs, Hit s (slashed path) e) := by
  let s₀ : TAPMStream := { s with seekCalled := true, _position := 0, _size := 0 }
  have hits : ∀ e, Hit s₀ (slashed path) e ↔ Hit s (slashed path) e := fun _ => Iff.rfl
  have entry : seekPath r path s st =
      if st.have_current ∧ Hit s (slashed path) st.current then some (true, serveCurrent s₀ st)
      else search r (slashed path) (if st.tape_ended then resetTape st else st).tape_pos (2 * r.programs.length + 2)
        st.tape_ended s₀ (if st.tape_ended then resetTape st else st) := by
    have data : ¬ s.has_idx = true := by rw [directory]; decide
    rw [seekPath]
    dsimp only
    rw [if_neg readable, if_neg data]
    rfl
  rw [entry]
  by_cases current : st.have_current = true ∧ Hit s (slashed path) st.current
  · rw [if_pos current]
    exact ⟨true, _, _, rfl, iff_of_true rfl (.inl current)⟩
  · rw [if_neg current]
    cases ended : st.tape_ended with
    | true =>
      -- the tape had ended: the search counts as wrapped, and the place it began at is the start
      have enough : r.programs.length < 2 * r.programs.length + 2 := by omega
      obtain ⟨found, s', st', result, spec⟩ := @search_wrapped r s₀ (resetTape st) _ 0 (slashed path) _ (ahead_start r) enough
      refine ⟨found, s', st', result, spec.trans ?_⟩
      rw [examined_zero, or_iff_right current]
      rfl
    | false =>
      have fewer := (ahead_sublist r st.tape_pos).length_le
      have enough : (ahead r st.tape_pos).length + r.programs.length + 1 < 2 * r.programs.length + 2 := by omega
      obtain ⟨found, s', st', result, spec⟩ := @search_forward r s₀ st _ st.tape_pos (slashed path) _ rfl enough
      refine ⟨found, s', st', result, spec.trans ?_⟩
      rw [or_iff_right current]
      constructor
      · rintro (⟨e, member, hit⟩ | ⟨-, e, member, hit⟩)
        · exact ⟨e, (ahead_sublist r _).subset member, hit⟩
        · exact ⟨e, examined_subset _ _ member, hit⟩
      · rintro ⟨e, member, hit⟩
        rcases round_trip r st.tape_pos member with ahead | ⟨later, before⟩
        · exact .inl ⟨e, ahead, hit⟩
        · exact .inr ⟨later, e, before, hit⟩

end Search

section Scan

/- A scan gives names from here to its end. -/
def Yields (r : Recording) (s : TAPMStream) (st : TapeState) (out : List Str) : Prop :=
  ∀ before, ∃ calls s' st', loop (scanStep r) calls (s, st, before) = some (s', st', before ++ out)

theorem Yields.stop (ended : (seekNextEntry r s st).1 = []) : Yields r s st [] := by
  intro before
  refine ⟨1, s, st, ?_⟩
  rw [loop, scanStep, if_pos ended, List.append_nil]

theorem Yields.call {name : Str} {out : List Str} {s' : TAPMStream} {st' : TapeState}
    (call : seekNextEntry r s st = (name, s', st')) (named : name ≠ []) (rest : Yields r s' st' out) :
    Yields r s st (name :: out) := by
  intro before
  obtain ⟨calls, t, u, left⟩ := rest (before ++ [name])
  refine ⟨calls + 1, t, u, ?_⟩
  rw [loop, scanStep]
  simp only [call, if_neg named]
  rw [left, List.append_assoc]
  rfl

/- The scan from a place where the next call is the same. -/
theorem Yields.same {out : List Str} {s' : TAPMStream} {st' : TapeState} (same : seekNextEntry r s st = seekNextEntry r s' st')
    (rest : Yields r s' st' out) : Yields r s st out := by
  intro before
  obtain ⟨calls, t, u, left⟩ := rest before
  cases calls with
  | zero => cases left
  | succ calls =>
    rw [loop, scanStep] at left
    dsimp only at left
    rw [← same] at left
    by_cases ended : (seekNextEntry r s st).1 = []
    · rw [if_pos ended, Option.some.injEq, Prod.mk.injEq, Prod.mk.injEq] at left
      refine ⟨1, s, st, ?_⟩
      rw [loop, scanStep, if_pos ended, ← left.2.2]
    · rw [if_neg ended] at left
      refine ⟨calls + 1, t, u, ?_⟩
      rw [loop, scanStep]
      dsimp only
      rw [if_neg ended]
      exact left

theorem display_ne_nil (s : TAPMStream) (e : TapeEntry) : entryDisplayName s e ≠ [] := by
  rw [entryDisplayName]
  split
  · assumption
  · exact s.named

/- A stream in the middle of a scan. -/
structure Scanning (s : TAPMStream) : Prop where
  directory : s.has_idx = false
  readable : s.mode ≠ .writing
  started : s.scan_started = true

theorem Scanning.advance (scanning : Scanning s) (more : s.scan_exhausted = false) : seekNextEntry r s st = advance r s st := by
  have directory := scanning.directory
  rw [seekNextEntry, if_neg (by rw [directory]; decide), if_neg scanning.readable, if_neg (by rw [more]; decide),
    if_pos scanning.started]

theorem Scanning.exhausted (scanning : Scanning s) (done : s.scan_exhausted = true) : Yields r s st [] := by
  have directory := scanning.directory
  apply Yields.stop
  rw [seekNextEntry, if_neg (by rw [directory]; decide), if_neg scanning.readable, if_pos done]

/-- The rest of a scan after the wrap. -/
theorem yields_wrapped (scanning : Scanning s) (more : s.scan_exhausted = false) (wrapped : s.scan_wrapped = true)
    (here : ahead r st.tape_pos = es) :
    Yields r s st ((examined s.scan_origin es).map (entryDisplayName s)) := by
  induction es generalizing s st with
  | nil =>
    apply Yields.stop
    rw [scanning.advance more, advance, nextTapeEntry_end here]
    dsimp only
    rw [if_neg (by decide), if_pos (.inl wrapped)]
  | cons e es ih =>
    have call : seekNextEntry r s st = offered s { st with
        tape_pos := e.tape_end_offset, current := e, have_current := true } := by
      rw [scanning.advance more, advance, nextTapeEntry_next here]
      exact if_pos rfl
    rw [examined, List.map_cons]
    by_cases past : s.scan_origin ≤ e.tape_offset
    · rw [offered, if_pos ⟨wrapped, past⟩] at call
      rw [if_pos past, List.map_nil]
      refine .call call (display_ne_nil s e) (Scanning.exhausted ?_ rfl)
      exact ⟨scanning.directory, scanning.readable, scanning.started⟩
    · rw [offered, if_neg (fun both => past both.2)] at call
      rw [if_neg past]
      refine .call call (display_ne_nil s e) (ih ?_ more wrapped (ahead_next here))
      exact ⟨scanning.directory, scanning.readable, scanning.started⟩

/-- The rest of a scan before the wrap. -/
theorem yields_forward (scanning : Scanning s) (more : s.scan_exhausted = false) (unwrapped : s.scan_wrapped = false)
    (here : ahead r st.tape_pos = es) :
    Yields r s st ((es ++ if s.scan_origin = 0 then [] else examined s.scan_origin r.programs).map (entryDisplayName s)) := by
  induction es generalizing s st with
  | nil =>
    by_cases start : s.scan_origin = 0
    · rw [if_pos start]
      apply Yields.stop
      rw [scanning.advance more, advance, nextTapeEntry_end here]
      dsimp only
      rw [if_neg (by decide), if_pos (.inr start)]
    · rw [if_neg start, List.nil_append]
      -- this call is the first one after the wrap
      obtain ⟨w, wrap⟩ : ∃ w : TAPMStream, w = { s with scan_wrapped := true } := ⟨_, rfl⟩
      have scanning' : Scanning w := wrap ▸ ⟨scanning.directory, scanning.readable, scanning.started⟩
      have more' : w.scan_exhausted = false := wrap ▸ more
      have wrapped : w.scan_wrapped = true := by rw [wrap]
      have whole : ahead r (resetTape st).tape_pos = r.programs := ahead_start r
      have round := yields_wrapped scanning' more' wrapped whole
      have origin : w.scan_origin = s.scan_origin := by rw [wrap]
      have shown : entryDisplayName w = entryDisplayName s := by rw [wrap]; rfl
      rw [origin, shown] at round
      have here' : seekNextEntry r s st =
          if (nextTapeEntry r (resetTape st)).1 then offered w (nextTapeEntry r (resetTape st)).2
          else ([], w, (nextTapeEntry r (resetTape st)).2) := by
        rw [scanning.advance more, advance, nextTapeEntry_end here]
        dsimp only
        rw [if_neg (by decide), if_neg (by simpa [unwrapped] using start), ← wrap]
        rfl
      have there : seekNextEntry r w (resetTape st) =
          if (nextTapeEntry r (resetTape st)).1 then offered w (nextTapeEntry r (resetTape st)).2
          else ([], w, (nextTapeEntry r (resetTape st)).2) := by
        rw [scanning'.advance more', advance]
        dsimp only
        rw [if_pos (c := w.scan_wrapped = true ∨ _) (.inl wrapped)]
      exact .same (here'.trans there.symm) round
  | cons e es ih =>
    have call : seekNextEntry r s st = offered s { st with
        tape_pos := e.tape_end_offset, current := e, have_current := true } := by
      rw [scanning.advance more, advance, nextTapeEntry_next here]
      exact if_pos rfl
    rw [offered, if_neg (by simp [unwrapped])] at call
    refine .call call (display_ne_nil s e) (ih ?_ more unwrapped (ahead_next here))
    exact ⟨scanning.directory, scanning.readable, scanning.started⟩

/- A stream that has not been used. -/
structure Fresh (s : TAPMStream) : Prop where
  directory : s.has_idx = false
  readable : s.mode ≠ .writing
  started : s.scan_started = false
  wrapped : s.scan_wrapped = false
  more : s.scan_exhausted = false

/- The programs that a scan offers. -/
def offers (r : Recording) (st : TapeState) : List TapeEntry :=
  if st.tape_ended then r.programs.take 1
  else (if st.have_current then [st.current] else []) ++
    (ahead r st.tape_pos ++ if st.tape_pos = 0 then [] else examined st.tape_pos r.programs)

/-- What a scan gives. -/
theorem scan_spec (fresh : Fresh s) : Yields r s st ((offers r st).map (entryDisplayName s)) := by
  obtain ⟨directory, readable, started, wrapped, more⟩ := fresh
  obtain ⟨t, rewound⟩ : ∃ t, t = if st.tape_ended then resetTape st else st := ⟨_, rfl⟩
  obtain ⟨w, begun⟩ : ∃ w : TAPMStream, w = { s with
      scan_started := true, scan_wrapped := s.scan_wrapped || st.tape_ended, scan_origin := t.tape_pos } := ⟨_, rfl⟩
  have first : seekNextEntry r s st =
      if t.have_current then (entryDisplayName w t.current, serveCurrent w t) else advance r w t := by
    rw [seekNextEntry, if_neg (by rw [directory]; decide), if_neg readable, if_neg (by rw [more]; decide),
      if_neg (by rw [started]; decide)]
    dsimp only
    rw [← rewound, ← begun]
  have scanning : Scanning w := begun ▸ ⟨directory, readable, rfl⟩
  have more' : w.scan_exhausted = false := begun ▸ more
  have origin : w.scan_origin = t.tape_pos := by rw [begun]
  have shown : entryDisplayName w = entryDisplayName s := by rw [begun]; rfl
  rw [← shown, offers]
  cases ended : st.tape_ended with
  | true =>
    rw [ended, if_pos rfl] at rewound
    have wrapped' : w.scan_wrapped = true := by rw [begun, ended, Bool.or_true]
    have whole : ahead r t.tape_pos = r.programs := by
      rw [rewound]
      exact ahead_start r
    have round := yields_wrapped scanning more' wrapped' whole
    have start : w.scan_origin = 0 := by rw [origin, rewound]; rfl
    rw [start, examined_zero] at round
    rw [if_pos rfl]
    refine .same ?_ round
    have unready : t.have_current = false := by
      rw [rewound]
      rfl
    rw [first, if_neg (by rw [unready]; decide), scanning.advance more']
  | false =>
    rw [ended, if_neg (by decide)] at rewound
    have unwrapped : w.scan_wrapped = false := by rw [begun, ended, wrapped]; rfl
    subst rewound
    rw [if_neg (by decide), ← origin]
    cases ready : t.have_current with
    | true =>
      rw [ready, if_pos rfl] at first
      have scanning' : Scanning (serveCurrent w t).1 := ⟨scanning.directory, scanning.readable, scanning.started⟩
      have rest := @yields_forward r (serveCurrent w t).1 (serveCurrent w t).2 _ scanning' more' unwrapped rfl
      have origin' : (serveCurrent w t).1.scan_origin = t.tape_pos := origin
      rw [if_pos rfl, origin]
      rw [origin'] at rest
      exact .call first (display_ne_nil w t.current) rest
    | false =>
      rw [ready, if_neg (by decide)] at first
      have rest := @yields_forward r w t _ scanning more' unwrapped rfl
      rw [if_neg (by decide), List.nil_append, origin]
      rw [origin] at rest
      exact .same (first.trans (scanning.advance more').symm) rest

/-- A scan offers what it gives. -/
theorem offersAll_iff (fresh : Fresh s) :
    OffersAll r s st ↔ ∀ e ∈ r.programs, ∃ f ∈ offers r st, entryDisplayName s e = entryDisplayName s f := by
  obtain ⟨calls, t, u, left⟩ := @scan_spec r s st fresh []
  constructor
  · rintro ⟨calls', t', u', names, left', all⟩ e member
    have same := loop_unique left left'
    rw [Prod.mk.injEq, Prod.mk.injEq, List.nil_append] at same
    obtain ⟨f, inside, shown⟩ := List.mem_map.mp (same.2.2 ▸ all e member)
    exact ⟨f, inside, shown.symm⟩
  · intro all
    refine ⟨calls, t, u, _, left, fun e member => ?_⟩
    obtain ⟨f, inside, shown⟩ := all e member
    rw [List.nil_append]
    exact List.mem_map.mpr ⟨f, inside, shown.symm⟩

end Scan

section Reached

theorem Ready.resetTape : Ready r (resetTape st) := .of_none rfl

theorem Ready.nextTapeEntry : Ready r (nextTapeEntry r st).2 := by
  cases here : ahead r st.tape_pos with
  | nil =>
    rw [nextTapeEntry_end here]
    exact .of_none rfl
  | cons e es =>
    rw [nextTapeEntry_next here]
    have member : e ∈ ahead r st.tape_pos := here ▸ List.mem_cons_self
    exact ⟨fun _ => (ahead_sublist r _).subset member, fun _ => rfl⟩

theorem Ready.advance : Ready r (advance r s st).2.2 := by
  rw [Tap.advance]
  dsimp only
  split
  · exact .of_none rfl
  · split
    · exact .nextTapeEntry
    · split
      · exact .of_none rfl
      · exact .nextTapeEntry

theorem Ready.seekNextEntry (ready : Ready r st) : Ready r (seekNextEntry r s st).2.2 := by
  rw [Tap.seekNextEntry]
  split
  · exact ready
  · split
    · exact ready
    · split
      · exact ready
      · split
        · exact .advance
        · dsimp only
          generalize (if st.tape_ended = true then Tap.resetTape st else st) = t
          split
          · exact .of_none rfl
          · exact .advance

theorem Ready.search {n : Nat} {wrapped found : Bool} {s' : TAPMStream} {st' : TapeState}
    (left : search r path k n wrapped s st = some (found, s', st')) : Ready r st' := by
  induction n generalizing wrapped st with
  | zero => cases left
  | succ n ih =>
    rw [Tap.search] at left
    split at left
    · split at left
      · cases left
        exact .of_none rfl
      · split at left
        · cases left
          exact .nextTapeEntry
        · exact ih left
    · split at left
      · cases left
        exact .nextTapeEntry
      · exact ih left

theorem Ready.seekPath (ready : Ready r st) {found : Bool} {s' : TAPMStream} {st' : TapeState}
    (left : seekPath r path s st = some (found, s', st')) : Ready r st' := by
  rw [Tap.seekPath] at left
  dsimp only at left
  split at left
  · cases left
    exact ready
  · split at left
    · split at left
      · cases left
        exact ready
      · split at left
        · cases left
          exact ready
        · cases left
          exact .of_none rfl
    · split at left
      · cases left
        exact .of_none rfl
      · exact Ready.search left

/-- Whatever is done to a tape leaves the head behind the program that is ready. -/
theorem Ready.access (ready : Ready r st) (a : Access) : Ready r (access r st a) := by
  cases a with
  | listing => exact .nextTapeEntry
  | next => exact .nextTapeEntry
  | rewind => exact .of_none rfl
  | counter ms => exact .of_none rfl
  | scan s => exact ready.seekNextEntry
  | seek path s =>
    rw [Tap.access]
    cases left : Tap.seekPath r path s st with
    | none => exact ready
    | some a => exact ready.seekPath left

end Reached

/-- In every state that accesses lead to, without an index: `seekPath` finds a program with the name
exactly when the tape had not ended, or the first program or the one that is ready has the name, or
none has; and a scan offers the name of each program exactly when the tape had not ended or all have
the name of the first. -/
theorem finds_iff (r : Recording) (accesses : List Access) (s : TAPMStream) (fresh : Fresh s) (path : Str) :
    (Finds r s (accesses.foldl (access r) {}) path ↔
      (accesses.foldl (access r) {}).tape_ended = false ∨
        ((accesses.foldl (access r) {}).have_current = true ∧
          Hit s (slashed path) (accesses.foldl (access r) {}).current) ∨
        (∃ e ∈ r.programs.take 1, Hit s (slashed path) e) ∨ ∀ e ∈ r.programs, ¬ Hit s (slashed path) e) ∧
    (OffersAll r s (accesses.foldl (access r) {}) ↔
      (accesses.foldl (access r) {}).tape_ended = false ∨
        ∀ e ∈ r.programs, ∃ f ∈ r.programs.take 1, entryDisplayName s e = entryDisplayName s f) := by
  have ready : Ready r (accesses.foldl (access r) {}) :=
    Along.invariant (fun st a ready _ => ready.access a) (.of_none rfl) along_true
  generalize accesses.foldl (access r) {} = st at ready
  constructor
  · obtain ⟨found, s', st', result, spec⟩ := seekPath_spec ready fresh.readable fresh.directory path
    have finds : Finds r s st path ↔ (found = true ↔ ∃ e ∈ r.programs, Hit s (slashed path) e) := by
      constructor
      · rintro ⟨found', t, u, again, wanted⟩
        rw [result, Option.some.injEq, Prod.mk.injEq] at again
        rwa [again.1]
      · exact fun wanted => ⟨found, s', st', result, wanted⟩
    rw [finds, spec]
    cases ended : st.tape_ended with
    | false =>
      rw [if_neg (by decide)]
      refine iff_of_true ⟨?_, .inr⟩ (.inl rfl)
      rintro (⟨current, hit⟩ | some)
      · exact ⟨st.current, ready.listed current, hit⟩
      · exact some
    | true =>
      rw [if_pos rfl, or_iff_right (a := true = false) (by decide)]
      constructor
      · intro right
        by_cases some : ∃ e ∈ r.programs, Hit s (slashed path) e
        · exact (right.mpr some).imp id .inl
        · exact .inr (.inr (by simpa using some))
      · rintro (current | first | none)
        · exact iff_of_true (.inl current) ⟨st.current, ready.listed current.1, current.2⟩
        · refine iff_of_true (.inr first) ?_
          obtain ⟨e, member, hit⟩ := first
          exact ⟨e, List.mem_of_mem_take member, hit⟩
        · refine iff_of_false ?_ (by simpa using none)
          rintro (⟨current, hit⟩ | ⟨e, member, hit⟩)
          · exact none st.current (ready.listed current) hit
          · exact none e (List.mem_of_mem_take member) hit
  · rw [offersAll_iff fresh, offers]
    cases ended : st.tape_ended with
    | false =>
      rw [if_neg (by decide)]
      refine iff_of_true (fun e member => ⟨e, List.mem_append_right _ (List.mem_append.mpr ?_), rfl⟩) (.inl rfl)
      refine (round_trip r st.tape_pos member).imp id fun before => ?_
      rw [if_neg before.1]
      exact before.2
    | true => rw [if_pos rfl, or_iff_right (a := true = false) (by decide)]

/- Two programs, and a tape that was listed to its end. -/
def twoPrograms : Recording where
  programs := [{ tape_offset := 20, tape_end_offset := 100, name := [0x61] },
    { tape_offset := 100, tape_end_offset := 200, name := [0x62] }]
  spans := by decide
  rising := by decide
  imageLen := 200
  offsetAtTime := fun _ => 20

def listedThrice : TapeState := [Access.listing, .listing, .listing].foldl (access twoPrograms) {}

def unused : TAPMStream where
  default_name := [0x78]
  named := by decide

theorem unused_fresh : Fresh unused := ⟨rfl, by decide, rfl, rfl, rfl⟩

/-- The second program is there, and is neither found nor offered. -/
theorem second_missed : (∃ e ∈ twoPrograms.programs, Hit unused (slashed [0x62]) e) ∧
    ¬ Finds twoPrograms unused listedThrice [0x62] ∧ ¬ OffersAll twoPrograms unused listedThrice := by
  have some : ∃ e ∈ twoPrograms.programs, Hit unused (slashed [0x62]) e := by decide
  have missed : (seekPath twoPrograms [0x62] unused listedThrice).map Prod.fst = Option.some false := by decide
  refine ⟨some, ?_, ?_⟩
  · rintro ⟨found, s', st', result, right⟩
    rw [result, right.mpr some] at missed
    cases missed
  · rw [offersAll_iff unused_fresh]
    decide

/-- The tape was listed once. -/
theorem finds_iff_listed : (Finds twoPrograms unused ([Access.listing].foldl (access twoPrograms) {}) [0x62] ↔
      ([Access.listing].foldl (access twoPrograms) {}).tape_ended = false ∨
        (([Access.listing].foldl (access twoPrograms) {}).have_current = true ∧
          Hit unused (slashed [0x62]) ([Access.listing].foldl (access twoPrograms) {}).current) ∨
        (∃ e ∈ twoPrograms.programs.take 1, Hit unused (slashed [0x62]) e) ∨
          ∀ e ∈ twoPrograms.programs, ¬ Hit unused (slashed [0x62]) e) ∧
    (OffersAll twoPrograms unused ([Access.listing].foldl (access twoPrograms) {}) ↔
      ([Access.listing].foldl (access twoPrograms) {}).tape_ended = false ∨
        ∀ e ∈ twoPrograms.programs, ∃ f ∈ twoPrograms.programs.take 1,
          entryDisplayName unused e = entryDisplayName unused f) :=
  finds_iff twoPrograms [.listing] unused ⟨rfl, by decide, rfl, rfl, rfl⟩ [0x62]

end Tap

end Meatloaf.Tape
