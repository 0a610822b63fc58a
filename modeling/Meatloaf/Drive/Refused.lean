import Meatloaf.Lib.Deliver
import Meatloaf.Lib.Run
import Meatloaf.Drive.BlockArgs

/-! Block and position commands that are refused. What the checks of a command refuse changes nothing;
what the stream refuses has moved it, or told it another size, and the channel goes on from there. -/
namespace Meatloaf.Drive

open Lib Disk

variable {σ ι : Type*} {ops : MStream σ} {alloc : Allocation ι}

namespace FileChannel

/-- The first refills from a stream, with the status of each; none is made behind an empty one. -/
def refills (ops : MStream σ) : Nat → σ → List (Nat × List UInt8)
  | 0, _ => []
  | k + 1, s =>
    let r := refill ops s
    if r.1 = ST_OK ∧ r.2.1 = [] then [] else (r.1, r.2.1) :: refills ops k r.2.2

/-- A channel refills its buffer with the same from either stream. -/
def SameRefills (ops : MStream σ) (s s' : σ) : Prop := ∀ k, refills ops k s = refills ops k s'

/- Two streams end, or give the same and are the same behind it. -/
theorem SameRefills.cases {s s' : σ} (same : SameRefills ops s s') :
    ((refill ops s).1 = ST_OK ∧ (refill ops s).2.1 = [] ∧ (refill ops s').1 = ST_OK ∧ (refill ops s').2.1 = []) ∨
      ((refill ops s).1 = (refill ops s').1 ∧ (refill ops s).2.1 = (refill ops s').2.1 ∧
        SameRefills ops (refill ops s).2.2 (refill ops s').2.2) := by
  have first := same 1
  simp only [refills] at first
  by_cases ends : (refill ops s).1 = ST_OK ∧ (refill ops s).2.1 = []
  · rw [if_pos ends] at first
    by_cases ends' : (refill ops s').1 = ST_OK ∧ (refill ops s').2.1 = []
    · exact .inl ⟨ends.1, ends.2, ends'.1, ends'.2⟩
    · rw [if_neg ends'] at first
      cases first
  · rw [if_neg ends] at first
    by_cases ends' : (refill ops s').1 = ST_OK ∧ (refill ops s').2.1 = []
    · rw [if_pos ends'] at first
      cases first
    · rw [if_neg ends', List.cons.injEq, Prod.mk.injEq] at first
      refine .inr ⟨first.1.1, first.1.2, fun k => ?_⟩
      have more := same (k + 1)
      simp only [refills, if_neg ends, if_neg ends', List.cons.injEq] at more
      exact more.2

/-- Two channels with the same buffer, over streams that give the same, or behind the end. -/
structure Matches (ops : MStream σ) (c c' : FileChannel σ) : Prop where
  data : c.data = c'.data
  ptr : c.ptr = c'.ptr
  eos : c.eos = c'.eos
  streams : c.eos = true ∨ SameRefills ops c.stream c'.stream

/- The same bytes are served of the same buffer. -/
theorem Matches.serve {c c' : FileChannel σ} (matches_ : Matches ops c c') (n : Nat) :
    (c.serve n).1 = (c'.serve n).1 ∧ Matches ops (c.serve n).2 (c'.serve n).2 := by
  obtain ⟨data, ptr, eos, streams⟩ := matches_
  have piece : (c.serve n).1 = (c'.serve n).1 := by simp only [FileChannel.serve, data, ptr]
  refine ⟨piece, data, ?_, eos, streams⟩
  have ahead : c.ptr + (c.serve n).1.length = c'.ptr + (c'.serve n).1.length := by rw [piece, ptr]
  exact ahead

/-- A read keeps that up. -/
theorem Matches.get {c c' : FileChannel σ} (matches_ : Matches ops c c') (n : Nat) :
    (c.get ops n).1 = (c'.get ops n).1 ∧ Matches ops (c.get ops n).2 (c'.get ops n).2 := by
  unfold FileChannel.get
  by_cases unread : c.ptr < c.data.length
  · have unread' : c'.ptr < c'.data.length := by rw [← matches_.data, ← matches_.ptr]; exact unread
    rw [read_unread unread, read_unread unread']
    exact matches_.serve n
  · have spent := Nat.not_lt.mp unread
    have spent' : c'.data.length ≤ c'.ptr := by rw [← matches_.data, ← matches_.ptr]; exact spent
    by_cases ended : c.eos = true
    · have ended' : c'.eos = true := matches_.eos ▸ ended
      rw [read_ended spent ended, read_ended spent' ended']
      exact ⟨rfl, matches_⟩
    · have more : c.eos = false := eq_false_of_ne_true ended
      have more' : c'.eos = false := matches_.eos ▸ more
      rw [read_refill spent more, read_refill spent' more']
      dsimp only
      rcases (matches_.streams.resolve_left ended).cases with ⟨ok, none, ok', none'⟩ | ⟨status, data, next⟩
      · rw [if_neg (not_not.mpr ok), if_pos none, if_neg (not_not.mpr ok'), if_pos none']
        exact ⟨rfl, rfl, rfl, rfl, .inl rfl⟩
      · have held : Matches ops (c.holding (refill ops c.stream).2.1 (refill ops c.stream).2.2)
            (c'.holding (refill ops c'.stream).2.1 (refill ops c'.stream).2.2) :=
          ⟨data, rfl, matches_.eos, .inr next⟩
        rw [← status, ← data]
        rw [← data] at held
        split
        · exact ⟨rfl, held⟩
        · split
          · exact ⟨rfl, rfl, rfl, rfl, .inl rfl⟩
          · exact held.serve n

/-- Channels that match are not told apart by reads. -/
theorem Matches.alike {c c' : FileChannel σ} (matches_ : Matches ops c c') : Alike (FileChannel.get ops) c c' :=
  Alike.of_relation (fun _ _ n related => related.get n) matches_

/- A refill that fails has got something before. -/
theorem fill_fails {turns : Nat} {data : List UInt8} {s : σ} (fails : (fill ops turns data s).1 ≠ ST_OK) :
    (fill ops turns data s).1 = ST_DRIVE_NOT_READY ∧ (fill ops turns data s).2.1 ≠ [] := by
  induction turns generalizing data s with
  | zero => exact absurd rfl fails
  | succ turns ih =>
    rw [fill] at fails ⊢
    split
    · rename_i none
      exact absurd (by rw [if_pos none]) fails
    · rename_i some
      have longer : data ++ (ops.read (BUFFER_SIZE - data.length) s).1 ≠ [] := by simp [some]
      rw [if_neg some] at fails
      split
      · exact ⟨rfl, longer⟩
      · rename_i calm
        rw [if_neg calm] at fails
        split
        · rename_i again
          rw [if_pos again] at fails
          exact ih fails
        · rename_i done
          exact absurd (by rw [if_neg done]) fails

theorem refill_fails {s : σ} (fails : (refill ops s).1 ≠ ST_OK) :
    (refill ops s).1 = ST_DRIVE_NOT_READY ∧ (refill ops s).2.1 ≠ [] := fill_fails fails

variable {c c' : FileChannel σ} {N : Nat}

/- The channel behind a buffer that was served in one piece. -/
def behind (c : FileChannel σ) (data : List UInt8) (s : σ) : FileChannel σ :=
  { c with stream := s, data := data, ptr := data.length, position := c.position + data.length }

theorem holding_serve (data : List UInt8) (s : σ) (long : data.length ≤ N) :
    (c.holding data s).serve N = (data, c.behind data s) := by
  have piece : ((c.holding data s).data.drop (c.holding data s).ptr).take N = data := List.take_of_length_le long
  unfold serve
  rw [piece]
  simp [holding, behind]

theorem holding_get {data : List UInt8} (some : data ≠ []) (s : σ) (long : data.length ≤ N) :
    (c.holding data s).get ops N = (data, c.behind data s) := by
  have unread : (c.holding data s).ptr < (c.holding data s).data.length := List.length_pos_iff.mpr some
  rw [get, read_unread unread]
  exact holding_serve data s long

/-- A channel with nothing in its buffer that has not met the end. -/
structure Waiting (c : FileChannel σ) : Prop where
  spent : c.data.length ≤ c.ptr
  more : c.eos = false

namespace Waiting

theorem fails (waiting : Waiting c) (bad : (refill ops c.stream).1 ≠ ST_OK) (N : Nat) :
    c.get ops N = ([], c.holding (refill ops c.stream).2.1 (refill ops c.stream).2.2) := by
  rw [get, read_refill waiting.spent waiting.more]
  simp only [if_pos bad]

theorem ends (waiting : Waiting c) (ok : (refill ops c.stream).1 = ST_OK) (none : (refill ops c.stream).2.1 = [])
    (N : Nat) : c.get ops N = ([], { c.holding [] (refill ops c.stream).2.2 with eos := true }) := by
  rw [get, read_refill waiting.spent waiting.more]
  simp only [if_neg (not_not.mpr ok), if_pos none]

theorem gives (waiting : Waiting c) (ok : (refill ops c.stream).1 = ST_OK) (some : (refill ops c.stream).2.1 ≠ [])
    (long : (refill ops c.stream).2.1.length ≤ N) :
    c.get ops N = ((refill ops c.stream).2.1, c.behind (refill ops c.stream).2.1 (refill ops c.stream).2.2) := by
  rw [get, read_refill waiting.spent waiting.more]
  simp only [if_neg (not_not.mpr ok), if_neg some]
  exact holding_serve _ _ long

theorem behind (waiting : Waiting c) (data : List UInt8) (s : σ) : Waiting (c.behind data s) :=
  ⟨Nat.le_refl _, waiting.more⟩

end Waiting

/- Behind the end there is nothing. -/
theorem ended_get (s : σ) (N : Nat) : (({ c.holding [] s with eos := true } : FileChannel σ).get ops N).1 = [] := by
  rw [get, read_ended (Nat.le_refl _) rfl]

/-- What two reads of a waiting channel give: the bytes of a refill that failed come late, those of a good
one at once, and at the end there are none. -/
theorem Waiting.two_reads (waiting : Waiting c) (long : (refill ops c.stream).2.1.length ≤ N) :
    let r := refill ops c.stream
    let a := c.get ops N
    let b := a.2.get ops N
    (r.1 = ST_DRIVE_NOT_READY ∧ r.2.1 ≠ [] ∧ a.1 = [] ∧ b.1 = r.2.1 ∧ b.2 = c.behind r.2.1 r.2.2) ∨
      (r.1 = ST_OK ∧ r.2.1 = [] ∧ a.1 = [] ∧ b.1 = []) ∨
      (r.1 = ST_OK ∧ r.2.1 ≠ [] ∧ a.1 = r.2.1 ∧ a.2 = c.behind r.2.1 r.2.2) := by
  dsimp only
  by_cases bad : (refill ops c.stream).1 ≠ ST_OK
  · obtain ⟨status, some⟩ := refill_fails bad
    rw [waiting.fails bad, holding_get some _ long]
    exact .inl ⟨status, some, rfl, rfl, rfl⟩
  · have ok := not_not.mp bad
    by_cases none : (refill ops c.stream).2.1 = []
    · rw [waiting.ends ok none]
      exact .inr (.inl ⟨ok, none, rfl, ended_get _ N⟩)
    · rw [waiting.gives ok none long]
      exact .inr (.inr ⟨ok, none, rfl, rfl⟩)

/-- Reads that tell nothing apart come from the same refills. -/
theorem Waiting.refills_alike (k : Nat) (waiting : Waiting c) (waiting' : Waiting c')
    (alike : Alike (FileChannel.get ops) c c') : refills ops k c.stream = refills ops k c'.stream := by
  induction k generalizing c c' with
  | zero => rfl
  | succ k ih =>
    obtain ⟨N, long, long'⟩ : ∃ N, (refill ops c.stream).2.1.length ≤ N ∧ (refill ops c'.stream).2.1.length ≤ N :=
      ⟨_, Nat.le_max_left _ _, Nat.le_max_right _ _⟩
    have first := alike.piece N
    have next := alike.next N
    have second := next.piece N
    have last := next.next N
    rw [refills, refills]
    rcases waiting.two_reads long with ⟨bad, some, a, b, left⟩ | ⟨ok, none, a, b⟩ | ⟨ok, some, a, left⟩
    · have going : ¬ ((refill ops c.stream).1 = ST_OK ∧ (refill ops c.stream).2.1 = []) := fun no => some no.2
      rcases waiting'.two_reads long' with ⟨bad', some', a', b', left'⟩ | ⟨ok', none', a', b'⟩ | ⟨ok', some', a', left'⟩
      · rw [left, left'] at last
        have rest : refills ops k (refill ops c.stream).2.2 = refills ops k (refill ops c'.stream).2.2 :=
          ih (waiting.behind _ _) (waiting'.behind _ _) last
        rw [if_neg going, if_neg fun no => some' no.2, bad, bad', b.symm.trans (second.trans b'), rest]
      · exact absurd (b.symm.trans (second.trans b')) some
      · exact absurd (a'.symm.trans (first.symm.trans a)) some'
    · rw [if_pos ⟨ok, none⟩]
      rcases waiting'.two_reads long' with ⟨bad', some', a', b', left'⟩ | ⟨ok', none', a', b'⟩ | ⟨ok', some', a', left'⟩
      · exact absurd (b'.symm.trans (second.symm.trans b)) some'
      · rw [if_pos ⟨ok', none'⟩]
      · exact absurd (a'.symm.trans (first.symm.trans a)) some'
    · rcases waiting'.two_reads long' with ⟨bad', some', a', b', left'⟩ | ⟨ok', none', a', b'⟩ | ⟨ok', some', a', left'⟩
      · exact absurd (a.symm.trans (first.trans a')) some
      · exact absurd (a.symm.trans (first.trans a')) some
      · rw [left, left'] at next
        have rest : refills ops k (refill ops c.stream).2.2 = refills ops k (refill ops c'.stream).2.2 :=
          ih (waiting.behind _ _) (waiting'.behind _ _) next
        rw [if_neg fun no => some no.2, if_neg fun no => some' no.2, ok, ok', a.symm.trans (first.trans a'), rest]

/- What is in the buffer is served, and then the channel waits. -/
theorem serve_all (unread : c.ptr < c.data.length) (long : c.data.length ≤ N) :
    ∃ position, (c.serve N).2 = { c with ptr := c.data.length, position := position } := by
  have piece : ((c.data.drop c.ptr).take N).length = c.data.length - c.ptr := by
    rw [List.length_take, List.length_drop]
    omega
  refine ⟨c.position + (c.data.length - c.ptr), ?_⟩
  unfold serve
  dsimp only
  rw [piece, show c.ptr + (c.data.length - c.ptr) = c.data.length by omega]

/-- Two channels with the same buffer are not told apart by reads, if and only if they are behind the end
or refill it with the same. -/
theorem alike_iff (data : c.data = c'.data) (ptr : c.ptr = c'.ptr) (eos : c.eos = c'.eos) :
    Alike (FileChannel.get ops) c c' ↔ c.eos = true ∨ SameRefills ops c.stream c'.stream := by
  constructor
  · intro alike
    by_cases ended : c.eos = true
    · exact .inl ended
    · have more : c.eos = false := eq_false_of_ne_true ended
      have more' : c'.eos = false := eos ▸ more
      refine .inr fun k => ?_
      by_cases unread : c.ptr < c.data.length
      · have unread' : c'.ptr < c'.data.length := by rw [← data, ← ptr]; exact unread
        obtain ⟨position, left⟩ := serve_all unread (Nat.le_refl _)
        obtain ⟨position', left'⟩ := serve_all unread' (Nat.le_of_eq (congrArg List.length data).symm)
        have waiting : Waiting { c with ptr := c.data.length, position := position } := ⟨Nat.le_refl _, more⟩
        have waiting' : Waiting { c' with ptr := c'.data.length, position := position' } := ⟨Nat.le_refl _, more'⟩
        have next := alike.next c.data.length
        rw [get, get, read_unread unread, read_unread unread', left, left'] at next
        have same := waiting.refills_alike k waiting' next
        exact same
      · have spent := Nat.not_lt.mp unread
        have spent' : c'.data.length ≤ c'.ptr := by rw [← data, ← ptr]; exact spent
        exact Waiting.refills_alike k ⟨spent, more⟩ ⟨spent', more'⟩ alike
  · intro streams
    exact Matches.alike ⟨data, ptr, eos, streams⟩

/- The stream as a position that it refuses leaves it. -/
def refusedAt (ops : MStream σ) (p : Nat) (s : σ) : Option σ :=
  let r := ops.position p s
  if r.1 = false then some r.2 else none

/-- The stream as a position command leaves it that gets past its checks and is refused by the stream. -/
def strandedAt (ops : MStream σ) (c : FileChannel σ) (pos : Nat) (within_block : Bool) : Option σ :=
  if within_block then
    if c.has_block = false ∨ ops.block_size c.stream ≤ pos then none else refusedAt ops (c.block_base + pos) c.stream
  else refusedAt ops pos (c.leaveBlock ops).stream

/-- The same for a block command: the position or the count byte of the block, or the position in the
window, when the stream has its size. -/
def strandedOn (ops : MStream σ) (c : FileChannel σ) (b : Block) (extra : Nat) (for_write : Bool) : Option σ :=
  if for_write ∧ ops.out c.stream = false then none
  else
    match ops.sectorByteOffset b.track b.sector c.stream with
    | none => none
    | some base =>
      if 0 < extra then
        let p := ops.position base c.stream
        if p.1 = false then some p.2
        else
          let r := ops.read 1 p.2
          match r.1 with
          | [] => some r.2
          | count :: _ => refusedAt ops (base + extra) (ops.setSize (base + extra + count.toNat) r.2)
      else refusedAt ops (base + extra) (ops.setSize (base + extra + ops.block_size c.stream) c.stream)

/-- Two channels with the same buffer, of which the second has the stream that it was stranded with. -/
structure Left (c c' : FileChannel σ) (stranded : Option σ) : Prop where
  data : c.data = c'.data
  ptr : c.ptr = c'.ptr
  eos : c.eos = c'.eos
  stream : c'.stream = stranded.getD c.stream

theorem Left.alike_iff {stranded : Option σ} (left : Left c c' stranded) :
    Alike (FileChannel.get ops) c c' ↔ c.eos = true ∨ ∀ s, stranded = some s → SameRefills ops c.stream s := by
  rw [FileChannel.alike_iff left.data left.ptr left.eos, left.stream]
  cases stranded with
  | none => exact iff_of_true (.inr fun k => rfl) (.inr nofun)
  | some s => simp

theorem leaveBlock_buffer (c : FileChannel σ) :
    c.data = (c.leaveBlock ops).data ∧ c.ptr = (c.leaveBlock ops).ptr ∧ c.eos = (c.leaveBlock ops).eos := by
  unfold leaveBlock
  split
  · split
    · exact ⟨rfl, rfl, rfl⟩
    · exact ⟨rfl, rfl, rfl⟩
  · exact ⟨rfl, rfl, rfl⟩

/-- A command has worked, and no stream is stranded, or it is refused and the channel is left as it was, but
for the stream. -/
def Settled (c : FileChannel σ) (r : Status × FileChannel σ) (stranded : Option σ) : Prop :=
  if r.1.code = ST_OK then stranded = none else Left c r.2 stranded

theorem Settled.works (done : FileChannel σ) : Settled c ({}, done) none := by
  rw [Settled, if_pos rfl]

theorem Settled.unchanged {status : Status} (refused : status.code ≠ ST_OK) : Settled c (status, c) none := by
  rw [Settled, if_neg refused]
  exact ⟨rfl, rfl, rfl, rfl⟩

theorem Settled.stranded {status : Status} (refused : status.code ≠ ST_OK) {s : σ}
    (data : c.data = c'.data) (ptr : c.ptr = c'.ptr) (eos : c.eos = c'.eos) (stream : c'.stream = s) :
    Settled c (status, c') (some s) := by
  rw [Settled, if_neg refused]
  exact ⟨data, ptr, eos, stream⟩

/- What a command ends with: the stream takes the position, or is left where it refused it. -/
theorem settled_position {status : Status} (refused : status.code ≠ ST_OK) {p : Nat} {done : FileChannel σ}
    (data : c.data = c'.data) (ptr : c.ptr = c'.ptr) (eos : c.eos = c'.eos) :
    Settled c
      (if (c'.positionStream ops p).1 = false then (status, (c'.positionStream ops p).2) else ({}, done))
      (refusedAt ops p c'.stream) := by
  have stream : (c'.positionStream ops p).2.stream = (ops.position p c'.stream).2 := rfl
  by_cases away : (ops.position p c'.stream).1 = false
  · rw [if_pos (show (c'.positionStream ops p).1 = false from away), refusedAt, if_pos away]
    exact Settled.stranded refused data ptr eos stream
  · rw [if_neg (show ¬ (c'.positionStream ops p).1 = false from away), refusedAt, if_neg away]
    exact Settled.works done

/-- A position command is refused by its checks, which change nothing, or by the stream. -/
theorem positionTo_settled (c : FileChannel σ) (pos : Nat) (within_block : Bool) :
    Settled c (c.positionTo ops pos within_block) (strandedAt ops c pos within_block) := by
  have unknown : ({ code := ST_SYNTAX_UNKNOWN } : Status).code ≠ ST_OK := by decide
  cases within_block with
  | true =>
    have point : c.positionTo ops pos true = c.pointInBlock ops pos := rfl
    rw [point, pointInBlock, strandedAt, if_pos rfl]
    by_cases unselected : c.has_block = false
    · rw [if_pos unselected, if_pos (.inl unselected)]
      exact Settled.unchanged (by decide)
    · rw [if_neg unselected]
      by_cases high : ops.block_size c.stream ≤ pos
      · rw [if_pos high, if_pos (.inr high)]
        exact Settled.unchanged unknown
      · rw [if_neg high, if_neg (not_or.mpr ⟨unselected, high⟩)]
        exact settled_position unknown rfl rfl rfl
  | false =>
    have point : c.positionTo ops pos false = c.pointInFile ops pos := rfl
    obtain ⟨data, ptr, eos⟩ := @leaveBlock_buffer σ ops c
    rw [point, pointInFile, strandedAt, if_neg Bool.false_ne_true]
    exact settled_position unknown data ptr eos

/-- A block command is refused by its checks, or by the stream at the block, at its count byte, or at the
window. -/
theorem seekToBlock_settled (c : FileChannel σ) (b : Block) (extra : Nat) (for_write : Bool) :
    Settled c (c.seekToBlock ops b extra for_write) (strandedOn ops c b extra for_write) := by
  have illegal : (⟨ST_ILLEGAL_TS_COMMAND, b.track, b.sector⟩ : Status).code ≠ ST_OK := by
    show ST_ILLEGAL_TS_COMMAND ≠ ST_OK
    decide
  unfold seekToBlock strandedOn
  by_cases protected_ : for_write ∧ ops.out c.stream = false
  · rw [if_pos protected_, if_pos protected_]
    exact Settled.unchanged (show ST_WRITE_PROTECT_ON ≠ ST_OK by decide)
  · rw [if_neg protected_, if_neg protected_]
    cases ops.sectorByteOffset b.track b.sector c.stream with
    | none => exact Settled.unchanged illegal
    | some base =>
      dsimp only
      by_cases counted : 0 < extra
      · rw [if_pos counted, if_pos counted]
        by_cases away : (ops.position base c.stream).1 = false
        · rw [if_pos (show (c.positionStream ops base).1 = false from away), if_pos away]
          exact Settled.stranded illegal rfl rfl rfl rfl
        · rw [if_neg (show ¬ (c.positionStream ops base).1 = false from away), if_neg away]
          have read : ops.read 1 (c.positionStream ops base).2.stream = ops.read 1 (ops.position base c.stream).2 := rfl
          rw [read]
          cases (ops.read 1 (ops.position base c.stream).2).1 with
          | nil => exact Settled.stranded (show ST_READ_NO_DATA ≠ ST_OK by decide) rfl rfl rfl rfl
          | cons count _ => exact settled_position illegal rfl rfl rfl
      · rw [if_neg counted, if_neg counted]
        exact settled_position illegal rfl rfl rfl

/-- What a command leaves is read as before, if and only if it worked, or met the end before, or has no
stranded stream, or that refills the channel with the same. -/
theorem Settled.spared_iff {r : Status × FileChannel σ} {stranded : Option σ} (settled : Settled c r stranded) :
    (r.1.code ≠ ST_OK → Alike (FileChannel.get ops) c r.2) ↔
      c.eos = true ∨ ∀ s, stranded = some s → SameRefills ops c.stream s := by
  unfold Settled at settled
  by_cases fine : r.1.code = ST_OK
  · rw [if_pos fine] at settled
    exact iff_of_true (fun no => absurd fine no) (.inr fun s some => by rw [settled] at some; cases some)
  · rw [if_neg fine] at settled
    rw [← settled.alike_iff]
    exact ⟨fun alike => alike fine, fun alike _ => alike⟩

/-- Streams that a refused position leaves as they are. -/
def Restoring (ops : MStream σ) : Prop := ∀ p s, (ops.position p s).1 = false → (ops.position p s).2 = s

/-- A pointer is moved in a block of such a stream, or nothing is changed. -/
theorem Restoring.within_block (restoring : Restoring ops) (c : FileChannel σ) (pos : Nat) {s : σ}
    (stranded : strandedAt ops c pos true = some s) : s = c.stream := by
  unfold strandedAt at stranded
  rw [if_pos rfl] at stranded
  split at stranded
  · cases stranded
  · unfold refusedAt at stranded
    dsimp only at stranded
    split at stranded
    · rename_i away
      exact (Option.some.inj stranded).symm.trans (restoring _ _ away)
    · cases stranded

end FileChannel

namespace Device

variable (ops : MStream σ) (alloc : Allocation ι)

/- What is done with a drive. What else there is, the other commands among it, leaves it in any state. -/
inductive Use (σ ι : Type*) where
  | execute (data : Str)
  | read (chan n : Nat)
  | other (next : Device σ ι)

/- A read from a channel sets the status when it fails. -/
def readChannel (d : Device σ ι) (chan n : Nat) : Device σ ι :=
  match d.channels chan with
  | some (.file c) =>
    let r := c.read ops n
    { d with
      channels := Function.update d.channels chan (some (.file r.2.2))
      status := if r.1 = ST_OK then d.status else { code := r.1 } }
  | _ => d

def step (d : Device σ ι) : Use σ ι → Device σ ι
  | .execute data =>
    match d.executeData ops alloc data with
    | some (.ok d') => d'
    | _ => d
  | .read chan n => d.readChannel ops chan n
  | .other next => next

/- What reads of these sizes deliver on a channel with a stream. -/
def delivered (d : Device σ ι) (chan : Nat) (ns : List Nat) : Option (List UInt8) :=
  match d.channels chan with
  | some (.file c) => some (drain (FileChannel.get ops) ns c).1
  | _ => none

/- The commands that a channel is moved by: `B-P`, `F-P`, `B-R`, `B-W`, `U1` and `U2`. -/
def moves : DosCommand → Prop
  | .malformed => True
  | .positionChannel .. => True
  | .seekChannelToBlock .. => True
  | _ => False

/-- A command that ends with an error leaves all later reads as they were. -/
def Spared (d : Device σ ι) : Use σ ι → Prop
  | .execute data => ∀ call d', parseCommand (commandText data) = some call → moves call →
      d.executeData ops alloc data = some (.ok d') → d'.status.code ≠ ST_OK →
      ∀ chan ns, d'.delivered ops chan ns = d.delivered ops chan ns
  | _ => True

/- The channel is closed, or it met the end before, or no stream is stranded, or it gives the same. -/
def Unharmed (d : Device σ ι) (chan : Nat) (stranded : FileChannel σ → Option σ) : Prop :=
  chan ≤ 15 → ∀ c, d.channels chan = some (.file c) →
    c.eos = true ∨ ∀ s, stranded c = some s → FileChannel.SameRefills ops c.stream s

/-- What the commands ask of the channel that they name. -/
def Harmless (d : Device σ ι) : Use σ ι → Prop
  | .execute data =>
    match parseCommand (commandText data) with
    | some (.positionChannel chan pos within_block) =>
      d.Unharmed ops chan fun c => FileChannel.strandedAt ops c pos within_block
    | some (.seekChannelToBlock chan b extra for_write) =>
      d.Unharmed ops chan fun c => FileChannel.strandedOn ops c b extra for_write
    | _ => True
  | _ => True

variable {ops alloc} {d : Device σ ι} {chan : Nat}

theorem delivered_file {c : FileChannel σ} (opened : d.channels chan = some (.file c)) (ns : List Nat) :
    d.delivered ops chan ns = some (drain (FileChannel.get ops) ns c).1 := by
  rw [delivered, opened]

/- The other channels are as they were. -/
theorem delivered_update {c' : FileChannel σ} {status : Status} {other : Nat} (apart : other ≠ chan) (ns : List Nat) :
    ({ d with channels := Function.update d.channels chan (some (.file c')), status := status } :
      Device σ ι).delivered ops other ns = d.delivered ops other ns := by
  simp only [delivered, Function.update_of_ne apart]

/-- A command on a channel that settles it, and that reports an error, leaves the reads as they were, if and
only if its stream is none that gives something else. -/
theorem withStream_spared (command : FileChannel σ → Status × FileChannel σ) (stranded : FileChannel σ → Option σ)
    (settled : ∀ c, FileChannel.Settled c (command c) (stranded c)) :
    ((d.withStream chan command).status.code ≠ ST_OK →
        ∀ other ns, (d.withStream chan command).delivered ops other ns = d.delivered ops other ns) ↔
      d.Unharmed ops chan stranded := by
  unfold withStream
  by_cases high : 15 < chan
  · rw [if_pos high]
    exact iff_of_true (fun _ _ _ => rfl) fun low => absurd high (Nat.not_lt.mpr low)
  · rw [if_neg high]
    have low := Nat.not_lt.mp high
    cases opened : d.channels chan with
    | none =>
      refine iff_of_true (fun _ _ _ => rfl) fun _ c there => ?_
      rw [opened] at there
      cases there
    | some handler =>
      cases handler with
      | dir =>
        refine iff_of_true (fun _ _ _ => rfl) fun _ c there => ?_
        rw [opened] at there
        cases there
      | file c =>
        have spared := @FileChannel.Settled.spared_iff σ ops c _ _ (settled c)
        have same : d.Unharmed ops chan stranded ↔
            c.eos = true ∨ ∀ s, stranded c = some s → FileChannel.SameRefills ops c.stream s := by
          constructor
          · exact fun unharmed => unharmed low c opened
          · intro holds _ c' there
            rw [opened] at there
            cases there
            exact holds
        rw [same, ← spared]
        refine imp_congr_right fun refused => ⟨fun all ns => ?_, fun alike other ns => ?_⟩
        · have here := all chan ns
          rw [delivered_file opened, delivered_file (Function.update_self ..)] at here
          exact (Option.some.inj here).symm
        · by_cases here : other = chan
          · rw [here, delivered_file opened, delivered_file (Function.update_self ..), alike ns]
          · exact delivered_update here ns

/- The commands begin with the status OK, and with the channels as they are. -/
theorem spared_iff_harmless (d : Device σ ι) (u : Use σ ι) : Spared ops alloc d u ↔ Harmless ops d u := by
  cases u with
  | read chan n => exact Iff.rfl
  | other next => exact Iff.rfl
  | execute data =>
    have fresh (other : Nat) (ns : List Nat) :
        ({ d with status := {} } : Device σ ι).delivered ops other ns = d.delivered ops other ns := rfl
    have run : d.executeData ops alloc data =
        (parseCommand (commandText data)).map (perform ops alloc { d with status := {} }) := rfl
    unfold Spared Harmless
    dsimp only
    rw [run]
    cases parseCommand (commandText data) with
    | none => exact iff_of_true (fun call d' no => by cases no) trivial
    | some call =>
      have one (d' : Device σ ι) (done : perform ops alloc { d with status := {} } call = .ok d') (moved : moves call) :
          (∀ call₁ d₁, some call = some call₁ → moves call₁ →
            (some call).map (perform ops alloc { d with status := {} }) = some (.ok d₁) → d₁.status.code ≠ ST_OK →
            ∀ chan ns, d₁.delivered ops chan ns = d.delivered ops chan ns) ↔
          (d'.status.code ≠ ST_OK → ∀ chan ns, d'.delivered ops chan ns = d.delivered ops chan ns) := by
        constructor
        · exact fun all => all call d' rfl moved (congrArg some done)
        · intro here call₁ d₁ _ _ done₁
          rw [Option.map_some, done] at done₁
          cases done₁
          exact here
      cases call with
      | malformed => exact (one _ rfl trivial).trans (iff_of_true (fun _ _ _ => rfl) trivial)
      | seekChannel chan pos => exact iff_of_true (fun call d' same no => by cases same; exact no.elim) trivial
      | setBlockAllocation b allocate => exact iff_of_true (fun call d' same no => by cases same; exact no.elim) trivial
      | positionChannel chan pos within_block =>
        exact (one _ rfl trivial).trans (withStream_spared (d := { d with status := {} }) _ _
          fun c => FileChannel.positionTo_settled c pos within_block)
      | seekChannelToBlock chan b extra for_write =>
        exact (one _ rfl trivial).trans (withStream_spared (d := { d with status := {} }) _ _
          fun c => FileChannel.seekToBlock_settled c b extra for_write)

/-- In a run of a drive, every block and position command that is refused leaves all later reads as they were,
if and only if each is refused by its own checks, or names a channel that met the end, or has its stream
refuse it at a place from where that gives the same. -/
theorem refused_iff (ops : MStream σ) (alloc : Allocation ι) (d : Device σ ι) (uses : List (Use σ ι)) :
    Along (step ops alloc) (Spared ops alloc) d uses ↔ Along (step ops alloc) (Harmless ops) d uses :=
  Along.congr (I := fun _ => True) (fun d u _ => spared_iff_harmless d u) (fun _ _ _ _ => trivial) trivial

/- "B-R 2 0 18 1" -/
def blockRead : Str :=
  [0x42, 0x2d, 0x52, space, 0x32, space, 0x30, space, 0x31, 0x38, space, 0x31]

/-- On a channel that was just opened the count byte of a block is behind the window, and "B-R 2 0 18 1"
ends with an error. The stream is at the block then, and the zeros that the channel had to give are gone. -/
theorem refused_moves :
    ¬ Along (step imageStream BlockCommand.anyBlock) (Spared imageStream BlockCommand.anyBlock)
      BlockCommand.imageDevice [.execute blockRead] := by
  have parse : parseCommand (commandText blockRead) = some (.seekChannelToBlock 2 ⟨18, 1⟩ 1 false) := by
    decide
  have run : BlockCommand.imageDevice.executeData imageStream BlockCommand.anyBlock blockRead =
      some (.ok (seekChannelToBlock imageStream { BlockCommand.imageDevice with status := {} } 2 ⟨18, 1⟩ 1 false)) := by
    rw [executeData, parse]
    rfl
  rintro ⟨spared, -⟩
  have same := spared _ _ parse trivial run (by decide) 2 [1]
  have gone : (seekChannelToBlock imageStream { BlockCommand.imageDevice with status := {} } 2 ⟨18, 1⟩ 1
      false).delivered imageStream 2 [1] = some [] := by decide
  have given : BlockCommand.imageDevice.delivered imageStream 2 [1] = some [0] := by decide +kernel
  rw [gone, given] at same
  cases same

end Device

end Meatloaf.Drive
