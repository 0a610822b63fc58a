import Meatloaf.Disk.Seek
import Meatloaf.Lib.Run

/-! Seeks that are refused. The walk of a seek moves the container before it comes to the end of the
chain, and only the reported position is put back: what the next reads deliver depends on where it
has stopped. -/
namespace Meatloaf.Disk

open Lib

/- The link at an address; a byte that is not there is zero. -/
def linkThere (c : Container) (a : Nat) : Block := ⟨(c.byte a).toNat, (c.byte (a + 1)).toNat⟩

/- Where the container stands behind it. -/
def linkEnd (c : Container) (a : Nat) : Nat := max a (min (a + 2) c.size)

/-- The last block whose link the walk to an offset reads. -/
def Geometry.walkStop (g : Geometry) (c : Container) (guard : Nat) (b : Block) (remaining : Nat) : Option Block :=
  if remaining < 254 ∨ g.linearBlock b.track b.sector = none then none
  else if (linkThere c (g.addr b)).track = 0 then some b
  else
    match guard with
    | 0 => some b
    | guard + 1 => some ((g.walkStop c guard (linkThere c (g.addr b)) (remaining - 254)).getD b)

/- The walk does not depend on where the container stands. -/
theorem Geometry.walkStop_seek (g : Geometry) (c : Container) (p guard : Nat) (b : Block) (remaining : Nat) :
    g.walkStop (c.seek p) guard b remaining = g.walkStop c guard b remaining := by
  induction guard generalizing b remaining with
  | zero =>
    unfold walkStop
    rfl
  | succ guard ih =>
    have link : ∀ a, linkThere (c.seek p) a = linkThere c a := fun a => rfl
    rw [walkStop, walkStop]
    simp only [link, ih]

namespace D64

variable {s s' : D64}

/- The stream where a walk has stopped. -/
def stopped (s : D64) : Option Block → D64
  | none => s
  | some b => s.at_ (linkEnd s.container (s.geo.addr b)) b.track b.sector

/- One byte of a container. -/
theorem read_byte (c : Container) : (c.read 1).1.getD 0 0 = c.byte c.pos ∧
    (c.read 1).2 = { c with pos := max c.pos (min (c.pos + 1) c.size) } := by
  by_cases inside : c.pos < c.size
  · have one : min 1 (c.size - c.pos) = 1 := by omega
    have pos : c.pos + 1 = max c.pos (min (c.pos + 1) c.size) := by omega
    constructor
    · rw [Container.read, one, Container.byte, if_pos inside]
      rfl
    · rw [Container.read, one, ← pos]
  · have none : min 1 (c.size - c.pos) = 0 := by omega
    have pos : c.pos + 0 = max c.pos (min (c.pos + 1) c.size) := by omega
    constructor
    · rw [Container.read, none, Container.byte, if_neg inside]
      rfl
    · rw [Container.read, none, ← pos]

theorem nextLink_there (s : D64) : s.nextLink =
    (linkThere s.container s.container.pos, s.at_ (linkEnd s.container s.container.pos) s.track s.sector) := by
  obtain ⟨first, moved⟩ := read_byte s.container
  obtain ⟨second, moved'⟩ := read_byte (s.container.read 1).2
  rw [moved] at second moved'
  have next : (s.container.byte (max s.container.pos (min (s.container.pos + 1) s.container.size))) =
      s.container.byte (s.container.pos + 1) := by
    by_cases inside : s.container.pos < s.container.size
    · congr 1
      omega
    · unfold Container.byte
      rw [if_neg (by omega), if_neg (by omega)]
  have stands : max (max s.container.pos (min (s.container.pos + 1) s.container.size))
      (min (max s.container.pos (min (s.container.pos + 1) s.container.size) + 1) s.container.size) =
        linkEnd s.container s.container.pos := by
    unfold linkEnd
    omega
  unfold nextLink readContainer
  dsimp only
  rw [moved, first, second, moved']
  dsimp only
  rw [stands]
  exact Prod.ext (congrArg₂ Block.mk rfl (congrArg UInt8.toNat next)) rfl

theorem seekSector_missing {b : Block} (missing : s.geo.linearBlock b.track b.sector = none) (o : Nat) :
    s.seekSector b.track b.sector o = (false, s) := by
  unfold seekSector
  rw [missing]

/- A walk that reads no link. -/
theorem walkFile_still {guard remaining : Nat} {b : Block}
    (still : remaining < 254 ∨ s.geo.linearBlock b.track b.sector = none) :
    (walkFile guard b remaining s).2 = s.stopped (s.geo.walkStop s.container guard b remaining) := by
  rw [Geometry.walkStop.eq_def, if_pos still]
  by_cases near : remaining < 254
  · rw [walkFile_near near]
    rfl
  · rw [walkFile_eq, if_neg (show ¬ remaining < block_size - 2 from near)]
    dsimp only
    rw [seekSector_missing (still.resolve_left near) 0, if_pos rfl]
    rfl

/- A walk that reads one. -/
theorem walkFile_reads {guard remaining : Nat} {b : Block}
    (runs : ¬ (remaining < 254 ∨ s.geo.linearBlock b.track b.sector = none)) :
    walkFile guard b remaining s =
      if (linkThere s.container (s.geo.addr b)).track = 0 then (none, s.stopped (some b))
      else
        match guard with
        | 0 => (none, s.stopped (some b))
        | guard + 1 => walkFile guard (linkThere s.container (s.geo.addr b)) (remaining - 254) (s.stopped (some b)) := by
  rw [not_or] at runs
  obtain ⟨n, found⟩ := Option.ne_none_iff_exists'.mp runs.2
  have link : (s.at_ (s.geo.addr b) b.track b.sector).nextLink =
      (linkThere s.container (s.geo.addr b), s.stopped (some b)) :=
    nextLink_there (s.at_ (s.geo.addr b) b.track b.sector)
  rw [walkFile_eq, if_neg (show ¬ remaining < block_size - 2 from runs.1)]
  dsimp only
  rw [seekSector_some s b found 0, if_neg (by simp), Nat.add_zero, link]
  rfl

/-- Where the walk of a seek leaves the stream. -/
theorem walkFile_stopped (guard : Nat) (b : Block) (remaining : Nat) (s : D64) :
    (walkFile guard b remaining s).2 = s.stopped (s.geo.walkStop s.container guard b remaining) := by
  induction guard generalizing b remaining s with
  | zero =>
    by_cases still : remaining < 254 ∨ s.geo.linearBlock b.track b.sector = none
    · exact walkFile_still still
    · have stop : s.geo.walkStop s.container 0 b remaining = some b := by
        rw [Geometry.walkStop, if_neg still]
        split
        · rfl
        · rfl
      rw [stop, walkFile_reads still]
      split
      · rfl
      · rfl
  | succ guard ih =>
    by_cases still : remaining < 254 ∨ s.geo.linearBlock b.track b.sector = none
    · exact walkFile_still still
    · rw [walkFile_reads still, Geometry.walkStop, if_neg still]
      by_cases ends : (linkThere s.container (s.geo.addr b)).track = 0
      · rw [if_pos ends, if_pos ends]
      · rw [if_neg ends, if_neg ends]
        dsimp only
        rw [ih]
        -- the rest of the walk sees the same medium
        have same : (s.stopped (some b)).geo.walkStop (s.stopped (some b)).container guard
            (linkThere s.container (s.geo.addr b)) (remaining - 254) =
              s.geo.walkStop s.container guard (linkThere s.container (s.geo.addr b)) (remaining - 254) :=
          Geometry.walkStop_seek _ _ _ _ _ _
        rw [same]
        cases s.geo.walkStop s.container guard (linkThere s.container (s.geo.addr b)) (remaining - 254) with
        | none => rfl
        | some c => rfl

/-- The last block whose link a seek reads. -/
def stop (s : D64) (offset : Nat) : Option Block :=
  if (startBlock s.entry).track = 0 then none
  else s.geo.walkStop s.container (if entryBlocks s.entry = 0 then 10000 else entryBlocks s.entry + 2)
    (startBlock s.entry) offset

theorem seekSector_accepts (s : D64) (t x o : Nat) : (s.seekSector t x o).1 = (s.geo.linearBlock t x).isSome := by
  unfold seekSector
  split
  · rename_i missing
    rw [missing]
    rfl
  · rename_i found
    rw [found]
    rfl

/- The end of a seek is refused before it moves anything. -/
theorem land_refused {b : Block} {remaining : Nat} (refused : (s.land b remaining).1 = false) :
    (s.land b remaining).2 = s := by
  cases found : s.geo.linearBlock b.track b.sector with
  | none =>
    unfold land
    rw [seekSector_missing found 0, if_pos rfl]
  | some n =>
    have landed : (s.land b remaining).1 = true := by
      unfold land
      rw [seekSector_some s b found 0, if_neg (by simp), seekSector_accepts]
      show (s.geo.linearBlock b.track b.sector).isSome = true
      rw [found]
      rfl
    rw [landed] at refused
    cases refused

/-- A refused seek leaves the stream where its walk has stopped. -/
theorem seek_refused {k : Nat} (called : s.seekCalled = true) (refused : (s.seek k).1 = false) :
    (s.seek k).2 = s.stopped (s.stop k) := by
  unfold seek at refused ⊢
  unfold stop
  rw [if_neg (by simp [called])] at refused ⊢
  by_cases start : (startBlock s.entry).track = 0
  · rw [if_pos start, if_pos start]
    rfl
  · rw [if_neg start] at refused ⊢
    rw [if_neg start]
    have walk := walkFile_stopped (if entryBlocks s.entry = 0 then 10000 else entryBlocks s.entry + 2)
      (startBlock s.entry) k s
    rw [← walk]
    dsimp only at refused ⊢
    split
    · rfl
    · rename_i b remaining there
      rw [there] at refused
      dsimp only at refused
      by_cases landed : ((walkFile (if entryBlocks s.entry = 0 then 10000 else entryBlocks s.entry + 2)
          (startBlock s.entry) k s).2.land b remaining).1 = false
      · rw [if_pos landed]
        exact land_refused landed
      · rw [if_neg landed] at refused
        cases refused

theorem seekSet_refused {pos : Nat} (called : s.seekCalled = true) (refused : (s.seekSet pos).1 = false) :
    (s.seekSet pos).2 = s.stopped (s.stop pos) := by
  have inner : ({ s with position := pos }.seek pos).1 = false := by
    unfold seekSet at refused
    dsimp only at refused
    split at refused
    · rename_i accepted
      rw [accepted] at refused
      cases refused
    · exact Bool.eq_false_iff.mpr ‹_›
  have state := seek_refused (s := { s with position := pos }) called inner
  unfold seekSet
  dsimp only
  rw [inner, if_neg (by simp), state]
  have same : ({ s with position := pos } : D64).stop pos = s.stop pos := rfl
  rw [same]
  cases s.stop pos with
  | none => rfl
  | some b => rfl

/- Two readers, one of them with its container at `p`, take the same bytes from the block they are in,
and come together behind it. -/
structure SameRest (s : D64) (p : Nat) : Prop where
  low : 0 < s.sector_offset
  high : s.sector_offset < 256
  more : s.position < s.size
  fits : s.container.pos + min (256 - s.sector_offset) s.available ≤ s.container.size
  fits' : p + min (256 - s.sector_offset) s.available ≤ s.container.size
  bytes : Store.read s.container.data p (min (256 - s.sector_offset) s.available) =
    Store.read s.container.data s.container.pos (min (256 - s.sector_offset) s.available)
  resumes : s.available < 256 - s.sector_offset ∨ (s.next_track = 0 ∧ s.available = 256 - s.sector_offset) ∨
    (s.next_track ≠ 0 ∧ ∃ n, s.geo.linearBlock s.next_track s.next_sector = some n)

/-- What the reads of a stream deliver does not change when its container is moved to `p`: everything
has been read, or nothing moves, or the bytes of the block are found there again. -/
def Unseen (s : D64) (p : Nat) : Prop :=
  (0 < s.size ∧ s.size ≤ s.position) ∨ p = s.container.pos ∨ SameRest s p

/-- `s'` reads like `s`. -/
def Twin (s s' : D64) : Prop := ∃ p t x, s' = s.at_ p t x ∧ Unseen s p

theorem Twin.refl (s : D64) : Twin s s := ⟨s.container.pos, s.track, s.sector, rfl, .inr (.inl rfl)⟩

/- A reader that agrees with one that agrees agrees. -/
theorem Unseen.trans {p t x q : Nat} (unseen : Unseen s p) (more : Unseen (s.at_ p t x) q) : Unseen s q := by
  rcases more with ended | same | more
  · exact .inl ended
  · rw [show q = p from same]
    exact unseen
  · rcases unseen with ended | rfl | rest
    · exact .inl ended
    · exact .inr (.inr ⟨more.low, more.high, more.more, more.fits, more.fits', more.bytes, more.resumes⟩)
    · exact .inr (.inr ⟨rest.low, rest.high, rest.more, rest.fits, more.fits', more.bytes.trans rest.bytes, rest.resumes⟩)

theorem Twin.trans {s'' : D64} (twin : Twin s s') (twin' : Twin s' s'') : Twin s s'' := by
  obtain ⟨p, t, x, rfl, unseen⟩ := twin
  obtain ⟨q, t', x', rfl, more⟩ := twin'
  exact ⟨q, t', x', rfl, unseen.trans more⟩

/- The track and sector registers have no part in reading. -/
def retracked (s : D64) (t x : Nat) : D64 := { s with track := t, sector := x }

theorem transfer_retracked (s : D64) (t x m : Nat) :
    ∃ t' x', (s.retracked t x).transfer m = ((s.transfer m).1, (s.transfer m).2.retracked t' x') := by
  obtain ⟨bytes, r, read⟩ : ∃ bytes r, s.readContainer m = (bytes, r) := ⟨_, _, rfl⟩
  have read' : (s.retracked t x).readContainer m = (bytes, r.retracked t x) := by
    have bytes' := congrArg Prod.fst read
    have state := congrArg (fun q : List UInt8 × D64 => q.2.retracked t x) read
    exact Prod.ext bytes' state
  let u : D64 := { r with sector_offset := (r.sector_offset + bytes.length) % 256 }
  have run : s.transfer m = if u.next_track ≠ 0 ∧ u.sector_offset % block_size = 0 then
      if (u.seekSector u.next_track u.next_sector).1 then (bytes, (u.seekSector u.next_track u.next_sector).2)
      else ([], (u.seekSector u.next_track u.next_sector).2)
    else (bytes, u) := by
    unfold transfer
    rw [read]
  have run' : (s.retracked t x).transfer m = if u.next_track ≠ 0 ∧ u.sector_offset % block_size = 0 then
      if ((u.retracked t x).seekSector u.next_track u.next_sector).1 then
        (bytes, ((u.retracked t x).seekSector u.next_track u.next_sector).2)
      else ([], ((u.retracked t x).seekSector u.next_track u.next_sector).2)
    else (bytes, u.retracked t x) := by
    unfold transfer
    rw [read']
    rfl
  rw [run, run']
  by_cases exceeds : u.next_track ≠ 0 ∧ u.sector_offset % block_size = 0
  · rw [if_pos exceeds, if_pos exceeds]
    cases found : u.geo.linearBlock u.next_track u.next_sector with
    | none =>
      have still := seekSector_missing (s := u) (b := ⟨u.next_track, u.next_sector⟩) found 0
      have still' := seekSector_missing (s := u.retracked t x) (b := ⟨u.next_track, u.next_sector⟩) found 0
      dsimp only at still still'
      rw [still, still']
      exact ⟨t, x, rfl⟩
    | some n =>
      have moved := seekSector_some u ⟨u.next_track, u.next_sector⟩ found 0
      have moved' := seekSector_some (u.retracked t x) ⟨u.next_track, u.next_sector⟩ found 0
      dsimp only at moved moved'
      rw [moved, moved']
      exact ⟨u.next_track, u.next_sector, rfl⟩
  · rw [if_neg exceeds, if_neg exceeds]
    exact ⟨t, x, rfl⟩

/- The stream behind the header, if it is at one. -/
def entered (s : D64) : D64 := if s.sector_offset % block_size = 0 then s.readBlockHeader else s

theorem readFile_entered (s : D64) (n : Nat) : s.readFile n =
    if s.sector_offset % block_size = 0 ∧ 0 < s.sector_offset ∧ s.next_track = 0 then ([], s)
    else if n = 0 then ([], s.entered)
    else s.entered.transfer (min (min n s.entered.available) (block_size - s.entered.sector_offset % block_size)) := rfl

theorem readFile_retracked (s : D64) (t x n : Nat) :
    ∃ t' x', (s.retracked t x).readFile n = ((s.readFile n).1, (s.readFile n).2.retracked t' x') := by
  have header : (s.retracked t x).entered = s.entered.retracked t x := by
    have same : (s.retracked t x).readBlockHeader = s.readBlockHeader.retracked t x := by
      rw [readBlockHeader_link, readBlockHeader_link]
      rfl
    unfold entered
    rw [same]
    exact (apply_ite (fun r : D64 => r.retracked t x) _ _ _).symm
  have run : (s.retracked t x).readFile n =
      if s.sector_offset % block_size = 0 ∧ 0 < s.sector_offset ∧ s.next_track = 0 then ([], s.retracked t x)
      else if n = 0 then ([], s.entered.retracked t x)
      else (s.entered.retracked t x).transfer
        (min (min n s.entered.available) (block_size - s.entered.sector_offset % block_size)) := by
    rw [readFile_entered, header]
    rfl
  rw [run, readFile_entered]
  by_cases ended : s.sector_offset % block_size = 0 ∧ 0 < s.sector_offset ∧ s.next_track = 0
  · rw [if_pos ended, if_pos ended]
    exact ⟨t, x, rfl⟩
  · rw [if_neg ended, if_neg ended]
    by_cases zero : n = 0
    · rw [if_pos zero, if_pos zero]
      exact ⟨t, x, rfl⟩
    · rw [if_neg zero, if_neg zero]
      exact transfer_retracked s.entered t x _

theorem read_retracked (called : s.seekCalled = true) (t x n : Nat) :
    ∃ t' x', (s.retracked t x).read n = ((s.read n).1, (s.read n).2.retracked t' x') := by
  by_cases ended : 0 < s.size ∧ s.size ≤ s.position
  · rw [read_ended ended.1 ended.2, read_ended (s := s.retracked t x) ended.1 ended.2]
    exact ⟨t, x, rfl⟩
  · obtain ⟨t', x', file⟩ := readFile_retracked s t x (if 0 < s.size then min n (s.size - s.position) else n)
    refine ⟨t', x', ?_⟩
    unfold read
    rw [if_neg ended, if_neg (show ¬ (0 < (s.retracked t x).size ∧ (s.retracked t x).size ≤ (s.retracked t x).position)
      from ended)]
    dsimp only
    rw [if_pos called, if_pos (show (s.retracked t x).seekCalled = true from called)]
    exact (congrArg (fun r : List UInt8 × D64 => (r.1, { r.2 with position := r.2.position + r.1.length })) file)

/- A read of nothing inside a block. -/
theorem read_zero (called : s.seekCalled = true) (low : 0 < s.sector_offset) (high : s.sector_offset < 256) :
    s.read 0 = ([], s) := by
  have here : ¬ s.sector_offset % block_size = 0 := by
    show ¬ s.sector_offset % 256 = 0
    omega
  have file : s.readFile 0 = ([], s) := by
    unfold readFile
    rw [if_neg (fun no => here no.1), if_neg here, if_pos rfl]
  have none : (if 0 < s.size then min 0 (s.size - s.position) else 0) = 0 := by
    split
    · omega
    · rfl
  by_cases ended : 0 < s.size ∧ s.size ≤ s.position
  · exact read_ended ended.1 ended.2
  · unfold read
    rw [if_neg ended]
    dsimp only
    rw [if_pos called, none, file]
    rfl

/-- A read of the block both readers are in. -/
theorem SameRest.read {p : Nat} (rest : SameRest s p) (called : s.seekCalled = true) (t x : Nat) {n : Nat}
    (positive : 0 < n) : ((s.at_ p t x).read n).1 = (s.read n).1 ∧ Twin (s.read n).2 ((s.at_ p t x).read n).2 := by
  have low := rest.low
  have high := rest.high
  have more := rest.more
  have fits := rest.fits
  have fits' := rest.fits'
  have bytes := rest.bytes
  obtain ⟨m, whole, shrinks⟩ : ∃ m, min (256 - s.sector_offset) s.available = m ∧
      ∀ k, min (256 - (s.sector_offset + k)) (s.available - k) = m - k := ⟨_, rfl, fun k => by omega⟩
  have most : m ≤ 256 - s.sector_offset ∧ m ≤ s.available := by omega
  have fewer : s.portion n ≤ m := by
    unfold D64.portion
    omega
  rw [whole] at fits fits' bytes
  clear whole
  have split_ : m = s.portion n + (m - s.portion n) := by omega
  rw [split_, Store.read_add, Store.read_add] at bytes
  obtain ⟨first, second⟩ := List.append_inj bytes (by rw [Store.length_read, Store.length_read])
  by_cases exceeds : s.sector_offset + s.portion n = 256 ∧ s.next_track ≠ 0
  · -- both go on to the next block
    obtain ⟨k, found⟩ : ∃ k, s.geo.linearBlock s.next_track s.next_sector = some k := by
      rcases rest.resumes with short | ⟨ends, -⟩ | ⟨-, found⟩
      · omega
      · exact absurd ends exceeds.2
      · exact found
    have here := read_over (b := ⟨s.next_track, s.next_sector⟩) called low high positive (.inl more) (by omega)
      exceeds.1 rfl exceeds.2 found
    have there := read_over (s := s.at_ p t x) (b := ⟨s.next_track, s.next_sector⟩) (n := n) called low high positive
      (.inl more) (show p + s.portion n ≤ s.container.size by omega) exceeds.1 rfl exceeds.2 found
    rw [here, there]
    exact ⟨first, Twin.refl _⟩
  · have stays : s.next_track = 0 ∨ s.sector_offset + s.portion n < 256 := by
      by_cases ends : s.next_track = 0
      · exact .inl ends
      · right
        by_contra out
        exact exceeds ⟨by omega, ends⟩
    have here := read_within called low high positive (.inl more) (by omega) stays
    have there := read_within (s := s.at_ p t x) (n := n) called low high positive (.inl more)
      (show p + s.portion n ≤ s.container.size by omega) stays
    rw [here, there]
    refine ⟨first, p + s.portion n, t, x, rfl, ?_⟩
    by_cases ended : s.size ≤ s.position + s.portion n
    · refine .inl ⟨?_, ended⟩
      show 0 < s.size
      omega
    · have inside : s.sector_offset + s.portion n < 256 := by
        rcases rest.resumes with short | ⟨-, exact_⟩ | ⟨runs, -⟩
        · omega
        · have left : s.available = s.size - s.position := rfl
          omega
        · exact stays.resolve_left runs
      have left : s.available = s.size - s.position := rfl
      have left' : (s.passed (s.portion n)).available = s.available - s.portion n := by
        show s.size - (s.position + s.portion n) = _
        omega
      have offset : (s.passed (s.portion n)).sector_offset = s.sector_offset + s.portion n := Nat.mod_eq_of_lt inside
      have whole' : min (256 - (s.passed (s.portion n)).sector_offset) (s.passed (s.portion n)).available =
          m - s.portion n := by
        rw [offset, left']
        exact shrinks _
      have rest' : SameRest (s.passed (s.portion n)) (p + s.portion n) := by
        refine ⟨by omega, by omega, ?_, ?_, ?_, ?_, ?_⟩
        · rw [passed_position, passed_size]
          omega
        · rw [whole', passed_pos]
          show s.container.pos + s.portion n + (m - s.portion n) ≤ s.container.size
          omega
        · rw [whole']
          show p + s.portion n + (m - s.portion n) ≤ s.container.size
          omega
        · rw [whole']
          exact second
        · rw [offset, left']
          rcases rest.resumes with short | ⟨ends, exact_⟩ | runs
          · exact .inl (by omega)
          · exact .inr (.inl ⟨ends, by omega⟩)
          · exact .inr (.inr runs)
      exact .inr (.inr rest')

theorem seekSector_called (t x o : Nat) : (s.seekSector t x o).2.seekCalled = s.seekCalled := by
  unfold seekSector
  split
  · rfl
  · rfl

theorem transfer_called (m : Nat) : (s.transfer m).2.seekCalled = s.seekCalled := by
  unfold transfer
  dsimp only
  split
  · split
    · exact seekSector_called _ _ _
    · exact seekSector_called _ _ _
  · rfl

theorem read_called (called : s.seekCalled = true) (n : Nat) : (s.read n).2.seekCalled = true := by
  have header : s.entered.seekCalled = true := by
    unfold entered
    rw [readBlockHeader_link]
    split
    · exact called
    · exact called
  have file : ∀ n, (s.readFile n).2.seekCalled = true := by
    intro n
    rw [readFile_entered]
    split
    · exact called
    · split
      · exact header
      · exact (transfer_called _).trans header
  unfold read
  split
  · exact called
  · exact file _

/-- Readers that are alike read alike. -/
theorem Twin.read (twin : Twin s s') (called : s.seekCalled = true) (n : Nat) :
    (s'.read n).1 = (s.read n).1 ∧ Twin (s.read n).2 (s'.read n).2 := by
  obtain ⟨p, t, x, rfl, unseen⟩ := twin
  rcases unseen with ended | rfl | rest
  · rw [read_ended ended.1 ended.2, read_ended (s := s.at_ p t x) ended.1 ended.2]
    exact ⟨rfl, p, t, x, rfl, .inl ended⟩
  · obtain ⟨t', x', same⟩ := read_retracked called t x n
    have run : (s.at_ s.container.pos t x).read n = ((s.read n).1, (s.read n).2.retracked t' x') := same
    rw [run]
    exact ⟨rfl, (s.read n).2.container.pos, t', x', rfl, .inr (.inl rfl)⟩
  · rcases Nat.eq_zero_or_pos n with rfl | positive
    · rw [read_zero called rest.low rest.high, read_zero (s := s.at_ p t x) called rest.low rest.high]
      exact ⟨rfl, p, t, x, rfl, .inr (.inr rest)⟩
    · exact rest.read called t x positive

/- What a stream with a selected file is asked for. -/
inductive Access where
  | read (n : Nat)
  | seek (pos : Nat)

def Access.isRead : Access → Bool
  | .read _ => true
  | .seek _ => false

def access (s : D64) : Access → D64
  | .read n => (s.read n).2
  | .seek pos => (s.seekSet pos).2

/-- What the reads of a run deliver, and where the stream is after each. -/
def delivered : List Access → D64 → List (Str × Nat)
  | [], _ => []
  | .read n :: as, s => ((s.read n).1, (s.read n).2.position) :: delivered as (s.read n).2
  | .seek pos :: as, s => delivered as (s.seekSet pos).2

/-- The seek is refused where the reads that follow do not depend on what its walk has moved. -/
def Careful (s : D64) : Access → Prop
  | .read _ => True
  | .seek pos => (s.seekSet pos).1 = false ∧ ∀ b, s.stop pos = some b → Unseen s (linkEnd s.container (s.geo.addr b))

theorem Twin.position (twin : Twin s s') : s'.position = s.position := by
  obtain ⟨p, t, x, rfl, -⟩ := twin
  rfl

theorem Twin.called (twin : Twin s s') (called : s.seekCalled = true) : s'.seekCalled = true := by
  obtain ⟨p, t, x, rfl, -⟩ := twin
  exact called

/- A refused seek leaves a stream that reads like the one before it. -/
theorem Careful.twin {pos : Nat} (careful : Careful s (.seek pos)) (called : s.seekCalled = true) :
    Twin s (s.seekSet pos).2 := by
  obtain ⟨refused, unseen⟩ := careful
  rw [seekSet_refused called refused]
  cases stop : s.stop pos with
  | none => exact Twin.refl s
  | some b => exact ⟨_, _, _, rfl, unseen b stop⟩

/- A run with refused seeks against one without. -/
theorem Twin.run (as : List Access) (twin : Twin s s') (called : s.seekCalled = true)
    (careful : Along access Careful s' as) :
    delivered as s' = delivered (as.filter Access.isRead) s ∧
      (as.foldl access s').position = ((as.filter Access.isRead).foldl access s).position := by
  induction as generalizing s s' with
  | nil => exact ⟨rfl, twin.position⟩
  | cons a as ih =>
    cases a with
    | read n =>
      obtain ⟨piece, next⟩ := twin.read called n
      obtain ⟨rest, place⟩ := ih next (read_called called n) careful.2
      refine ⟨?_, place⟩
      show ((s'.read n).1, (s'.read n).2.position) :: delivered as (s'.read n).2 =
        ((s.read n).1, (s.read n).2.position) :: delivered (as.filter Access.isRead) (s.read n).2
      rw [piece, next.position, rest]
    | seek pos => exact ih (twin.trans (careful.1.twin (twin.called called))) called careful.2

/-- Refused seeks change nothing that can be seen of the reads around them, where none of them moves
the container off bytes that are still to be read. -/
theorem refused_seeks_unseen (s : D64) (called : s.seekCalled = true) (as : List Access)
    (careful : Along access Careful s as) :
    delivered as s = delivered (as.filter Access.isRead) s ∧
      (as.foldl access s).position = ((as.filter Access.isRead).foldl access s).position :=
  (Twin.refl s).run as called careful

theorem reads_careful (ns : List Nat) (s : D64) : Along access Careful s (ns.map .read) := by
  induction ns generalizing s with
  | nil => exact trivial
  | cons n ns ih => exact ⟨trivial, ih _⟩

theorem reads_filter (ns : List Nat) : (ns.map Access.read).filter Access.isRead = ns.map .read := by
  induction ns with
  | nil => rfl
  | cons n ns ih => exact congrArg (Access.read n :: ·) ih

/-- Inside a block that a file goes on behind, or that is the end of it, the condition is exact. -/
theorem unseen_iff {p t x : Nat} (called : s.seekCalled = true) (low : 0 < s.sector_offset)
    (high : s.sector_offset < 256) (more : s.position < s.size)
    (fits : s.container.pos + min (256 - s.sector_offset) s.available ≤ s.container.size)
    (fits' : p + min (256 - s.sector_offset) s.available ≤ s.container.size)
    (resumes : s.available < 256 - s.sector_offset ∨ (s.next_track = 0 ∧ s.available = 256 - s.sector_offset) ∨
      (s.next_track ≠ 0 ∧ ∃ n, s.geo.linearBlock s.next_track s.next_sector = some n)) :
    (∀ ns : List Nat, delivered (ns.map .read) (s.at_ p t x) = delivered (ns.map .read) s) ↔ Unseen s p := by
  obtain ⟨m, whole⟩ : ∃ m, min (256 - s.sector_offset) s.available = m := ⟨_, rfl⟩
  have left : s.available = s.size - s.position := rfl
  have portion : s.portion m = m := by
    unfold D64.portion
    omega
  constructor
  · intro same
    have first := same [m]
    have pieces : ((s.at_ p t x).read m).1 = (s.read m).1 := (Prod.mk.inj (List.cons.inj first).1).1
    refine .inr (.inr ⟨low, high, more, fits, fits', ?_, resumes⟩)
    by_cases exceeds : s.sector_offset + m = 256 ∧ s.next_track ≠ 0
    · obtain ⟨k, found⟩ : ∃ k, s.geo.linearBlock s.next_track s.next_sector = some k := by
        rcases resumes with short | ⟨ends, -⟩ | ⟨-, found⟩
        · omega
        · exact absurd ends exceeds.2
        · exact found
      have here := read_over (n := m) (b := ⟨s.next_track, s.next_sector⟩) called low high (by omega) (.inl more)
        (by omega) (by rw [portion]; exact exceeds.1) rfl exceeds.2 found
      have there := read_over (s := s.at_ p t x) (n := m) (b := ⟨s.next_track, s.next_sector⟩) called low high (by omega)
        (.inl more) (show p + s.portion m ≤ s.container.size by omega)
        (show s.sector_offset + s.portion m = 256 by rw [portion]; exact exceeds.1) rfl exceeds.2 found
      rw [here, there] at pieces
      rw [whole, ← portion]
      exact pieces
    · have stays : s.next_track = 0 ∨ s.sector_offset + s.portion m < 256 := by
        by_cases ends : s.next_track = 0
        · exact .inl ends
        · right
          by_contra out
          exact exceeds ⟨by omega, ends⟩
      have here := read_within (n := m) called low high (by omega) (.inl more) (by omega) stays
      have there := read_within (s := s.at_ p t x) (n := m) called low high (by omega) (.inl more)
        (show p + s.portion m ≤ s.container.size by omega) stays
      rw [here, there] at pieces
      rw [whole, ← portion]
      exact pieces
  · intro unseen ns
    have run := (Twin.run (ns.map .read) ⟨p, t, x, rfl, unseen⟩ called (reads_careful ns _)).1
    rw [reads_filter] at run
    exact run

/- A D64 with the file "a" of the bytes 1 to 4 in block 17/0. -/
def fourBytes : Container where
  data := Store.put (Store.put (fun _ => 0) 91650 (newEntry [0x61] ⟨17, 0⟩ 1)) 86016 [0, 5, 1, 2, 3, 4]
  size := 174848

/-- A seek behind the file is refused, and the first byte is read again in place of the second. -/
theorem refused_seek_seen :
    ((D64.new .d64 fourBytes).seekPathIn [0x61]).map (fun r => (r.1, ((r.2.read 1).2.seekSet 300).1)) =
      some (true, false) ∧
    ((D64.new .d64 fourBytes).seekPathIn [0x61]).map (fun r => delivered [.read 1, .read 1] r.2) =
      some [([1], 1), ([2], 2)] ∧
    ((D64.new .d64 fourBytes).seekPathIn [0x61]).map (fun r => delivered [.read 1, .seek 300, .read 1] r.2) =
      some [([1], 1), ([1], 2)] := by
  decide

/-- `refused_seeks_unseen` applies once the file has been read. -/
theorem refused_seeks_unseen_sample : ∃ s, (D64.new .d64 fourBytes).seekPathIn [0x61] = some (true, s) ∧
    delivered [.read 254, .seek 300, .read 1] s = delivered [.read 254, .read 1] s := by
  have view : ((D64.new .d64 fourBytes).seekPathIn [0x61]).map (fun r => (r.1, r.2.seekCalled,
      ((r.2.read 254).2.seekSet 300).1, decide (0 < (r.2.read 254).2.size ∧ (r.2.read 254).2.size ≤ (r.2.read 254).2.position))) =
        some (true, true, false, true) := by decide
  obtain ⟨⟨found, s⟩, opened, facts⟩ := Option.map_eq_some_iff.mp view
  obtain ⟨rfl, facts⟩ := Prod.mk.inj facts
  obtain ⟨called, facts⟩ := Prod.mk.inj facts
  obtain ⟨refused, ended⟩ := Prod.mk.inj facts
  have unseen := refused_seeks_unseen s called [.read 254, .seek 300, .read 1]
    ⟨trivial, ⟨refused, fun b _ => .inl (of_decide_eq_true ended)⟩, trivial, trivial⟩
  exact ⟨s, opened, unseen.1⟩

end D64

end Meatloaf.Disk
