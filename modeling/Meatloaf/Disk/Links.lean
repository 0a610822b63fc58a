import Mathlib.Algebra.GroupWithZero.Nat
import Meatloaf.Lib.Chain
import Meatloaf.Lib.While
import Meatloaf.Disk.Listing

/-! `D64MStream::getBlocks`: the links of a file, block after block. A block is asked for as many bytes as an entry
of the directory has, and goes where a link goes. -/
namespace Meatloaf.Disk

open Lib

/-- `D64MStream::Block`, as it is filled from the container. -/
structure Link where
  track : UInt8
  sector : UInt8
deriving DecidableEq

def sizeofBlock : Nat := 2
def sizeofEntry : Nat := 32

/-- The bytes that were read, over what the record held; those behind the second one are outside of it. -/
def Link.filled (held : Link) (bytes : List UInt8) : Link := ⟨bytes.getD 0 held.track, bytes.getD 1 held.sector⟩

/-- The variables of `getBlocks`, with the number of bytes of each read. -/
structure Collecting where
  s : D64
  link : Link
  next_track : UInt8
  next_sector : UInt8
  chain : List Link := []
  reads : List Nat := []
  finished : Bool := false

/- The body of the loop, with the test behind it. -/
def Collecting.turn (c : Collecting) : Option Collecting :=
  if c.finished then none
  else
    let found := c.s.seekSector c.next_track.toNat c.next_sector.toNat
    if found.1 = false then some { c with s := found.2, finished := true }
    else
      let read := found.2.readContainer sizeofEntry
      let link := c.link.filled read.1
      some
        { s := read.2
          link := link
          next_track := link.track
          next_sector := link.sector
          chain := c.chain ++ [link]
          reads := c.reads ++ [read.1.length]
          finished := link.track = 0 }

namespace D64

/-- `getBlocks(track, sector)`, if `fuel` tests are enough. Nothing is said of what the record holds at first. -/
def getBlocks (fuel : Nat) (held start : Link) (s : D64) : Option Collecting :=
  loop Collecting.turn fuel { s := s, link := held, next_track := start.track, next_sector := start.sector }

/- Where a block starts in the container. -/
def blockOf (s : D64) (b : Link) : Option Nat := s.geo.blockStart ⟨b.track.toNat, b.sector.toNat⟩

/- The link that stands in a block. -/
def follow (s : D64) (b : Link) : Link :=
  match s.blockOf b with
  | some a => ⟨s.container.data a, s.container.data (a + 1)⟩
  | none => b

/-- A chain of blocks that are in the image. -/
structure WellFormed (s : D64) (start : Link) (blocks : List Link) : Prop where
  chain : Chain s.follow (fun b => b.track = 0) start blocks
  some_ : blocks ≠ []
  inside : ∀ b ∈ blocks, ∃ a, s.blockOf b = some a ∧ a + block_size ≤ s.container.size

/-- `getBlocks` ends, keeps to its record and has the links of a chain. -/
def Collects (s : D64) (start : Link) : Prop :=
  ∀ held, ∃ fuel c, s.getBlocks fuel held start = some c ∧ (∀ n ∈ c.reads, n ≤ sizeofBlock) ∧
    ∀ blocks, s.WellFormed start blocks → c.chain = blocks.map s.follow

/- Another state of a stream over the same image. -/
structure OfImage (s t : D64) : Prop where
  geo : t.geo = s.geo
  data : t.container.data = s.container.data
  size : t.container.size = s.container.size

/- What a read at `a` leaves in the record. -/
def linkAt (s : D64) (a : Nat) (held : Link) : Link :=
  held.filled (Store.read s.container.data a (min sizeofEntry (s.container.size - a)))

/-- There is no first block, or the container ends at its first two bytes and they lead to no other one. -/
def EndsAtOnce (s : D64) (start : Link) : Prop :=
  s.blockOf start = none ∨ ∃ a, s.blockOf start = some a ∧ s.container.size ≤ a + sizeofBlock ∧
    ∀ held, (s.linkAt a held).track = 0 ∨ s.blockOf (s.linkAt a held) = none

end D64

namespace Collecting

variable {c : Collecting} {s : D64} {next : Link} {a : Nat}

theorem turn_finished (finished : c.finished = true) : c.turn = none := if_pos finished

theorem turn_refused (link : Link) (chain : List Link) (reads : List Nat) (missing : s.blockOf next = none) :
    turn ⟨s, link, next.track, next.sector, chain, reads, false⟩ =
      some ⟨s, link, next.track, next.sector, chain, reads, true⟩ := by
  have number : s.geo.linearBlock next.track.toNat next.sector.toNat = none := Option.map_eq_none_iff.mp missing
  have found : s.seekSector next.track.toNat next.sector.toNat = (false, s) := by
    rw [D64.seekSector, number]
  rw [turn, if_neg Bool.false_ne_true, found]
  rfl

/-- A block is read. -/
theorem turn_read (link : Link) (chain : List Link) (reads : List Nat) (found : s.blockOf next = some a) :
    ∃ t, s.OfImage t ∧ turn ⟨s, link, next.track, next.sector, chain, reads, false⟩ =
      some ⟨t, s.linkAt a link, (s.linkAt a link).track, (s.linkAt a link).sector, chain ++ [s.linkAt a link],
        reads ++ [min sizeofEntry (s.container.size - a)], (s.linkAt a link).track = 0⟩ := by
  obtain ⟨n, number, rfl⟩ := Option.map_eq_some_iff.mp found
  refine ⟨((s.seekSector next.track.toNat next.sector.toNat).2.readContainer sizeofEntry).2, ⟨?_, ?_, ?_⟩, ?_⟩
  · rw [D64.seekSector, number]
    rfl
  · rw [D64.seekSector, number]
    rfl
  · rw [D64.seekSector, number]
    rfl
  · rw [turn, if_neg Bool.false_ne_true, D64.seekSector, number]
    simp [D64.readContainer, Container.read, Container.seek, D64.linkAt]
    rfl

/- A read that was made is not forgotten. -/
theorem turn_reads {d : Collecting} (next : c.turn = some d) {n : Nat} (made : n ∈ c.reads) : n ∈ d.reads := by
  rw [turn] at next
  split at next
  · cases next
  · dsimp only at next
    split at next
    · obtain rfl := Option.some.inj next
      exact made
    · obtain rfl := Option.some.inj next
      exact List.mem_append_left _ made

theorem loop_reads {d : Collecting} {fuel : Nat} (left : loop turn fuel c = some d) {n : Nat} (made : n ∈ c.reads) :
    n ∈ d.reads :=
  (loop_keeps (I := fun c => n ∈ c.reads) (fun _ _ made next => turn_reads next made) made left).1

end Collecting

namespace D64

variable {s t : D64} {start held l : Link} {a : Nat}

/- Only the image and its geometry count. -/
theorem OfImage.linkAt (image : s.OfImage t) (a : Nat) (held : Link) : t.linkAt a held = s.linkAt a held := by
  rw [D64.linkAt, D64.linkAt, image.data, image.size]

theorem OfImage.blockOf (image : s.OfImage t) (b : Link) : t.blockOf b = s.blockOf b := by
  rw [D64.blockOf, D64.blockOf, image.geo]

theorem OfImage.trans {u : D64} (image : s.OfImage t) (image' : t.OfImage u) : s.OfImage u :=
  ⟨image'.geo.trans image.geo, image'.data.trans image.data, image'.size.trans image.size⟩

/-- A read of the same place, or of one behind the end, leaves the record as it is. -/
theorem linkAt_again (s : D64) (a : Nat) (held : Link) : s.linkAt a (s.linkAt a held) = s.linkAt a held := by
  rw [linkAt, linkAt]
  generalize Store.read s.container.data a _ = bytes
  cases bytes with
  | nil => exact rfl
  | cons b bytes => cases bytes <;> exact rfl

theorem linkAt_behind (held : Link) (behind : s.container.size ≤ a) : s.linkAt a held = held := by
  rw [linkAt, Nat.sub_eq_zero_of_le behind]
  exact rfl

/-- There is no track zero. -/
theorem blockOf_track (f : Format) (c : Container) {b : Link} (zero : b.track = 0) : (D64.new f c).blockOf b = none := by
  have first : ((D64.new f c).geo).first_track = 1 := by
    cases f <;> exact rfl
  have outside : b.track.toNat < (D64.new f c).geo.first_track := by
    rw [first, zero]
    decide
  rw [blockOf, Geometry.blockStart, Geometry.linearBlock, if_pos (.inl outside)]
  exact rfl

theorem blockOf_aligned {b : Link} (found : s.blockOf b = some a) : a % block_size = 0 := by
  obtain ⟨n, -, rfl⟩ := Option.map_eq_some_iff.mp found
  exact Nat.mul_mod_left _ _

/-- A link that leads to itself is followed for ever. -/
theorem follow_endless (runs : l.track ≠ 0) (found : s.blockOf l = some a) (again : s.linkAt a l = l)
    (image : s.OfImage t) (chain : List Link) (reads : List Nat) (fuel : Nat) :
    loop Collecting.turn fuel ⟨t, l, l.track, l.sector, chain, reads, false⟩ = none := by
  have keeps (c : Collecting) (here : ∃ t chain reads, s.OfImage t ∧ c = ⟨t, l, l.track, l.sector, chain, reads, false⟩) :
      ∃ d, c.turn = some d ∧ ∃ t chain reads, s.OfImage t ∧ d = ⟨t, l, l.track, l.sector, chain, reads, false⟩ := by
    obtain ⟨t, chain, reads, image, rfl⟩ := here
    obtain ⟨u, image', taken⟩ := Collecting.turn_read l chain reads ((image.blockOf l).trans found)
    rw [image.linkAt, again, decide_eq_false runs] at taken
    exact ⟨_, taken, u, _, _, image.trans image', rfl⟩
  exact loop_endless keeps ⟨t, chain, reads, image, rfl⟩ fuel

theorem WellFormed.start_inside {blocks : List Link} (formed : s.WellFormed start blocks) :
    ∃ a, s.blockOf start = some a ∧ a + block_size ≤ s.container.size := by
  apply formed.inside
  apply formed.chain.start_mem
  intro ends
  exact formed.some_ (formed.chain.nil_iff.mpr ends)

/-- A walk that ends at once meets no chain, and keeps to its record. -/
theorem EndsAtOnce.collects (ends : s.EndsAtOnce start) : s.Collects start := by
  intro held
  rcases ends with missing | ⟨a, found, short, ends⟩
  · have taken := Collecting.turn_refused held [] [] missing
    refine ⟨2, _, (loop_next taken 1).trans (loop_done (Collecting.turn_finished (rfl))), fun n no => ?_,
      fun blocks formed => ?_⟩
    · cases no
    · obtain ⟨a, found, -⟩ := formed.start_inside
      rw [missing] at found
      cases found
  · obtain ⟨t, image, taken⟩ := Collecting.turn_read held [] [] found
    have reads : ∀ n ∈ [min sizeofEntry (s.container.size - a)], n ≤ sizeofBlock := by
      intro n made
      obtain rfl := List.mem_singleton.mp made
      omega
    have no_chain (blocks : List Link) (formed : s.WellFormed start blocks) (chain : List Link) :
        chain = blocks.map s.follow := by
      obtain ⟨a', found', inside⟩ := formed.start_inside
      rw [found, Option.some.injEq] at found'
      rw [found', sizeofBlock] at short
      rw [block_size] at inside
      omega
    by_cases last : (s.linkAt a held).track = 0
    · exact ⟨2, _, (loop_next taken 1).trans (loop_done (Collecting.turn_finished (decide_eq_true last))), reads,
        fun blocks formed => no_chain blocks formed _⟩
    · have missing := (image.blockOf _).trans ((ends held).resolve_left last)
      have refused := Collecting.turn_refused (s.linkAt a held) [s.linkAt a held]
        [min sizeofEntry (s.container.size - a)] missing
      rw [decide_eq_false last] at taken
      exact ⟨3, _, (loop_next taken 2).trans ((loop_next refused 1).trans (loop_done (Collecting.turn_finished (rfl)))),
        reads, fun blocks formed => no_chain blocks formed _⟩

/-- Any other walk goes outside of its record, or does not end. -/
theorem Collects.endsAtOnce {f : Format} {image : Container} (collects : (D64.new f image).Collects start) :
    (D64.new f image).EndsAtOnce start := by
  generalize whole : D64.new f image = s at collects ⊢
  cases found : s.blockOf start with
  | none => exact .inl found
  | some a =>
    have runs : start.track ≠ 0 := by
      intro zero
      rw [← whole, blockOf_track f image zero] at found
      cases found
    -- what a walk has read it has read into the record
    have first (held : Link) : ∃ t, s.OfImage t ∧ ∃ fuel c, loop Collecting.turn fuel
        ⟨t, s.linkAt a held, (s.linkAt a held).track, (s.linkAt a held).sector, [s.linkAt a held],
          [min sizeofEntry (s.container.size - a)], (s.linkAt a held).track = 0⟩ = some c ∧
          ∀ n ∈ c.reads, n ≤ sizeofBlock := by
      obtain ⟨fuel, c, left, reads, -⟩ := collects held
      obtain ⟨t, image', taken⟩ := Collecting.turn_read held [] [] found
      cases fuel with
      | zero => cases left
      | succ fuel => exact ⟨t, image', fuel, c, (loop_next taken fuel).symm.trans left, reads⟩
    have short : s.container.size ≤ a + sizeofBlock := by
      obtain ⟨t, -, fuel, c, left, reads⟩ := first start
      have made := reads _ (Collecting.loop_reads left List.mem_cons_self)
      rw [sizeofBlock, sizeofEntry] at *
      omega
    refine .inr ⟨a, found, short, fun held => ?_⟩
    by_contra on
    obtain ⟨further, there⟩ := not_or.mp on
    obtain ⟨a', found'⟩ := Option.ne_none_iff_exists'.mp there
    -- a link that leads to itself
    have moves (held : Link) (runs : (s.linkAt a held).track ≠ 0) (a' : Nat) (found' : s.blockOf (s.linkAt a held) = some a') :
        s.linkAt a' (s.linkAt a held) ≠ s.linkAt a held := by
      intro again
      obtain ⟨t, image', fuel, c, left, -⟩ := first held
      rw [decide_eq_false runs, follow_endless runs found' again image'] at left
      cases left
    have inside : a < s.container.size := by
      by_contra behind
      have same : s.linkAt a start = start := linkAt_behind start (Nat.le_of_not_lt behind)
      exact moves start (same.symm ▸ runs) a (same.symm ▸ found) (linkAt_again s a start)
    have short' : s.container.size ≤ a' + sizeofBlock := by
      obtain ⟨t, image', fuel, c, left, reads⟩ := first held
      obtain ⟨u, image'', taken⟩ := Collecting.turn_read (s.linkAt a held) [s.linkAt a held]
        [min sizeofEntry (s.container.size - a)] ((image'.blockOf _).trans found')
      rw [decide_eq_false further] at left
      cases fuel with
      | zero => cases left
      | succ fuel =>
        rw [loop_next taken fuel] at left
        have made := reads _ (Collecting.loop_reads left (List.mem_append_right _ (List.mem_singleton_self _)))
        rw [image'.size] at made
        rw [sizeofBlock, sizeofEntry] at *
        omega
    have aligned := blockOf_aligned found
    have aligned' := blockOf_aligned found'
    rw [sizeofBlock] at short short'
    rw [block_size] at aligned aligned'
    rcases Nat.lt_trichotomy a' a with before | rfl | behind
    · omega
    · exact moves held further a' found' (linkAt_again s a' held)
    · exact moves held further a' found' (linkAt_behind _ (by omega))

/-- `getBlocks` ends, keeps to its record and has the links of every chain if and only if there is no first block, or
the container ends at the first two bytes of it and they lead to no other one. -/
theorem getBlocks_collects_iff (f : Format) (image : Container) (start : Link) :
    (D64.new f image).Collects start ↔ (D64.new f image).EndsAtOnce start :=
  ⟨Collects.endsAtOnce, EndsAtOnce.collects⟩

/-- The first block of a disk of the usual size. -/
theorem getBlocks_outside : ¬ (D64.new .d64 { data := fun _ => 1, size := 174848 }).Collects ⟨1, 0⟩ := by
  intro collects
  have found : (D64.new .d64 { data := fun _ => 1, size := 174848 }).blockOf ⟨1, 0⟩ = some 0 := by decide
  rcases collects.endsAtOnce with missing | ⟨a, found', short, -⟩
  · rw [found] at missing
    cases missing
  · rw [found, Option.some.injEq] at found'
    rw [← found'] at short
    exact absurd short (by decide)

end D64

end Meatloaf.Disk
