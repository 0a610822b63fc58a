import Meatloaf.Disk.Plan

/-! A save in progress: what it has claimed and written so far, and what a failure
leaves behind. -/
namespace Meatloaf.Disk

open Lib

namespace Geometry

variable (g : Geometry)

/-- `d` is `d₀` with the blocks `bs` claimed, and nothing written but to blocks that
were free. -/
structure Claimed (d₀ : Nat → UInt8) (bs : List Block) (d : Nat → UInt8) : Prop where
  bam : g.BamOk d
  free : ∀ c, g.free d c = (g.free d₀ c && decide (c ∉ bs))
  fresh : ∀ b ∈ bs, g.free d₀ b = true
  nodup : bs.Nodup
  rest : ∀ a, ¬ g.BamArea a → (∀ b, g.free d₀ b = true → a < g.addr b ∨ g.addr b + 256 ≤ a) → d a = d₀ a

/-- A failed save: the free blocks are the ones there were before. -/
abbrev Clean (d₀ d : Nat → UInt8) : Prop := g.Claimed d₀ [] d

/- A block is gone that was free. -/
def Leaks (d₀ d : Nat → UInt8) : Prop := ∃ b, g.free d₀ b = true ∧ g.free d b = false

variable {g} {d₀ d d' : Nat → UInt8} {bs : List Block} {b : Block}

theorem Claimed.refl (ok : g.BamOk d) : g.Clean d d :=
  ⟨ok, by simp, by simp, List.nodup_nil, fun _ _ _ => rfl⟩

/- A block that is still free is none of those claimed. -/
theorem Claimed.open_ (h : g.Claimed d₀ bs d) (free : g.free d b = true) :
    g.free d₀ b = true ∧ b ∉ bs := by
  rw [h.free, Bool.and_eq_true, decide_eq_true_eq] at free
  exact free

theorem Claimed.inside (h : g.Claimed d₀ bs d) (v : g.Valid) (ok : g.BamOk d₀) (member : b ∈ bs) :
    g.Inside b := by
  have free := h.fresh b member
  have range := (Represented.of_free free).track v
  refine ⟨range.1, range.2, Nat.lt_of_not_le fun beyond => ?_⟩
  rw [ok.spare b.track b.sector beyond] at free
  exact Bool.false_ne_true free

theorem Claimed.used (h : g.Claimed d₀ bs d) (member : b ∈ bs) : g.free d b = false := by
  rw [h.free]
  simp [member]

theorem Claimed.claim (h : g.Claimed d₀ bs d) (v : g.Valid) (inside : g.Inside b)
    (free : g.free d b = true) : g.Claimed d₀ (bs ++ [b]) (g.setFree d b true) := by
  obtain ⟨before, new⟩ := h.open_ free
  have represented := inside.represented v
  refine ⟨h.bam.allocate v inside free, ?_, ?_, ?_, ?_⟩
  · intro c
    rw [free_allocate v represented, h.free]
    by_cases same : c = b <;> simp [same]
  · intro c member
    rcases List.mem_append.mp member with old | last
    · exact h.fresh c old
    · rw [List.mem_singleton.mp last]
      exact before
  · rw [List.nodup_append]
    refine ⟨h.nodup, List.nodup_singleton b, ?_⟩
    rintro c old e last rfl
    rw [List.mem_singleton.mp last] at old
    exact new old
  · intro a outside off
    rw [setFree_outside v represented true outside]
    exact h.rest a outside off

/- A claimed block is written to. -/
theorem Claimed.write (h : g.Claimed d₀ bs d) (v : g.Valid) (inside : g.Inside b) (system : ¬ g.System b)
    (was : g.free d₀ b = true) (bytes : List UInt8) (full : bytes.length = 256) :
    g.Claimed d₀ bs (Store.put d (g.addr b) bytes) := by
  have agree : ∀ a, g.BamArea a → Store.put d (g.addr b) bytes a = d a := by
    have put := put_agree (d := d) v inside system 0 bytes (by omega)
    rwa [Nat.add_zero] at put
  refine ⟨h.bam.agree v agree, ?_, h.fresh, h.nodup, ?_⟩
  · intro c
    rw [free_agree v agree]
    exact h.free c
  · intro a outside off
    rw [Store.put_outside _ _ _ _ (by have := off b was; omega)]
    exact h.rest a outside off

/-- Giving back what was claimed. -/
theorem Claimed.release (h : g.Claimed d₀ bs d) (released : g.Released d bs d') : g.Clean d₀ d' := by
  refine ⟨released.bam h.bam, ?_, by simp, List.nodup_nil, ?_⟩
  · intro c
    rw [released.free, h.free]
    by_cases member : c ∈ bs
    · simp [member, h.fresh c member]
    · simp [member]
  · intro a outside off
    rw [released.rest a outside]
    exact h.rest a outside off

/- Giving back all but one block. -/
theorem Claimed.leak (h : g.Claimed d₀ bs d) (free : g.free d b = true) {d₁ : Nat → UInt8}
    (gone : g.free d₁ b = false) (released : g.Released d₁ bs d') : g.Leaks d₀ d' := by
  obtain ⟨before, new⟩ := h.open_ free
  refine ⟨b, before, ?_⟩
  rw [released.free, gone]
  simpa using new

theorem free_mark (v : g.Valid) (represented : g.Represented b) (c : Block) :
    g.free (g.mark d b true) c = (decide (c ≠ b) && g.free d c) := by
  rw [← free_allocate v represented]
  unfold setFree
  exact (free_congr (record_mirror v b.track c.track)).symm

end Geometry

namespace D64

/-- A save that was given up. -/
structure Failed (s₀ s : D64) (o : Outcome) : Prop where
  cause : o ≠ .complete
  geo : s.geo = s₀.geo
  size : s.container.size = s₀.container.size
  steady : s.container.fault = none
  error : s.error ≠ 0
  creating : s.creating = false
  clean : ¬ o.Exposed → s.geo.Clean s₀.container.data s.container.data
  leaks : o.Exposed → s.geo.Leaks s₀.container.data s.container.data

/- The rollback of a save whose blocks are all marked in the BAM. -/
theorem failWrite_released (s : D64) (w : Whole s) (steady : s.container.fault = none)
    (nodup : s.create_allocated.Nodup)
    (used : ∀ b ∈ s.create_allocated, s.geo.Inside b ∧ s.geo.free s.container.data b = false) (code : Nat) :
    s.geo.Released s.container.data s.create_allocated (s.failWrite code).container.data ∧
      (s.failWrite code).geo = s.geo ∧ (s.failWrite code).container.size = s.container.size ∧
      (s.failWrite code).container.fault = none := by
  obtain ⟨d', released, reach⟩ := foldl_deallocate s w.mounted steady s.create_allocated nodup used
  unfold failWrite rollbackFileWrite
  dsimp only
  exact ⟨by rw [reach.data]; exact released, reach.geo, reach.size w, reach.fault⟩

/-- A save of `name` that has taken in `p` so far. `s₀` is the stream before the
first block was claimed. Every block but the last one is on the medium, with the link to
the block after it. -/
structure Saving (s₀ : D64) (name : Str) (s : D64) (bs : List Block) (p : Str) : Prop where
  geo : s.geo = s₀.geo
  size : s.container.size = s₀.container.size
  error : s.error = 0
  filename : s.create_filename = name
  directory : s.dir_track = s₀.dir_track ∧ s.dir_sector = s₀.dir_sector
  allocated : s.create_allocated = bs
  nonempty : bs ≠ []
  start : s.create_start = bs.getD 0 ⟨0, 0⟩
  current : s.create_block = bs.getD (bs.length - 1) ⟨0, 0⟩
  claimed : s₀.geo.Claimed s₀.container.data bs s.container.data
  stored : ∀ k, k + 1 < bs.length →
    Store.read s.container.data (s₀.geo.addr (bs.getD k ⟨0, 0⟩)) 256 =
      UInt8.ofNat (bs.getD (k + 1) ⟨0, 0⟩).track :: UInt8.ofNat (bs.getD (k + 1) ⟨0, 0⟩).sector ::
        (p.drop (254 * k)).take 254
  buffer : s.cbuf = p.drop (254 * (bs.length - 1))
  long : 254 * (bs.length - 1) ≤ p.length
  short : p.length ≤ 254 * bs.length

theorem getD_mem {l : List Block} {k : Nat} (h : k < l.length) : l.getD k ⟨0, 0⟩ ∈ l := by
  rw [List.getD_eq_getElem _ _ h]
  exact List.getElem_mem _

section saving

variable {s₀ s : D64} {dirs bs : List Block} {chain : Nat → List Block} {name p : Str} {o : Outcome}
variable (ready : Whole s₀) (sound : Sound s₀.geo s₀.container.data dirs chain)
include ready sound

omit sound in
theorem Saving.whole (h : Saving s₀ name s bs p) : Whole s where
  valid := h.geo ▸ ready.valid
  size := by
    rw [h.geo, h.size]
    exact ready.size

/- The claimed blocks are there to be written to. -/
theorem Saving.block (h : Saving s₀ name s bs p) {b : Block} (member : b ∈ bs) :
    s₀.geo.Inside b ∧ ¬ s₀.geo.System b ∧ ¬ OnChain dirs chain b :=
  sound.free_block ready.valid (h.claimed.fresh b member)

/- The rollback, with the blocks of the save still marked. -/
theorem Saving.fail (h : Saving s₀ name s bs p) {s₁ : D64} {d₁ : Nat → UInt8} (reach : Reaches s d₁ none s₁)
    (used : ∀ b ∈ bs, s₀.geo.free d₁ b = false) (code : Nat) (error : code ≠ 0) (cause : o ≠ .complete)
    (clean : ¬ o.Exposed → s₀.geo.Claimed s₀.container.data bs d₁)
    (leak : o.Exposed → ∃ b, s₀.geo.free s.container.data b = true ∧ s₀.geo.free d₁ b = false) :
    Failed s₀ (s₁.failWrite code) o := by
  have geo : s₁.geo = s₀.geo := reach.geo.trans h.geo
  have listed : s₁.create_allocated = bs := by
    rw [reach.eq]
    exact h.allocated
  have wholeS := h.whole ready
  obtain ⟨released, geo', size, fault⟩ := failWrite_released s₁ (reach.whole wholeS) reach.fault
    (by rw [listed]; exact h.claimed.nodup)
    (by
      rw [listed, geo, reach.data]
      exact fun b hb => ⟨(h.block ready sound hb).1, used b hb⟩) code
  rw [listed, geo, reach.data] at released
  refine ⟨cause, geo'.trans geo, ?_, fault, error, rfl, ?_, ?_⟩
  · rw [size, reach.size wholeS, h.size]
  · intro safe
    rw [geo', geo]
    exact (clean safe).release released
  · intro exposed
    obtain ⟨b, free, gone⟩ := leak exposed
    rw [geo', geo]
    exact h.claimed.leak free gone released

theorem Saving.giveBack (h : Saving s₀ name s bs p) {s₁ : D64} {d₁ : Nat → UInt8} (reach : Reaches s d₁ none s₁)
    (claimed : s₀.geo.Claimed s₀.container.data bs d₁) {code : Nat} (error : code ≠ 0) (cause : o ≠ .complete)
    (safe : ¬ o.Exposed) : Failed s₀ (s₁.failWrite code) o :=
  h.fail ready sound reach (fun _ hb => claimed.used hb) code error cause (fun _ => claimed)
    fun exposed => absurd exposed safe

theorem Saving.lose (h : Saving s₀ name s bs p) {s₁ : D64} {d₁ : Nat → UInt8} (reach : Reaches s d₁ none s₁)
    (used : ∀ b ∈ bs, s₀.geo.free d₁ b = false) {code : Nat} (error : code ≠ 0) (exposed : o.Exposed) {b : Block}
    (free : s₀.geo.free s.container.data b = true) (gone : s₀.geo.free d₁ b = false) :
    Failed s₀ (s₁.failWrite code) o := by
  have cause : o ≠ .complete := by
    rintro rfl
    exact exposed
  exact h.fail ready sound reach used code error cause (fun safe => absurd exposed safe) fun _ => ⟨b, free, gone⟩

/- The full block is on the medium and the one claimed for what follows is recorded. -/
theorem Saving.advance (h : Saving s₀ name s bs p) (full : p.length = 254 * bs.length) {b : Block}
    (inside : s₀.geo.Inside b) (free : s₀.geo.free s.container.data b = true) {fault : Option Nat} {s₂ : D64}
    (reach : Reaches s (Store.put (s₀.geo.setFree s.container.data b true)
      (s₀.geo.addr (bs.getD (bs.length - 1) ⟨0, 0⟩)) (UInt8.ofNat b.track :: UInt8.ofNat b.sector :: s.cbuf))
      fault s₂) :
    Saving s₀ name { s₂ with create_allocated := s₂.create_allocated ++ [b], create_block := b, cbuf := [] }
      (bs ++ [b]) p := by
  have positive := List.length_pos_iff.mpr h.nonempty
  have lastMember : bs.getD (bs.length - 1) ⟨0, 0⟩ ∈ bs := getD_mem (by omega)
  obtain ⟨lastInside, lastSystem, _⟩ := h.block ready sound lastMember
  have length : s.cbuf.length = 254 := by
    rw [h.buffer, List.length_drop]
    omega
  have represented := inside.represented ready.valid
  have claimed := (h.claimed.claim ready.valid inside free).write ready.valid lastInside lastSystem
    (h.claimed.fresh _ lastMember) (UInt8.ofNat b.track :: UInt8.ofNat b.sector :: s.cbuf)
    (by simp [length])
  refine ⟨reach.geo.trans h.geo, (reach.size (h.whole ready)).trans h.size, ?_, ?_, ?_, ?_, by simp,
    ?_, ?_, ?_, ?_, ?_, ?_, ?_⟩
  · rw [reach.eq]
    exact h.error
  · rw [reach.eq]
    exact h.filename
  · rw [reach.eq]
    exact h.directory
  · rw [reach.eq]
    exact congrArg (· ++ [b]) h.allocated
  · rw [reach.eq, List.getD_append _ _ _ _ positive]
    exact h.start
  · rw [List.length_append, List.length_singleton, Nat.add_sub_cancel,
      List.getD_append_right _ _ _ _ (Nat.le_refl _), Nat.sub_self]
    rfl
  · rw [reach.data]
    exact claimed
  · intro k hk
    rw [List.length_append, List.length_singleton] at hk
    rw [reach.data, List.getD_append _ _ _ _ (show k < bs.length by omega)]
    by_cases last : k + 1 = bs.length
    · have here : k = bs.length - 1 := by omega
      have all := Store.read_put_same (s₀.geo.setFree s.container.data b true)
        (s₀.geo.addr (bs.getD (bs.length - 1) ⟨0, 0⟩)) (UInt8.ofNat b.track :: UInt8.ofNat b.sector :: s.cbuf)
      rw [List.length_cons, List.length_cons, length] at all
      rw [last, List.getD_append_right _ _ _ _ (Nat.le_refl _), Nat.sub_self, here, all, h.buffer,
        List.take_of_length_le (by rw [List.length_drop]; omega)]
      rfl
    · have member : bs.getD k ⟨0, 0⟩ ∈ bs := getD_mem (by omega)
      obtain ⟨insideK, systemK, _⟩ := h.block ready sound member
      have other : bs.getD k ⟨0, 0⟩ ≠ bs.getD (bs.length - 1) ⟨0, 0⟩ := by
        rw [List.getD_eq_getElem _ _ (by omega), List.getD_eq_getElem _ _ (by omega)]
        intro same
        have := (h.claimed.nodup.getElem_inj_iff).mp same
        omega
      have apart := insideK.apart lastInside other
      rw [List.getD_append _ _ _ _ (show k + 1 < bs.length by omega), ← h.stored k (by omega),
        Store.read_put_disjoint _ _ _ _ _ (by
          rw [List.length_cons, List.length_cons, length]
          omega)]
      apply Store.read_congr
      exact Geometry.block_kept ready.valid insideK systemK
        fun a outside => Geometry.setFree_outside ready.valid represented true outside
  · rw [List.length_append, List.length_singleton, Nat.add_sub_cancel, List.drop_of_length_le (by omega)]
  · rw [List.length_append, List.length_singleton]
    omega
  · rw [List.length_append, List.length_singleton]
    omega

/-- A full block goes out, or the save is given up. -/
theorem Saving.flush (h : Saving s₀ name s bs p) (slot : Option (Block × Nat)) (n : Nat) (full : p.length = 254 * bs.length)
    (fate : Fate (s₀.geo.growPlan slot dirs (n + 1) s.container.data (bs.getD (bs.length - 1) ⟨0, 0⟩))
      s.container.fault o) :
    (∃ s' b, s.flushBlock = (true, s') ∧ Saving s₀ name s' (bs ++ [b]) p ∧ s'.creating = s.creating ∧
      Fate (s₀.geo.growPlan slot dirs n s'.container.data b) s'.container.fault o) ∨
    (∃ s', s.flushBlock = (false, s') ∧ Failed s₀ s' o) := by
  have wholeS := h.whole ready
  have ok : s.geo.BamOk s.container.data := h.geo.symm ▸ h.claimed.bam
  have positive := List.length_pos_iff.mpr h.nonempty
  have lastMember : bs.getD (bs.length - 1) ⟨0, 0⟩ ∈ bs := getD_mem (by omega)
  unfold Geometry.growPlan at fate
  cases found : s₀.geo.pick s.container.data false (bs.getD (bs.length - 1) ⟨0, 0⟩).track
      (bs.getD (bs.length - 1) ⟨0, 0⟩).sector with
  | none =>
    rw [found] at fate
    obtain ⟨steady, rfl⟩ := fate.nil
    obtain ⟨s₁, claim, moved⟩ := claimBlock_none s wholeS.mounted ok false s.create_block.track
      s.create_block.sector (by rw [h.geo, h.current]; exact found)
    right
    refine ⟨s₁.failWrite ST_DISK_FULL, ?_, ?_⟩
    · simp only [flushBlock, claim]
    · exact h.giveBack ready sound (steady ▸ moved) h.claimed (by decide) (by decide) id
  | some b =>
    rw [found] at fate
    dsimp only at fate
    obtain ⟨inside, free⟩ := Geometry.pick_some ready.valid found
    have claims := claimBlock_cases s wholeS.mounted ok false s.create_block.track s.create_block.sector
      (b := b) (by rw [h.geo, h.current]; exact found) (by rw [h.geo]; exact fate)
    rw [h.geo] at claims
    rcases claims with ⟨s₁, fault, claim, reach, fate₁⟩ | ⟨s₁, d₁, claim, reach, refusal⟩
    · obtain ⟨lastInside, lastSystem, _⟩ := h.block ready sound lastMember
      have geo₁ : s₁.geo = s₀.geo := reach.geo.trans h.geo
      have current : s₁.create_block = bs.getD (bs.length - 1) ⟨0, 0⟩ ∧ s₁.cbuf = s.cbuf := by
        rw [reach.eq]
        exact ⟨h.current, rfl⟩
      have length : (UInt8.ofNat b.track :: UInt8.ofNat b.sector :: s.cbuf).length = 256 := by
        rw [List.length_cons, List.length_cons, h.buffer, List.length_drop]
        omega
      have insideAt : s₁.geo.Inside (bs.getD (bs.length - 1) ⟨0, 0⟩) := by rw [geo₁]; exact lastInside
      have mounted₁ := reach.mounted wholeS.mounted
      by_cases refuses : fault = some 0
      · -- the new block is marked and not yet recorded
        obtain ⟨s₂, write, reach₂⟩ := writeBlock_refused s₁ mounted₁.valid _ insideAt _ length
          (reach.fault.trans refuses)
        rw [reach.data] at reach₂
        right
        refine ⟨s₂.failWrite ST_WRITE_VERIFY, ?_, ?_⟩
        · simp only [flushBlock, claim, current, write, Bool.false_eq_true, if_false]
        · have allocated := Geometry.free_allocate (d := s.container.data) ready.valid
            (inside.represented ready.valid)
          obtain rfl := fate₁.refused refuses rfl
          refine h.lose ready sound (reach.trans reach₂) (fun c hc => ?_) (by decide) trivial free
            (by rw [allocated]; simp)
          rw [allocated, h.claimed.used hc, Bool.and_false]
      · obtain ⟨s₂, write, reach₂⟩ := writeBlock_taken s₁ mounted₁ _ insideAt _ length
          (by rw [reach.fault]; exact refuses)
        rw [reach.data, reach.fault, geo₁] at reach₂
        have both := reach.trans reach₂
        left
        refine ⟨_, b, ?_, h.advance ready sound full inside free both, ?_, ?_⟩
        · simp only [flushBlock, claim, current, write, if_true]
        · rw [both.eq]
        · have agree := Geometry.put_agree (d := s₀.geo.setFree s.container.data b true) ready.valid
            lastInside lastSystem 0 _ (Nat.le_of_eq (by rw [Nat.zero_add, length]))
          rw [Nat.add_zero] at agree
          have free₂ : ∀ c, s₀.geo.free s₂.container.data c =
              s₀.geo.free (s₀.geo.setFree s.container.data b true) c := by
            intro c
            rw [both.data, Geometry.free_agree ready.valid agree]
          have same := Geometry.growPlan_congr ready.valid free₂ slot dirs n b
          dsimp only
          rw [same, both.fault]
          exact fate₁.next rfl refuses
    · right
      refine ⟨s₁.failWrite ST_DISK_FULL, ?_, ?_⟩
      · simp only [flushBlock, claim]
      · rcases refusal with ⟨rfl, rfl⟩ | ⟨rfl, rfl⟩
        · exact h.giveBack ready sound reach h.claimed (by decide) (by decide) id
        · have marked := Geometry.free_mark (d := s.container.data) ready.valid (inside.represented ready.valid)
          refine h.lose ready sound reach (fun c hc => ?_) (by decide) trivial free (by rw [marked]; simp)
          rw [marked, h.claimed.used hc, Bool.and_false]

omit ready sound in
/- Bytes that fit the current block. -/
theorem Saving.append (h : Saving s₀ name s bs p) (more : Str) (fits : p.length + more.length ≤ 254 * bs.length) :
    Saving s₀ name { s with cbuf := s.cbuf ++ more } bs (p ++ more) where
  geo := h.geo
  size := h.size
  error := h.error
  filename := h.filename
  directory := h.directory
  allocated := h.allocated
  nonempty := h.nonempty
  start := h.start
  current := h.current
  claimed := h.claimed
  stored k hk := by
    have long := h.long
    rw [h.stored k hk, List.drop_append_of_le_length (by omega),
      List.take_append_of_le_length (by rw [List.length_drop]; omega)]
  buffer := by
    rw [List.drop_append_of_le_length h.long]
    exact congrArg (· ++ more) h.buffer
  long := by
    rw [List.length_append]
    exact Nat.le_add_right_of_le h.long
  short := by
    rw [List.length_append]
    exact fits

end saving

/- Blocks a file of `n` bytes takes; an empty file takes one. -/
def blocksFor (n : Nat) : Nat := max 1 ((n + 253) / 254)

/-- A save of `total` blocks that has been handed `p`: still going, with `o` to come of
it, or given up. -/
def Progress (s₀ : D64) (name : Str) (dirs : List Block) (slot : Option (Block × Nat)) (total : Nat) (o : Outcome)
    (s : D64) (p : Str) : Prop :=
  (∃ bs, Saving s₀ name s bs p ∧ s.creating = true ∧ bs.length = blocksFor p.length ∧
    Fate (s₀.geo.growPlan slot dirs (total - bs.length) s.container.data (bs.getD (bs.length - 1) ⟨0, 0⟩))
      s.container.fault o) ∨
  Failed s₀ s o

section progress

variable {s₀ s : D64} {dirs : List Block} {chain : Nat → List Block} {name p : Str} {o : Outcome}
variable {slot : Option (Block × Nat)} {total : Nat}
variable (ready : Whole s₀) (sound : Sound s₀.geo s₀.container.data dirs chain)
include ready sound

/-- The loop of `writeFileNew` takes in all bytes, or gives up on the way. -/
theorem Progress.loop (fuel : Nat) (rest : Str) (enough : rest.length ≤ fuel)
    (room : blocksFor (p.length + rest.length) ≤ total) {bs : List Block} (saving : Saving s₀ name s bs p)
    (creating : s.creating = true) (count : bs.length = blocksFor p.length)
    (fate : Fate (s₀.geo.growPlan slot dirs (total - bs.length) s.container.data
      (bs.getD (bs.length - 1) ⟨0, 0⟩)) s.container.fault o) :
    Progress s₀ name dirs slot total o (writeFileNewLoop fuel rest s) (p ++ rest) := by
  induction fuel generalizing s p rest bs with
  | zero =>
    have empty : rest = [] := List.length_eq_zero_iff.mp (by omega)
    rw [empty, List.append_nil]
    exact .inl ⟨bs, saving, creating, count, fate⟩
  | succ fuel ih =>
    unfold writeFileNewLoop
    by_cases empty : rest = []
    · rw [if_pos empty, empty, List.append_nil]
      exact .inl ⟨bs, saving, creating, count, fate⟩
    · rw [if_neg empty]
      have positive := List.length_pos_iff.mpr empty
      have held : s.cbuf.length = p.length - 254 * (bs.length - 1) := by rw [saving.buffer, List.length_drop]
      have some := List.length_pos_iff.mpr saving.nonempty
      have long := saving.long
      have short := saving.short
      -- once the current block has room, the bytes that fit it are taken in
      have step : ∀ (s' : D64) (cs : List Block), Saving s₀ name s' cs p → s'.creating = true → 254 * (cs.length - 1) ≤ p.length →
          p.length < 254 * cs.length → cs ≠ [] → cs.length ≤ total →
          Fate (s₀.geo.growPlan slot dirs (total - cs.length) s'.container.data
            (cs.getD (cs.length - 1) ⟨0, 0⟩)) s'.container.fault o →
          Progress s₀ name dirs slot total o
            (writeFileNewLoop fuel (rest.drop (min rest.length (block_size - 2 - s'.cbuf.length)))
              { s' with cbuf := s'.cbuf ++ rest.take (min rest.length (block_size - 2 - s'.cbuf.length)) })
            (p ++ rest) := by
        intro s' cs saving' creating' low high nonempty _ fate'
        have positive' := List.length_pos_iff.mpr nonempty
        have length : s'.cbuf.length = p.length - 254 * (cs.length - 1) := by
          rw [saving'.buffer, List.length_drop]
        generalize size : min rest.length (block_size - 2 - s'.cbuf.length) = n
        have bounds : 0 < n ∧ n ≤ rest.length ∧ p.length + n ≤ 254 * cs.length := by
          unfold block_size at size
          omega
        have taken : (rest.take n).length = n := by
          rw [List.length_take]
          omega
        have grown := saving'.append (rest.take n) (by rw [taken]; exact bounds.2.2)
        have result := ih (p := p ++ rest.take n) (rest.drop n) (by rw [List.length_drop]; omega)
          (by
            rw [List.length_append, taken, List.length_drop, show p.length + n + (rest.length - n) =
              p.length + rest.length by omega]
            exact room)
          grown creating'
          (by
            rw [List.length_append, taken]
            unfold blocksFor
            omega)
          fate'
        rwa [List.append_assoc, List.take_append_drop] at result
      by_cases full : s.cbuf.length = block_size - 2
      · rw [if_pos full]
        unfold block_size at full
        have all : p.length = 254 * bs.length := by omega
        have next : total - bs.length = (total - (bs.length + 1)) + 1 := by
          unfold blocksFor at room count
          omega
        rw [next] at fate
        rcases saving.flush ready sound slot _ all fate with
          ⟨s', b, run, saving', still, fate'⟩ | ⟨s', run, failed⟩
        · rw [run, if_pos rfl]
          have last : (bs ++ [b]).getD ((bs ++ [b]).length - 1) ⟨0, 0⟩ = b := by
            rw [List.length_append, List.length_singleton, Nat.add_sub_cancel,
              List.getD_append_right _ _ _ _ (Nat.le_refl _), Nat.sub_self]
            rfl
          have length : (bs ++ [b]).length = bs.length + 1 := by simp
          refine step s' (bs ++ [b]) saving' (still.trans creating) (by omega) (by omega) (by simp) (by omega) ?_
          rw [last, length]
          exact fate'
        · rw [run]
          exact .inr failed
      · rw [if_neg full, if_pos rfl]
        unfold block_size at full
        refine step s bs saving creating long (by omega) saving.nonempty ?_ fate
        unfold blocksFor at room count
        omega

/-- One `write` call. -/
theorem Progress.write (h : Progress s₀ name dirs slot total o s p) (buf : Str)
    (room : blocksFor (p.length + buf.length) ≤ total) :
    Progress s₀ name dirs slot total o (s.write buf) (p ++ buf) := by
  have still : ∀ s', Progress s₀ name dirs slot total o s' (p ++ buf) →
      Progress s₀ name dirs slot total o { s' with position := s'.position + buf.length } (p ++ buf) := by
    rintro s' (⟨bs, saving, creating, count, fate⟩ | failed)
    · exact .inl ⟨bs, ⟨saving.geo, saving.size, saving.error, saving.filename, saving.directory,
        saving.allocated, saving.nonempty, saving.start, saving.current, saving.claimed, saving.stored,
        saving.buffer, saving.long, saving.short⟩, creating, count, fate⟩
    · exact .inr ⟨failed.cause, failed.geo, failed.size, failed.steady, failed.error, failed.creating, failed.clean,
        failed.leaks⟩
  apply still
  unfold writeFileNew
  rcases h with ⟨bs, saving, creating, count, fate⟩ | failed
  · rw [if_neg (by rw [saving.error]; decide)]
    exact Progress.loop ready sound buf.length buf (Nat.le_refl _) room saving creating count fate
  · rw [if_pos failed.error]
    exact .inr failed

/-- All `write` calls of a save, however the bytes are split over them. -/
theorem Progress.writes (h : Progress s₀ name dirs slot total o s p) (chunks : List Str)
    (room : blocksFor (p.length + chunks.flatten.length) ≤ total) :
    Progress s₀ name dirs slot total o (chunks.foldl D64.write s) (p ++ chunks.flatten) := by
  induction chunks generalizing s p with
  | nil =>
    rw [List.flatten_nil, List.append_nil]
    exact h
  | cons buf chunks ih =>
    rw [List.flatten_cons, List.length_append] at room
    have first := h.write ready sound buf (by
      unfold blocksFor at room ⊢
      omega)
    have rest := ih first (by
      rw [List.length_append, Nat.add_assoc]
      exact room)
    rw [List.append_assoc] at rest
    exact rest

/-- The first block of a save. -/
theorem beginFileWrite_progress (steady : s₀.error = 0 ∧ s₀.creating = false)
    (fate : Fate (s₀.geo.savePlan s₀.container.data dirs total) s₀.container.fault o) (name : Str) :
    ∃ s', s₀.beginFileWrite name = (true, s') ∧
      Progress s₀ name dirs (s₀.geo.vacantSlot s₀.container.data dirs) total o s' [] := by
  have mounted := ready.mounted
  unfold Geometry.savePlan at fate
  -- giving up before there is anything to roll back
  have giveUp : ∀ s₁ d₁, Reaches s₀ d₁ none s₁ → o ≠ .complete →
      (¬ o.Exposed → s₀.geo.Clean s₀.container.data d₁) → (o.Exposed → s₀.geo.Leaks s₀.container.data d₁) →
      Failed s₀ { s₁ with error := ST_DISK_FULL } o := by
    intro s₁ d₁ reach cause clean leak
    refine ⟨cause, reach.geo, reach.size ready, reach.fault, show ST_DISK_FULL ≠ 0 by decide, ?_, ?_, ?_⟩
    · rw [reach.eq]
      exact steady.2
    · intro safe
      dsimp only
      rw [reach.geo, reach.data]
      exact clean safe
    · intro exposed
      dsimp only
      rw [reach.geo, reach.data]
      exact leak exposed
  cases found : s₀.geo.pick s₀.container.data false 0 0 with
  | none =>
    rw [found] at fate
    obtain ⟨none, rfl⟩ := fate.nil
    obtain ⟨s₁, claim, moved⟩ := claimBlock_none s₀ mounted sound.bam false 0 0 found
    refine ⟨{ s₁ with error := ST_DISK_FULL }, ?_, .inr ?_⟩
    · simp only [beginFileWrite, claim]
    · exact giveUp s₁ _ (none ▸ moved) (by decide) (fun _ => .refl sound.bam) (fun exposed => absurd exposed id)
  | some b =>
    rw [found] at fate
    dsimp only at fate
    obtain ⟨inside, free⟩ := Geometry.pick_some ready.valid found
    have represented := inside.represented ready.valid
    rcases claimBlock_cases s₀ mounted sound.bam false 0 0 found fate with
      ⟨s₁, fault, claim, reach, fate₁⟩ | ⟨s₁, d₁, claim, reach, refusal⟩
    · refine ⟨{ s₁ with creating := true, create_filename := name, create_allocated := [b],
                        create_start := b, create_block := b, cbuf := [], size := 0, position := 0 }, ?_, .inl ?_⟩
      · simp only [beginFileWrite, claim]
      · refine ⟨[b], ⟨reach.geo, reach.size ready, ?_, rfl, ?_, rfl, by simp, rfl, rfl, ?_, ?_, rfl,
          Nat.le_refl _, by simp⟩, rfl, rfl, ?_⟩
        · rw [reach.eq]
          exact steady.1
        · rw [reach.eq]
          exact ⟨rfl, rfl⟩
        · rw [reach.data]
          exact (Geometry.Claimed.refl sound.bam).claim ready.valid inside free
        · intro k hk
          simp at hk
        · dsimp only
          rw [reach.data, reach.fault]
          exact fate₁
    · refine ⟨{ s₁ with error := ST_DISK_FULL }, ?_, .inr ?_⟩
      · simp only [beginFileWrite, claim]
      · rcases refusal with ⟨rfl, rfl⟩ | ⟨rfl, rfl⟩
        · exact giveUp s₁ _ reach (by decide) (fun _ => .refl sound.bam) (fun exposed => absurd exposed id)
        · refine giveUp s₁ _ reach (by decide) (fun safe => absurd trivial safe) ?_
          intro _
          refine ⟨b, free, ?_⟩
          rw [Geometry.free_mark ready.valid represented]
          simp

end progress

end D64

end Meatloaf.Disk
