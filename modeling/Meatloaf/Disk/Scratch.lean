import Meatloaf.Disk.Lookup

/-! Scratch and unscratch: chains of blocks given back and taken again, and the
type byte of a directory entry. -/
namespace Meatloaf.Disk

open Lib

namespace Geometry

variable (g : Geometry)

/-- `d'` is `d` with the blocks of `l` released and nothing else changed. -/
structure Released (d : Nat → UInt8) (l : List Block) (d' : Nat → UInt8) : Prop where
  bam : g.BamOk d → g.BamOk d'
  free : ∀ c, g.free d' c = (g.free d c || decide (c ∈ l))
  rest : ∀ a, ¬ g.BamArea a → d' a = d a

/-- `d'` is `d` with the blocks of `l` allocated and nothing else changed. -/
structure Allocated (d : Nat → UInt8) (l : List Block) (d' : Nat → UInt8) : Prop where
  bam : g.BamOk d → g.BamOk d'
  free : ∀ c, g.free d' c = (g.free d c && decide (c ∉ l))
  rest : ∀ a, ¬ g.BamArea a → d' a = d a

variable {g} {d d' d'' : Nat → UInt8}

theorem Released.refl (d : Nat → UInt8) : g.Released d [] d := ⟨id, by simp, fun _ _ => rfl⟩

theorem Released.cons (v : g.Valid) {b : Block} {l : List Block} (inside : g.Inside b)
    (used : g.free d b = false) (h : g.Released (g.setFree d b false) l d') : g.Released d (b :: l) d' where
  bam ok := h.bam (ok.release v inside used)
  free c := by
    rw [h.free, free_release v (inside.represented v)]
    by_cases same : c = b <;> simp [same]
  rest a outside := by rw [h.rest a outside, setFree_outside v (inside.represented v) false outside]

theorem Allocated.refl (d : Nat → UInt8) : g.Allocated d [] d := ⟨id, by simp, fun _ _ => rfl⟩

theorem Allocated.cons (v : g.Valid) {b : Block} {l : List Block} (free : g.free d b = true)
    (h : g.Allocated (g.setFree d b true) l d') : g.Allocated d (b :: l) d' where
  bam ok := by
    have range := (Represented.of_free free).track v
    refine h.bam (ok.allocate v ⟨range.1, range.2, Nat.lt_of_not_le fun beyond => ?_⟩ free)
    rw [ok.spare b.track b.sector beyond] at free
    exact Bool.false_ne_true free
  free c := by
    rw [h.free, free_allocate v (Represented.of_free free)]
    by_cases same : c = b <;> simp [same]
  rest a outside := by
    rw [h.rest a outside, setFree_outside v (Represented.of_free free) true outside]

/- A block that holds no part of the BAM keeps its bytes when only the BAM changes. -/
theorem block_kept (v : g.Valid) {b : Block} (inside : g.Inside b) (system : ¬ g.System b)
    (rest : ∀ a, ¬ g.BamArea a → d' a = d a) (i : Nat) (hi : i < 256) :
    d' (g.addr b + i) = d (g.addr b + i) := rest _ (v.bamArea_outside inside system hi)

theorem link_kept (v : g.Valid) {b : Block} (inside : g.Inside b) (system : ¬ g.System b)
    (rest : ∀ a, ¬ g.BamArea a → d' a = d a) : g.link d' b = g.link d b :=
  link_congr (block_kept v inside system rest)

end Geometry

namespace D64

/- Blocks given back one after the other, as a rollback does it. -/
theorem foldl_deallocate (s : D64) (m : Mounted s) (steady : s.container.fault = none) (l : List Block)
    (nodup : l.Nodup) (used : ∀ b ∈ l, s.geo.Inside b ∧ s.geo.free s.container.data b = false) :
    ∃ d', s.geo.Released s.container.data l d' ∧
      Reaches s d' none (l.foldl (fun s b => (s.deallocateBlock b).2) s) := by
  induction l generalizing s with
  | nil => exact ⟨_, .refl _, .still s steady⟩
  | cons b l ih =>
    obtain ⟨fresh, nodup⟩ := List.nodup_cons.mp nodup
    obtain ⟨inside, allocated⟩ := used b List.mem_cons_self
    have represented := inside.represented m.valid
    obtain ⟨s₁, run, reach⟩ := deallocateBlock_used s m b represented allocated steady
    obtain ⟨d', released, reach'⟩ := ih s₁ (reach.mounted m) reach.fault nodup (by
      intro c hc
      obtain ⟨insideC, allocatedC⟩ := used c (List.mem_cons_of_mem _ hc)
      have other : c ≠ b := fun same => fresh (same ▸ hc)
      rw [reach.geo, reach.data, Geometry.free_release m.valid represented]
      exact ⟨insideC, by simp [other, allocatedC]⟩)
    rw [reach.geo, reach.data] at released
    refine ⟨d', .cons m.valid inside allocated released, ?_⟩
    rw [List.foldl_cons, run]
    exact reach.trans reach'

/- The chain of a file given back link by link. -/
theorem freeChain_chain (s : D64) (w : Whole s) (steady : s.container.fault = none) (l : List Block)
    (b : Block) (chain : s.geo.ChainAt s.container.data b l) (n : Nat) (enough : l.length ≤ n)
    (used : ∀ c ∈ l, s.geo.Inside c ∧ s.geo.free s.container.data c = false ∧ ¬ s.geo.System c) :
    ∃ d', s.geo.Released s.container.data l d' ∧ Reaches s d' none (freeChain n b s) := by
  induction l generalizing s b n with
  | nil =>
    have ends : b.track = 0 := by
      cases chain
      assumption
    refine ⟨_, .refl _, ?_⟩
    have stays : freeChain n b s = s := by
      cases n with
      | zero => rfl
      | succ n => rw [freeChain, if_pos ends]
    rw [stays]
    exact .still s steady
  | cons c l ih =>
    obtain rfl := chain.head
    have nodup := List.nodup_cons.mp chain.nodup
    obtain ⟨runs, rest⟩ : ¬ Ends c ∧ s.geo.ChainAt s.container.data (s.geo.link s.container.data c) l := by
      cases chain with
      | step runs rest => exact ⟨runs, rest⟩
    obtain ⟨inside, allocated, system⟩ := used c List.mem_cons_self
    have represented := inside.represented w.valid
    obtain ⟨n, rfl⟩ : ∃ k, n = k + 1 := ⟨n - 1, by rw [List.length_cons] at enough; omega⟩
    have read := readLink_inside s w c inside
    have moved := at_moved s (s.geo.addr c + 2) c.track c.sector
    obtain ⟨s₁, run, reach⟩ := deallocateBlock_used (s.at_ (s.geo.addr c + 2) c.track c.sector)
      (moved.mounted w.mounted) c represented allocated steady
    have reach : Reaches s (s.geo.setFree s.container.data c false) none s₁ := moved.trans reach
    have outside : ∀ a, ¬ s.geo.BamArea a → s.geo.setFree s.container.data c false a =
        s.container.data a := fun a off => Geometry.setFree_outside w.valid represented false off
    obtain ⟨d', released, reach'⟩ := ih s₁ (reach.whole w) reach.fault (s.geo.link s.container.data c)
      (by
        rw [reach.geo, reach.data]
        refine rest.congr fun x hx => ?_
        obtain ⟨insideX, _, systemX⟩ := used x (List.mem_cons_of_mem _ hx)
        exact Geometry.link_kept w.valid insideX systemX outside)
      n (by rw [List.length_cons] at enough; omega)
      (by
        intro x hx
        obtain ⟨insideX, allocatedX, systemX⟩ := used x (List.mem_cons_of_mem _ hx)
        have other : x ≠ c := fun same => nodup.1 (same ▸ hx)
        rw [reach.geo, reach.data]
        refine ⟨insideX, ?_, systemX⟩
        rw [Geometry.free_release w.valid represented]
        simp [other, allocatedX])
    rw [reach.geo, reach.data] at released
    refine ⟨d', .cons w.valid inside allocated released, ?_⟩
    have unfolded : freeChain (n + 1) c s = freeChain n (s.geo.link s.container.data c) s₁ := by
      rw [freeChain, if_neg (show ¬ c.track = 0 from runs), read]
      simp only [run]
      rfl
    rw [unfolded]
    exact reach.trans reach'

theorem setEntryType_within (s : D64) (steady : s.container.fault = none) (dir : Block) {n : Nat}
    (found : s.geo.linearBlock dir.track dir.sector = some n)
    (fits : s.geo.addr dir + 256 ≤ s.container.size) (slot : Nat) (hslot : slot < 8) (type : UInt8) :
    ∃ s', s.setEntryType dir slot type = (true, s') ∧
      Reaches s (Function.update s.container.data (s.geo.addr dir + (slot * 32 + 2)) type) none s' := by
  have read := readBlock_within s dir found fits
  have moved := at_moved s (s.geo.addr dir + 256) dir.track dir.sector
  obtain ⟨s', write, reach⟩ := writeBlock_within (s.at_ (s.geo.addr dir + 256) dir.track dir.sector)
    dir found fits ((Store.read s.container.data (s.geo.addr dir) 256).set (slot * 32 + 2) type) (by simp)
    (by rw [moved.fault, steady])
  refine ⟨s', ?_, ?_⟩
  · simp only [setEntryType, read, Store.length_read, write]
    rfl
  · rw [moved.data, moved.geo, Store.put_set _ _ _ _ _ (by omega)] at reach
    exact moved.trans reach

theorem setEntryType_inside (s : D64) (w : Whole s) (steady : s.container.fault = none) (dir : Block)
    (inside : s.geo.Inside dir) (slot : Nat) (hslot : slot < 8) (type : UInt8) :
    ∃ s', s.setEntryType dir slot type = (true, s') ∧
      Reaches s (Function.update s.container.data (s.geo.addr dir + (slot * 32 + 2)) type) none s' :=
  setEntryType_within s steady dir (inside.linearBlock w.valid) (Nat.le_trans inside.addr_end w.size)
    slot hslot type

end D64

namespace Sound

variable {g : Geometry} {d d' : Nat → UInt8} {dirs : List Block} {chain : Nat → List Block}

/- The BAM has changed from `d` to `d'`, and then the type byte of a slot. The chains
are as they were, and so are the other slots. -/
theorem retype (h : Sound g d dirs chain) (v : g.Valid) {i : Nat} (slot : i < 8 * dirs.length)
    (rest : ∀ a, ¬ g.BamArea a → d' a = d a) (type : UInt8) :
    (∀ a, g.BamArea a → Function.update d' (g.slotAddr dirs i + 2) type a = d' a) ∧
    (∀ b, g.Inside b → ¬ g.System b →
      g.link (Function.update d' (g.slotAddr dirs i + 2) type) b = g.link d b) ∧
    (∀ j < 8 * dirs.length, j ≠ i →
      g.entryOf (Function.update d' (g.slotAddr dirs i + 2) type) dirs j = g.entryOf d dirs j) ∧
    g.entryOf (Function.update d' (g.slotAddr dirs i + 2) type) dirs i = (g.entryOf d dirs i).set 2 type := by
  have dir := h.taken _ (.inl (Geometry.slot_mem slot))
  have place : g.slotAddr dirs i + 2 = g.addr (dirs.getD (i / 8) ⟨0, 0⟩) + (32 * (i % 8) + 2) := by
    unfold Geometry.slotAddr
    omega
  have entries : ∀ j < 8 * dirs.length, g.entryOf d' dirs j = g.entryOf d dirs j := by
    intro j hj
    obtain ⟨inside, _, system⟩ := h.taken _ (.inl (Geometry.slot_mem hj))
    exact Geometry.entry_congr (Geometry.block_kept v inside system rest)
  refine ⟨?_, ?_, ?_, ?_⟩
  · intro a area
    refine Function.update_of_ne (fun hit => ?_) _ _
    rw [place] at hit
    exact v.bamArea_outside dir.1 dir.2.2 (by omega) (hit ▸ area)
  · intro b inside system
    have apart : ∀ k < 2, g.addr b + k ≠ g.slotAddr dirs i + 2 := by
      intro k hk
      rw [place]
      by_cases same : b = dirs.getD (i / 8) ⟨0, 0⟩
      · rw [same]
        omega
      · rcases inside.apart dir.1 same with lo | hi <;> omega
    rw [← Geometry.link_kept v inside system rest]
    unfold Geometry.link
    rw [Function.update_of_ne (by simpa using apart 0 (by omega)), Function.update_of_ne (apart 1 (by omega))]
  · intro j hj other
    rw [← entries j hj]
    apply Store.read_update_outside
    have := Geometry.slot_apart h.directory.nodup h.dirs_inside slot hj (Ne.symm other)
    omega
  · rw [← entries i slot]
    exact Store.read_update_inside d' _ 32 2 type

end Sound

namespace D64

variable {s : D64} {dirs : List Block} {chain : Nat → List Block}

/-- `scratchEntry` on a file of the root directory gives its blocks back and
clears its type. -/
theorem scratchEntry_root (w : Whole s) (steady : s.container.fault = none)
    (h : Sound s.geo s.container.data dirs chain) {i : Nat} (live : s.geo.LiveAt s.container.data dirs i)
    (bounded : (chain i).length ≤ 10000) :
    ∃ s' d', (s.onEntry dirs i).scratchEntry = (true, s') ∧
      s.geo.Released s.container.data (chain i) d' ∧
      Reaches (s.onEntry dirs i) (Function.update d' (s.geo.slotAddr dirs i + 2) 0) none s' := by
  have looks := onEntry_looks s dirs i
  have used : ∀ c ∈ chain i, s.geo.Inside c ∧ s.geo.free s.container.data c = false ∧ ¬ s.geo.System c :=
    fun c hc => h.taken c (.inr ⟨i, hc⟩)
  obtain ⟨d', released, reach⟩ := freeChain_chain (s.onEntry dirs i) (looks.whole w) steady (chain i)
    (startBlock (s.geo.entryOf s.container.data dirs i)) (h.file i live) 10000 bounded used
  have dir := h.taken _ (.inl (Geometry.slot_mem live.1))
  obtain ⟨s', run, reach'⟩ := setEntryType_inside _ (reach.whole (looks.whole w)) reach.fault
    (dirs.getD (i / 8) ⟨0, 0⟩) (by rw [reach.geo]; exact dir.1) (i % 8) (Nat.mod_lt _ (by decide)) 0x00
  refine ⟨s', d', run, released, ?_⟩
  rw [reach.geo, reach.data] at reach'
  have place : s.geo.slotAddr dirs i + 2 =
      s.geo.addr (dirs.getD (i / 8) ⟨0, 0⟩) + (i % 8 * 32 + 2) := by
    unfold Geometry.slotAddr
    omega
  rw [place]
  exact reach.trans reach'

end D64

namespace Sound

variable {g : Geometry} {d d' : Nat → UInt8} {dirs : List Block} {chain : Nat → List Block}

theorem scratch (h : Sound g d dirs chain) (v : g.Valid) {i : Nat} (live : g.LiveAt d dirs i)
    (released : g.Released d (chain i) d') :
    Sound g (Function.update d' (g.slotAddr dirs i + 2) 0) dirs (Function.update chain i []) := by
  obtain ⟨area, links, others, same⟩ := h.retype v live.1 released.rest 0
  refine h.remove ((released.bam h.bam).agree v area) ?_ ?_ others ?_
  · intro b
    rw [Geometry.free_agree v area, released.free]
  · intro b used
    obtain ⟨inside, _, system⟩ := h.taken b used
    exact links b inside system
  · rw [same]
    simp [fileType, Geometry.entryOf]

end Sound

namespace D64

section any_image

variable (s : D64) (m : Mounted s)

/- A link that can be read is the one on the medium. -/
theorem readLink_any (b : Block) :
    ∃ r s', s.readLink b = (r, s') ∧ Moved s s' ∧ ∀ x, r = some x → x = s.geo.link s.container.data b := by
  cases found : s.geo.linearBlock b.track b.sector with
  | none =>
    refine ⟨none, s, ?_, .refl s, by simp⟩
    simp only [readLink, seekSector, found, Bool.false_eq_true, if_false]
  | some n =>
    have seek := seekSector_some s b found 0
    have moved : Moved s ((s.at_ (s.geo.addr b + 0) b.track b.sector).readContainer 2).2 :=
      ⟨Nat.le_refl _, Nat.le_max_left _ _, fun _ _ => rfl, rfl⟩
    refine ⟨_, _, by simp only [readLink, seek, if_true]; rfl, moved, ?_⟩
    intro x read
    split at read
    · rename_i full
      obtain rfl := Option.some.inj read
      have fits : s.geo.addr b + 0 + 2 ≤ s.container.size := by
        simp only [readContainer, Container.read, Store.length_read, at_, Container.seek] at full
        omega
      rw [readContainer_full (s.at_ (s.geo.addr b + 0) b.track b.sector) 2 fits]
      simp only [at_, Container.seek, Nat.add_zero, Geometry.link]
      rfl
    · contradiction

include m

/-- Pass 1 changes nothing, and what it accepts is a chain of free blocks that
ends. -/
theorem collectChain_any (n : Nat) (b : Block) :
    ∃ r s', collectChain n b s = (r, s') ∧ Moved s s' ∧ ∀ l, r = some l →
      s.geo.ChainAt s.container.data b l ∧ l.length ≤ n ∧ ∀ c ∈ l, s.geo.free s.container.data c = true := by
  induction n generalizing s b with
  | zero =>
    unfold collectChain
    split
    · rename_i ends
      refine ⟨_, _, rfl, .refl s, ?_⟩
      intro l found
      obtain rfl := Option.some.inj found
      exact ⟨.done ends, Nat.le_refl _, by simp⟩
    · exact ⟨_, _, rfl, .refl s, by simp⟩
  | succ n ih =>
    unfold collectChain
    split
    · rename_i ends
      refine ⟨_, _, rfl, .refl s, ?_⟩
      intro l found
      obtain rfl := Option.some.inj found
      exact ⟨.done ends, Nat.zero_le _, by simp⟩
    · rename_i runs
      obtain ⟨s₁, query, moved⟩ := queryBlockAllocation_eq s m b
      rw [query]
      split
      · rename_i s₁' result
        obtain ⟨rep, rfl⟩ := Prod.mk.inj result
        have free : s.geo.free s.container.data b = true := by
          split at rep
          · simpa using rep
          · contradiction
        obtain ⟨r, s₂, link, moved₂, exact⟩ := readLink_any s₁ b
        rw [link]
        cases r with
        | none => exact ⟨_, _, rfl, moved.step moved₂, by simp⟩
        | some next =>
          obtain ⟨r, s₃, rest, moved₃, accepted⟩ := ih s₂ ((moved.step moved₂).mounted m) next
          have moved₂' := moved.step moved₂
          rw [moved₂'.geo, moved₂'.data] at accepted
          have target := exact next rfl
          rw [moved.geo, moved.data] at target
          simp only [rest]
          refine ⟨_, _, rfl, moved₂'.step moved₃, ?_⟩
          intro l found
          obtain ⟨l', here, rfl⟩ := Option.map_eq_some_iff.mp found
          obtain ⟨chain, short, all⟩ := accepted l' here
          refine ⟨.step runs (target ▸ chain), Nat.succ_le_succ short, ?_⟩
          intro c member
          rcases List.mem_cons.mp member with rfl | member
          · exact free
          · exact all c member
      · rename_i s₁' _ result
        obtain ⟨_, rfl⟩ := Prod.mk.inj result
        exact ⟨_, _, rfl, moved, by simp⟩

/-- Pass 2 cannot fail half way: different free blocks can all be allocated. -/
theorem allocateChain_free (steady : s.container.fault = none) (l : List Block) (nodup : l.Nodup)
    (free : ∀ b ∈ l, s.geo.free s.container.data b = true) :
    ∃ s' d', allocateChain l s = (true, s') ∧ s.geo.Allocated s.container.data l d' ∧ Reaches s d' none s' := by
  induction l generalizing s with
  | nil => exact ⟨s, _, rfl, .refl _, .still s steady⟩
  | cons b l ih =>
    obtain ⟨fresh, nodup⟩ := List.nodup_cons.mp nodup
    have first := free b List.mem_cons_self
    obtain ⟨s₁, run, reach⟩ := allocateBlock_taken s m b first (by intro k _; rw [steady]; simp)
    rw [steady] at reach
    have represented := Geometry.Represented.of_free first
    obtain ⟨s₂, d', run₂, allocated, reach₂⟩ := ih s₁ (reach.mounted m) reach.fault nodup (by
      intro c hc
      have other : c ≠ b := fun same => fresh (same ▸ hc)
      rw [reach.geo, reach.data, Geometry.free_allocate m.valid represented]
      simp [other, free c (List.mem_cons_of_mem _ hc)])
    rw [reach.geo, reach.data] at allocated
    refine ⟨s₂, d', ?_, .cons m.valid first allocated, reach.trans reach₂⟩
    rw [allocateChain, run]
    exact run₂

/- The limit pass 1 puts on the length of the chain. -/
def chainLimit (e : List UInt8) : Nat := if entryBlocks e ≠ 0 then entryBlocks e + 2 else 10000

/-- `unscratchEntry` on any image: it takes a whole chain of free blocks back, or
it changes nothing. -/
theorem unscratchEntry_any (steady : s.container.fault = none) {n : Nat}
    (found : s.geo.linearBlock s.track s.sector = some n)
    (fits : s.geo.addr ⟨s.track, s.sector⟩ + 256 ≤ s.container.size) :
    ∃ r s', s.unscratchEntry = (r, s') ∧
      (r = false → Reaches s s.container.data none s' ∧
        ∀ l, (collectChain (chainLimit s.entry) (startBlock s.entry) s).1 = some l → l = []) ∧
      (r = true → ∃ l d', s.geo.ChainAt s.container.data (startBlock s.entry) l ∧ l ≠ [] ∧
        l.length ≤ chainLimit s.entry ∧ (∀ c ∈ l, s.geo.free s.container.data c = true) ∧
        s.geo.Allocated s.container.data l d' ∧
        Reaches s (Function.update d' (s.geo.addr ⟨s.track, s.sector⟩ +
          ((s.entry_index - 1) % 8 * 32 + 2)) 0x82) none s') := by
  obtain ⟨r, s₁, collect, moved, accepted⟩ := collectChain_any s m (chainLimit s.entry) (startBlock s.entry)
  have still : Reaches s s.container.data none s₁ := by
    have h := moved
    unfold Moved at h
    rwa [steady] at h
  rw [collect]
  unfold chainLimit at collect
  cases r with
  | none =>
    refine ⟨false, s₁, ?_, fun _ => ⟨still, by simp⟩, by simp⟩
    simp only [unscratchEntry, collect]
  | some l =>
    obtain ⟨chain, short, free⟩ := accepted l rfl
    by_cases empty : l = []
    · refine ⟨false, s₁, ?_, fun _ => ⟨still, by simp [empty]⟩, by simp⟩
      simp only [unscratchEntry, collect, if_pos empty]
    · obtain ⟨s₂, d', run, allocated, reach⟩ := allocateChain_free s₁ (moved.mounted m) still.fault l
        chain.nodup (by rw [moved.geo, moved.data]; exact free)
      rw [moved.geo, moved.data] at allocated
      have reach := moved.trans reach
      obtain ⟨s₃, type, reach₃⟩ := setEntryType_within s₂ reach.fault ⟨s.track, s.sector⟩
        (by rw [reach.geo]; exact found) (by rw [reach.geo]; exact Nat.le_trans fits reach.grows)
        ((s.entry_index - 1) % 8) (Nat.mod_lt _ (by decide)) 0x82
      rw [reach.geo, reach.data] at reach₃
      refine ⟨true, s₃, ?_, by simp, fun _ => ⟨l, d', chain, empty, short, free, allocated,
        reach.trans reach₃⟩⟩
      simp only [unscratchEntry, collect, if_neg empty, run, if_true, type]

omit m in
/-- Pass 1 accepts a chain of free blocks that is not too long. -/
theorem collectChain_chain (w : Whole s) (l : List Block) (b : Block)
    (chain : s.geo.ChainAt s.container.data b l) (n : Nat) (enough : l.length ≤ n)
    (free : ∀ c ∈ l, s.geo.Inside c ∧ s.geo.free s.container.data c = true) :
    (collectChain n b s).1 = some l := by
  induction l generalizing s b n with
  | nil =>
    have ends : b.track = 0 := by
      cases chain
      assumption
    cases n with
    | zero => rw [collectChain, if_pos ends]
    | succ n => rw [collectChain, if_pos ends]
  | cons c l ih =>
    obtain rfl := chain.head
    obtain ⟨runs, rest⟩ : ¬ Ends c ∧ s.geo.ChainAt s.container.data (s.geo.link s.container.data c) l := by
      cases chain with
      | step runs rest => exact ⟨runs, rest⟩
    obtain ⟨inside, isFree⟩ := free c List.mem_cons_self
    obtain ⟨n, rfl⟩ : ∃ k, n = k + 1 := ⟨n - 1, by rw [List.length_cons] at enough; omega⟩
    obtain ⟨s₁, query, moved⟩ := queryBlockAllocation_eq s w.mounted c
    have represented : byteIndex (s.geo.bamRecord c.track) c.sector <
        (s.geo.bamRecord c.track).byte_count := inside.represented w.valid
    rw [if_pos represented, isFree] at query
    have read := readLink_inside s₁ (moved.whole w) c (by rw [moved.geo]; exact inside)
    rw [moved.geo, moved.data] at read
    have moved₂ := at_moved s₁ (s.geo.addr c + 2) c.track c.sector
    have both := moved.step moved₂
    have tail := ih (s₁.at_ (s.geo.addr c + 2) c.track c.sector) (both.whole w)
      (s.geo.link s.container.data c) (by rw [both.geo, both.data]; exact rest) n
      (by rw [List.length_cons] at enough; omega)
      (by
        intro x hx
        rw [both.geo, both.data]
        exact free x (List.mem_cons_of_mem _ hx))
    rw [collectChain, if_neg (show ¬ c.track = 0 from runs), query]
    simp only [Bool.not_true, read]
    unfold Geometry.link at tail
    rw [tail]
    rfl

end any_image

end D64

end Meatloaf.Disk
