import Meatloaf.Lib.Chain
import Meatloaf.Disk.Search

/-! Structural soundness of an image, and the three ways a chain of it changes. The
operations of the stream are shown to be one of these in the modules that follow. -/
namespace Meatloaf.Disk

open Lib

/- A link to track 0 ends a chain. -/
def Ends (b : Block) : Prop := b.track = 0

/- A directory sector that ends the chain and has no entries. -/
def blankSector : Str := 0x00 :: 0xFF :: List.replicate (block_size - 2) 0

theorem length_blankSector : blankSector.length = 256 := by
  rw [blankSector, List.length_cons, List.length_cons, List.length_replicate]
  rfl

theorem blankSector_byte (k : Nat) (other : k ≠ 1) : blankSector.getD k 0 = 0 := by
  cases k with
  | zero => rfl
  | succ k =>
    cases k with
    | zero => exact absurd rfl other
    | succ k =>
      unfold blankSector
      rw [List.getD_cons_succ, List.getD_cons_succ, List.getD_eq_getElem?_getD, List.getElem?_replicate]
      split <;> rfl

namespace Geometry

variable (g : Geometry) (d : Nat → UInt8)

/- Where the first two bytes of a block lead. -/
def link (b : Block) : Block := ⟨(d (g.addr b)).toNat, (d (g.addr b + 1)).toNat⟩

/-- The blocks of the chain that starts at `b`. -/
def ChainAt (b : Block) (l : List Block) : Prop := Chain (g.link d) Ends b l

/- Address and bytes of a directory entry, numbered through the directory. -/
def slotAddr (dirs : List Block) (i : Nat) : Nat := g.addr (dirs.getD (i / 8) ⟨0, 0⟩) + 32 * (i % 8)

def entryOf (dirs : List Block) (i : Nat) : List UInt8 := Store.read d (g.slotAddr dirs i) 32

/- The slot is on the directory chain and in use. -/
def LiveAt (dirs : List Block) (i : Nat) : Prop :=
  i < 8 * dirs.length ∧ fileType (g.entryOf d dirs i) ≠ 0

end Geometry

/- Blocks of the directory chain `dirs` and of the file chains. -/
def OnChain (dirs : List Block) (chain : Nat → List Block) (b : Block) : Prop :=
  b ∈ dirs ∨ ∃ i, b ∈ chain i

/-- A structurally sound image: `dirs` is the directory chain and `chain i` the
chain of the file in slot `i`. -/
structure Sound (g : Geometry) (d : Nat → UInt8) (dirs : List Block) (chain : Nat → List Block) :
    Prop where
  bam : g.BamOk d
  directory : g.ChainAt d g.directoryStart dirs
  nonempty : dirs ≠ []
  file : ∀ i, g.LiveAt d dirs i → g.ChainAt d (startBlock (g.entryOf d dirs i)) (chain i)
  vacant : ∀ i, ¬ g.LiveAt d dirs i → chain i = []
  taken : ∀ b, OnChain dirs chain b → g.Inside b ∧ g.free d b = false ∧ ¬ g.System b
  once : ∀ i, ∀ b ∈ chain i, b ∉ dirs ∧ ∀ j, b ∈ chain j → j = i
  covered : ∀ b, g.Inside b → g.free d b = false → g.Reserved b ∨ OnChain dirs chain b
  system : ∀ b, g.Inside b → g.System b → g.free d b = false

namespace Geometry

variable {g : Geometry} {d d' : Nat → UInt8}

/- A list of different blocks of the medium. -/
theorem length_le_blockCount (l : List Block) (nodup : l.Nodup) (inside : ∀ b ∈ l, g.Inside b) :
    l.length ≤ g.blockCount := by
  have injective : ∀ a ∈ l, ∀ b ∈ l, g.addr a / 256 = g.addr b / 256 → a = b := by
    intro a ha b hb same
    apply (inside a ha).addr_inj (inside b hb)
    rw [addr_eq, addr_eq] at same ⊢
    omega
  have image : (l.map fun b => g.addr b / 256).Nodup := List.Nodup.map_on injective nodup
  have bound : (l.map fun b => g.addr b / 256) ⊆ List.range g.blockCount := by
    intro n member
    obtain ⟨b, hb, rfl⟩ := List.mem_map.mp member
    have := (inside b hb).addr_end
    exact List.mem_range.mpr (by omega)
  have short := (List.subperm_of_subset image bound).length_le
  simpa using short

theorem slot_end (dirs : List Block) (i : Nat) :
    g.slotAddr dirs i + 32 ≤ g.addr (dirs.getD (i / 8) ⟨0, 0⟩) + 256 := by
  unfold slotAddr
  omega

theorem slot_mem {dirs : List Block} {i : Nat} (h : i < 8 * dirs.length) :
    dirs.getD (i / 8) ⟨0, 0⟩ ∈ dirs := by
  rw [List.getD_eq_getElem _ _ (by omega)]
  exact List.getElem_mem _

theorem link_congr {b : Block} (same : ∀ i < 256, d' (g.addr b + i) = d (g.addr b + i)) :
    g.link d' b = g.link d b := by
  have first := same 0 (by omega)
  rw [Nat.add_zero] at first
  unfold link
  rw [first, same 1 (by omega)]

theorem entry_congr {dirs : List Block} {i : Nat}
    (same : ∀ k < 256, d' (g.addr (dirs.getD (i / 8) ⟨0, 0⟩) + k) =
      d (g.addr (dirs.getD (i / 8) ⟨0, 0⟩) + k)) : g.entryOf d' dirs i = g.entryOf d dirs i := by
  apply Store.read_congr
  intro k hk
  unfold slotAddr
  rw [Nat.add_assoc]
  exact same _ (by omega)

/- Different slots of a directory do not overlap. -/
theorem slot_apart {dirs : List Block} {i j : Nat} (nodup : dirs.Nodup)
    (inside : ∀ b ∈ dirs, g.Inside b) (hi : i < 8 * dirs.length) (hj : j < 8 * dirs.length) (ne : i ≠ j) :
    g.slotAddr dirs i + 32 ≤ g.slotAddr dirs j ∨ g.slotAddr dirs j + 32 ≤ g.slotAddr dirs i := by
  have endI := g.slot_end dirs i
  have endJ := g.slot_end dirs j
  by_cases same : i / 8 = j / 8
  · unfold slotAddr
    rw [same]
    omega
  · have other : dirs.getD (i / 8) ⟨0, 0⟩ ≠ dirs.getD (j / 8) ⟨0, 0⟩ := by
      rw [List.getD_eq_getElem _ _ (by omega), List.getD_eq_getElem _ _ (by omega)]
      exact fun equal => same ((nodup.getElem_inj_iff).mp equal)
    have startI : g.addr (dirs.getD (i / 8) ⟨0, 0⟩) ≤ g.slotAddr dirs i := Nat.le_add_right _ _
    have startJ : g.addr (dirs.getD (j / 8) ⟨0, 0⟩) ≤ g.slotAddr dirs j := Nat.le_add_right _ _
    rcases (inside _ (slot_mem hi)).apart (inside _ (slot_mem hj)) other with h | h
    · exact .inl (by omega)
    · exact .inr (by omega)

theorem entry_append {dirs : List Block} {i : Nat} (more : List Block) (h : i < 8 * dirs.length) :
    g.entryOf d (dirs ++ more) i = g.entryOf d dirs i := by
  unfold entryOf slotAddr
  rw [List.getD_append _ _ _ _ (by omega)]

end Geometry

namespace Sound

variable {g : Geometry} {d d' : Nat → UInt8} {dirs : List Block} {chain : Nat → List Block}

theorem dirs_short (h : Sound g d dirs chain) (compact : g.Compact) : 8 * dirs.length < 65536 := by
  have bound := g.length_le_blockCount dirs h.directory.nodup fun b hb => (h.taken b (.inl hb)).1
  unfold Geometry.Compact at compact
  omega

theorem chain_nodup (h : Sound g d dirs chain) (i : Nat) : (chain i).Nodup := by
  by_cases live : g.LiveAt d dirs i
  · exact (h.file i live).nodup
  · rw [h.vacant i live]
    exact List.nodup_nil

theorem chain_short (h : Sound g d dirs chain) (compact : g.Compact) (i : Nat) : (chain i).length < 8192 := by
  have bound := g.length_le_blockCount (chain i) (h.chain_nodup i) fun b hb => (h.taken b (.inr ⟨i, hb⟩)).1
  unfold Geometry.Compact at compact
  omega

/- A free block is inside the geometry, on no chain and holds no part of the BAM. -/
theorem free_block (h : Sound g d dirs chain) (v : g.Valid) {b : Block} (free : g.free d b = true) :
    g.Inside b ∧ ¬ g.System b ∧ ¬ OnChain dirs chain b := by
  have range := (Geometry.Represented.of_free free).track v
  have inside : g.Inside b := by
    refine ⟨range.1, range.2, Nat.lt_of_not_le fun beyond => ?_⟩
    rw [h.bam.spare b.track b.sector beyond] at free
    exact Bool.false_ne_true free
  refine ⟨inside, fun system => ?_, fun used => ?_⟩
  · rw [h.system b inside system] at free
    exact Bool.false_ne_true free
  · rw [(h.taken b used).2.1] at free
    exact Bool.false_ne_true free

theorem dirs_inside (h : Sound g d dirs chain) : ∀ b ∈ dirs, g.Inside b :=
  fun b hb => (h.taken b (.inl hb)).1

theorem directory_inside (h : Sound g d dirs chain) : g.directoryStart ∈ dirs := by
  apply h.directory.start_mem
  intro ends
  exact h.nonempty (h.directory.nil_iff.mpr ends)

/-- Nothing that the structure depends on has changed. -/
theorem frame (h : Sound g d dirs chain) (bam : g.BamOk d') (free : ∀ b, g.free d' b = g.free d b)
    (links : ∀ b, OnChain dirs chain b → g.link d' b = g.link d b)
    (entries : ∀ i < 8 * dirs.length, g.entryOf d' dirs i = g.entryOf d dirs i) :
    Sound g d' dirs chain := by
  have liveness : ∀ i, g.LiveAt d' dirs i ↔ g.LiveAt d dirs i := by
    intro i
    constructor
    · exact fun live => ⟨live.1, entries i live.1 ▸ live.2⟩
    · exact fun live => ⟨live.1, (entries i live.1).symm ▸ live.2⟩
  refine ⟨bam, h.directory.congr fun b hb => links b (.inl hb), h.nonempty, ?_, ?_, ?_, h.once, ?_, ?_⟩
  · intro i live
    rw [entries i live.1]
    exact (h.file i ((liveness i).mp live)).congr fun b hb => links b (.inr ⟨i, hb⟩)
  · exact fun i dead => h.vacant i fun live => dead ((liveness i).mpr live)
  · intro b used
    rw [free]
    exact h.taken b used
  · intro b inside used
    rw [free] at used
    exact h.covered b inside used
  · intro b inside system
    rw [free]
    exact h.system b inside system

/-- A slot that was vacant gets a file whose blocks were free. -/
theorem insert (h : Sound g d dirs chain) (v : g.Valid) {i : Nat} (slot : i < 8 * dirs.length)
    (vacant : ¬ g.LiveAt d dirs i) (bs : List Block) (bam : g.BamOk d')
    (free : ∀ b, g.free d' b = (g.free d b && decide (b ∉ bs))) (fresh : ∀ b ∈ bs, g.free d b = true)
    (links : ∀ b, OnChain dirs chain b → g.link d' b = g.link d b)
    (entries : ∀ j < 8 * dirs.length, j ≠ i → g.entryOf d' dirs j = g.entryOf d dirs j)
    (live : fileType (g.entryOf d' dirs i) ≠ 0)
    (file : g.ChainAt d' (startBlock (g.entryOf d' dirs i)) bs) :
    Sound g d' dirs (Function.update chain i bs) := by
  have empty := h.vacant i vacant
  have onChain : ∀ b, OnChain dirs (Function.update chain i bs) b ↔ OnChain dirs chain b ∨ b ∈ bs := by
    intro b
    constructor
    · rintro (hb | ⟨j, hb⟩)
      · exact .inl (.inl hb)
      · by_cases same : j = i
        · subst same
          exact .inr (by simpa using hb)
        · exact .inl (.inr ⟨j, by simpa [same] using hb⟩)
    · rintro ((hb | ⟨j, hb⟩) | hb)
      · exact .inl hb
      · have other : j ≠ i := by
          rintro rfl
          rw [empty] at hb
          cases hb
        exact .inr ⟨j, by simpa [other] using hb⟩
      · exact .inr ⟨i, by simpa using hb⟩
  have unused : ∀ b ∈ bs, ¬ OnChain dirs chain b := fun b hb => (h.free_block v (fresh b hb)).2.2
  refine ⟨bam, h.directory.congr fun b hb => links b (.inl hb), h.nonempty, ?_, ?_, ?_, ?_, ?_, ?_⟩
  · intro j liveJ
    by_cases same : j = i
    · subst same
      simpa using file
    · rw [Function.update_of_ne same, entries j liveJ.1 same]
      have before : g.LiveAt d dirs j := ⟨liveJ.1, entries j liveJ.1 same ▸ liveJ.2⟩
      exact (h.file j before).congr fun b hb => links b (.inr ⟨j, hb⟩)
  · intro j dead
    by_cases same : j = i
    · subst same
      exact absurd ⟨slot, live⟩ dead
    · rw [Function.update_of_ne same]
      exact h.vacant j fun before => dead ⟨before.1, (entries j before.1 same).symm ▸ before.2⟩
  · intro b used
    rw [free]
    rcases (onChain b).mp used with old | new
    · obtain ⟨inside, allocated, system⟩ := h.taken b old
      exact ⟨inside, by rw [allocated, Bool.false_and], system⟩
    · obtain ⟨inside, system, _⟩ := h.free_block v (fresh b new)
      exact ⟨inside, by simp [new], system⟩
  · intro j b hb
    by_cases same : j = i
    · subst same
      have new : b ∈ bs := by simpa using hb
      refine ⟨fun dir => unused b new (.inl dir), fun k hk => ?_⟩
      by_contra other
      exact unused b new (.inr ⟨k, by simpa [other] using hk⟩)
    · have old : b ∈ chain j := by simpa [same] using hb
      refine ⟨(h.once j b old).1, fun k hk => ?_⟩
      by_cases here : k = i
      · subst here
        exact absurd (.inr ⟨j, old⟩) (unused b (by simpa using hk))
      · exact (h.once j b old).2 k (by simpa [here] using hk)
  · intro b inside used
    rw [free] at used
    by_cases new : b ∈ bs
    · exact .inr ((onChain b).mpr (.inr new))
    · have allocated : g.free d b = false := by simpa [new] using used
      exact (h.covered b inside allocated).imp id fun old => (onChain b).mpr (.inl old)
  · intro b inside system
    rw [free, h.system b inside system, Bool.false_and]

/-- A file goes, and its blocks become free. -/
theorem remove (h : Sound g d dirs chain) {i : Nat} (bam : g.BamOk d')
    (free : ∀ b, g.free d' b = (g.free d b || decide (b ∈ chain i)))
    (links : ∀ b, OnChain dirs chain b → g.link d' b = g.link d b)
    (entries : ∀ j < 8 * dirs.length, j ≠ i → g.entryOf d' dirs j = g.entryOf d dirs j)
    (dead : fileType (g.entryOf d' dirs i) = 0) :
    Sound g d' dirs (Function.update chain i []) := by
  have onChain : ∀ b, OnChain dirs (Function.update chain i []) b ↔ OnChain dirs chain b ∧ b ∉ chain i := by
    intro b
    constructor
    · rintro (hb | ⟨j, hb⟩)
      · exact ⟨.inl hb, fun mine => (h.once i b mine).1 hb⟩
      · have other : j ≠ i := by
          rintro rfl
          simp at hb
        have old : b ∈ chain j := by simpa [other] using hb
        exact ⟨.inr ⟨j, old⟩, fun mine => other ((h.once i b mine).2 j old)⟩
    · rintro ⟨hb | ⟨j, hb⟩, mine⟩
      · exact .inl hb
      · have other : j ≠ i := by
          rintro rfl
          exact mine hb
        exact .inr ⟨j, by simpa [other] using hb⟩
  refine ⟨bam, h.directory.congr fun b hb => links b (.inl hb), h.nonempty, ?_, ?_, ?_, ?_, ?_, ?_⟩
  · intro j live
    have other : j ≠ i := by
      rintro rfl
      exact live.2 dead
    rw [Function.update_of_ne other, entries j live.1 other]
    have before : g.LiveAt d dirs j := ⟨live.1, entries j live.1 other ▸ live.2⟩
    exact (h.file j before).congr fun b hb => links b (.inr ⟨j, hb⟩)
  · intro j gone
    by_cases same : j = i
    · subst same
      simp
    · rw [Function.update_of_ne same]
      exact h.vacant j fun before => gone ⟨before.1, (entries j before.1 same).symm ▸ before.2⟩
  · intro b used
    obtain ⟨old, mine⟩ := (onChain b).mp used
    obtain ⟨inside, allocated, system⟩ := h.taken b old
    exact ⟨inside, by rw [free, allocated]; simpa using mine, system⟩
  · intro j b hb
    have other : j ≠ i := by
      rintro rfl
      simp at hb
    have old : b ∈ chain j := by simpa [other] using hb
    refine ⟨(h.once j b old).1, fun k hk => ?_⟩
    have elsewhere : k ≠ i := by
      rintro rfl
      simp at hk
    exact (h.once j b old).2 k (by simpa [elsewhere] using hk)
  · intro b inside used
    rw [free, Bool.or_eq_false_iff] at used
    have mine : b ∉ chain i := by simpa using used.2
    exact (h.covered b inside used.1).imp id fun old => (onChain b).mpr ⟨old, mine⟩
  · intro b inside system
    have mine : b ∉ chain i := fun hb => (h.taken b (.inr ⟨i, hb⟩)).2.2 system
    rw [free, h.system b inside system]
    simpa using mine

/-- The directory gets another block, all of it vacant. -/
theorem extend (h : Sound g d dirs chain) (v : g.Valid) (b : Block) (bam : g.BamOk d')
    (free : ∀ c, g.free d' c = (decide (c ≠ b) && g.free d c)) (fresh : g.free d b = true)
    (links : ∀ c ∈ dirs.dropLast, g.link d' c = g.link d c)
    (last : g.link d' (dirs.getLast h.nonempty) = b) (ends : Ends (g.link d' b))
    (files : ∀ i, ∀ c ∈ chain i, g.link d' c = g.link d c)
    (entries : ∀ i < 8 * dirs.length, fileType (g.entryOf d' dirs i) = fileType (g.entryOf d dirs i) ∧
      startBlock (g.entryOf d' dirs i) = startBlock (g.entryOf d dirs i))
    (blank : ∀ i, 8 * dirs.length ≤ i → i < 8 * dirs.length + 8 →
      fileType (g.entryOf d' (dirs ++ [b]) i) = 0) :
    Sound g d' (dirs ++ [b]) chain := by
  obtain ⟨inside, system, unused⟩ := h.free_block v fresh
  have liveness : ∀ i, g.LiveAt d' (dirs ++ [b]) i ↔ g.LiveAt d dirs i := by
    intro i
    unfold Geometry.LiveAt
    rw [List.length_append, List.length_singleton]
    by_cases old : i < 8 * dirs.length
    · rw [Geometry.entry_append _ old, (entries i old).1]
      exact and_congr_left fun _ => ⟨fun _ => old, fun _ => by omega⟩
    · refine ⟨fun live => absurd (blank i (by omega) (by omega)) live.2, fun live => absurd live.1 old⟩
  have onChain : ∀ c, OnChain (dirs ++ [b]) chain c ↔ OnChain dirs chain c ∨ c = b := by
    intro c
    unfold OnChain
    simp only [List.mem_append, List.mem_singleton]
    exact or_right_comm
  refine ⟨bam, ?_, by simp, ?_, ?_, ?_, ?_, ?_, ?_⟩
  · refine h.directory.splice h.nonempty links last (.step ?_ (.done ends))
    intro stop
    have := inside.1
    unfold Ends at stop
    omega
  · intro i live
    have old := (liveness i).mp live
    rw [Geometry.entry_append _ old.1, (entries i old.1).2]
    exact (h.file i old).congr fun c hc => files i c hc
  · exact fun i gone => h.vacant i fun live => gone ((liveness i).mpr live)
  · intro c used
    rw [free]
    rcases (onChain c).mp used with old | rfl
    · obtain ⟨inside, allocated, system⟩ := h.taken c old
      exact ⟨inside, by rw [allocated, Bool.and_false], system⟩
    · exact ⟨inside, by simp, system⟩
  · intro i c hc
    refine ⟨fun dir => ?_, (h.once i c hc).2⟩
    rcases List.mem_append.mp dir with old | new
    · exact (h.once i c hc).1 old
    · rw [List.mem_singleton.mp new] at hc
      exact unused (.inr ⟨i, hc⟩)
  · intro c inside used
    rw [free] at used
    by_cases new : c = b
    · exact .inr ((onChain c).mpr (.inr new))
    · have allocated : g.free d c = false := by simpa [new] using used
      exact (h.covered c inside allocated).imp id fun old => (onChain c).mpr (.inl old)
  · intro c inside system
    rw [free, h.system c inside system, Bool.and_false]

end Sound

end Meatloaf.Disk
