import Mathlib.Algebra.Order.BigOperators.Group.List
import Mathlib.Algebra.Order.Ring.Nat
import Meatloaf.Disk.Saves
import Meatloaf.Disk.Undelete

/-! Sessions: any sequence of saves, scratches and unscratches, each on a stream opened for
it, on an image that started out blank. -/
namespace Meatloaf.Disk

open Lib

/-- What the firmware may ask of an image. -/
inductive Op where
  | save (path : Str) (chunks : List Str)
  | remove (path : Str)
  | unremove (path : Str)

namespace Op

/- The path of a save does not select the raw image. -/
def Plain : Op → Prop
  | save path _ => endsWithHash path = false
  | remove _ | unremove _ => True

/-- One operation on a freshly opened stream; what is left of it is the container. -/
def run (f : Format) (op : Op) (c : Container) : Option Container :=
  let s := D64.new f (c.seek 0)
  match op with
  | save path chunks => (s.save path chunks).map (·.container)
  | remove path => (s.removeFile path).map (·.2.container)
  | unremove path => (s.unremoveFile path).map (·.2.container)

def runAll (f : Format) : List Op → Container → Option Container
  | [], c => some c
  | op :: ops, c => (op.run f c).bind (runAll f ops)

end Op

namespace D64

/- Tracks that `blocksFree` looks at. -/
def Counts (g : Geometry) (t : Nat) : Bool :=
  !(g.format.dedicated_directory_track && t == g.directory_track)

def counted (g : Geometry) : List Nat :=
  (g.block_allocation_map.flatMap fun bam => upTo bam.start_track bam.end_track).filter (Counts g)

theorem blocksFreeLoop_eq (s : D64) (m : Mounted s) (ok : s.geo.BamOk s.container.data) (ts : List Nat)
    (tracks : ∀ t ∈ ts, 1 ≤ t ∧ t ≤ s.geo.last_track) :
    (s.blocksFreeLoop ts).1 = ((ts.filter (Counts s.geo)).map (s.geo.freeCount s.container.data)).sum := by
  induction ts generalizing s with
  | nil => rfl
  | cons t ts ih =>
    have rest := fun u hu => tracks u (List.mem_cons_of_mem _ hu)
    by_cases skip : s.geo.format.dedicated_directory_track = true ∧ t = s.geo.directory_track
    · rw [blocksFreeLoop, if_pos skip, ih s m ok rest, List.filter_cons_of_neg (by simp [Counts, skip])]
    · obtain ⟨s', count, moved⟩ := getTrackFreeCount_eq s m ok t (tracks t List.mem_cons_self)
      have later := ih s' (moved.mounted m) (by rw [moved.geo, moved.data]; exact ok)
        (by rw [moved.geo]; exact rest)
      rw [moved.geo, moved.data] at later
      have counts : Counts s.geo t = true := by
        rw [Counts, Bool.not_eq_true', Bool.and_eq_false_iff, beq_eq_false_iff_ne, ← Bool.not_eq_true]
        exact Decidable.not_and_iff_not_or_not.mp skip
      rw [blocksFreeLoop, if_neg skip, count, List.filter_cons_of_pos counts]
      simp only [later, List.map_cons, List.sum_cons]

end D64

theorem Format.standard_counted (f : Format) :
    ((D64.counted f.standard).map f.standard.getSectorCount).sum < 65536 := by
  cases f <;> decide +kernel

/-- The image is whole and sound, and the free blocks it reports are the bits of its BAM. -/
structure Intact (f : Format) (c : Container) : Prop where
  standard : Standard f c
  sound : ∃ dirs chain, Sound (D64.new f c).geo c.data dirs chain
  blocksFree : (D64.new f c).blocksFree.1 =
    ((D64.counted (D64.new f c).geo).map fun t =>
      D64.countBits ((D64.new f c).geo.bitmap c.data t)).sum

/-- What a session keeps up: a sound image whose files are all closed PRGs. -/
structure Kept (f : Format) (c : Container) (dirs : List Block) (chain : Nat → List Block) : Prop where
  standard : Standard f c
  sound : Sound f.standard c.data dirs chain
  closed : ∀ i, f.standard.LiveAt c.data dirs i → fileType (f.standard.entryOf c.data dirs i) = 0x82

/- The geometry is kept along with the link in the header block. -/
theorem Standard.transfer {f : Format} {c c' : Container} (h : Standard f c) (size : c'.size = c.size)
    (steady : c'.fault = none) (header : ∀ k < 2, c'.data (f.standard.addr f.standard.headerBlock + k) =
      c.data (f.standard.addr f.standard.headerBlock + k)) : Standard f c' where
  size := size.trans h.size
  steady := steady
  geo := by
    rw [← h.geo]
    unfold D64.new
    dsimp only
    rw [size]
    cases f with
    | dnp =>
      have first := header 0 (by omega)
      have second := header 1 (by omega)
      have place : Format.dnp.standard.addr Format.dnp.standard.headerBlock = 0x100 := by
        rw [Geometry.addr_eq]
        decide
      rw [place] at first second
      unfold Container.byte
      rw [size, first, second]
    | d64 | d71 | d80 | d81 | d82 => rfl

theorem Format.header_bare (f : Format) {k : Nat} (small : k < 2) :
    ¬ f.standard.BamArea (f.standard.addr f.standard.headerBlock + k) := by
  intro area
  have apart := (f.standard_formattable.header_apart area).1
  omega

theorem liveMatch_live {name : Str} {e : List UInt8} (matched : liveMatch name e = true) : fileType e ≠ 0 := by
  intro scratched
  unfold liveMatch at matched
  rw [scratched] at matched
  simp at matched

theorem scratchedMatch_vacant {name : Str} {e : List UInt8} (matched : scratchedMatch name e = true) :
    fileType e = 0 := by
  unfold scratchedMatch at matched
  simp only [Bool.and_eq_true, beq_iff_eq] at matched
  exact matched.1.1

/- A directory slot is not in the header block. -/
theorem Sound.update_header {g : Geometry} {d d' : Nat → UInt8} {dirs : List Block} {chain : Nat → List Block}
    (h : Sound g d dirs chain) (v : g.Valid) {i : Nat} (inside : i < 8 * dirs.length) {type : UInt8} {k : Nat}
    (small : k < 256) :
    Function.update d' (g.slotAddr dirs i + 2) type (g.addr g.headerBlock + k) = d' (g.addr g.headerBlock + k) := by
  obtain ⟨insideD, _, system⟩ := h.taken _ (.inl (Geometry.slot_mem inside))
  have other : g.headerBlock ≠ dirs.getD (i / 8) ⟨0, 0⟩ := fun same => system (.inl same.symm)
  apply Function.update_of_ne
  unfold Geometry.slotAddr
  rcases v.header.apart insideD other with before | after <;> omega

namespace Kept

variable {f : Format} {c : Container} {dirs : List Block} {chain : Nat → List Block}

theorem intact (h : Kept f c dirs chain) : Intact f c where
  standard := h.standard
  sound := by
    rw [h.standard.geo]
    exact ⟨dirs, chain, h.sound⟩
  blocksFree := by
    have v := f.standard_formattable.valid
    have mounted := h.standard.image.whole.mounted
    have tracks : ∀ t ∈ f.standard.block_allocation_map.flatMap fun bam => D64.upTo bam.start_track bam.end_track,
        1 ≤ t ∧ t ≤ f.standard.last_track := by
      intro t member
      obtain ⟨bam, maps, inside⟩ := List.mem_flatMap.mp member
      have range := (f.standard_formattable.maps bam maps).range
      have bounds := Geometry.mem_upTo.mp inside
      omega
    have loop := D64.blocksFreeLoop_eq (D64.new f c) mounted (by rw [h.standard.geo]; exact h.sound.bam)
      ((D64.new f c).geo.block_allocation_map.flatMap fun bam => D64.upTo bam.start_track bam.end_track)
      (by rw [h.standard.geo]; exact tracks)
    rw [h.standard.geo] at loop
    have counts : ∀ t ∈ D64.counted f.standard, f.standard.freeCount c.data t =
        D64.countBits (f.standard.bitmap c.data t) := by
      intro t member
      have range := tracks t (List.mem_of_mem_filter member)
      exact (Geometry.countBits_bitmap (v.track t range.1 range.2) (h.sound.bam.spare t)).symm
    have small : ((D64.counted f.standard).map (f.standard.freeCount c.data)).sum < 65536 := by
      refine Nat.lt_of_le_of_lt ?_ f.standard_counted
      exact List.sum_le_sum fun t _ => Geometry.freeCount_le t
    unfold D64.blocksFree
    rw [h.standard.geo]
    dsimp only
    rw [loop, ← List.map_congr_left counts]
    exact Nat.mod_eq_of_lt small

/- The image is what it was. -/
theorem same (h : Kept f c dirs chain) {c' : Container} (data : c'.data = c.data) (size : c'.size = c.size)
    (fault : c'.fault = c.fault) : Kept f c' dirs chain where
  standard := h.standard.transfer size (fault.trans h.standard.steady) (fun k _ => by rw [data])
  sound := by
    rw [data]
    exact h.sound
  closed := by
    rw [data]
    exact h.closed

theorem short (h : Kept f c dirs chain) : 8 * dirs.length < 65536 := h.sound.dirs_short (f.default_compact (0, 0))

theorem bounded (h : Kept f c dirs chain) (i : Nat) : (chain i).length ≤ 10000 := by
  have := h.sound.chain_short (f.default_compact (0, 0)) i
  omega

/- A file is scratched. -/
theorem scratched (h : Kept f c dirs chain) {i : Nat} (live : f.standard.LiveAt c.data dirs i) {d' : Nat → UInt8}
    (released : f.standard.Released c.data (chain i) d') {c' : Container}
    (data : c'.data = Function.update d' (f.standard.slotAddr dirs i + 2) 0) (size : c'.size = c.size)
    (steady : c'.fault = none) : Kept f c' dirs (Function.update chain i []) := by
  have v := f.standard_formattable.valid
  obtain ⟨_, _, others, entry⟩ := h.sound.retype v live.1 released.rest 0
  refine ⟨h.standard.transfer size steady ?_, ?_, ?_⟩
  · intro k small
    rw [data, h.sound.update_header v live.1 (by omega), released.rest _ (f.header_bare small)]
  · rw [data]
    exact h.sound.scratch v live released
  · rw [data]
    rintro j ⟨inside, alive⟩
    by_cases here : j = i
    · subst here
      rw [entry, fileType_set _ _ (by simp [Geometry.entryOf])] at alive
      exact absurd rfl alive
    · rw [others j inside here] at alive ⊢
      exact h.closed j ⟨inside, alive⟩

/- A scratched file is recovered. -/
theorem recovered (h : Kept f c dirs chain) {i : Nat} (inside : i < 8 * dirs.length)
    (vacant : fileType (f.standard.entryOf c.data dirs i) = 0) {l : List Block} {d' : Nat → UInt8}
    (file : f.standard.ChainAt c.data (startBlock (f.standard.entryOf c.data dirs i)) l)
    (fresh : ∀ b ∈ l, f.standard.free c.data b = true) (allocated : f.standard.Allocated c.data l d')
    {c' : Container} (data : c'.data = Function.update d' (f.standard.slotAddr dirs i + 2) 0x82)
    (size : c'.size = c.size) (steady : c'.fault = none) : Kept f c' dirs (Function.update chain i l) := by
  have v := f.standard_formattable.valid
  obtain ⟨area, links, others, entry⟩ := h.sound.retype v inside allocated.rest 0x82
  have type : fileType (f.standard.entryOf (Function.update d' (f.standard.slotAddr dirs i + 2) 0x82) dirs i) =
      0x82 := by
    rw [entry, fileType_set _ _ (by simp [Geometry.entryOf])]
  refine ⟨h.standard.transfer size steady ?_, ?_, ?_⟩
  · intro k small
    rw [data, h.sound.update_header v inside (by omega), allocated.rest _ (f.header_bare small)]
  · rw [data]
    refine h.sound.insert v inside (fun live => live.2 vacant) l ((allocated.bam h.sound.bam).agree v area) ?_ fresh
      ?_ others (by rw [type]; decide) ?_
    · intro b
      rw [Geometry.free_agree v area, allocated.free]
    · intro b used
      obtain ⟨insideB, _, system⟩ := h.sound.taken b used
      exact links b insideB system
    · rw [entry, startBlock_set]
      refine file.congr fun b hb => ?_
      obtain ⟨insideB, system, _⟩ := h.sound.free_block v (fresh b hb)
      exact links b insideB system
  · rw [data]
    rintro j ⟨insideJ, alive⟩
    by_cases here : j = i
    · subst here
      exact type
    · rw [others j insideJ here] at alive ⊢
      exact h.closed j ⟨insideJ, alive⟩

/- A save that was given up. -/
theorem failed {s₀ s : D64} (h : Kept f s₀.container dirs chain) (geo : s₀.geo = f.standard) {o : Outcome}
    (safe : ¬ o.Exposed) (failed : D64.Failed s₀ s o) : Kept f s.container dirs chain ∧
      ∀ b, OnChain dirs chain b → ∀ k < 256, s.container.data (f.standard.addr b + k) =
        s₀.container.data (f.standard.addr b + k) := by
  have v := f.standard_formattable.valid
  have header := fun k (small : k < 2) => f.header_bare small
  have clean := failed.clean safe
  rw [failed.geo, geo] at clean
  have kept := fun b used k hk => clean.onChain v h.sound (b := b) used k hk
  have entries : ∀ j < 8 * dirs.length, f.standard.entryOf s.container.data dirs j =
      f.standard.entryOf s₀.container.data dirs j :=
    fun j hj => Geometry.entry_congr fun k hk => kept _ (.inl (Geometry.slot_mem hj)) k hk
  refine ⟨⟨h.standard.transfer failed.size failed.steady ?_, ?_, ?_⟩, kept⟩
  · intro k small
    exact clean.kept v h.sound.bam v.header (h.sound.system _ v.header (.inl rfl)) k (by omega) (header k small)
  · refine h.sound.frame clean.bam ?_ ?_ entries
    · intro b
      rw [clean.free]
      simp
    · exact fun b used => Geometry.link_congr (kept b used)
  · rintro j ⟨inside, alive⟩
    rw [entries j inside] at alive ⊢
    exact h.closed j ⟨inside, alive⟩

/- A save that went through. -/
theorem saved {s₀ s : D64} (h : Kept f s₀.container dirs chain) (geo : s₀.geo = f.standard) {name p : Str}
    {dirs' bs : List Block} {i : Nat} (saved : D64.Saved s₀ s dirs chain name p dirs' i bs) :
    Kept f s.container dirs' (Function.update chain i bs) := by
  have header := fun k (small : k < 2) => f.header_bare small
  have sound := saved.sound
  have entry := saved.entry
  have others := saved.others
  have blank := saved.blank
  have bytes := saved.header
  rw [geo] at sound entry others blank bytes
  refine ⟨h.standard.transfer saved.size saved.steady ?_, sound, ?_⟩
  · exact fun k small => bytes k (by omega) (header k small)
  · rintro j ⟨inside, alive⟩
    by_cases here : j = i
    · subst here
      have same : (f.standard.entryOf s.container.data dirs' j).drop 2 =
          (0 :: 0 :: D64.newEntry name (bs.getD 0 ⟨0, 0⟩) (bs.length % 65536)).drop 2 := entry
      rw [fileType_congr same]
      rfl
    · by_cases old : j < 8 * dirs.length
      · rw [fileType_congr (others j old here)] at alive ⊢
        exact h.closed j ⟨old, alive⟩
      · have same : (f.standard.entryOf s.container.data dirs' j).drop 2 =
            (0 :: 0 :: List.replicate 30 0).drop 2 := blank j (by omega) inside here
        rw [fileType_congr same] at alive
        exact absurd rfl alive

/-- A save that has come to its end. -/
theorem ended {s₀ s : D64} (h : Kept f s₀.container dirs chain) (geo : s₀.geo = f.standard) {name p : Str}
    {o : Outcome} (safe : ¬ o.Exposed) (e : D64.Ended s₀ dirs chain name p o s) :
    ∃ dirs' chain', Kept f s.container dirs' chain' := by
  rcases e with failed | ⟨_, dirs', i, bs, saved⟩
  · exact ⟨dirs, chain, (h.failed geo safe failed).1⟩
  · exact ⟨dirs', _, h.saved geo saved⟩

/- The stream an operation is run on. -/
theorem geo (h : Kept f c dirs chain) : (D64.new f (c.seek 0)).geo = f.standard := h.standard.geo

theorem opened (h : Kept f c dirs chain) {s : D64} (looks : D64.Looks (D64.new f (c.seek 0)) s) :
    D64.Whole s ∧ s.entry.length = 32 ∧ s.geo = f.standard ∧ s.container.data = c.data ∧
      Kept f s.container dirs chain := by
  have whole := looks.whole (s := D64.new f (c.seek 0)) ⟨h.standard.image.whole.valid, h.standard.image.whole.size⟩
  exact ⟨whole, looks.entry rfl, looks.geo.trans h.geo, looks.data, h.same looks.data looks.size looks.fault⟩

/-- There is nothing to enter on an image whose files are closed PRGs. -/
theorem seekDirectory_fails (h : Kept f c dirs chain) {s : D64} (looks : D64.Looks (D64.new f (c.seek 0)) s)
    (path : Str) (parts : splitPathComponents path ≠ []) :
    ∃ s', s.seekDirectory path = some (false, s') ∧ D64.Looks s s' := by
  obtain ⟨whole, full, geo, data, kept⟩ := h.opened looks
  cases split : splitPathComponents path with
  | nil => exact absurd split parts
  | cons part rest =>
    have nonempty := splitPathComponents_ne_nil path part (by rw [split]; simp)
    have sound : Sound s.geo s.container.data dirs chain := by
      rw [geo]
      exact kept.sound
    let q : D64 := { s with dir_track := 0, dir_sector := 0, entry_index := 0 }
    have seek := D64.seekEntry_root (s := q) ⟨whole.valid, whole.size⟩ sound h.short part nonempty (.inl rfl) full
    have fails : ∃ s', q.enterDirectory part = some (false, s') := by
      unfold D64.enterDirectory
      rw [seek]
      cases found : q.geo.lookup q.container.data dirs (liveMatch part) with
      | none => exact ⟨_, rfl⟩
      | some i =>
        obtain ⟨inside, matched, _⟩ := Geometry.lookup_some.mp found
        have closed : fileType (q.onEntry dirs i).entry = 0x82 := by
          have live : f.standard.LiveAt s.container.data dirs i := by
            rw [← geo]
            exact ⟨inside, liveMatch_live matched⟩
          have type := kept.closed i live
          rw [← geo] at type
          exact type
        refine ⟨q.onEntry dirs i, ?_⟩
        simp only [Option.map_some, if_true, closed]
        rw [if_pos (by decide)]
    obtain ⟨s', entered⟩ := fails
    have run : s.seekDirectory path = some (false, s') := by
      unfold D64.seekDirectory
      rw [split, D64.enterDirectories, entered]
      rfl
    exact ⟨s', run, (D64.seekDirectory_walks s path (false, s') run).looks⟩

/- A path without components is the root directory, one with several leads nowhere. -/
theorem resolvePath_other (h : Kept f c dirs chain) {s : D64} (looks : D64.Looks (D64.new f (c.seek 0)) s)
    (path : Str) (other : ∀ name, splitPathComponents path ≠ [name]) :
    ∃ r s', s.resolvePath path = some (r, s') ∧ D64.Looks s s' ∧ r ≠ .file ∧
      (splitPathComponents path = [] ∨
        r = .notFound ∧ splitPathComponents (parentPath (splitPathComponents path)) ≠ []) := by
  cases split : splitPathComponents path with
  | nil =>
    have run : s.resolvePath path = some (.dir, { s with dir_track := 0, dir_sector := 0, entry_index := 0 }) := by
      unfold D64.resolvePath
      rw [split]
      rfl
    exact ⟨_, _, run, (D64.resolvePath_walks s path _ run).looks, by decide, .inl rfl⟩
  | cons a rest =>
    cases rest with
    | nil => exact absurd split (other a)
    | cons b rest =>
      have parent := parentPath_components split
      obtain ⟨s', seek, looks'⟩ := h.seekDirectory_fails looks _ parent
      have run : s.resolvePath path = some (.notFound, s') := by
        unfold D64.resolvePath
        rw [split]
        have last : (a :: b :: rest).getLast? = some ((a :: b :: rest).getLast (by simp)) :=
          List.getLast?_eq_some_getLast _
        rw [last]
        simp only [seek, Option.bind_some, Bool.false_eq_true, if_false]
      exact ⟨_, s', run, looks', by decide, .inr ⟨rfl, parent⟩⟩

theorem save (h : Kept f c dirs chain) (path : Str) (chunks : List Str) (plain : endsWithHash path = false) :
    ∃ c' dirs' chain', (Op.save path chunks).run f c = some c' ∧ Kept f c' dirs' chain' := by
  have start := D64.resetPath_looks (D64.new f (c.seek 0))
  -- a save that is refused when its path is opened
  have refuses : ∀ q, (D64.new f (c.seek 0)).seekPathOut path = some (false, q) →
      D64.Looks (D64.new f (c.seek 0)) q →
      ∃ c' dirs' chain', (Op.save path chunks).run f c = some c' ∧ Kept f c' dirs' chain' := by
    intro q opened looks
    refine ⟨q.container, dirs, chain, ?_, h.same looks.data looks.size looks.fault⟩
    have idle : q.close.container = q.container := by
      unfold D64.close
      rw [if_neg fun busy => Bool.false_ne_true (looks.creating.symm.trans busy.1)]
    simp only [Op.run, D64.save, opened, Option.map_some, Bool.false_eq_true, if_false, idle]
  by_cases single : ∃ name, splitPathComponents path = [name]
  · obtain ⟨name, single⟩ := single
    have looks := D64.Looks.refl (D64.new f (c.seek 0))
    obtain ⟨whole, full, geo, _, kept⟩ := h.opened looks
    have sound : Sound (D64.new f (c.seek 0)).geo (D64.new f (c.seek 0)).container.data dirs chain := by
      rw [geo]
      exact h.sound
    cases found : (D64.new f (c.seek 0)).geo.lookup (D64.new f (c.seek 0)).container.data dirs (liveMatch name) with
    | none =>
      obtain ⟨s', run, ended⟩ := D64.save_new whole ⟨rfl, rfl⟩ full sound h.short path name single plain found chunks
        (.steady h.standard.steady)
      obtain ⟨dirs', chain', result⟩ := kept.ended geo (outcome_steady _) ended
      exact ⟨s'.container, dirs', chain', by simp only [Op.run, run, Option.map_some], result⟩
    | some i =>
      obtain ⟨inside, matched, _⟩ := Geometry.lookup_some.mp found
      have live : f.standard.LiveAt c.data dirs i := by
        rw [← geo]
        exact ⟨inside, liveMatch_live matched⟩
      have closed : fileType ((D64.new f (c.seek 0)).geo.entryOf (D64.new f (c.seek 0)).container.data dirs i) =
          0x82 := by
        rw [geo]
        exact h.closed i live
      obtain ⟨s₁, d', s', released, looks₁, run, ended⟩ := D64.save_over whole ⟨rfl, rfl⟩ full sound h.short path
        name single plain h.standard.steady found (by rw [closed]; decide) (h.bounded i) chunks
      rw [geo] at released
      have data := looks₁.data
      dsimp only at data
      rw [geo] at data
      have scratched := h.scratched live released data looks₁.size looks₁.fault
      obtain ⟨dirs', chain', result⟩ := scratched.ended (looks₁.geo.trans geo) (outcome_steady _) ended
      exact ⟨s'.container, dirs', chain', by simp only [Op.run, run, Option.map_some], result⟩
  · obtain ⟨r, s', resolve, looks', noFile, kind⟩ := h.resolvePath_other start path fun name same => single ⟨name, same⟩
    have looks := start.trans looks'
    rcases kind with empty | ⟨rfl, parent⟩
    · refine refuses s' ?_ looks
      unfold D64.seekPathOut
      simp only [plain, Bool.false_eq_true, if_false, resolve, Option.bind_some, empty, List.getLast?_nil]
      cases r with
      | dir | notFound => rfl
      | file => exact absurd rfl noFile
    · obtain ⟨s'', seek, looks''⟩ := h.seekDirectory_fails looks _ parent
      refine refuses s'' ?_ (looks.trans looks'')
      unfold D64.seekPathOut
      simp only [plain, Bool.false_eq_true, if_false, resolve, Option.bind_some]
      cases last : (splitPathComponents path).getLast? with
      | none =>
        rw [List.getLast?_eq_none_iff.mp last] at parent
        exact absurd rfl parent
      | some name => simp only [seek, Option.map_some, Bool.false_eq_true, if_false]

theorem remove (h : Kept f c dirs chain) (path : Str) :
    ∃ c' dirs' chain', (Op.remove path).run f c = some c' ∧ Kept f c' dirs' chain' := by
  have start := D64.Looks.refl (D64.new f (c.seek 0))
  -- nothing is scratched
  have refuses : ∀ r q, (D64.new f (c.seek 0)).resolvePath path = some (r, q) → r ≠ .file →
      D64.Looks (D64.new f (c.seek 0)) q →
      ∃ c' dirs' chain', (Op.remove path).run f c = some c' ∧ Kept f c' dirs' chain' := by
    intro r q resolve noFile looks
    refine ⟨q.container, dirs, chain, ?_, h.same looks.data looks.size looks.fault⟩
    simp only [Op.run, D64.removeFile, resolve, Option.map_some, if_neg noFile]
  by_cases single : ∃ name, splitPathComponents path = [name]
  · obtain ⟨name, single⟩ := single
    obtain ⟨whole, full, geo, _, kept⟩ := h.opened start
    have sound : Sound (D64.new f (c.seek 0)).geo (D64.new f (c.seek 0)).container.data dirs chain := by
      rw [geo]
      exact h.sound
    cases found : (D64.new f (c.seek 0)).geo.lookup (D64.new f (c.seek 0)).container.data dirs (liveMatch name) with
    | none =>
      have resolve := D64.resolvePath_missing whole sound h.short path name single full found
      exact refuses _ _ resolve (by decide) (D64.resolvePath_walks _ path _ resolve).looks
    | some i =>
      obtain ⟨inside, matched, _⟩ := Geometry.lookup_some.mp found
      have live : f.standard.LiveAt c.data dirs i := by
        rw [← geo]
        exact ⟨inside, liveMatch_live matched⟩
      have closed : fileType ((D64.new f (c.seek 0)).geo.entryOf (D64.new f (c.seek 0)).container.data dirs i) =
          0x82 := by
        rw [geo]
        exact h.closed i live
      obtain ⟨s', d', run, released, reach⟩ := D64.removeFile_root whole h.standard.steady full sound h.short path name
        single found closed (h.bounded i)
      rw [geo] at released reach
      have size := reach.size ((D64.onEntry_looks _ dirs i).whole whole)
      exact ⟨s'.container, dirs, _, by simp only [Op.run, run, Option.map_some],
        h.scratched live released reach.data size reach.fault⟩
  · obtain ⟨r, s', resolve, looks, noFile, _⟩ := h.resolvePath_other start path fun name same => single ⟨name, same⟩
    exact refuses r s' resolve noFile looks

theorem unremove (h : Kept f c dirs chain) (path : Str) :
    ∃ c' dirs' chain', (Op.unremove path).run f c = some c' ∧ Kept f c' dirs' chain' := by
  have start := D64.Looks.refl (D64.new f (c.seek 0))
  have refuses : ∀ q, (D64.new f (c.seek 0)).unremoveFile path = some (false, q) →
      D64.Looks (D64.new f (c.seek 0)) q →
      ∃ c' dirs' chain', (Op.unremove path).run f c = some c' ∧ Kept f c' dirs' chain' := by
    intro q run looks
    refine ⟨q.container, dirs, chain, ?_, h.same looks.data looks.size looks.fault⟩
    simp only [Op.run, run, Option.map_some]
  cases split : splitPathComponents path with
  | nil =>
    refine refuses (D64.new f (c.seek 0)) ?_ start
    unfold D64.unremoveFile
    rw [split]
    rfl
  | cons a rest =>
    cases rest with
    | nil =>
      obtain ⟨whole, full, geo, _, kept⟩ := h.opened start
      have sound : Sound (D64.new f (c.seek 0)).geo (D64.new f (c.seek 0)).container.data dirs chain := by
        rw [geo]
        exact h.sound
      have run := D64.unremoveFile_root whole full sound h.short path a split
      cases found : (D64.new f (c.seek 0)).geo.lookup (D64.new f (c.seek 0)).container.data dirs
          (scratchedMatch a) with
      | none =>
        rw [found] at run
        exact refuses _ run (D64.onEntry_looks _ dirs _)
      | some i =>
        rw [found] at run
        obtain ⟨inside, matched, _⟩ := Geometry.lookup_some.mp found
        obtain ⟨r, s', result, refused, accepted⟩ := D64.unscratchEntry_root whole h.standard.steady sound inside
        have looks := D64.onEntry_looks (D64.new f (c.seek 0)) dirs i
        have run : (D64.new f (c.seek 0)).unremoveFile path = some (r, s') := run.trans (congrArg some result)
        cases r with
        | false =>
          obtain ⟨reach, _⟩ := refused rfl
          refine ⟨s'.container, dirs, chain, by simp only [Op.run, run, Option.map_some], ?_⟩
          exact h.same reach.data (reach.size (looks.whole whole)) (reach.fault.trans h.standard.steady.symm)
        | true =>
          obtain ⟨l, d', file, _, _, fresh, allocated, reach⟩ := accepted rfl
          have vacant := scratchedMatch_vacant matched
          rw [geo] at vacant file fresh allocated reach
          exact ⟨s'.container, dirs, _, by simp only [Op.run, run, Option.map_some],
            h.recovered inside vacant file fresh allocated reach.data (reach.size (looks.whole whole)) reach.fault⟩
    | cons b rest =>
      obtain ⟨s', seek, looks⟩ := h.seekDirectory_fails start _ (parentPath_components split)
      refine refuses s' ?_ looks
      unfold D64.unremoveFile
      rw [split]
      have last : (a :: b :: rest).getLast? = some ((a :: b :: rest).getLast (by simp)) :=
        List.getLast?_eq_some_getLast _
      rw [last]
      simp only [seek, Option.bind_some, Bool.false_eq_true, if_false]

/-- One operation. -/
theorem step (h : Kept f c dirs chain) (op : Op) (plain : op.Plain) :
    ∃ c' dirs' chain', op.run f c = some c' ∧ Kept f c' dirs' chain' := by
  cases op with
  | save path chunks => exact h.save path chunks plain
  | remove path => exact h.remove path
  | unremove path => exact h.unremove path

/-- Any number of operations. -/
theorem run (h : Kept f c dirs chain) (ops : List Op) (plain : ∀ op ∈ ops, op.Plain) :
    ∃ c' dirs' chain', Op.runAll f ops c = some c' ∧ Kept f c' dirs' chain' := by
  induction ops generalizing c dirs chain with
  | nil => exact ⟨c, dirs, chain, rfl, h⟩
  | cons op ops ih =>
    obtain ⟨c₁, dirs₁, chain₁, first, kept⟩ := h.step op (plain op List.mem_cons_self)
    obtain ⟨c₂, dirs₂, chain₂, rest, result⟩ := ih kept fun o ho => plain o (List.mem_cons_of_mem _ ho)
    refine ⟨c₂, dirs₂, chain₂, ?_, result⟩
    rw [Op.runAll, first]
    exact rest

end Kept

/-- For every writable class with its default geometry, every label and every session that
starts on the image `formatImage` lays down: each operation returns and the image stays
structurally sound. -/
theorem session_intact (f : Format) (name id : Str) (labelled : D64.Labelled name id) (ops : List Op)
    (plain : ∀ op ∈ ops, op.Plain) : ∃ c, Op.runAll f ops (D64.format f name id) = some c ∧ Intact f c := by
  obtain ⟨standard, formatted⟩ := format_standard f name id labelled
  have kept : Kept f (D64.format f name id) [f.standard.directoryStart] (fun _ => []) :=
    ⟨standard, formatted.sound f.standard_formattable, fun i live => absurd live (formatted.dead i)⟩
  obtain ⟨c, dirs, chain, run, result⟩ := kept.run ops plain
  exact ⟨c, run, result.intact⟩

/-- Two saves under one name, a scratch and an unscratch on a blank D71. -/
theorem session_intact_d71 : ∃ c, Op.runAll .d71 [.save [0x61] [[0x2A], [0x2B]], .save [0x61] [], .remove [0x61],
    .unremove [0x61]] (D64.format .d71 [] []) = some c ∧ Intact .d71 c := by
  refine session_intact .d71 [] [] ⟨by decide, by decide⟩ _ ?_
  intro op member
  rcases List.mem_cons.mp member with rfl | member
  · exact (by decide : endsWithHash [0x61] = false)
  · rcases List.mem_cons.mp member with rfl | member
    · exact (by decide : endsWithHash [0x61] = false)
    · rcases List.mem_cons.mp member with rfl | member
      · trivial
      · obtain rfl := List.mem_singleton.mp member
        trivial

end Meatloaf.Disk
