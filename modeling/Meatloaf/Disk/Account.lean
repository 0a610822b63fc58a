import Meatloaf.Disk.Contents
import Meatloaf.Disk.Room

/-! The free count that an image reports, and the saves it covers. -/
namespace Meatloaf.Disk

open Lib

/- Every track is counted once, but for a directory track. -/
theorem Format.counted_eq (f : Format) :
    D64.counted f.standard = (D64.upTo 1 f.standard.last_track).filter (D64.Counts f.standard) := by
  cases f <;> decide +kernel

namespace Geometry

variable (g : Geometry) (d : Nat → UInt8)

/-- The free blocks of the counted tracks. -/
def freeData : List Block :=
  (D64.counted g).flatMap fun t => ((List.range (g.getSectorCount t)).map (Block.mk t)).filter (g.free d)

theorem length_freeData : (g.freeData d).length = ((D64.counted g).map (g.freeCount d)).sum := by
  unfold freeData
  rw [List.length_flatMap]
  congr 1
  refine List.map_congr_left fun t _ => ?_
  rw [← List.countP_eq_length_filter, List.countP_map]
  rfl

variable {g d}

theorem mem_freeData (tracks : D64.counted g = (D64.upTo 1 g.last_track).filter (D64.Counts g)) {b : Block} :
    b ∈ g.freeData d ↔ g.Data b ∧ g.free d b = true := by
  have counts : D64.Counts g b.track = true ↔
      ¬ (g.format.dedicated_directory_track = true ∧ b.track = g.directory_track) := by
    unfold D64.Counts
    rw [Bool.not_eq_true', ← Bool.not_eq_true, Bool.and_eq_true, beq_iff_eq]
  unfold freeData Data Inside
  rw [tracks]
  constructor
  · intro member
    obtain ⟨t, counted, inside⟩ := List.mem_flatMap.mp member
    obtain ⟨block, free⟩ := List.mem_filter.mp inside
    obtain ⟨x, small, rfl⟩ := List.mem_map.mp block
    obtain ⟨range, counted⟩ := List.mem_filter.mp counted
    exact ⟨⟨⟨(mem_upTo.mp range).1, (mem_upTo.mp range).2, List.mem_range.mp small⟩, counts.mp counted⟩, free⟩
  · rintro ⟨⟨⟨first, last, small⟩, data⟩, free⟩
    refine List.mem_flatMap.mpr ⟨b.track, List.mem_filter.mpr ⟨mem_upTo.mpr ⟨first, last⟩, counts.mpr data⟩, ?_⟩
    exact List.mem_filter.mpr ⟨List.mem_map.mpr ⟨b.sector, List.mem_range.mpr small, rfl⟩, free⟩

theorem nodup_freeData (tracks : D64.counted g = (D64.upTo 1 g.last_track).filter (D64.Counts g)) :
    (g.freeData d).Nodup := by
  unfold freeData
  rw [tracks, List.nodup_flatMap]
  constructor
  · intro t _
    refine List.Nodup.filter _ (List.Nodup.map ?_ List.nodup_range)
    exact fun x y same => (Block.mk.inj same).2
  · have tracks : ((D64.upTo 1 g.last_track).filter (D64.Counts g)).Nodup := by
      refine List.Nodup.filter _ (List.Nodup.map ?_ List.nodup_range)
      exact fun x y same => by omega
    refine tracks.imp ?_
    intro t u other b first second
    obtain ⟨x, -, rfl⟩ := List.mem_map.mp (List.mem_of_mem_filter first)
    obtain ⟨y, -, same⟩ := List.mem_map.mp (List.mem_of_mem_filter second)
    exact other (Block.mk.inj same).1.symm

/-- A block is taken off the free ones. -/
theorem freeData_allocate (v : g.Valid) (tracks : D64.counted g = (D64.upTo 1 g.last_track).filter (D64.Counts g))
    {b : Block} (data : g.Data b) (free : g.free d b = true) :
    (g.freeData (g.setFree d b true)).length + 1 = (g.freeData d).length := by
  have member := (mem_freeData tracks).mpr ⟨data, free⟩
  have same : (g.freeData (g.setFree d b true)).Perm ((g.freeData d).erase b) := by
    rw [List.perm_ext_iff_of_nodup (nodup_freeData tracks) ((nodup_freeData tracks).erase b)]
    intro c
    rw [(nodup_freeData tracks).mem_erase_iff, mem_freeData tracks, mem_freeData tracks,
      free_allocate v (data.1.represented v), Bool.and_eq_true, decide_eq_true_iff]
    tauto
  have some := List.length_pos_of_mem member
  rw [same.length_eq, List.length_erase_of_mem member]
  omega

/-- The search takes one block after the other, as long as there are some. -/
theorem growPlan_complete_iff (v : g.Valid) (tracks : D64.counted g = (D64.upTo 1 g.last_track).filter (D64.Counts g))
    (place : Block × Nat) (dirs : List Block) (n : Nat) (prev : Block) (start : g.Data prev) :
    (g.growPlan (some place) dirs n d prev).any Write.isEntry = true ↔ n ≤ (g.freeData d).length := by
  induction n generalizing d prev with
  | zero =>
    refine iff_of_true ?_ (Nat.zero_le _)
    rfl
  | succ n ih =>
    unfold growPlan
    cases found : g.pick d false prev.track prev.sector with
    | none =>
      have empty : g.freeData d = [] := by
        refine List.eq_nil_iff_forall_not_mem.mpr fun b member => ?_
        obtain ⟨data, free⟩ := (mem_freeData tracks).mp member
        rw [pickData_none v found data] at free
        cases free
      rw [empty]
      simp
    | some b =>
      obtain ⟨data, free⟩ := pickData_some v (fun _ => start.2) found
      have taken := freeData_allocate v tracks data free
      have rest := ih (d := g.setFree d b true) b data
      simp only [List.any_append, List.any_cons, mapWrites_before, Bool.false_or, Write.isEntry]
      rw [rest]
      omega

/-- With a slot for the entry, a plan is complete exactly when the free blocks cover the file. -/
theorem savePlan_complete_iff (v : g.Valid) (tracks : D64.counted g = (D64.upTo 1 g.last_track).filter (D64.Counts g))
    {dirs : List Block} {i : Nat} (slot : i < 8 * dirs.length) (early : i / 8 < 1001)
    (vacant : fileType (g.entryOf d dirs i) = 0) {n : Nat} (positive : 0 < n) :
    (g.savePlan d dirs n).any Write.isEntry = true ↔ n ≤ (g.freeData d).length := by
  obtain ⟨place, among⟩ : ∃ place, g.vacantSlot d dirs = some place := by
    cases among : g.vacantSlot d dirs with
    | some place => exact ⟨place, rfl⟩
    | none => exact absurd vacant (slotAmong_none among slot early)
  unfold savePlan
  cases found : g.pick d false 0 0 with
  | none =>
    have empty : g.freeData d = [] := by
      refine List.eq_nil_iff_forall_not_mem.mpr fun b member => ?_
      obtain ⟨data, free⟩ := (mem_freeData tracks).mp member
      rw [pickData_none (t := 0) (x := 0) v found data] at free
      cases free
    rw [empty, List.length_nil]
    simp only [List.any_nil, Bool.false_eq_true, false_iff]
    omega
  | some b =>
    obtain ⟨data, free⟩ := pickData_some (t := 0) (x := 0) v (fun later => absurd rfl later) found
    have taken := freeData_allocate v tracks data free
    have rest := growPlan_complete_iff (d := g.setFree d b true) v tracks place dirs (n - 1) b data
    dsimp only
    rw [among, List.any_append, mapWrites_before, Bool.false_or, rest]
    omega

end Geometry

namespace Stores

variable {f : Format} {c : Container} {dirs : List Block} {chain : Nat → List Block} {file : Nat → Option (Str × Str)}
variable {m : Str → Option Str} {path name : Str} {i : Nat}

/-- The free blocks that are reported are the ones a file may be given. -/
theorem blocksFree (h : Stores f c dirs chain file) :
    (D64.new f c).blocksFree.1 = (f.standard.freeData c.data).length := by
  have reported := h.kept.intact.blocksFree
  rw [h.kept.standard.geo] at reported
  rw [reported, Geometry.length_freeData]
  congr 1
  refine List.map_congr_left fun t counted => ?_
  rw [f.counted_eq] at counted
  have range := Geometry.mem_upTo.mp (List.mem_of_mem_filter counted)
  exact Geometry.countBits_bitmap (f.standard_formattable.valid.track t range.1 range.2) (h.kept.sound.bam.spare t)

/-- A save under a new name, with a slot for its entry, goes through exactly when the free count covers it. -/
theorem save_iff (h : Stores f c dirs chain file) (keyed : Keyed file m) (filed : Filed path name) (new : m name = none)
    (slot : i < 8 * dirs.length) (early : i / 8 < 1001) (vacant : file i = none) (chunks : List Str) :
    ∃ s, (D64.new f (c.seek 0)).save path chunks = some s ∧
      (s.error = 0 ↔ D64.blocksFor chunks.flatten.length ≤ (D64.new f c).blocksFree.1) := by
  obtain ⟨whole, full, geo, data, kept⟩ := h.kept.opened (D64.Looks.refl _)
  have sound : Sound (D64.new f (c.seek 0)).geo (D64.new f (c.seek 0)).container.data dirs chain := by
    rw [geo]
    exact h.kept.sound
  have missing := h.lookup_none keyed filed new
  rw [← geo, ← data] at missing
  obtain ⟨s, run, ended⟩ := D64.save_new whole ⟨rfl, rfl⟩ full sound h.kept.short path name filed.single filed.whole
    missing chunks (.steady h.kept.standard.steady)
  refine ⟨s, run, ?_⟩
  have unused : fileType (f.standard.entryOf c.data dirs i) = 0 := by
    by_contra used
    obtain ⟨n, q, there, -⟩ := h.filled i ⟨slot, used⟩
    rw [vacant] at there
    cases there
  have positive : 0 < D64.blocksFor chunks.flatten.length := by
    unfold D64.blocksFor
    omega
  have complete := Geometry.savePlan_complete_iff f.standard_formattable.valid f.counted_eq slot early unused positive
  rw [h.blocksFree, ← complete]
  rw [geo, data] at ended
  unfold outcome at ended
  rw [Option.bind_none] at ended
  dsimp only at ended
  rcases ended with failed | ⟨done, _, _, _, saved⟩
  · refine iff_of_false failed.error fun all => failed.cause ?_
    rw [if_pos all]
  · refine iff_of_true saved.error ?_
    by_contra some
    rw [if_neg some] at done
    cases done

end Stores

/-- A slot of the directory `dirs` that a save looks at is not in use. -/
def Roomy (f : Format) (c : Container) (dirs : List Block) : Prop :=
  ∃ i < 8 * dirs.length, i / 8 < 1001 ∧ fileType (f.standard.entryOf c.data dirs i) = 0

/-- After any session of saves and scratches, a save under a new name with a slot for its entry reports success
exactly when the number of free blocks that the image reports covers the file. -/
theorem session_free_count (f : Format) (name id : Str) (labelled : D64.Labelled name id) (ops : List Op)
    (files : ∀ op ∈ ops, op.OnFiles) :
    ∃ reports c m dirs, Op.reportAll f ops (D64.format f name id) = some (reports, c) ∧
      Op.Assigns ops reports (fun _ => none) m ∧ f.standard.ChainAt c.data f.standard.directoryStart dirs ∧
      ∀ path n chunks, Filed path n → m n = none → Roomy f c dirs →
        ∃ s, (D64.new f (c.seek 0)).save path chunks = some s ∧
          (s.error = 0 ↔ D64.blocksFor chunks.flatten.length ≤ (D64.new f c).blocksFree.1) := by
  obtain ⟨reports, c, m, dirs, chain, file, run, assigns, stores, keyed⟩ :=
    (Stores.blank f labelled).run Keyed.empty ops files
  refine ⟨reports, c, m, dirs, run, assigns, stores.kept.sound.directory, ?_⟩
  rintro path n chunks filed new ⟨i, slot, early, vacant⟩
  exact stores.save_iff keyed filed new slot early (stores.vacant i fun live => live.2 vacant) chunks

/-- One save on a blank D64, and then another one. -/
theorem session_free_count_d64 : ∃ reports c m dirs, Op.reportAll .d64 [.save [0x61] [[0x2A]]]
    (D64.format .d64 [] []) = some (reports, c) ∧ Op.Assigns [.save [0x61] [[0x2A]]] reports (fun _ => none) m ∧
    Format.d64.standard.ChainAt c.data Format.d64.standard.directoryStart dirs ∧
    ∀ path n chunks, Filed path n → m n = none → Roomy .d64 c dirs →
      ∃ s, (D64.new .d64 (c.seek 0)).save path chunks = some s ∧
        (s.error = 0 ↔ D64.blocksFor chunks.flatten.length ≤ (D64.new .d64 c).blocksFree.1) := by
  have a : Filed [0x61] [0x61] := Filed.of_ascii (List.forall_mem_singleton.mpr (by decide)) (by decide) (by decide)
    (List.forall_mem_singleton.mpr (by decide)) (by decide)
  refine session_free_count .d64 [] [] ⟨by decide, by decide⟩ _ ?_
  intro op member
  obtain rfl := List.mem_singleton.mp member
  exact ⟨_, a⟩

end Meatloaf.Disk
