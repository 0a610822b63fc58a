import Meatloaf.Disk.Scratch

/-! The container writes of a streamed save in order, as a function of the image and
of the number of blocks the file takes. A save writes the map before the block it
was claimed for, and the block before the one after it is known to be recorded. -/
namespace Meatloaf.Disk

open Lib

/-- What a container write is for. -/
inductive Write where
  | map | count | block | last | link | entry (extended : Bool)
  deriving DecidableEq, Repr

namespace Write

/- Writes that leave something behind when they fail: a full block, whose successor
is claimed but not recorded yet; the side-2 count of a D71, after the bitmap; the
entry in a sector the directory was just extended by. -/
def Exposed : Write → Prop
  | block | count | entry true => True
  | map | last | link | entry false => False

/- The last write of a save that goes through. -/
def isEntry : Write → Bool
  | entry _ => true
  | map | count | block | last | link => false

instance : DecidablePred Exposed := fun w => by
  cases w with
  | entry extended => cases extended <;> unfold Exposed <;> infer_instance
  | map | count | block | last | link => unfold Exposed; infer_instance

end Write

/-- How a save ends: with its entry written, without room for it, or with a write that
the container refused. -/
inductive Outcome where
  | complete | full | refused (w : Write)
  deriving DecidableEq, Repr

/- The refused write is one that leaves something behind. -/
def Outcome.Exposed : Outcome → Prop
  | .refused w => w.Exposed
  | .complete | .full => False

/-- What comes of a plan when the container refuses one write of it, or none. A plan that
stops before the entry is one that ran out of room. -/
def outcome (plan : List Write) (fault : Option Nat) : Outcome :=
  match fault.bind fun k => plan[k]? with
  | some w => .refused w
  | none => if plan.any Write.isEntry then .complete else .full

/- Nothing is left behind when no write is refused. -/
theorem outcome_steady (plan : List Write) : ¬ (outcome plan none).Exposed := by
  unfold outcome
  rw [Option.bind_none]
  dsimp only
  split <;> exact id

/-- The plan comes to `o`, and the refused write is one of it, if there is one at all. -/
structure Fate (plan : List Write) (fault : Option Nat) (o : Outcome) : Prop where
  outcome : outcome plan fault = o
  within : ∀ k, fault = some k → k < plan.length

namespace Fate

variable {ws plan : List Write} {w : Write} {fault : Option Nat} {o : Outcome}

theorem steady (taken : fault = none) : Fate plan fault (Disk.outcome plan none) := by
  rw [taken]
  exact ⟨rfl, fun k no => by cases no⟩

theorem nil (h : Fate [] fault o) : fault = none ∧ o = .full := by
  cases fault with
  | none => exact ⟨rfl, h.outcome.symm⟩
  | some k => exact absurd (h.within k rfl) (Nat.not_lt_zero k)

/- Writes that were taken. -/
theorem skip (h : Fate (ws ++ plan) fault o) (before : ws.any Write.isEntry = false)
    (later : ∀ k < ws.length, fault ≠ some k) : Fate plan (fault.map (· - ws.length)) o := by
  cases fault with
  | none =>
    refine ⟨?_, fun k no => by cases no⟩
    rw [← h.outcome]
    simp only [Disk.outcome, Option.map_none, Option.bind_none, List.any_append, before, Bool.false_or]
  | some k =>
    have beyond : ws.length ≤ k := Nat.le_of_not_lt fun early => later k early rfl
    have bound := h.within k rfl
    rw [List.length_append] at bound
    constructor
    · rw [← h.outcome]
      simp only [Disk.outcome, Option.map_some, Option.bind_some, List.getElem?_append_right beyond, List.any_append,
        before, Bool.false_or]
    · intro j same
      have place : k - ws.length = j := Option.some.inj same
      omega

theorem next (h : Fate (w :: plan) fault o) (before : w.isEntry = false) (taken : fault ≠ some 0) :
    Fate plan (fault.map (· - 1)) o := by
  have split : Fate ([w] ++ plan) fault o := h
  refine split.skip (by simpa using before) ?_
  intro k early
  rw [List.length_singleton] at early
  obtain rfl : k = 0 := by omega
  exact taken

theorem refused (h : Fate plan fault o) {k : Nat} (here : fault = some k) (at_ : plan[k]? = some w) :
    o = .refused w := by
  rw [← h.outcome, here]
  simp only [Disk.outcome, Option.bind_some, at_]

theorem entry {extended : Bool} (h : Fate [.entry extended] fault o) (taken : fault ≠ some 0) :
    fault = none ∧ o = .complete := by
  cases fault with
  | none => exact ⟨rfl, h.outcome.symm⟩
  | some k =>
    have bound := h.within k rfl
    rw [List.length_singleton] at bound
    exact absurd (congrArg some (Nat.lt_one_iff.mp bound)) taken

end Fate

namespace Geometry

variable (g : Geometry)

/- Marking a block of the track in the BAM. -/
def mapWrites (t : Nat) : List Write := if g.Side2 t then [.map, .count] else [.map]

/- The block a search settles on. -/
def pick (d : Nat → UInt8) (forDirectory : Bool) (t x : Nat) : Option Block :=
  if forDirectory then g.pickDirectory d t x else g.pickData d t x

/- The first vacant slot among `n` sectors of a directory. -/
def slotAmong (d : Nat → UInt8) (dirs : List Block) (n : Nat) : Option (Block × Nat) :=
  (dirs.take n).findSome? fun b => (D64.freeSlot (Store.read d (g.addr b) 256)).map (b, ·)

/- `finalizeFileWrite` gives up after 1001 sectors. -/
def vacantSlot (d : Nat → UInt8) (dirs : List Block) : Option (Block × Nat) := g.slotAmong d dirs 1001

/- The last block, then the entry; the directory grows when it is full. -/
def entryPlan (slot : Option (Block × Nat)) (dirs : List Block) (d : Nat → UInt8) : List Write :=
  .last :: match slot with
    | some _ => [.entry false]
    | none =>
      let tail := dirs.getLastD ⟨0, 0⟩
      if dirs.length ≤ 1001 then
        match g.pick d true tail.track tail.sector with
        | none => []
        | some b => g.mapWrites b.track ++ [.link, .entry true]
      else []

/- `n` more blocks after `prev`, each claimed before `prev` goes out. -/
def growPlan (slot : Option (Block × Nat)) (dirs : List Block) : Nat → (Nat → UInt8) → Block → List Write
  | 0, d, _ => g.entryPlan slot dirs d
  | n + 1, d, prev =>
    match g.pick d false prev.track prev.sector with
    | none => []
    | some b => g.mapWrites b.track ++ .block :: growPlan slot dirs n (g.setFree d b true) b

/-- All writes of a save of `n` blocks. -/
def savePlan (d : Nat → UInt8) (dirs : List Block) (n : Nat) : List Write :=
  match g.pick d false 0 0 with
  | none => []
  | some b => g.mapWrites b.track ++ g.growPlan (g.vacantSlot d dirs) dirs (n - 1) (g.setFree d b true) b

variable {g} {d d' : Nat → UInt8}

theorem length_mapWrites (t : Nat) : (g.mapWrites t).length = g.bamWrites t := by
  unfold mapWrites bamWrites
  split <;> rfl

theorem mapWrites_before (t : Nat) : (g.mapWrites t).any Write.isEntry = false := by
  unfold mapWrites
  split <;> rfl

/- A search looks at nothing but the free blocks. -/
theorem pick_congr (same : ∀ b, g.free d' b = g.free d b) (forDirectory : Bool) (t x : Nat) :
    g.pick d' forDirectory t x = g.pick d forDirectory t x := by
  have free : g.free d' = g.free d := funext same
  unfold pick pickDirectory pickData pickFirst pickNext sweep pickOn
  rw [free]

theorem pick_some (v : g.Valid) {forDirectory : Bool} {t x : Nat} {b : Block}
    (h : g.pick d forDirectory t x = some b) : g.Inside b ∧ g.free d b = true := by
  cases forDirectory with
  | true => exact pickDirectory_some v h
  | false =>
    have h : g.pickData d t x = some b := h
    unfold pickData at h
    split at h
    · obtain ⟨data, free⟩ := pickFirst_some v h
      exact ⟨data.1, free⟩
    · rcases Option.or_eq_some_iff.mp h with here | ⟨_, swept⟩
      · obtain ⟨inside, free, _⟩ := pickOn_some v here
        exact ⟨inside, free⟩
      · obtain ⟨data, free⟩ := sweep_some v swept
        exact ⟨data.1, free⟩

theorem slotAmong_congr {dirs : List Block}
    (same : ∀ b ∈ dirs, ∀ i < 256, d' (g.addr b + i) = d (g.addr b + i)) (n : Nat) :
    g.slotAmong d' dirs n = g.slotAmong d dirs n := by
  have sectors : ∀ b ∈ dirs.take n, (D64.freeSlot (Store.read d' (g.addr b) 256)).map (fun x => (b, x)) =
      (D64.freeSlot (Store.read d (g.addr b) 256)).map (fun x => (b, x)) := by
    intro b member
    rw [Store.read_congr (same b (List.mem_of_mem_take member))]
  unfold slotAmong
  generalize dirs.take n = l at sectors
  induction l with
  | nil => rfl
  | cons b l ih =>
    rw [List.findSome?_cons, List.findSome?_cons, sectors b List.mem_cons_self,
      ih fun c hc => sectors c (List.mem_cons_of_mem _ hc)]

/- The byte a directory slot is told to be vacant by. -/
theorem slot_type {dirs : List Block} {i : Nat} :
    (Store.read d (g.addr (dirs.getD (i / 8) ⟨0, 0⟩)) 256).getD (i % 8 * 32 + 2) 0 = fileType (g.entryOf d dirs i) := by
  unfold fileType entryOf slotAddr
  rw [Store.getD_read _ _ _ _ _ (by omega), Store.getD_read _ _ _ _ _ (by decide)]
  congr 1
  omega

/- The slot that was found has a number, nothing lives there, and no earlier slot is
vacant. -/
theorem slotAmong_some {dirs : List Block} {n : Nat} {b : Block} {x : Nat}
    (found : g.slotAmong d dirs n = some (b, x)) :
    ∃ i, i < 8 * dirs.length ∧ i / 8 < n ∧ dirs.getD (i / 8) ⟨0, 0⟩ = b ∧ i % 8 = x ∧
      fileType (g.entryOf d dirs i) = 0 ∧
      ∀ j < 8 * dirs.length, fileType (g.entryOf d dirs j) = 0 → i ≤ j := by
  obtain ⟨before, c, after, parts, here, none⟩ := List.findSome?_eq_some_iff.mp found
  obtain ⟨y, free, pair⟩ := Option.map_eq_some_iff.mp here
  obtain ⟨rfl, rfl⟩ := Prod.mk.inj pair
  have small := List.mem_range.mp (List.mem_of_find?_eq_some free)
  have lengths := congrArg List.length parts
  rw [List.length_take, List.length_append, List.length_cons] at lengths
  have sector : ∀ k, k < dirs.length → k < n → (dirs.take n).getD k ⟨0, 0⟩ = dirs.getD k ⟨0, 0⟩ := by
    intro k inside within
    rw [List.getD_eq_getElem _ _ (by rw [List.length_take]; omega), List.getElem_take,
      List.getD_eq_getElem _ _ inside]
  have at_ : dirs.getD before.length ⟨0, 0⟩ = c := by
    rw [← sector _ (by omega) (by omega), parts, List.getD_append_right _ _ _ _ (Nat.le_refl _), Nat.sub_self]
    rfl
  have high : (8 * before.length + y) / 8 = before.length := by omega
  have low : (8 * before.length + y) % 8 = y := by omega
  have vacant := List.find?_some free
  rw [beq_iff_eq] at vacant
  refine ⟨8 * before.length + y, by omega, by omega, by rw [high]; exact at_, low, ?_, ?_⟩
  · rw [← slot_type, high, low, at_]
    exact vacant
  · intro j inside scratched
    by_contra early
    rw [← slot_type] at scratched
    by_cases same : j / 8 = before.length
    · -- an earlier slot of the same sector
      rw [same, at_] at scratched
      have passed := (List.find?_range_eq_some.mp free).2.2 (j % 8) (by omega)
      rw [scratched] at passed
      exact absurd passed (by decide)
    · have member : dirs.getD (j / 8) ⟨0, 0⟩ ∈ before := by
        rw [← sector (j / 8) (by omega) (by omega), parts, List.getD_append _ _ _ _ (by omega),
          List.getD_eq_getElem _ _ (by omega)]
        exact List.getElem_mem _
      have passed := List.find?_eq_none.mp (Option.map_eq_none_iff.mp (none _ member)) (j % 8)
        (List.mem_range.mpr (Nat.mod_lt _ (by decide)))
      rw [beq_iff_eq] at passed
      exact passed scratched

theorem slotAmong_none {dirs : List Block} {n : Nat} (none : g.slotAmong d dirs n = none) {i : Nat}
    (inside : i < 8 * dirs.length) (within : i / 8 < n) : fileType (g.entryOf d dirs i) ≠ 0 := by
  have member : dirs.getD (i / 8) ⟨0, 0⟩ ∈ dirs.take n := by
    rw [List.getD_eq_getElem _ _ (by omega)]
    exact List.mem_iff_getElem.mpr ⟨i / 8, by rw [List.length_take]; omega, List.getElem_take⟩
  have here := List.findSome?_eq_none_iff.mp none _ member
  have taken := List.find?_eq_none.mp (Option.map_eq_none_iff.mp here) (i % 8)
    (List.mem_range.mpr (Nat.mod_lt _ (by decide)))
  rw [beq_iff_eq, slot_type] at taken
  exact taken

theorem growPlan_congr (v : g.Valid) (same : ∀ b, g.free d' b = g.free d b) (slot : Option (Block × Nat))
    (dirs : List Block) (n : Nat) (prev : Block) :
    g.growPlan slot dirs n d' prev = g.growPlan slot dirs n d prev := by
  induction n generalizing d d' prev with
  | zero =>
    unfold growPlan entryPlan
    dsimp only
    rw [pick_congr same]
  | succ n ih =>
    unfold growPlan
    rw [pick_congr same]
    cases found : g.pick d false prev.track prev.sector with
    | none => rfl
    | some b =>
      have represented := (pick_some v found).1.represented v
      have allocated : ∀ c, g.free (g.setFree d' b true) c = g.free (g.setFree d b true) c := by
        intro c
        rw [free_allocate v represented, free_allocate v represented, same]
      have rest := ih allocated b
      simp only [rest]

end Geometry

namespace D64

section claim

variable (s : D64) (m : Mounted s) (ok : s.geo.BamOk s.container.data) (forDirectory : Bool) (t x : Nat)
include m ok

theorem getNextFreeBlock_pick : ∃ s', s.getNextFreeBlock t x forDirectory =
    (s.geo.pick s.container.data forDirectory t x, s') ∧ Moved s s' := by
  cases forDirectory with
  | true => exact findFreeBlock_directory s m ok.tell t x
  | false => exact findFreeBlock_data s m ok.tell t x

theorem claimBlock_none (full : s.geo.pick s.container.data forDirectory t x = none) :
    ∃ s', s.claimBlock t x forDirectory = (none, s') ∧ Moved s s' := by
  obtain ⟨s', run, moved⟩ := getNextFreeBlock_pick s m ok forDirectory t x
  refine ⟨s', ?_, moved⟩
  simp only [claimBlock, run, full]

variable {b : Block} (found : s.geo.pick s.container.data forDirectory t x = some b)
include found

theorem claimBlock_taken (taken : ∀ k < s.geo.bamWrites b.track, s.container.fault ≠ some k) :
    ∃ s', s.claimBlock t x forDirectory = (some b, s') ∧
      Reaches s (s.geo.setFree s.container.data b true)
        (s.container.fault.map (· - s.geo.bamWrites b.track)) s' := by
  obtain ⟨s₁, run, moved⟩ := getNextFreeBlock_pick s m ok forDirectory t x
  have free := (Geometry.pick_some m.valid found).2
  obtain ⟨s₂, alloc, reach⟩ := allocateBlock_taken s₁ (moved.mounted m) b
    (by rw [moved.geo, moved.data]; exact free) (by rw [moved.geo, moved.fault]; exact taken)
  rw [moved.geo, moved.data, moved.fault] at reach
  refine ⟨s₂, ?_, moved.trans reach⟩
  simp only [claimBlock, run, found, alloc, if_true]

theorem claimBlock_refused (refuses : s.container.fault = some 0) :
    ∃ s', s.claimBlock t x forDirectory = (none, s') ∧ Reaches s s.container.data none s' := by
  obtain ⟨s₁, run, moved⟩ := getNextFreeBlock_pick s m ok forDirectory t x
  have free := (Geometry.pick_some m.valid found).2
  obtain ⟨s₂, alloc, reach⟩ := allocateBlock_refused s₁ (moved.mounted m) b
    (by rw [moved.geo, moved.data]; exact free) (moved.fault.trans refuses)
  rw [moved.data] at reach
  refine ⟨s₂, ?_, moved.trans reach⟩
  simp only [claimBlock, run, found, alloc, Bool.false_eq_true, if_false]

/-- The bitmap of side 2 is written and its count is not. -/
theorem claimBlock_unmirrored (side : s.geo.Side2 b.track) (refuses : s.container.fault = some 1) :
    ∃ s', s.claimBlock t x forDirectory = (none, s') ∧
      Reaches s (s.geo.mark s.container.data b true) none s' := by
  obtain ⟨s₁, run, moved⟩ := getNextFreeBlock_pick s m ok forDirectory t x
  have free := (Geometry.pick_some m.valid found).2
  obtain ⟨s₂, alloc, reach⟩ := allocateBlock_unmirrored s₁ (moved.mounted m) b
    (by rw [moved.geo, moved.data]; exact free) (by rw [moved.geo]; exact side) (moved.fault.trans refuses)
  rw [moved.geo, moved.data] at reach
  refine ⟨s₂, ?_, moved.trans reach⟩
  simp only [claimBlock, run, found, alloc, Bool.false_eq_true, if_false]

/-- Claiming a block with the rest of the plan still to come: it works, or one of its
own writes is the one refused. -/
theorem claimBlock_cases {plan : List Write} {o : Outcome}
    (fate : Fate (s.geo.mapWrites b.track ++ plan) s.container.fault o) :
    (∃ s' fault, s.claimBlock t x forDirectory = (some b, s') ∧
      Reaches s (s.geo.setFree s.container.data b true) fault s' ∧ Fate plan fault o) ∨
    (∃ s' d', s.claimBlock t x forDirectory = (none, s') ∧ Reaches s d' none s' ∧
      ((o = .refused .map ∧ d' = s.container.data) ∨
       (o = .refused .count ∧ d' = s.geo.mark s.container.data b true))) := by
  have length := Geometry.length_mapWrites (g := s.geo) b.track
  by_cases later : ∀ k < s.geo.bamWrites b.track, s.container.fault ≠ some k
  · left
    obtain ⟨s', run, reach⟩ := claimBlock_taken s m ok forDirectory t x found later
    rw [← length] at later reach
    exact ⟨s', _, run, reach, fate.skip (Geometry.mapWrites_before _) later⟩
  · right
    obtain ⟨k, early, here⟩ : ∃ k, k < s.geo.bamWrites b.track ∧ s.container.fault = some k := by
      by_contra none
      exact later fun k hk same => none ⟨k, hk, same⟩
    have refused : ∀ w, (s.geo.mapWrites b.track)[k]? = some w → o = .refused w := by
      intro w at_
      apply fate.refused here
      rw [List.getElem?_append_left (by rw [length]; exact early)]
      exact at_
    cases k with
    | zero =>
      obtain ⟨s', run, reach⟩ := claimBlock_refused s m ok forDirectory t x found here
      refine ⟨s', _, run, reach, .inl ⟨refused .map ?_, rfl⟩⟩
      unfold Geometry.mapWrites
      split <;> rfl
    | succ k =>
      have side : s.geo.Side2 b.track := by
        by_contra off
        rw [Geometry.bamWrites, if_neg off] at early
        omega
      rw [Geometry.bamWrites, if_pos side] at early
      obtain rfl : k = 0 := by omega
      obtain ⟨s', run, reach⟩ := claimBlock_unmirrored s m ok forDirectory t x found side here
      refine ⟨s', _, run, reach, .inr ⟨refused .count ?_, rfl⟩⟩
      rw [Geometry.mapWrites, if_pos side]
      rfl

end claim

end D64

end Meatloaf.Disk
