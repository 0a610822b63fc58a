import Meatloaf.Disk.Plan

/-! When an image has room for a file. The search takes what it finds, so the room for a
directory sector must be left whatever blocks the file was given. -/
namespace Meatloaf.Disk

open Lib

namespace Geometry

variable (g : Geometry)

/- `n` blocks that a file may be given. -/
def DataRoom (d : Nat → UInt8) (n : Nat) : Prop :=
  ∃ l : List Block, l.Nodup ∧ n ≤ l.length ∧ ∀ b ∈ l, g.Data b ∧ g.free d b = true

/- A block to extend the directory by, whatever `n` blocks the file has taken. A format
with a directory track of its own looks on the track of the last sector only. -/
def DirectoryRoom (d : Nat → UInt8) (tail : Block) (n : Nat) : Prop :=
  ∀ l : List Block, l.length ≤ n → (∀ b ∈ l, g.Data b) →
    ∃ c, c ∉ l ∧ g.Inside c ∧ g.free d c = true ∧
      (g.format.dedicated_directory_track = true → c.track = tail.track)

/-- Room for a file of `n` blocks and its entry. -/
structure Enough (d : Nat → UInt8) (dirs : List Block) (n : Nat) : Prop where
  data : g.DataRoom d n
  entry : (∃ i < 8 * dirs.length, i / 8 < 1001 ∧ fileType (g.entryOf d dirs i) = 0) ∨
    (dirs.length ≤ 1001 ∧ g.DirectoryRoom d (dirs.getLastD ⟨0, 0⟩) n)

variable {g} {d : Nat → UInt8}

/-- The search finds a block while there is one, and leaves room for the rest. -/
theorem DataRoom.pick {n : Nat} (h : g.DataRoom d (n + 1)) (v : g.Valid) (t x : Nat)
    (start : t ≠ 0 → ¬ (g.format.dedicated_directory_track = true ∧ t = g.directory_track)) :
    ∃ b, g.pick d false t x = some b ∧ g.Data b ∧ g.DataRoom (g.setFree d b true) n := by
  obtain ⟨l, nodup, long, free⟩ := h
  cases found : g.pick d false t x with
  | none =>
    cases l with
    | nil => simp at long
    | cons c l =>
      obtain ⟨data, here⟩ := free c List.mem_cons_self
      have gone := pickData_none v found data
      rw [here] at gone
      cases gone
  | some b =>
    obtain ⟨data, _⟩ := pickData_some v start found
    refine ⟨b, rfl, data, l.erase b, nodup.erase b, ?_, ?_⟩
    · have shrinks : l.length - 1 ≤ (l.erase b).length := List.le_length_erase
      omega
    · intro c member
      obtain ⟨other, before⟩ := (nodup.mem_erase_iff).mp member
      refine ⟨(free c before).1, ?_⟩
      rw [free_allocate v (data.1.represented v), (free c before).2]
      simpa using other

theorem DirectoryRoom.take {tail : Block} {n : Nat} (h : g.DirectoryRoom d tail (n + 1)) (v : g.Valid) {b : Block}
    (data : g.Data b) : g.DirectoryRoom (g.setFree d b true) tail n := by
  intro l short blocks
  obtain ⟨c, new, inside, free, near⟩ := h (b :: l) (by simpa using short) (by
    intro e member
    rcases List.mem_cons.mp member with rfl | member
    · exact data
    · exact blocks e member)
  have other : c ≠ b := fun same => new (same ▸ List.mem_cons_self)
  refine ⟨c, fun member => new (List.mem_cons_of_mem _ member), inside, ?_, near⟩
  rw [free_allocate v (data.1.represented v), free]
  simpa using other

theorem DirectoryRoom.pick {tail : Block} {n : Nat} (h : g.DirectoryRoom d tail n) (v : g.Valid)
    (later : tail.track ≠ 0) : ∃ c, g.pick d true tail.track tail.sector = some c := by
  obtain ⟨c, _, inside, free, near⟩ := h [] (Nat.zero_le n) (by simp)
  cases found : g.pick d true tail.track tail.sector with
  | some b => exact ⟨b, rfl⟩
  | none =>
    obtain ⟨track, anywhere⟩ := pickDirectory_none v later found
    cases dedicated : g.format.dedicated_directory_track with
    | true =>
      have here := near dedicated
      have gone := track c.sector (here ▸ inside.2.2)
      rw [← here, free] at gone
      cases gone
    | false =>
      have gone := anywhere dedicated c inside
      rw [free] at gone
      cases gone

/- What the plan of the entry needs. -/
def EntryRoom (slot : Option (Block × Nat)) (dirs : List Block) (d : Nat → UInt8) (n : Nat) : Prop :=
  slot.isSome ∨ (dirs.length ≤ 1001 ∧ g.DirectoryRoom d (dirs.getLastD ⟨0, 0⟩) n)

theorem entryPlan_complete (v : g.Valid) {slot : Option (Block × Nat)} {dirs : List Block}
    (inside : (dirs.getLastD ⟨0, 0⟩).track ≠ 0) (room : EntryRoom (g := g) slot dirs d 0) :
    (g.entryPlan slot dirs d).any Write.isEntry = true := by
  unfold entryPlan
  cases slot with
  | some place => rfl
  | none =>
    rcases room with no | ⟨bounded, left⟩
    · cases no
    · obtain ⟨c, found⟩ := left.pick v inside
      simp only [if_pos bounded, found, List.any_cons, List.any_append, Write.isEntry, List.any_nil, Bool.or_true,
        Bool.or_false]

theorem growPlan_complete (v : g.Valid) {slot : Option (Block × Nat)} {dirs : List Block}
    (inside : (dirs.getLastD ⟨0, 0⟩).track ≠ 0) (n : Nat) (prev : Block) (start : g.Data prev)
    (data : g.DataRoom d n) (entry : EntryRoom (g := g) slot dirs d n) :
    (g.growPlan slot dirs n d prev).any Write.isEntry = true := by
  induction n generalizing d prev with
  | zero => exact entryPlan_complete v inside entry
  | succ n ih =>
    obtain ⟨b, found, dataB, rest⟩ := data.pick v prev.track prev.sector (fun _ => start.2)
    have left : EntryRoom (g := g) slot dirs (g.setFree d b true) n := by
      rcases entry with here | ⟨bounded, room⟩
      · exact .inl here
      · exact .inr ⟨bounded, room.take v dataB⟩
    unfold growPlan
    rw [found]
    simp only [List.any_append, List.any_cons, ih b dataB rest left, Bool.or_true]

/-- With enough room the plan of a save reaches its entry. -/
theorem savePlan_complete (v : g.Valid) {dirs : List Block} (inside : (dirs.getLastD ⟨0, 0⟩).track ≠ 0) {n : Nat}
    (positive : 0 < n) (room : g.Enough d dirs n) : (g.savePlan d dirs n).any Write.isEntry = true := by
  obtain ⟨m, rfl⟩ : ∃ m, n = m + 1 := ⟨n - 1, by omega⟩
  obtain ⟨b, found, data, rest⟩ := room.data.pick v 0 0 (fun later => absurd rfl later)
  have left : EntryRoom (g := g) (g.vacantSlot d dirs) dirs (g.setFree d b true) m := by
    rcases room.entry with ⟨i, slot, early, vacant⟩ | ⟨bounded, spare⟩
    · left
      cases among : g.vacantSlot d dirs with
      | some place => rfl
      | none => exact absurd vacant (slotAmong_none among slot early)
    · exact .inr ⟨bounded, spare.take v data⟩
  unfold savePlan
  rw [found]
  simp only [Nat.add_sub_cancel, List.any_append, growPlan_complete v inside m b data rest left, Bool.or_true]

end Geometry

end Meatloaf.Disk
