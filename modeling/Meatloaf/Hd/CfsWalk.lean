import Meatloaf.Lib.Trail
import Meatloaf.Hd.CfsData

/-! The walk through a CFS directory: a sector, a slot in it and a count are kept between calls, so
that a listing does not begin again for every entry. Reads of sectors may fail. -/
namespace Meatloaf.Hd

open Lib

/- Neither free nor a label. -/
def DirectoryEntry.isListed (de : DirectoryEntry) : Bool := !de.isLabel && !de.isFree

/-- What a pass of the walk looks at from a sector and a slot, and where it stands then. -/
def look (c : Container) : Str × Nat → Option (DirectoryEntry × Str × Nat)
  | (buf, pos) =>
    if 16 ≤ pos then
      if nextDirSector buf = 0 then none
      else (readSector c (nextDirSector buf)).map fun buf => (directoryEntry buf 0, buf, 1)
    else some (directoryEntry buf pos, buf, pos + 1)

namespace HDDStream

/- ## Walks whose reads may fail -/

/-- `readDirSector`, where a read that fails leaves what it has written in the buffer. -/
def readDirSectorOn (failure : Nat → Option Str) (asked lba : Nat) (s : HDDStream) : Bool × HDDStream :=
  let r := sectorDevice s.container failure asked lba s.dir_buf
  (r.1, { s with dir_buf := r.2, walk_lba := if r.1 then lba else 0 })

/-- The loop of `seekEntry(index)` on such reads. The second argument counts them. -/
def walkLoopOn (failure : Nat → Option Str) (index : Nat) : Nat → Nat → HDDStream → Option (Bool × Nat × HDDStream)
  | 0, _, _ => none
  | fuel + 1, asked, s =>
    let advanced : Bool × Nat × HDDStream :=
      if 16 ≤ s.walk_pos then
        if nextDirSector s.dir_buf = 0 then (false, asked, s)
        else
          let (ok, s) := s.readDirSectorOn failure asked (nextDirSector s.dir_buf)
          (ok, asked + 1, if ok then { s with walk_pos := 0 } else s)
      else (true, asked, s)
    match advanced with
    | (false, asked, s) => some (false, asked, s)
    | (true, asked, s) =>
      let de := directoryEntry s.dir_buf s.walk_pos
      let s := { s with walk_pos := s.walk_pos + 1 }
      if de.isLabel = true then walkLoopOn failure index fuel asked { s with dir_label := trimEntryName de.filename 0x20 }
      else if de.isFree = true then walkLoopOn failure index fuel asked s
      else
        let s := { s with walk_count := (s.walk_count + 1) % 65536 }
        if s.walk_count < index then walkLoopOn failure index fuel asked s
        else some (true, asked, { s with entry := de.asEntry, entry_index := index })

/-- `seekEntry(uint16_t index)` on such reads. -/
def seekEntryOn (failure : Nat → Option Str) (fuel index asked : Nat) (s : HDDStream) : Option (Bool × Nat × HDDStream) :=
  if s.partition_list = true then
    some ((s.seekPartitionEntry index).1, asked, (s.seekPartitionEntry index).2)
  else if index = 0 ∨ s.dir_start_lba = 0 then some (false, asked, s)
  else if index ≤ s.walk_count ∨ s.walk_lba = 0 then
    match s.restartDirWalk.readDirSectorOn failure asked s.dir_start_lba with
    | (false, s) => some (false, asked + 1, s)
    | (true, s) => walkLoopOn failure index fuel (asked + 1) s
  else walkLoopOn failure index fuel asked s

/- Calls with these indices, one after the other. -/
def calls (failure : Nat → Option Str) (fuel : Nat) : List UInt16 → Nat → HDDStream → Option (Nat × HDDStream)
  | [], asked, s => some (asked, s)
  | index :: rest, asked, s =>
    match seekEntryOn failure fuel index.toNat asked s with
    | none => none
    | some (_, asked, s) => calls failure fuel rest asked s

/- ## Where a walk stands -/

def cursor (s : HDDStream) : Str × Nat := (s.dir_buf, s.walk_pos)

/- What a walk leaves alone. -/
structure Moved (s t : HDDStream) : Prop where
  container : t.container = s.container
  inside : t.partition_list = s.partition_list
  start : t.dir_start_lba = s.dir_start_lba
  loaded : s.walk_lba ≠ 0 → t.walk_lba ≠ 0

theorem Moved.trans {s t u : HDDStream} (first : Moved s t) (second : Moved t u) : Moved s u where
  container := second.container.trans first.container
  inside := second.inside.trans first.inside
  start := second.start.trans first.start
  loaded := fun some => second.loaded (first.loaded some)

variable {s t : HDDStream} {de : DirectoryEntry} {cur : Str × Nat} {index : Nat}

/- What a pass does with the entry it looks at. -/
def visit (index fuel : Nat) (de : DirectoryEntry) (s : HDDStream) : Option (Bool × HDDStream) :=
  if de.isLabel = true then walkLoop index fuel { s with dir_label := trimEntryName de.filename 0x20 }
  else if de.isFree = true then walkLoop index fuel s
  else
    let s := { s with walk_count := (s.walk_count + 1) % 65536 }
    if s.walk_count < index then walkLoop index fuel s
    else some (true, { s with entry := de.asEntry, entry_index := index })

theorem walkLoop_look (here : look s.container s.cursor = some (de, cur)) :
    ∃ t, Moved s t ∧ t.cursor = cur ∧ t.walk_count = s.walk_count ∧
      ∀ index fuel, walkLoop index (fuel + 1) s = visit index fuel de t := by
  rw [look, cursor] at here
  by_cases full : 16 ≤ s.walk_pos
  · rw [if_pos full] at here
    by_cases last : nextDirSector s.dir_buf = 0
    · rw [if_pos last] at here
      cases here
    · rw [if_neg last] at here
      obtain ⟨buf, read, same⟩ := Option.map_eq_some_iff.mp here
      cases same
      refine ⟨{ s with dir_buf := buf, walk_lba := nextDirSector s.dir_buf, walk_pos := 1 },
        ⟨rfl, rfl, rfl, fun _ => last⟩, rfl, rfl, fun index fuel => ?_⟩
      rw [walkLoop, if_pos full, if_neg last, readDirSector, read]
      rfl
  · rw [if_neg full] at here
    cases here
    refine ⟨{ s with walk_pos := s.walk_pos + 1 }, ⟨rfl, rfl, rfl, id⟩, rfl, rfl, fun index fuel => ?_⟩
    rw [walkLoop, if_neg full]
    rfl

/- A walk ends where there is nothing to look at. -/
theorem walkLoop_stop (none : look s.container s.cursor = none) :
    ∃ t, ∀ index fuel, walkLoop index (fuel + 1) s = some (false, t) := by
  rw [look, cursor] at none
  by_cases full : 16 ≤ s.walk_pos
  · rw [if_pos full] at none
    by_cases last : nextDirSector s.dir_buf = 0
    · refine ⟨s, fun index fuel => ?_⟩
      rw [walkLoop, if_pos full, if_pos last]
    · rw [if_neg last, Option.map_eq_none_iff] at none
      refine ⟨{ s with walk_lba := 0 }, fun index fuel => ?_⟩
      rw [walkLoop, if_pos full, if_neg last, readDirSector, none]
      rfl
  · rw [if_neg full] at none
    cases none

/-- A pass over an entry that is not the one wanted. -/
theorem walkLoop_pass (here : look s.container s.cursor = some (de, cur)) (below : index < 65536)
    (more : s.walk_count + (if de.isListed then 1 else 0) < index) :
    ∃ t, Moved s t ∧ t.cursor = cur ∧ t.walk_count = s.walk_count + (if de.isListed then 1 else 0) ∧
      ∀ fuel, walkLoop index (fuel + 1) s = walkLoop index fuel t := by
  obtain ⟨t, moved, there, count, pass⟩ := walkLoop_look here
  by_cases label : de.isLabel = true
  · have other : de.isListed = false := by rw [DirectoryEntry.isListed, label]; rfl
    rw [other] at more ⊢
    refine ⟨{ t with dir_label := trimEntryName de.filename 0x20 }, ⟨moved.1, moved.2, moved.3, moved.4⟩, there, count,
      fun fuel => ?_⟩
    rw [pass, visit, if_pos label]
  · by_cases free : de.isFree = true
    · have other : de.isListed = false := by rw [DirectoryEntry.isListed, free, Bool.not_true, Bool.and_false]
      rw [other] at more ⊢
      refine ⟨t, moved, there, count, fun fuel => ?_⟩
      rw [pass, visit, if_neg label, if_pos free]
    · have live : de.isListed = true := by
        rw [DirectoryEntry.isListed, Bool.eq_false_iff.mpr label, Bool.eq_false_iff.mpr free]
        rfl
      rw [if_pos live] at more ⊢
      have counted : (t.walk_count + 1) % 65536 = s.walk_count + 1 := by
        rw [count]
        omega
      refine ⟨{ t with walk_count := (t.walk_count + 1) % 65536 }, ⟨moved.1, moved.2, moved.3, moved.4⟩, there, counted,
        fun fuel => ?_⟩
      rw [pass, visit, if_neg label, if_neg free]
      dsimp only
      rw [if_pos (by rw [counted]; exact more)]

/-- A pass over the entry that is wanted. -/
theorem walkLoop_found (here : look s.container s.cursor = some (de, cur)) (below : index < 65536)
    (live : de.isListed = true) (last : s.walk_count + 1 = index) :
    ∃ t, Moved s t ∧ t.cursor = cur ∧ t.walk_count = index ∧ t.entry = de.asEntry ∧
      ∀ fuel, walkLoop index (fuel + 1) s = some (true, t) := by
  obtain ⟨t, moved, there, count, pass⟩ := walkLoop_look here
  rw [DirectoryEntry.isListed, Bool.and_eq_true, Bool.not_eq_true', Bool.not_eq_true'] at live
  have counted : (t.walk_count + 1) % 65536 = index := by
    rw [count]
    omega
  refine ⟨{ t with walk_count := (t.walk_count + 1) % 65536, entry := de.asEntry, entry_index := index },
    ⟨moved.1, moved.2, moved.3, moved.4⟩, there, counted, rfl, fun fuel => ?_⟩
  rw [pass, visit, if_neg (by rw [live.1]; decide), if_neg (by rw [live.2]; decide)]
  dsimp only
  rw [if_neg (by rw [counted]; exact Nat.lt_irrefl index)]

/-- A walk along entries that are too few. -/
theorem walkLoop_trail {xs : List DirectoryEntry} (trail : Trail (look s.container) s.cursor xs cur) (below : index < 65536)
    (more : s.walk_count + xs.countP (·.isListed) < index) :
    ∃ t, Moved s t ∧ t.cursor = cur ∧ t.walk_count = s.walk_count + xs.countP (·.isListed) ∧
      ∀ fuel, walkLoop index (fuel + xs.length) s = walkLoop index fuel t := by
  induction xs generalizing s with
  | nil =>
    cases trail
    exact ⟨s, ⟨rfl, rfl, rfl, id⟩, rfl, rfl, fun _ => rfl⟩
  | cons de xs ih =>
    cases trail with
    | cons here rest =>
      rw [List.countP_cons] at more
      obtain ⟨t, moved, there, count, pass⟩ := walkLoop_pass here below (by omega)
      rw [← there, ← moved.container] at rest
      obtain ⟨u, moved', there', count', walk⟩ := ih rest (by omega)
      refine ⟨u, moved.trans moved', there', by rw [count', count, List.countP_cons]; omega, fun fuel => ?_⟩
      rw [List.length_cons, ← Nat.add_assoc, pass, walk]

end HDDStream

/- ## Directories without a circle -/

/-- The sectors of a directory, as far as the container has them. -/
inductive Directory (c : Container) : Nat → List Str → Prop
  | torn {lba : Nat} : readSector c lba = none → Directory c lba []
  | last {lba : Nat} {buf : Str} : readSector c lba = some buf → nextDirSector buf = 0 → Directory c lba [buf]
  | more {lba : Nat} {buf : Str} {bufs : List Str} : readSector c lba = some buf → nextDirSector buf ≠ 0 →
      Directory c (nextDirSector buf) bufs → Directory c lba (buf :: bufs)

def slots (bufs : List Str) : List DirectoryEntry := bufs.flatMap fun buf => (List.range 16).map (directoryEntry buf)

/-- The entries of a directory that are neither free nor labels, in the order of its chain. -/
def listedEntries (bufs : List Str) : List DirectoryEntry := (slots bufs).filter (·.isListed)

variable {c : Container} {buf : Str} {bufs : List Str} {lba : Nat}

theorem look_inside (c : Container) (buf : Str) {pos : Nat} (small : pos < 16) :
    look c (buf, pos) = some (directoryEntry buf pos, buf, pos + 1) := if_neg (Nat.not_le.mpr small)

theorem trail_slots (c : Container) (buf : Str) {n : Nat} (few : n ≤ 16) :
    Trail (look c) (buf, 0) ((List.range n).map (directoryEntry buf)) (buf, n) := by
  induction n with
  | zero => exact .nil
  | succ n ih =>
    rw [List.range_succ, List.map_append]
    exact (ih (by omega)).snoc (look_inside c buf (by omega))

/- Behind a sector the walk goes on as from the start of the next one. -/
theorem look_next (more : nextDirSector buf ≠ 0) {buf' : Str} (read : readSector c (nextDirSector buf) = some buf') :
    look c (buf, 16) = look c (buf', 0) := by
  rw [look_inside c buf' (by decide), look, if_pos (Nat.le_refl 16), if_neg more, read]
  rfl

/-- The walk through a directory looks at all its slots and ends. -/
theorem Directory.trail (chain : Directory c lba bufs) {first : Str} (read : readSector c lba = some first) :
    ∃ cur, Trail (look c) (first, 0) (slots bufs) cur ∧ look c cur = none := by
  induction chain generalizing first with
  | torn none =>
    rw [none] at read
    cases read
  | last here ends =>
    rw [here] at read
    cases read
    refine ⟨_, by rw [slots, List.flatMap_cons, List.flatMap_nil, List.append_nil]; exact trail_slots c _ (Nat.le_refl 16), ?_⟩
    rw [look, if_pos (Nat.le_refl 16), if_pos ends]
  | @more lba buf bufs here some rest ih =>
    rw [here] at read
    cases read
    have sector := trail_slots c buf (Nat.le_refl 16)
    cases next : readSector c (nextDirSector buf) with
    | none =>
      cases rest with
      | torn =>
        refine ⟨_, by rw [slots, List.flatMap_cons, List.flatMap_nil, List.append_nil]; exact sector, ?_⟩
        rw [look, if_pos (Nat.le_refl 16), if_neg some, next]
        rfl
      | last here => rw [next] at here; cases here
      | more here => rw [next] at here; cases here
    | some buf' =>
      obtain ⟨cur, trail, ends⟩ := ih next
      refine ⟨cur, ?_, ends⟩
      have slotted : slots (buf :: bufs) = (List.range 16).map (directoryEntry buf) ++ slots bufs := List.flatMap_cons
      rw [slotted]
      refine sector.append ?_
      cases rest with
      | torn none => rw [next] at none; cases none
      | last => exact trail.congr_head (look_next some next) (by simp [slots])
      | more => exact trail.congr_head (look_next some next) (by simp [slots])

namespace HDDStream

variable {s t : HDDStream} {index : Nat}

/-- The walk has counted the entries it has seen of its directory, or begins again. -/
def Counts (s : HDDStream) : Prop :=
  s.walk_lba = 0 ∨ ∃ first seen, readSector s.container s.dir_start_lba = some first ∧
    Trail (look s.container) (first, 0) seen s.cursor ∧ s.walk_count = seen.countP (·.isListed)

/- A call that goes on to the loop begins it where the walk of the directory stands. -/
theorem seekEntryAt_walk (inside : s.partition_list = false) (there : s.dir_start_lba ≠ 0) (counts : s.Counts)
    (positive : 0 < index) {first : Str} (read : readSector s.container s.dir_start_lba = some first) :
    ∃ t seen, Moved s t ∧ t.walk_lba ≠ 0 ∧ Trail (look t.container) (first, 0) seen t.cursor ∧
      t.walk_count = seen.countP (·.isListed) ∧ t.walk_count < index ∧
      ∀ fuel, seekEntryAt fuel index s = walkLoop index fuel t := by
  have none : ¬ (index = 0 ∨ s.dir_start_lba = 0) := by
    rintro (zero | zero)
    · omega
    · exact there zero
  by_cases again : index ≤ s.walk_count ∨ s.walk_lba = 0
  · refine ⟨{ s.restartDirWalk with dir_buf := first, walk_lba := s.dir_start_lba }, [],
      ⟨rfl, rfl, rfl, fun _ => there⟩, there, .nil, rfl, positive, fun fuel => ?_⟩
    have sector : readSector s.restartDirWalk.container s.dir_start_lba = some first := read
    rw [seekEntryAt, if_neg (by rw [inside]; decide), if_neg none, if_pos again, readDirSector, sector]
  · rw [not_or, Nat.not_le] at again
    rcases counts with zero | ⟨first', seen, read', trail, count⟩
    · exact absurd zero again.2
    · rw [read] at read'
      cases read'
      refine ⟨s, seen, ⟨rfl, rfl, rfl, id⟩, again.2, trail, count, again.1, fun fuel => ?_⟩
      rw [seekEntryAt, if_neg (by rw [inside]; decide), if_neg none, if_neg (by omega)]

/-- With reads that work, a call finds the entry of that number, whatever was asked before. -/
theorem seekEntryAt_spec (inside : s.partition_list = false) (there : s.dir_start_lba ≠ 0) (counts : s.Counts)
    (positive : 0 < index) (below : index < 65536) (chain : Directory s.container s.dir_start_lba bufs) :
    ∃ enough t, (∀ fuel, enough ≤ fuel →
        seekEntryAt fuel index s = some (decide (index ≤ (listedEntries bufs).length), t)) ∧
      ∀ de, (listedEntries bufs)[index - 1]? = some de → t.entry = de.asEntry := by
  cases read : readSector s.container s.dir_start_lba with
  | none =>
    -- the first sector is not there: every call begins again and fails
    cases chain with
    | last here => rw [read] at here; cases here
    | more here => rw [read] at here; cases here
    | torn =>
      have again : index ≤ s.walk_count ∨ s.walk_lba = 0 := by
        rcases counts with zero | ⟨first, -, read', -⟩
        · exact .inr zero
        · rw [read] at read'
          cases read'
      have sector : readSector s.restartDirWalk.container s.dir_start_lba = none := read
      have none : ¬ (index = 0 ∨ s.dir_start_lba = 0) := by
        rintro (zero | zero)
        · omega
        · exact there zero
      refine ⟨0, { s.restartDirWalk with walk_lba := 0 }, fun fuel _ => ?_, fun de found => by cases found⟩
      rw [seekEntryAt, if_neg (by rw [inside]; decide), if_neg none, if_pos again, readDirSector, sector,
        decide_eq_false (by show ¬ index ≤ 0; omega)]
  | some first =>
    obtain ⟨t, seen, moved, -, trail, count, few, walk⟩ := seekEntryAt_walk inside there counts positive read
    obtain ⟨cur, whole, ends⟩ := chain.trail read
    rw [← moved.container] at whole ends
    obtain ⟨todo, split, rest⟩ := trail.beyond whole (trail.within whole ends)
    have length : (listedEntries bufs).length = t.walk_count + todo.countP (·.isListed) := by
      rw [listedEntries, ← List.countP_eq_length_filter, split, List.countP_append, count]
    by_cases found : index ≤ (listedEntries bufs).length
    · have enough : index - 1 - t.walk_count < todo.countP (·.isListed) := by omega
      obtain ⟨pre, de, post, parts, live, before⟩ := exists_nth enough
      rw [parts] at rest
      obtain ⟨mid, way, here⟩ := rest.split
      cases here with
      | @cons _ next _ _ _ here _ =>
        obtain ⟨u, moved', stands, count', walk'⟩ := walkLoop_trail way below (by omega)
        rw [← stands, ← moved'.container] at here
        obtain ⟨v, -, -, -, entry, last⟩ := walkLoop_found here below live (by omega)
        refine ⟨1 + pre.length, v, fun fuel enough => ?_, fun de' nth => ?_⟩
        · obtain ⟨more, rfl⟩ : ∃ more, fuel = more + 1 + pre.length := ⟨fuel - 1 - pre.length, by omega⟩
          rw [walk, walk', last, decide_eq_true found]
        · have place : index - 1 = ((seen ++ pre).filter (·.isListed)).length := by
            rw [← List.countP_eq_length_filter, List.countP_append]
            omega
          have order : listedEntries bufs =
              (seen ++ pre).filter (·.isListed) ++ de :: post.filter (·.isListed) := by
            rw [listedEntries, split, parts, ← List.append_assoc, List.filter_append, List.filter_cons_of_pos live]
          rw [order, place, List.getElem?_append_right (Nat.le_refl _), Nat.sub_self] at nth
          cases nth
          exact entry
    · obtain ⟨u, moved', stands, count', walk'⟩ := walkLoop_trail rest below (by omega)
      rw [← stands, ← moved'.container] at ends
      obtain ⟨v, stop⟩ := walkLoop_stop ends
      refine ⟨1 + todo.length, v, fun fuel enough => ?_, fun de nth => ?_⟩
      · obtain ⟨more, rfl⟩ : ∃ more, fuel = more + 1 + todo.length := ⟨fuel - 1 - todo.length, by omega⟩
        rw [walk, walk', stop, decide_eq_false found]
      · have inside := (List.getElem?_eq_some_iff.mp nth).1
        omega

/- A sector that is read, on reads that may fail. -/
theorem readDirSectorOn_true {failure : Nat → Option Str} {asked lba : Nat}
    (read : (s.readDirSectorOn failure asked lba).1 = true) :
    ∃ buf, readSector s.container lba = some buf ∧
      (s.readDirSectorOn failure asked lba).2 = { s with dir_buf := buf, walk_lba := lba } := by
  refine ⟨_, HDDData.sectorDevice_serves s.container failure asked lba s.dir_buf read, ?_⟩
  unfold readDirSectorOn at read ⊢
  dsimp only at read ⊢
  rw [if_pos read]

theorem readDirSectorOn_false {failure : Nat → Option Str} {asked lba : Nat}
    (failed : (s.readDirSectorOn failure asked lba).1 = false) :
    Moved { s with walk_lba := 0 } (s.readDirSectorOn failure asked lba).2 ∧
      (s.readDirSectorOn failure asked lba).2.walk_lba = 0 := by
  unfold readDirSectorOn at failed ⊢
  dsimp only at failed ⊢
  rw [if_neg (by rw [failed]; decide)]
  exact ⟨⟨rfl, rfl, rfl, fun some => absurd rfl some⟩, rfl⟩

/- What a pass does with the entry it looks at, on such reads. -/
def visitOn (failure : Nat → Option Str) (index fuel asked : Nat) (de : DirectoryEntry) (s : HDDStream) :
    Option (Bool × Nat × HDDStream) :=
  if de.isLabel = true then walkLoopOn failure index fuel asked { s with dir_label := trimEntryName de.filename 0x20 }
  else if de.isFree = true then walkLoopOn failure index fuel asked s
  else
    let s := { s with walk_count := (s.walk_count + 1) % 65536 }
    if s.walk_count < index then walkLoopOn failure index fuel asked s
    else some (true, asked, { s with entry := de.asEntry, entry_index := index })

section Failing

variable {failure : Nat → Option Str} {fuel asked asked' : Nat} {ok : Bool} {history : List UInt16}

/-- A pass ends at the end of the directory or with a read that failed, or it looks at the next entry. -/
theorem walkLoopOn_cases (walked : walkLoopOn failure index (fuel + 1) asked s = some (ok, asked', t)) :
    t = s ∨ (Moved { s with walk_lba := 0 } t ∧ t.walk_lba = 0) ∨
      ∃ de u next, Moved { s with walk_lba := 0 } u ∧ u.walk_count = s.walk_count ∧
        look s.container s.cursor = some (de, u.cursor) ∧ visitOn failure index fuel next de u = some (ok, asked', t) := by
  rw [walkLoopOn] at walked
  by_cases full : 16 ≤ s.walk_pos
  · rw [if_pos full] at walked
    by_cases last : nextDirSector s.dir_buf = 0
    · rw [if_pos last] at walked
      cases walked
      exact .inl rfl
    · rw [if_neg last] at walked
      dsimp only at walked
      cases outcome : (s.readDirSectorOn failure asked (nextDirSector s.dir_buf)).1 with
      | false =>
        rw [outcome] at walked
        cases walked
        exact .inr (.inl (readDirSectorOn_false outcome))
      | true =>
        obtain ⟨buf, sector, result⟩ := readDirSectorOn_true outcome
        rw [outcome, result] at walked
        refine .inr (.inr ⟨directoryEntry buf 0, { s with dir_buf := buf, walk_lba := nextDirSector s.dir_buf, walk_pos := 1 },
          asked + 1, ⟨rfl, rfl, rfl, fun some => absurd rfl some⟩, rfl, ?_, walked⟩)
        rw [look, cursor, if_pos full, if_neg last, sector]
        rfl
  · rw [if_neg full] at walked
    exact .inr (.inr ⟨directoryEntry s.dir_buf s.walk_pos, { s with walk_pos := s.walk_pos + 1 }, asked,
      ⟨rfl, rfl, rfl, fun some => absurd rfl some⟩, rfl, if_neg full, walked⟩)

/-- After an entry the walk goes on with a count that has it, or has found it. -/
theorem visitOn_cases {de : DirectoryEntry} (below : index < 65536) (few : s.walk_count < index)
    (visited : visitOn failure index fuel asked de s = some (ok, asked', t)) :
    ∃ u, Moved s u ∧ u.cursor = s.cursor ∧ u.walk_count = s.walk_count + (if de.isListed then 1 else 0) ∧
      (t = u ∨ (u.walk_count < index ∧ walkLoopOn failure index fuel asked u = some (ok, asked', t))) := by
  rw [visitOn] at visited
  by_cases label : de.isLabel = true
  · have other : de.isListed = false := by rw [DirectoryEntry.isListed, label]; rfl
    rw [if_pos label] at visited
    rw [other]
    exact ⟨{ s with dir_label := trimEntryName de.filename 0x20 }, ⟨rfl, rfl, rfl, id⟩, rfl, rfl, .inr ⟨few, visited⟩⟩
  · rw [if_neg label] at visited
    by_cases free : de.isFree = true
    · have other : de.isListed = false := by rw [DirectoryEntry.isListed, free, Bool.not_true, Bool.and_false]
      rw [if_pos free] at visited
      rw [other]
      exact ⟨s, ⟨rfl, rfl, rfl, id⟩, rfl, rfl, .inr ⟨few, visited⟩⟩
    · have live : de.isListed = true := by
        rw [DirectoryEntry.isListed, Bool.eq_false_iff.mpr label, Bool.eq_false_iff.mpr free]
        rfl
      have counted : (s.walk_count + 1) % 65536 = s.walk_count + 1 := by omega
      rw [if_neg free, counted] at visited
      rw [if_pos live]
      dsimp only at visited
      split at visited
      · rename_i more
        exact ⟨{ s with walk_count := s.walk_count + 1 }, ⟨rfl, rfl, rfl, id⟩, rfl, rfl, .inr ⟨more, visited⟩⟩
      · cases visited
        exact ⟨{ s with walk_count := s.walk_count + 1, entry := de.asEntry, entry_index := index },
          ⟨rfl, rfl, rfl, id⟩, rfl, rfl, .inl rfl⟩

/- Reads that all work. -/
theorem readDirSectorOn_works (works : failure asked = none) (lba : Nat) :
    (readSector s.container lba = none → (s.readDirSectorOn failure asked lba).1 = false ∧
        (s.readDirSectorOn failure asked lba).2.entry = s.entry) ∧
      ∀ buf, readSector s.container lba = some buf →
        s.readDirSectorOn failure asked lba = (true, { s with dir_buf := buf, walk_lba := lba }) := by
  rw [readDirSectorOn, sectorDevice, works, readSector, Container.fetch]
  dsimp only
  constructor
  · intro none
    split at none
    · cases none
    · rename_i short
      exact ⟨decide_eq_false short, rfl⟩
  · intro buf read
    split at read
    · rename_i whole
      cases read
      simp only [whole, decide_true, Store.overlaid, List.take_left' whole, if_true]
    · cases read

/-- On reads that all work this is the loop as it was. -/
theorem walkLoopOn_works (works : ∀ k, failure k = none) (index fuel asked : Nat) (s : HDDStream) :
    (walkLoopOn failure index fuel asked s).map (fun r => (r.1, r.2.2.entry)) =
      (walkLoop index fuel s).map fun r => (r.1, r.2.entry) := by
  induction fuel generalizing asked s with
  | zero => rfl
  | succ fuel ih =>
    -- what follows the entry is the same
    have after : ∀ (de : DirectoryEntry) (asked : Nat) (u : HDDStream),
        (visitOn failure index fuel asked de u).map (fun r => (r.1, r.2.2.entry)) =
          (visit index fuel de u).map fun r => (r.1, r.2.entry) := by
      intro de asked u
      rw [visitOn, visit]
      split
      · exact ih _ _
      · split
        · exact ih _ _
        · dsimp only
          split
          · exact ih _ _
          · rfl
    by_cases full : 16 ≤ s.walk_pos
    · by_cases last : nextDirSector s.dir_buf = 0
      · rw [walkLoopOn, walkLoop, if_pos full, if_pos full, if_pos last, if_pos last]
        rfl
      · obtain ⟨missing, there⟩ := readDirSectorOn_works (s := s) (works asked) (nextDirSector s.dir_buf)
        rw [walkLoopOn, walkLoop, if_pos full, if_pos full, if_neg last, if_neg last]
        cases read : readSector s.container (nextDirSector s.dir_buf) with
        | none =>
          obtain ⟨failed, same⟩ := missing read
          rw [readDirSector, read]
          dsimp only
          rw [failed]
          exact congrArg some (Prod.ext rfl same)
        | some buf =>
          rw [readDirSector, read, there buf read]
          exact after _ _ _
    · rw [walkLoopOn, walkLoop, if_neg full, if_neg full]
      exact after _ _ _

/- In a directory, with a count that is right. -/
structure Stays (s t : HDDStream) : Prop where
  container : t.container = s.container
  inside : t.partition_list = s.partition_list
  start : t.dir_start_lba = s.dir_start_lba
  counts : t.Counts

theorem walkLoopOn_stays (below : index < 65536) {first : Str} {seen : List DirectoryEntry}
    (read : readSector s.container s.dir_start_lba = some first)
    (trail : Trail (look s.container) (first, 0) seen s.cursor) (count : s.walk_count = seen.countP (·.isListed))
    (few : s.walk_count < index) (walked : walkLoopOn failure index fuel asked s = some (ok, asked', t)) : Stays s t := by
  induction fuel generalizing s seen asked with
  | zero => cases walked
  | succ fuel ih =>
    rcases walkLoopOn_cases walked with rfl | ⟨moved, lost⟩ | ⟨de, u, next, moved, same, here, visited⟩
    · exact ⟨rfl, rfl, rfl, .inr ⟨first, seen, read, trail, count⟩⟩
    · exact ⟨moved.container, moved.inside, moved.start, .inl lost⟩
    · obtain ⟨v, moved', stands, counted, outcome⟩ := visitOn_cases below (by omega) visited
      have container := moved'.container.trans moved.container
      have start := moved'.start.trans moved.start
      have further : Trail (look v.container) (first, 0) (seen ++ [de]) v.cursor := by
        rw [container, stands]
        exact trail.snoc here
      have total : v.walk_count = (seen ++ [de]).countP (·.isListed) := by
        rw [counted, same, count, List.countP_append, List.countP_singleton]
      have sector : readSector v.container v.dir_start_lba = some first := by
        rw [container, start]
        exact read
      rcases outcome with rfl | ⟨more, walked'⟩
      · exact ⟨container, moved'.inside.trans moved.inside, start, .inr ⟨first, seen ++ [de], sector, further, total⟩⟩
      · have rest := ih sector further total more walked'
        exact ⟨rest.container.trans container, rest.inside.trans (moved'.inside.trans moved.inside),
          rest.start.trans start, rest.counts⟩

/-- A call leaves the count right, whichever of its reads fail. -/
theorem seekEntryOn_stays (below : index < 65536)
    (inside : s.partition_list = false) (counts : s.Counts)
    (called : seekEntryOn failure fuel index asked s = some (ok, asked', t)) : Stays s t := by
  rw [seekEntryOn, if_neg (by rw [inside]; decide)] at called
  split at called
  · cases called
    exact ⟨rfl, rfl, rfl, counts⟩
  · rename_i go
    rw [not_or] at go
    split at called
    · cases outcome : (s.restartDirWalk.readDirSectorOn failure asked s.dir_start_lba).1 with
      | false =>
        obtain ⟨moved, lost⟩ := readDirSectorOn_false outcome
        rw [show s.restartDirWalk.readDirSectorOn failure asked s.dir_start_lba =
          (false, (s.restartDirWalk.readDirSectorOn failure asked s.dir_start_lba).2) from Prod.ext outcome rfl] at called
        cases called
        exact ⟨moved.container, moved.inside, moved.start, .inl lost⟩
      | true =>
        obtain ⟨buf, sector, result⟩ := readDirSectorOn_true outcome
        rw [show s.restartDirWalk.readDirSectorOn failure asked s.dir_start_lba = (true, _) from Prod.ext outcome result]
          at called
        have nothing : Trail (look s.container) (buf, 0) [] (buf, 0) := .nil
        have done := walkLoopOn_stays (s := { s.restartDirWalk with dir_buf := buf, walk_lba := s.dir_start_lba })
          below sector nothing rfl (Nat.pos_of_ne_zero go.1) called
        exact ⟨done.container, done.inside, done.start, done.counts⟩
    · rename_i going
      rw [not_or, Nat.not_le] at going
      rcases counts with zero | ⟨first, seen, read, trail, count⟩
      · exact absurd zero going.2
      · exact walkLoopOn_stays below read trail count going.1 called

theorem calls_stay (inside : s.partition_list = false) (counts : s.Counts)
    (called : calls failure fuel history asked s = some (asked', t)) : Stays s t := by
  induction history generalizing s asked with
  | nil =>
    cases called
    exact ⟨rfl, rfl, rfl, counts⟩
  | cons index history ih =>
    rw [calls] at called
    split at called
    · cases called
    · rename_i first
      have one := seekEntryOn_stays index.toNat_lt inside counts first
      have rest := ih (one.inside.trans inside) one.counts called
      exact ⟨rest.container.trans one.container, rest.inside.trans one.inside, rest.start.trans one.start, rest.counts⟩

end Failing

/-- Whatever entries of a directory were asked for before, in whatever order and with whatever failures, a
call with reads that work finds the entry of that number in the order of the chain. -/
theorem seekEntry_after_calls (failure : Nat → Option Str) (history : List UInt16) (fuel asked asked' : Nat)
    (s s' : HDDStream) (bufs : List Str) (index : UInt16) (inside : s.partition_list = false)
    (there : s.dir_start_lba ≠ 0) (entered : s.walk_lba = 0) (chain : Directory s.container s.dir_start_lba bufs)
    (called : calls failure fuel history asked s = some (asked', s')) (positive : index ≠ 0) :
    ∃ enough t, (∀ fuel, enough ≤ fuel →
        seekEntryAt fuel index.toNat s' = some (decide (index.toNat ≤ (listedEntries bufs).length), t)) ∧
      ∀ de, (listedEntries bufs)[index.toNat - 1]? = some de → t.entry = de.asEntry := by
  have stays := calls_stay inside (.inl entered) called
  refine seekEntryAt_spec (stays.inside.trans inside) ?_ stays.counts ?_ index.toNat_lt ?_
  · rw [stays.start]
    exact there
  · rw [Nat.pos_iff_ne_zero]
    intro zero
    exact positive (UInt16.toNat_inj.mp zero)
  · rw [stays.container, stays.start]
    exact chain

/- A directory of one sector, sector 1: a free slot, "A" and "B". -/
def sampleDirectory : Container where
  data := fun k =>
    if k = 544 then 0x41 else if k = 568 then 0x81 else if k = 576 then 0x42 else if k = 600 then 0x81 else 0
  size := 1024

/- The second read gives one byte and fails. -/
def secondReadFails (asked : Nat) : Option Str := if asked = 1 then some [0xFF] else none

theorem seekEntry_after_calls_sample : ∃ asked s fuel t,
    calls secondReadFails 40 [2, 1, 2] 0 { sampleStream with container := sampleDirectory, dir_start_lba := 1 } =
      some (asked, s) ∧ seekEntryAt fuel 2 s = some (true, t) ∧ t.entry.filename = [0x42] := by
  have facts : (readSector sampleDirectory 1).map (fun buf => (nextDirSector buf,
      (listedEntries [buf]).map (·.asEntry.filename))) = some (0, [[0x41], [0x42]]) := by decide +kernel
  have returns : (calls secondReadFails 40 [2, 1, 2] 0
      { sampleStream with container := sampleDirectory, dir_start_lba := 1 }).isSome = true := by decide +kernel
  obtain ⟨buf, read, facts⟩ := Option.map_eq_some_iff.mp facts
  obtain ⟨⟨asked, s⟩, called⟩ := Option.isSome_iff_exists.mp returns
  obtain ⟨ends, names⟩ := Prod.mk.inj facts
  obtain ⟨enough, t, runs, entry⟩ := seekEntry_after_calls secondReadFails [2, 1, 2] 40 0 asked
    { sampleStream with container := sampleDirectory, dir_start_lba := 1 } s [buf] 2 rfl (by decide) rfl
    (.last read ends) called (by decide)
  have two : (listedEntries [buf]).length = 2 := by
    have count := congrArg List.length names
    rwa [List.length_map] at count
  obtain ⟨de, second⟩ : ∃ de, (listedEntries [buf])[1]? = some de :=
    ⟨_, List.getElem?_eq_getElem (by rw [two]; decide)⟩
  have name := congrArg (fun l => l[1]?) names
  rw [List.getElem?_map, second] at name
  refine ⟨asked, s, enough, t, called, ?_, ?_⟩
  · rw [two] at runs
    exact runs enough (Nat.le_refl enough)
  · rw [entry de second]
    exact Option.some.inj name

end HDDStream

end Meatloaf.Hd
