import Mathlib.Data.Set.Finite.Lattice
import Mathlib.Data.Finite.Prod
import Meatloaf.Hd.CfsWalk

/-! When a walk through a CFS directory comes back. Nothing counts the sectors of a chain: on a chain
that runs in a circle a walk goes round until it has counted enough entries. -/
namespace Meatloaf.Hd

open Lib

/- ## A walk is in one of finitely many places -/

theorem getLBA_lt (p : Pointer) : p.getLBA < 2 ^ 28 := by
  have first : (p.b0 &&& 0x0F).toNat < 16 := by
    rw [UInt8.toNat_and]
    exact Nat.lt_of_le_of_lt Nat.and_le_right (by decide)
  have second := p.b1.toNat_lt
  have third := p.b2.toNat_lt
  have fourth := p.b3.toNat_lt
  unfold Pointer.getLBA
  omega

theorem nextDirSector_lt (buf : Str) : nextDirSector buf < 2 ^ 28 := by
  rw [nextDirSector]
  split
  · decide
  · exact getLBA_lt _

/- The sectors a walk can come to, and the slots in them. -/
def places (c : Container) (cur : Str × Nat) : Set (Str × Nat) :=
  (insert cur.1 ((fun lba => (readSector c lba).getD []) '' Set.Iio (2 ^ 28))) ×ˢ Set.Iic (max cur.2 16)

theorem places_finite (c : Container) (cur : Str × Nat) : (places c cur).Finite :=
  (((Set.finite_Iio _).image _).insert _).prod (Set.finite_Iic _)

theorem places_start (c : Container) (cur : Str × Nat) : cur ∈ places c cur :=
  ⟨Set.mem_insert _ _, Nat.le_max_left _ _⟩

theorem places_closed (c : Container) (cur s : Str × Nat) (de : DirectoryEntry) (t : Str × Nat) (inside : s ∈ places c cur)
    (next : look c s = some (de, t)) : t ∈ places c cur := by
  obtain ⟨buf, pos⟩ := s
  obtain ⟨sector, slot⟩ := inside
  rw [look] at next
  split at next
  · split at next
    · cases next
    · obtain ⟨buf', read, same⟩ := Option.map_eq_some_iff.mp next
      cases same
      refine ⟨Set.mem_insert_of_mem _ ⟨nextDirSector buf, nextDirSector_lt buf, ?_⟩, ?_⟩
      · dsimp only
        rw [read]
        rfl
      · exact (show 1 ≤ 16 by decide).trans (Nat.le_max_right _ _)
  · rename_i small
    cases next
    refine ⟨sector, ?_⟩
    exact (show pos + 1 ≤ 16 by omega).trans (Nat.le_max_right _ _)

namespace HDDStream

variable {s t u : HDDStream} {de : DirectoryEntry} {cur : Str × Nat} {index : Nat}

/- ## By number -/

/- Where the loop of a call begins, if the call comes to it. -/
def begins (index : Nat) (s : HDDStream) : Option HDDStream :=
  if s.partition_list = true then none
  else if index = 0 ∨ s.dir_start_lba = 0 then none
  else if index ≤ s.walk_count ∨ s.walk_lba = 0 then
    match s.restartDirWalk.readDirSector s.dir_start_lba with
    | (false, _) => none
    | (true, s) => some s
  else some s

theorem seekEntryAt_none (inside : s.partition_list = false) (out : s.begins index = none) :
    ∃ t, ∀ fuel, seekEntryAt fuel index s = some (false, t) := by
  unfold begins at out
  unfold seekEntryAt
  rw [if_neg (by rw [inside]; decide)] at out
  split at out
  · rename_i zero
    exact ⟨s, fun fuel => by rw [if_neg (by rw [inside]; decide), if_pos zero]⟩
  · rename_i go
    split at out
    · rename_i again
      rcases read : s.restartDirWalk.readDirSector s.dir_start_lba with ⟨ok, t⟩
      rw [read] at out
      cases ok with
      | true => cases out
      | false => exact ⟨t, fun fuel => by rw [if_neg (by rw [inside]; decide), if_neg go, if_pos again]⟩
    · cases out

theorem seekEntryAt_listing (listing : s.partition_list = true) (fuel index : Nat) :
    seekEntryAt fuel index s = some (s.seekPartitionEntry index) := if_pos listing

theorem seekEntryAt_begins (begun : s.begins index = some t) (fuel : Nat) :
    seekEntryAt fuel index s = walkLoop index fuel t := by
  unfold begins at begun
  unfold seekEntryAt
  split at begun
  · cases begun
  · rename_i inside
    split at begun
    · cases begun
    · rename_i go
      rw [if_neg inside, if_neg go]
      split at begun
      · rename_i again
        rw [if_pos again]
        rcases read : s.restartDirWalk.readDirSector s.dir_start_lba with ⟨ok, u⟩
        rw [read] at begun
        cases ok with
        | false => cases begun
        | true =>
          cases begun
          rfl
      · rename_i going
        cases begun
        rw [if_neg going]

/- A loop begins with fewer entries counted than are asked for. -/
theorem begins_facts (begun : s.begins index = some t) :
    t.walk_count < index ∧ t.partition_list = false ∧ t.dir_start_lba ≠ 0 ∧ t.walk_lba ≠ 0 := by
  unfold begins at begun
  split at begun
  · cases begun
  · rename_i inside
    split at begun
    · cases begun
    · rename_i go
      rw [not_or] at go
      split at begun
      · rw [readDirSector] at begun
        cases read : readSector s.restartDirWalk.container s.dir_start_lba with
        | none =>
          rw [read] at begun
          cases begun
        | some buf =>
          rw [read] at begun
          cases begun
          exact ⟨Nat.pos_of_ne_zero go.1, Bool.eq_false_iff.mpr inside, go.2, go.2⟩
      · rename_i going
        rw [not_or, Nat.not_le] at going
        cases begun
        exact ⟨going.1, Bool.eq_false_iff.mpr inside, go.2, going.2⟩

/- Entries before the one with a number. -/
def FewerThan (index : Nat) (s : HDDStream) (xs : List DirectoryEntry) : Prop :=
  s.walk_count + xs.countP (·.isListed) < index

/-- A loop does not come back exactly when it comes to a circle without entries too early. -/
theorem walkLoop_endless_iff (below : index < 65536) (few : s.walk_count < index) :
    (∀ fuel, walkLoop index fuel s = none) ↔
      Barren (look s.container) (·.isListed) (FewerThan index s) s.cursor := by
  rw [← endless_iff_barren (places_finite s.container s.cursor) (places_closed s.container s.cursor)
    (places_start s.container s.cursor) (n := index)]
  · constructor
    · intro endless n
      induction n with
      | zero => exact ⟨[], s.cursor, rfl, .nil, few⟩
      | succ n ih =>
        obtain ⟨xs, cur, long, trail, fewer⟩ := ih
        obtain ⟨t, moved, stands, count, walk⟩ := walkLoop_trail trail below fewer
        rw [FewerThan] at fewer
        -- one more pass is there, since the loop neither ends nor finds its entry
        cases here : look s.container cur with
        | none =>
          rw [← stands, ← moved.container] at here
          obtain ⟨u, stop⟩ := walkLoop_stop here
          have ended := endless (1 + xs.length)
          rw [walk, stop] at ended
          cases ended
        | some next =>
          obtain ⟨de, cur'⟩ := next
          refine ⟨xs ++ [de], cur', by rw [List.length_append, long]; rfl, trail.snoc here, ?_⟩
          rw [FewerThan, List.countP_append, List.countP_singleton]
          by_contra enough
          have live : de.isListed = true := by
            by_contra free
            rw [if_neg free] at enough
            omega
          rw [if_pos live] at enough
          rw [← stands, ← moved.container] at here
          obtain ⟨u, -, -, -, -, found⟩ := walkLoop_found here below live (by omega)
          have ended := endless (1 + xs.length)
          rw [walk, found] at ended
          cases ended
    · intro endless fuel
      obtain ⟨xs, cur, long, trail, fewer⟩ := endless fuel
      obtain ⟨t, -, -, -, walk⟩ := walkLoop_trail trail below fewer
      have same := walk 0
      rwa [long, Nat.zero_add] at same
  · intro xs fewer
    rw [FewerThan] at fewer
    omega
  · intro xs ys fewer
    rw [FewerThan, List.countP_append] at fewer
    rw [FewerThan]
    omega
  · intro xs ys fewer none
    rw [FewerThan] at fewer
    rw [FewerThan, List.countP_append]
    omega

/-- A call by number comes back exactly when its walk comes to no circle without entries before it has
counted as many as it needs. -/
theorem seekEntryAt_isSome_iff (s : HDDStream) (index : UInt16) :
    (∃ fuel, (seekEntryAt fuel index.toNat s).isSome) ↔
      ∀ t, s.begins index.toNat = some t →
        ¬ Barren (look t.container) (·.isListed) (FewerThan index.toNat t) t.cursor := by
  cases begun : s.begins index.toNat with
  | none =>
    refine iff_of_true ?_ fun t other => by cases other
    cases listing : s.partition_list with
    | true => exact ⟨0, by rw [seekEntryAt_listing listing]; rfl⟩
    | false =>
      obtain ⟨t, runs⟩ := seekEntryAt_none listing begun
      exact ⟨0, by rw [runs]; rfl⟩
  | some t =>
    have few := (begins_facts begun).1
    have runs : (∃ fuel, (seekEntryAt fuel index.toNat s).isSome) ↔ ¬ ∀ fuel, walkLoop index.toNat fuel t = none := by
      simp only [seekEntryAt_begins begun, not_forall, Option.ne_none_iff_isSome]
    rw [runs, walkLoop_endless_iff index.toNat_lt few]
    constructor
    · intro ends u same
      cases same
      exact ends
    · exact fun ends => ends t rfl

/- ## By name -/

section Names

variable {filename : Str} {wildcard files_only : Bool} {walk fuel left : Nat}

/- More passes change nothing. -/
theorem walkLoop_more {more : Nat} (enough : fuel ≤ more) {r : Bool × HDDStream} (ends : walkLoop index fuel s = some r) :
    walkLoop index more s = some r := by
  induction fuel generalizing s more with
  | zero => cases ends
  | succ fuel ih =>
    obtain ⟨more, rfl⟩ : ∃ k, more = k + 1 := ⟨more - 1, by omega⟩
    cases here : look s.container s.cursor with
    | none =>
      obtain ⟨t, stop⟩ := walkLoop_stop here
      rw [stop] at ends ⊢
      exact ends
    | some next =>
      obtain ⟨t, -, -, -, pass⟩ := walkLoop_look (show look s.container s.cursor = some (next.1, next.2) from here)
      rw [pass, visit] at ends ⊢
      split at ends
      · rename_i label
        rw [if_pos label]
        exact ih (by omega) ends
      · rename_i label
        rw [if_neg label]
        split at ends
        · rename_i free
          rw [if_pos free]
          exact ih (by omega) ends
        · rename_i live
          rw [if_neg live]
          dsimp only at ends ⊢
          split at ends
          · rename_i few
            rw [if_pos few]
            exact ih (by omega) ends
          · rename_i last
            rw [if_neg last]
            exact ends

theorem seekEntryAt_more {more : Nat} (enough : fuel ≤ more) {r : Bool × HDDStream}
    (ends : seekEntryAt fuel index s = some r) : seekEntryAt more index s = some r := by
  cases begun : s.begins index with
  | some t =>
    rw [seekEntryAt_begins begun] at ends ⊢
    exact walkLoop_more enough ends
  | none =>
    cases listing : s.partition_list with
    | true =>
      rw [seekEntryAt_listing listing] at ends ⊢
      exact ends
    | false =>
      obtain ⟨t, runs⟩ := seekEntryAt_none listing begun
      rw [runs] at ends ⊢
      exact ends

theorem matchLoop_more {walk' more : Nat} (enough : walk ≤ walk') (enough' : fuel ≤ more) {r : Bool × HDDStream}
    (ends : matchLoop filename wildcard files_only walk fuel index s = some r) :
    matchLoop filename wildcard files_only walk' more index s = some r := by
  induction fuel generalizing s index more with
  | zero => cases ends
  | succ fuel ih =>
    obtain ⟨more, rfl⟩ : ∃ k, more = k + 1 := ⟨more - 1, by omega⟩
    rw [matchLoop] at ends ⊢
    cases call : seekEntryAt walk index s with
    | none =>
      rw [call] at ends
      cases ends
    | some out =>
      rw [call] at ends
      rw [seekEntryAt_more enough call]
      obtain ⟨ok, t⟩ := out
      cases ok with
      | false => exact ends
      | true =>
        dsimp only at ends ⊢
        split at ends
        · rename_i skipped
          rw [if_pos skipped]
          exact ih (by omega) ends
        · rename_i wanted
          rw [if_neg wanted]
          split at ends
          · rename_i same
            rw [if_pos same]
            exact ends
          · rename_i other
            rw [if_neg other]
            exact ih (by omega) ends

/-- The entry that a search by name ends with. -/
def Accepts (filename : Str) (wildcard files_only : Bool) (e : CfsEntry) : Prop :=
  ¬ (files_only = true ∧ (e.is_directory = true ∨ e.attributes &&& 7 = 0)) ∧ compareFilename e.filename filename wildcard = true

/- What follows a call by number that has found an entry. -/
theorem matchLoop_true (call : seekEntryAt walk index s = some (true, t)) (fuel : Nat) :
    (Accepts filename wildcard files_only t.entry →
        matchLoop filename wildcard files_only walk (fuel + 1) index s = some (true, t)) ∧
      (¬ Accepts filename wildcard files_only t.entry →
        matchLoop filename wildcard files_only walk (fuel + 1) index s =
          matchLoop filename wildcard files_only walk fuel ((index + 1) % 65536) t) := by
  rw [matchLoop, call, Accepts]
  dsimp only
  constructor
  · rintro ⟨wanted, same⟩
    rw [if_neg wanted, if_pos same]
  · intro other
    split
    · rfl
    · rename_i wanted
      rw [if_neg fun same => other ⟨wanted, same⟩]

theorem matchLoop_false (call : seekEntryAt walk index s = some (false, t)) (fuel : Nat) :
    matchLoop filename wildcard files_only walk (fuel + 1) index s = some (false, t) := by
  rw [matchLoop, call]

/- A search in the list of partitions ends at the latest when its number comes round to 0. -/
theorem matchLoop_listing (listing : s.partition_list = true) (few : index < 65536) :
    ∃ fuel, ∀ walk, (matchLoop filename wildcard files_only walk fuel index s).isSome := by
  obtain ⟨m, left⟩ : ∃ m, index = 0 ∨ 65536 ≤ index + m := ⟨65536, .inr (by omega)⟩
  induction m generalizing index s with
  | zero =>
    refine ⟨1, fun walk => ?_⟩
    have zero : index = 0 := by omega
    subst zero
    rw [matchLoop_false (t := s) (seekEntryAt_listing listing walk 0)]
    rfl
  | succ m ih =>
    rcases found : s.seekPartitionEntry index with ⟨ok, t⟩
    have call : ∀ walk, seekEntryAt walk index s = some (ok, t) := fun walk => by
      rw [seekEntryAt_listing listing, found]
    cases ok with
    | false => exact ⟨1, fun walk => by rw [matchLoop_false (call walk)]; rfl⟩
    | true =>
      have still : t.partition_list = true := by
        unfold seekPartitionEntry at found
        split at found
        · cases found
        · split at found
          · cases found
          · cases found
            exact listing
      have some_ : index ≠ 0 := by
        rintro rfl
        rw [show s.seekPartitionEntry 0 = (false, s) from rfl] at found
        cases found
      obtain ⟨fuel, runs⟩ := ih still (Nat.mod_lt (index + 1) (show 65536 > 0 by decide)) (by omega)
      refine ⟨fuel + 1, fun walk => ?_⟩
      by_cases accepted : Accepts filename wildcard files_only t.entry
      · rw [(matchLoop_true (call walk) fuel).1 accepted]
        rfl
      · rw [(matchLoop_true (call walk) fuel).2 accepted]
        exact runs walk

/- A search in the middle of a call by number, with so many passes of its loop left. -/
def resumed (filename : Str) (wildcard files_only : Bool) (walk fuel left : Nat) (s : HDDStream) : Option (Bool × HDDStream) :=
  (walkLoop (s.walk_count + 1) left s).bind fun r =>
    if r.1 = false then some r
    else if files_only = true ∧ (r.2.entry.is_directory = true ∨ r.2.entry.attributes &&& 7 = 0) then
      matchLoop filename wildcard files_only walk fuel ((s.walk_count + 2) % 65536) r.2
    else if compareFilename r.2.entry.filename filename wildcard = true then some r
    else matchLoop filename wildcard files_only walk fuel ((s.walk_count + 2) % 65536) r.2

theorem matchLoop_resumed (begun : s.begins (t.walk_count + 1) = some t) (walk fuel : Nat) :
    matchLoop filename wildcard files_only walk (fuel + 1) (t.walk_count + 1) s =
      resumed filename wildcard files_only walk fuel walk t := by
  rw [matchLoop, seekEntryAt_begins begun, resumed]
  rcases walkLoop (t.walk_count + 1) walk t with _ | ⟨ok, u⟩
  · rfl
  · cases ok with
    | false => rfl
    | true => rfl

theorem resumed_more {walk' more more' : Nat} (enough : walk ≤ walk') (enough' : fuel ≤ more) (enough'' : left ≤ more')
    (ends : (resumed filename wildcard files_only walk fuel left s).isSome) :
    (resumed filename wildcard files_only walk' more more' s).isSome := by
  unfold resumed at ends ⊢
  obtain ⟨r, result⟩ := Option.isSome_iff_exists.mp ends
  obtain ⟨out, walked, rest⟩ := Option.bind_eq_some_iff.mp result
  rw [walkLoop_more enough'' walked, Option.bind_some]
  split
  · rfl
  · rename_i found
    rw [if_neg found] at rest
    split
    · rename_i skipped
      rw [if_pos skipped] at rest
      rw [matchLoop_more enough enough' rest]
      rfl
    · rename_i wanted
      rw [if_neg wanted] at rest
      split
      · rfl
      · rename_i other
        rw [if_neg other] at rest
        rw [matchLoop_more enough enough' rest]
        rfl

/- In the middle of the walk of a directory. -/
structure Going (s : HDDStream) : Prop where
  inside : s.partition_list = false
  there : s.dir_start_lba ≠ 0
  loaded : s.walk_lba ≠ 0

theorem Going.moved (going : Going s) (moved : Moved s t) : Going t where
  inside := moved.inside.trans going.inside
  there := by
    rw [moved.start]
    exact going.there
  loaded := moved.loaded going.loaded

theorem Going.begins (going : Going s) : s.begins (s.walk_count + 1) = some s := by
  rw [HDDStream.begins, if_neg (by rw [going.inside]; decide), if_neg, if_neg]
  · rintro (low | lost)
    · omega
    · exact going.loaded lost
  · rintro (zero | root)
    · omega
    · exact going.there root

theorem resumed_stop (none : look s.container s.cursor = none) :
    (resumed filename wildcard files_only walk fuel (left + 1) s).isSome := by
  obtain ⟨t, stop⟩ := walkLoop_stop none
  rw [resumed, stop]
  rfl

/- An entry that is free or a label. -/
theorem resumed_pass (below : s.walk_count + 1 < 65536) (here : look s.container s.cursor = some (de, cur))
    (other : de.isListed = false) :
    ∃ t, Moved s t ∧ t.cursor = cur ∧ t.walk_count = s.walk_count ∧ ∀ walk fuel left,
      resumed filename wildcard files_only walk fuel (left + 1) s = resumed filename wildcard files_only walk fuel left t := by
  obtain ⟨t, moved, stands, count, pass⟩ := walkLoop_pass here below (by rw [other]; exact Nat.lt_succ_self _)
  rw [other] at count
  have same : t.walk_count = s.walk_count := count
  refine ⟨t, moved, stands, same, fun walk fuel left => ?_⟩
  rw [resumed, resumed, pass, same]

/- An entry of the listing: it is accepted, or the search asks for the next one. -/
theorem resumed_found (below : s.walk_count + 1 < 65536) (here : look s.container s.cursor = some (de, cur))
    (live : de.isListed = true) :
    ∃ t, Moved s t ∧ t.cursor = cur ∧ t.walk_count = s.walk_count + 1 ∧ ∀ walk fuel left,
      (Accepts filename wildcard files_only de.asEntry →
        (resumed filename wildcard files_only walk fuel (left + 1) s).isSome) ∧
      (¬ Accepts filename wildcard files_only de.asEntry →
        resumed filename wildcard files_only walk fuel (left + 1) s =
          matchLoop filename wildcard files_only walk fuel ((s.walk_count + 2) % 65536) t) := by
  obtain ⟨t, moved, stands, count, entry, found⟩ := walkLoop_found here below live rfl
  refine ⟨t, moved, stands, count, fun walk fuel left => ?_⟩
  rw [resumed, found, Option.bind_some, if_neg (show ¬ true = false by decide), entry, Accepts]
  constructor
  · rintro ⟨wanted, same⟩
    rw [if_neg wanted, if_pos same]
    rfl
  · intro other
    split
    · rfl
    · rename_i wanted
      rw [if_neg fun same => other ⟨wanted, same⟩]

/-- Entries that a search passes over, and not too many for a number of sixteen bits. -/
def PassedOver (filename : Str) (wildcard files_only : Bool) (s : HDDStream) (xs : List DirectoryEntry) : Prop :=
  s.walk_count + xs.countP (·.isListed) < 65535 ∧
    ∀ de ∈ xs, de.isListed = true → ¬ Accepts filename wildcard files_only de.asEntry

theorem PassedOver.cons_iff {xs : List DirectoryEntry}
    (count : t.walk_count = s.walk_count + if de.isListed then 1 else 0) :
    PassedOver filename wildcard files_only s (de :: xs) ↔
      (de.isListed = true → ¬ Accepts filename wildcard files_only de.asEntry) ∧
        PassedOver filename wildcard files_only t xs := by
  rw [PassedOver, PassedOver, List.countP_cons, List.forall_mem_cons, count]
  constructor
  · rintro ⟨few, first, rest⟩
    exact ⟨first, by omega, rest⟩
  · rintro ⟨first, few, rest⟩
    exact ⟨by omega, first, rest⟩

/- The search runs on for ever. -/
def Runs (filename : Str) (wildcard files_only : Bool) (s : HDDStream) : Prop :=
  ∀ walk fuel left, resumed filename wildcard files_only walk fuel left s = none

/- A search that runs on has an entry to look at, and passes it over. -/
theorem Runs.next (runs : Runs filename wildcard files_only s) (going : Going s) (few : s.walk_count < 65535) :
    ∃ de t, Moved s t ∧ look s.container s.cursor = some (de, t.cursor) ∧
      t.walk_count = s.walk_count + (if de.isListed then 1 else 0) ∧ t.walk_count < 65535 ∧
      (de.isListed = true → ¬ Accepts filename wildcard files_only de.asEntry) ∧ Runs filename wildcard files_only t := by
  cases here : look s.container s.cursor with
  | none =>
    have ends := @resumed_stop s filename wildcard files_only 0 0 0 here
    rw [runs] at ends
    cases ends
  | some next =>
    obtain ⟨de, cur⟩ := next
    cases live : de.isListed with
    | false =>
      obtain ⟨t, moved, rfl, count, pass⟩ := @resumed_pass s de cur filename wildcard files_only (by omega) here live
      refine ⟨de, t, moved, rfl, ?_, by omega, fun other => ?_, fun walk fuel left => ?_⟩
      · rw [live]
        exact count
      · rw [live] at other
        cases other
      · rw [← pass]
        exact runs walk fuel (left + 1)
    | true =>
      obtain ⟨t, moved, rfl, count, pass⟩ := @resumed_found s de cur filename wildcard files_only (by omega) here live
      have refused : ¬ Accepts filename wildcard files_only de.asEntry := by
        intro accepted
        have ends := (pass 0 0 0).1 accepted
        rw [runs] at ends
        cases ends
      have again : ∀ walk fuel, matchLoop filename wildcard files_only walk fuel ((s.walk_count + 2) % 65536) t = none := by
        intro walk fuel
        rw [← (pass walk fuel 0).2 refused]
        exact runs walk fuel 1
      -- the number does not come round to 0
      have few' : t.walk_count < 65535 := by
        by_contra many
        have zero : (s.walk_count + 2) % 65536 = 0 := by omega
        have going' := going.moved moved
        have call : seekEntryAt 0 0 t = some (false, t) := by
          rw [seekEntryAt, if_neg (by rw [going'.inside]; decide), if_pos (.inl rfl)]
        have ends := again 0 1
        rw [zero, matchLoop_false call] at ends
        cases ends
      refine ⟨de, t, moved, rfl, by rw [live]; exact count, few', fun _ => refused, fun walk fuel left => ?_⟩
      by_contra some_
      have ends := resumed_more (Nat.le_max_left walk left) (Nat.le_refl fuel) (Nat.le_max_right walk left)
        (Option.ne_none_iff_isSome.mp some_)
      rw [← matchLoop_resumed (going.moved moved).begins] at ends
      have number : t.walk_count + 1 = (s.walk_count + 2) % 65536 := by omega
      rw [number, again] at ends
      cases ends

theorem Runs.trail (runs : Runs filename wildcard files_only s) (going : Going s) (few : s.walk_count < 65535) (n : Nat) :
    ∃ xs cur, xs.length = n ∧ Trail (look s.container) s.cursor xs cur ∧ PassedOver filename wildcard files_only s xs := by
  induction n generalizing s with
  | zero => exact ⟨[], s.cursor, rfl, .nil, few, nofun⟩
  | succ n ih =>
    obtain ⟨de, t, moved, here, count, few', refused, runs'⟩ := runs.next going few
    obtain ⟨xs, cur, long, trail, passed⟩ := ih runs' (going.moved moved) few'
    rw [moved.container] at trail
    exact ⟨de :: xs, cur, by rw [List.length_cons, long], .cons here trail, (PassedOver.cons_iff count).mpr ⟨refused, passed⟩⟩

/- Entries without end to pass over. -/
def Supplied (filename : Str) (wildcard files_only : Bool) (s : HDDStream) : Prop :=
  ∀ n, ∃ xs cur, xs.length = n ∧ Trail (look s.container) s.cursor xs cur ∧ PassedOver filename wildcard files_only s xs

theorem Supplied.first (supplied : Supplied filename wildcard files_only s) :
    ∃ de cur, look s.container s.cursor = some (de, cur) ∧ s.walk_count + (if de.isListed then 1 else 0) < 65535 ∧
      (de.isListed = true → ¬ Accepts filename wildcard files_only de.asEntry) := by
  obtain ⟨xs, cur, long, trail, few, passed⟩ := supplied 1
  cases trail with
  | nil => cases long
  | @cons _ t _ de xs here rest =>
    rw [List.countP_cons] at few
    exact ⟨de, t, here, by omega, passed de List.mem_cons_self⟩

theorem Supplied.rest (supplied : Supplied filename wildcard files_only s) (moved : Moved s t)
    (here : look s.container s.cursor = some (de, t.cursor))
    (count : t.walk_count = s.walk_count + if de.isListed then 1 else 0) : Supplied filename wildcard files_only t := by
  intro n
  obtain ⟨xs, cur, long, trail, passed⟩ := supplied (n + 1)
  cases trail with
  | nil => cases long
  | cons here' rest =>
    rw [here, Option.some.injEq, Prod.mk.injEq] at here'
    obtain ⟨rfl, same⟩ := here'
    rw [← same] at rest
    rw [moved.container]
    exact ⟨_, cur, Nat.succ.inj long, rest, ((PassedOver.cons_iff count).mp passed).2⟩

/- A pass of a supplied search: the loop goes on with the next entry, or, where the entry is listed, with the next
call by number. -/
theorem Supplied.step (supplied : Supplied filename wildcard files_only s) (going : Going s) :
    ∃ t, Supplied filename wildcard files_only t ∧ Going t ∧
      ((∀ walk fuel left, resumed filename wildcard files_only walk fuel (left + 1) s =
          resumed filename wildcard files_only walk fuel left t) ∨
        ∀ walk left, resumed filename wildcard files_only walk 0 (left + 1) s = none ∧
          ∀ fuel, resumed filename wildcard files_only walk (fuel + 1) (left + 1) s =
            resumed filename wildcard files_only walk fuel walk t) := by
  obtain ⟨de, cur, here, few, refused⟩ := supplied.first
  cases live : de.isListed with
  | false =>
    obtain ⟨t, moved, rfl, count, pass⟩ := @resumed_pass s de cur filename wildcard files_only (by omega) here live
    exact ⟨t, supplied.rest moved here (by rw [live]; exact count), going.moved moved, .inl pass⟩
  | true =>
    obtain ⟨t, moved, rfl, count, pass⟩ := @resumed_found s de cur filename wildcard files_only (by omega) here live
    refine ⟨t, supplied.rest moved here (by rw [live]; exact count), going.moved moved, .inr fun walk left => ⟨?_, ?_⟩⟩
    · rw [(pass walk 0 left).2 (refused live)]
      rfl
    · intro fuel
      rw [if_pos live] at few
      have number : (s.walk_count + 2) % 65536 = t.walk_count + 1 := by omega
      rw [(pass walk (fuel + 1) left).2 (refused live), number, matchLoop_resumed (going.moved moved).begins]

theorem Supplied.runs (supplied : Supplied filename wildcard files_only s) (going : Going s) :
    Runs filename wildcard files_only s := by
  intro walk fuel left
  -- a call by number is followed by fewer calls, and a pass by fewer passes of the call
  induction fuel using Nat.strong_induction_on generalizing left s with
  | _ fuel again =>
    induction left generalizing s with
    | zero => rfl
    | succ left ih =>
      obtain ⟨t, still, onward, pass | call⟩ := supplied.step going
      · rw [pass]
        exact ih still onward
      · cases fuel with
        | zero => exact (call walk left).1
        | succ fuel =>
          rw [(call walk left).2]
          exact again fuel (Nat.lt_succ_self fuel) still onward walk

/-- A search does not come back exactly when it comes to a circle without entries, with none before it that
it accepts. -/
theorem runs_iff (going : Going s) (few : s.walk_count < 65535) :
    Runs filename wildcard files_only s ↔
      Barren (look s.container) (·.isListed) (PassedOver filename wildcard files_only s) s.cursor := by
  rw [← endless_iff_barren (places_finite s.container s.cursor) (places_closed s.container s.cursor)
    (places_start s.container s.cursor) (n := 65535)]
  · exact ⟨fun runs n => runs.trail going few n, fun supplied => Supplied.runs supplied going⟩
  · rintro xs ⟨few, -⟩
    omega
  · rintro xs ys ⟨few, passed⟩
    rw [List.countP_append] at few
    exact ⟨by omega, fun de member => passed de (List.mem_append_left ys member)⟩
  · rintro xs ys ⟨few, passed⟩ none
    refine ⟨by rw [List.countP_append]; omega, fun de member live => ?_⟩
    rcases List.mem_append.mp member with first | second
    · exact passed de first live
    · exact absurd live (List.countP_eq_zero.mp none de second)

theorem begins_going (begun : s.begins index = some t) : Going t := by
  obtain ⟨-, inside, there, loaded⟩ := begins_facts begun
  exact ⟨inside, there, loaded⟩

/-- A search by name comes back exactly when its walk comes to no circle without entries before it finds one
it accepts. -/
theorem matchLoop_isSome_iff (s : HDDStream) :
    (∃ fuel, (matchLoop filename wildcard files_only fuel fuel 1 s).isSome) ↔
      ∀ t, s.begins 1 = some t →
        ¬ Barren (look t.container) (·.isListed) (PassedOver filename wildcard files_only t) t.cursor := by
  cases begun : s.begins 1 with
  | none =>
    refine iff_of_true ?_ fun t other => by cases other
    cases listing : s.partition_list with
    | true =>
      obtain ⟨fuel, runs⟩ := @matchLoop_listing s 1 filename wildcard files_only listing (by decide)
      obtain ⟨r, ends⟩ := Option.isSome_iff_exists.mp (runs fuel)
      exact ⟨fuel, by rw [ends]; rfl⟩
    | false =>
      obtain ⟨t, runs⟩ := seekEntryAt_none listing begun
      exact ⟨1, by rw [matchLoop_false (runs 1)]; rfl⟩
  | some t =>
    have first : t.walk_count = 0 := by
      have few := (begins_facts begun).1
      omega
    have begun' : s.begins (t.walk_count + 1) = some t := by rw [first, begun]
    have resume : ∀ fuel, matchLoop filename wildcard files_only (fuel + 1) (fuel + 1) 1 s =
        resumed filename wildcard files_only (fuel + 1) fuel (fuel + 1) t := by
      intro fuel
      rw [← matchLoop_resumed begun', first]
    have ends : (∃ fuel, (matchLoop filename wildcard files_only fuel fuel 1 s).isSome) ↔
        ¬ Runs filename wildcard files_only t := by
      constructor
      · rintro ⟨fuel, ends⟩ runs
        cases fuel with
        | zero => cases ends
        | succ fuel =>
          rw [resume, runs] at ends
          cases ends
      · intro ends
        simp only [Runs, not_forall] at ends
        obtain ⟨walk, fuel, left, some_⟩ := ends
        refine ⟨max walk (max fuel left) + 1, ?_⟩
        rw [resume]
        exact resumed_more (by omega) (by omega) (by omega) (Option.ne_none_iff_isSome.mp some_)
    rw [ends, runs_iff (begins_going begun) (by omega)]
    constructor
    · intro fair u same
      cases same
      exact fair
    · exact fun fair => fair t rfl

end Names

/-- Walks through a directory come back, by number or by name, exactly when they do not run into a circle of
sectors without entries before they have the entry they want. -/
theorem comes_back_iff (s : HDDStream) (index : UInt16) (filename : Str) :
    ((∃ fuel, (seekEntryAt fuel index.toNat s).isSome) ↔
      ∀ t, s.begins index.toNat = some t →
        ¬ Barren (look t.container) (·.isListed) (FewerThan index.toNat t) t.cursor) ∧
    ((∃ fuel, (seekEntry fuel filename s).isSome) ↔
      filename = [] ∨ ∀ t, s.begins 1 = some t →
        ¬ Barren (look t.container) (·.isListed)
          (PassedOver (toPETSCII2 (slashed filename)) (isWildcard (toPETSCII2 (slashed filename)))
            (isWildcard (toPETSCII2 (slashed filename)) && wildcardOnly (toPETSCII2 (slashed filename))) t) t.cursor) := by
  refine ⟨seekEntryAt_isSome_iff s index, ?_⟩
  by_cases empty : filename = []
  · exact iff_of_true ⟨0, by rw [seekEntry, if_pos empty]; rfl⟩ (.inl empty)
  · rw [or_iff_right empty, ← matchLoop_isSome_iff]
    refine exists_congr fun fuel => ?_
    rw [seekEntry, if_neg empty]

/- A directory of one sector without entries that leads to itself. -/
def circle : Container where
  data := fun k => if k = 628 then 0x10 else 0
  size := 1024

theorem circle_endless : ∃ (s : HDDStream) (index : UInt16), ∀ fuel, seekEntryAt fuel index.toNat s = none := by
  have facts : (readSector circle 1).map (fun buf => (nextDirSector buf,
      ((List.range 16).map (directoryEntry buf)).countP (·.isListed))) = some (1, 0) := by decide +kernel
  obtain ⟨buf, read, facts⟩ := Option.map_eq_some_iff.mp facts
  obtain ⟨itself, empty⟩ := Prod.mk.inj facts
  let s : HDDStream := { sampleStream with container := circle, dir_start_lba := 1 }
  let t : HDDStream := { s.restartDirWalk with dir_buf := buf, walk_lba := 1 }
  have begun : s.begins 1 = some t := by
    have sector : readSector s.restartDirWalk.container s.dir_start_lba = some buf := read
    rw [begins, if_neg (by decide), if_neg (by decide), if_pos (by decide), readDirSector, sector]
  -- through the sector, and from its end through it again
  have through := trail_slots circle buf (Nat.le_refl 16)
  have again : look circle (buf, 16) = look circle (buf, 0) :=
    look_next (by rw [itself]; decide) (by rw [itself]; exact read)
  have some_ : (List.range 16).map (directoryEntry buf) ≠ [] := by simp
  refine ⟨s, 1, fun fuel => ?_⟩
  have number : (1 : UInt16).toNat = 1 := rfl
  rw [number, seekEntryAt_begins begun]
  refine (walkLoop_endless_iff (by decide) (begins_facts begun).1).mpr ?_ fuel
  refine ⟨_, _, _, through, ?_, some_, through.congr_head again some_, empty⟩
  rw [FewerThan, empty]
  exact Nat.one_pos

end HDDStream

end Meatloaf.Hd
