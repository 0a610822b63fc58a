import Mathlib.Data.List.AList
import Mathlib.Data.List.InsertIdx
import Mathlib.Data.List.Perm.Basic
import Meatloaf.Lib.Run
import Meatloaf.Text.Names

/-! `ImageBroker`: the decoded media streams the firmware keeps open, found by the file they
were decoded from. Two containers hold them: the streams by key, and the keys in the order
they came in. Which keys are in use is asked of the drives again at every call. -/
namespace Meatloaf

open Lib

/- The `sourceFile` of a resolved path, as far as a key is made of it. -/
structure Source where
  url : Str
  pathInStream : Str
  deriving DecidableEq

/-- The key of an image: its type and the full path of its container. -/
def Source.key (file : Source) (type : Str) : Str :=
  type ++ file.url ++
    (if file.pathInStream = [] ∨ file.pathInStream = [slash] then [] else slash :: file.pathInStream)

structure LRUEntry where
  key : Str
  last_access : Nat
  deriving DecidableEq

structure ImageBroker (σ : Type) where
  image_repo : AList (fun _ : Str => σ) := ∅
  lru_order : List LRUEntry := []
  last_cleanup : Nat := 0

namespace ImageBroker

variable {σ : Type}

def max_entries : Nat := 50

def cleanup_interval_ms : Nat := 60000

/- Milliseconds between two readings of the steady clock, which counts nanoseconds. -/
def elapsed (now since : Nat) : Nat := (now - since) / 1000000

/-- `evict_lru_if_needed`, with as many rounds as there are entries. Erasing leaves the
iterator on the next entry, and the loop ends when that is the new end. -/
def evictRounds (inUse : Str → Bool) : Nat → ImageBroker σ → ImageBroker σ
  | 0, s => s
  | fuel + 1, s =>
    if s.lru_order.length < max_entries then s
    else
      match s.lru_order.findIdx? fun e => !inUse e.key with
      | none => s
      | some i =>
        let s' := { s with
          image_repo := s.image_repo.erase ((s.lru_order.map (·.key)).getD i [])
          lru_order := s.lru_order.eraseIdx i }
        if i = s'.lru_order.length then s' else evictRounds inUse fuel s'

def evictLruIfNeeded (inUse : Str → Bool) (s : ImageBroker σ) : ImageBroker σ :=
  evictRounds inUse s.lru_order.length s

def cleanupLoop (inUse : Str → Bool) (now : Nat) :
    List LRUEntry → AList (fun _ : Str => σ) → List LRUEntry × AList (fun _ : Str => σ)
  | [], repo => ([], repo)
  | e :: es, repo =>
    if cleanup_interval_ms ≤ elapsed now e.last_access ∧ inUse e.key = false then
      cleanupLoop inUse now es (repo.erase e.key)
    else
      let rest := cleanupLoop inUse now es repo
      (e :: rest.1, rest.2)

def cleanupOldEntries (inUse : Str → Bool) (now : Nat) (s : ImageBroker σ) : ImageBroker σ :=
  if elapsed now s.last_cleanup < cleanup_interval_ms then s
  else
    let rest := cleanupLoop inUse now s.lru_order s.image_repo
    { image_repo := rest.2, lru_order := rest.1, last_cleanup := now }

/- The first entry with the key is stamped; it keeps its place. -/
def touchEntries (key : Str) (now : Nat) : List LRUEntry → List LRUEntry
  | [] => []
  | e :: es => if e.key = key then { e with last_access := now } :: es else e :: touchEntries key now es

def touchEntry (key : Str) (now : Nat) (s : ImageBroker σ) : ImageBroker σ :=
  { s with lru_order := touchEntries key now s.lru_order }

/-- `obtain(type, url)`. `file` is the source file of what the url resolves to, if it has
one, and `built` the stream that opening it gives, if it does. -/
def obtain (inUse : Str → Bool) (now later : Nat) (type : Str) (file : Option Source) (built : Option σ)
    (s : ImageBroker σ) : Option σ × ImageBroker σ :=
  match file with
  | none => (none, s)
  | some f =>
    match s.image_repo.lookup (f.key type) with
    | some image => (some image, s.touchEntry (f.key type) now)
    | none =>
      let s := (s.cleanupOldEntries inUse now).evictLruIfNeeded inUse
      match built with
      | none => (none, s)
      | some image =>
        (some image, { s with
          image_repo := s.image_repo.insert (f.key type) image
          lru_order := s.lru_order ++ [⟨f.key type, later⟩] })

def dispose (url : Str) (s : ImageBroker σ) : ImageBroker σ :=
  if url ∈ s.image_repo then
    { s with image_repo := s.image_repo.erase url, lru_order := s.lru_order.filter (·.key ≠ url) }
  else s

def disposeFor (type : Str) (file : Option Source) (s : ImageBroker σ) : ImageBroker σ :=
  match file with
  | none => s
  | some f => s.dispose (f.key type)

def validate (inUse : Str → Bool) (s : ImageBroker σ) : ImageBroker σ :=
  (s.image_repo.keys.filter (!inUse ·)).foldl (fun s key => s.dispose key) s

def clear (s : ImageBroker σ) : ImageBroker σ := { s with image_repo := ∅, lru_order := [] }

def keys (s : ImageBroker σ) : List Str := s.lru_order.map (·.key)

/-- The two containers hold the same keys, each of them once. -/
def Synced (s : ImageBroker σ) : Prop := s.keys.Perm s.image_repo.keys

/-- The operations that only remove: what is left was there before, in the same order. -/
structure Trims (s s' : ImageBroker σ) : Prop where
  order : s'.lru_order.Sublist s.lru_order
  synced : s.Synced → s'.Synced
  streams : ∀ key image, s'.image_repo.lookup key = some image → s.image_repo.lookup key = some image

/-- Nothing in use is removed. -/
def Spares (inUse : Str → Bool) (s s' : ImageBroker σ) : Prop :=
  ∀ key ∈ s.image_repo, inUse key = true → key ∈ s'.image_repo

theorem Trims.refl (s : ImageBroker σ) : Trims s s :=
  ⟨List.Sublist.refl _, id, fun _ _ found => found⟩

theorem Trims.trans {s t u : ImageBroker σ} (first : Trims s t) (second : Trims t u) : Trims s u :=
  ⟨second.order.trans first.order, fun synced => second.synced (first.synced synced),
    fun key image found => first.streams key image (second.streams key image found)⟩

theorem Spares.refl (inUse : Str → Bool) (s : ImageBroker σ) : Spares inUse s s := fun _ member _ => member

theorem Spares.trans {inUse : Str → Bool} {s t u : ImageBroker σ} (first : Spares inUse s t)
    (second : Spares inUse t u) : Spares inUse s u :=
  fun key member used => second key (first key member used) used

theorem mem_repo {s : ImageBroker σ} (synced : s.Synced) {key : Str} : key ∈ s.image_repo ↔ key ∈ s.keys := by
  rw [AList.mem_keys]
  exact synced.mem_iff.symm

theorem Synced.nodup {s : ImageBroker σ} (synced : s.Synced) : s.keys.Nodup :=
  synced.nodup_iff.mpr s.image_repo.keys_nodup

theorem Trims.keys {s s' : ImageBroker σ} (trims : Trims s s') : s'.keys.Sublist s.keys := trims.order.map _

theorem lookup_erase_some {repo : AList (fun _ : Str => σ)} {key url : Str} {image : σ}
    (found : (repo.erase url).lookup key = some image) : repo.lookup key = some image := by
  by_cases same : key = url
  · rw [same, AList.lookup_erase] at found
    cases found
  · rw [AList.lookup_erase_ne same] at found
    exact found

/- Taking one entry out of both containers. -/
theorem erase_perm {entries rest : List LRUEntry} {e : LRUEntry} {repo : AList (fun _ : Str => σ)}
    (parts : entries.Perm (e :: rest)) (synced : (entries.map (·.key)).Perm repo.keys) :
    (rest.map (·.key)).Perm (repo.erase e.key).keys := by
  have whole : (e.key :: rest.map (·.key)).Perm repo.keys :=
    (List.Perm.map LRUEntry.key parts).symm.trans synced
  have once := List.nodup_cons.mp (whole.nodup_iff.mpr repo.keys_nodup)
  refine (List.perm_ext_iff_of_nodup once.2 (AList.keys_nodup _)).mpr fun key => ?_
  have member := whole.mem_iff (a := key)
  rw [List.mem_cons] at member
  rw [← AList.mem_keys, AList.mem_erase, AList.mem_keys, ← member]
  constructor
  · intro inside
    exact ⟨fun same => once.1 (same ▸ inside), .inr inside⟩
  · intro inside
    exact inside.2.resolve_left inside.1

/- The state after one round of `evict_lru_if_needed`. -/
def evictAt (i : Nat) (s : ImageBroker σ) : ImageBroker σ :=
  { s with
    image_repo := s.image_repo.erase ((s.lru_order.map (·.key)).getD i [])
    lru_order := s.lru_order.eraseIdx i }

theorem evictAt_trims (s : ImageBroker σ) {i : Nat} (inside : i < s.lru_order.length) : Trims s (s.evictAt i) where
  order := List.eraseIdx_sublist ..
  synced := by
    intro synced
    have name : (s.lru_order.map (·.key)).getD i [] = s.lru_order[i].key := by
      rw [List.getD_eq_getElem _ _ (by simpa using inside), List.getElem_map]
    unfold evictAt
    rw [name]
    exact erase_perm (List.getElem_cons_eraseIdx_perm inside).symm synced
  streams := fun _ _ found => lookup_erase_some found

theorem evictAt_spares (inUse : Str → Bool) (s : ImageBroker σ) {i : Nat}
    (first : s.lru_order.findIdx? (fun e => !inUse e.key) = some i) : Spares inUse s (s.evictAt i) := by
  obtain ⟨inside, free, -⟩ := List.findIdx?_eq_some_iff_getElem.mp first
  intro key member used
  refine AList.mem_erase.mpr ⟨?_, member⟩
  rintro rfl
  rw [List.getD_eq_getElem _ _ (by simpa using inside), List.getElem_map] at used
  rw [used] at free
  exact absurd free (by decide)

theorem evictRounds_trims (inUse : Str → Bool) (fuel : Nat) (s : ImageBroker σ) :
    Trims s (evictRounds inUse fuel s) ∧ Spares inUse s (evictRounds inUse fuel s) := by
  induction fuel generalizing s with
  | zero => exact ⟨Trims.refl s, Spares.refl inUse s⟩
  | succ fuel ih =>
    unfold evictRounds
    split
    · exact ⟨Trims.refl s, Spares.refl inUse s⟩
    · split
      · exact ⟨Trims.refl s, Spares.refl inUse s⟩
      · rename_i i first
        have trims := evictAt_trims s (List.findIdx?_eq_some_iff_getElem.mp first).1
        have spares := evictAt_spares inUse s first
        dsimp only
        split
        · exact ⟨trims, spares⟩
        · exact ⟨trims.trans (ih (s.evictAt i)).1, spares.trans (ih (s.evictAt i)).2⟩

theorem evictLruIfNeeded_trims (inUse : Str → Bool) (s : ImageBroker σ) :
    Trims s (s.evictLruIfNeeded inUse) ∧ Spares inUse s (s.evictLruIfNeeded inUse) :=
  evictRounds_trims inUse _ s

/- After the rounds there is room, or everything left is in use. -/
theorem evictRounds_room (inUse : Str → Bool) (fuel : Nat) (s : ImageBroker σ) (enough : s.lru_order.length ≤ fuel) :
    (evictRounds inUse fuel s).lru_order.length < max_entries ∨
      ∀ e ∈ (evictRounds inUse fuel s).lru_order, inUse e.key = true := by
  induction fuel generalizing s with
  | zero =>
    left
    have none := Nat.le_zero.mp enough
    rw [evictRounds, none]
    decide
  | succ fuel ih =>
    unfold evictRounds
    split
    · rename_i room
      exact .inl room
    · split
      · rename_i full
        right
        intro e member
        have used := List.findIdx?_eq_none_iff.mp full e member
        rwa [Bool.not_eq_false'] at used
      · rename_i i first
        obtain ⟨inside, -, earlier⟩ := List.findIdx?_eq_some_iff_getElem.mp first
        dsimp only
        split
        · -- the entry erased was the last one, and all before it are in use
          rename_i last
          right
          intro e member
          obtain ⟨j, inside', rfl⟩ := List.mem_iff_getElem.mp member
          have before : j < i := by rw [last]; exact inside'
          have used := earlier j before
          rw [List.getElem_eraseIdx_of_lt inside' before]
          simpa using used
        · refine ih _ ?_
          dsimp only
          rw [List.length_eraseIdx_of_lt inside]
          omega

/- Whatever relates the entries in the order they came in relates what is evicted to
what could have been evicted in its place. -/
theorem evictRounds_oldest (inUse : Str → Bool) {R : Str → Str → Prop} (fuel : Nat) (s : ImageBroker σ)
    (ordered : s.keys.Pairwise R) (key : Str) (member : key ∈ s.keys)
    (gone : key ∉ (evictRounds inUse fuel s).keys) :
    inUse key = false ∧ ∀ other ∈ (evictRounds inUse fuel s).keys, inUse other = false → R key other := by
  induction fuel generalizing s with
  | zero => exact absurd member gone
  | succ fuel ih =>
    unfold evictRounds at gone ⊢
    split at gone
    · exact absurd member gone
    · rename_i full
      rw [if_neg full]
      split at gone
      · exact absurd member gone
      · rename_i i first
        obtain ⟨inside, free, earlier⟩ := List.findIdx?_eq_some_iff_getElem.mp first
        have inside' : i < s.keys.length := by simpa [keys] using inside
        have rest : (s.evictAt i).keys = s.keys.eraseIdx i := (List.eraseIdx_map ..).symm
        -- the first free entry comes before every other free one
        have oldest : ∀ other ∈ (s.evictAt i).keys, inUse other = false → R s.keys[i] other := by
          intro other present unused
          rw [rest] at present
          obtain ⟨j, below, rfl⟩ := List.mem_iff_getElem.mp present
          by_cases before : j < i
          · have used := earlier j before
            rw [List.getElem_eraseIdx_of_lt below before] at unused
            have name : s.keys[j] = s.lru_order[j].key := List.getElem_map _
            rw [name] at unused
            rw [unused] at used
            exact absurd used (by decide)
          · rw [List.getElem_eraseIdx_of_ge below (by omega)]
            exact List.pairwise_iff_getElem.mp ordered i (j + 1) inside' _ (by omega)
        have chosen : inUse s.keys[i] = false := by
          have name : s.keys[i] = s.lru_order[i].key := List.getElem_map _
          rw [name]
          simpa using free
        dsimp only at gone ⊢
        by_cases same : key = s.keys[i]
        · subst same
          refine ⟨chosen, fun other present unused => oldest other ?_ unused⟩
          split at present
          · exact present
          · exact (evictRounds_trims inUse fuel (s.evictAt i)).1.keys.subset present
        · have left : key ∈ (s.evictAt i).keys := by
            rw [rest]
            obtain ⟨j, below, rfl⟩ := List.mem_iff_getElem.mp member
            exact List.mem_eraseIdx_iff_getElem.mpr ⟨j, below, fun eq => same (by simp only [eq]), rfl⟩
          split at gone
          · exact absurd left gone
          · rename_i more
            rw [if_neg more]
            exact ih (s.evictAt i) (ordered.sublist (evictAt_trims s inside).keys) left gone

theorem cleanupLoop_trims (inUse : Str → Bool) (now : Nat) (before entries : List LRUEntry)
    (repo : AList (fun _ : Str => σ)) :
    (((before ++ entries).map (·.key)).Perm repo.keys →
      ((before ++ (cleanupLoop inUse now entries repo).1).map (·.key)).Perm
        (cleanupLoop inUse now entries repo).2.keys) ∧
      (cleanupLoop inUse now entries repo).1.Sublist entries ∧
      (∀ key image, (cleanupLoop inUse now entries repo).2.lookup key = some image →
        repo.lookup key = some image) ∧
      ∀ key ∈ repo, inUse key = true → key ∈ (cleanupLoop inUse now entries repo).2 := by
  induction entries generalizing before repo with
  | nil => exact ⟨id, List.Sublist.refl _, fun _ _ found => found, fun _ member _ => member⟩
  | cons e entries ih =>
    unfold cleanupLoop
    split
    · rename_i stale
      obtain ⟨synced, order, streams, spares⟩ := ih before (repo.erase e.key)
      refine ⟨?_, order.cons e, ?_, ?_⟩
      · intro perm
        exact synced (erase_perm List.perm_middle perm)
      · intro key image found
        exact lookup_erase_some (streams key image found)
      · intro key member used
        refine spares key (AList.mem_erase.mpr ⟨?_, member⟩) used
        rintro rfl
        rw [stale.2] at used
        cases used
    · obtain ⟨synced, order, streams, spares⟩ := ih (before ++ [e]) repo
      refine ⟨?_, order.cons_cons e, streams, spares⟩
      intro perm
      rw [List.append_assoc, List.append_assoc] at synced
      exact synced perm

theorem cleanupOldEntries_trims (inUse : Str → Bool) (now : Nat) (s : ImageBroker σ) :
    Trims s (s.cleanupOldEntries inUse now) ∧ Spares inUse s (s.cleanupOldEntries inUse now) := by
  unfold cleanupOldEntries
  split
  · exact ⟨Trims.refl s, Spares.refl inUse s⟩
  · obtain ⟨synced, order, streams, spares⟩ := cleanupLoop_trims inUse now [] s.lru_order s.image_repo
    exact ⟨⟨order, synced, streams⟩, spares⟩

theorem dispose_trims (url : Str) (s : ImageBroker σ) : Trims s (s.dispose url) := by
  unfold dispose
  split
  · refine ⟨List.filter_sublist, ?_, fun _ _ found => lookup_erase_some found⟩
    intro synced
    have kept : (s.lru_order.filter (·.key ≠ url)).map (·.key) = s.keys.filter (· ≠ url) := by
      rw [keys, List.filter_map]
      rfl
    have once : (s.keys.filter (· ≠ url)).Nodup := synced.nodup.filter _
    unfold Synced keys
    rw [kept]
    refine (List.perm_ext_iff_of_nodup once (AList.keys_nodup _)).mpr fun key => ?_
    rw [← AList.mem_keys, AList.mem_erase, mem_repo synced, List.mem_filter, decide_eq_true_eq, and_comm]
  · exact Trims.refl s

theorem mem_dispose {url key : Str} {s : ImageBroker σ} :
    key ∈ (s.dispose url).image_repo ↔ key ≠ url ∧ key ∈ s.image_repo := by
  unfold dispose
  split
  · exact AList.mem_erase
  · rename_i absent
    constructor
    · intro member
      exact ⟨fun same => absent (same ▸ member), member⟩
    · exact And.right

theorem disposeFor_trims (type : Str) (file : Option Source) (s : ImageBroker σ) :
    Trims s (s.disposeFor type file) := by
  cases file with
  | none => exact Trims.refl s
  | some f => exact dispose_trims (f.key type) s

theorem disposeAll_trims (urls : List Str) (s : ImageBroker σ) :
    Trims s (urls.foldl (fun s key => s.dispose key) s) ∧
      ∀ key ∈ s.image_repo, key ∉ urls → key ∈ (urls.foldl (fun s key => s.dispose key) s).image_repo := by
  induction urls generalizing s with
  | nil => exact ⟨Trims.refl s, fun _ member _ => member⟩
  | cons url urls ih =>
    refine ⟨(dispose_trims url s).trans (ih (s.dispose url)).1, ?_⟩
    intro key member spared
    rw [List.mem_cons, not_or] at spared
    exact (ih (s.dispose url)).2 key (mem_dispose.mpr ⟨spared.1, member⟩) spared.2

theorem validate_trims (inUse : Str → Bool) (s : ImageBroker σ) :
    Trims s (s.validate inUse) ∧ Spares inUse s (s.validate inUse) := by
  refine ⟨(disposeAll_trims _ s).1, ?_⟩
  intro key member used
  refine (disposeAll_trims _ s).2 key member ?_
  simp [used]

theorem touchEntries_keys (key : Str) (now : Nat) (entries : List LRUEntry) :
    (touchEntries key now entries).map (·.key) = entries.map (·.key) := by
  induction entries with
  | nil => rfl
  | cons e entries ih =>
    unfold touchEntries
    split
    · rfl
    · rw [List.map_cons, List.map_cons, ih]

@[simp] theorem touchEntry_keys (key : Str) (now : Nat) (s : ImageBroker σ) : (s.touchEntry key now).keys = s.keys :=
  touchEntries_keys key now s.lru_order

/- The state an insertion finds. -/
def roomy (inUse : Str → Bool) (now : Nat) (s : ImageBroker σ) : ImageBroker σ :=
  (s.cleanupOldEntries inUse now).evictLruIfNeeded inUse

theorem roomy_trims (inUse : Str → Bool) (now : Nat) (s : ImageBroker σ) :
    Trims s (s.roomy inUse now) ∧ Spares inUse s (s.roomy inUse now) :=
  ⟨(cleanupOldEntries_trims inUse now s).1.trans (evictLruIfNeeded_trims inUse _).1,
    (cleanupOldEntries_trims inUse now s).2.trans (evictLruIfNeeded_trims inUse _).2⟩

theorem roomy_absent (inUse : Str → Bool) (now : Nat) {s : ImageBroker σ} {key : Str}
    (absent : s.image_repo.lookup key = none) : key ∉ (s.roomy inUse now).image_repo := by
  intro member
  obtain ⟨image, found⟩ := Option.isSome_iff_exists.mp (AList.lookup_isSome.mpr member)
  rw [(roomy_trims inUse now s).1.streams key image found] at absent
  cases absent

/-- The four things a call of `obtain` can do. -/
theorem obtain_cases (inUse : Str → Bool) (now later : Nat) (type : Str) (file : Option Source)
    (built : Option σ) (s : ImageBroker σ) :
    (file = none ∧ s.obtain inUse now later type file built = (none, s)) ∨
    (∃ f image, file = some f ∧ s.image_repo.lookup (f.key type) = some image ∧
      s.obtain inUse now later type file built = (some image, s.touchEntry (f.key type) now)) ∨
    (∃ f, file = some f ∧ s.image_repo.lookup (f.key type) = none ∧ built = none ∧
      s.obtain inUse now later type file built = (none, s.roomy inUse now)) ∨
    (∃ f image, file = some f ∧ s.image_repo.lookup (f.key type) = none ∧ built = some image ∧
      s.obtain inUse now later type file built = (some image, { s.roomy inUse now with
        image_repo := (s.roomy inUse now).image_repo.insert (f.key type) image
        lru_order := (s.roomy inUse now).lru_order ++ [⟨f.key type, later⟩] })) := by
  cases file with
  | none => exact .inl ⟨rfl, rfl⟩
  | some f =>
    cases found : s.image_repo.lookup (f.key type) with
    | some image => exact .inr (.inl ⟨f, image, rfl, found, by simp only [obtain, found]⟩)
    | none =>
      cases built with
      | none => exact .inr (.inr (.inl ⟨f, rfl, found, rfl, by simp only [obtain, found, roomy]⟩))
      | some image =>
        exact .inr (.inr (.inr ⟨f, image, rfl, found, rfl, by simp only [obtain, found, roomy]⟩))

/-- What is cached after `obtain` was cached before, or was built for this key. -/
theorem obtain_cached {inUse : Str → Bool} {now later : Nat} {type : Str} {file : Option Source}
    {built : Option σ} {s : ImageBroker σ} {key : Str} {image : σ}
    (found : (s.obtain inUse now later type file built).2.image_repo.lookup key = some image) :
    s.image_repo.lookup key = some image ∨
      ((∃ f, file = some f ∧ key = f.key type) ∧ built = some image) := by
  rcases obtain_cases inUse now later type file built s with
    ⟨-, result⟩ | ⟨f, _, -, -, result⟩ | ⟨f, -, -, -, result⟩ | ⟨f, made, rfl, -, rfl, result⟩
  · rw [result] at found
    exact .inl found
  · rw [result] at found
    exact .inl found
  · rw [result] at found
    exact .inl ((roomy_trims inUse now s).1.streams key image found)
  · rw [result] at found
    dsimp only at found
    by_cases same : key = f.key type
    · subst same
      rw [AList.lookup_insert] at found
      exact .inr ⟨⟨f, rfl, rfl⟩, found⟩
    · rw [AList.lookup_insert_ne same] at found
      exact .inl ((roomy_trims inUse now s).1.streams key image found)

/-- What `obtain` hands out was cached under the key, or was built. -/
theorem obtain_handed {inUse : Str → Bool} {now later : Nat} {type : Str} {file : Option Source}
    {built : Option σ} {s : ImageBroker σ} {image : σ}
    (handed : (s.obtain inUse now later type file built).1 = some image) :
    (∃ f, file = some f ∧ s.image_repo.lookup (f.key type) = some image) ∨ built = some image := by
  rcases obtain_cases inUse now later type file built s with
    ⟨-, result⟩ | ⟨f, _, rfl, found, result⟩ | ⟨f, -, -, -, result⟩ | ⟨f, made, -, -, rfl, result⟩
  · rw [result] at handed
    cases handed
  · rw [result] at handed
    exact .inl ⟨f, rfl, found.trans handed⟩
  · rw [result] at handed
    cases handed
  · rw [result] at handed
    exact .inr handed

/-- Putting a new stream in keeps the two containers together. -/
theorem Synced.insert {s : ImageBroker σ} (synced : s.Synced) {key : Str} (absent : key ∉ s.image_repo)
    (image : σ) (later : Nat) :
    Synced { s with
      image_repo := s.image_repo.insert key image
      lru_order := s.lru_order ++ [⟨key, later⟩] } := by
  have names : (s.image_repo.insert key image).keys = key :: s.image_repo.keys := by
    unfold AList.keys
    rw [AList.entries_insert_of_notMem absent]
    rfl
  unfold Synced keys
  rw [List.map_append, names]
  exact (List.perm_append_singleton key _).trans (synced.cons key)

end ImageBroker

/-- The calls of the broker, each with the keys in use at that time. -/
inductive BrokerOp (σ : Type) where
  | obtain (now later : Nat) (type : Str) (file : Option Source) (built : Option σ)
  | dispose (url : Str)
  | disposeFor (type : Str) (file : Option Source)
  | validate
  | cleanup (now : Nat)
  | clear

/-- A broker and what an observer remembers of the calls so far: their number, the call at
which a key was last obtained, and how many streams were in use when one was last put in,
that one included. -/
structure Observed (σ : Type) where
  broker : ImageBroker σ := {}
  clock : Nat := 0
  recent : Str → Nat := fun _ => 0
  crowd : Nat := 0

namespace Observed

open ImageBroker

variable {σ : Type}

/- The key of a call that handed a stream out. -/
def obtained (r : Observed σ) : BrokerOp σ → Option Str
  | .obtain _ _ type (some f) built =>
    if f.key type ∈ r.broker.image_repo ∨ built.isSome then some (f.key type) else none
  | _ => none

/- The streams in use when a new one is put in. -/
def crowded (r : Observed σ) (inUse : Str → Bool) : BrokerOp σ → Nat
  | .obtain now _ type (some f) (some _) =>
    if f.key type ∈ r.broker.image_repo then r.crowd
    else (r.broker.roomy inUse now).keys.countP inUse + 1
  | _ => r.crowd

def after (s : ImageBroker σ) (inUse : Str → Bool) : BrokerOp σ → ImageBroker σ
  | .obtain now later type file built => (s.obtain inUse now later type file built).2
  | .dispose url => s.dispose url
  | .disposeFor type file => s.disposeFor type file
  | .validate => s.validate inUse
  | .cleanup now => s.cleanupOldEntries inUse now
  | .clear => s.clear

def step (r : Observed σ) (call : (Str → Bool) × BrokerOp σ) : Observed σ where
  broker := after r.broker call.1 call.2
  clock := r.clock + 1
  recent := match r.obtained call.2 with
    | some key => Function.update r.recent key r.clock
    | none => r.recent
  crowd := r.crowded call.1 call.2

/-- At most fifty streams are cached, unless more than that were in use when the last one
was put in. -/
def Bounded (r : Observed σ) : Prop :=
  r.broker.image_repo.keys.length ≤ max_entries ∨ max_entries < r.crowd

/- The calls that may remove what is in use. -/
def Disposes : BrokerOp σ → Prop
  | .dispose _ | .disposeFor _ _ | .clear => True
  | _ => False

/-- Making room takes the stream that was obtained least recently among those not in use. -/
def LeastRecent (r : Observed σ) (inUse : Str → Bool) : BrokerOp σ → Prop
  | .obtain now _ type (some f) _ =>
    f.key type ∉ r.broker.image_repo →
      ∀ key ∈ (r.broker.cleanupOldEntries inUse now).image_repo, key ∉ (r.broker.roomy inUse now).image_repo →
        inUse key = false ∧
          ∀ other ∈ (r.broker.roomy inUse now).image_repo, inUse other = false → r.recent key < r.recent other
  | _ => True

/-- What is asked of every call in the state it finds. -/
structure Proper (r : Observed σ) (call : (Str → Bool) × BrokerOp σ) : Prop where
  synced : r.broker.Synced
  bounded : r.Bounded
  spares : ¬ Disposes call.2 → Spares call.1 r.broker (r.step call).broker

/-- A stream that is obtained again is the one that was put in last. -/
def Newest (r : Observed σ) (call : (Str → Bool) × BrokerOp σ) : Prop :=
  match call.2 with
  | .obtain _ _ type (some f) _ =>
    f.key type ∈ r.broker.image_repo → r.broker.keys.getLast? = some (f.key type)
  | _ => True

/- Every call but an insertion only removes, and then the streams in use at the last
insertion are what they were. -/
theorem after_cases (r : Observed σ) (inUse : Str → Bool) (op : BrokerOp σ) :
    ((Trims r.broker (after r.broker inUse op) ∨
        ∃ key now, (after r.broker inUse op) = r.broker.touchEntry key now) ∧ r.crowded inUse op = r.crowd ∧
      (¬ Disposes op → Spares inUse r.broker (after r.broker inUse op))) ∨
    ∃ now later type f image, op = .obtain now later type (some f) (some image) ∧
      f.key type ∉ r.broker.image_repo ∧ after r.broker inUse op = { r.broker.roomy inUse now with
        image_repo := (r.broker.roomy inUse now).image_repo.insert (f.key type) image
        lru_order := (r.broker.roomy inUse now).lru_order ++ [⟨f.key type, later⟩] } ∧
      r.crowded inUse op = (r.broker.roomy inUse now).keys.countP inUse + 1 := by
  cases op with
  | obtain now later type file built =>
    rcases obtain_cases inUse now later type file built r.broker with
      ⟨rfl, result⟩ | ⟨f, image, rfl, found, result⟩ | ⟨f, rfl, found, rfl, result⟩ |
      ⟨f, image, rfl, found, rfl, result⟩
    · left
      rw [after, result]
      exact ⟨.inl (Trims.refl _), rfl, fun _ => Spares.refl _ _⟩
    · left
      have member : f.key type ∈ r.broker.image_repo := AList.lookup_isSome.mp (by rw [found]; rfl)
      rw [after, result]
      refine ⟨.inr ⟨_, _, rfl⟩, ?_, fun _ => Spares.refl _ _⟩
      cases built with
      | none => rfl
      | some image => exact if_pos member
    · left
      rw [after, result]
      exact ⟨.inl (roomy_trims inUse now _).1, rfl, fun _ => (roomy_trims inUse now _).2⟩
    · right
      have absent := AList.lookup_eq_none.mp found
      refine ⟨now, later, type, f, image, rfl, absent, ?_, if_neg absent⟩
      rw [after, result]
  | dispose url => exact .inl ⟨.inl (dispose_trims url _), rfl, fun no => absurd trivial no⟩
  | disposeFor type file => exact .inl ⟨.inl (disposeFor_trims type file _), rfl, fun no => absurd trivial no⟩
  | validate => exact .inl ⟨.inl (validate_trims inUse _).1, rfl, fun _ => (validate_trims inUse _).2⟩
  | cleanup now =>
    exact .inl ⟨.inl (cleanupOldEntries_trims inUse now _).1, rfl, fun _ => (cleanupOldEntries_trims inUse now _).2⟩
  | clear =>
    exact .inl ⟨.inl ⟨List.nil_sublist _, fun _ => List.Perm.nil, fun _ _ found => by cases found⟩, rfl,
      fun no => absurd trivial no⟩

/- What every run keeps. -/
structure Settled (r : Observed σ) : Prop where
  synced : r.broker.Synced
  bounded : r.Bounded

theorem Settled.step {r : Observed σ} (settled : r.Settled) (call : (Str → Bool) × BrokerOp σ) :
    (r.step call).Settled := by
  have length : r.broker.image_repo.keys.length = r.broker.lru_order.length := by
    rw [← settled.synced.length_eq, keys, List.length_map]
  rcases after_cases r call.1 call.2 with ⟨kind, crowd, -⟩ | ⟨now, later, type, f, image, op, absent, result, crowd⟩
  · have synced : (r.step call).broker.Synced := by
      rcases kind with trims | ⟨key, now, touched⟩
      · exact trims.synced settled.synced
      · unfold Observed.step Synced
        rw [touched, touchEntry_keys]
        exact settled.synced
    have fewer : (r.step call).broker.keys.length ≤ r.broker.keys.length := by
      rcases kind with trims | ⟨key, now, touched⟩
      · exact trims.keys.length_le
      · unfold Observed.step
        rw [touched, touchEntry_keys]
    refine ⟨synced, ?_⟩
    unfold Bounded
    rw [← synced.length_eq]
    rcases settled.bounded with small | large
    · left
      rw [← settled.synced.length_eq] at small
      exact Nat.le_trans fewer small
    · right
      exact Nat.lt_of_lt_of_eq large crowd.symm
  · have trims := roomy_trims call.1 now r.broker
    have absent' := roomy_absent call.1 now (AList.lookup_eq_none.mpr absent)
    have synced : (r.step call).broker.Synced := by
      unfold Observed.step
      rw [result]
      exact (trims.1.synced settled.synced).insert absent' image later
    refine ⟨synced, ?_⟩
    unfold Bounded
    rw [← synced.length_eq]
    have count : (r.step call).broker.keys.length = (r.broker.roomy call.1 now).lru_order.length + 1 := by
      unfold Observed.step keys
      rw [result]
      simp
    have crowd' : (r.step call).crowd = (r.broker.roomy call.1 now).keys.countP call.1 + 1 := crowd
    rw [count, crowd']
    rcases evictRounds_room call.1 _ (r.broker.cleanupOldEntries call.1 now) (Nat.le_refl _) with room | used
    · exact .inl room
    · -- nothing could be evicted, so everything that stayed is counted
      have all : (r.broker.roomy call.1 now).keys.countP call.1 = (r.broker.roomy call.1 now).lru_order.length := by
        unfold keys
        rw [List.countP_eq_length.mpr, List.length_map]
        intro key member
        obtain ⟨e, inside, rfl⟩ := List.mem_map.mp member
        exact used e inside
      rw [all]
      exact Nat.lt_or_ge max_entries _ |>.symm

/- While only the newest stream is obtained again, the order of insertion is the order of
last use. -/
structure Ordered (r : Observed σ) : Prop where
  settled : r.Settled
  order : r.broker.keys.Pairwise fun a b => r.recent a < r.recent b
  past : ∀ key ∈ r.broker.keys, r.recent key < r.clock

theorem Ordered.trim {r r' : Observed σ} (ordered : r.Ordered) (settled : r'.Settled)
    (keys : r'.broker.keys.Sublist r.broker.keys) (recent : r'.recent = r.recent)
    (clock : r'.clock = r.clock + 1) : r'.Ordered where
  settled := settled
  order := by
    rw [recent]
    exact ordered.order.sublist keys
  past := by
    intro key member
    rw [recent, clock]
    exact Nat.lt_succ_of_lt (ordered.past key (keys.subset member))

/- The newest key is the most recent one. -/
theorem Ordered.append {r r' : Observed σ} (before : List Str) (key : Str)
    (settled : r'.Settled) (keys : r'.broker.keys = before ++ [key])
    (recent : r'.recent = Function.update r.recent key r.clock) (clock : r'.clock = r.clock + 1)
    (order : before.Pairwise fun a b => r.recent a < r.recent b) (past : ∀ k ∈ before, r.recent k < r.clock) :
    r'.Ordered := by
  have once := settled.synced.nodup
  rw [keys] at once
  have fresh : ∀ k ∈ before, r'.recent k = r.recent k := by
    intro k member
    have other : k ≠ key := by
      rintro rfl
      exact (List.nodup_append.mp once).2.2 k member k (List.mem_singleton_self k) rfl
    rw [recent, Function.update_of_ne other]
  have newest : r'.recent key = r.clock := by rw [recent, Function.update_self]
  refine ⟨settled, ?_, ?_⟩
  · rw [keys, List.pairwise_append]
    refine ⟨order.imp_of_mem fun {a b} left right less => ?_, List.pairwise_singleton _ _, ?_⟩
    · rw [fresh a left, fresh b right]
      exact less
    · intro k member other last
      rw [List.mem_singleton.mp last, newest, fresh k member]
      exact past k member
  · intro k member
    rw [keys] at member
    rw [clock]
    rcases List.mem_append.mp member with member | member
    · rw [fresh k member]
      exact Nat.lt_succ_of_lt (past k member)
    · rw [List.mem_singleton.mp member, newest]
      exact Nat.lt_succ_self _

theorem Ordered.step {r : Observed σ} (ordered : r.Ordered) (call : (Str → Bool) × BrokerOp σ)
    (newest : r.Newest call) : (r.step call).Ordered := by
  have settled := ordered.settled.step call
  obtain ⟨inUse, op⟩ := call
  have removing : ∀ (trims : Trims r.broker (after r.broker inUse op)), r.obtained op = none →
      (r.step (inUse, op)).Ordered := by
    intro trims quiet
    refine ordered.trim settled trims.keys ?_ rfl
    simp only [Observed.step, quiet]
  cases op with
  | obtain now later type file built =>
    rcases obtain_cases inUse now later type file built r.broker with
      ⟨rfl, result⟩ | ⟨f, image, rfl, found, result⟩ | ⟨f, rfl, found, rfl, result⟩ |
      ⟨f, image, rfl, found, rfl, result⟩
    · exact removing (by rw [after, result]; exact Trims.refl _) rfl
    · have member : f.key type ∈ r.broker.image_repo := AList.lookup_isSome.mp (by rw [found]; rfl)
      obtain ⟨before, split⟩ := List.getLast?_eq_some_iff.mp (newest member)
      have order := ordered.order
      have past := ordered.past
      rw [split] at order past
      refine Ordered.append before (f.key type) settled ?_ ?_ rfl (List.pairwise_append.mp order).1
        fun k inside => past k (List.mem_append_left _ inside)
      · rw [← split]
        simp only [Observed.step, after, result, touchEntry_keys]
      · simp only [Observed.step, obtained, member, true_or, if_true]
    · refine removing (by rw [after, result]; exact (roomy_trims inUse now _).1) ?_
      have absent := AList.lookup_eq_none.mp found
      simp [obtained, absent]
    · have trims := (roomy_trims inUse now r.broker).1
      refine Ordered.append (r.broker.roomy inUse now).keys (f.key type) settled ?_ ?_ rfl
        (ordered.order.sublist trims.keys) fun k inside => ordered.past k (trims.keys.subset inside)
      · simp only [Observed.step, after, result, keys, List.map_append, List.map_cons, List.map_nil]
      · simp [Observed.step, obtained]
  | dispose url => exact removing (dispose_trims url _) rfl
  | disposeFor type file => exact removing (disposeFor_trims type file _) rfl
  | validate => exact removing (validate_trims inUse _).1 rfl
  | cleanup now => exact removing (cleanupOldEntries_trims inUse now _).1 rfl
  | clear =>
    refine removing ?_ rfl
    exact ⟨List.nil_sublist _, fun _ => List.Perm.nil, fun _ _ found => by cases found⟩

theorem Ordered.leastRecent {r : Observed σ} (ordered : r.Ordered) (inUse : Str → Bool) (op : BrokerOp σ) :
    r.LeastRecent inUse op := by
  cases op with
  | obtain now later type file built =>
    cases file with
    | none => exact trivial
    | some f =>
      intro absent key member gone
      have cleaned := (cleanupOldEntries_trims inUse now r.broker).1
      have synced := cleaned.synced ordered.settled.synced
      have roomy := (roomy_trims inUse now r.broker).1.synced ordered.settled.synced
      rw [mem_repo synced] at member
      rw [mem_repo roomy] at gone
      have oldest := evictRounds_oldest inUse _ (r.broker.cleanupOldEntries inUse now)
        (ordered.order.sublist cleaned.keys) key member gone
      refine ⟨oldest.1, fun other present unused => ?_⟩
      rw [mem_repo roomy] at present
      exact oldest.2 other present unused
  | _ => exact trivial

theorem ordered_start : (({} : Observed σ)).Ordered where
  settled := ⟨List.Perm.nil, .inl (Nat.zero_le _)⟩
  order := List.Pairwise.nil
  past := by intro key member; cases member

theorem Settled.proper {r : Observed σ} (settled : r.Settled) (call : (Str → Bool) × BrokerOp σ) :
    r.Proper call := by
  refine ⟨settled.synced, settled.bounded, fun keeps => ?_⟩
  rcases after_cases r call.1 call.2 with ⟨-, -, spares⟩ | ⟨now, later, type, f, image, op, absent, result, -⟩
  · exact spares keeps
  · intro key member used
    have kept := (roomy_trims call.1 now r.broker).2 key member used
    unfold Observed.step
    rw [result]
    exact (AList.mem_insert _).mpr (.inr kept)

/-- In every run the two containers agree, the cache is bounded and nothing in use is
dropped; and in a run that obtains no stream again but the newest, room is made by
dropping what was obtained least recently. -/
theorem broker_run (calls : List ((Str → Bool) × BrokerOp σ)) :
    (Along step Proper ({} : Observed σ) calls ∧ (calls.foldl step ({} : Observed σ)).Settled) ∧
      (Along step Newest ({} : Observed σ) calls →
        Along step (fun r call => r.LeastRecent call.1 call.2) ({} : Observed σ) calls) := by
  have any : Along step (fun _ _ => True) ({} : Observed σ) calls := along_true
  refine ⟨⟨?_, ?_⟩, ?_⟩
  · exact Along.imp (I := Settled) (fun r call settled _ => settled.step call)
      (fun r call settled _ => settled.proper call) ordered_start.settled any
  · exact Along.invariant (I := Settled) (fun r call settled _ => settled.step call) ordered_start.settled any
  · exact Along.imp (I := Ordered) (fun r call ordered newest => ordered.step call newest)
      (fun r call ordered _ => ordered.leastRecent call.1 call.2) ordered_start

/- The image with this number, which is in the root directory. -/
def sampleImage (i : Nat) : Source := ⟨[], [UInt8.ofNat i]⟩

def sampleType : Str := [0x64, 0x36, 0x34]

def sampleCall (i : Nat) : (Str → Bool) × BrokerOp Nat :=
  (fun _ => false, .obtain 0 0 sampleType (some (sampleImage i)) (some i))

def sampleRun : Observed Nat := ((List.range 50).map sampleCall ++ [sampleCall 0]).foldl step {}

theorem sampleRun_dropped :
    let key := fun i => (sampleImage i).key sampleType
    let roomy := sampleRun.broker.roomy (fun _ => false) 0
    (key 50 ∉ sampleRun.broker.image_repo.keys ∧
      key 0 ∈ (sampleRun.broker.cleanupOldEntries (fun _ => false) 0).image_repo.keys) ∧
      (key 0 ∉ roomy.image_repo.keys ∧ key 1 ∈ roomy.image_repo.keys) ∧
      ¬ sampleRun.recent (key 0) < sampleRun.recent (key 1) := by
  decide +kernel

theorem not_leastRecent {r : Observed σ} {inUse : Str → Bool} {now later : Nat} {type : Str} {f : Source}
    {built : Option σ} {key other : Str} (absent : f.key type ∉ r.broker.image_repo.keys)
    (before : key ∈ (r.broker.cleanupOldEntries inUse now).image_repo.keys)
    (gone : key ∉ (r.broker.roomy inUse now).image_repo.keys)
    (present : other ∈ (r.broker.roomy inUse now).image_repo.keys) (unused : inUse other = false)
    (recent : ¬ r.recent key < r.recent other) :
    ¬ r.LeastRecent inUse (.obtain now later type (some f) built) :=
  fun fair => recent ((fair absent key before gone).2 other present unused)

/-- Fifty images are opened, the first of them is listed again, and a further image is
opened: the first image is dropped, although the second was not asked for since. -/
theorem oldest_dropped : ¬ Along step (fun r call => r.LeastRecent call.1 call.2) ({} : Observed Nat)
    ((List.range 50).map sampleCall ++ [sampleCall 0] ++ [sampleCall 50]) := by
  intro along
  obtain ⟨⟨absent, before⟩, ⟨gone, present⟩, recent⟩ := sampleRun_dropped
  exact not_leastRecent absent before gone present rfl recent along.append_right.1

end Observed

end Meatloaf
