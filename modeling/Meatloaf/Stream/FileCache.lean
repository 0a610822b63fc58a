import Mathlib.Data.List.AList
import Meatloaf.Lib.Lru
import Meatloaf.Lib.Run
import Meatloaf.Text.Names

/-! The file cache of an `MSession`: a map and a list of its paths, the last used one in front. -/
namespace Meatloaf

open Lib

/-- `file_cache` and `cache_order`. -/
structure FileCache (φ : Type*) where
  file_cache : AList fun _ : Str => φ := ∅
  cache_order : List Str := []

inductive CacheCall (φ : Type*) where
  | getCachedFile (path : Str)
  | cacheFile (path : Str) (file : φ)
  | clearFileCache

def max_file_cache_entries : Nat := 10

namespace FileCache

variable {φ : Type*}

/- `cache_order.remove(path)`, and the path in front. -/
def toFront (path : Str) (order : List Str) : List Str := path :: order.filter (· ≠ path)

def getCachedFile (path : Str) (c : FileCache φ) : Option φ × FileCache φ :=
  match c.file_cache.lookup path with
  | some file => (some file, { c with cache_order := toFront path c.cache_order })
  | none => (none, c)

/- The loop of `cacheFile` that evicts; every round takes a path off the list. -/
def evict : Nat → FileCache φ → FileCache φ
  | 0, c => c
  | fuel + 1, c =>
    if max_file_cache_entries ≤ c.cache_order.length then
      match c.cache_order.getLast? with
      | some oldest => evict fuel ⟨c.file_cache.erase oldest, c.cache_order.dropLast⟩
      | none => c
    else c

def cacheFile (path : Str) (file : φ) (c : FileCache φ) : FileCache φ :=
  let c := evict c.cache_order.length c
  ⟨c.file_cache.insert path file, toFront path c.cache_order⟩

def clearFileCache (c : FileCache φ) : FileCache φ := if c.file_cache.entries ≠ [] then {} else c

def call (c : FileCache φ) : CacheCall φ → FileCache φ
  | .getCachedFile path => (c.getCachedFile path).2
  | .cacheFile path file => c.cacheFile path file
  | .clearFileCache => c.clearFileCache

end FileCache

/-- A cache with what was done with it since it was cleared last: the paths that were cached or
hit, and what was cached, the last of each in front. -/
structure Recorded (φ : Type*) where
  cache : FileCache φ := {}
  used : List Str := []
  files : List (Str × φ) := []

namespace Recorded

variable {φ : Type*}

def call (s : Recorded φ) : CacheCall φ → Recorded φ
  | .getCachedFile path =>
    let hit := (s.cache.getCachedFile path).1.isSome
    { s with
      cache := s.cache.call (.getCachedFile path)
      used := if hit then path :: s.used else s.used }
  | .cacheFile path file => ⟨s.cache.call (.cacheFile path file), path :: s.used, (path, file) :: s.files⟩
  | .clearFileCache => ⟨s.cache.call .clearFileCache, [], []⟩

/-- The map and the list have the same paths, which are the ten that were used last, and each
path has the file that was cached under it last. -/
structure Exact (s : Recorded φ) : Prop where
  once : s.cache.cache_order.Nodup
  same : ∀ path, path ∈ s.cache.cache_order ↔ path ∈ s.cache.file_cache
  last : ∀ path, path ∈ s.cache.cache_order ↔ path ∈ (recent s.used).take max_file_cache_entries
  file : ∀ path file, s.cache.file_cache.lookup path = some file → s.files.lookup path = some file

/-- The call does not cache a path that is in a full cache already, the oldest one excepted. -/
def Spares (s : Recorded φ) : CacheCall φ → Prop
  | .cacheFile path _ => path ∈ s.cache.cache_order →
    max_file_cache_entries ≤ s.cache.cache_order.length → s.cache.cache_order.getLast? = some path
  | _ => True

/- What the calls keep: the order is that of the last uses. -/
structure Kept (s : Recorded φ) : Prop where
  order : s.cache.cache_order = (recent s.used).take max_file_cache_entries
  files : ∀ path, s.cache.file_cache.lookup path =
    if path ∈ s.cache.cache_order then s.files.lookup path else none
  known : ∀ path ∈ s.used, (s.files.lookup path).isSome

variable {s : Recorded φ} {path : Str}

namespace Kept

theorem once (kept : Kept s) : s.cache.cache_order.Nodup := by
  rw [kept.order]
  exact (recent_nodup s.used).sublist (List.take_sublist _ _)

theorem few (kept : Kept s) : s.cache.cache_order.length ≤ max_file_cache_entries := by
  rw [kept.order]
  exact List.length_take_le _ _

theorem used (kept : Kept s) (member : path ∈ s.cache.cache_order) : path ∈ s.used := by
  rw [kept.order] at member
  exact mem_recent.mp (List.mem_of_mem_take member)

/- A path is in the map exactly when it is in the list. -/
theorem same (kept : Kept s) : path ∈ s.cache.cache_order ↔ path ∈ s.cache.file_cache := by
  rw [← AList.lookup_isSome, kept.files]
  constructor
  · intro member
    rw [if_pos member]
    exact kept.known path (kept.used member)
  · intro found
    by_contra out
    rw [if_neg out] at found
    cases found

theorem exact (kept : Kept s) : Exact s where
  once := kept.once
  same _ := kept.same
  last _ := by rw [kept.order]
  file path file found := by
    have member : path ∈ s.cache.cache_order := kept.same.mpr (AList.lookup_isSome.mp (by rw [found]; rfl))
    rw [kept.files, if_pos member] at found
    exact found

end Kept

end Recorded

namespace FileCache

variable {φ : Type*} {c : FileCache φ} {path : Str}

/- With room nothing is evicted, -/
theorem evict_room (room : c.cache_order.length < max_file_cache_entries) (fuel : Nat) : c.evict fuel = c := by
  cases fuel with
  | zero => rfl
  | succ fuel => exact if_neg (Nat.not_le.mpr room)

/- and from a full cache the oldest path. -/
theorem evict_full {init : List Str} {oldest : Str} (order : c.cache_order = init ++ [oldest])
    (full : init.length + 1 = max_file_cache_entries) :
    c.evict c.cache_order.length = ⟨c.file_cache.erase oldest, init⟩ := by
  have count : c.cache_order.length = init.length + 1 := by simp [order]
  have room : init.length < max_file_cache_entries := by omega
  have first : c.evict (init.length + 1) = evict init.length ⟨c.file_cache.erase oldest, init⟩ := by
    rw [evict, if_pos (by omega), order]
    simp
  rw [count, first]
  exact evict_room room _

/- An eviction takes files out of the map and changes none. -/
theorem lookup_evict {q : Str} {file : φ} (fuel : Nat) (found : (c.evict fuel).file_cache.lookup q = some file) :
    c.file_cache.lookup q = some file := by
  induction fuel generalizing c with
  | zero => exact found
  | succ fuel ih =>
    unfold evict at found
    split at found
    · cases last : c.cache_order.getLast? with
      | none =>
        rw [last] at found
        exact found
      | some oldest =>
        rw [last] at found
        have before := ih found
        by_cases same : q = oldest
        · rw [same, AList.lookup_erase] at before
          cases before
        · rwa [AList.lookup_erase_ne same] at before
    · exact found

theorem lookup_cacheFile {q : Str} {file copy : φ} (found : (c.cacheFile path file).file_cache.lookup q = some copy) :
    (q = path ∧ copy = file) ∨ c.file_cache.lookup q = some copy := by
  unfold cacheFile at found
  by_cases same : q = path
  · rw [same, AList.lookup_insert] at found
    exact .inl ⟨same, (Option.some.inj found).symm⟩
  · rw [AList.lookup_insert_ne same] at found
    exact .inr (lookup_evict _ found)

/- A hit and a miss leave the map as it is. -/
theorem getCachedFile_lookup (path q : Str) (c : FileCache φ) :
    (c.getCachedFile path).1 = c.file_cache.lookup path ∧
      (c.getCachedFile path).2.file_cache.lookup q = c.file_cache.lookup q := by
  unfold getCachedFile
  cases c.file_cache.lookup path with
  | none => exact ⟨rfl, rfl⟩
  | some file => exact ⟨rfl, rfl⟩

theorem mem_toFront {order : List Str} {q : Str} : q ∈ toFront path order ↔ q = path ∨ q ∈ order := by
  by_cases same : q = path
  · simp [toFront, same]
  · simp [toFront, same]

theorem toFront_out {order : List Str} (out : path ∉ order) : toFront path order = path :: order := by
  have all : order.filter (· ≠ path) = order :=
    List.filter_eq_self.mpr fun q member => decide_eq_true fun same => out (same ▸ member)
  rw [toFront, all]

end FileCache

namespace Recorded

open FileCache

variable {φ : Type*} {s : Recorded φ} {path : Str} {file : φ}

/- A full cache has an oldest path. -/
theorem Kept.oldest (kept : Kept s) (full : max_file_cache_entries ≤ s.cache.cache_order.length) :
    ∃ init oldest, s.cache.cache_order = init ++ [oldest] ∧ init.length + 1 = max_file_cache_entries ∧
      oldest ∉ init := by
  have few := kept.few
  have some : s.cache.cache_order ≠ [] := by
    intro none
    rw [none] at full
    exact absurd full (by decide)
  have order := (List.dropLast_concat_getLast some).symm
  have once := kept.once
  rw [order] at once
  have positive := List.length_pos_iff.mpr some
  refine ⟨_, _, order, ?_, fun inside => ?_⟩
  · rw [List.length_dropLast]
    omega
  · exact List.disjoint_of_nodup_append once inside List.mem_cons_self

/- What the eviction leaves has its files. -/
theorem Kept.evicted (kept : Kept s) (q : Str) :
    (s.cache.evict s.cache.cache_order.length).file_cache.lookup q =
      if q ∈ (s.cache.evict s.cache.cache_order.length).cache_order then s.files.lookup q else none := by
  by_cases full : max_file_cache_entries ≤ s.cache.cache_order.length
  · obtain ⟨init, oldest, order, count, out⟩ := kept.oldest full
    rw [evict_full order count]
    dsimp only
    by_cases same : q = oldest
    · rw [same, AList.lookup_erase, if_neg out]
    · rw [AList.lookup_erase_ne same, kept.files, order]
      simp [same]
  · rw [evict_room (Nat.not_le.mp full)]
    exact kept.files q

/- Caching keeps the order of the last uses where the eviction spared the path. -/
theorem Kept.cached_order (kept : Kept s) (spares : s.Spares (.cacheFile path file)) :
    toFront path (s.cache.evict s.cache.cache_order.length).cache_order =
      (recent (path :: s.used)).take max_file_cache_entries := by
  have order' := kept.order
  by_cases full : max_file_cache_entries ≤ s.cache.cache_order.length
  · obtain ⟨init, oldest, order, count, out⟩ := kept.oldest full
    have front : init = (recent s.used).take 9 := by
      have cut := congrArg (List.take 9) order'
      rw [order, List.take_take, List.take_left' (show init.length = 9 by simpa [max_file_cache_entries] using count)] at cut
      exact cut
    rw [evict_full order count]
    by_cases member : path ∈ s.cache.cache_order
    · have last := spares member full
      rw [order, List.getLast?_concat, Option.some.injEq] at last
      subst last
      have rest : (init ++ [oldest]).filter (· ≠ oldest) = init.filter (· ≠ oldest) := by simp
      have hit : oldest ∈ (recent s.used).take (9 + 1) := by
        rw [order'] at member
        exact member
      rw [max_file_cache_entries, recent_hit 9 hit, ← show s.cache.cache_order = (recent s.used).take (9 + 1) from order',
        order, rest]
      rfl
    · have out : path ∉ init := fun inside => member (by simp [order, inside])
      have miss : path ∉ (recent s.used).take (9 + 1) := by
        rw [order'] at member
        exact member
      rw [toFront_out out, max_file_cache_entries, recent_miss 9 miss, front]
  · have few := Nat.not_le.mp full
    have whole : s.cache.cache_order = recent s.used := by
      rw [order', List.length_take] at few
      rw [order', List.take_of_length_le (by omega)]
    have short : (recent (path :: s.used)).length ≤ max_file_cache_entries := by
      have filtered := List.length_filter_le (· ≠ path) (recent s.used)
      rw [whole] at few
      rw [recent, List.length_cons]
      omega
    rw [evict_room few, whole, List.take_of_length_le short]
    rfl

/-- Caching keeps everything there. -/
theorem Kept.cacheFile (kept : Kept s) (spares : s.Spares (.cacheFile path file)) : Kept (s.call (.cacheFile path file)) where
  order := kept.cached_order spares
  files q := by
    have rest := kept.evicted q
    by_cases same : q = path
    · subst same
      simp [Recorded.call, FileCache.call, FileCache.cacheFile, toFront]
    · simp only [Recorded.call, FileCache.call, FileCache.cacheFile, AList.lookup_insert_ne same, mem_toFront, same,
        false_or, List.lookup_cons, beq_eq_false_iff_ne.mpr same]
      exact rest
  known q member := by
    by_cases same : q = path
    · simp [Recorded.call, same]
    · have before : q ∈ s.used := (List.mem_cons.mp member).resolve_left same
      simpa [Recorded.call, List.lookup_cons, beq_eq_false_iff_ne.mpr same] using kept.known q before

/- A hit brings its path to the front; a miss changes nothing. -/
theorem Kept.getCachedFile (kept : Kept s) : Kept (s.call (.getCachedFile path)) := by
  cases found : s.cache.file_cache.lookup path with
  | none =>
    have miss : s.call (.getCachedFile path) = s := by
      simp [Recorded.call, FileCache.call, FileCache.getCachedFile, found]
    rw [miss]
    exact kept
  | some file =>
    have member : path ∈ s.cache.cache_order := kept.same.mpr (AList.lookup_isSome.mp (by rw [found]; rfl))
    have hit : s.call (.getCachedFile path) =
        ⟨{ s.cache with cache_order := toFront path s.cache.cache_order }, path :: s.used, s.files⟩ := by
      simp [Recorded.call, FileCache.call, FileCache.getCachedFile, found]
    have within : path ∈ (recent s.used).take (9 + 1) := by
      rw [kept.order] at member
      exact member
    rw [hit]
    refine ⟨?_, fun q => ?_, fun q inside => ?_⟩
    · rw [max_file_cache_entries, recent_hit 9 within, ← show s.cache.cache_order = (recent s.used).take (9 + 1) from
        kept.order]
      rfl
    · have there : q ∈ toFront path s.cache.cache_order ↔ q ∈ s.cache.cache_order :=
        mem_toFront.trans (or_iff_right_of_imp fun same => same ▸ member)
      simpa only [there] using kept.files q
    · rcases List.mem_cons.mp inside with rfl | before
      · exact kept.known q (kept.used member)
      · exact kept.known q before

theorem Kept.clearFileCache (kept : Kept s) : Kept (s.call .clearFileCache) := by
  have empty : s.cache.clearFileCache = {} := by
    unfold FileCache.clearFileCache
    split
    · rfl
    · rename_i none
      have files : s.cache.file_cache = ∅ := AList.ext (not_not.mp none)
      have order : s.cache.cache_order = [] := by
        rw [List.eq_nil_iff_forall_not_mem]
        intro q member
        rw [kept.same, files] at member
        exact AList.notMem_empty q member
      exact congrArg₂ FileCache.mk files order
  have cleared : s.call .clearFileCache = {} := congrArg (fun c => (⟨c, [], []⟩ : Recorded φ)) empty
  rw [cleared]
  exact ⟨rfl, fun q => by simp, fun q no => absurd no List.not_mem_nil⟩

theorem Kept.call (kept : Kept s) (a : CacheCall φ) (spares : s.Spares a) : Kept (s.call a) := by
  cases a with
  | getCachedFile path => exact kept.getCachedFile
  | cacheFile path file => exact kept.cacheFile spares
  | clearFileCache => exact kept.clearFileCache

/- A call that spares nothing evicts a path that was used later than the ten before it. -/
theorem Kept.lost (kept : Kept s) (a : CacheCall φ) (exact : Exact (s.call a)) : s.Spares a := by
  cases a with
  | getCachedFile path => exact trivial
  | clearFileCache => exact trivial
  | cacheFile path file =>
    intro member full
    obtain ⟨init, oldest, order, count, out⟩ := kept.oldest full
    by_contra other
    rw [order, List.getLast?_concat, Option.some.injEq] at other
    have hit : path ∈ (recent s.used).take (9 + 1) := by
      rw [kept.order] at member
      exact member
    have recently : oldest ∈ (recent (path :: s.used)).take max_file_cache_entries := by
      rw [max_file_cache_entries, recent_hit 9 hit, ← show s.cache.cache_order = (recent s.used).take (9 + 1) from
        kept.order, order]
      simp [other]
    have held := (exact.last oldest).mpr recently
    have left : (s.call (.cacheFile path file)).cache.cache_order = toFront path init := by
      simp only [Recorded.call, FileCache.call, FileCache.cacheFile, evict_full order count]
    rw [left, mem_toFront] at held
    exact held.elim other out

/-- The cache is exact in every state that the calls reach, if and only if no call caches a path
that is in a full cache already, except the oldest one. -/
theorem exact_along_iff (calls : List (CacheCall φ)) :
    Along Recorded.call (fun s a => Exact (s.call a)) {} calls ↔ Along Recorded.call Spares ({} : Recorded φ) calls :=
  Along.congr (I := Kept) (fun _ a kept => ⟨kept.lost a, fun spares => (kept.call a spares).exact⟩)
    (fun _ a kept spares => kept.call a spares) ⟨rfl, fun q => by simp, fun q no => absurd no List.not_mem_nil⟩

/- Ten paths are cached, and the last of them again. -/
def again : List (CacheCall Nat) :=
  (List.range 10).map (fun n => .cacheFile [n.toUInt8] n) ++ [.cacheFile [9] 10]

/-- The path that was cached first is evicted, and nine are left. -/
theorem again_evicts :
    (again.foldl Recorded.call {}).cache.cache_order = [[9], [8], [7], [6], [5], [4], [3], [2], [1]] ∧
      [0] ∈ (recent (again.foldl Recorded.call {}).used).take max_file_cache_entries ∧
      ¬ Exact (again.foldl Recorded.call {}) := by
  have order : (again.foldl Recorded.call {}).cache.cache_order = [[9], [8], [7], [6], [5], [4], [3], [2], [1]] := by
    decide
  have last : [0] ∈ (recent (again.foldl Recorded.call {}).used).take max_file_cache_entries := by decide
  refine ⟨order, last, fun exact => ?_⟩
  have held := (exact.last [0]).mpr last
  rw [order] at held
  exact absurd held (by decide)

end Recorded

end Meatloaf
