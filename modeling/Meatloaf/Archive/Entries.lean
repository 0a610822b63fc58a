import Meatloaf.Archive.Container
import Meatloaf.Stream.Cache
import Meatloaf.Stream.FileCache

/-! Entries of an archive that the streams of a session share. An entry is extracted into a copy, which is in the
session's file cache until it is evicted, and in the streams that have it open. -/
namespace Meatloaf

open Lib

/-- A copy of an entry: in memory, or in a file on the card with a size of its own. -/
inductive CachedCopy
  | ram (cf : CachedFile)
  | sd (file : Str) (size : Nat)

/-- Where there is room for a copy. There may be none, and some of the data has been read then. -/
inductive Room
  | ram
  | sd
  | none (taken : Nat)

namespace CachedCopy

def data : CachedCopy → Str
  | .ram cf => cf.data
  | .sd file _ => file

def size : CachedCopy → Nat
  | .ram cf => cf.size
  | .sd _ size => size

def read (offset count : Nat) : CachedCopy → Str
  | .ram cf => cf.read offset count
  | .sd file _ => (file.drop offset).take count

/-- The number of bytes that were written, and the copy. A file on the card grows. -/
def write (offset : Nat) (buf : Str) : CachedCopy → Nat × CachedCopy
  | .ram cf =>
    let count := if cf.size ≤ offset then 0
      else if cf.size < (offset + buf.length) % 2 ^ 32 then cf.size - offset else buf.length
    (count, .ram (cf.write offset buf buf.length))
  | .sd file size =>
    if buf = [] then (0, .sd file size)
    else
      let file := file ++ List.replicate (offset - file.length) 0
      (buf.length, .sd (file.take offset ++ buf ++ file.drop (offset + buf.length)) (max size (offset + buf.length)))

/- The copy that `getEntry` makes of the data, and what is left of the data. A size of zero is an unknown one. -/
def extract (data : Str) (entrySize : Nat) (room : Room) : Option CachedCopy × Str :=
  if 0 < entrySize then
    match room with
    | .ram =>
      if entrySize ≤ data.length then (some (.ram ⟨entrySize, data.take entrySize⟩), data.drop entrySize) else (none, [])
    | _ => (none, data)
  else
    match room with
    | .none taken => (none, data.drop taken)
    | .ram => if data = [] then (none, []) else (some (.ram ⟨data.length, data⟩), [])
    | .sd => if data = [] then (none, []) else (some (.sd data 0), [])

end CachedCopy

/-- The `ArchiveMSession`, if the broker has one, and all copies that were ever made. -/
structure Copies where
  session : Option (FileCache Nat) := none
  files : List CachedCopy := []

/- The copy that the session's cache has under a name. -/
def Copies.cached (m : Copies) (name : Str) : Option Nat := (m.session.getD {}).file_cache.lookup name

/-- The archive, and the order in which the cache's map is gone through. -/
structure ArchiveSetting where
  container : ArchiveContainer
  order : List Str → List Str

namespace ArchiveSetting

variable (a : ArchiveSetting)

/-- `ArchiveMSession::findEntry`. -/
def findEntry (path : Str) (cache : FileCache Nat) : Option (Str × Nat) × FileCache Nat :=
  match cache.getCachedFile path with
  | (some copy, cache) => (some (path, copy), cache)
  | (none, cache) =>
    if isWildcard path = true then
      match (a.order cache.file_cache.keys).find? fun key => compareFilename key path true with
      | some key => ((cache.file_cache.lookup key).map fun copy => (key, copy), cache)
      | none => (none, cache)
    else (none, cache)

/-- `ArchiveMSession::getEntry`. -/
def getEntry (entryPath : Str) (data : List UInt8) (entrySize : Nat) (room : Room) (m : Copies) :
    Option Nat × List UInt8 × Copies :=
  match (m.session.getD {}).getCachedFile entryPath with
  | (some copy, cache) => (some copy, data, { m with session := some cache })
  | (none, cache) =>
    match CachedCopy.extract data entrySize room with
    | (some file, rest) =>
      (some m.files.length, rest, ⟨some (cache.cacheFile entryPath m.files.length), m.files ++ [file]⟩)
    | (none, rest) => (none, rest, { m with session := some cache })

/- The archive that an entry is extracted from. One that is only compressed is opened for the raw format. -/
def source (s : ArchiveMStream) : Option OpenArchive :=
  match s.m_archive with
  | none => none
  | some archive => if s.m_isCompressedOnly = true then a.container.raw.map fun data => ⟨[], data⟩ else archive

def ensureData (room : Room) (s : ArchiveMStream) (m : Copies) : Bool × ArchiveMStream × Copies :=
  match s.m_cachedEntry with
  | some _ => (true, s, m)
  | none =>
    match a.source s with
    | none => (false, { s with m_archive := s.m_archive.map fun _ => none }, m)
    | some o =>
      match getEntry s.entry.filename o.data s.size room m with
      | (some copy, _, m) => (true, { s with m_archive := none, m_cachedEntry := some copy }, m)
      | (none, rest, m) => (false, { s with m_archive := some (some { o with data := rest }) }, m)

/-- `seekCachedFile`, if it has found the path. -/
def seekCachedFile (path : Str) (s : ArchiveMStream) (m : Copies) : Option (ArchiveMStream × Copies) :=
  match m.session with
  | none => none
  | some cache =>
    match a.findEntry path cache with
    | (some (key, copy), cache) =>
      let size := (m.files[copy]?.map CachedCopy.size).getD 0
      some ({ s with entry := ⟨key, size⟩, size := size, position := 0, m_cachedEntry := some copy },
        { m with session := some cache })
    | (none, _) => none

/-- `seekPath`, or `none` where it does not return: the archive may be deleted, or walked through for ever. -/
def seekPath (path : Str) (room : Room) (s : ArchiveMStream) (m : Copies) : Option (Bool × ArchiveMStream × Copies) :=
  match a.seekCachedFile path s m with
  | some (s, m) => some (true, s, m)
  | none =>
    match a.container.seekEntry path s with
    | none => none
    | some (false, s) => some (false, s, m)
    | some (true, s) =>
      match a.ensureData room { s with size := s.entry.size, position := 0 } m with
      | (true, s, m) =>
        let size := ((s.m_cachedEntry.bind fun copy => m.files[copy]?).map CachedCopy.size).getD 0
        some (true, { s with size := max s.size size }, m)
      | (false, s, m) => some (false, s, m)

end ArchiveSetting

/-- The streams of an archive, and their copies. It has stopped where a call did not return. -/
structure Archives where
  copies : Copies := {}
  streams : Nat → ArchiveMStream := fun _ => {}
  stopped : Bool := false

inductive ArchiveCall
  | seekPath (i : Nat) (path : Str) (room : Room)
  | read (i count : Nat) (room : Room)
  | write (i : Nat) (buf : List UInt8) (room : Room)
  | seek (i pos : Nat) (room : Room)
  | close (i : Nat)

namespace Archives

variable (a : ArchiveSetting)

/- A stream and the copies after a call. -/
def put (w : Archives) (i : Nat) (s : ArchiveMStream) (m : Copies) : Archives :=
  { w with copies := m, streams := Function.update w.streams i s }

/-- The bytes that `read` gives. -/
def bytes (w : Archives) (i count : Nat) (room : Room) : List UInt8 :=
  match a.ensureData room (w.streams i) w.copies with
  | (true, s, m) => ((s.m_cachedEntry.bind fun copy => m.files[copy]?).map fun f => f.read s.position count).getD []
  | (false, _, _) => []

def run (w : Archives) : ArchiveCall → Archives
  | .seekPath i path room =>
    match a.seekPath path room (w.streams i) w.copies with
    | none => { w with stopped := true }
    | some (_, s, m) => w.put i s m
  | .read i count room =>
    let (_, s, m) := a.ensureData room (w.streams i) w.copies
    w.put i { s with position := s.position + (w.bytes a i count room).length } m
  | .write i buf room =>
    match a.ensureData room (w.streams i) w.copies with
    | (true, s, m) =>
      match s.m_cachedEntry.bind fun copy => m.files[copy]?.map fun f => (copy, f.write s.position buf) with
      | some (copy, written, f) =>
        w.put i { s with position := s.position + written } { m with files := m.files.set copy f }
      | none => w.put i s m
    | (false, s, m) => w.put i s m
  | .seek i pos room =>
    match a.ensureData room (w.streams i) w.copies with
    | (true, s, m) => w.put i (if pos < s.size then { s with position := pos } else s) m
    | (false, s, m) => w.put i s m
  | .close i =>
    let s := w.streams i
    w.put i { s with m_archive := s.m_archive.map fun _ => none, m_cachedEntry := none } w.copies

end Archives

/-! What the calls do with the copies -/

namespace CachedCopy

/-- The size of a copy in memory is that of its data. -/
def Whole : CachedCopy → Prop
  | .ram cf => cf.size = cf.data.length
  | .sd _ _ => True

theorem Whole.read {f : CachedCopy} (whole : f.Whole) (offset : Nat) {k count : Nat} (inside : k < count) :
    (f.read offset count)[k]? = f.data[offset + k]? := by
  cases f with
  | sd file size => rw [CachedCopy.read, List.getElem?_take_of_lt inside, List.getElem?_drop]; rfl
  | ram cf =>
    have size : cf.size = cf.data.length := whole
    have data : CachedCopy.data (.ram cf) = cf.data := rfl
    rw [CachedCopy.read, CachedFile.read, data, size]
    split
    · rename_i behind
      rw [List.getElem?_nil, List.getElem?_eq_none (by omega)]
    · split
      · rw [List.getElem?_take, List.getElem?_drop]
        split
        · rfl
        · rw [List.getElem?_eq_none (by omega)]
      · rw [List.getElem?_take_of_lt inside, List.getElem?_drop]

/- Bytes that are written over others. -/
theorem getElem?_patch {offset : Nat} {buf data : Str} (inside : offset + buf.length ≤ data.length) (k : Nat) :
    (data.take offset ++ buf ++ data.drop (offset + buf.length))[k]? =
      if offset ≤ k ∧ k < offset + buf.length then buf[k - offset]? else data[k]? := by
  have front : (data.take offset).length = offset := by
    rw [List.length_take]
    omega
  by_cases before : k < offset
  · rw [if_neg (by omega), List.append_assoc, List.getElem?_append_left (by omega), List.getElem?_take_of_lt before]
  · rw [List.append_assoc, List.getElem?_append_right (by omega), front]
    by_cases within : k < offset + buf.length
    · rw [if_pos ⟨by omega, within⟩, List.getElem?_append_left (by omega)]
    · rw [if_neg (by omega), List.getElem?_append_right (by omega), List.getElem?_drop]
      congr 1
      omega

theorem Whole.write {f : CachedCopy} (whole : f.Whole) {offset : Nat} {buf : Str} (inside : offset + buf.length ≤ f.data.length) :
    (f.write offset buf).1 = buf.length ∧ (f.write offset buf).2.Whole ∧
      ∀ k, (f.write offset buf).2.data[k]? =
        if offset ≤ k ∧ k < offset + buf.length then buf[k - offset]? else f.data[k]? := by
  cases f with
  | ram cf =>
    have size : cf.size = cf.data.length := whole
    have inside' : offset + buf.length ≤ cf.data.length := inside
    by_cases behind : cf.size ≤ offset
    · have empty : buf = [] := List.length_eq_zero_iff.mp (by omega)
      subst empty
      refine ⟨?_, ?_, fun k => ?_⟩
      · simp [CachedCopy.write, behind]
      · simpa [CachedCopy.write, CachedFile.write, behind] using whole
      · rw [if_neg (by simp)]
        simp [CachedCopy.write, CachedFile.write, behind]
    · have short : ¬ cf.size < (offset + buf.length) % 2 ^ 32 := by
        have below := Nat.mod_le (offset + buf.length) (2 ^ 32)
        omega
      have all : cf.write offset buf buf.length =
          { cf with data := cf.data.take offset ++ buf ++ cf.data.drop (offset + buf.length) } := by
        rw [CachedFile.write, if_neg behind]
        simp only [if_neg short, List.take_length]
      have length : (cf.data.take offset ++ buf ++ cf.data.drop (offset + buf.length)).length = cf.data.length := by
        rw [List.length_append, List.length_append, List.length_take, List.length_drop]
        omega
      rw [CachedCopy.write, all]
      dsimp only
      rw [if_neg behind, if_neg short]
      exact ⟨rfl, size.trans length.symm, getElem?_patch inside'⟩
  | sd file size =>
    have inside' : offset + buf.length ≤ file.length := inside
    by_cases empty : buf = []
    · rw [CachedCopy.write, if_pos empty, empty]
      refine ⟨rfl, trivial, fun k => ?_⟩
      rw [if_neg (by simp)]
    · have long : file ++ List.replicate (offset - file.length) 0 = file := by
        have none : offset - file.length = 0 := by omega
        rw [none, List.replicate_zero, List.append_nil]
      rw [CachedCopy.write, if_neg empty, long]
      exact ⟨rfl, trivial, getElem?_patch inside'⟩

/-- A copy has all of the data, if its size is known or looked for. -/
theorem extract_whole {data rest : Str} {entrySize : Nat} {room : Room} {f : CachedCopy}
    (size : entrySize = data.length ∨ entrySize = 0) (made : extract data entrySize room = (some f, rest)) :
    f.Whole ∧ f.data = data := by
  unfold extract at made
  split at made
  · rename_i known
    have all : entrySize = data.length := size.resolve_right (by omega)
    cases room with
    | ram =>
      dsimp only at made
      rw [if_pos (by omega), all, List.take_length] at made
      cases made
      exact ⟨rfl, rfl⟩
    | sd => cases made
    | none taken => cases made
  · cases room with
    | ram =>
      dsimp only at made
      split at made
      · cases made
      · cases made
        exact ⟨rfl, rfl⟩
    | sd =>
      dsimp only at made
      split at made
      · cases made
      · cases made
        exact ⟨trivial, rfl⟩
    | none taken => cases made

end CachedCopy

/-- The copies after a call: a new one is of this entry, and in the cache. -/
structure Grown (m m' : Copies) (name : Str) (more : List CachedCopy) : Prop where
  files : m'.files = m.files ++ more
  one : more.length ≤ 1
  cached : ∀ other copy, m'.cached other = some copy → m.cached other = some copy ∨
    (other = name ∧ copy = m.files.length ∧ more ≠ [])

namespace ArchiveSetting

variable {a : ArchiveSetting} {s : ArchiveMStream} {m : Copies} {room : Room}

theorem ensureData_held {copy : Nat} (cached : s.m_cachedEntry = some copy) : a.ensureData room s m = (true, s, m) := by
  rw [ensureData, cached]

/-- Without anything to extract from, and with a copy, the copies stay. -/
theorem ensureData_idle (idle : s.m_cachedEntry ≠ none ∨ a.source s = none) : ∃ ok s', a.ensureData room s m = (ok, s', m) ∧
    s'.m_cachedEntry = s.m_cachedEntry ∧ s'.m_isCompressedOnly = s.m_isCompressedOnly := by
  unfold ensureData
  cases cached : s.m_cachedEntry with
  | some copy => exact ⟨true, s, rfl, cached, rfl⟩
  | none =>
    rw [idle.resolve_left (not_not.mpr cached)]
    exact ⟨false, _, rfl, rfl, rfl⟩

/-- An entry comes from the cache, or a new copy of it goes there, or there is none. -/
theorem getEntry_grown (entryPath : Str) (data : Str) (entrySize : Nat) (room : Room) (m : Copies) :
    ∃ result rest m' more, getEntry entryPath data entrySize room m = (result, rest, m') ∧ Grown m m' entryPath more ∧
      (∀ f ∈ more, CachedCopy.extract data entrySize room = (some f, rest)) ∧ (more ≠ [] → m.cached entryPath = none) ∧
      ∀ copy, result = some copy → m'.cached entryPath = some copy := by
  have looked := fun q => FileCache.getCachedFile_lookup entryPath q (m.session.getD {})
  unfold getEntry
  cases got : (m.session.getD {}).getCachedFile entryPath with
  | mk hit cache =>
    rw [got] at looked
    have same : ∀ q, cache.file_cache.lookup q = m.cached q := fun q => (looked q).2
    have first : hit = m.cached entryPath := (looked entryPath).1
    have kept : Grown m { m with session := some cache } entryPath [] :=
      ⟨(List.append_nil _).symm, Nat.zero_le 1, fun name copy found => .inl ((same name).symm.trans found)⟩
    cases hit with
    | some copy =>
      refine ⟨some copy, data, _, [], rfl, kept, fun f no => absurd no List.not_mem_nil, fun no => absurd rfl no, ?_⟩
      rintro _ ⟨⟩
      exact (same entryPath).trans first.symm
    | none =>
      dsimp only
      cases made : CachedCopy.extract data entrySize room with
      | mk file rest =>
        cases file with
        | some f =>
          refine ⟨some m.files.length, rest, _, [f], rfl, ⟨rfl, Nat.le_refl 1, fun name copy found => ?_⟩, ?_,
            fun _ => first.symm, ?_⟩
          · rcases FileCache.lookup_cacheFile found with ⟨rfl, rfl⟩ | before
            · exact .inr ⟨rfl, rfl, List.cons_ne_nil _ _⟩
            · exact .inl ((same name).symm.trans before)
          · rintro g member
            rw [List.mem_singleton.mp member]
          · rintro _ ⟨⟩
            exact AList.lookup_insert _
        | none =>
          exact ⟨none, rest, _, [], rfl, kept, fun f no => absurd no List.not_mem_nil, fun no => absurd rfl no, nofun⟩

/-- A stream without a copy that has an archive to extract from: what it has then is in the cache. -/
theorem ensureData_grown {o : OpenArchive} (cached : s.m_cachedEntry = none) (source : a.source s = some o) :
    ∃ ok s' rest m' more, a.ensureData room s m = (ok, s', m') ∧ Grown m m' s.entry.filename more ∧
      (∀ f ∈ more, CachedCopy.extract o.data s.size room = (some f, rest)) ∧
      (more ≠ [] → m.cached s.entry.filename = none) ∧ s'.entry = s.entry ∧ s'.m_isCompressedOnly = s.m_isCompressedOnly ∧
      (ok = true → ∃ copy, s'.m_cachedEntry = some copy ∧ m'.cached s.entry.filename = some copy) := by
  obtain ⟨result, rest, m', more, got, grown, made, before, found⟩ := getEntry_grown s.entry.filename o.data s.size room m
  unfold ensureData
  rw [cached, source]
  dsimp only
  rw [got]
  cases result with
  | some copy =>
    exact ⟨true, _, rest, m', more, rfl, grown, made, before, rfl, rfl, fun _ => ⟨copy, rfl, found copy rfl⟩⟩
  | none => exact ⟨false, _, rest, m', more, rfl, grown, made, before, rfl, rfl, nofun⟩

/-- What is found in the cache is there under its name. -/
theorem seekCachedFile_cases {path : Str} {s' : ArchiveMStream} {m' : Copies} (found : a.seekCachedFile path s m = some (s', m')) :
    ∃ copy, s'.m_cachedEntry = some copy ∧ m.cached s'.entry.filename = some copy ∧ m'.files = m.files ∧
      (∀ name, m'.cached name = m.cached name) ∧ s'.m_isCompressedOnly = s.m_isCompressedOnly := by
  unfold seekCachedFile at found
  cases session : m.session with
  | none => rw [session] at found; cases found
  | some cache =>
    have cached (name : Str) : m.cached name = cache.file_cache.lookup name := by
      rw [Copies.cached, session]
      rfl
    rw [session] at found
    dsimp only at found
    unfold findEntry at found
    have looked := fun q => FileCache.getCachedFile_lookup path q cache
    cases got : cache.getCachedFile path with
    | mk hit cache' =>
      rw [got] at looked found
      have same : ∀ q, cache'.file_cache.lookup q = cache.file_cache.lookup q := fun q => (looked q).2
      have first : hit = cache.file_cache.lookup path := (looked path).1
      have kept : ∀ name, Copies.cached { m with session := some cache' } name = m.cached name := fun name =>
        (same name).trans (cached name).symm
      cases hit with
      | some copy =>
        cases found
        exact ⟨copy, rfl, (cached path).trans first.symm, rfl, kept, rfl⟩
      | none =>
        dsimp only at found
        by_cases wildcard : isWildcard path = true
        · rw [if_pos wildcard] at found
          cases key_ : (a.order cache'.file_cache.keys).find? fun key => compareFilename key path true with
          | none => rw [key_] at found; cases found
          | some key =>
            rw [key_] at found
            dsimp only at found
            cases copy_ : cache'.file_cache.lookup key with
            | none => rw [copy_] at found; cases found
            | some copy =>
              rw [copy_] at found
              cases found
              exact ⟨copy, rfl, (cached key).trans ((same key).symm.trans copy_), rfl, kept, rfl⟩
        · rw [if_neg wildcard] at found
          cases found

/- What is found in the cache, and what is not found, adds no copy. -/
theorem grown_same {m m' : Copies} (files : m'.files = m.files) (cached : ∀ name, m'.cached name = m.cached name) (name : Str) :
    Grown m m' name [] :=
  ⟨files.trans (List.append_nil _).symm, Nat.zero_le 1, fun other _ found => .inl ((cached other).symm.trans found)⟩

theorem seekPath_hit {path : Str} {s' : ArchiveMStream} {m' : Copies} (hit : a.seekCachedFile path s m = some (s', m')) :
    a.seekPath path room s m = some (true, s', m') := by
  rw [seekPath, hit]

/-- What a `seekPath` does that the cache does not serve. A new copy has the data that the archive has under the
name; the stream has that copy, or one from the cache, or the one it had. -/
structure Sought (a : ArchiveSetting) (path : Str) (s s' : ArchiveMStream) (m m' : Copies) (ok : Bool)
    (more : List CachedCopy) : Prop where
  alone : s'.m_isCompressedOnly = true → a.container.headers true = some []
  grown : Grown m m' s'.entry.filename more
  made : ∀ f ∈ more, f.Whole ∧ f.data = a.container.archived s'.entry.filename
  fresh : more ≠ [] → m.cached s'.entry.filename = none ∧ s.m_cachedEntry = none
  held : ok = true → ∃ copy, s'.m_cachedEntry = some copy ∧
    (m'.cached s'.entry.filename = some copy ∨ s.m_cachedEntry = some copy)
  found : ok = true ∨ more ≠ [] → s.m_archive ≠ none ∧ ∃ e, a.container.find path = some e ∧ e.1 = s'.entry.filename

theorem seekPath_sought (sound : a.container.Sound) (flag : s.m_isCompressedOnly = true → a.container.headers true = some [])
    {path : Str} {ok : Bool} {s' : ArchiveMStream} {m' : Copies} (missed : a.seekCachedFile path s m = none)
    (sought : a.seekPath path room s m = some (ok, s', m')) : ∃ more, Sought a path s s' m m' ok more := by
  have nothing {s1 : ArchiveMStream} (only : s1.m_isCompressedOnly = true → a.container.headers true = some []) :
      Sought a path s s1 m m false [] := by
    refine ⟨only, grown_same rfl (fun _ => rfl) _, fun f no => absurd no List.not_mem_nil, fun no => absurd rfl no, nofun, ?_⟩
    rintro (no | no)
    · cases no
    · exact absurd rfl no
  rw [seekPath, missed] at sought
  dsimp only at sought
  by_cases empty : path = []
  · have blank : a.container.seekEntry path s = some (false, ArchiveContainer.blanked s) := if_pos empty
    rw [blank] at sought
    cases sought
    exact ⟨[], nothing flag⟩
  · cases there : s.m_archive with
    | none =>
      have gone : a.container.seekEntry path s = none := by rw [ArchiveContainer.seekEntry, if_neg empty, there]
      rw [gone] at sought
      cases sought
    | some archive =>
      obtain ⟨found, s1, walk, ⟨cached, only⟩, walked⟩ := ArchiveContainer.seekEntry_sound sound empty (by rw [there]; simp) flag
      rw [walk] at sought
      cases found with
      | false =>
        cases sought
        exact ⟨[], nothing only⟩
      | true =>
        dsimp only at sought
        unfold ArchiveContainer.Walked at walked
        have find : a.container.find path = a.container.entries.find? (ArchiveContainer.Wanted path) := if_neg empty
        rw [← find] at walked
        cases e_ : a.container.find path with
        | none =>
          rw [e_] at walked
          cases walked
        | some e =>
          rw [e_] at walked
          obtain ⟨-, stands⟩ := walked
          have data := ArchiveContainer.archived_of_find e_
          rw [← stands.filename] at data
          have archive_ : s.m_archive ≠ none := by rw [there]; simp
          have same : s1.entry.filename = e.1 := stands.filename
          cases copy_ : s1.m_cachedEntry with
          | some copy =>
            -- the stream keeps the copy that it had
            rw [@ensureData_held a { s1 with size := s1.entry.size, position := 0 } m room copy copy_] at sought
            cases sought
            exact ⟨[], only, grown_same rfl (fun _ => rfl) _, fun f no => absurd no List.not_mem_nil, fun no => absurd rfl no,
              fun _ => ⟨copy, copy_, .inr (cached.symm.trans copy_)⟩, fun _ => ⟨archive_, e, e_, same.symm⟩⟩
          | none =>
            have extracted {o : OpenArchive} (source : a.source { s1 with size := s1.entry.size, position := 0 } = some o)
                (whole : o.data = e.2) (size : s1.entry.size = e.2.length ∨ s1.entry.size = 0) :
                ∃ more, Sought a path s s' m m' ok more := by
              obtain ⟨ok', s2, rest, m2, more, got, grown, made, before, entry, only', held⟩ :=
                @ensureData_grown a { s1 with size := s1.entry.size, position := 0 } m room o copy_ source
              rw [got] at sought
              have made' : ∀ f ∈ more, f.Whole ∧ f.data = a.container.archived s1.entry.filename := by
                intro f member
                have size' : s1.entry.size = o.data.length ∨ s1.entry.size = 0 := by
                  rw [whole]
                  exact size
                rw [data, ← whole]
                exact CachedCopy.extract_whole size' (made f member)
              have fresh : more ≠ [] → m.cached s1.entry.filename = none ∧ s.m_cachedEntry = none := fun some_ =>
                ⟨before some_, cached.symm.trans copy_⟩
              have alone : s2.m_isCompressedOnly = true → a.container.headers true = some [] := fun flag' =>
                only (only'.symm.trans flag')
              have result : ∃ size, s' = { s2 with size := size } ∧ m' = m2 ∧ ok = ok' := by
                cases ok' with
                | true =>
                  cases sought
                  exact ⟨_, rfl, rfl, rfl⟩
                | false =>
                  cases sought
                  exact ⟨_, rfl, rfl, rfl⟩
              obtain ⟨size', rfl, rfl, rfl⟩ := result
              rw [← entry] at grown made' fresh held
              refine ⟨more, alone, grown, made', fresh, fun ok => ?_, fun _ => ⟨archive_, e, e_, ?_⟩⟩
              · obtain ⟨copy, copy', cached'⟩ := held ok
                exact ⟨copy, copy', .inl cached'⟩
              · rw [entry]
                exact same.symm
            have stood := stands.data
            by_cases alone : s1.m_isCompressedOnly = true
            · rw [if_pos alone] at stood
              obtain ⟨archive', whole⟩ := stood
              obtain ⟨archive', left⟩ := Option.isSome_iff_exists.mp archive'
              have source : a.source { s1 with size := s1.entry.size, position := 0 } =
                  a.container.raw.map fun data => ⟨[], data⟩ := by
                rw [source]
                dsimp only
                rw [left]
                exact if_pos alone
              cases raw : a.container.raw with
              | none =>
                rw [raw] at source
                rw [ensureData, source] at sought
                dsimp only at sought
                rw [copy_] at sought
                cases sought
                exact ⟨[], nothing only⟩
              | some data =>
                rw [raw] at source whole
                exact extracted source whole (stands.size.resolve_left fun no => by simp [raw] at no)
            · rw [if_neg alone] at stood
              obtain ⟨rest, left⟩ := stood
              refine extracted (o := ⟨rest, e.2⟩) ?_ rfl (stands.size.resolve_left fun no => alone no.1)
              rw [source]
              dsimp only
              rw [left]
              exact if_neg alone

end ArchiveSetting

end Meatloaf
