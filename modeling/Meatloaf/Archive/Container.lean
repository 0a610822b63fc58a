import Mathlib.Data.List.DropRight
import Mathlib.Data.List.Infix
import Meatloaf.Text.Percent
import Meatloaf.Text.Wildcard

/-! The walk of an `ArchiveMStream` through the headers of its container. What libarchive reads there is given;
it is the same each time the container is opened. -/
namespace Meatloaf

/-- A header that `archive_read_next_header` returns with `ARCHIVE_OK`, and the data that `archive_read_data`
gives behind it. -/
structure ArchiveHeader where
  pathname : Option Str
  regular : Bool
  size : Nat
  data : List UInt8

/-- A container as libarchive reads it, and the bytes of its stream. `headers` are those that it has when it is
opened with random access, or without. `raw` is the data when only the raw format is registered. `ended` tells
whether the headers are followed by `ARCHIVE_EOF`. -/
structure ArchiveContainer where
  url : Str
  source : List UInt8
  firstBytes : List UInt8
  filter_count : Nat
  headers : Bool → Option (List ArchiveHeader)
  ended : Bool
  raw : Option (List UInt8)

/- The headers that are still to come, and the data of the last one that is left. -/
structure OpenArchive where
  headers : List ArchiveHeader
  data : List UInt8 := []

structure ArchiveEntry where
  filename : Str := []
  size : Nat := 0

/-- An `ArchiveMStream`. The archive is deleted (`none`) once an entry has been extracted, and closed or open
before that. The cached entry is the number of a copy. -/
structure ArchiveMStream where
  m_archive : Option (Option OpenArchive) := some none
  m_isCompressedOnly : Bool := false
  entry : ArchiveEntry := {}
  size : Nat := 0
  position : Nat := 0
  m_cachedEntry : Option Nat := none

/-! Names -/

/- `basename`, the one that leaves its argument alone. -/
def basename (pathname : Str) : Str := pathname.rtakeWhile (· ≠ slash)

/- The bytes of "data", ".gz" and the other extensions, and "://". -/
def dataName : Str := [0x64, 0x61, 0x74, 0x61]
def gzExt : Str := [0x2e, 0x67, 0x7a]
def compressionExts : List Str :=
  [gzExt, [0x2e, 0x62, 0x7a, 0x32], [0x2e, 0x78, 0x7a], [0x2e, 0x6c, 0x7a], [0x2e, 0x7a], [0x2e, 0x7a, 0x73, 0x74],
    [0x2e, 0x6c, 0x7a, 0x34]]
def protocolMark : Str := [0x3a, 0x2f, 0x2f]

/-- `mstr::endsWith(s, pattern, false)`. -/
def endsWithAnyCase (s pattern : Str) : Bool := decide (pattern.map Mstr.tolower <:+ s.map Mstr.tolower)

def compressedEntryNameFromUrl (containerUrl : Str) : Str :=
  let filename := containerUrl.rtakeWhile fun c => c ≠ slash ∧ c ≠ backslash
  let filename := match compressionExts.find? (endsWithAnyCase filename) with
    | some ext => filename.take (filename.length - ext.length)
    | none => filename
  if protocolMark <:+: containerUrl then Mstr.urlDecode filename false else filename

/-- The name in the header of a gzip stream, without its directories, or nothing. -/
def gzipNameFromHeader (p : List UInt8) : Str :=
  let flg := p.getD 3 0
  let xlen := (p.getD 10 0).toNat + 256 * (p.getD 11 0).toNat
  let start := if flg &&& 0x04 = 0 then 10 else 12 + xlen
  if p.length < 10 ∨ p.take 3 ≠ [0x1f, 0x8b, 0x08] ∨ flg &&& 0x08 = 0 then []
  else if flg &&& 0x04 ≠ 0 ∧ p.length < 12 then []
  else match (p.drop start).findIdx? (· == 0) with
    | some nul => ((p.drop start).take nul).rtakeWhile fun c => c ≠ slash ∧ c ≠ backslash
    | none => []

namespace ArchiveContainer

variable (c : ArchiveContainer)

def hasCompressionFilter : Bool := decide (1 < c.filter_count)

/- `Archive::open`, when it is not for the raw format. -/
def opened (randomAccess : Bool) : Option OpenArchive := (c.headers randomAccess).map fun headers => { headers := headers }

/- The archive is opened without random access, and its first header is read. -/
def reopened : Option (ArchiveHeader × OpenArchive) :=
  match c.headers false with
  | some (h :: rest) => some (h, ⟨rest, h.data⟩)
  | _ => none

/- The last four bytes of a gzip file, which is long enough to have them. -/
def hasTrailer : Bool := endsWithAnyCase c.url gzExt && decide (18 ≤ c.source.length)

def isize : Nat :=
  (c.source.drop (c.source.length - 4)).foldr (fun b n => b.toNat + 256 * n) 0

/- The trailer is taken for the size, if it may be one. -/
def MAX_SANE_ISIZE : Nat := 8 * 1024 * 1024

def isizeKnown : Bool := c.hasTrailer && decide (0 < c.isize ∧ c.isize ≤ MAX_SANE_ISIZE)

/- The only entry of a file that is compressed and nothing else. -/
def compressedEntry : ArchiveEntry where
  filename :=
    if gzipNameFromHeader c.firstBytes = [] then compressedEntryNameFromUrl c.url else gzipNameFromHeader c.firstBytes
  size := if c.isizeKnown then c.isize else 0

/- A header that has no name of its own. -/
def isRaw (h : ArchiveHeader) : Bool :=
  match h.pathname with
  | none => true
  | some pathname => pathname == [] || pathname == dataName

def entryName (h : ArchiveHeader) : Str :=
  if isRaw h then compressedEntryNameFromUrl c.url else basename (h.pathname.getD [])

/- An entry of which the size is looked for elsewhere. -/
def probed (h : ArchiveHeader) : Bool :=
  h.regular && (isRaw h || (h.size % 2 ^ 32 == 0 && c.hasCompressionFilter))

/-- The size of such an entry comes from the trailer, or the data is counted. The archive is open at its first
entry after that. -/
def probe (h : ArchiveHeader) (s : ArchiveMStream) : Bool × ArchiveMStream :=
  let failed := (false, { s with m_archive := some (c.opened false), entry := { s.entry with size := 0 } })
  match c.reopened with
  | none => failed
  | some (first, o) =>
    if c.hasTrailer then
      -- the name that the first header has now is taken, if it has one
      let filename := if isRaw first then s.entry.filename else basename (first.pathname.getD [])
      let size := if c.isizeKnown then c.isize else first.data.length % 2 ^ 32
      (true, { s with m_archive := some (some o), entry := ⟨filename, size⟩ })
    else (true, { s with m_archive := some (some o), entry := { s.entry with size := h.data.length % 2 ^ 32 } })

/-- `seekEntry(index)`. -/
def seekIndex (index : Nat) (s : ArchiveMStream) : Bool × ArchiveMStream :=
  match s.m_archive with
  | some (some o) =>
    if s.m_isCompressedOnly = true ∧ 1 < index % 2 ^ 16 then (false, s)
    else
      match o.headers with
      | [] =>
        let s := { s with entry := {}, m_archive := some (some ⟨[], []⟩) }
        if c.ended = true ∧ index % 2 ^ 16 = 1 ∧ c.hasCompressionFilter = true then
          (true, { s with
            m_isCompressedOnly := true
            entry := c.compressedEntry
            m_archive := if c.hasTrailer then some none else s.m_archive })
        else (false, s)
      | h :: rest =>
        let s := { s with m_archive := some (some ⟨rest, h.data⟩) }
        if h.regular = true then
          let s := { s with entry := ⟨c.entryName h, h.size % 2 ^ 32⟩ }
          if c.probed h = true then c.probe h s else (true, s)
        else (true, { s with entry := {} })
  | _ => (false, s)

/-- The loop of `seekEntry`. It can go on for ever, where a header makes it begin again. -/
def walk (filename : Str) : Nat → Nat → ArchiveMStream → Option (Bool × ArchiveMStream)
  | 0, _, _ => none
  | fuel + 1, index, s =>
    match c.seekIndex index s with
    | (true, s) =>
      if compareFilename s.entry.filename filename (isWildcard filename) = true then some (true, s)
      else walk filename fuel (index + 1) s
    | (false, s) => some (false, s)

/- As many rounds as there are headers, before the loop begins again and twice behind that. -/
def rounds : Nat := ((c.headers true).getD []).length + 2 * ((c.headers false).getD []).length + 3

/- `entry.filename[0] = '\0'`. -/
def blanked (s : ArchiveMStream) : ArchiveMStream :=
  { s with entry := { s.entry with filename := match s.entry.filename with
    | [] => []
    | _ :: rest => 0 :: rest } }

/-- `seekEntry(filename)`, or `none` where it does not return. -/
def seekEntry (filename : Str) (s : ArchiveMStream) : Option (Bool × ArchiveMStream) :=
  if filename = [] then some (false, blanked s)
  else
    match s.m_archive with
    | none => none
    | some _ =>
      match c.walk filename c.rounds 1 { s with m_archive := some (c.opened true) } with
      | some (false, s) => some (false, blanked s)
      | found => found

/-! What the walk finds -/

/- The name that an entry is found under. -/
def nameOf (h : ArchiveHeader) : Str := if h.regular = true then c.entryName h else []

/-- The entries of the container, with their data. -/
def entries : List (Str × List UInt8) :=
  match c.headers true with
  | none => []
  | some [] =>
    if c.ended = true ∧ c.hasCompressionFilter = true then [(c.compressedEntry.filename, c.raw.getD [])] else []
  | some headers => headers.map fun h => (c.nameOf h, h.data)

def Wanted (filename : Str) (e : Str × List UInt8) : Bool := compareFilename e.1 filename (isWildcard filename)

/-- The entry that a path leads to. -/
def find (path : Str) : Option (Str × List UInt8) := if path = [] then none else c.entries.find? (Wanted path)

/- The data that the archive has under a name. -/
def archived (name : Str) : List UInt8 := (c.entries.lookup name).getD []

/-- The sizes of a container can be relied on: only its first entry is probed, if any, and it is found again. -/
structure Sound : Prop where
  few : ∀ hs, c.headers true = some hs → hs.length < 2 ^ 16
  sizes : ∀ hs, c.headers true = some hs → ∀ h ∈ hs, h.data.length < 2 ^ 32 ∧
    (h.regular = true → c.probed h = false → h.size = h.data.length)
  later : ∀ h hs, c.headers true = some (h :: hs) → ∀ l ∈ hs, c.probed l = false
  again : ∀ h hs, c.headers true = some (h :: hs) → c.probed h = true → c.headers false = some (h :: hs)
  trailer : c.isizeKnown = true → ∀ h hs, c.headers true = some (h :: hs) → c.probed h = true → c.isize = h.data.length
  whole : c.isizeKnown = true → c.headers true = some [] → ∀ data, c.raw = some data → c.isize = data.length

/-- The stream stands at an entry, and has its size, or none. -/
structure Stands (s : ArchiveMStream) (e : Str × List UInt8) : Prop where
  filename : s.entry.filename = e.1
  size : (s.m_isCompressedOnly = true ∧ c.raw = none) ∨ s.entry.size = e.2.length ∨ s.entry.size = 0
  data : if s.m_isCompressedOnly = true then s.m_archive.isSome ∧ c.raw.getD [] = e.2
    else ∃ rest, s.m_archive = some (some ⟨rest, e.2⟩)

/- The walk has come to the first of these entries that is wanted, if there is one. -/
def Walked (filename : Str) (entries : List (Str × List UInt8)) (found : Bool) (s : ArchiveMStream) : Prop :=
  match entries.find? (Wanted filename) with
  | none => found = false
  | some e => found = true ∧ c.Stands s e

variable {c} {s : ArchiveMStream} {filename : Str} {h : ArchiveHeader} {hs : List ArchiveHeader} {d : List UInt8} {index fuel : Nat}

/- A header that is not probed is what the stream stands at. -/
theorem seekIndex_plain (archive : s.m_archive = some (some ⟨h :: hs, d⟩)) (container : s.m_isCompressedOnly = false)
    (plain : c.probed h = false) (size : h.regular = true → h.size % 2 ^ 32 = h.data.length) :
    ∃ s', c.seekIndex index s = (true, s') ∧ s'.m_archive = some (some ⟨hs, h.data⟩) ∧ s'.m_isCompressedOnly = false ∧
      s'.m_cachedEntry = s.m_cachedEntry ∧ c.Stands s' (c.nameOf h, h.data) := by
  have open_ : ¬ (s.m_isCompressedOnly = true ∧ 1 < index % 2 ^ 16) := fun no => by simp [container] at no
  unfold seekIndex
  rw [archive]
  dsimp only
  rw [if_neg open_]
  by_cases regular : h.regular = true
  · rw [if_pos regular, plain, if_neg Bool.false_ne_true]
    refine ⟨_, rfl, rfl, container, rfl, ?_, .inr (.inl (size regular)), ?_⟩
    · rw [nameOf, if_pos regular]
    · rw [if_neg (by simp [container])]
      exact ⟨hs, rfl⟩
  · rw [if_neg regular]
    refine ⟨_, rfl, rfl, container, rfl, ?_, .inr (.inr rfl), ?_⟩
    · rw [nameOf, if_neg regular]
    · rw [if_neg (by simp [container])]
      exact ⟨hs, rfl⟩

/- Behind the last header, and not before the first, the walk ends. -/
theorem seekIndex_end (archive : s.m_archive = some (some ⟨[], d⟩)) (container : s.m_isCompressedOnly = false)
    (later : index % 2 ^ 16 ≠ 1) :
    ∃ s', c.seekIndex index s = (false, s') ∧ s'.m_isCompressedOnly = false ∧ s'.m_cachedEntry = s.m_cachedEntry := by
  have open_ : ¬ (s.m_isCompressedOnly = true ∧ 1 < index % 2 ^ 16) := fun no => by simp [container] at no
  have first : ¬ (c.ended = true ∧ index % 2 ^ 16 = 1 ∧ c.hasCompressionFilter = true) := fun no => later no.2.1
  unfold seekIndex
  rw [archive]
  dsimp only
  rw [if_neg open_, if_neg first]
  exact ⟨_, rfl, container, rfl⟩

/- The walk stops at an entry that is wanted, and goes on behind any other. -/
theorem walk_cons {s' : ArchiveMStream} {e : Str × List UInt8} {es : List (Str × List UInt8)}
    (step : c.seekIndex index s = (true, s')) (stands : c.Stands s' e) {I : ArchiveMStream → Prop} (here : I s')
    (tail : ∃ found s'', c.walk filename fuel (index + 1) s' = some (found, s'') ∧ I s'' ∧ c.Walked filename es found s'') :
    ∃ found s'', c.walk filename (fuel + 1) index s = some (found, s'') ∧ I s'' ∧ c.Walked filename (e :: es) found s'' := by
  rw [walk, step]
  dsimp only
  unfold Walked
  rw [List.find?_cons, stands.filename]
  by_cases wanted : Wanted filename e = true
  · rw [if_pos (show compareFilename e.1 filename (isWildcard filename) = true from wanted), wanted]
    exact ⟨true, s', rfl, here, rfl, stands⟩
  · rw [if_neg (show ¬ compareFilename e.1 filename (isWildcard filename) = true from wanted), eq_false_of_ne_true wanted]
    exact tail

/-- Where nothing is probed, the walk takes one header after the other. -/
theorem walk_plain (archive : s.m_archive = some (some ⟨hs, d⟩)) (container : s.m_isCompressedOnly = false)
    (plain : ∀ h ∈ hs, c.probed h = false) (sizes : ∀ h ∈ hs, h.regular = true → h.size % 2 ^ 32 = h.data.length)
    (begun : 1 < index) (short : index + hs.length ≤ 2 ^ 16) (enough : hs.length < fuel) :
    ∃ found s', c.walk filename fuel index s = some (found, s') ∧
      (s'.m_isCompressedOnly = false ∧ s'.m_cachedEntry = s.m_cachedEntry) ∧
      c.Walked filename (hs.map fun h => (c.nameOf h, h.data)) found s' := by
  induction hs generalizing s d index fuel with
  | nil =>
    obtain ⟨fuel, rfl⟩ : ∃ n, fuel = n + 1 := ⟨fuel - 1, by simp at enough; omega⟩
    have later : index % 2 ^ 16 ≠ 1 := by simp at short; omega
    obtain ⟨s', step, container', cached⟩ := @seekIndex_end c s d index archive container later
    exact ⟨false, s', by rw [walk, step], ⟨container', cached⟩, rfl⟩
  | cons h hs ih =>
    rw [List.length_cons] at short enough
    obtain ⟨fuel, rfl⟩ : ∃ n, fuel = n + 1 := ⟨fuel - 1, by omega⟩
    obtain ⟨s', step, archive', container', cached, stands⟩ := @seekIndex_plain c s h hs d index archive container
      (plain h List.mem_cons_self) (sizes h List.mem_cons_self)
    refine walk_cons step stands (I := fun t => t.m_isCompressedOnly = false ∧ t.m_cachedEntry = s.m_cachedEntry)
      ⟨container', cached⟩ ?_
    rw [← cached]
    exact ih archive' container' (fun l member => plain l (List.mem_cons_of_mem h member))
      (fun l member => sizes l (List.mem_cons_of_mem h member)) (by omega) (by omega) (by omega)

/- The first header may be probed, and the stream stands at it all the same. -/
theorem seekIndex_first (sound : c.Sound) (all : c.headers true = some (h :: hs))
    (archive : s.m_archive = some (some ⟨h :: hs, d⟩)) (container : s.m_isCompressedOnly = false) :
    ∃ s', c.seekIndex 1 s = (true, s') ∧ s'.m_archive = some (some ⟨hs, h.data⟩) ∧ s'.m_isCompressedOnly = false ∧
      s'.m_cachedEntry = s.m_cachedEntry ∧ c.Stands s' (c.nameOf h, h.data) := by
  obtain ⟨short, size⟩ := sound.sizes _ all h List.mem_cons_self
  by_cases plain : c.probed h = false
  · refine seekIndex_plain archive container plain fun regular => ?_
    rw [size regular plain, Nat.mod_eq_of_lt short]
  · have probed_ : c.probed h = true := by simpa using plain
    have regular : h.regular = true := by
      unfold probed at probed_
      exact (Bool.and_eq_true_iff.mp probed_).1
    have open_ : ¬ (s.m_isCompressedOnly = true ∧ 1 < 1 % 2 ^ 16) := fun no => by simp [container] at no
    have again : c.reopened = some (h, ⟨hs, h.data⟩) := by rw [reopened, sound.again h hs all probed_]
    have known := fun known => sound.trailer known h hs all probed_
    have name : (if isRaw h = true then c.entryName h else basename (h.pathname.getD [])) = c.entryName h := by
      unfold entryName
      split <;> rfl
    unfold seekIndex
    rw [archive]
    dsimp only
    rw [if_neg open_, if_pos regular, probed_, if_pos rfl]
    unfold probe
    rw [again]
    dsimp only
    by_cases trailer : c.hasTrailer = true
    · rw [if_pos trailer, name]
      refine ⟨_, rfl, rfl, container, rfl, ?_, .inr (.inl ?_), ?_⟩
      · rw [nameOf, if_pos regular]
      · dsimp only
        split
        · rename_i known'
          exact known known'
        · exact Nat.mod_eq_of_lt short
      · rw [if_neg (by simp [container])]
        exact ⟨hs, rfl⟩
    · rw [if_neg trailer]
      refine ⟨_, rfl, rfl, container, rfl, ?_, .inr (.inl (Nat.mod_eq_of_lt short)), ?_⟩
      · rw [nameOf, if_pos regular]
      · rw [if_neg (by simp [container])]
        exact ⟨hs, rfl⟩

/- A file that is only compressed has one entry, and the walk ends behind it. -/
theorem walk_compressed (sound : c.Sound) (none_ : c.headers true = some []) (archive : s.m_archive = some (some ⟨[], d⟩))
    (alone : c.ended = true ∧ c.hasCompressionFilter = true) :
    ∃ found s', c.walk filename (fuel + 2) 1 s = some (found, s') ∧ s'.m_cachedEntry = s.m_cachedEntry ∧
      c.Walked filename [(c.compressedEntry.filename, c.raw.getD [])] found s' := by
  have open_ : ¬ (s.m_isCompressedOnly = true ∧ 1 < 1 % 2 ^ 16) := by simp
  have first : ∃ s', c.seekIndex 1 s = (true, s') ∧ s'.m_isCompressedOnly = true ∧ s'.m_cachedEntry = s.m_cachedEntry ∧
      s'.m_archive.isSome ∧ s'.entry = c.compressedEntry := by
    unfold seekIndex
    rw [archive]
    dsimp only
    rw [if_neg open_, if_pos ⟨alone.1, rfl, alone.2⟩]
    refine ⟨_, rfl, rfl, rfl, ?_, rfl⟩
    dsimp only
    split <;> rfl
  obtain ⟨s', step, only, cached, left, entry⟩ := first
  have stands : c.Stands s' (c.compressedEntry.filename, c.raw.getD []) := by
    refine ⟨by rw [entry], ?_, by rw [if_pos only]; exact ⟨left, rfl⟩⟩
    rw [entry]
    unfold compressedEntry
    dsimp only
    split
    · rename_i known
      cases raw : c.raw with
      | none => exact .inl ⟨only, rfl⟩
      | some data => exact .inr (.inl (sound.whole known none_ data raw))
    · exact .inr (.inr rfl)
  have next : c.seekIndex 2 s' = (false, s') := by
    unfold seekIndex
    split
    · rw [if_pos ⟨only, by decide⟩]
    · rfl
  refine walk_cons step stands (I := fun t => t.m_cachedEntry = s.m_cachedEntry) cached ⟨false, s', ?_, cached, rfl⟩
  rw [walk, next]

/-- The walk finds the entry that a path leads to. -/
theorem seekEntry_sound (sound : c.Sound) (some_ : filename ≠ []) (archive : s.m_archive ≠ none)
    (flag : s.m_isCompressedOnly = true → c.headers true = some []) :
    ∃ found s', c.seekEntry filename s = some (found, s') ∧
      (s'.m_cachedEntry = s.m_cachedEntry ∧ (s'.m_isCompressedOnly = true → c.headers true = some [])) ∧
      c.Walked filename c.entries found s' := by
  have walked : ∃ found s', c.walk filename c.rounds 1 { s with m_archive := some (c.opened true) } = some (found, s') ∧
      (s'.m_cachedEntry = s.m_cachedEntry ∧ (s'.m_isCompressedOnly = true → c.headers true = some [])) ∧
      c.Walked filename c.entries found s' := by
    obtain ⟨fuel, enough⟩ : ∃ n, c.rounds = n + 3 := ⟨_, rfl⟩
    unfold entries
    cases all : c.headers true with
    | none =>
      have closed : c.opened true = none := by rw [opened, all]; rfl
      rw [enough, walk, closed]
      exact ⟨false, _, rfl, ⟨rfl, fun only => absurd (flag only) (by simp [all])⟩, rfl⟩
    | some headers =>
      have opened_ : c.opened true = some ⟨headers, []⟩ := by rw [opened, all]; rfl
      rw [opened_]
      cases headers with
      | nil =>
        dsimp only
        by_cases alone : c.ended = true ∧ c.hasCompressionFilter = true
        · rw [if_pos alone, enough]
          obtain ⟨found, s', walked, cached, at_⟩ := @walk_compressed c
            { s with m_archive := some (some ⟨[], []⟩) } filename [] (fuel + 1) sound all rfl alone
          exact ⟨found, s', walked, ⟨cached, fun _ => rfl⟩, at_⟩
        · have open_ : ¬ (s.m_isCompressedOnly = true ∧ 1 < 1 % 2 ^ 16) := by simp
          rw [if_neg alone, enough, walk]
          unfold seekIndex
          dsimp only
          rw [if_neg open_, if_neg fun no => alone ⟨no.1, no.2.2⟩]
          exact ⟨false, _, rfl, ⟨rfl, fun _ => rfl⟩, rfl⟩
      | cons h hs =>
        have container : s.m_isCompressedOnly = false := by
          by_contra only
          exact absurd (flag (by simpa using only)) (by simp [all])
        have few := sound.few _ all
        rw [List.length_cons] at few
        have long : hs.length ≤ c.rounds - 2 := by
          unfold rounds
          rw [all, Option.getD_some, List.length_cons]
          omega
        obtain ⟨s', step, archive', container', cached, stands⟩ := @seekIndex_first c
          { s with m_archive := some (some ⟨h :: hs, []⟩) } h hs [] sound all rfl container
        have rest := @walk_plain c s' filename hs h.data 2 (fuel + 2) archive' container' (sound.later h hs all)
          (fun l member regular => by
            obtain ⟨short, size⟩ := sound.sizes _ all l (List.mem_cons_of_mem h member)
            rw [size regular (sound.later h hs all l member), Nat.mod_eq_of_lt short])
          (by omega) (by omega) (by omega)
        rw [cached] at rest
        obtain ⟨found, s'', walked, ⟨container'', cached''⟩, at_⟩ := walk_cons step stands
          (I := fun t => t.m_isCompressedOnly = false ∧ t.m_cachedEntry = s.m_cachedEntry) ⟨container', cached⟩ rest
        rw [enough]
        exact ⟨found, s'', walked, ⟨cached'', fun only => absurd only (by simp [container''])⟩, at_⟩
  obtain ⟨found, s', walked, kept, at_⟩ := walked
  unfold seekEntry
  rw [if_neg some_]
  cases there : s.m_archive with
  | none => exact absurd there archive
  | some _ =>
    dsimp only
    rw [walked]
    cases found with
    | true => exact ⟨true, s', rfl, kept, at_⟩
    | false =>
      refine ⟨false, blanked s', rfl, kept, ?_⟩
      unfold Walked at at_ ⊢
      split at at_
      · rfl
      · exact absurd at_.1 Bool.false_ne_true

theorem lookup_of_find {entries : List (Str × List UInt8)} {e : Str × List UInt8} (found : entries.find? (Wanted filename) = some e) :
    entries.lookup e.1 = some e.2 := by
  induction entries with
  | nil => cases found
  | cons a entries ih =>
    rw [List.find?_cons] at found
    by_cases wanted : Wanted filename a = true
    · rw [wanted] at found
      cases found
      rw [List.lookup_cons, beq_self_eq_true]
    · rw [eq_false_of_ne_true wanted] at found
      -- an entry of the same name would be wanted too
      have other : e.1 ≠ a.1 := by
        intro same
        have there := List.find?_some found
        rw [Wanted, same] at there
        exact wanted there
      rw [List.lookup_cons, beq_eq_false_iff_ne.mpr other]
      exact ih found

/-- The data that a path leads to is what the archive has under the name. -/
theorem archived_of_find {e : Str × List UInt8} (found : c.find filename = some e) : c.archived e.1 = e.2 := by
  unfold find at found
  split at found
  · cases found
  · rw [archived, lookup_of_find found]
    rfl

end ArchiveContainer

end Meatloaf
