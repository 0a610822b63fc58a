import Mathlib.Data.List.AList
import Meatloaf.Lib.Deliver
import Meatloaf.Lib.Run
import Meatloaf.Text.Names

/-! `MFile::openStreamWithCache`: a remote file is kept in RAM or in a file on the card, and
later calls for the url are served from there. -/
namespace Meatloaf

open Lib

inductive CacheType where
  | none
  | ram
  | sd
  deriving DecidableEq

structure CacheOptions where
  store : CacheType := .none
  force_refresh : Bool := false

/-- A remote stream, by what arrives before `read` returns 0. -/
structure Remote where
  arrivals : List Str

def Remote.read (count : Nat) (stream : Remote) : Str × Remote :=
  match stream.arrivals with
  | [] => ([], stream)
  | piece :: rest =>
    if piece.length ≤ count then (piece, ⟨rest⟩) else (piece.take count, ⟨piece.drop count :: rest⟩)

/- `CachedFile` in RAM; heap and HIMEM hold the same bytes. -/
structure CachedFile where
  size : Nat
  data : Str
  deriving DecidableEq

namespace CachedFile

def read (offset count : Nat) (cf : CachedFile) : Str :=
  if cf.size ≤ offset then []
  else (cf.data.drop offset).take (if cf.size < (offset + count) % 2 ^ 32 then cf.size - offset else count)

def write (offset : Nat) (buf : Str) (count : Nat) (cf : CachedFile) : CachedFile :=
  if cf.size ≤ offset then cf
  else
    let count := if cf.size < (offset + count) % 2 ^ 32 then cf.size - offset else count
    { cf with data := cf.data.take offset ++ buf.take count ++ cf.data.drop (offset + count) }

end CachedFile

/-- A stream over a cached file: `CachedFileStream`, or the `FlashMStream` that opens the file
on the card, if it does. -/
inductive CacheStream where
  | ram (m_cf : CachedFile) (position : Nat)
  | sd (file : Option Str) (position : Nat)

def CacheStream.read (count : Nat) : CacheStream → Str × CacheStream
  | .ram cf position => (cf.read position count, .ram cf (position + (cf.read position count).length))
  | .sd none position => ([], .sd none position)
  | .sd (some file) position =>
    let size := if file.length - position < count then file.length - position else count
    let piece := (file.drop position).take size
    (piece, .sd (some file) (position + piece.length))

def kBufSize : Nat := 1024

/-- What gets to the caller before the transfer breaks off. -/
structure Transfer (file : Str) where
  arrivals : List Str
  sized : ∀ piece ∈ arrivals, piece ≠ [] ∧ piece.length ≤ kBufSize
  part : arrivals.flatten <+: file

/- One call: its mode and flags, what the opener gives for the cache and at the end (a null
stream and one that is not open are `none`), and what memory and card grant. Of the `i`-th
`fwrite` the card takes as many bytes as it accepts. -/
structure Attempt (file : Str) where
  reading : Bool
  flags : CacheOptions
  remote : Option (Transfer file)
  direct : Option (Transfer file)
  buffer : Bool
  memory : Bool
  directory : Bool
  creates : Bool
  accepts : Nat → Nat
  opens : Bool

structure Request where
  requestUrl : Str
  host : Str
  name : Str

/- The RAM cache by url, and the files on the card by path. -/
structure Caches where
  s_ramCache : AList (fun _ : Str => CachedFile) := ∅
  files : AList (fun _ : Str => Str) := ∅

inductive Served (file : Str) where
  | null
  | direct (stream : Transfer file)
  | cached (stream : CacheStream)

/- `loadFromStream` into RAM, with as many rounds as there are bytes, and one. -/
def ramLoop : Nat → Remote → Str → Str
  | 0, _, buf => buf
  | fuel + 1, stream, buf =>
    let r := stream.read kBufSize
    if r.1 = [] then buf else ramLoop fuel r.2 (buf ++ r.1)

/- The loop that fills a file on the card. When the size is not known nothing remains. -/
def sdLoop (accepts : Nat → Nat) : Nat → Nat → Nat → Remote → Str → Str
  | 0, _, _, _, content => content
  | fuel + 1, i, remaining, stream, content =>
    let r := stream.read (if 0 < remaining then min remaining kBufSize else kBufSize)
    if r.1 = [] then content
    else
      let content := content ++ r.1.take (accepts i)
      if 0 < remaining ∧ remaining - r.1.length = 0 then content
      else sdLoop accepts fuel (i + 1) (remaining - r.1.length) r.2 content

section

variable {file : Str} (crc32 : Str → Str) (request : Request)

def Transfer.stream (t : Transfer file) : Remote := ⟨t.arrivals⟩

def Transfer.received (t : Transfer file) : Str := t.arrivals.flatten

/- `loadFromStream(stream, 0)` of a file in RAM. -/
def Attempt.loadRAM (a : Attempt file) (t : Transfer file) : Option CachedFile :=
  if a.buffer = false then none
  else
    let buf := ramLoop (t.received.length + 1) t.stream []
    if buf = [] then none
    else
      let size := buf.length % 2 ^ 32
      if a.memory = false then none
      else some (CachedFile.write 0 buf size ⟨size, List.replicate size 0⟩)

/- `loadFromStream(stream, 0)` of a file on the card: the file, if it gets created, and
whether it is taken for loaded. -/
def Attempt.loadSD (a : Attempt file) (t : Transfer file) : Option Str × Bool :=
  if a.directory = false then (none, false)
  else if a.creates = false then (none, false)
  else if a.buffer = false then (some [], false)
  else (some (sdLoop a.accepts (t.received.length + 1) 0 0 t.stream []), true)

def cacheDir : Str := [0x2f, 0x2e, 0x63, 0x61, 0x63, 0x68, 0x65]
def sdRoot : Str := [0x2f, 0x73, 0x64]

/-- The path on the card: a directory for the url, and its last piece. -/
def Request.cachePath : Str :=
  let cacheRoot := cacheDir ++ (if request.host = [] then [] else slash :: request.host)
  sdRoot ++ cacheRoot ++ slash :: crc32 request.requestUrl ++ slash ::
    (if slash ∈ request.requestUrl then (request.requestUrl.reverse.takeWhile (· ≠ slash)).reverse
    else request.name)

/- `clearRAMCached`. -/
def clearRAMCached (key : Str) (s : Caches) : Caches :=
  { s with s_ramCache := if key = [] then ∅ else s.s_ramCache.erase key }

/- The stream that `openStream` gives for a file on the card. -/
def Attempt.openSD (a : Attempt file) (content : Option Str) : Served file :=
  .cached (.sd (if a.opens = true then content else none) 0)

def Attempt.fallback (a : Attempt file) : Served file :=
  match a.direct with
  | none => .null
  | some stream => .direct stream

/- The remote file is fetched for the RAM cache. -/
def Attempt.fetchRAM (a : Attempt file) (s : Caches) : Served file × Caches :=
  match a.remote.bind a.loadRAM with
  | some cf => (.cached (.ram cf 0), { s with s_ramCache := s.s_ramCache.insert request.requestUrl cf })
  | none => (a.fallback, s)

def Attempt.openRAM (a : Attempt file) (s : Caches) : Served file × Caches :=
  if a.flags.force_refresh = true then a.fetchRAM request (clearRAMCached request.requestUrl s)
  else
    match s.s_ramCache.lookup request.requestUrl with
    | some cached => (.cached (.ram cached 0), s)
    | none => a.fetchRAM request s

/- The remote file is fetched for the card. -/
def Attempt.fetchCard (a : Attempt file) (s : Caches) : Served file × Caches :=
  match a.remote.map a.loadSD with
  | some (some content, loaded) =>
    let s := { s with files := s.files.insert (request.cachePath crc32) content }
    if loaded = true then (a.openSD (s.files.lookup (request.cachePath crc32)), s) else (a.fallback, s)
  | _ => (a.fallback, s)

def Attempt.openCard (a : Attempt file) (s : Caches) : Served file × Caches :=
  if a.flags.force_refresh = false ∧ request.cachePath crc32 ∈ s.files then
    (a.openSD (s.files.lookup (request.cachePath crc32)), s)
  else a.fetchCard crc32 request s

def openStreamWithCache (s : Caches) (a : Attempt file) : Served file × Caches :=
  if a.reading = true ∧ a.flags.store = .ram then a.openRAM request s
  else if a.reading = true ∧ a.flags.store = .sd then a.openCard crc32 request s
  else (a.fallback, s)

/- What the loops get -/

theorem Remote.read_piece {piece : Str} (size : piece.length ≤ kBufSize) (rest : List Str) :
    Remote.read kBufSize ⟨piece :: rest⟩ = (piece, ⟨rest⟩) := if_pos size

theorem ramLoop_all {arrivals : List Str} (sized : ∀ piece ∈ arrivals, piece ≠ [] ∧ piece.length ≤ kBufSize)
    {fuel : Nat} (enough : arrivals.flatten.length < fuel) (buf : Str) :
    ramLoop fuel ⟨arrivals⟩ buf = buf ++ arrivals.flatten := by
  induction arrivals generalizing fuel buf with
  | nil =>
    obtain ⟨fuel, rfl⟩ : ∃ k, fuel = k + 1 := ⟨fuel - 1, by simp at enough; omega⟩
    simp [ramLoop, Remote.read]
  | cons piece arrivals ih =>
    obtain ⟨nonempty, size⟩ := sized piece List.mem_cons_self
    have long := List.length_pos_iff.mpr nonempty
    rw [List.flatten_cons, List.length_append] at enough
    obtain ⟨fuel, rfl⟩ : ∃ k, fuel = k + 1 := ⟨fuel - 1, by omega⟩
    have rest := ih (fun p member => sized p (List.mem_cons_of_mem piece member)) (show arrivals.flatten.length < fuel by omega)
      (buf ++ piece)
    rw [ramLoop, Remote.read_piece size, if_neg nonempty, rest, List.append_assoc, List.flatten_cons]

/- What the card takes of the pieces, from the `i`-th on. -/
def accepted (accepts : Nat → Nat) : Nat → List Str → Str
  | _, [] => []
  | i, piece :: rest => piece.take (accepts i) ++ accepted accepts (i + 1) rest

theorem sdLoop_accepted {arrivals : List Str} (sized : ∀ piece ∈ arrivals, piece ≠ [] ∧ piece.length ≤ kBufSize)
    (accepts : Nat → Nat) {fuel : Nat} (enough : arrivals.flatten.length < fuel) (i : Nat) (content : Str) :
    sdLoop accepts fuel i 0 ⟨arrivals⟩ content = content ++ accepted accepts i arrivals := by
  induction arrivals generalizing fuel i content with
  | nil =>
    obtain ⟨fuel, rfl⟩ : ∃ k, fuel = k + 1 := ⟨fuel - 1, by simp at enough; omega⟩
    simp [sdLoop, Remote.read, accepted]
  | cons piece arrivals ih =>
    obtain ⟨nonempty, size⟩ := sized piece List.mem_cons_self
    have long := List.length_pos_iff.mpr nonempty
    rw [List.flatten_cons, List.length_append] at enough
    obtain ⟨fuel, rfl⟩ : ∃ k, fuel = k + 1 := ⟨fuel - 1, by omega⟩
    have rest := ih (fun p member => sized p (List.mem_cons_of_mem piece member)) (show arrivals.flatten.length < fuel by omega)
      (i + 1) (content ++ piece.take (accepts i))
    rw [sdLoop, if_neg (Nat.lt_irrefl 0), Remote.read_piece size]
    dsimp only
    rw [if_neg nonempty, if_neg fun no => Nat.lt_irrefl 0 no.1, Nat.zero_sub, rest, List.append_assoc, accepted]

/-- The card takes every piece whole. -/
def Written (accepts : Nat → Nat) (i : Nat) (arrivals : List Str) : Prop :=
  ∀ k piece, arrivals[k]? = some piece → piece.length ≤ accepts (i + k)

theorem written_cons {accepts : Nat → Nat} {i : Nat} {piece : Str} {rest : List Str} :
    Written accepts i (piece :: rest) ↔ piece.length ≤ accepts i ∧ Written accepts (i + 1) rest := by
  constructor
  · intro written
    refine ⟨written 0 piece rfl, fun k p there => ?_⟩
    have next := written (k + 1) p there
    rwa [show i + (k + 1) = i + 1 + k by omega] at next
  · rintro ⟨first, next⟩ k p there
    cases k with
    | zero =>
      cases there
      exact first
    | succ k =>
      have whole := next k p there
      rwa [show i + 1 + k = i + (k + 1) by omega] at whole

/- Nothing is lost exactly where every piece is written whole. -/
theorem accepted_length (accepts : Nat → Nat) (i : Nat) (arrivals : List Str) :
    (accepted accepts i arrivals).length ≤ arrivals.flatten.length ∧
      (arrivals.flatten.length ≤ (accepted accepts i arrivals).length → Written accepts i arrivals) := by
  induction arrivals generalizing i with
  | nil => exact ⟨Nat.le_refl 0, fun _ k piece there => nomatch there⟩
  | cons piece rest ih =>
    obtain ⟨less, all⟩ := ih (i + 1)
    have short : (piece.take (accepts i)).length = min (accepts i) piece.length := List.length_take
    rw [accepted, List.flatten_cons, List.length_append, List.length_append, short]
    refine ⟨by omega, fun whole => written_cons.mpr ⟨by omega, all (by omega)⟩⟩

theorem accepted_whole {accepts : Nat → Nat} {i : Nat} {arrivals : List Str} (written : Written accepts i arrivals) :
    accepted accepts i arrivals = arrivals.flatten := by
  induction arrivals generalizing i with
  | nil => rfl
  | cons piece rest ih =>
    obtain ⟨first, next⟩ := written_cons.mp written
    rw [accepted, ih next, List.take_of_length_le first, List.flatten_cons]

/-- The card holds the file exactly where the transfer and every write were whole. -/
theorem Transfer.accepted_iff (t : Transfer file) (accepts : Nat → Nat) :
    accepted accepts 0 t.arrivals = file ↔ t.received = file ∧ Written accepts 0 t.arrivals := by
  obtain ⟨less, all⟩ := accepted_length accepts 0 t.arrivals
  constructor
  · intro same
    have written := all (by rw [same]; exact t.part.length_le)
    exact ⟨(accepted_whole written).symm.trans same, written⟩
  · rintro ⟨same, written⟩
    exact (accepted_whole written).trans same

/-- Reads that a buffer can take, with the file in the same 32 bits. -/
def Fits (file : Str) (n : Nat) : Prop := 0 < n ∧ file.length + n ≤ 2 ^ 32

theorem drop_piece (text : Str) (position n : Nat) :
    (text.drop position).drop n = text.drop (position + ((text.drop position).take n).length) := by
  rw [List.drop_drop, List.length_take, List.length_drop]
  rcases Nat.le_total n (text.length - position) with inside | out
  · rw [Nat.min_eq_left inside]
  · rw [List.drop_eq_nil_of_le (by omega), List.drop_eq_nil_of_le (by omega)]

/- A whole file in RAM, and one on the card, deliver their bytes. -/
theorem ram_delivers {text : Str} (less : text.length ≤ file.length) :
    Delivers CacheStream.read (Fits file) (.ram ⟨text.length, text⟩ 0) text := by
  refine Delivers.of_invariant
    (fun stream left => ∃ position, stream = .ram ⟨text.length, text⟩ position ∧ left = text.drop position) ?_
    ⟨0, rfl, rfl⟩
  rintro _ _ n ⟨position, rfl, rfl⟩ ⟨positive, fit⟩
  have piece : CachedFile.read position n ⟨text.length, text⟩ = (text.drop position).take n := by
    unfold CachedFile.read
    dsimp only
    split
    · rename_i out
      rw [List.drop_eq_nil_of_le out, List.take_nil]
    · rw [Nat.mod_eq_of_lt (by omega)]
      split
      · rw [List.take_of_length_le (by rw [List.length_drop]), List.take_of_length_le (by rw [List.length_drop]; omega)]
      · rfl
  refine ⟨(text.drop position).drop n, ?_, position + ((text.drop position).take n).length, ?_, ?_⟩
  · rw [CacheStream.read, piece]
    exact Takes.take positive _
  · rw [CacheStream.read, piece]
  · exact drop_piece text position n

theorem card_delivers (text : Str) :
    Delivers CacheStream.read (Fits file) (.sd (some text) 0) text := by
  refine Delivers.of_invariant
    (fun stream left => ∃ position, stream = .sd (some text) position ∧ left = text.drop position) ?_ ⟨0, rfl, rfl⟩
  rintro _ _ n ⟨position, rfl, rfl⟩ ⟨positive, -⟩
  have piece : (text.drop position).take (if text.length - position < n then text.length - position else n) =
      (text.drop position).take n := by
    split
    · rw [List.take_of_length_le (by rw [List.length_drop]), List.take_of_length_le (by rw [List.length_drop]; omega)]
    · rfl
  refine ⟨(text.drop position).drop n, ?_, position + ((text.drop position).take n).length, ?_, ?_⟩
  · rw [CacheStream.read]
    dsimp only
    rw [piece]
    exact Takes.take positive _
  · rw [CacheStream.read]
    dsimp only
    rw [piece]
  · exact drop_piece text position n

theorem closed_delivers : Delivers CacheStream.read (Fits file) (.sd none 0) [] := by
  refine Delivers.of_invariant (fun stream left => stream = .sd none 0 ∧ left = []) ?_ ⟨rfl, rfl⟩
  rintro _ _ n ⟨rfl, rfl⟩ -
  exact ⟨[], ⟨rfl, Nat.zero_le n, fun more => absurd rfl more⟩, rfl, rfl⟩

/-- A stream from the cache delivers the file. -/
def Served.Right : Served file → Prop
  | .cached stream => Delivers CacheStream.read (Fits file) stream file
  | _ => True

theorem right_of {stream : CacheStream} {text : Str} (short : file.length < 2 ^ 32)
    (delivers : Delivers CacheStream.read (Fits file) stream text) :
    Served.Right (.cached stream : Served file) ↔ text = file := by
  constructor
  · exact fun right => delivers.unique right (show Fits file 1 from ⟨Nat.one_pos, short⟩)
  · exact fun same => same ▸ delivers

variable {crc32 : Str → Str} {request : Request}

theorem openSD_right (short : file.length < 2 ^ 32) (a : Attempt file) (content : Str) :
    (a.openSD (some content)).Right ↔ (if a.opens = true then content else []) = file := by
  unfold Attempt.openSD
  cases a.opens with
  | true => exact right_of short (card_delivers content)
  | false => exact right_of short closed_delivers

theorem fallback_right (a : Attempt file) : a.fallback.Right := by
  unfold Attempt.fallback
  cases a.direct with
  | none => exact trivial
  | some stream => exact trivial

/-- What a later call finds in the caches for the request is the file. -/
structure Trusted (crc32 : Str → Str) (request : Request) (file : Str) (s : Caches) : Prop where
  ram : ∀ cf, s.s_ramCache.lookup request.requestUrl = some cf → cf = ⟨file.length, file⟩
  card : ∀ content, s.files.lookup (request.cachePath crc32) = some content → content = file

/-- A call that fills a cache gets the whole file there, and one that is served from the card
can open the file. -/
def Attempt.Careful (crc32 : Str → Str) (request : Request) (s : Caches) (a : Attempt file) : Prop :=
  a.reading = true →
    (a.flags.store = .ram → (a.flags.force_refresh = true ∨ request.requestUrl ∉ s.s_ramCache) →
      ∀ t, a.remote = some t → a.buffer = true → a.memory = true → t.received = [] ∨ t.received = file) ∧
    (a.flags.store = .sd →
      if a.flags.force_refresh = false ∧ request.cachePath crc32 ∈ s.files then a.opens = true ∨ file = []
      else ∀ t, a.remote = some t → a.directory = true → a.creates = true →
        if a.buffer = true then
          (t.received = file ∧ Written a.accepts 0 t.arrivals) ∧ (a.opens = true ∨ file = [])
        else file = [])

theorem Transfer.received_length (t : Transfer file) : t.received.length ≤ file.length := t.part.length_le

theorem loadRAM_eq (short : file.length < 2 ^ 32) (a : Attempt file) (t : Transfer file) :
    a.loadRAM t = if a.buffer = true ∧ a.memory = true ∧ t.received ≠ [] then
      some ⟨t.received.length, t.received⟩ else none := by
  have less := t.received_length
  have buf : ramLoop (t.received.length + 1) t.stream [] = t.received :=
    (ramLoop_all t.sized (Nat.lt_succ_self _) []).trans (List.nil_append _)
  unfold Attempt.loadRAM
  dsimp only
  rw [buf, Nat.mod_eq_of_lt (by omega)]
  cases a.buffer with
  | false => simp
  | true =>
    cases a.memory with
    | false => simp
    | true =>
      cases empty : t.received with
      | nil => simp
      | cons c rest =>
        have inside : ¬ (c :: rest).length ≤ 0 := by simp
        have size : (0 + (c :: rest).length) % 2 ^ 32 = (c :: rest).length := by
          rw [Nat.zero_add, Nat.mod_eq_of_lt (by rw [← empty]; omega)]
        simp [CachedFile.write, size]

theorem loadSD_eq (a : Attempt file) (t : Transfer file) :
    a.loadSD t = if a.directory = true ∧ a.creates = true then
      (some (if a.buffer = true then accepted a.accepts 0 t.arrivals else []), a.buffer) else (none, false) := by
  have content : sdLoop a.accepts (t.received.length + 1) 0 0 t.stream [] = accepted a.accepts 0 t.arrivals :=
    (sdLoop_accepted t.sized a.accepts (Nat.lt_succ_self _) 0 []).trans (List.nil_append _)
  unfold Attempt.loadSD
  rw [content]
  cases a.directory with
  | false => rfl
  | true =>
    cases a.creates with
    | false => rfl
    | true =>
      cases a.buffer with
      | false => rfl
      | true => rfl

theorem Trusted.cleared {s : Caches} (trusted : Trusted crc32 request file s) :
    Trusted crc32 request file (clearRAMCached request.requestUrl s) where
  ram cf found := by
    unfold clearRAMCached at found
    dsimp only at found
    split at found
    · cases found
    · rw [AList.lookup_erase] at found
      cases found
  card := trusted.card

/- A RAM cache that is filled -/
theorem Trusted.insert_ram {s : Caches} (trusted : Trusted crc32 request file s) (cf : CachedFile) :
    Trusted crc32 request file { s with s_ramCache := s.s_ramCache.insert request.requestUrl cf } ↔
      cf = ⟨file.length, file⟩ := by
  constructor
  · exact fun after => after.ram cf (AList.lookup_insert s.s_ramCache)
  · rintro rfl
    refine ⟨fun cf found => ?_, trusted.card⟩
    rw [AList.lookup_insert] at found
    exact (Option.some.inj found).symm

theorem Trusted.insert_card {s : Caches} (trusted : Trusted crc32 request file s) (content : Str) :
    Trusted crc32 request file { s with files := s.files.insert (request.cachePath crc32) content } ↔
      content = file := by
  constructor
  · exact fun after => after.card content (AList.lookup_insert s.files)
  · rintro rfl
    refine ⟨trusted.ram, fun content found => ?_⟩
    rw [AList.lookup_insert] at found
    exact (Option.some.inj found).symm

theorem fetchRAM_right (short : file.length < 2 ^ 32) {s : Caches} (trusted : Trusted crc32 request file s)
    (a : Attempt file) :
    ((a.fetchRAM request s).1.Right ∧ Trusted crc32 request file (a.fetchRAM request s).2) ↔
      ∀ t, a.remote = some t → a.buffer = true → a.memory = true → t.received = [] ∨ t.received = file := by
  unfold Attempt.fetchRAM
  cases remote : a.remote with
  | none => exact iff_of_true ⟨fallback_right a, trusted⟩ fun t no => nomatch no
  | some t =>
    rw [Option.bind_some, loadRAM_eq short]
    split
    · rename_i cf loaded
      split at loaded
      · rename_i filled
        cases loaded
        have whole : (⟨t.received.length, t.received⟩ : CachedFile) = ⟨file.length, file⟩ ↔ t.received = file := by
          constructor
          · exact fun same => (CachedFile.mk.inj same).2
          · exact fun same => by rw [same]
        dsimp only
        rw [right_of short (ram_delivers t.received_length), trusted.insert_ram, whole, and_self_iff]
        constructor
        · rintro same _ ⟨⟩ - -
          exact .inr same
        · exact fun all => (all t rfl filled.1 filled.2.1).resolve_left filled.2.2
      · cases loaded
    · rename_i loaded
      refine iff_of_true ⟨fallback_right a, trusted⟩ ?_
      rintro _ ⟨⟩ buffer memory
      split at loaded
      · cases loaded
      · rename_i empty
        exact .inl (Classical.not_not.mp fun more => empty ⟨buffer, memory, more⟩)

theorem openRAM_right (short : file.length < 2 ^ 32) {s : Caches} (trusted : Trusted crc32 request file s)
    (a : Attempt file) :
    ((a.openRAM request s).1.Right ∧ Trusted crc32 request file (a.openRAM request s).2) ↔
      ((a.flags.force_refresh = true ∨ request.requestUrl ∉ s.s_ramCache) →
        ∀ t, a.remote = some t → a.buffer = true → a.memory = true → t.received = [] ∨ t.received = file) := by
  unfold Attempt.openRAM
  cases a.flags.force_refresh with
  | true =>
    rw [if_pos rfl, fetchRAM_right short trusted.cleared]
    simp
  | false =>
    rw [if_neg Bool.false_ne_true]
    cases found : s.s_ramCache.lookup request.requestUrl with
    | some cf =>
      have there : request.requestUrl ∈ s.s_ramCache := AList.lookup_isSome.mp (by rw [found]; rfl)
      rw [trusted.ram cf found]
      refine iff_of_true ⟨(right_of short (ram_delivers (Nat.le_refl _))).mpr rfl, trusted⟩ ?_
      rintro (no | missing)
      · cases no
      · exact absurd there missing
    | none =>
      have missing : request.requestUrl ∉ s.s_ramCache := AList.lookup_eq_none.mp found
      dsimp only
      rw [fetchRAM_right short trusted]
      simp [missing]

theorem fetchCard_right (short : file.length < 2 ^ 32) {s : Caches} (trusted : Trusted crc32 request file s)
    (a : Attempt file) :
    ((a.fetchCard crc32 request s).1.Right ∧ Trusted crc32 request file (a.fetchCard crc32 request s).2) ↔
      ∀ t, a.remote = some t → a.directory = true → a.creates = true →
        if a.buffer = true then
          (t.received = file ∧ Written a.accepts 0 t.arrivals) ∧ (a.opens = true ∨ file = [])
        else file = [] := by
  unfold Attempt.fetchCard
  cases remote : a.remote with
  | none => exact iff_of_true ⟨fallback_right a, trusted⟩ fun t no => nomatch no
  | some t =>
    rw [Option.map_some, loadSD_eq]
    split
    · rename_i content loaded filled
      split at filled
      · rename_i created
        cases filled
        dsimp only
        rw [AList.lookup_insert]
        cases a.buffer with
        | false =>
          rw [if_neg Bool.false_ne_true, if_neg Bool.false_ne_true, trusted.insert_card]
          constructor
          · rintro ⟨-, empty⟩ _ ⟨⟩ - -
            rw [if_neg Bool.false_ne_true]
            exact empty.symm
          · intro all
            have empty := all t rfl created.1 created.2
            rw [if_neg Bool.false_ne_true] at empty
            exact ⟨fallback_right a, empty.symm⟩
        | true =>
          rw [if_pos rfl, if_pos rfl, trusted.insert_card]
          dsimp only
          rw [openSD_right short]
          have opened : (if a.opens = true then accepted a.accepts 0 t.arrivals else []) = file ∧
              accepted a.accepts 0 t.arrivals = file ↔
              accepted a.accepts 0 t.arrivals = file ∧ (a.opens = true ∨ file = []) := by
            cases a.opens with
            | true => simp
            | false =>
              rw [if_neg Bool.false_ne_true, eq_comm (a := ([] : Str)), and_comm]
              simp
          rw [opened, t.accepted_iff a.accepts]
          constructor
          · rintro holds _ ⟨⟩ - -
            exact holds
          · exact fun all => all t rfl created.1 created.2
      · cases filled
    · rename_i unfilled
      refine iff_of_true ⟨fallback_right a, trusted⟩ ?_
      rintro _ ⟨⟩ directory creates
      rw [if_pos ⟨directory, creates⟩] at unfilled
      exact absurd rfl (unfilled _ _)

theorem openCard_right (short : file.length < 2 ^ 32) {s : Caches} (trusted : Trusted crc32 request file s)
    (a : Attempt file) :
    ((a.openCard crc32 request s).1.Right ∧ Trusted crc32 request file (a.openCard crc32 request s).2) ↔
      if a.flags.force_refresh = false ∧ request.cachePath crc32 ∈ s.files then a.opens = true ∨ file = []
      else ∀ t, a.remote = some t → a.directory = true → a.creates = true →
        if a.buffer = true then
          (t.received = file ∧ Written a.accepts 0 t.arrivals) ∧ (a.opens = true ∨ file = [])
        else file = [] := by
  unfold Attempt.openCard
  split
  · rename_i hit
    obtain ⟨content, found⟩ := Option.isSome_iff_exists.mp (AList.lookup_isSome.mpr hit.2)
    rw [found, trusted.card content found, openSD_right short]
    cases a.opens with
    | true => simpa using trusted
    | false =>
      rw [if_neg Bool.false_ne_true]
      constructor
      · exact fun holds => .inr holds.1.symm
      · exact fun holds => ⟨(holds.resolve_left Bool.false_ne_true).symm, trusted⟩
  · exact fetchCard_right short trusted a

/-- One call is careful exactly where what it returns from a cache, and what it leaves there, is
the file. -/
theorem openStreamWithCache_right (short : file.length < 2 ^ 32) {s : Caches}
    (trusted : Trusted crc32 request file s) (a : Attempt file) :
    ((openStreamWithCache crc32 request s a).1.Right ∧
      Trusted crc32 request file (openStreamWithCache crc32 request s a).2) ↔ a.Careful crc32 request s := by
  unfold openStreamWithCache Attempt.Careful
  cases a.reading with
  | false => exact iff_of_true ⟨fallback_right a, trusted⟩ fun no => nomatch no
  | true =>
    cases a.flags.store with
    | none => exact iff_of_true ⟨fallback_right a, trusted⟩ fun _ => ⟨(nomatch ·), (nomatch ·)⟩
    | ram =>
      rw [if_pos ⟨rfl, rfl⟩, openRAM_right short trusted]
      simp
    | sd =>
      rw [if_neg (by simp), if_pos ⟨rfl, rfl⟩, openCard_right short trusted]
      simp

/-- In a run of calls for one url, every stream returned from a cache delivers the file and
every state reached holds nothing else, exactly where every call is careful. -/
theorem cached_whole (short : file.length < 2 ^ 32) {s : Caches} (trusted : Trusted crc32 request file s)
    (calls : List (Attempt file)) :
    Along (fun s a => (openStreamWithCache crc32 request s a).2)
        (fun s a => (openStreamWithCache crc32 request s a).1.Right ∧
          Trusted crc32 request file (openStreamWithCache crc32 request s a).2) s calls ↔
      Along (fun s a => (openStreamWithCache crc32 request s a).2) (Attempt.Careful crc32 request) s calls := by
  refine Along.congr (I := Trusted crc32 request file) ?_ ?_ trusted
  · exact fun s a trusted => openStreamWithCache_right short trusted a
  · exact fun s a trusted careful => ((openStreamWithCache_right short trusted a).mpr careful).2

end

/- "http://h/f", a file of two bytes. -/
def sampleRequest : Request where
  requestUrl := [0x68, 0x74, 0x74, 0x70, 0x3a, 0x2f, 0x2f, 0x68, 0x2f, 0x66]
  host := [0x68]
  name := [0x66]

def sampleCrc32 (_ : Str) : Str := [0x61, 0x36, 0x61, 0x66, 0x62, 0x34, 0x38, 0x34]

def sampleContent : Str := [0x41, 0x42]

def sampleWhole : Transfer sampleContent := ⟨[sampleContent], by decide, by decide⟩

def sampleBroken : Transfer sampleContent := ⟨[[0x41]], by decide, by decide⟩

def sampleAttempt (store : CacheType) (remote : Option (Transfer sampleContent)) : Attempt sampleContent where
  reading := true
  flags := { store := store }
  remote := remote
  direct := none
  buffer := true
  memory := true
  directory := true
  creates := true
  accepts _ := kBufSize
  opens := true

theorem trusted_empty (crc32 : Str → Str) (request : Request) (file : Str) : Trusted crc32 request file {} :=
  ⟨fun _ no => (nomatch no), fun _ no => (nomatch no)⟩

/-- A whole transfer is served again without the remote. -/
theorem cached_whole_sample :
    Along (fun s a => (openStreamWithCache sampleCrc32 sampleRequest s a).2)
      (fun s a => (openStreamWithCache sampleCrc32 sampleRequest s a).1.Right ∧
        Trusted sampleCrc32 sampleRequest sampleContent (openStreamWithCache sampleCrc32 sampleRequest s a).2)
      {} [sampleAttempt .ram (some sampleWhole), sampleAttempt .ram none] := by
  refine (cached_whole (by decide) (trusted_empty _ _ _) _).mpr ⟨fun _ => ⟨?_, (nomatch ·)⟩, fun _ => ⟨?_, (nomatch ·)⟩, trivial⟩
  · rintro - - _ ⟨⟩ - -
    exact .inr rfl
  · rintro - - _ ⟨⟩

/-- A transfer that breaks off after the first byte is served from both caches as the file, while
the remote is away. -/
theorem cached_cut_short :
    let again := fun store => (openStreamWithCache sampleCrc32 sampleRequest
      (openStreamWithCache sampleCrc32 sampleRequest {} (sampleAttempt store (some sampleBroken))).2
      (sampleAttempt store none)).1
    ¬ (again .ram).Right ∧ ¬ (again .sd).Right := by
  have short : sampleContent.length < 2 ^ 32 := by decide
  have part : sampleBroken.received ≠ sampleContent := by decide
  constructor
  · exact fun right => part ((right_of short (ram_delivers sampleBroken.received_length)).mp right)
  · exact fun right => part ((right_of short (card_delivers sampleBroken.received)).mp right)

end Meatloaf
