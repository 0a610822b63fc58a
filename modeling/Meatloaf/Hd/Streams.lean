import Meatloaf.Hd.Cmd

/-! The streams of a CMD image. The broker keeps one stream for the whole image, whichever
partition it was decoded from, so before a directory operation asks for it the stream of
another partition has to be dropped. The registry remembers in `cached_part` which
partition the broker's stream belongs to. -/
namespace Meatloaf.Hd

open Lib

/-- What a cached stream was decoded from: a partition of this image, or some other image. -/
inductive Decoded where
  | part (p : DHDPartition)
  | other

/-- A `DHDPartitionMFile`. `is_dir` is what a listing said of it, if it came from one. -/
structure DHDFile where
  pathInStream : Str
  normalized : Bool := false
  listing_partitions : Bool := false
  m_part : UInt8 := 0
  dirIsOpen : Bool := false
  is_dir : Option Bool := none

/-- The image, its record in the registry once it was parsed, the broker, and the files that
are open on the image. `content` is what `parse` makes of the image, and `source` what both
the image path and the image path extended by a partition number resolve to. -/
structure DHDSystem where
  content : Option DHDImage
  image : Option DHDImage := none
  broker : ImageBroker Decoded
  source : Option Source
  files : List DHDFile := []

/-- What an operation meets: the keys in use, the clock, and whether the image can be read
for parsing and opened for a stream. -/
structure Env where
  inUse : Str → Bool
  now : Nat
  later : Nat
  readable : Bool
  opens : Bool

/- `std::to_string((unsigned)number)`. -/
def decimalString (number : UInt8) : Str := (Nat.toDigits 10 number.toNat).map fun c => UInt8.ofNat c.toNat

namespace DHDSystem

/-- `DHDImageRegistry::obtain`: the image is parsed again until it could be read. -/
def load (s : DHDSystem) (e : Env) : DHDSystem :=
  match s.image with
  | some _ => s
  | none => if e.readable = true then { s with image := s.content } else s

def normalizePath (s : DHDSystem) (e : Env) (f : DHDFile) : DHDSystem × DHDFile :=
  if f.normalized = true then (s, f)
  else if f.pathInStream = [] then (s, { f with normalized := true })
  else if listsPartitions f.pathInStream = true then
    (s, { f with normalized := true, listing_partitions := true, pathInStream := [] })
  else
    let s := s.load e
    match s.image with
    | none => (s, { f with normalized := true })
    | some img =>
      let x := dhdResolvePartition img f.pathInStream
      match x.out_explicit, x.partition with
      | true, some p => (s, { f with normalized := true, m_part := p.number, pathInStream := x.out_rest })
      | _, _ => (s, { f with normalized := true })

/- The partition a file works on, once the registry was asked. -/
def effective (s : DHDSystem) (f : DHDFile) : Option DHDPartition :=
  s.image.bind fun img => if f.m_part = 0 then img.current else img.byNumber f.m_part

def effectivePartition (s : DHDSystem) (e : Env) (f : DHDFile) : Option DHDPartition × DHDSystem :=
  ((s.load e).effective f, s.load e)

/- Drop the stream of another partition before `obtain` can hand it out. -/
def dropOther (s : DHDSystem) (p : DHDPartition) : DHDSystem :=
  match s.image with
  | none => s
  | some img =>
    if img.cached_part = p.number then s
    else { s with
      broker := s.broker.disposeFor DHDRegistry.imageType s.source
      image := some { img with cached_part := p.number } }

/-- `brokerUrl`: the number that is appended to the image path, if one is. -/
def brokerUrl (s : DHDSystem) (e : Env) (f : DHDFile) : Option UInt8 × DHDSystem × DHDFile :=
  let (s, f) := s.normalizePath e f
  let (partition, s) := s.effectivePartition e f
  match partition with
  | none => (none, s, f)
  | some p => if p.number = 0 then (none, s, f) else (some p.number, s.dropOther p, f)

/- `getSourceStream` of the file that the broker resolves its url to. -/
def build (s : DHDSystem) (e : Env) (number : Option UInt8) : Option Decoded :=
  let f : DHDFile := ⟨(number.map decimalString).getD [], false, false, 0, false, none⟩
  let (s, f) := s.normalizePath e f
  if e.opens = true then (s.effectivePartition e f).1.map Decoded.part else none

/-- `ImageBroker::obtain("d64", brokerUrl())`: the stream that is handed out, and beside it
the partition the file works on at that moment. -/
def obtainStream (s : DHDSystem) (e : Env) (f : DHDFile) :
    (Option Decoded × Option DHDPartition) × DHDSystem × DHDFile :=
  let (number, s, f) := s.brokerUrl e f
  let (handed, broker) := s.broker.obtain e.inUse e.now e.later DHDRegistry.imageType s.source (s.build e number)
  ((handed, s.effective f), { s with broker := broker }, f)

/-- A list of the streams handed out, each with the partition it was asked for. -/
abbrev Handed := List (Option Decoded × Option DHDPartition)

/- `D64MFile::rewindDirectory`; `found` says whether the directory is in the image. -/
def baseRewind (s : DHDSystem) (e : Env) (found : Bool) (f : DHDFile) : Handed × DHDSystem × DHDFile :=
  let (handed, s, f) := s.obtainStream e { f with dirIsOpen := true }
  ([handed], s, { f with dirIsOpen := handed.1.isNone || found })

def rewindDirectory (s : DHDSystem) (e : Env) (found : Bool) (f : DHDFile) : Handed × DHDSystem × DHDFile :=
  let (s, f) := s.normalizePath e f
  if f.listing_partitions = true then
    let s := s.load e
    ([], s, if s.image.isSome then { f with dirIsOpen := true } else f)
  else (s.load e).baseRewind e found f

/- `D64MFile::getNextFileInDir`, for which a directory that is not open is rewound by the
overriding method; `more` says whether there is a further entry. -/
def baseNext (s : DHDSystem) (e : Env) (found more : Bool) (f : DHDFile) : Handed × DHDSystem × DHDFile :=
  let next (s : DHDSystem) (f : DHDFile) : Handed × DHDSystem × DHDFile :=
    let (handed, s, f) := s.obtainStream e f
    ([handed], s, { f with dirIsOpen := f.dirIsOpen && handed.1.isSome && more })
  if f.dirIsOpen = true then next s f
  else
    let (first, s, f) := s.rewindDirectory e found f
    -- a rewind that reports success leaves the directory open with a stream in hand
    if f.dirIsOpen = true ∧ first.all (·.1.isSome) = true then
      let (second, s, f) := next s f
      (first ++ second, s, f)
    else (first, s, f)

def getNextFileInDir (s : DHDSystem) (e : Env) (found more : Bool) (f : DHDFile) :
    Handed × DHDSystem × DHDFile :=
  let (first, s, f) := if f.dirIsOpen = true then ([], s, f) else s.rewindDirectory e found f
  if f.listing_partitions = true then
    let s := s.load e
    (first, s, if s.image.isSome && more then f else { f with dirIsOpen := false })
  else
    let (second, s, f) := s.baseNext e found more f
    (first ++ second, s, f)

/- The paths of an image's own root. -/
def isRoot (path : Str) : Bool := path == [] || path == [slash]

def isDirectory (s : DHDSystem) (e : Env) (f : DHDFile) : Handed × DHDSystem × DHDFile :=
  let (s, f) := s.normalizePath e f
  if f.listing_partitions = true ∨ f.is_dir.isSome = true ∨ isRoot f.pathInStream = true then ([], s, f)
  else
    let (handed, s, f) := s.obtainStream e f
    ([handed], s, f)

def «exists» (s : DHDSystem) (e : Env) (f : DHDFile) : Handed × DHDSystem × DHDFile :=
  let (s, f) := s.normalizePath e f
  if f.listing_partitions = true ∨ isRoot f.pathInStream = true then ([], s, f)
  else
    let (handed, s, f) := s.obtainStream e f
    ([handed], s, f)

/-- `DHDImageRegistry::select`. -/
def select (s : DHDSystem) (e : Env) (number : UInt8) : DHDSystem :=
  let s := s.load e
  match s.image with
  | none => s
  | some img =>
    let r := ((⟨img, s.broker, s.source⟩ : DHDRegistry Decoded).select number).2
    { s with image := some r.image, broker := r.broker }

/- `D64MFile::remove` after the entry was scratched: the listing stream is dropped. -/
def forget (s : DHDSystem) (e : Env) (f : DHDFile) : DHDSystem × DHDFile :=
  let (_, s, f) := s.brokerUrl e f
  ({ s with broker := s.broker.disposeFor DHDRegistry.imageType s.source }, f)

/- The key under which the image's stream is cached. -/
def imageKey (s : DHDSystem) : Option Str := s.source.map (·.key DHDRegistry.imageType)

/-- What parsing promises of a table. -/
structure Usable (img : DHDImage) : Prop where
  mounted : img.Mounted
  numbers : ∀ p ∈ img.parts, p.number.toNat ≤ 254

/-- The file names no partition, or one that exists. -/
def Bound (s : DHDSystem) (f : DHDFile) : Prop :=
  f.m_part = 0 ∨ ∃ img p, s.image = some img ∧ img.byNumber f.m_part = some p

/-- The cached stream was decoded from the partition that the registry remembers. -/
structure Coherent (s : DHDSystem) : Prop where
  content : ∀ img, s.content = some img → Usable img
  usable : ∀ img, s.image = some img → Usable img
  cached : ∀ key d, s.imageKey = some key → s.broker.image_repo.lookup key = some d →
    ∃ img p, s.image = some img ∧ img.byNumber img.cached_part = some p ∧ d = .part p

/- What an operation never changes: the image, its table, and the files it is not made on. -/
structure Keeps (s s' : DHDSystem) : Prop where
  content : s'.content = s.content
  source : s'.source = s.source
  files : s'.files = s.files
  parts : ∀ img, s.image = some img → ∃ img', s'.image = some img' ∧ img'.parts = img.parts

theorem Keeps.refl (s : DHDSystem) : Keeps s s := ⟨rfl, rfl, rfl, fun img here => ⟨img, here, rfl⟩⟩

theorem Keeps.trans {s t u : DHDSystem} (first : Keeps s t) (second : Keeps t u) : Keeps s u where
  content := second.content.trans first.content
  source := second.source.trans first.source
  files := second.files.trans first.files
  parts := by
    intro img here
    obtain ⟨img', there, same⟩ := first.parts img here
    obtain ⟨img'', last, same'⟩ := second.parts img' there
    exact ⟨img'', last, same'.trans same⟩

theorem Keeps.bound {s s' : DHDSystem} (keeps : Keeps s s') {f : DHDFile} (bound : Bound s f) : Bound s' f := by
  rcases bound with zero | ⟨img, p, here, found⟩
  · exact .inl zero
  · obtain ⟨img', there, same⟩ := keeps.parts img here
    refine .inr ⟨img', p, there, ?_⟩
    rw [DHDImage.byNumber, same]
    exact found

theorem load_coherent {s : DHDSystem} (coherent : Coherent s) (e : Env) :
    Coherent (s.load e) ∧ Keeps s (s.load e) := by
  unfold load
  split
  · exact ⟨coherent, Keeps.refl s⟩
  · rename_i absent
    split
    · refine ⟨⟨coherent.content, coherent.content, ?_⟩, ⟨rfl, rfl, rfl, ?_⟩⟩
      · intro key d name found
        obtain ⟨img, p, here, -⟩ := coherent.cached key d name found
        rw [absent] at here
        cases here
      · intro img here
        rw [absent] at here
        cases here
    · exact ⟨coherent, Keeps.refl s⟩

theorem load_load (s : DHDSystem) (e : Env) : (s.load e).load e = s.load e := by
  cases here : s.image with
  | some img => simp only [load, here]
  | none =>
    by_cases readable : e.readable = true
    · cases content : s.content with
      | some img => simp only [load, here, readable, content, if_true]
      | none => simp only [load, here, readable, content, if_true]
    · simp only [load, here, readable, Bool.false_eq_true, if_false]

theorem normalizePath_coherent {s : DHDSystem} (coherent : Coherent s) (e : Env) {f : DHDFile} (bound : Bound s f) :
    Coherent (s.normalizePath e f).1 ∧ Keeps s (s.normalizePath e f).1 ∧
      Bound (s.normalizePath e f).1 (s.normalizePath e f).2 := by
  unfold normalizePath
  split
  · exact ⟨coherent, Keeps.refl s, bound⟩
  · split
    · exact ⟨coherent, Keeps.refl s, bound⟩
    · split
      · exact ⟨coherent, Keeps.refl s, bound⟩
      · obtain ⟨coherent', keeps⟩ := load_coherent coherent e
        dsimp only
        split
        · exact ⟨coherent', keeps, keeps.bound bound⟩
        · rename_i img here
          split
          · rename_i p explicit named
            refine ⟨coherent', keeps, .inr ?_⟩
            -- the partition a path names is found again by its number
            obtain ⟨q, found⟩ := DHDImage.byNumber_of_mem (dhdResolvePartition_mem named)
            exact ⟨img, q, here, found⟩
          · exact ⟨coherent', keeps, keeps.bound bound⟩

/- A file of a parsed image works on a disk. -/
theorem effective_some {s : DHDSystem} (coherent : Coherent s) {f : DHDFile} (bound : Bound s f) {img : DHDImage}
    (here : s.image = some img) :
    ∃ p, s.effective f = some p ∧ img.byNumber p.number = some p ∧ p.number ≠ 0 := by
  unfold effective
  rw [here, Option.bind_some]
  by_cases follows : f.m_part = 0
  · obtain ⟨p, current, selected, user⟩ := (coherent.usable img here).mounted
    refine ⟨p, by rw [if_pos follows]; exact current, ?_, user⟩
    rw [selected]
    exact current
  · rcases bound with zero | ⟨img', p, here', found⟩
    · exact absurd zero follows
    · rw [here] at here'
      obtain rfl := Option.some.inj here'
      have number := DHDImage.byNumber_number found
      refine ⟨p, by rw [if_neg follows]; exact found, ?_, ?_⟩
      · rw [number]
        exact found
      · rw [number]
        exact follows

theorem dispose_absent {s : DHDSystem} {key : Str} (name : s.imageKey = some key) :
    (s.broker.disposeFor DHDRegistry.imageType s.source).image_repo.lookup key = none := by
  unfold imageKey at name
  obtain ⟨f, source, rfl⟩ := Option.map_eq_some_iff.mp name
  rw [source, ImageBroker.disposeFor, AList.lookup_eq_none, ImageBroker.mem_dispose]
  exact fun present => present.1 rfl

/- After `dropOther` the broker holds a stream of the partition that is asked for, or none. -/
theorem dropOther_coherent {s : DHDSystem} (coherent : Coherent s) {img : DHDImage} (here : s.image = some img)
    (p : DHDPartition) :
    Coherent (s.dropOther p) ∧ Keeps s (s.dropOther p) ∧
      ∃ img', (s.dropOther p).image = some img' ∧ img'.parts = img.parts ∧ img'.selected = img.selected ∧
        img'.cached_part = p.number := by
  unfold dropOther
  rw [here]
  dsimp only
  split
  · rename_i same
    exact ⟨coherent, Keeps.refl s, img, here, rfl, rfl, same⟩
  · refine ⟨⟨coherent.content, ?_, ?_⟩, ⟨rfl, rfl, rfl, ?_⟩, _, rfl, rfl, rfl, rfl⟩
    · intro img' there
      obtain rfl := Option.some.inj there
      exact ⟨(coherent.usable img here).mounted, (coherent.usable img here).numbers⟩
    · intro key d name present
      have gone := dispose_absent (s := s) name
      dsimp only at present
      rw [gone] at present
      cases present
    · intro img' there
      rw [here] at there
      obtain rfl := Option.some.inj there
      exact ⟨_, rfl, rfl⟩

/-- What holds when the broker is asked: the image was parsed and the registry names the
file's partition, or it was not and nothing is cached. -/
theorem brokerUrl_coherent {s : DHDSystem} (coherent : Coherent s) (e : Env) {f : DHDFile} (bound : Bound s f)
    {number : Option UInt8} {s' : DHDSystem} {f' : DHDFile} (result : s.brokerUrl e f = (number, s', f')) :
    Coherent s' ∧ Keeps s s' ∧ Bound s' f' ∧
      ((∃ img p, s'.image = some img ∧ s'.effective f' = some p ∧ img.byNumber p.number = some p ∧
          p.number ≠ 0 ∧ img.cached_part = p.number ∧ number = some p.number) ∨
        (s'.image = none ∧ s'.load e = s' ∧ number = none)) := by
  obtain ⟨coherent₁, keeps₁, bound₁⟩ := normalizePath_coherent coherent e bound
  unfold brokerUrl effectivePartition at result
  generalize s.normalizePath e f = normal at *
  obtain ⟨s₁, f₁⟩ := normal
  dsimp only at *
  obtain ⟨coherent₂, keeps₂⟩ := load_coherent coherent₁ e
  have bound₂ := keeps₂.bound bound₁
  cases here : (s₁.load e).image with
  | none =>
    have nothing : (s₁.load e).effective f₁ = none := by rw [effective, here]; rfl
    rw [nothing] at result
    obtain ⟨rfl, rfl, rfl⟩ := result
    exact ⟨coherent₂, keeps₁.trans keeps₂, bound₂, .inr ⟨here, load_load s₁ e, rfl⟩⟩
  | some img =>
    obtain ⟨p, effective, found, user⟩ := effective_some coherent₂ bound₂ here
    obtain ⟨coherent₃, keeps₃, img', there, parts, selected, cached⟩ := dropOther_coherent coherent₂ here p
    rw [effective] at result
    dsimp only at result
    rw [if_neg user] at result
    obtain ⟨rfl, rfl, rfl⟩ := result
    refine ⟨coherent₃, keeps₁.trans (keeps₂.trans keeps₃), keeps₃.bound bound₂, .inl ⟨img', p, there, ?_, ?_, user, cached, rfl⟩⟩
    · rw [← effective, DHDSystem.effective, DHDSystem.effective, there, here, Option.bind_some, Option.bind_some]
      unfold DHDImage.current DHDImage.byNumber
      rw [parts, selected]
    · rw [DHDImage.byNumber, parts]
      exact found

theorem decimalString_facts (number : UInt8) :
    decimalString number ≠ [] ∧ wildcardOnly (decimalString number) = false ∧
      numeric (decimalString number) = true ∧ strtol (decimalString number) = number.toNat ∧
      slash ∉ decimalString number ∧ listsPartitions (decimalString number) = false := by
  have all : ∀ n < 256, decimalString (UInt8.ofNat n) ≠ [] ∧ wildcardOnly (decimalString (UInt8.ofNat n)) = false ∧
      numeric (decimalString (UInt8.ofNat n)) = true ∧ strtol (decimalString (UInt8.ofNat n)) = n ∧
      slash ∉ decimalString (UInt8.ofNat n) ∧ listsPartitions (decimalString (UInt8.ofNat n)) = false := by
    decide +kernel
  have facts := all number.toNat (UInt8.toNat_lt number)
  rwa [UInt8.ofNat_toNat] at facts

/-- A number that the table has is resolved to its partition. -/
theorem resolve_decimalString {img : DHDImage} (usable : Usable img) {number : UInt8} (user : number ≠ 0)
    {p : DHDPartition} (found : img.byNumber number = some p) :
    dhdResolvePartition img (decimalString number) = ⟨some p, [], true⟩ := by
  obtain ⟨nonempty, plain, digits, value, noSlash, -⟩ := decimalString_facts number
  have whole : firstComponent (decimalString number) = decimalString number := by
    have parts := (afterComponent_eq (decimalString number)).1
    rw [if_neg noSlash, List.append_nil] at parts
    exact parts.symm
  have within : number.toNat ≤ 254 := by
    have bound := usable.numbers p (List.mem_of_find?_eq_some found)
    rwa [DHDImage.byNumber_number found] at bound
  have positive : number.toNat ≠ 0 := fun zero => user (UInt8.toNat_inj.mp zero)
  have named : namedPartition 254 img.current img.byNumber
      (fun comp => (img.byName comp).filter (·.number ≠ 0)) (decimalString number) = some p := by
    unfold namedPartition
    rw [if_neg (by simp [nonempty, plain]), if_pos digits, value, if_pos within, if_neg positive, UInt8.ofNat_toNat]
    exact found
  unfold dhdResolvePartition resolvePartition
  rw [whole, named]
  dsimp only
  rw [(afterComponent_eq (decimalString number)).2 noSlash]

/- The stream that the broker builds is decoded from the partition its url names. -/
theorem build_some {s : DHDSystem} (coherent : Coherent s) (e : Env) {img : DHDImage} (here : s.image = some img)
    {p : DHDPartition} (found : img.byNumber p.number = some p) (user : p.number ≠ 0) {d : Decoded}
    (built : s.build e (some p.number) = some d) : d = .part p := by
  have resolved := resolve_decimalString (coherent.usable img here) user found
  obtain ⟨nonempty, -, -, -, -, listing⟩ := decimalString_facts p.number
  have loaded : s.load e = s := by rw [load, here]
  unfold build normalizePath at built
  simp only [Option.map_some, Option.getD_some, Bool.false_eq_true, if_false, if_neg nonempty, listing, loaded, here,
    resolved, effectivePartition, effective, Option.bind_some, if_neg user, found] at built
  split at built
  · exact (Option.some.inj built).symm
  · cases built

theorem build_none {s : DHDSystem} (e : Env) (absent : s.image = none) (loaded : s.load e = s) :
    s.build e none = none := by
  simp only [build, normalizePath, Option.map_none, Option.getD_none, Bool.false_eq_true, if_false, if_true,
    effectivePartition, loaded, effective, absent, Option.bind_none, Option.map_none, ite_self]

/-- The stream was decoded from the partition it was asked for. -/
def Served (handed : Option Decoded × Option DHDPartition) : Prop :=
  ∀ d, handed.1 = some d → ∃ p, handed.2 = some p ∧ d = .part p

theorem obtainStream_coherent {s : DHDSystem} (coherent : Coherent s) (e : Env) {f : DHDFile} (bound : Bound s f)
    {handed : Option Decoded × Option DHDPartition} {s' : DHDSystem} {f' : DHDFile}
    (result : s.obtainStream e f = (handed, s', f')) :
    Coherent s' ∧ Keeps s s' ∧ Bound s' f' ∧ Served handed := by
  unfold obtainStream at result
  rcases asked : s.brokerUrl e f with ⟨number, s₁, f₁⟩
  obtain ⟨coherent₁, keeps₁, bound₁, state⟩ := brokerUrl_coherent coherent e bound asked
  rw [asked] at result
  dsimp only at result
  -- whatever the broker then holds under the image's key belongs to the partition
  have right : ∀ d, (∃ key, s₁.imageKey = some key ∧ s₁.broker.image_repo.lookup key = some d) ∨
      s₁.build e number = some d → ∃ img p, s₁.image = some img ∧ s₁.effective f₁ = some p ∧
        img.byNumber img.cached_part = some p ∧ d = .part p := by
    intro d origin
    rcases state with ⟨img, p, here, effective, found, user, cached, rfl⟩ | ⟨absent, loaded, rfl⟩
    · refine ⟨img, p, here, effective, by rw [cached]; exact found, ?_⟩
      rcases origin with ⟨key, name, present⟩ | built
      · obtain ⟨img', q, here', found', rfl⟩ := coherent₁.cached key d name present
        rw [here] at here'
        obtain rfl := Option.some.inj here'
        rw [cached, found] at found'
        rw [Option.some.inj found']
      · exact build_some coherent₁ e here found user built
    · rcases origin with ⟨key, name, present⟩ | built
      · obtain ⟨img', q, here', -⟩ := coherent₁.cached key d name present
        rw [absent] at here'
        cases here'
      · rw [build_none e absent loaded] at built
        cases built
  obtain ⟨rfl, rfl, rfl⟩ := result
  refine ⟨⟨coherent₁.content, coherent₁.usable, ?_⟩, ⟨keeps₁.content, keeps₁.source, keeps₁.files, keeps₁.parts⟩,
    bound₁, ?_⟩
  · intro key d name present
    have origin : (∃ key, s₁.imageKey = some key ∧ s₁.broker.image_repo.lookup key = some d) ∨
        s₁.build e number = some d := by
      rcases ImageBroker.obtain_cached present with before | ⟨-, built⟩
      · exact .inl ⟨key, name, before⟩
      · exact .inr built
    obtain ⟨img, p, here, -, found, same⟩ := right d origin
    exact ⟨img, p, here, found, same⟩
  · intro d out
    have origin : (∃ key, s₁.imageKey = some key ∧ s₁.broker.image_repo.lookup key = some d) ∨
        s₁.build e number = some d := by
      rcases ImageBroker.obtain_handed out with ⟨f, source, found⟩ | built
      · exact .inl ⟨_, by rw [imageKey, source]; rfl, found⟩
      · exact .inr built
    obtain ⟨img, p, here, effective, -, same⟩ := right d origin
    exact ⟨p, effective, same⟩

/-- What every directory operation promises. -/
structure Fine (s : DHDSystem) (out : Handed × DHDSystem × DHDFile) : Prop where
  coherent : Coherent out.2.1
  keeps : Keeps s out.2.1
  bound : Bound out.2.1 out.2.2
  served : ∀ handed ∈ out.1, Served handed

theorem obtainStream_fine {s : DHDSystem} (coherent : Coherent s) (e : Env) {f : DHDFile} (bound : Bound s f) :
    Fine s ([(s.obtainStream e f).1], (s.obtainStream e f).2) := by
  obtain ⟨coherent', keeps, bound', served⟩ := obtainStream_coherent coherent e bound rfl
  refine ⟨coherent', keeps, bound', ?_⟩
  intro handed member
  rw [List.mem_singleton.mp member]
  exact served

/- Flags of a file are not what it is bound by. -/
theorem Fine.flag {s : DHDSystem} {handed : Handed} {s' : DHDSystem} {f f' : DHDFile} (fine : Fine s (handed, s', f))
    (same : f'.m_part = f.m_part) : Fine s (handed, s', f') where
  coherent := fine.coherent
  keeps := fine.keeps
  bound := by
    have bound := fine.bound
    unfold Bound at bound ⊢
    rw [same]
    exact bound
  served := fine.served

/- One operation after another. -/
theorem Fine.append {s : DHDSystem} {first : Handed} {s₁ : DHDSystem} {f₁ : DHDFile}
    {out : Handed × DHDSystem × DHDFile} (fine : Fine s (first, s₁, f₁)) (next : Fine s₁ out) :
    Fine s (first ++ out.1, out.2) where
  coherent := next.coherent
  keeps := fine.keeps.trans next.keeps
  bound := next.bound
  served := by
    intro handed member
    rcases List.mem_append.mp member with member | member
    · exact fine.served handed member
    · exact next.served handed member

theorem normalizePath_fine {s : DHDSystem} (coherent : Coherent s) (e : Env) {f : DHDFile} (bound : Bound s f) :
    Fine s ([], s.normalizePath e f) := by
  obtain ⟨coherent', keeps, bound'⟩ := normalizePath_coherent coherent e bound
  exact ⟨coherent', keeps, bound', fun _ member => by cases member⟩

theorem load_fine {s : DHDSystem} (coherent : Coherent s) (e : Env) {f : DHDFile} (bound : Bound s f) :
    Fine s ([], s.load e, f) := by
  obtain ⟨coherent', keeps⟩ := load_coherent coherent e
  exact ⟨coherent', keeps, keeps.bound bound, fun _ member => by cases member⟩

theorem baseRewind_fine {s : DHDSystem} (coherent : Coherent s) (e : Env) (found : Bool) {f : DHDFile}
    (bound : Bound s f) : Fine s (s.baseRewind e found f) := by
  have fine := obtainStream_fine coherent e (f := { f with dirIsOpen := true }) bound
  unfold baseRewind
  generalize s.obtainStream e { f with dirIsOpen := true } = out at fine ⊢
  obtain ⟨handed, s₁, f₁⟩ := out
  exact fine.flag rfl

theorem rewindDirectory_fine {s : DHDSystem} (coherent : Coherent s) (e : Env) (found : Bool) {f : DHDFile}
    (bound : Bound s f) : Fine s (s.rewindDirectory e found f) := by
  have fine := normalizePath_fine coherent e bound
  unfold rewindDirectory
  generalize s.normalizePath e f = out at fine ⊢
  obtain ⟨s₁, f₁⟩ := out
  have loaded := load_fine fine.coherent e fine.bound
  dsimp only
  split
  · refine Fine.flag (f := f₁) (fine.append loaded) ?_
    split
    · rfl
    · rfl
  · exact (fine.append loaded).append (baseRewind_fine loaded.coherent e found loaded.bound)

theorem nextEntry_fine {s : DHDSystem} (coherent : Coherent s) (e : Env) (more : Bool) {f : DHDFile}
    (bound : Bound s f) :
    Fine s ([(s.obtainStream e f).1], (s.obtainStream e f).2.1,
      { (s.obtainStream e f).2.2 with
        dirIsOpen := (s.obtainStream e f).2.2.dirIsOpen && (s.obtainStream e f).1.1.isSome && more }) :=
  (obtainStream_fine coherent e bound).flag rfl

theorem baseNext_fine {s : DHDSystem} (coherent : Coherent s) (e : Env) (found more : Bool) {f : DHDFile}
    (bound : Bound s f) : Fine s (s.baseNext e found more f) := by
  unfold baseNext
  dsimp only
  split
  · exact nextEntry_fine coherent e more bound
  · have first := rewindDirectory_fine coherent e found bound
    generalize s.rewindDirectory e found f = out at first ⊢
    obtain ⟨handed, s₁, f₁⟩ := out
    dsimp only
    split
    · exact first.append (nextEntry_fine first.coherent e more first.bound)
    · exact first

theorem getNextFileInDir_fine {s : DHDSystem} (coherent : Coherent s) (e : Env) (found more : Bool) {f : DHDFile}
    (bound : Bound s f) : Fine s (s.getNextFileInDir e found more f) := by
  have first : Fine s (if f.dirIsOpen = true then ([], s, f) else s.rewindDirectory e found f) := by
    split
    · exact ⟨coherent, Keeps.refl s, bound, fun _ member => by cases member⟩
    · exact rewindDirectory_fine coherent e found bound
  unfold getNextFileInDir
  generalize (if f.dirIsOpen = true then ([], s, f) else s.rewindDirectory e found f) = out at first ⊢
  obtain ⟨handed, s₁, f₁⟩ := out
  dsimp only
  split
  · have loaded := first.append (load_fine first.coherent e first.bound)
    rw [List.append_nil] at loaded
    refine Fine.flag (f := f₁) loaded ?_
    split
    · rfl
    · rfl
  · exact first.append (baseNext_fine first.coherent e found more first.bound)

theorem isDirectory_fine {s : DHDSystem} (coherent : Coherent s) (e : Env) {f : DHDFile} (bound : Bound s f) :
    Fine s (s.isDirectory e f) := by
  have fine := normalizePath_fine coherent e bound
  unfold isDirectory
  generalize s.normalizePath e f = out at fine ⊢
  obtain ⟨s₁, f₁⟩ := out
  dsimp only
  split
  · exact fine
  · exact fine.append (obtainStream_fine fine.coherent e fine.bound)

theorem exists_fine {s : DHDSystem} (coherent : Coherent s) (e : Env) {f : DHDFile} (bound : Bound s f) :
    Fine s (s.exists e f) := by
  have fine := normalizePath_fine coherent e bound
  unfold «exists»
  generalize s.normalizePath e f = out at fine ⊢
  obtain ⟨s₁, f₁⟩ := out
  dsimp only
  split
  · exact fine
  · exact fine.append (obtainStream_fine fine.coherent e fine.bound)

/- Whatever only removes streams leaves the cached one what it was. -/
theorem Coherent.trim {s : DHDSystem} (coherent : Coherent s) {broker : ImageBroker Decoded}
    (streams : ∀ key d, s.imageKey = some key → broker.image_repo.lookup key = some d →
      s.broker.image_repo.lookup key = some d) : Coherent { s with broker := broker } :=
  ⟨coherent.content, coherent.usable, fun key d name found => coherent.cached key d name (streams key d name found)⟩

theorem forget_fine {s : DHDSystem} (coherent : Coherent s) (e : Env) {f : DHDFile} (bound : Bound s f) :
    Fine s ([], s.forget e f) := by
  unfold forget
  rcases asked : s.brokerUrl e f with ⟨number, s₁, f₁⟩
  obtain ⟨coherent₁, keeps₁, bound₁, -⟩ := brokerUrl_coherent coherent e bound asked
  have trims := ImageBroker.disposeFor_trims DHDRegistry.imageType s₁.source s₁.broker
  exact ⟨coherent₁.trim fun key d _ found => trims.streams key d found,
    ⟨keeps₁.content, keeps₁.source, keeps₁.files, keeps₁.parts⟩, bound₁, fun _ member => by cases member⟩

theorem select_coherent {s : DHDSystem} (coherent : Coherent s) (e : Env) (number : UInt8) :
    Coherent (s.select e number) ∧ Keeps s (s.select e number) := by
  obtain ⟨coherent₁, keeps₁⟩ := load_coherent coherent e
  unfold select
  generalize s.load e = s₁ at coherent₁ keeps₁
  dsimp only
  split
  · exact ⟨coherent₁, keeps₁⟩
  · rename_i img here
    have usable := coherent₁.usable img here
    have same : ∀ r : DHDRegistry Decoded, r = ⟨img, s₁.broker, s₁.source⟩ →
        Coherent { s₁ with image := some r.image, broker := r.broker } ∧
          Keeps s { s₁ with image := some r.image, broker := r.broker } := by
      rintro r rfl
      dsimp only
      rw [← here]
      exact ⟨coherent₁, keeps₁⟩
    unfold DHDRegistry.select
    split
    · exact same _ rfl
    · rename_i user
      split
      · exact same _ rfl
      · rename_i p found
        dsimp only at found
        split
        · exact same _ rfl
        · refine ⟨⟨coherent₁.content, ?_, ?_⟩, keeps₁.content, keeps₁.source, keeps₁.files, ?_⟩
          · intro img' there
            obtain rfl := Option.some.inj there
            exact ⟨DHDImage.mounted_of_byNumber (p := p) found user, usable.numbers⟩
          · intro key d name present
            have gone := dispose_absent (s := s₁) name
            dsimp only [DHDRegistry.disposeCachedStream] at present
            rw [gone] at present
            cases present
          · intro img' there
            obtain ⟨img'', there', parts⟩ := keeps₁.parts img' there
            rw [here] at there'
            obtain rfl := Option.some.inj there'
            exact ⟨_, rfl, parts⟩

end DHDSystem

/-- The calls that may be made in any order. A file is named by its place among those that
were opened; `read` is a direct `getSourceStream`, for reading or writing. -/
inductive DHDCall where
  | opened (path : Str) (is_dir : Option Bool)
  | rewindDirectory (i : Nat) (found : Bool)
  | getNextFileInDir (i : Nat) (found more : Bool)
  | isDirectory (i : Nat)
  | «exists» (i : Nat)
  | read (i : Nat)
  | remove (i : Nat)
  | select (number : UInt8)
  | broker (op : BrokerOp Decoded)

namespace DHDSystem

/- An operation on one of the open files. -/
def onFile (s : DHDSystem) (i : Nat) (op : DHDFile → Handed × DHDSystem × DHDFile) : Handed × DHDSystem :=
  match s.files[i]? with
  | none => ([], s)
  | some f =>
    let (handed, s, f) := op f
    (handed, { s with files := s.files.set i f })

/- The broker calls of everything else: streams of other images are obtained under other keys. -/
def foreign (s : DHDSystem) : BrokerOp Decoded → Bool
  | .obtain _ _ type (some f) _ => s.imageKey ≠ some (f.key type)
  | _ => true

def call (s : DHDSystem) (c : Env × DHDCall) : Handed × DHDSystem :=
  match c.2 with
  | .opened path is_dir => ([], { s.load c.1 with files := s.files ++ [{ pathInStream := path, is_dir := is_dir }] })
  | .rewindDirectory i found => s.onFile i fun f => s.rewindDirectory c.1 found f
  | .getNextFileInDir i found more => s.onFile i fun f => s.getNextFileInDir c.1 found more f
  | .isDirectory i => s.onFile i fun f => s.isDirectory c.1 f
  | .exists i => s.onFile i fun f => s.exists c.1 f
  | .read i => s.onFile i fun f => ([], s.normalizePath c.1 f)
  | .remove i => s.onFile i fun f => ([], s.forget c.1 f)
  | .select number => ([], s.select c.1 number)
  | .broker op => ([], if s.foreign op then { s with broker := Observed.after s.broker c.1.inUse op } else s)

def step (s : DHDSystem) (c : Env × DHDCall) : DHDSystem := (s.call c).2

structure Invariant (s : DHDSystem) : Prop where
  coherent : Coherent s
  files : ∀ f ∈ s.files, Bound s f

theorem Invariant.onFile {s : DHDSystem} (inv : Invariant s) (i : Nat)
    {op : DHDFile → Handed × DHDSystem × DHDFile} (fine : ∀ f, Bound s f → Fine s (op f)) :
    Invariant (s.onFile i op).2 ∧ ∀ handed ∈ (s.onFile i op).1, Served handed := by
  unfold DHDSystem.onFile
  split
  · exact ⟨inv, fun _ member => by cases member⟩
  · rename_i f here
    have done := fine f (inv.files f (List.mem_of_getElem? here))
    generalize op f = out at done ⊢
    obtain ⟨handed, s', f'⟩ := out
    have files : s'.files = s.files := done.keeps.files
    refine ⟨⟨⟨done.coherent.content, done.coherent.usable, done.coherent.cached⟩, ?_⟩, done.served⟩
    intro g member
    dsimp only at member
    rw [files] at member
    rcases List.mem_or_eq_of_mem_set member with old | rfl
    · exact done.keeps.bound (inv.files g old)
    · exact done.bound

theorem Invariant.broker {s : DHDSystem} (inv : Invariant s) (inUse : Str → Bool) (op : BrokerOp Decoded)
    (other : s.foreign op = true) : Invariant { s with broker := Observed.after s.broker inUse op } := by
  refine ⟨inv.coherent.trim ?_, inv.files⟩
  intro key d name found
  cases op with
  | obtain now later type file built =>
    rcases ImageBroker.obtain_cached found with before | ⟨⟨f, rfl, same⟩, -⟩
    · exact before
    · rw [foreign, decide_eq_true_eq] at other
      exact absurd (name.trans (congrArg some same)) other
  | dispose url => exact (ImageBroker.dispose_trims url _).streams key d found
  | disposeFor type file => exact (ImageBroker.disposeFor_trims type file _).streams key d found
  | validate => exact (ImageBroker.validate_trims inUse _).1.streams key d found
  | cleanup now => exact (ImageBroker.cleanupOldEntries_trims inUse now _).1.streams key d found
  | clear => cases found

theorem Invariant.call {s : DHDSystem} (inv : Invariant s) (c : Env × DHDCall) :
    Invariant (s.step c) ∧ ∀ handed ∈ (s.call c).1, Served handed := by
  obtain ⟨e, c⟩ := c
  have coherent := inv.coherent
  cases c with
  | opened path is_dir =>
    obtain ⟨coherent', keeps⟩ := load_coherent coherent e
    refine ⟨⟨⟨coherent'.content, coherent'.usable, coherent'.cached⟩, ?_⟩, fun _ member => by cases member⟩
    intro f member
    rcases List.mem_append.mp member with member | member
    · exact keeps.bound (inv.files f member)
    · rw [List.mem_singleton.mp member]
      exact .inl rfl
  | rewindDirectory i found => exact inv.onFile i fun f bound => rewindDirectory_fine coherent e found bound
  | getNextFileInDir i found more => exact inv.onFile i fun f bound => getNextFileInDir_fine coherent e found more bound
  | isDirectory i => exact inv.onFile i fun f bound => isDirectory_fine coherent e bound
  | «exists» i => exact inv.onFile i fun f bound => exists_fine coherent e bound
  | read i => exact inv.onFile i fun f bound => normalizePath_fine coherent e bound
  | remove i => exact inv.onFile i fun f bound => forget_fine coherent e bound
  | select number =>
    obtain ⟨coherent', keeps⟩ := select_coherent coherent e number
    refine ⟨⟨coherent', ?_⟩, fun _ member => by cases member⟩
    intro f member
    refine keeps.bound (inv.files f ?_)
    rw [← keeps.files]
    exact member
  | broker op =>
    refine ⟨?_, fun _ member => by cases member⟩
    unfold step DHDSystem.call
    dsimp only
    split
    · rename_i other
      exact inv.broker e.inUse op other
    · exact inv

/-- Whatever is called in whatever order, a directory operation is handed a stream of the
partition its file works on at that moment, or none. -/
theorem served_run (containerUrl : Str) (c : Container) (s : DHDSystem)
    (content : s.content = DHDImage.parse containerUrl c) (unparsed : s.image = none) (noFiles : s.files = [])
    (uncached : ∀ key, s.imageKey = some key → key ∉ s.broker.image_repo) (calls : List (Env × DHDCall)) :
    Along step (fun s c => ∀ handed ∈ (s.call c).1, Served handed) s calls := by
  have start : Invariant s := by
    refine ⟨⟨?_, ?_, ?_⟩, ?_⟩
    · intro img parsed
      rw [content] at parsed
      exact ⟨DHDImage.parse_mounted parsed, DHDImage.parse_numbers parsed⟩
    · intro img here
      rw [unparsed] at here
      cases here
    · intro key d name found
      have absent := AList.lookup_eq_none.mpr (uncached key name)
      rw [absent] at found
      cases found
    · intro f member
      rw [noFiles] at member
      cases member
  exact Along.imp (I := Invariant) (fun s c inv _ => (inv.call c).1) (fun s c inv _ => (inv.call c).2) start along_true

/- The D1M image in the root directory, not yet touched. -/
def sampleSystem : DHDSystem where
  content := DHDImage.parse DHDRegistry.sampleUrl DHDRegistry.sampleFd
  broker := {}
  source := some ⟨[], DHDRegistry.sampleUrl⟩

def sampleEnv : Env := ⟨fun _ => false, 0, 0, true, true⟩

/- The image is listed, partition 1 is selected, and the listing goes on. -/
def sampleCalls : List (Env × DHDCall) :=
  [(sampleEnv, .opened [] none), (sampleEnv, .rewindDirectory 0 true), (sampleEnv, .select 1),
    (sampleEnv, .getNextFileInDir 0 true true)]

/-- `served_run` applies to that image, and both operations of the listing are handed a
stream. -/
theorem served_run_d1m :
    Along step (fun s c => ∀ handed ∈ (s.call c).1, Served handed) sampleSystem sampleCalls ∧
      (sampleCalls.foldl (fun s c => ((s.1.call c).2, s.2 ++ (s.1.call c).1)) (sampleSystem, [])).2.map
        (·.1.isSome) = [true, true] := by
  constructor
  · refine served_run DHDRegistry.sampleUrl DHDRegistry.sampleFd sampleSystem (by simp only [sampleSystem])
      rfl rfl ?_ sampleCalls
    intro key _ member
    cases member
  · decide +kernel

end DHDSystem

end Meatloaf.Hd
