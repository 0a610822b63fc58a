import Meatloaf.Lib.Store
import Meatloaf.Tape.Loaded

/-! `t64.cpp`: the emulator's tape image, a directory of entries in front of the programs. The
structs of the source are the bytes they are read into. -/
namespace Meatloaf.Tape

open Lib Archive

/-- `T64MStream`. `entry_count` is none before a header is read. -/
structure T64MStream extends Loaded where
  header : Str := List.replicate 32 0
  entry : Str := List.replicate 32 0
  entry_count : Option Nat := none
  entry_index : Nat := 0

namespace T64

/- The fields of `Header` and `Entry`. -/
def header_count (header : Str) : Nat := Csm.word header 4
def start_address (entry : Str) : Nat := Csm.word entry 2
def end_address (entry : Str) : Nat := Csm.word entry 4
def data_offset (entry : Str) : Nat := Csm.word entry 8 + 65536 * Csm.word entry 10

/- The name of an entry up to a zero, at most sixteen bytes of it, as it is compared. -/
def lookup (entry : Str) : Str := toUTF8 (((entry.drop 16).take 16).takeWhile (· ≠ 0))

/-- `readHeader`. -/
def readHeader (s : T64MStream) : Bool × T64MStream :=
  let r := (s.containerStream.seek 0x20).readContainer 32
  let s := { s with containerStream := r.2, header := Store.overlaid s.header r.1 }
  if r.1 = [] then (false, s) else (true, { s with entry_count := some (header_count s.header) })

/-- `seekEntry(uint16_t)`. -/
def seekEntry (index : Nat) (s : T64MStream) : Bool × T64MStream :=
  let r := if s.entry_count = none then readHeader s else (true, s)
  if r.1 = false then (false, r.2)
  else if header_count r.2.header < index then (false, r.2)
  else
    -- `index--` in sixteen bits
    let entryOffset := (0x40 + (index + 65535) % 65536 * 32) % 65536
    let c := (r.2.containerStream.seek entryOffset).readContainer 32
    (true, { r.2 with
      containerStream := c.2
      entry := Store.overlaid r.2.entry c.1
      entry_index := (index + 65535) % 65536 + 1 })

/- The loop of `seekEntry(std::string)`. Where the header counts 65535 entries it need not end. -/
def searchEntries (filename : Str) (wildcard : Bool) : Nat → Nat → T64MStream → Option (Bool × T64MStream)
  | 0, _, _ => none
  | fuel + 1, index, s =>
    let r := seekEntry (index % 65536) s
    if r.1 = false then some (false, r.2)
    else if compareFilename (lookup r.2.entry) filename wildcard then some (true, r.2)
    else searchEntries filename wildcard fuel (index + 1) r.2

/-- `seekEntry(std::string)`. -/
def seekName (fuel : Nat) (filename : Str) (s : T64MStream) : Option (Bool × T64MStream) :=
  let missed (s : T64MStream) : Bool × T64MStream := (false, { s with entry := s.entry.set 16 0 })
  if filename = [] then some (missed s)
  else
    (searchEntries (slashed filename) (isWildcard (slashed filename)) fuel 1 s).map fun r =>
      if r.1 then r else missed r.2

/- What `seekPath` does with the entry it has found. -/
def select (s : T64MStream) : T64MStream :=
  { s with
    _size := (end_address s.entry + 2 ^ 32 - start_address s.entry + 2) % 2 ^ 32
    _load_address := (UInt8.ofNat (start_address s.entry), UInt8.ofNat (start_address s.entry >>> 8))
    _position := 0
    containerStream := s.containerStream.seek (data_offset s.entry) }

/-- `seekPath`. -/
def seekPath (fuel : Nat) (path : Str) (s : T64MStream) : Option (Bool × T64MStream) :=
  (seekName fuel path { s with seekCalled := true, entry_index := 0 }).map fun r => if r.1 then (true, select r.2) else r

/-- `MMediaStream::read` with the `readFile` of the image. -/
def read (size : Nat) (s : T64MStream) : (Nat × Str) × T64MStream :=
  ((s.toLoaded.read size).1, { s with toLoaded := (s.toLoaded.read size).2 })

variable {s s' : T64MStream} {fuel : Nat} {found : Bool}

/- A search leaves the container and the selection of the stream as they are. -/
structure Keeps (s s' : T64MStream) : Prop where
  container : s'.containerStream.bytes = s.containerStream.bytes
  selected : s'.seekCalled = s.seekCalled

theorem Keeps.trans {t : T64MStream} (first : Keeps s s') (rest : Keeps s' t) : Keeps s t :=
  ⟨rest.container.trans first.container, rest.selected.trans first.selected⟩

theorem keeps_readHeader (s : T64MStream) : Keeps s (readHeader s).2 := by
  rw [readHeader]
  split
  · exact ⟨Medium.seek_readContainer_bytes _ _ _, rfl⟩
  · exact ⟨Medium.seek_readContainer_bytes _ _ _, rfl⟩

/- Wherever the entry is, and whatever number it gets. -/
theorem keeps_readEntry (entryOffset number : Nat) (entry : Str) (s : T64MStream) :
    Keeps s { s with
      containerStream := ((s.containerStream.seek entryOffset).readContainer 32).2
      entry := entry
      entry_index := number } :=
  ⟨Medium.seek_readContainer_bytes _ _ _, rfl⟩

theorem keeps_seekEntry (index : Nat) (s : T64MStream) : Keeps s (seekEntry index s).2 := by
  have header : Keeps s (if s.entry_count = none then readHeader s else (true, s)).2 := by
    split
    · exact keeps_readHeader s
    · exact ⟨rfl, rfl⟩
  rw [seekEntry]
  generalize (if s.entry_count = none then readHeader s else (true, s)) = r at header
  dsimp only
  split
  · exact header
  · split
    · exact header
    · exact header.trans (keeps_readEntry _ _ _ _)

theorem keeps_searchEntries {filename : Str} {wildcard : Bool} {index : Nat}
    (searched : searchEntries filename wildcard fuel index s = some (found, s')) : Keeps s s' := by
  induction fuel generalizing index s with
  | zero => cases searched
  | succ fuel ih =>
    have step := keeps_seekEntry (index % 65536) s
    rw [searchEntries] at searched
    split at searched
    · cases searched
      exact step
    · split at searched
      · cases searched
        exact step
      · exact step.trans (ih searched)

theorem keeps_seekName {filename : Str} (sought : seekName fuel filename s = some (true, s')) : Keeps s s' := by
  rw [seekName] at sought
  dsimp only at sought
  split at sought
  · cases sought
  · obtain ⟨⟨found, t⟩, searched, outcome⟩ := Option.map_eq_some_iff.mp sought
    cases found with
    | true =>
      cases outcome
      exact keeps_searchEntries searched
    | false => cases outcome

theorem word_lt (b : Str) (i : Nat) : Csm.word b i < 65536 := by
  have low := (b.getD i 0).toNat_lt
  have high := (b.getD (i + 1) 0).toNat_lt
  refine Nat.or_lt_two_pow (n := 16) (by omega) ?_
  rw [Nat.shiftLeft_eq]
  omega

/-- The data of the selected entry lies in the container. -/
def Inside (s : T64MStream) : Prop :=
  start_address s.entry ≤ end_address s.entry ∧
    data_offset s.entry + (end_address s.entry - start_address s.entry) ≤ s.containerStream.bytes.length

def data (s : T64MStream) : Str :=
  (s.containerStream.bytes.drop (data_offset s.entry)).take (end_address s.entry - start_address s.entry)

/-- An entry that a path has found is a program of its own. -/
theorem selected_seekPath {path : Str} (sought : seekPath fuel path s = some (true, s')) (inside : Inside s') :
    s'.toLoaded.Selected (data s') ∧ s'.containerStream.bytes = s.containerStream.bytes ∧
      s'._load_address = (UInt8.ofNat (start_address s'.entry), UInt8.ofNat (start_address s'.entry >>> 8)) := by
  obtain ⟨⟨found, t⟩, named, outcome⟩ := Option.map_eq_some_iff.mp sought
  cases found with
  | false => cases outcome
  | true =>
    have keeps := keeps_seekName named
    cases outcome
    obtain ⟨ordered, within⟩ := inside
    refine ⟨⟨keeps.selected, rfl, ?_, _, (List.take_append_drop _ _).symm⟩, keeps.container, rfl⟩
    have start := word_lt t.entry 2
    have finish := word_lt t.entry 4
    rw [data, List.length_take, List.length_drop]
    show (end_address t.entry + 2 ^ 32 - start_address t.entry + 2) % 2 ^ 32 =
      min (end_address t.entry - start_address t.entry) (t.containerStream.bytes.length - data_offset t.entry) + 2
    change start_address t.entry ≤ end_address t.entry at ordered
    change data_offset t.entry + (end_address t.entry - start_address t.entry) ≤ t.containerStream.bytes.length at within
    rw [Nat.min_eq_left (by omega), show end_address t.entry + 2 ^ 32 - start_address t.entry + 2 =
      end_address t.entry - start_address t.entry + 2 + 2 ^ 32 by omega, Nat.add_mod_right, Nat.mod_eq_of_lt]
    change start_address t.entry < 65536 at start
    change end_address t.entry < 65536 at finish
    omega

/- A tape with one program of two bytes. -/
def tape : T64MStream where
  containerStream := { bytes := List.replicate 32 0x20 ++ [0, 1, 1, 0, 1, 0, 0, 0] ++ List.replicate 24 0x20 ++
    [1, 0x82, 0x01, 0x08, 0x03, 0x08, 0, 0, 0x60, 0, 0, 0, 0, 0, 0, 0, 0x41] ++ List.replicate 15 0 ++ [0x60, 0x2a] }
  _size := 256

def opened : T64MStream := ((seekPath 1 [0x61] tape).getD (false, tape)).2

theorem opened_found : seekPath 1 [0x61] tape = some (true, opened) := by
  have found : (seekPath 1 [0x61] tape).map Prod.fst = some true := by decide
  obtain ⟨r, sought, hit⟩ := Option.map_eq_some_iff.mp found
  rw [opened, sought, ← hit]
  rfl

theorem opened_inside : Inside opened := by
  unfold Inside
  decide

/-- Reads of a program of either kind of tape, of any sizes, get its address and then its data, each
writing what it reports, exactly when the first of them is not for one byte. -/
theorem reads_program_iff (ns : List Nat) (positive : ∀ n ∈ ns, 0 < n) :
    (∀ fuel path s s', seekPath fuel path s = some (true, s') → Inside s' →
      (Exact read s' (UInt8.ofNat (start_address s'.entry) :: UInt8.ofNat (start_address s'.entry >>> 8) :: data s') ns ↔
        ns.head? ≠ some 1)) ∧
    (∀ (s : CSMMStream) (st : CSMState), st.current ∈ Csm.entriesOf s.containerStream.bytes →
      st.current.data_offset + (st.current.end_address - st.current.start_address) ≤ s.containerStream.bytes.length →
      (Exact CSMMStream.read (Csm.serveCurrent s st).1
          (UInt8.ofNat st.current.start_address :: UInt8.ofNat (st.current.start_address >>> 8) ::
            (s.containerStream.bytes.drop st.current.data_offset).take (st.current.end_address - st.current.start_address)) ns ↔
        ns.head? ≠ some 1)) := by
  constructor
  · intro fuel path s s' sought inside
    obtain ⟨sel, -, address⟩ := selected_seekPath sought inside
    have text : s'.toLoaded.text (data s') =
        UInt8.ofNat (start_address s'.entry) :: UInt8.ofNat (start_address s'.entry >>> 8) :: data s' := by
      rw [Loaded.text, address]
    rw [← text, Exact.of_inside T64MStream.toLoaded (fun _ _ => rfl) fun _ _ => rfl]
    exact sel.exact_iff_head positive
  · intro s st member inside
    have sel := Csm.selected_serveCurrent s member inside
    rw [Exact.of_inside CSMMStream.loaded (fun _ _ => rfl) fun _ _ => rfl]
    exact sel.exact_iff_head positive

theorem reads_program_two_pieces : Exact read opened [0x01, 0x08, 0x60, 0x2a] [3, 1] := by
  have positive : ∀ n ∈ [3, 1], 0 < n := by decide
  have whole := ((reads_program_iff [3, 1] positive).1 1 [0x61] tape opened opened_found opened_inside).mpr (by decide)
  have text : UInt8.ofNat (start_address opened.entry) :: UInt8.ofNat (start_address opened.entry >>> 8) :: data opened =
      [0x01, 0x08, 0x60, 0x2a] := by decide
  rwa [text] at whole

/- A read of one byte comes back with two, of which none is written. -/
theorem one_byte_unwritten : ∃ s, seekPath 1 [0x61] tape = some (true, s) ∧ Inside s ∧
    ¬ Exact read s (UInt8.ofNat (start_address s.entry) :: UInt8.ofNat (start_address s.entry >>> 8) :: data s) [1] := by
  refine ⟨opened, opened_found, opened_inside, fun exact => ?_⟩
  have counted := exact.1
  have piece : (read 1 opened).1 = (2, []) := by decide
  rw [piece] at counted
  cases counted

end T64

end Meatloaf.Tape
