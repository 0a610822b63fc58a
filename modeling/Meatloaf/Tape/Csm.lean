import Mathlib.Data.List.Rotate
import Meatloaf.Lib.Run
import Meatloaf.Archive.Medium
import Meatloaf.Text.Numbers

/-! `csm.cpp`: a tape with its head. The entries and the head are shared by all streams on an image;
a scan counts its steps in its own stream. -/
namespace Meatloaf.Tape

open Lib Archive

/-- `std::ios_base::openmode`. -/
inductive OpenMode
  | reading
  | writing
  | both
deriving DecidableEq

/-- `CSMEntry`. -/
structure CSMEntry where
  file_type : UInt8 := 0
  start_address : Nat := 0
  end_address : Nat := 0
  name : Str := []
  data_offset : Nat := 0
  data_length : Nat := 0
deriving DecidableEq

/-- `CSMState`. -/
structure CSMState where
  entries : List CSMEntry := []
  walked : Bool := false
  tape_index : Nat := 0
  tape_ended : Bool := false
  current : CSMEntry := {}
  have_current : Bool := false

/-- `CSMMStream`, without what it shares. -/
structure CSMMStream where
  containerStream : Medium
  mode : OpenMode := .reading
  default_name : Str := []
  scan_steps : Nat := 0
  seekCalled : Bool := false
  _size : Nat := 0
  _position : Nat := 0
  _load_address : UInt8 × UInt8 := (0, 0)

/- A stream as `getDecodedStream` makes it. -/
def CSMMStream.fresh (container : Str) (mode : OpenMode) (name : Str) : CSMMStream where
  containerStream := { bytes := container }
  mode := mode
  default_name := name

namespace Csm

def header_block_size : Nat := 192
def header_field_size : Nat := 21
def type_end_tape : UInt8 := 5
def max_entries : Nat := 256

/-- `mstr::rtrimPad`. -/
def rtrimPad (s : Str) : Str := (s.reverse.dropWhile fun c => c == 0xA0 || isspace c).reverse

/- A word of a header. -/
def word (hdr : Str) (i : Nat) : Nat := (hdr.getD i 0).toNat ||| (hdr.getD (i + 1) 0).toNat <<< 8

/- The entry of a header. -/
def entryOf (container_size offset : Nat) (hdr : Str) : CSMEntry where
  file_type := hdr.getD 0 0
  start_address := word hdr 1
  end_address := word hdr 3
  name := toUTF8 (rtrimPad ((hdr.drop 5).take 16))
  data_offset := offset + header_block_size
  data_length := min (word hdr 3 - word hdr 1) (container_size - (offset + header_block_size))

/- The walk of `readHeader`, with room for so many more entries. -/
def walk : Nat → Nat → Medium → List CSMEntry × Medium
  | 0, _, m => ([], m)
  | room + 1, offset, m =>
    if m.bytes.length < offset + header_block_size then ([], m)
    else
      let r := (m.seek offset).readContainer header_field_size
      if r.1.length ≠ header_field_size then ([], r.2)
      else if r.1.getD 0 0 = type_end_tape then ([], r.2)
      else
        let e := entryOf m.bytes.length offset r.1
        if e.end_address < e.start_address then ([], r.2)
        else
          let more := walk room (e.data_offset + (e.end_address - e.start_address)) r.2
          (e :: more.1, more.2)

/-- `readHeader`. -/
def readHeader (s : CSMMStream) (st : CSMState) : Bool × CSMMStream × CSMState :=
  if st.walked then (!st.entries.isEmpty, s, st)
  else
    let r := walk max_entries 0 s.containerStream
    (!r.1.isEmpty, { s with containerStream := r.2 }, { st with walked := true, entries := r.1 })

/-- `entryDisplayName`. -/
def entryDisplayName (s : CSMMStream) (e : CSMEntry) : Str := if e.name ≠ [] then e.name else s.default_name

/-- `resetTape`. -/
def resetTape (st : CSMState) : CSMState := { st with tape_index := 0, tape_ended := false, have_current := false }

/-- `nextTapeEntry`. -/
def nextTapeEntry (s : CSMMStream) (st : CSMState) : Bool × CSMMStream × CSMState :=
  let r := readHeader s st
  if r.1 then
    match r.2.2.entries[r.2.2.tape_index]? with
    | none => (false, r.2.1, { r.2.2 with tape_ended := true, have_current := false })
    | some e => (true, r.2.1, { r.2.2 with tape_index := r.2.2.tape_index + 1, current := e, have_current := true })
  else (false, r.2.1, { r.2.2 with tape_ended := true, have_current := false })

/-- `serveCurrent`. -/
def serveCurrent (s : CSMMStream) (st : CSMState) : CSMMStream × CSMState where
  fst := { s with
    seekCalled := true
    _size := st.current.data_length + 2
    _load_address := (UInt8.ofNat st.current.start_address, UInt8.ofNat (st.current.start_address >>> 8))
    _position := 0
    containerStream := s.containerStream.seek st.current.data_offset }
  snd := { st with have_current := false }

/-- `seekNextEntry`. -/
def seekNextEntry (s : CSMMStream) (st : CSMState) : Str × CSMMStream × CSMState :=
  if s.mode = .writing then ([], s, st)
  else
    let r := readHeader s st
    if r.1 = false ∨ r.2.2.entries = [] then ([], r.2)
    else if r.2.2.entries.length ≤ r.2.1.scan_steps then ([], r.2)
    else
      let s := { r.2.1 with scan_steps := r.2.1.scan_steps + 1 }
      if r.2.2.have_current then (entryDisplayName s r.2.2.current, serveCurrent s r.2.2)
      else
        let st := if r.2.2.entries.length ≤ r.2.2.tape_index then resetTape r.2.2 else r.2.2
        let st := { st with current := st.entries.getD st.tape_index {}, tape_index := st.tape_index + 1 }
        (entryDisplayName s st.current, serveCurrent s st)

/-- What `getNextFileInDir` does with the tape at the first call of a listing. -/
def listing (s : CSMMStream) (st : CSMState) : CSMState :=
  (nextTapeEntry s (if st.tape_ended then resetTape st else st)).2.2

/- What happens to the tape of an image: listings, steps of a scan, of whatever stream on the
image and however far, and rewinds. -/
inductive Access
  | listing (s : CSMMStream)
  | scan (s : CSMMStream)
  | rewind

def Access.stream : Access → Option CSMMStream
  | listing s => some s
  | scan s => some s
  | rewind => none

def access (st : CSMState) : Access → CSMState
  | .listing s => listing s st
  | .scan s => (seekNextEntry s st).2.2
  | .rewind => resetTape st

/- The entries on a container. -/
def entriesOf (container : Str) : List CSMEntry := (walk max_entries 0 { bytes := container }).1

/- So many steps of a scan: what each returned and left in the stream. -/
def scanned : Nat → CSMMStream → CSMState → List (Str × CSMMStream)
  | 0, _, _ => []
  | n + 1, s, st => ((seekNextEntry s st).1, (seekNextEntry s st).2.1) :: scanned n (seekNextEntry s st).2.1 (seekNextEntry s st).2.2

/-- A step serves an entry. -/
structure Serves (container name : Str) (r : Str × CSMMStream) (e : CSMEntry) : Prop where
  named : r.1 = if e.name ≠ [] then e.name else name
  selected : r.2.seekCalled = true
  size : r.2._size = e.data_length + 2
  load_address : r.2._load_address = (UInt8.ofNat e.start_address, UInt8.ofNat (e.start_address >>> 8))
  begin_ : r.2._position = 0
  data : r.2.containerStream = { bytes := container, pos := e.data_offset }

variable {container : Str} {s : CSMMStream} {st : CSMState} {m : Medium}

/- The walk keeps the container, and does not ask where it stands. -/
theorem walk_bytes (room offset : Nat) (m : Medium) : (walk room offset m).2.bytes = m.bytes := by
  induction room generalizing offset m with
  | zero => rfl
  | succ room ih =>
    simp only [walk]
    split
    · rfl
    · split
      · rfl
      · split
        · rfl
        · split
          · rfl
          · exact ih _ _

theorem walk_pos (room offset : Nat) (m : Medium) (pos : Nat) : (walk room offset (m.seek pos)).1 = (walk room offset m).1 := by
  cases room with
  | zero => rfl
  | succ room =>
    have same : (m.seek pos).seek offset = m.seek offset := rfl
    have bytes : (m.seek pos).bytes = m.bytes := rfl
    simp only [walk, same, bytes]
    by_cases short : m.bytes.length < offset + header_block_size
    · rw [if_pos short, if_pos short]
    · rw [if_neg short, if_neg short]

theorem walk_entries (here : m.bytes = container) : (walk max_entries 0 m).1 = entriesOf container := by
  have same : Medium.seek m.pos { bytes := container } = m := by rw [← here]; rfl
  have walked := walk_pos max_entries 0 { bytes := container } m.pos
  rwa [same] at walked

/-- What holds of the state of a tape: the head is on the tape, and an entry that is ready is the
last one before it. -/
structure Sound (container : Str) (st : CSMState) : Prop where
  entries : st.entries = if st.walked then entriesOf container else []
  head : st.tape_index ≤ st.entries.length
  current : st.have_current = true → 0 < st.tape_index ∧ st.entries[st.tape_index - 1]? = some st.current

theorem sound_start (container : Str) : Sound container {} := ⟨rfl, Nat.le_refl _, fun ready => by cases ready⟩

/-- After `readHeader` the entries are those on the container. -/
theorem readHeader_eq (sound : Sound container st) (here : s.containerStream.bytes = container) :
    ∃ m : Medium, m.bytes = container ∧ readHeader s st = (!(entriesOf container).isEmpty, { s with containerStream := m },
      { st with walked := true, entries := entriesOf container }) := by
  have entries := sound.entries
  rw [readHeader]
  cases walked : st.walked with
  | true =>
    rw [walked, if_pos rfl] at entries
    refine ⟨s.containerStream, here, ?_⟩
    rw [if_pos rfl, ← entries, ← walked]
  | false =>
    refine ⟨(walk max_entries 0 s.containerStream).2, (walk_bytes ..).trans here, ?_⟩
    rw [if_neg (by decide)]
    simp only [walk_entries here]

/- The state after the walk. -/
theorem Sound.walked (sound : Sound container st) : Sound container { st with walked := true, entries := entriesOf container } := by
  have entries := sound.entries
  cases walked : st.walked with
  | true =>
    rw [walked, if_pos rfl] at entries
    refine ⟨rfl, ?_, ?_⟩
    · dsimp only
      rw [← entries]
      exact sound.head
    · dsimp only
      rw [← entries]
      exact sound.current
  | false =>
    rw [walked, if_neg (by decide)] at entries
    have head := sound.head
    rw [entries, List.length_nil] at head
    refine ⟨rfl, ?_, fun ready => ?_⟩
    · dsimp only
      omega
    · have := (sound.current ready).1
      omega

theorem Sound.resetTape (sound : Sound container st) : Sound container (resetTape st) :=
  ⟨sound.entries, Nat.zero_le _, fun ready => by cases ready⟩

theorem Sound.nextTapeEntry (sound : Sound container st) (here : s.containerStream.bytes = container) :
    Sound container (nextTapeEntry s st).2.2 := by
  obtain ⟨m, -, header⟩ := readHeader_eq sound here
  have walked := sound.walked
  rw [Csm.nextTapeEntry, header]
  dsimp only
  split
  · split
    · exact ⟨walked.entries, walked.head, fun ready => by cases ready⟩
    · rename_i e found
      have below := (List.getElem?_eq_some_iff.mp found).1
      refine ⟨walked.entries, below, fun _ => ⟨Nat.succ_pos _, ?_⟩⟩
      dsimp only
      rw [Nat.add_sub_cancel]
      exact found
  · exact ⟨walked.entries, walked.head, fun ready => by cases ready⟩

/- The entry a scan comes to next. -/
def head (container : Str) (st : CSMState) : Nat :=
  if st.have_current then st.tape_index - 1 else st.tape_index % (entriesOf container).length

theorem head_lt (sound : Sound container st) (nonempty : entriesOf container ≠ []) : head container st < (entriesOf container).length := by
  have positive := List.length_pos_iff.mpr nonempty
  have walked := sound.walked
  rw [head]
  split
  · rename_i ready
    have first := (walked.current ready).1
    have inside := walked.head
    dsimp only at first inside
    omega
  · exact Nat.mod_lt _ positive

/-- A step of a scan that has not been round: it serves the entry at the head, and the head moves on. -/
theorem seekNextEntry_next (sound : Sound container st) (here : s.containerStream.bytes = container)
    (readable : s.mode ≠ .writing) (nonempty : entriesOf container ≠ []) (more : s.scan_steps < (entriesOf container).length) :
    ∃ e, (entriesOf container)[head container st]? = some e ∧
      Serves container s.default_name ((seekNextEntry s st).1, (seekNextEntry s st).2.1) e ∧
      Sound container (seekNextEntry s st).2.2 ∧
      head container (seekNextEntry s st).2.2 = (head container st + 1) % (entriesOf container).length ∧
      (seekNextEntry s st).2.1.scan_steps = s.scan_steps + 1 ∧ (seekNextEntry s st).2.1.mode = s.mode ∧
      (seekNextEntry s st).2.1.default_name = s.default_name := by
  have positive := List.length_pos_iff.mpr nonempty
  obtain ⟨m, same, header⟩ := readHeader_eq sound here
  have walked := sound.walked
  have inside := walked.head
  dsimp only at inside
  rw [seekNextEntry, if_neg readable, header]
  simp only [List.isEmpty_eq_false_iff.mpr nonempty, Bool.not_false, Bool.true_eq_false, nonempty, or_self, if_false,
    Nat.not_le.mpr more]
  by_cases ready : st.have_current = true
  · obtain ⟨first, current⟩ := walked.current ready
    dsimp only at first current
    refine ⟨st.current, by rw [head, if_pos ready]; exact current, ?_⟩
    rw [if_pos ready]
    refine ⟨⟨rfl, rfl, rfl, rfl, rfl, by rw [serveCurrent, Medium.seek, same]⟩,
      ⟨walked.entries, walked.head, fun ready => by cases ready⟩, ?_, rfl, rfl, rfl⟩
    have back : st.tape_index - 1 + 1 = st.tape_index := by omega
    rw [head, head, if_pos ready, back]
    rfl
  · rw [if_neg ready]
    -- the head at the end of the tape runs back to its start
    obtain ⟨i, rewound⟩ : ∃ i, i = st.tape_index % (entriesOf container).length := ⟨_, rfl⟩
    have below : i < (entriesOf container).length := rewound ▸ Nat.mod_lt _ positive
    have place : (if (entriesOf container).length ≤ st.tape_index
        then resetTape { st with walked := true, entries := entriesOf container }
        else { st with walked := true, entries := entriesOf container }).tape_index = i := by
      split
      · have : st.tape_index = (entriesOf container).length := by omega
        rw [rewound, this, Nat.mod_self]
        rfl
      · rw [rewound, Nat.mod_eq_of_lt (by omega)]
    have listed : (if (entriesOf container).length ≤ st.tape_index
        then resetTape { st with walked := true, entries := entriesOf container }
        else { st with walked := true, entries := entriesOf container }).entries = entriesOf container := by
      split <;> rfl
    have known : (if (entriesOf container).length ≤ st.tape_index
        then resetTape { st with walked := true, entries := entriesOf container }
        else { st with walked := true, entries := entriesOf container }).walked = true := by
      split <;> rfl
    generalize (if (entriesOf container).length ≤ st.tape_index
        then resetTape { st with walked := true, entries := entriesOf container }
        else { st with walked := true, entries := entriesOf container }) = t at *
    have found : (entriesOf container)[i]? = some (t.entries.getD t.tape_index {}) := by
      rw [listed, place, List.getElem?_eq_getElem below, List.getD_eq_getElem _ _ below]
    have at_head : head container st = i := by
      rw [head, if_neg ready, rewound]
    refine ⟨_, at_head ▸ found, ⟨rfl, rfl, rfl, rfl, rfl, by rw [serveCurrent, Medium.seek, same]⟩,
      ⟨?_, ?_, fun ready => by cases ready⟩, ?_, rfl, rfl, rfl⟩
    · show t.entries = if t.walked then entriesOf container else []
      rw [known, if_pos rfl, listed]
    · show t.tape_index + 1 ≤ t.entries.length
      rw [place, listed]
      exact below
    · rw [at_head, ← place]
      rfl

/-- A step of a scan that has been round. -/
theorem seekNextEntry_round (sound : Sound container st) (here : s.containerStream.bytes = container)
    (round : (entriesOf container).length ≤ s.scan_steps) : (seekNextEntry s st).1 = [] := by
  obtain ⟨m, -, header⟩ := readHeader_eq sound here
  rw [seekNextEntry, header]
  simp only [if_pos round]
  split
  · rfl
  · split <;> rfl

/-- Every step of a scan leaves a tape that is sound, whatever its stream has seen. -/
theorem Sound.seekNextEntry (sound : Sound container st) (here : s.containerStream.bytes = container) :
    Sound container (seekNextEntry s st).2.2 := by
  obtain ⟨m, -, header⟩ := readHeader_eq sound here
  by_cases readable : s.mode = .writing
  · rw [Csm.seekNextEntry, if_pos readable]
    exact sound
  · by_cases nonempty : entriesOf container = []
    · rw [Csm.seekNextEntry, if_neg readable, header]
      simp only [nonempty, or_true, if_true]
      rw [← nonempty]
      exact sound.walked
    · by_cases more : s.scan_steps < (entriesOf container).length
      · obtain ⟨-, -, -, kept, -⟩ := seekNextEntry_next sound here readable nonempty more
        exact kept
      · rw [Csm.seekNextEntry, if_neg readable, header]
        simp only [List.isEmpty_eq_false_iff.mpr nonempty, Bool.not_false, Bool.true_eq_false, nonempty, or_self, if_false,
          Nat.le_of_not_lt more, if_true]
        exact sound.walked

/- An access through streams on the image. -/
def Access.On (container : Str) (a : Access) : Prop := ∀ s ∈ a.stream, s.containerStream.bytes = container

theorem Sound.access (sound : Sound container st) {a : Access} (on : a.On container) : Sound container (access st a) := by
  cases a with
  | listing s =>
    have here := on s rfl
    rw [Csm.access, listing]
    split
    · exact sound.resetTape.nextTapeEntry here
    · exact sound.nextTapeEntry here
  | scan s => exact sound.seekNextEntry (on s rfl)
  | rewind => exact sound.resetTape

/- The entries from one on, round the tape. -/
def lap (es : List CSMEntry) (n first : Nat) : List CSMEntry := (List.range n).map fun j => es.getD ((first + j) % es.length) {}

theorem lap_succ (es : List CSMEntry) (n first : Nat) :
    lap es (n + 1) first = es.getD (first % es.length) {} :: lap es n ((first + 1) % es.length) := by
  rw [lap, List.range_succ_eq_map, List.map_cons, List.map_map, lap]
  congr 1
  apply List.map_congr_left
  intro j _
  rw [Function.comp_apply, Nat.mod_add_mod, Nat.succ_eq_add_one, Nat.add_assoc, Nat.add_comm j 1]

theorem lap_rotate (es : List CSMEntry) (first : Nat) : lap es es.length first = es.rotate first := by
  apply List.ext_getElem
  · simp [lap]
  · intro j below below'
    have inside : (j + first) % es.length < es.length := by
      rw [List.length_rotate] at below'
      exact Nat.mod_lt _ (by omega)
    simp only [lap, List.getElem_map, List.getElem_range, List.getElem_rotate, Nat.add_comm first j]
    exact List.getD_eq_getElem _ _ inside

/-- What is left of a scan: the entries from the head on, and the end. -/
theorem scanned_lap {left : Nat} (sound : Sound container st) (here : s.containerStream.bytes = container)
    (readable : s.mode ≠ .writing) (nonempty : entriesOf container ≠ []) (steps : s.scan_steps + left = (entriesOf container).length) :
    ∃ served last, scanned (left + 1) s st = served ++ [last] ∧
      List.Forall₂ (Serves container s.default_name) served (lap (entriesOf container) left (head container st)) ∧
      last.1 = [] := by
  induction left generalizing s st with
  | zero => exact ⟨[], _, rfl, List.Forall₂.nil, seekNextEntry_round sound here (by omega)⟩
  | succ left ih =>
    have inside := head_lt sound nonempty
    obtain ⟨e, found, serves, kept, next, stepped, mode, name⟩ := seekNextEntry_next sound here readable nonempty (by omega)
    have bytes : (Csm.seekNextEntry s st).2.1.containerStream.bytes = container := by rw [serves.data]
    obtain ⟨served, last, split, served_lap, ended⟩ := ih kept bytes (mode ▸ readable) (by omega)
    refine ⟨_ :: served, last, by rw [scanned, split]; rfl, ?_, ended⟩
    rw [lap_succ, Nat.mod_eq_of_lt inside, ← next]
    have first : (entriesOf container).getD (head container st) {} = e := by
      rw [List.getD_eq_getElem?_getD, found]
      rfl
    rw [first]
    rw [name] at served_lap
    exact .cons serves served_lap

/-- A scan of a tape with entries, in whatever state the tape was left, serves each entry once: the
entries from one on, round the tape. The first is the one that is ready, if there is one. Then it ends. -/
theorem scan_once (container : Str) (nonempty : entriesOf container ≠ []) (accesses : List Access)
    (on : ∀ a ∈ accesses, a.On container) (mode : OpenMode) (readable : mode ≠ .writing) (name : Str) :
    ∃ first served last, first < (entriesOf container).length ∧
      ((accesses.foldl access {}).have_current = true →
        (entriesOf container)[first]? = some (accesses.foldl access {}).current) ∧
      scanned ((entriesOf container).length + 1) (.fresh container mode name) (accesses.foldl access {}) = served ++ [last] ∧
      List.Forall₂ (Serves container name) served ((entriesOf container).rotate first) ∧ last.1 = [] := by
  have sound : Sound container (accesses.foldl access {}) := by
    exact Along.invariant (fun st a sound on => sound.access on) (sound_start container) (along_of_mem on)
  generalize accesses.foldl access {} = st at sound
  obtain ⟨served, last, split, laps, ended⟩ := @scanned_lap container (.fresh container mode name) st
    (entriesOf container).length sound rfl readable nonempty (Nat.zero_add _)
  rw [lap_rotate] at laps
  refine ⟨head container st, served, last, head_lt sound nonempty, fun ready => ?_, split, laps, ended⟩
  rw [head, if_pos ready]
  exact (sound.walked.current ready).2

/- A tape with two entries without bytes. -/
def twoEntries : Str := 1 :: List.replicate 191 0 ++ 3 :: List.replicate 191 0

def twoStream : CSMMStream := .fresh twoEntries .reading []

/-- The first of them was listed. -/
theorem scan_once_two : ∃ first served last, first < (entriesOf twoEntries).length ∧
    (([Access.listing twoStream].foldl access {}).have_current = true →
      (entriesOf twoEntries)[first]? = some ([Access.listing twoStream].foldl access {}).current) ∧
    scanned ((entriesOf twoEntries).length + 1) (.fresh twoEntries .reading [0x61]) ([Access.listing twoStream].foldl access {}) =
      served ++ [last] ∧
    List.Forall₂ (Serves twoEntries [0x61]) served ((entriesOf twoEntries).rotate first) ∧ last.1 = [] :=
  scan_once twoEntries (by decide +kernel) [.listing twoStream]
    (fun a member => by
      obtain rfl := List.mem_singleton.mp member
      intro s same
      obtain rfl := Option.mem_some_iff.mp same
      rfl) .reading (by decide) [0x61]

end Csm

end Meatloaf.Tape
