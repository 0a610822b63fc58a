import Meatloaf.Archive.Lnx

/-! Which bytes the directory of a Lynx archive is made of, for any container: those in a buffer that have been read into
it, and others that have been in it before. -/
namespace Meatloaf.Archive

open Lib

/- What the buffers hold before anything is read into them: that of the search, with what lies behind it, and that of
the name of each entry. -/
structure Stack where
  buffer : Nat → UInt8
  filename_buf : Nat → Str

namespace LNXMStream

/- A buffer with so many bytes read into it. -/
def filled (garbage : Nat → UInt8) (bytes : Str) (j : Nat) : UInt8 := if j < bytes.length then bytes.getD j 0 else garbage j

/- `buffer[i] == 'L' && buffer[i+1] == 'Y' && buffer[i+2] == 'N' && buffer[i+3] == 'X'`, and what it looks at. -/
def signatureAt (buffer : Nat → UInt8) (i : Nat) : Bool × List Nat :=
  if buffer i ≠ 0x4c then (false, [i])
  else if buffer (i + 1) ≠ 0x59 then (false, [i, i + 1])
  else if buffer (i + 2) ≠ 0x4e then (false, [i, i + 1, i + 2])
  else (buffer (i + 3) == 0x58, [i, i + 1, i + 2, i + 3])

/- The loop over so many places from `i` on: where the signature is, and what has been looked at. -/
def search (buffer : Nat → UInt8) : Nat → Nat → Option Nat × List Nat
  | 0, _ => (none, [])
  | turns + 1, i =>
    let here := signatureAt buffer i
    let more := search buffer turns (i + 1)
    if here.1 then (some i, here.2) else (more.1, here.2 ++ more.2)

/- `bytesRead - 4`, of unsigned numbers. -/
def searchBound (bytesRead : Nat) : Nat := (bytesRead + 2 ^ 32 - 4) % 2 ^ 32

def searched (stack : Stack) (s : LNXMStream) : Option Nat × List Nat :=
  let r := (s.containerStream.seek 0).readContainer 254
  search (filled stack.buffer r.1) (searchBound r.1.length) 0

/-- `skipBasicLoader`, of a container of any length. -/
def findLoader (stack : Stack) (s : LNXMStream) : LNXMStream :=
  let r := (s.containerStream.seek 0).readContainer 254
  { s with containerStream := r.2.seek (((s.searched stack).1).getD 0x5E) }

/- `readHeader` behind the loader. -/
def headerAt (s : LNXMStream) : Bool × LNXMStream :=
  let signature := s.readLine
  if ¬ lynx <:+: signature.1 then (false, signature.2)
  else
    let dir_blocks := signature.2.readLine
    let count := dir_blocks.2.readLine
    (true, { count.2 with
      directory_blocks := narrow 16 (atoi dir_blocks.1)
      entry_count := some (narrow 16 (atoi count.1)) })

/- An entry of the loop. The name has all 16 bytes of its buffer. -/
def rawEntry (stale : Str) (s : LNXMStream) : LynxEntry × LNXMStream :=
  let name := (s.readBytes 16).1
  let e := s.loadEntry
  ({ e.1 with filename := rtrimA0 ((name ++ stale.drop name.length).take 16) }, e.2)

def rawLoop (stack : Stack) : Nat → Nat → LNXMStream → LNXMStream
  | 0, _, s => s
  | count + 1, i, s =>
    let e := s.rawEntry (stack.filename_buf i)
    rawLoop stack count (i + 1) { e.2 with entries := e.2.entries ++ [e.1] }

/-- The name and the lines of an entry are in the container, up to the end of the last one. -/
def EntryInside (s : LNXMStream) : Prop :=
  let name := s.readBytes 16
  let skipped := name.2.readBytes 1
  let block_count := skipped.2.readLine
  let type := block_count.2.readLine
  let lsu := type.2.readLine
  name.1.length = 16 ∧ skipped.1.length = 1 ∧ cr ∈ skipped.2.containerStream.left ∧ cr ∈ block_count.2.containerStream.left ∧
    cr ∈ type.2.containerStream.left ∧ (type.1 = [0x52] → cr ∈ lsu.2.containerStream.left)

def EntriesInside (stack : Stack) : Nat → Nat → LNXMStream → Prop
  | 0, _, _ => True
  | count + 1, i, s =>
    s.EntryInside ∧ EntriesInside stack count (i + 1) (s.rawEntry (stack.filename_buf i)).2

/-- The search looks at nothing but what has been read, and every entry is in the container. -/
def Safe (stack : Stack) (s : LNXMStream) : Prop :=
  (∀ j ∈ (s.searched stack).2, j < ((s.containerStream.seek 0).readContainer 254).1.length) ∧
    ((s.findLoader stack).headerAt.1 = true →
      EntriesInside stack ((s.findLoader stack).headerAt.2.entry_count.getD 0) 0 (s.findLoader stack).headerAt.2)

end LNXMStream

/- ## Texts -/

/- A line, and what is behind it. -/
def cutLine (text : Str) : Str × Str :=
  let r := Medium.scanUntil cr text 0
  (r.1, text.drop r.2)

/- The place where the header is looked for. -/
def headerStart (text : Str) : Nat :=
  ((List.range ((text.take 254).length - 4)).find? fun i => ((text.take 254).drop i).take 4 == lynx).getD 0x5E

/- The number of entries that a directory says it has, and the text of its entries. -/
def directory (text : Str) : Option (Nat × Str) :=
  let signature := cutLine (text.drop (headerStart text))
  let dir_blocks := cutLine signature.2
  let count := cutLine dir_blocks.2
  if lynx <:+: signature.1 then some (LNXMStream.narrow 16 (atoi count.1), count.2) else none

/-- A text that begins with so many entries. -/
inductive Holds : Nat → Str → Prop
  | zero {text : Str} : Holds 0 text
  | file {count : Nat} {name blocks type lsu rest : Str} {c : UInt8} : name.length = 16 → cr ∉ blocks → cr ∉ type → cr ∉ lsu →
      type ≠ [0x52] → Holds count rest →
      Holds (count + 1) (name ++ c :: (blocks ++ cr :: (type ++ cr :: (lsu ++ cr :: rest))))
  | rel {count : Nat} {name blocks lsu size rest : Str} {c : UInt8} : name.length = 16 → cr ∉ blocks → cr ∉ lsu → cr ∉ size →
      Holds count rest →
      Holds (count + 1) (name ++ c :: (blocks ++ cr :: ([0x52] ++ cr :: (lsu ++ cr :: (size ++ cr :: rest)))))

namespace LNXMStream

variable {stack : Stack} {s : LNXMStream}

/- ### The search -/

theorem search_short {buffer : Nat → UInt8} {n : Nat} (short : n < 4) :
    ∀ turns i, i ≤ n → n < turns + i → ∃ j ∈ (search buffer turns i).2, n ≤ j := by
  intro turns
  induction turns with
  | zero =>
    intro i below more
    omega
  | succ turns ih =>
    intro i below more
    by_cases last : i = n
    · subst last
      refine ⟨i, ?_, Nat.le_refl i⟩
      have here : i ∈ (signatureAt buffer i).2 := by
        unfold signatureAt
        split
        · simp
        · split
          · simp
          · split <;> simp
      simp only [search]
      split
      · exact here
      · exact List.mem_append_left _ here
    · simp only [search]
      split
      · rename_i found
        -- a signature that is found is looked at as a whole
        refine ⟨i + 3, ?_, by omega⟩
        unfold signatureAt at found ⊢
        split at found
        · cases found
        · split at found
          · cases found
          · split at found
            · cases found
            · simp_all
      · obtain ⟨j, member, beyond⟩ := ih (i + 1) (by omega) (by omega)
        exact ⟨j, List.mem_append_right _ member, beyond⟩

theorem signatureAt_looks {buffer : Nat → UInt8} {i j : Nat} (looks : j ∈ (signatureAt buffer i).2) : j ≤ i + 3 := by
  unfold signatureAt at looks
  split at looks
  · simp at looks
    omega
  · split at looks
    · simp at looks
      omega
    · split at looks
      · simp at looks
        omega
      · simp at looks
        omega

theorem search_inside {buffer : Nat → UInt8} {n : Nat} (turns i : Nat) (room : turns + i + 3 ≤ n) :
    ∀ j ∈ (search buffer turns i).2, j < n := by
  induction turns generalizing i with
  | zero => exact fun j none => absurd none List.not_mem_nil
  | succ turns ih =>
    intro j looks
    simp only [search] at looks
    split at looks
    · have near := signatureAt_looks looks
      omega
    · rcases List.mem_append.mp looks with here | later
      · have near := signatureAt_looks here
        omega
      · exact ih (i + 1) (by omega) j later

/- Among bytes that have been read, the signature is where it stands. -/
theorem signatureAt_filled (garbage : Nat → UInt8) {bytes : Str} {i : Nat} (inside : i + 3 < bytes.length) :
    (signatureAt (filled garbage bytes) i).1 = ((bytes.drop i).take 4 == lynx) := by
  obtain ⟨a, b, c, d, rest, join⟩ : ∃ a b c d rest, bytes.drop i = a :: b :: c :: d :: rest := by
    have long : 4 ≤ (bytes.drop i).length := by
      rw [List.length_drop]
      omega
    match bytes.drop i, long with
    | a :: b :: c :: d :: rest, _ => exact ⟨a, b, c, d, rest, rfl⟩
  have at' : ∀ k, k < 4 → filled garbage bytes (i + k) = (bytes.drop i).getD k 0 := by
    intro k small
    rw [filled, if_pos (by omega)]
    simp [List.getD_eq_getElem?_getD]
  have first : filled garbage bytes i = a := (at' 0 (by decide)).trans (by rw [join]; rfl)
  have second : filled garbage bytes (i + 1) = b := (at' 1 (by decide)).trans (by rw [join]; rfl)
  have third : filled garbage bytes (i + 2) = c := (at' 2 (by decide)).trans (by rw [join]; rfl)
  have fourth : filled garbage bytes (i + 3) = d := (at' 3 (by decide)).trans (by rw [join]; rfl)
  have text : (a :: b :: c :: d :: rest).take 4 = [a, b, c, d] := rfl
  rw [join, text]
  unfold signatureAt lynx
  rw [first, second, third, fourth]
  by_cases l : a = 0x4c <;> by_cases y : b = 0x59 <;> by_cases n : c = 0x4e <;> simp [l, y, n]

theorem search_filled (garbage : Nat → UInt8) {bytes : Str} (turns i : Nat) (room : turns + i + 3 ≤ bytes.length) :
    (search (filled garbage bytes) turns i).1 = (List.range' i turns).find? fun i => (bytes.drop i).take 4 == lynx := by
  induction turns generalizing i with
  | zero => rfl
  | succ turns ih =>
    have here := signatureAt_filled garbage (show i + 3 < bytes.length by omega)
    simp only [search, List.range'_succ, List.find?_cons, ← here]
    cases (signatureAt (filled garbage bytes) i).1 with
    | true => rfl
    | false => exact ih (i + 1) (by omega)

/- The number of turns wraps around below four bytes. -/
theorem search_inside_iff {buffer : Nat → UInt8} {n turns : Nat} (bound : turns = searchBound n) (small : n ≤ 254) :
    (∀ j ∈ (search buffer turns 0).2, j < n) ↔ 4 ≤ n := by
  unfold searchBound at bound
  constructor
  · intro inside
    by_contra short
    obtain ⟨j, looks, beyond⟩ := search_short (Nat.not_le.mp short) turns 0 (Nat.zero_le _) (by omega)
    exact absurd (inside j looks) (Nat.not_lt.mpr beyond)
  · intro enough
    exact search_inside turns 0 (by omega)

theorem read_length (s : LNXMStream) : ((s.containerStream.seek 0).readContainer 254).1.length =
    min 254 s.containerStream.bytes.length := by
  simp only [Medium.readContainer, Medium.seek, Medium.left, List.drop_zero, List.length_take]

/-- The search stays in what has been read if and only if there are four bytes. -/
theorem searched_inside_iff (stack : Stack) (s : LNXMStream) :
    (∀ j ∈ (s.searched stack).2, j < ((s.containerStream.seek 0).readContainer 254).1.length) ↔
      4 ≤ s.containerStream.bytes.length := by
  simp only [searched]
  generalize length : ((s.containerStream.seek 0).readContainer 254).1.length = n
  rw [read_length] at length
  generalize bound : searchBound n = turns
  rw [search_inside_iff bound.symm (by omega)]
  omega

theorem searched_eq (enough : 4 ≤ s.containerStream.bytes.length) : (s.searched stack).1 =
    (List.range (((s.containerStream.seek 0).readContainer 254).1.length - 4)).find? fun i =>
      (((s.containerStream.seek 0).readContainer 254).1.drop i).take 4 == lynx := by
  have length := read_length s
  generalize read : ((s.containerStream.seek 0).readContainer 254) = r at length
  have found : ∀ turns, turns = r.1.length - 4 → (search (filled stack.buffer r.1) turns 0).1 =
      (List.range (r.1.length - 4)).find? fun i => (r.1.drop i).take 4 == lynx := by
    rintro turns rfl
    rw [List.range_eq_range']
    exact search_filled stack.buffer _ 0 (by omega)
  have bound : searchBound r.1.length = r.1.length - 4 := by
    unfold searchBound
    omega
  rw [searched, read]
  exact found _ bound

/-- With four bytes, the loader is skipped as they say. -/
theorem findLoader_eq (enough : 4 ≤ s.containerStream.bytes.length) : s.findLoader stack = s.skipBasicLoader := by
  rw [findLoader, searched_eq enough, skipBasicLoader]
  cases (List.range (((s.containerStream.seek 0).readContainer 254).1.length - 4)).find? fun i =>
      (((s.containerStream.seek 0).readContainer 254).1.drop i).take 4 == lynx with
  | none => rfl
  | some i => rfl

/- ### Lines -/

theorem readLine_cut (s : LNXMStream) : s.readLine.1 = (cutLine s.containerStream.left).1 ∧
    s.readLine.2.containerStream.left = (cutLine s.containerStream.left).2 := by
  refine ⟨rfl, ?_⟩
  simp only [readLine, Medium.readUntil, cutLine]
  rw [Medium.left_seek]
  rfl

theorem readLine_ends {s : LNXMStream} (ends : cr ∈ s.containerStream.left) :
    ∃ line rest, s.containerStream.left = line ++ cr :: rest ∧ cr ∉ line ∧ s.readLine.1 = line ∧
      s.readLine.2.containerStream.left = rest := by
  obtain ⟨line, rest, join, plain⟩ := List.eq_append_cons_of_mem ends
  obtain ⟨read, before, -⟩ := Medium.Before.readUntil (m := s.containerStream) join plain
  exact ⟨line, rest, join, plain, read, before⟩

theorem readBytes_left (s : LNXMStream) (n : Nat) : (s.readBytes n).1 = s.containerStream.left.take n ∧
    s.containerStream.left = (s.readBytes n).1 ++ (s.readBytes n).2.containerStream.left := by
  refine ⟨rfl, ?_⟩
  simp only [readBytes, Medium.readContainer]
  rw [Medium.left_seek]
  show _ = s.containerStream.left.take n ++ s.containerStream.left.drop _
  rw [List.length_take]
  by_cases short : n ≤ s.containerStream.left.length
  · rw [Nat.min_eq_left short, List.take_append_drop]
  · rw [Nat.min_eq_right (Nat.le_of_not_le short), List.drop_length, List.append_nil, List.take_of_length_le (Nat.le_of_not_le short)]

/- An entry that is in the container is one of its text. -/
theorem EntryInside.holds {count : Nat} {stale : Str} (inside : s.EntryInside)
    (rest : Holds count (s.rawEntry stale).2.containerStream.left) : Holds (count + 1) s.containerStream.left := by
  unfold EntryInside at inside
  unfold rawEntry loadEntry at rest
  dsimp only at inside rest
  obtain ⟨full, skip, ends1, ends2, ends3, ends4⟩ := inside
  have name := (s.readBytes_left 16).2
  have skipped := ((s.readBytes 16).2.readBytes_left 1).2
  obtain ⟨c, passed⟩ := List.length_eq_one_iff.mp skip
  obtain ⟨blocks, rest1, join1, plain1, -, left1⟩ := readLine_ends ends1
  obtain ⟨type, rest2, join2, plain2, read2, left2⟩ := readLine_ends ends2
  obtain ⟨lsu, rest3, join3, plain3, -, left3⟩ := readLine_ends ends3
  rw [left1] at join2
  rw [left2] at join3
  rw [name, skipped, passed, join1, join2, join3]
  by_cases rel : type = [0x52]
  · obtain ⟨size, rest4, join4, plain4, -, left4⟩ := readLine_ends (ends4 (read2.trans rel))
    rw [left3] at join4
    rw [if_pos (read2.trans rel), left4] at rest
    rw [rel, join4]
    exact .rel full plain1 plain3 plain4 rest
  · rw [if_neg (fun same => rel (read2.symm.trans same)), left3] at rest
    exact .file full plain1 plain2 plain3 rel rest

/- The fields of an entry that is there. -/
theorem entryInside_of_text {name blocks type lsu rest : Str} {c : UInt8} (here : s.containerStream.left =
      name ++ c :: (blocks ++ cr :: (type ++ cr :: (lsu ++ cr :: rest)))) (full : name.length = 16) (plain1 : cr ∉ blocks)
    (plain2 : cr ∉ type) (plain3 : cr ∉ lsu) (stale : Str) :
    ((type = [0x52] → cr ∈ rest) → s.EntryInside) ∧
      (s.rawEntry stale).2.containerStream.left = if type = [0x52] then (cutLine rest).2 else rest := by
  obtain ⟨m1, before1, -, read1⟩ := readBytes_before here full
  obtain ⟨m2, before2, -, read2⟩ := @readBytes_before { s with containerStream := m1 } [c] _ before1 1 rfl
  obtain ⟨m3, before3, -, read3⟩ := @readLine_before { s with containerStream := m2 } _ _ before2 plain1
  obtain ⟨m4, before4, -, read4⟩ := @readLine_before { s with containerStream := m3 } _ _ before3 plain2
  obtain ⟨m5, before5, -, read5⟩ := @readLine_before { s with containerStream := m4 } _ _ before4 plain3
  have left2 : m2.left = blocks ++ cr :: (type ++ cr :: (lsu ++ cr :: rest)) := before2
  have left3 : m3.left = type ++ cr :: (lsu ++ cr :: rest) := before3
  have left4 : m4.left = lsu ++ cr :: rest := before4
  have left5 : m5.left = rest := before5
  constructor
  · intro more
    unfold EntryInside
    dsimp only
    simp only [read1, read2, read3, read4, read5, left2, left3, left4, left5]
    exact ⟨full, rfl, by simp, by simp, by simp, more⟩
  · unfold rawEntry loadEntry
    dsimp only
    simp only [read1, read2, read3, read4, read5]
    by_cases rel : type = [0x52]
    · rw [if_pos rel, if_pos rel, (readLine_cut _).2, left5]
    · rw [if_neg rel, if_neg rel, left5]

theorem cutLine_found {line rest : Str} (plain : cr ∉ line) : cutLine (line ++ cr :: rest) = (line, rest) := by
  unfold cutLine
  dsimp only
  rw [Medium.scanUntil_found plain]
  simp

theorem Holds.inside {count : Nat} (holds : Holds (count + 1) s.containerStream.left) (stale : Str) :
    s.EntryInside ∧ Holds count (s.rawEntry stale).2.containerStream.left := by
  generalize here : s.containerStream.left = text at holds
  cases holds with
  | file full plain1 plain2 plain3 other rest =>
    obtain ⟨inside, left⟩ := entryInside_of_text here full plain1 plain2 plain3 stale
    rw [left, if_neg other]
    exact ⟨inside fun rel => absurd rel other, rest⟩
  | rel full plain1 plain3 plain4 rest =>
    obtain ⟨inside, left⟩ := entryInside_of_text here full plain1 (by decide) plain3 stale
    rw [left, if_pos rfl, cutLine_found plain4]
    exact ⟨inside fun _ => by simp, rest⟩

theorem entriesInside_iff (stack : Stack) (count i : Nat) :
    EntriesInside stack count i s ↔ Holds count s.containerStream.left := by
  induction count generalizing i s with
  | zero => exact ⟨fun _ => .zero, fun _ => trivial⟩
  | succ count ih =>
    rw [EntriesInside, ih]
    exact ⟨fun both => both.1.holds both.2, fun holds => Holds.inside holds _⟩

theorem skipBasicLoader_left (s : LNXMStream) : s.skipBasicLoader.containerStream.left =
    s.containerStream.bytes.drop (headerStart s.containerStream.bytes) := by
  have window : ((s.containerStream.seek 0).readContainer 254).1 = s.containerStream.bytes.take 254 := by
    simp only [Medium.readContainer, Medium.seek, Medium.left, List.drop_zero]
  unfold skipBasicLoader headerStart
  dsimp only
  rw [window]
  cases (List.range ((s.containerStream.bytes.take 254).length - 4)).find? fun i =>
      ((s.containerStream.bytes.take 254).drop i).take 4 == lynx with
  | none => rfl
  | some i => rfl

theorem headerAt_cut (s : LNXMStream) : (s.headerAt.1 = true ↔ lynx <:+: (cutLine s.containerStream.left).1) ∧
    (s.headerAt.1 = true → s.headerAt.2.entry_count =
        some (narrow 16 (atoi (cutLine (cutLine (cutLine s.containerStream.left).2).2).1)) ∧
      s.headerAt.2.containerStream.left = (cutLine (cutLine (cutLine s.containerStream.left).2).2).2) := by
  have signature := s.readLine_cut
  have dir_blocks := s.readLine.2.readLine_cut
  have count := s.readLine.2.readLine.2.readLine_cut
  rw [signature.2] at dir_blocks
  rw [dir_blocks.2] at count
  unfold headerAt
  dsimp only
  rw [signature.1, count.1]
  by_cases signed : lynx <:+: (cutLine s.containerStream.left).1
  · rw [if_neg (not_not_intro signed)]
    exact ⟨⟨fun _ => signed, fun _ => rfl⟩, fun _ => ⟨rfl, count.2⟩⟩
  · rw [if_pos signed]
    exact ⟨⟨fun wrong => (by cases wrong), fun wrong => absurd wrong signed⟩, fun wrong => (by cases wrong)⟩

/- A name that has been read is all there is of it. -/
theorem rawEntry_eq (inside : s.EntryInside) (stale : Str) : s.rawEntry stale = s.loadEntry := by
  have full : (s.readBytes 16).1.length = 16 := inside.1
  have name : ((s.readBytes 16).1 ++ stale.drop (s.readBytes 16).1.length).take 16 = (s.readBytes 16).1 := List.take_left' full
  have same : s.loadEntry.1.filename = rtrimA0 (s.readBytes 16).1 := rfl
  unfold rawEntry
  dsimp only
  rw [name, ← same]

/-- Entries that are in the container are loaded as they stand there. -/
theorem rawLoop_eq {count i : Nat} (inside : EntriesInside stack count i s) : rawLoop stack count i s = loadLoop count s := by
  induction count generalizing i s with
  | zero => rfl
  | succ count ih =>
    obtain ⟨first, rest⟩ := inside
    rw [rawEntry_eq first, entriesInside_iff] at rest
    rw [rawLoop, loadLoop, rawEntry_eq first]
    exact ih ((entriesInside_iff stack count (i + 1)).mpr rest)

/-- The directory of a container is safe to load, whatever the buffers held before, if and only if the container has four
bytes and, where it is a directory, as many entries as it says. -/
theorem safe_iff (stack : Stack) (s : LNXMStream) :
    Safe stack s ↔ 4 ≤ s.containerStream.bytes.length ∧ ∀ d ∈ directory s.containerStream.bytes, Holds d.1 d.2 := by
  rw [Safe, searched_inside_iff]
  apply and_congr_right
  intro enough
  obtain ⟨signed, fields⟩ := s.skipBasicLoader.headerAt_cut
  rw [findLoader_eq enough]
  simp only [entriesInside_iff]
  rw [s.skipBasicLoader_left] at signed fields
  have said : directory s.containerStream.bytes =
      if lynx <:+: (cutLine (s.containerStream.bytes.drop (headerStart s.containerStream.bytes))).1 then
        some (narrow 16 (atoi (cutLine (cutLine (cutLine (s.containerStream.bytes.drop
          (headerStart s.containerStream.bytes))).2).2).1), (cutLine (cutLine (cutLine (s.containerStream.bytes.drop
          (headerStart s.containerStream.bytes))).2).2).2)
      else none := rfl
  rw [said]
  by_cases right : s.skipBasicLoader.headerAt.1 = true
  · obtain ⟨count, left⟩ := fields right
    rw [if_pos (signed.mp right), count, left]
    simp only [right, forall_const, Option.getD_some, Option.mem_some_iff, forall_eq']
  · rw [if_neg (fun wrong => right (signed.mpr wrong))]
    exact ⟨fun _ d none => (by cases none), fun _ wrong => absurd wrong right⟩

/-- In an empty container, the search looks at bytes that nothing has been read into. -/
theorem empty_container_unsafe : ¬ ∀ (stack : Stack) (s : LNXMStream), Safe stack s := by
  intro all
  have safe := (all { buffer := fun _ => 0, filename_buf := fun _ => [] } { containerStream := { bytes := [] } }).1
  rw [searched_inside_iff] at safe
  cases safe

end LNXMStream

end Meatloaf.Archive
