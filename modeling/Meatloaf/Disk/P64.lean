import Meatloaf.Disk.G64
import Meatloaf.Lib.While

/-! `P64MStream`: an image of flux pulses. Each half track is a chunk of the container, and
`parseChunks` walks the chunks once. -/
namespace Meatloaf.Disk

open Lib

def P64_HEADER_SIZE : Nat := 0x18
def P64_CHUNK_HEADER_SIZE : Nat := 0x0C
def P64_FIRST_HALF_TRACK : UInt8 := 2
def P64_LAST_HALF_TRACK : UInt8 := 85

def le32 (p : List UInt8) : Nat := wordLE (p.take 4)

/- Where the pulses of a half track are. -/
structure HalfTrack where
  offset : Nat
  size : Nat
  pulses : Nat

/- An image, or one with the signature of another drive. What `size()` says of the container need
not be what is in it, and is zero where it is not known. -/
structure P64 where
  container : Container
  small : container.size < 2 ^ 32
  size : Nat
  size_small : size < 2 ^ 32
  imageSignature : List UInt8

/- The members that the walk fills, and those that remember it. -/
structure Chunks where
  half_tracks : List (UInt8 × HalfTrack) := []
  chunks_parsed : Bool := false
  chunks_ok : Bool := false

namespace P64

/- The variables of the loop. -/
structure Walk where
  offset : Nat := P64_HEADER_SIZE
  half_tracks : List (UInt8 × HalfTrack) := []

variable (p : P64)

/- The header: where the chunk stream ends. -/
def chunkStream : Option Nat :=
  match p.container.fetch 0 P64_HEADER_SIZE with
  | none => none
  | some header =>
    if header.take 8 = p.imageSignature ∧ le32 (header.drop 8) = 0 then
      let stop := (P64_HEADER_SIZE + le32 (header.drop 16)) % 2 ^ 32
      some (if 0 < p.size ∧ p.size < stop then p.size else stop)
    else none

/- The header of the chunk at an offset, when the loop does not end with it. -/
def chunk (stop offset : Nat) : Option (List UInt8) :=
  if stop < (offset + P64_CHUNK_HEADER_SIZE) % 2 ^ 32 then none
  else
    match p.container.fetch offset P64_CHUNK_HEADER_SIZE with
    | none => none
    | some chunk =>
      let chunk_size := le32 (chunk.drop 4)
      let data_start := (offset + P64_CHUNK_HEADER_SIZE) % 2 ^ 32
      if chunk.take 4 = [0x44, 0x4F, 0x4E, 0x45] ∧ chunk_size = 0 then none
      else if stop < (data_start + chunk_size) % 2 ^ 32 then none
      else some chunk

/- The half track that a chunk is recorded as. -/
def halfTrack (chunk : List UInt8) (data_start : Nat) : Option (UInt8 × HalfTrack) :=
  let chunk_size := le32 (chunk.drop 4)
  if chunk.take 3 = [0x48, 0x54, 0x50] ∧ 8 ≤ chunk_size then
    let half_track := chunk.getD 3 0 &&& 0x7f
    if P64_FIRST_HALF_TRACK ≤ half_track ∧ half_track ≤ P64_LAST_HALF_TRACK then
      match p.container.fetch data_start 8 with
      | none => none
      | some info =>
        let entry : HalfTrack := ⟨(data_start + 8) % 2 ^ 32, le32 (info.drop 4), le32 info⟩
        if 0 < entry.pulses ∧ 0 < entry.size ∧ entry.size = chunk_size - 8 then some (chunk.getD 3 0, entry) else none
    else none
  else none

/- One pass of the loop. -/
def chunkStep (stop : Nat) (w : Walk) : Option Walk :=
  match p.chunk stop w.offset with
  | none => none
  | some chunk =>
    let data_start := (w.offset + P64_CHUNK_HEADER_SIZE) % 2 ^ 32
    some { offset := (data_start + le32 (chunk.drop 4)) % 2 ^ 32
           half_tracks := (p.halfTrack chunk data_start).toList ++ w.half_tracks }

/-- `parseChunks`, when `fuel` tests of its loop are enough. -/
def parseChunks (fuel : Nat) (c : Chunks) : Option (Bool × Chunks) :=
  if c.chunks_parsed then some (c.chunks_ok, c)
  else
    match p.chunkStream with
    | none => some (false, { chunks_parsed := true })
    | some stop =>
      (loop (p.chunkStep stop) fuel {}).map fun w =>
        (!w.half_tracks.isEmpty, ⟨w.half_tracks, true, !w.half_tracks.isEmpty⟩)

/- The state at the start of a pass of the walk. -/
def visit (n : Nat) : Option Walk := p.chunkStream.bind fun stop => pass (p.chunkStep stop) n {}

/- What is wanted of the walk. -/
structure Walks : Prop where
  ends : ∃ fuel, (p.parseChunks fuel {}).isSome
  rising : ∀ i j v w, i < j → p.visit i = some v → p.visit j = some w → v.offset < w.offset
  inside : ∀ stop n w key entry, p.chunkStream = some stop → p.visit n = some w → (key, entry) ∈ w.half_tracks →
    P64_HEADER_SIZE ≤ entry.offset ∧ entry.offset + entry.size ≤ stop

/- The offsets of the chunks. -/
inductive Reached (stop : Nat) : Nat → Prop
  | first : Reached stop P64_HEADER_SIZE
  | next {offset : Nat} {chunk : List UInt8} (here : Reached stop offset) (read : p.chunk stop offset = some chunk) :
    Reached stop ((offset + P64_CHUNK_HEADER_SIZE + le32 (chunk.drop 4)) % 2 ^ 32)

/- No chunk ends behind the last offset there is; or it is by so little that the sum still grows,
and the chunk is no half track. -/
def Fits : Prop :=
  ∀ stop offset chunk, p.chunkStream = some stop → p.Reached stop offset → p.chunk stop offset = some chunk →
    offset + P64_CHUNK_HEADER_SIZE + le32 (chunk.drop 4) < 2 ^ 32 ∨
      2 ^ 32 - P64_CHUNK_HEADER_SIZE < le32 (chunk.drop 4) ∧
        p.halfTrack chunk (offset + P64_CHUNK_HEADER_SIZE) = none

variable {p} {stop offset data_start : Nat} {header : List UInt8} {key : UInt8} {entry : HalfTrack}

theorem fetch_inside {c : Container} {pos n : Nat} {bytes : List UInt8} (read : c.fetch pos n = some bytes)
    (positive : 0 < n) : pos + n ≤ c.size := by
  have long : bytes.length = n ∧ bytes.length = min n (c.size - pos) := by
    unfold Container.fetch at read
    dsimp only at read
    by_cases full : ((c.seek pos).read n).1.length = n
    · rw [if_pos full, Option.some.injEq] at read
      subst read
      exact ⟨full, Store.length_read ..⟩
    · rw [if_neg full] at read
      cases read
  omega

theorem le32_lt (bytes : List UInt8) : le32 bytes < 2 ^ 32 := by
  have short : ∀ (n : Nat) (bs : List UInt8), bs.length ≤ n → wordLE bs < 256 ^ n := by
    intro n
    induction n with
    | zero =>
      intro bs empty
      rw [List.length_eq_zero_iff.mp (Nat.le_zero.mp empty)]
      exact Nat.one_pos
    | succ n ih =>
      intro bs long
      cases bs with
      | nil => exact Nat.pow_pos (by decide)
      | cons b bs =>
        have rest := ih bs (by simpa using long)
        have low := b.toNat_lt
        rw [wordLE, Nat.pow_succ]
        omega
  exact short 4 _ (List.length_take_le 4 bytes)

theorem chunkStream_lt (opened : p.chunkStream = some stop) : stop < 2 ^ 32 := by
  unfold chunkStream at opened
  split at opened
  · cases opened
  · split at opened
    · cases opened
      have := p.size_small
      have := Nat.mod_lt (P64_HEADER_SIZE + le32 (List.drop 16 ‹List UInt8›)) (Nat.two_pow_pos 32)
      split <;> omega
    · cases opened

/-- A chunk whose header is read lies, with it, before the last offset there is; and where the
next one starts is in the stream. -/
theorem chunk_read (read : p.chunk stop offset = some header) :
    offset + P64_CHUNK_HEADER_SIZE < 2 ^ 32 ∧
      (offset + P64_CHUNK_HEADER_SIZE + le32 (header.drop 4)) % 2 ^ 32 ≤ stop := by
  unfold chunk at read
  split at read
  · cases read
  · split at read
    · cases read
    · rename_i bytes fetched
      have inside := fetch_inside fetched (by decide)
      have small := p.small
      simp only [Option.ite_none_left_eq_some, Option.some.injEq] at read
      obtain ⟨-, ends, rfl⟩ := read
      rw [Nat.mod_eq_of_lt (by omega : offset + P64_CHUNK_HEADER_SIZE < 2 ^ 32), Nat.not_lt] at ends
      exact ⟨by omega, ends⟩

/-- What is recorded of a chunk fills it. -/
theorem halfTrack_recorded (recorded : p.halfTrack header data_start = some (key, entry)) :
    8 ≤ le32 (header.drop 4) ∧ entry.offset = (data_start + 8) % 2 ^ 32 ∧
      entry.size = le32 (header.drop 4) - 8 := by
  unfold halfTrack at recorded
  dsimp only at recorded
  split at recorded
  · rename_i large
    split at recorded
    · split at recorded
      · cases recorded
      · simp only [Option.ite_none_right_eq_some, Option.some.injEq, Prod.mk.injEq] at recorded
        obtain ⟨⟨-, -, size⟩, -, rfl⟩ := recorded
        exact ⟨large.2, rfl, size⟩
    · cases recorded
  · cases recorded

theorem chunkStep_eq (read : p.chunk stop offset = some header) (tracks : List (UInt8 × HalfTrack)) :
    p.chunkStep stop ⟨offset, tracks⟩ = some
      ⟨(offset + P64_CHUNK_HEADER_SIZE + le32 (header.drop 4)) % 2 ^ 32,
        (p.halfTrack header (offset + P64_CHUNK_HEADER_SIZE)).toList ++ tracks⟩ := by
  have start := (chunk_read read).1
  simp only [chunkStep, read, Nat.mod_eq_of_lt start]

/- A pass is made for a chunk. -/
theorem chunkStep_some {v w : Walk} (next : p.chunkStep stop v = some w) :
    ∃ header, p.chunk stop v.offset = some header ∧
      w.offset = (v.offset + P64_CHUNK_HEADER_SIZE + le32 (header.drop 4)) % 2 ^ 32 ∧
      w.half_tracks = (p.halfTrack header (v.offset + P64_CHUNK_HEADER_SIZE)).toList ++ v.half_tracks := by
  cases read : p.chunk stop v.offset with
  | none => simp [chunkStep, read] at next
  | some header =>
    rw [chunkStep_eq read, Option.some.injEq] at next
    subst next
    exact ⟨header, rfl, rfl, rfl⟩

/- What holds at the start of every pass, when the chunks fit. -/
structure Walking (p : P64) (stop : Nat) (w : Walk) : Prop where
  reached : p.Reached stop w.offset
  started : P64_HEADER_SIZE ≤ w.offset
  short : w.offset < 2 ^ 32
  inside : ∀ key entry, (key, entry) ∈ w.half_tracks →
    P64_HEADER_SIZE ≤ entry.offset ∧ entry.offset + entry.size ≤ stop

theorem Walking.start : Walking p stop {} where
  reached := .first
  started := Nat.le_refl _
  short := by decide
  inside := nofun

theorem Walking.step (fits : p.Fits) (opened : p.chunkStream = some stop) {v w : Walk} (walking : Walking p stop v)
    (next : p.chunkStep stop v = some w) : Walking p stop w ∧ v.offset < w.offset := by
  obtain ⟨header, read, offset, tracks⟩ := chunkStep_some next
  have ends := chunk_read read
  have size := le32_lt (header.drop 4)
  have known := fits stop v.offset header opened walking.reached read
  have started := walking.started
  have grows : v.offset < w.offset := by
    rw [offset]
    simp only [P64_CHUNK_HEADER_SIZE] at ends known ⊢
    omega
  refine ⟨⟨?_, by omega, ?_, ?_⟩, grows⟩
  · rw [offset]
    exact .next walking.reached read
  · rw [offset]
    exact Nat.mod_lt _ (by decide)
  · intro key entry member
    rw [tracks, List.mem_append, Option.mem_toList] at member
    rcases member with recorded | older
    · obtain ⟨large, place, fills⟩ := halfTrack_recorded recorded
      simp only [P64_CHUNK_HEADER_SIZE, P64_HEADER_SIZE] at *
      rcases known with known | ⟨-, unrecorded⟩
      · rw [place, fills]
        omega
      · rw [unrecorded] at recorded
        cases recorded
    · exact walking.inside key entry older

theorem visit_eq (opened : p.chunkStream = some stop) (n : Nat) : p.visit n = pass (p.chunkStep stop) n {} := by
  simp only [visit, opened, Option.bind_some]

theorem walks_of_fits (fits : p.Fits) : p.Walks where
  ends := by
    cases opened : p.chunkStream with
    | none => exact ⟨0, by simp [parseChunks, opened]⟩
    | some stop =>
      refine ⟨2 ^ 32 + 1, ?_⟩
      have ends : (loop (p.chunkStep stop) (2 ^ 32 + 1) {}).isSome := by
        apply loop_ends (I := Walking p stop) (fun w => 2 ^ 32 - w.offset) _ Walking.start (by omega)
        intro v w walking next
        obtain ⟨kept, grows⟩ := walking.step fits opened next
        have := kept.short
        exact ⟨kept, by omega⟩
      simpa [parseChunks, opened] using ends
  rising := by
    intro i j v w before first second
    cases opened : p.chunkStream with
    | none => simp [visit, opened] at first
    | some stop =>
      rw [visit_eq opened] at first second
      apply pass_rising (f := Walk.offset) _ before first second
      intro n v reached w next
      have walking : Walking p stop v :=
        pass_keeps (fun v w kept next => (kept.step fits opened next).1) Walking.start reached
      exact (walking.step fits opened next).2
  inside := by
    intro stop n w key entry opened reached member
    rw [visit_eq opened] at reached
    have walking : Walking p stop w :=
      pass_keeps (fun v w kept next => (kept.step fits opened next).1) Walking.start reached
    exact walking.inside key entry member

/- Every chunk of the chain is visited. -/
theorem Reached.visited (opened : p.chunkStream = some stop) (reached : p.Reached stop offset) :
    ∃ n w, p.visit n = some w ∧ w.offset = offset := by
  induction reached with
  | first => exact ⟨0, {}, visit_eq opened 0, rfl⟩
  | @next offset header _ read ih =>
    obtain ⟨n, ⟨offset, tracks⟩, there, rfl⟩ := ih
    refine ⟨n + 1, ⟨_, (p.halfTrack header (offset + P64_CHUNK_HEADER_SIZE)).toList ++ tracks⟩, ?_, rfl⟩
    rw [visit_eq opened] at there ⊢
    rw [pass_succ, there]
    exact chunkStep_eq read tracks

theorem fits_of_walks (walks : p.Walks) : p.Fits := by
  intro stop offset header opened reached read
  obtain ⟨n, ⟨offset, tracks⟩, there, rfl⟩ := reached.visited opened
  have after : p.visit (n + 1) = some
      ⟨(offset + P64_CHUNK_HEADER_SIZE + le32 (header.drop 4)) % 2 ^ 32,
        (p.halfTrack header (offset + P64_CHUNK_HEADER_SIZE)).toList ++ tracks⟩ := by
    rw [visit_eq opened] at there ⊢
    rw [pass_succ, there, Option.bind_some, chunkStep_eq read]
  have grows := walks.rising n (n + 1) _ _ (Nat.lt_succ_self n) there after
  have start := (chunk_read read).1
  have short := chunkStream_lt opened
  have size := le32_lt (header.drop 4)
  by_cases fits : offset + P64_CHUNK_HEADER_SIZE + le32 (header.drop 4) < 2 ^ 32
  · exact .inl fits
  · refine .inr ⟨?_, ?_⟩
    · dsimp only at grows
      simp only [P64_CHUNK_HEADER_SIZE] at *
      omega
    · -- a half track behind the last offset is not in the stream
      cases recorded : p.halfTrack header (offset + P64_CHUNK_HEADER_SIZE) with
      | none => rfl
      | some found =>
        obtain ⟨key, entry⟩ := found
        obtain ⟨large, place, fills⟩ := halfTrack_recorded recorded
        have inside := walks.inside stop (n + 1) _ key entry opened after (by simp [recorded])
        simp only [P64_CHUNK_HEADER_SIZE, P64_HEADER_SIZE] at *
        omega

/-- The walk goes on from chunk to chunk, ends, and records only what is in the stream, exactly
when no chunk runs over the last offset. -/
theorem parseChunks_iff (p : P64) : p.Walks ↔ p.Fits := ⟨fits_of_walks, walks_of_fits⟩

def endlessBytes : List UInt8 :=
  [0x50, 0x36, 0x34, 0x2D, 0x31, 0x35, 0x34, 0x31, 0, 0, 0, 0, 0, 0, 0, 0, 12, 0, 0, 0, 0, 0, 0, 0,
    0x48, 0x54, 0x50, 0x24, 0xF4, 0xFF, 0xFF, 0xFF, 0, 0, 0, 0]

/- The size of its one chunk leads back to the chunk. -/
def endlessImage : P64 where
  container := { data := fun k => endlessBytes.getD k 0, size := 36 }
  small := by decide
  size := 36
  size_small := by decide
  imageSignature := endlessBytes.take 8

theorem endless_image : ¬ endlessImage.Walks ∧ ∀ fuel, endlessImage.parseChunks fuel {} = none := by
  have opened : endlessImage.chunkStream = some 36 := by decide
  have back : ∃ header, endlessImage.chunk 36 P64_HEADER_SIZE = some header ∧
      (P64_HEADER_SIZE + P64_CHUNK_HEADER_SIZE + le32 (header.drop 4)) % 2 ^ 32 = P64_HEADER_SIZE :=
    ⟨endlessBytes.drop 24, by decide, by decide⟩
  obtain ⟨header, read, again⟩ := back
  have turn : ∀ w : Walk, w.offset = P64_HEADER_SIZE →
      ∃ v, endlessImage.chunkStep 36 w = some v ∧ v.offset = P64_HEADER_SIZE := by
    rintro ⟨offset, tracks⟩ rfl
    exact ⟨_, chunkStep_eq read tracks, again⟩
  have endless : ∀ fuel, endlessImage.parseChunks fuel {} = none := by
    intro fuel
    simp [parseChunks, opened, loop_endless turn (s := {}) rfl fuel]
  refine ⟨?_, endless⟩
  intro walks
  obtain ⟨fuel, left⟩ := walks.ends
  simp [endless fuel] at left

end P64

end Meatloaf.Disk
