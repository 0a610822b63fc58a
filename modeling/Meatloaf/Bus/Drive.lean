import Meatloaf.Bus.Loading
import Meatloaf.Drive.Delivery
import Meatloaf.Drive.DirChannel

/-! `iecDrive` as the class of a device on the bus, outside of the virtual drive. A channel reads its stream
ahead once more, and what the channels do to the media they share is there for all of them. -/
namespace Meatloaf.Bus

open Lib
open Drive (BUFFER_SIZE FileChannel MStream DirChannel Spec Status ST_OK ST_FILE_NOT_OPEN ST_FILE_NOT_FOUND
  ST_SYNTAX_BAD_NAME)
open Disk (ST_WRITE_VERIFY)

def ST_FILE_TYPE_MISMATCH : Nat := 64
def ST_DOSVERSION : Nat := 73

/-- `iecChannelHandlerDir`; its buffer is the one that the chunks are put together in. -/
structure Listing where
  dir : DirChannel
  ptr : Nat := 0
  eos : Bool := false
  position : Nat := 0

namespace Listing

def serve (c : Listing) (n : Nat) : Str × Listing :=
  let piece := ((Store.read c.dir.mem 0 c.dir.len).drop c.ptr).take n
  (piece, { c with ptr := c.ptr + piece.length, position := c.position + piece.length })

/-- `iecChannelHandler::read`; a chunk that is empty ends the listing. -/
def read (c : Listing) (n : Nat) : Str × Listing :=
  if c.dir.len ≤ c.ptr then
    if c.eos then ([], c)
    else
      let c := { c with dir := c.dir.refill, ptr := 0 }
      if c.dir.len = 0 then ([], { c with eos := true }) else c.serve n
  else c.serve n

/-- `iecChannelHandler::write`: the status it sets, and the number of bytes taken. A buffer that is full is
not written anywhere. -/
def write (c : Listing) (bytes : Str) : Nat × Nat × Listing :=
  if BUFFER_SIZE < c.dir.len + bytes.length then (ST_FILE_TYPE_MISMATCH, 0, c)
  else (ST_OK, bytes.length, { c with
    dir := { c.dir.lay c.dir.len bytes with len := c.dir.len + bytes.length }
    position := c.position + bytes.length })

end Listing

/-- A channel that is open. -/
inductive Handler (σ : Type) where
  | file (channel : FileChannel σ)
  | dir (channel : Listing)

/-- `iecDrive`: its channels, the media that they share, and its status. -/
structure IecDrive (σ ι : Type) where
  channels : Nat → Option (Handler σ) := fun _ => none
  media : ι
  status : Status := {}

/-- What the drive asks of its media. Of a stream, `σ` is what it keeps for itself; `saving` is its mode, out
alone. `source` is what comes of a name, `missed` what a read does after a name was not found, and `execute`
a command, with the channels whose read buffers it drops. -/
structure Media (σ ι : Type) extends MStream (σ × ι) where
  write : Str → σ × ι → Nat × σ × ι
  close : σ × ι → σ × ι
  saving : σ → Bool
  source : Spec → ι → Nat × Option (Handler σ) × ι
  missed : ι → Option Nat × ι
  execute : Str → IecDrive σ ι → (Option Str × List Nat) × IecDrive σ ι
  version : Str

section channels

variable {σ τ : Type}

/- The channel with another stream in it. -/
def onStream (c : FileChannel σ) (s : τ) : FileChannel τ where
  stream := s
  data := c.data
  ptr := c.ptr
  eos := c.eos
  position := c.position
  block_base := c.block_base
  block_len := c.block_len
  full_size := c.full_size
  has_block := c.has_block

variable {ι : Type} (media : Media σ ι)

/-- `iecChannelHandlerFile::writeBufferData`. -/
def writeBufferData (c : FileChannel (σ × ι)) : Nat × FileChannel (σ × ι) :=
  let r := media.write c.data c.stream
  (if r.1 < c.data.length then ST_WRITE_VERIFY else ST_OK, { c with stream := r.2 })

/-- `iecChannelHandlerFile::write`: the status it sets, and the number of bytes taken. A stream that is open
for reading only has the bytes collected in the buffer that it is read through. -/
def writeFile (c : FileChannel (σ × ι)) (bytes : Str) : Nat × Nat × FileChannel (σ × ι) :=
  if media.out c.stream then
    let r := media.write bytes c.stream
    (ST_OK, r.1, { c with stream := r.2, position := c.position + r.1, ptr := 0, data := [], eos := false })
  else
    let full := BUFFER_SIZE < c.data.length + bytes.length
    let w := if full then writeBufferData media c else (ST_OK, c)
    if w.1 ≠ ST_OK then (w.1, 0, w.2)
    else
      let c := if full then { w.2 with ptr := 0, data := [] } else w.2
      (ST_OK, bytes.length, { c with data := c.data ++ bytes, position := c.position + bytes.length })

/-- The destructor of `iecChannelHandlerFile`: the status it sets, and the media. -/
def closeFile (c : FileChannel (σ × ι)) : Nat × ι :=
  let s := if media.saving c.stream.1 = true ∧ c.data ≠ [] then (writeBufferData media c).2.stream else c.stream
  let s := media.close s
  (if media.saving s.1 = true then media.error s else ST_OK, s.2)

end channels

namespace IecDrive

variable {σ ι : Type} (media : Media σ ι)

def setStatusCode (d : IecDrive σ ι) (code : Nat) : IecDrive σ ι := { d with status := { code := code } }

/- A status that is set clears the status buffer. -/
def noticed (d : IecDrive σ ι) (code : Nat) : Option Str × IecDrive σ ι :=
  if code = ST_OK then (none, d) else (some [], d.setStatusCode code)

def close (channel : Nat) (d : IecDrive σ ι) : Option Str × IecDrive σ ι :=
  match d.channels channel with
  | none => (none, d)
  | some handler =>
    let d := { d with channels := Function.update d.channels channel none }
    match handler with
    | .dir _ => (none, d)
    | .file c =>
      let r := closeFile media (onStream c (c.stream, d.media))
      { d with media := r.2 }.noticed r.1

/-- `open`; a channel that is in use is closed first, unless the name is empty. -/
def open_ (channel : Nat) (cname : Str) (d : IecDrive σ ι) : Bool × Option Str × IecDrive σ ι :=
  let spec := Drive.parse channel cname
  if spec.name = [] then ((d.channels channel).isSome, some [], d.setStatusCode ST_SYNTAX_BAD_NAME)
  else
    let d := (d.close media channel).2
    let r := media.source spec d.media
    (r.2.1.isSome, some [], {
      channels := Function.update d.channels channel r.2.1, media := r.2.2, status := { code := r.1 } })

def write (channel : Nat) (data : Str) (_eoi : Bool) (d : IecDrive σ ι) : Nat × Option Str × IecDrive σ ι :=
  match d.channels channel with
  | none => (0, if d.status.code = ST_OK then (some [], d.setStatusCode ST_FILE_NOT_OPEN) else (none, d))
  | some (.dir c) =>
    let r := c.write data
    (r.2.1, { d with channels := Function.update d.channels channel (some (.dir r.2.2)) }.noticed r.1)
  | some (.file c) =>
    let r := writeFile media (onStream c (c.stream, d.media)) data
    let d := { d with
      channels := Function.update d.channels channel (some (.file (onStream r.2.2 r.2.2.stream.1)))
      media := r.2.2.stream.2 }
    (r.2.1, d.noticed r.1)

/- What a read does after a name was not found. -/
def backs (r : Option Str × IecDrive σ ι) : Option Str × IecDrive σ ι :=
  if r.2.status.code = ST_FILE_NOT_FOUND then
    let m := media.missed r.2.media
    match m.1 with
    | none => (r.1, { r.2 with media := m.2 })
    | some code => (some [], { r.2 with media := m.2 }.setStatusCode code)
  else r

/-- `read`; the EOI flag is left as it is. -/
def read (channel n : Nat) (d : IecDrive σ ι) : (Str × Bool) × Option Str × IecDrive σ ι :=
  match d.channels channel with
  | none => (([], false), if d.status.code = ST_OK then (some [], d.setStatusCode ST_FILE_NOT_OPEN) else (none, d))
  | some (.dir c) =>
    let r := c.read n
    ((r.1, false), backs media (none, { d with channels := Function.update d.channels channel (some (.dir r.2)) }))
  | some (.file c) =>
    let r := (onStream c (c.stream, d.media)).read media.toMStream n
    let d := { d with
      channels := Function.update d.channels channel (some (.file (onStream r.2.2 r.2.2.stream.1)))
      media := r.2.2.stream.2 }
    ((r.2.1, false), backs media (d.noticed r.1))

/- The bytes of a text. -/
def ascii (text : String) : Str := text.toList.map fun c => UInt8.ofNat c.toNat

def message (version : Str) : Nat → Str
  | 0 => ascii " OK"
  | 1 => ascii "FILES SCRATCHED"
  | 2 => ascii "PARTITION SELECTED"
  | 77 => ascii "ILLEGAL PARTITION"
  | 20 | 21 | 22 | 23 | 24 => ascii "READ ERROR"
  | 25 => ascii "WRITE ERROR"
  | 26 => ascii "WRITE PROTECT"
  | 30 => ascii "SYNTAX ERROR"
  | 31 => ascii "INVALID COMMAND"
  | 33 => ascii "INVALID FILENAME"
  | 62 => ascii "FILE NOT FOUND"
  | 61 => ascii "FILE NOT OPEN"
  | 63 => ascii "FILE EXISTS"
  | 66 => ascii "ILLEGAL TRACK OR SECTOR"
  | 73 => version
  | 70 => ascii "NO CHANNEL"
  | 71 => ascii "DIR ERROR"
  | 72 => ascii "DISK FULL"
  | 74 => ascii "DRIVE NOT READY"
  | 64 => ascii "FILE TYPE MISMATCH"
  | 81 => ascii "PERMISSION DENIED"
  | _ => ascii "UNKNOWN ERROR"

/-- `getStatus`. -/
def getStatus (version : Str) (status : Status) : Str :=
  DirChannel.twoDigits status.code ++ ascii "," ++ message version status.code ++ ascii "," ++
    DirChannel.twoDigits status.track ++ ascii "," ++ DirChannel.twoDigits status.sector ++ [0x0D]

/-- `getStatusData`; a status is told once. -/
def getStatusData (bufferSize : Nat) (d : IecDrive σ ι) : (Str × Bool) × IecDrive σ ι :=
  (((getStatus media.version d.status).take (bufferSize - 1), true), { d with status := {} })

/- `close` of every channel. -/
def closeAll : List Nat → IecDrive σ ι → IecDrive σ ι
  | [], d => d
  | channel :: channels, d => closeAll channels (d.close media channel).2

def reset (d : IecDrive σ ι) : IecDrive σ ι := closeAll media (List.range 16) (d.setStatusCode ST_DOSVERSION)

end IecDrive

namespace Media

variable {σ ι : Type} (media : Media σ ι)

theorem serve_le {α : Type} (l : List α) (n p : Nat) : ((l.drop p).take n).length ≤ n := List.length_take_le n _

theorem read_file_le (ops : MStream (σ × ι)) (c : FileChannel (σ × ι)) (n : Nat) : (c.read ops n).2.1.length ≤ n := by
  unfold FileChannel.read
  split
  · split
    · exact Nat.zero_le n
    · dsimp only
      split
      · exact Nat.zero_le n
      · split
        · exact Nat.zero_le n
        · exact serve_le _ n _
  · exact serve_le _ n _

theorem read_listing_le (c : Listing) (n : Nat) : (c.read n).1.length ≤ n := by
  unfold Listing.read
  split
  · split
    · exact Nat.zero_le n
    · dsimp only
      split
      · exact Nat.zero_le n
      · exact serve_le _ n _
  · exact serve_le _ n _

/-- The drive, as the bus has it. -/
def device : Device (IecDrive σ ι) where
  open_ := IecDrive.open_ media
  close := IecDrive.close media
  read := IecDrive.read media
  write := IecDrive.write media
  getStatusData := IecDrive.getStatusData media
  executeData := media.execute
  reset := IecDrive.reset media
  read_le channel n d := by
    unfold IecDrive.read
    split
    · exact Nat.zero_le n
    · exact read_listing_le _ n
    · exact read_file_le media.toMStream _ n

end Media

/- The text that a predicate holds of, if there is one. -/
noncomputable def the (P : Str → Prop) : Option Str :=
  open Classical in if h : ∃ l, P l then some h.choose else none

theorem the_eq_some {P : Str → Prop} (once : ∀ l l', P l → P l' → l = l') {l : Str} : the P = some l ↔ P l := by
  unfold the
  constructor
  · intro found
    split at found
    · next some => exact Option.some.inj found ▸ some.choose_spec
    · cases found
  · intro holds
    have some : ∃ l, P l := ⟨l, holds⟩
    rw [dif_pos some]
    exact congrArg _ (once _ _ some.choose_spec holds)

theorem the_congr {P Q : Str → Prop} (same : ∀ l, P l ↔ Q l) : the P = the Q := by
  rw [funext fun l => propext (same l)]

/-- What a listing has left: what is in the buffer, and the chunks to come. -/
def Listing.Has (c : Listing) (l : Str) : Prop :=
  if c.eos = true then l = [] ∧ c.dir.len ≤ c.ptr
  else ∃ chunks, c.dir.Produces chunks ∧ l = (Store.read c.dir.mem 0 c.dir.len).drop c.ptr ++ chunks.flatten

/-- What a channel has left, `rest` being what a stream has. -/
def IecDrive.Has {σ ι : Type} (rest : σ × ι → Str → Prop) (d : IecDrive σ ι) (c : Nat) (l : Str) : Prop :=
  match d.channels c with
  | none => l = []
  | some (.dir listing) => listing.Has l
  | some (.file f) => FileChannel.Serving rest (onStream f (f.stream, d.media)) l

noncomputable def IecDrive.left {σ ι : Type} (rest : σ × ι → Str → Prop) (d : IecDrive σ ι) (c : Nat) : Option Str :=
  the (d.Has rest c)

/-- Streams that are read apart: what one reads leaves the others what they have. -/
structure Reads {σ ι : Type} (media : Media σ ι) (rest : σ × ι → Str → Prop) : Prop where
  streams : Drive.Streams media.toMStream rest
  once : ∀ {s l l'}, rest s l → rest s l' → l = l'
  apart : ∀ {n s t}, rest (t, (media.read n s).2.2) = rest (t, s.2)
  missed : ∀ {i t}, rest (t, (media.missed i).2) = rest (t, i)

/-- And so does whatever else is done on the media. -/
structure Apart {σ ι : Type} (media : Media σ ι) (rest : σ × ι → Str → Prop) : Prop extends Reads media rest where
  writes : ∀ {data s t}, rest (t, (media.write data s).2.2) = rest (t, s.2)
  closes : ∀ {s t}, rest (t, (media.close s).2) = rest (t, s.2)
  sources : ∀ {spec i t}, rest (t, (media.source spec i).2.2) = rest (t, i)

namespace Listing

variable {c : Listing} {l : Str}

theorem has_once {l' : Str} (first : c.Has l) (second : c.Has l') : l = l' := by
  unfold Has at first second
  split at first
  · next ended =>
    rw [if_pos ended] at second
    exact first.1.trans second.1.symm
  · next more =>
    rw [if_neg more] at second
    obtain ⟨chunks, produces, join⟩ := first
    obtain ⟨chunks', produces', join'⟩ := second
    rw [join, join', produces.unique produces']

/- What is in the buffer goes first. -/
theorem serve_has {chunks : List (List UInt8)} (more : c.eos = false) (produces : c.dir.Produces chunks)
    (unread : c.ptr < c.dir.len) {n : Nat} (wanted : 0 < n) :
    ∃ l', Takes n (c.serve n).1 ((Store.read c.dir.mem 0 c.dir.len).drop c.ptr ++ chunks.flatten) l' ∧
      (c.serve n).2.Has l' := by
  have held : (Store.read c.dir.mem 0 c.dir.len).drop c.ptr ≠ [] :=
    List.ne_nil_of_length_pos (by rw [List.length_drop, Store.length_read]; omega)
  have piece := Takes.take wanted ((Store.read c.dir.mem 0 c.dir.len).drop c.ptr)
  have behind : (Store.read c.dir.mem 0 c.dir.len).drop
      (c.ptr + (((Store.read c.dir.mem 0 c.dir.len).drop c.ptr).take n).length) =
        ((Store.read c.dir.mem 0 c.dir.len).drop c.ptr).drop n := by
    rw [← List.drop_drop, List.length_take]
    by_cases short : n ≤ ((Store.read c.dir.mem 0 c.dir.len).drop c.ptr).length
    · rw [Nat.min_eq_left short]
    · rw [Nat.min_eq_right (by omega), List.drop_length, List.drop_eq_nil_of_le (by omega)]
  refine ⟨((Store.read c.dir.mem 0 c.dir.len).drop c.ptr).drop n ++ chunks.flatten,
    ⟨?_, piece.short, fun _ => piece.some held⟩, ?_⟩
  · rw [← List.append_assoc]
    exact congrArg (· ++ chunks.flatten) piece.join
  · unfold Has serve
    rw [if_neg (ne_true_of_eq_false more)]
    exact ⟨chunks, produces, congrArg (· ++ chunks.flatten) behind.symm⟩

/-- A read takes the next bytes of the listing. -/
theorem read_has (has : c.Has l) {n : Nat} (wanted : 0 < n) : ∃ l', Takes n (c.read n).1 l l' ∧ (c.read n).2.Has l' := by
  unfold Has at has
  by_cases ended : c.eos = true
  · rw [if_pos ended] at has
    obtain ⟨rfl, spent⟩ := has
    have still : c.read n = ([], c) := by
      unfold read
      rw [if_pos spent, if_pos ended]
    rw [still]
    refine ⟨[], ⟨rfl, Nat.zero_le n, fun more => absurd rfl more⟩, ?_⟩
    unfold Has
    rw [if_pos ended]
    exact ⟨rfl, spent⟩
  · rw [if_neg ended] at has
    obtain ⟨chunks, produces, rfl⟩ := has
    by_cases spent : c.dir.len ≤ c.ptr
    · rw [List.drop_eq_nil_of_le (by rw [Store.length_read]; exact spent), List.nil_append]
      unfold read
      rw [if_pos spent, if_neg ended]
      dsimp only
      have chunk : c.dir.chunk = Store.read c.dir.refill.mem 0 c.dir.refill.len := rfl
      cases chunks with
      | nil =>
        have none : c.dir.refill.len = 0 := by
          rw [← Store.length_read c.dir.refill.mem 0 c.dir.refill.len, ← chunk]
          exact congrArg List.length produces
        rw [if_pos none]
        refine ⟨[], ⟨rfl, Nat.zero_le n, fun more => absurd rfl more⟩, ?_⟩
        exact ⟨rfl, Nat.le_of_eq none⟩
      | cons b rest =>
        obtain ⟨some, here, next⟩ := produces
        have length : c.dir.refill.len = b.length := by
          rw [← here, chunk, Store.length_read]
        have positive := List.length_pos_iff.mpr some
        rw [if_neg (by omega)]
        have served := serve_has (c := { c with dir := c.dir.refill, ptr := 0 }) (Bool.eq_false_of_not_eq_true ended)
          next (by dsimp only; omega) wanted
        dsimp only at served
        rwa [List.drop_zero, ← chunk, here] at served
    · have still : c.read n = c.serve n := by
        unfold read
        rw [if_neg spent]
      rw [still]
      exact serve_has (Bool.eq_false_of_not_eq_true ended) produces (Nat.lt_of_not_le spent) wanted

end Listing

namespace IecDrive

variable {σ ι : Type} {media : Media σ ι} {rest : σ × ι → Str → Prop} {d : IecDrive σ ι} {c : Nat} {l : Str}

theorem has_once (reads : Reads media rest) (l l' : Str) (first : d.Has rest c l) (second : d.Has rest c l') : l = l' := by
  unfold Has at first second
  cases opened : d.channels c with
  | none =>
    rw [opened] at first second
    exact first.trans second.symm
  | some handler =>
    rw [opened] at first second
    cases handler with
    | dir listing => exact Listing.has_once first second
    | file f =>
      obtain ⟨⟨behind, join, stands⟩, -⟩ := first
      obtain ⟨⟨behind', join', stands'⟩, -⟩ := second
      rw [join, join', reads.once stands stands']

theorem left_iff (reads : Reads media rest) : d.left rest c = some l ↔ d.Has rest c l := the_eq_some (has_once reads)

/- A channel that nothing is done with has the same left, if the media leave its stream alone. -/
theorem left_same {d' : IecDrive σ ι} (channel : d'.channels c = d.channels c)
    (media : ∀ t, rest (t, d'.media) = rest (t, d.media)) : d'.left rest c = d.left rest c := by
  refine the_congr fun l => ?_
  unfold Has
  rw [channel]
  split
  · exact Iff.rfl
  · exact Iff.rfl
  · next f _ =>
    have same := media f.stream
    constructor
    · rintro ⟨⟨behind, join, stands⟩, ended⟩
      refine ⟨⟨behind, join, ?_⟩, ended⟩
      change rest (f.stream, d'.media) behind at stands
      rwa [same] at stands
    · rintro ⟨⟨behind, join, stands⟩, ended⟩
      refine ⟨⟨behind, join, ?_⟩, ended⟩
      change rest (f.stream, d.media) behind at stands
      rwa [← same] at stands

@[simp] theorem noticed_channels (d : IecDrive σ ι) (code : Nat) : (d.noticed code).2.channels = d.channels := by
  unfold noticed
  split <;> rfl

@[simp] theorem noticed_media (d : IecDrive σ ι) (code : Nat) : (d.noticed code).2.media = d.media := by
  unfold noticed
  split <;> rfl

@[simp] theorem backs_channels (r : Option Str × IecDrive σ ι) : (backs media r).2.channels = r.2.channels := by
  unfold backs
  split
  · dsimp only
    split <;> rfl
  · rfl

theorem backs_media (reads : Reads media rest) (r : Option Str × IecDrive σ ι) (t : σ) :
    rest (t, (backs media r).2.media) = rest (t, r.2.media) := by
  unfold backs
  split
  · dsimp only
    split <;> exact reads.missed
  · rfl

end IecDrive

section apart

variable {σ ι : Type} {media : Media σ ι} {rest : σ × ι → Str → Prop}

/- What every read of a stream keeps, a read of its channel keeps. -/

theorem fill_keeps {τ : Type} {ops : MStream τ} {P : τ → Prop} (closed : ∀ n s, P s → P (ops.read n s).2) (turns : Nat)
    (data : Str) {s : τ} (holds : P s) : P (FileChannel.fill ops turns data s).2.2 := by
  induction turns generalizing data s with
  | zero => exact holds
  | succ turns ih =>
    rw [FileChannel.fill]
    have next := closed (BUFFER_SIZE - data.length) s holds
    generalize ops.read (BUFFER_SIZE - data.length) s = r at next
    split
    · exact next
    · split
      · exact next
      · split
        · exact ih _ next
        · exact next

theorem read_keeps {τ : Type} {ops : MStream τ} {P : τ → Prop} (closed : ∀ n s, P s → P (ops.read n s).2)
    (c : FileChannel τ) (n : Nat) (holds : P c.stream) : P (c.read ops n).2.2.stream := by
  unfold FileChannel.read
  have filled := fill_keeps closed (BUFFER_SIZE + 1) [] holds
  split
  · split
    · exact holds
    · dsimp only
      split
      · exact filled
      · split
        · exact filled
        · exact filled
  · exact holds

theorem read_apart (reads : Reads media rest) (c : FileChannel (σ × ι)) (n : Nat) (t : σ) :
    rest (t, (c.read media.toMStream n).2.2.stream.2) = rest (t, c.stream.2) :=
  read_keeps (P := fun s => rest (t, s.2) = rest (t, c.stream.2)) (fun _ _ same => reads.apart.trans same) c n rfl

theorem writeFile_apart (apart : Apart media rest) (c : FileChannel (σ × ι)) (bytes : Str) (t : σ) :
    rest (t, (writeFile media c bytes).2.2.stream.2) = rest (t, c.stream.2) := by
  unfold writeFile
  split
  · exact apart.writes
  · dsimp only
    have same : rest (t, (if BUFFER_SIZE < c.data.length + bytes.length then writeBufferData media c
        else (ST_OK, c)).2.stream.2) = rest (t, c.stream.2) := by
      split
      · exact apart.writes
      · rfl
    generalize (if BUFFER_SIZE < c.data.length + bytes.length then writeBufferData media c else (ST_OK, c)) = w at same
    split
    · exact same
    · dsimp only
      split
      · exact same
      · exact same

theorem closeFile_apart (apart : Apart media rest) (c : FileChannel (σ × ι)) (t : σ) :
    rest (t, (closeFile media c).2) = rest (t, c.stream.2) := by
  unfold closeFile
  dsimp only
  split
  · exact apart.closes.trans apart.writes
  · exact apart.closes

end apart

namespace IecDrive

variable {σ ι : Type} {media : Media σ ι} {rest : σ × ι → Str → Prop} {c c' : Nat}

/-- The channels of the drive are read like streams, one level up. -/
theorem reader (reads : Reads media rest) : Reader media.device (left rest) where
  read {c n d l} _ wanted stands := by
    have has := (left_iff reads).mp stands
    unfold Has at has
    change ∃ l', Takes n (read media c n d).1.1 l l' ∧ left rest (read media c n d).2.2 c = some l' ∧
      ((read media c n d).1.2 = true → l' = [])
    unfold read
    cases opened : d.channels c with
    | none =>
      rw [opened] at has
      subst has
      refine ⟨[], ⟨rfl, Nat.zero_le n, fun more => absurd rfl more⟩, ?_, fun _ => rfl⟩
      have still : (if d.status.code = ST_OK then ((some [] : Option Str), d.setStatusCode ST_FILE_NOT_OPEN)
          else (none, d)).2.channels c = none := by
        split <;> exact opened
      rw [left_iff reads]
      unfold Has
      dsimp only
      rw [still]
    | some handler =>
      rw [opened] at has
      cases handler with
      | dir listing =>
        obtain ⟨l', takes, stands'⟩ := Listing.read_has has wanted
        refine ⟨l', takes, ?_, fun flag => Bool.noConfusion flag⟩
        rw [left_iff reads]
        unfold Has
        dsimp only
        rw [backs_channels]
        dsimp only
        rw [Function.update_self]
        exact stands'
      | file f =>
        obtain ⟨l', takes, serving⟩ := has.get reads.streams wanted
        refine ⟨l', takes, ?_, fun flag => Bool.noConfusion flag⟩
        rw [left_iff reads]
        unfold Has
        dsimp only
        rw [backs_channels, noticed_channels]
        dsimp only
        rw [Function.update_self]
        obtain ⟨⟨behind, join, there⟩, ended⟩ := serving
        refine ⟨⟨behind, join, ?_⟩, ended⟩
        dsimp only [onStream]
        rw [backs_media reads, noticed_media]
        exact there
  read_others {c c' n d} other := by
    change left rest (read media c n d).2.2 c' = left rest d c'
    unfold read
    split
    · split
      · exact left_same rfl fun _ => rfl
      · rfl
    · refine left_same ?_ fun t => (backs_media reads _ t)
      rw [backs_channels]
      exact Function.update_of_ne other _ _
    · refine left_same ?_ fun t => (backs_media reads _ t).trans ?_
      · rw [backs_channels, noticed_channels]
        exact Function.update_of_ne other _ _
      · rw [noticed_media]
        exact read_apart reads _ n t
  status := left_same rfl fun _ => rfl

/- Only the channel that is closed is gone, -/
theorem close_channels (media : Media σ ι) (channel : Nat) (d : IecDrive σ ι) :
    (d.close media channel).2.channels = Function.update d.channels channel none := by
  unfold close
  cases opened : d.channels channel with
  | none => exact (Function.update_eq_self_iff.mpr opened.symm).symm
  | some handler =>
    cases handler with
    | dir _ => rfl
    | file f => exact noticed_channels _ _

/- and the media are as they were, or as its file leaves them. -/
theorem close_media {P : ι → Prop} (channel : Nat) {d : IecDrive σ ι} (same : P d.media)
    (closed : ∀ f, d.channels channel = some (.file f) → P (closeFile media (onStream f (f.stream, d.media))).2) :
    P (d.close media channel).2.media := by
  unfold close
  cases opened : d.channels channel with
  | none => exact same
  | some handler =>
    cases handler with
    | dir _ => exact same
    | file f =>
      dsimp only
      rw [noticed_media]
      exact closed f opened

theorem close_same (apart : Apart media rest) (channel : Nat) (d : IecDrive σ ι) (t : σ) :
    rest (t, (d.close media channel).2.media) = rest (t, d.media) :=
  close_media (P := fun i => rest (t, i) = rest (t, d.media)) channel rfl fun f _ =>
    closeFile_apart apart (onStream f (f.stream, d.media)) t

/-- Where the media keep their streams apart, the drive keeps its channels apart, whatever is done on one. -/
theorem source (apart : Apart media rest) : Source media.device (left rest) where
  toReader := reader apart.toReads
  write_others {c c' data eoi d} other := by
    change left rest (write media c data eoi d).2.2 c' = left rest d c'
    unfold write
    split
    · dsimp only
      split
      · exact left_same rfl fun _ => rfl
      · rfl
    · refine left_same ?_ fun t => ?_
      · rw [noticed_channels]
        exact Function.update_of_ne other _ _
      · rw [noticed_media]
    · refine left_same ?_ fun t => ?_
      · rw [noticed_channels]
        exact Function.update_of_ne other _ _
      · rw [noticed_media]
        exact writeFile_apart apart _ _ t
  open_others {c c' name d} other := by
    change left rest (open_ media c name d).2.2 c' = left rest d c'
    unfold open_
    dsimp only
    split
    · exact left_same rfl fun _ => rfl
    · refine left_same ?_ fun t => apart.sources.trans (close_same apart c d t)
      dsimp only
      rw [close_channels, Function.update_of_ne other, Function.update_of_ne other]
  open_failed {c name d} failed := by
    change (open_ media c name d).1 = false at failed
    change left rest (open_ media c name d).2.2 c = some []
    rw [left_iff apart.toReads]
    unfold open_ at failed ⊢
    unfold Has
    dsimp only at failed ⊢
    split at failed
    · next empty =>
      rw [if_pos empty]
      dsimp only [setStatusCode]
      rw [Option.isSome_eq_false_iff, Option.isNone_iff_eq_none] at failed
      rw [failed]
    · next named =>
      rw [if_neg named]
      dsimp only at failed ⊢
      rw [Option.isSome_eq_false_iff, Option.isNone_iff_eq_none] at failed
      rw [Function.update_self, failed]
  close_others {c c' d} other := by
    refine left_same ?_ (close_same apart c d)
    exact (congrFun (close_channels media c d) c').trans (Function.update_of_ne other _ _)

end IecDrive

/-- Media on which names stand for the same bytes, or for none, while they are only read: `kept` is what they keep
the while. -/
structure Shelf {σ ι : Type} (media : Media σ ι) (rest : σ × ι → Str → Prop) (known : Spec → Prop) (content : Spec → Str)
    (kept : ι → Prop) : Prop where
  reads : ∀ {n s}, kept s.2 → kept (media.read n s).2.2
  mode : ∀ {n s}, media.saving (media.read n s).2.1 = media.saving s.1
  closes : ∀ {s}, media.saving s.1 = false → kept s.2 → kept (media.close s).2
  closed : ∀ {s t}, media.saving s.1 = false → kept s.2 → rest (t, (media.close s).2) = rest (t, s.2)
  missed : ∀ {i}, kept i → kept (media.missed i).2
  sources : ∀ {spec i}, known spec → kept i → kept (media.source spec i).2.2
  sourced : ∀ {spec i t}, known spec → kept i → rest (t, (media.source spec i).2.2) = rest (t, i)
  calm : ∀ {spec i f}, known spec → (media.source spec i).2.1 = some (.file f) → media.saving f.stream = false
  found : ∀ {spec i}, known spec → kept i →
    ({ channels := fun _ => (media.source spec i).2.1, media := (media.source spec i).2.2 } : IecDrive σ ι).Has rest 0
      (content spec)

/-- The drive has no file open for saving. -/
structure IecDrive.Loading {σ ι : Type} (media : Media σ ι) (kept : ι → Prop) (d : IecDrive σ ι) : Prop where
  kept : kept d.media
  calm : ∀ c f, d.channels c = some (.file f) → media.saving f.stream = false

namespace IecDrive

variable {σ ι : Type} {media : Media σ ι} {rest : σ × ι → Str → Prop} {known : Spec → Prop} {content : Spec → Str}
  {kept : ι → Prop} {d : IecDrive σ ι}

theorem update_calm {channels : Nat → Option (Handler σ)}
    (calm : ∀ c f, channels c = some (.file f) → media.saving f.stream = false) (channel : Nat) {h : Option (Handler σ)}
    (here : ∀ f, h = some (.file f) → media.saving f.stream = false) (c : Nat) (f : FileChannel σ)
    (opened : Function.update channels channel h c = some (.file f)) : media.saving f.stream = false := by
  by_cases same : c = channel
  · rw [same, Function.update_self] at opened
    exact here f opened
  · rw [Function.update_of_ne same] at opened
    exact calm c f opened

theorem closeFile_calm {f : FileChannel σ} (calm : media.saving f.stream = false) (i : ι) :
    (closeFile media (onStream f (f.stream, i))).2 = (media.close (f.stream, i)).2 := by
  have clean : ¬ (media.saving (onStream f (f.stream, i)).stream.1 = true ∧ (onStream f (f.stream, i)).data ≠ []) :=
    fun dirty => ne_true_of_eq_false calm dirty.1
  unfold closeFile
  dsimp only
  rw [if_neg clean]
  rfl

theorem Loading.close (shelf : Shelf media rest known content kept) (loading : d.Loading media kept) (channel : Nat) :
    (d.close media channel).2.Loading media kept where
  kept := close_media channel loading.kept fun f opened => by
    rw [closeFile_calm (loading.calm channel f opened)]
    exact shelf.closes (loading.calm channel f opened) loading.kept
  calm := by
    rw [close_channels]
    exact update_calm loading.calm channel fun f wrong => by cases wrong

theorem Loading.close_same (shelf : Shelf media rest known content kept) (loading : d.Loading media kept) (channel : Nat)
    (t : σ) : rest (t, (d.close media channel).2.media) = rest (t, d.media) :=
  close_media (P := fun i => rest (t, i) = rest (t, d.media)) channel rfl fun f opened => by
    rw [closeFile_calm (loading.calm channel f opened)]
    exact shelf.closed (loading.calm channel f opened) loading.kept

theorem backs_kept (shelf : Shelf media rest known content kept) (r : Option Str × IecDrive σ ι) (holds : kept r.2.media) :
    kept (backs media r).2.media := by
  unfold backs
  split
  · dsimp only
    split <;> exact shelf.missed holds
  · exact holds

theorem Loading.read (shelf : Shelf media rest known content kept) (loading : d.Loading media kept) (channel n : Nat) :
    (d.read media channel n).2.2.Loading media kept := by
  unfold IecDrive.read
  split
  · split
    · exact ⟨loading.kept, loading.calm⟩
    · exact loading
  · refine ⟨backs_kept shelf _ loading.kept, ?_⟩
    rw [backs_channels]
    exact update_calm loading.calm channel fun f wrong => by cases wrong
  · next f opened =>
    have reads := loading.calm channel f opened
    obtain ⟨keeps, calm⟩ := read_keeps (P := fun s => kept s.2 ∧ media.saving s.1 = false)
      (fun _ _ holds => ⟨shelf.reads holds.1, shelf.mode.trans holds.2⟩) (onStream f (f.stream, d.media)) n
      ⟨loading.kept, reads⟩
    refine ⟨backs_kept shelf _ ?_, ?_⟩
    · rw [noticed_media]
      exact keeps
    · rw [backs_channels, noticed_channels]
      refine update_calm loading.calm channel fun f' same => ?_
      obtain rfl := Handler.file.inj (Option.some.inj same)
      exact calm

/-- The drive serves what its media have. -/
theorem library (reads : Reads media rest) (shelf : Shelf media rest known content kept) :
    Library media.device (left rest) (fun c name => (Drive.parse c name).name ≠ [] ∧ known (Drive.parse c name))
      (fun c name => content (Drive.parse c name)) (Loading media kept) where
  opens {c name d} here loading := by
    change (open_ media c name d).2.2.Loading media kept
    have closed := loading.close shelf c
    unfold open_
    dsimp only
    rw [if_neg here.1]
    exact ⟨shelf.sources here.2 closed.kept, update_calm closed.calm c fun f => shelf.calm here.2⟩
  reads loading := loading.read shelf _ _
  closes loading := loading.close shelf _
  opened {c name d} here loading := by
    have found := shelf.found here.2 (loading.close shelf c).kept
    change left rest (open_ media c name d).2.2 c = _
    rw [left_iff reads]
    unfold open_
    rw [if_neg here.1]
    unfold Has at found ⊢
    dsimp only at found ⊢
    rw [Function.update_self]
    exact found
  refused {c name d} here loading failed := by
    have found := shelf.found here.2 (loading.close shelf c).kept
    change (open_ media c name d).1 = false at failed
    unfold open_ at failed
    rw [if_neg here.1] at failed
    dsimp only at failed
    rw [Option.isSome_eq_false_iff, Option.isNone_iff_eq_none] at failed
    unfold Has at found
    dsimp only at found
    rw [failed] at found
    exact found
  open_others {c c' name d} other here loading := by
    change left rest (open_ media c name d).2.2 c' = left rest d c'
    unfold open_
    dsimp only
    rw [if_neg here.1]
    refine left_same ?_ fun t => (shelf.sourced here.2 (loading.close shelf c).kept).trans (loading.close_same shelf c t)
    dsimp only
    rw [close_channels, Function.update_of_ne other, Function.update_of_ne other]
  close_others {c c' d} other loading := by
    refine left_same ?_ (loading.close_same shelf c)
    exact (congrFun (close_channels media c d) c').trans (Function.update_of_ne other _ _)

end IecDrive

namespace IECBusHandler

/-- A host that loads files of a drive gets of each what its name stands for, the last byte with EOI, and the other
channels are as before. -/
theorem loads_served {σ ι : Type} {media : Media σ ι} {rest : σ × ι → Str → Prop} {known : Spec → Prop}
    {content : Spec → Str} {kept : ι → Prop} {enabled : FastLoader → Bool} {m_bufferSize : Nat}
    {b : IECBusHandler (IecDrive σ ι)} (reads : Reads media rest) (shelf : Shelf media rest known content kept)
    (rests : Rests b) (loading : b.device.state.Loading media kept) {ls : List Load} (proper : ∀ l ∈ ls, l.Proper)
    (names : ∀ l ∈ ls, (Drive.parse l.channel l.named).name ≠ [] ∧ known (Drive.parse l.channel l.named)) :
    let r := b.run media.device enabled m_bufferSize (ls.flatMap Load.hosts)
    r.1 = ls.flatMap (fun l => l.replies (content (Drive.parse l.channel l.named))) ∧ Rests r.2 ∧
      r.2.device.state.Loading media kept ∧
      ∀ c, (∀ l ∈ ls, l.channel ≠ c) → IECFileDevice.Aside (IecDrive.left rest) c b.device r.2.device :=
  rests.loads_all enabled m_bufferSize (IecDrive.reader reads) (IecDrive.library reads shelf) loading proper names

end IECBusHandler

/- Media of texts: what a name stands for is the name. -/
def texts : Media Str Unit where
  read n s := (s.1.take n, s.1.drop n, ())
  seek _ s := (false, s)
  position _ s := (false, s)
  setSize _ s := s
  error _ := 0
  eos s := s.1.isEmpty
  sectorByteOffset _ _ _ := none
  block_size _ := 256
  out _ := false
  write _ s := (0, s)
  close s := s
  saving _ := false
  source spec _ := (ST_OK, some (.file { stream := spec.name }), ())
  missed i := (none, i)
  execute _ d := ((none, []), d)
  version := []

theorem texts_apart : Apart texts fun s l => s.1 = l where
  streams := {
    takes := by
      rintro s left n rfl wanted
      exact ⟨s.1.drop n, Takes.take wanted s.1, rfl⟩
    calm := fun _ _ => rfl }
  once first second := first.symm.trans second
  apart := rfl
  missed := rfl
  writes := rfl
  closes := rfl
  sources := rfl

theorem texts_shelf : Shelf texts (fun s l => s.1 = l) (fun _ => True) Spec.name fun _ => True where
  reads _ := trivial
  mode := rfl
  closes _ _ := trivial
  closed _ _ := rfl
  missed _ := trivial
  sources _ _ := trivial
  sourced _ _ := rfl
  calm _ _ := rfl
  found {spec _} _ _ := ⟨⟨spec.name, rfl, rfl⟩, fun wrong => Bool.noConfusion wrong⟩

/- A drive with the text "abc" open on channel 2. -/
def reading : IECBusHandler (IecDrive Str Unit) where
  device := { state := { media := (), channels := fun c => if c = 2 then some (.file { stream := [0x61, 0x62, 0x63] }) else none } }

/- Two names, the second one read only in part. -/
def twoNames : List Load := [
  { channel := 0
    name := [.offer 0x41 false, .idle, .offer 0x42 true]
    gets := [.accept true, .idle, .accept true, .accept true] },
  { channel := 0
    name := [.offer 0x43 false, .offer 0x44 true]
    gets := [.accept true] }]

theorem twoNames_proper : ∀ l ∈ twoNames, l.Proper := by
  intro l member
  simp only [twoNames, List.mem_cons, List.not_mem_nil, or_false] at member
  rcases member with rfl | rfl
  · exact ⟨by decide, by simp [Sends], by simp [IECBusHandler.Gets]⟩
  · exact ⟨by decide, by simp [Sends], by simp [IECBusHandler.Gets]⟩

namespace IECBusHandler

theorem reading_rests : Rests reading := ⟨rfl, rfl, rfl, rfl⟩

/-- `printed_handed` applies to two bytes that are printed on the channel. -/
theorem printed_handed_texts :
    let r := reading.run texts.device (fun _ => false) 255
      (.listen (DATA 2) :: ([.offer 0x78 false, .offer 0x79 true] ++ [.unlisten]))
    let b₁ := (reading.pass texts.device (fun _ => false) 255 (.listen (DATA 2))).2
    let accepted := b₁.acknowledged texts.device (fun _ => false) 255 [.offer 0x78 false, .offer 0x79 true]
    Rests r.2 ∧ r.2.device.readBuffer = reading.device.readBuffer ∧
      ∃ ps lost, Pieces ps ∧ accepted = (hand texts.device 2 ps reading.device.state).1 ++ lost ∧ lost.length ≤ 254 ∧
        r.2.device.state = (hand texts.device 2 ps reading.device.state).2 ∧
        ∀ ready : IecDrive Str Unit → Prop, Greedy texts.device 2 ready → ready reading.device.state →
          accepted = offered [.offer 0x78 false, .offer 0x79 true] ∧
            (lost ≠ [] → reading.device.ar6detect = 2 ∧ lost = [0, 1]) := by
  refine printed_handed reading_rests (by decide) (fun none => by cases none) fun h member => ?_
  rcases List.mem_cons.mp member with rfl | member
  · exact .inr ⟨_, _, rfl⟩
  · obtain rfl := List.mem_singleton.mp member
    exact .inr ⟨_, _, rfl⟩

/-- `loads_served` applies to two names that are loaded on channel 0, with the text still open on channel 2. -/
theorem loads_served_texts :
    let r := reading.run texts.device (fun _ => false) 255 (twoNames.flatMap Load.hosts)
    r.1 = [.taken, .taken, .byte 0 0x41 false, .byte 0 0x42 true, .empty 0, .taken, .taken, .byte 0 0x43 false] ∧
      IECFileDevice.Aside (IecDrive.left fun s l => s.1 = l) 2 reading.device r.2.device := by
  have names : ∀ l ∈ twoNames, (Drive.parse l.channel l.named).name ≠ [] ∧ True := by decide
  obtain ⟨replies, -, -, aside⟩ := @loads_served _ _ texts _ _ Spec.name _ (fun _ => false) 255 reading texts_apart.toReads
    texts_shelf reading_rests ⟨trivial, fun _ _ _ => rfl⟩ twoNames twoNames_proper names
  exact ⟨replies.trans (by decide), aside 2 (by decide)⟩

end IECBusHandler

end Meatloaf.Bus
