import Meatloaf.Bus.Drive
import Meatloaf.Drive.ImageFile

/-! A drive whose current directory is the root of a disk image. Its streams share the bytes of the image, and each has
its own place there; so what is saved on the image comes back over the bus. -/
namespace Meatloaf.Bus

open Lib Disk
open Drive (ST_OK ST_FILE_NOT_FOUND ST_DRIVE_NOT_READY Spec imageStream)

/- The stream on the image as it is now. -/
def mount (s : D64) (i : Container) : D64 := { s with container := i.seek s.container.pos }

/- What a lookup or a read makes of the image is another place in it. -/
theorem seek_of_looks {s s' : D64} {i : Container} (looks : D64.Looks (mount s i) s') :
    s'.container = i.seek s'.container.pos := by
  have data : s'.container.data = i.data := looks.data
  have size : s'.container.size = i.size := looks.size
  have fault : s'.container.fault = i.fault := looks.fault
  generalize s'.container = k at *
  cases k
  cases data
  cases size
  cases fault
  rfl

section media

/- `path` is the path in the image of a name to be read; `other` is what comes of all the others, and `back` the status
after a name that was not found. -/
variable (f : Format) (path : Spec → Option Str)
  (other : Spec → Container → Nat × Option (Handler (D64 × Bool)) × Container) (back : Option Nat)
  (execute : Str → IecDrive (D64 × Bool) Container → (Option Str × List Nat) × IecDrive (D64 × Bool) Container)
  (version : Str)

/-- The streams of the drive are those of the image, the bit being their mode. -/
def imageMedia : Media (D64 × Bool) Container where
  read n s :=
    let r := (mount s.1.1 s.2).read n
    (r.1, (r.2, s.1.2), r.2.container)
  seek p s :=
    let r := (mount s.1.1 s.2).seek p
    (r.1, (r.2, s.1.2), r.2.container)
  position p s :=
    let r := (mount s.1.1 s.2).seekSet p
    (r.1, (r.2, s.1.2), r.2.container)
  setSize size s := (({ s.1.1 with size := size }, s.1.2), s.2)
  error s := s.1.1.error
  eos s := s.1.1.available == 0
  sectorByteOffset track sector s := imageStream.sectorByteOffset track sector s.1
  block_size s := imageStream.block_size s.1
  out s := s.1.2
  write data s :=
    let r := (mount s.1.1 s.2).write data
    (data.length, (r, s.1.2), r.container)
  -- a stream that is only read has no file to finish
  close s :=
    if s.1.2 = true then
      let r := (mount s.1.1 s.2).close
      ((r, s.1.2), r.container)
    else s
  saving s := s.2
  source spec i :=
    match path spec with
    | none => other spec i
    | some p =>
      match (D64.new f (i.seek 0)).seekPathIn p with
      -- the directory goes round in a circle
      | none => (ST_DRIVE_NOT_READY, none, i)
      | some (true, s) => (ST_OK, some (.file { stream := (s, false) }), s.container)
      | some (false, s) => (ST_FILE_NOT_FOUND, none, s.container)
  missed i := (back, i)
  execute := execute
  version := version

/- What a stream has left of its file. -/
def imageRest (s : (D64 × Bool) × Container) (l : Str) : Prop :=
  (mount s.1.1 s.2).error = 0 ∧ Delivers D64.readOf (0 < ·) (mount s.1.1 s.2) l

variable {f path other back execute version}

theorem imageMedia_reads : Reads (imageMedia f path other back execute version) imageRest where
  streams := {
    takes := by
      intro s left n stands wanted
      obtain ⟨rest, takes, delivers⟩ := stands.2.step wanted
      exact ⟨rest, takes, (Drive.read_looks (mount s.1.1 s.2) n).error.trans stands.1, delivers⟩
    calm := fun {s _ n} stands _ => (Drive.read_looks (mount s.1.1 s.2) n).error.trans stands.1 }
  once first second := first.2.unique second.2 (n := 1) Nat.one_pos
  apart {n s t} := by
    change imageRest (t, ((mount s.1.1 s.2).read n).2.container) = _
    rw [seek_of_looks (Drive.read_looks (mount s.1.1 s.2) n)]
    rfl
  missed := rfl

theorem imageMedia_close {s : (D64 × Bool) × Container} (reads : s.1.2 = false) :
    (imageMedia f path other back execute version).close s = s := if_neg (ne_true_of_eq_false reads)

theorem imageMedia_source {spec : Spec} {i : Container} {p : Str} {found : Bool} {s : D64} (named : path spec = some p)
    (opened : (D64.new f (i.seek 0)).seekPathIn p = some (found, s)) :
    (imageMedia f path other back execute version).source spec i =
      (if found then ST_OK else ST_FILE_NOT_FOUND, if found then some (.file { stream := (s, false) }) else none,
        s.container) := by
  unfold imageMedia
  dsimp only
  rw [named]
  dsimp only
  rw [opened]
  cases found
  · rfl
  · rfl

/-- The content of a name, in an image that is a map from names to contents. -/
def contentIn (m : Str → Option Str) (path : Spec → Option Str) (spec : Spec) : Str :=
  ((path spec).bind fun p => (splitPathComponents p).head?.bind m).getD []

theorem contentIn_filed {m : Str → Option Str} {spec : Spec} {p name : Str} (named : path spec = some p)
    (filed : Filed p name) : contentIn m path spec = (m name).getD [] := by
  unfold contentIn
  rw [named, Option.bind_some, filed.single]
  rfl

/- What a lookup makes of the image. -/
theorem seek_of_opened {i : Container} {p : Str} {found : Bool} {s : D64}
    (opened : (D64.new f (i.seek 0)).seekPathIn p = some (found, s)) : s.container = i.seek s.container.pos :=
  seek_of_looks (s := D64.new f (i.seek 0)) (Drive.seekPathIn_looks opened)

/-- An image that is a map from names to contents is so on the bus. -/
theorem imageMedia_shelf {c : Container} {m : Str → Option Str} (serves : Serves f c m) :
    Shelf (imageMedia f path other back execute version) imageRest
      (fun spec => ∃ p name, path spec = some p ∧ Filed p name) (contentIn m path) (fun i => ∃ k, i = c.seek k) := by
  have opens {p name : Str} (filed : Filed p name) (k : Nat) : ∃ found s,
      (D64.new f ((c.seek k).seek 0)).seekPathIn p = some (found, s) ∧ (found = false → m name = none) ∧
        (found = true → Delivers D64.readOf (0 < ·) s ((m name).getD [])) := by
    have here := serves p name filed
    cases there : m name with
    | none =>
      rw [there] at here
      obtain ⟨s, opened⟩ := here
      exact ⟨false, s, opened, fun _ => rfl, fun wrong => Bool.noConfusion wrong⟩
    | some x =>
      rw [there] at here
      obtain ⟨s, opened, delivers⟩ := here
      exact ⟨true, s, opened, fun wrong => Bool.noConfusion wrong, fun _ => delivers⟩
  exact {
    reads := by
      rintro n ⟨s, i⟩ ⟨k, rfl⟩
      exact ⟨_, seek_of_looks (Drive.read_looks (mount s.1 (c.seek k)) n)⟩
    mode := rfl
    closes := fun reads holds => by
      rw [imageMedia_close reads]
      exact holds
    closed := fun reads _ => by rw [imageMedia_close reads]
    missed := fun holds => holds
    sources := by
      rintro spec i ⟨p, name, named, filed⟩ ⟨k, rfl⟩
      obtain ⟨found, s, opened, -, -⟩ := opens filed k
      rw [imageMedia_source named opened]
      exact ⟨_, seek_of_opened opened⟩
    sourced := by
      rintro spec i t ⟨p, name, named, filed⟩ ⟨k, rfl⟩
      obtain ⟨found, s, opened, -, -⟩ := opens filed k
      rw [imageMedia_source named opened]
      dsimp only
      rw [seek_of_opened opened]
      rfl
    calm := by
      rintro spec i file ⟨p, name, named, filed⟩ opened
      cases result : (D64.new f (i.seek 0)).seekPathIn p with
      | none =>
        have unserved : ((imageMedia f path other back execute version).source spec i).2.1 = none := by
          unfold imageMedia
          dsimp only
          rw [named]
          dsimp only
          rw [result]
        rw [unserved] at opened
        cases opened
      | some r =>
        obtain ⟨found, s⟩ := r
        rw [imageMedia_source named result] at opened
        cases found with
        | false => cases opened
        | true =>
          cases opened
          rfl
    found := by
      rintro spec i ⟨p, name, named, filed⟩ ⟨k, rfl⟩
      obtain ⟨found, s, opened, absent, delivers⟩ := opens filed k
      rw [imageMedia_source named opened, contentIn_filed named filed]
      cases found with
      | false =>
        rw [absent rfl]
        rfl
      | true =>
        exact ⟨⟨_, rfl, (Drive.seekPathIn_looks opened).error, delivers rfl⟩, fun wrong => Bool.noConfusion wrong⟩ }

end media

namespace IECBusHandler

/-- From the blocks of the image to the bus: after any session of saves and scratches on a freshly laid out image of a
writable class, a host that loads names of it gets of each what was saved under it last. -/
theorem saved_files_load (f : Format) (name id : Str) (labelled : D64.Labelled name id) (ops : List Op)
    (files : ∀ op ∈ ops, op.OnFiles) :
    ∃ reports c m, Op.reportAll f ops (D64.format f name id) = some (reports, c) ∧
      Op.Assigns ops reports (fun _ => none) m ∧
      ∀ (path : Spec → Option Str) (other : Spec → Container → Nat × Option (Handler (D64 × Bool)) × Container)
        (back : Option Nat) (execute : Str → IecDrive (D64 × Bool) Container →
          (Option Str × List Nat) × IecDrive (D64 × Bool) Container) (version : Str) (enabled : FastLoader → Bool)
        (m_bufferSize : Nat) (b : IECBusHandler (IecDrive (D64 × Bool) Container)) (ls : List Load),
        Rests b → b.device.state.media = c → (∀ n, b.device.state.channels n = none) → (∀ l ∈ ls, l.Proper) →
        (∀ l ∈ ls, (Drive.parse l.channel l.named).name ≠ [] ∧
          ∃ p name, path (Drive.parse l.channel l.named) = some p ∧ Filed p name) →
        let r := b.run (imageMedia f path other back execute version).device enabled m_bufferSize (ls.flatMap Load.hosts)
        Rests r.2 ∧ r.1 = ls.flatMap fun l => l.replies (contentIn m path (Drive.parse l.channel l.named)) := by
  obtain ⟨reports, c, m, _, _, _, run, assigns, stores, keyed⟩ := (Stores.blank f labelled).run Keyed.empty ops files
  refine ⟨reports, c, m, run, assigns, ?_⟩
  intro path other back execute version enabled m_bufferSize b ls rests media unused proper names
  have loading : b.device.state.Loading (imageMedia f path other back execute version) (fun i => ∃ k, i = c.seek k) :=
    ⟨⟨c.pos, media⟩, fun n file opened => absurd ((unused n).symm.trans opened) (Option.some_ne_none _).symm⟩
  obtain ⟨replies, rests', -, -⟩ := rests.loads_all enabled m_bufferSize (IecDrive.reader imageMedia_reads)
    (IecDrive.library imageMedia_reads (imageMedia_shelf (stores.serves keyed))) loading proper names
  exact ⟨rests', replies⟩

/- A name that is loaded twice, the second time only in part. -/
def oneName : List Load := [
  { channel := 0, name := [.offer 0x41 true], gets := [.accept true, .accept true, .idle, .accept true] },
  { channel := 0, name := [.offer 0x41 true], gets := [.accept true] }]

theorem oneName_proper : ∀ l ∈ oneName, l.Proper := by
  intro l member
  simp only [oneName, List.mem_cons, List.not_mem_nil, or_false] at member
  rcases member with rfl | rfl
  · exact ⟨by decide, by simp [Sends], by simp [Gets]⟩
  · exact ⟨by decide, by simp [Sends], by simp [Gets]⟩

/-- `saved_files_load` applies to a name that is saved on a blank D81. -/
theorem saved_files_load_d81 :
    ∃ reports c m, Op.reportAll .d81 [.save [0x61] [[0x2A], [0x2B]]] (D64.format .d81 [] []) = some (reports, c) ∧
      Op.Assigns [.save [0x61] [[0x2A], [0x2B]]] reports (fun _ => none) m ∧
      ∃ b : IECBusHandler (IecDrive (D64 × Bool) Container), b.device.state.media = c ∧
        (b.run (imageMedia .d81 (fun spec => some (toUTF8 spec.name)) (fun _ i => (ST_FILE_NOT_FOUND, none, i)) none
          (fun _ d => ((none, []), d)) []).device (fun _ => false) 255 (oneName.flatMap Load.hosts)).1 =
          oneName.flatMap fun l => l.replies ((m [0x61]).getD []) := by
  have a : Filed [0x61] [0x61] := Filed.of_ascii (List.forall_mem_singleton.mpr (by decide)) (by decide) (by decide)
    (List.forall_mem_singleton.mpr (by decide)) (by decide)
  obtain ⟨reports, c, m, run, assigns, loads⟩ := saved_files_load .d81 [] [] ⟨by decide, by decide⟩
    [.save [0x61] [[0x2A], [0x2B]]] (fun op member => by
      obtain rfl := List.mem_singleton.mp member
      exact ⟨_, a⟩)
  have named : ∀ l ∈ oneName, (Drive.parse l.channel l.named).name ≠ [] := by decide
  have paths : ∀ l ∈ oneName, toUTF8 (Drive.parse l.channel l.named).name = [0x61] := by decide
  refine ⟨reports, c, m, run, assigns, { device := { state := { media := c } } }, rfl, ?_⟩
  obtain ⟨-, replies⟩ := loads (fun spec => some (toUTF8 spec.name)) (fun _ i => (ST_FILE_NOT_FOUND, none, i)) none
    (fun _ d => ((none, []), d)) [] (fun _ => false) 255 { device := { state := { media := c } } } oneName ⟨rfl, rfl, rfl, rfl⟩
    rfl (fun _ => rfl) oneName_proper (fun l member => ⟨named l member, _, _, congrArg some (paths l member), a⟩)
  rw [replies]
  refine List.flatMap_congr fun l member => ?_
  rw [contentIn_filed (congrArg some (paths l member)) a]

end IECBusHandler

end Meatloaf.Bus
