import Mathlib.Algebra.GroupWithZero.Nat
import Mathlib.Data.List.Infix
import Mathlib.Tactic.SplitIfs
import Meatloaf.Text.Names

/-! The blocks of a stream whose url is a directory: its files are the tracks, in the order of their urls, and the
sectors of a track are the blocks of the file. -/
namespace Meatloaf

/-- What `getNextFileInDir` returns. -/
structure DirEntry where
  url : Str
  size : UInt32
  isDirectory : Bool

/-- `MStreamTrackEntry`. -/
structure TrackEntry where
  url : Str
  size : UInt32

/-- The members of an `MStream` that address blocks, with the file that is open and the last position that was asked
of `seek`. -/
structure TrackStream where
  url : Str
  trackDirUrl : Str := []
  openTrack : UInt16 := 0
  file : Option Str := none
  sought : Option UInt32 := none

/-- The file system, and the stream that is derived: which files `open` can open, and which positions `seek`
accepts. -/
structure FileSystem where
  directory : Str → List DirEntry
  openable : Str → Bool
  seekable : Str → UInt32 → Bool

namespace TrackStream

/-- `mstream_track_entries`. -/
def trackEntries (listed : List DirEntry) : List TrackEntry :=
  ((listed.filter fun e => !e.isDirectory).map fun e => ⟨e.url, e.size⟩).mergeSort fun a b => a.url ≤ b.url

section Calls

variable (fs : FileSystem) (block_size : UInt32)

/- The entries of the directory. -/
def entries (s : TrackStream) : List TrackEntry :=
  trackEntries (fs.directory (if s.trackDirUrl = [] then s.url else s.trackDirUrl))

def getTrackCount (s : TrackStream) : UInt16 := (s.entries fs).length.toUInt16

/- The blocks of a file, as the code counts them. -/
def countBlocks (e : TrackEntry) : UInt16 := ((e.size + block_size - 1) / block_size).toUInt16

def getSectorCount (track : UInt16) (s : TrackStream) : UInt16 :=
  if track < 1 then 0
  else match (s.entries fs)[track.toNat - 1]? with
    | some e => countBlocks block_size e
    | none => 0

/- The directory is kept before the url is that of a file. -/
def keepDirectory (s : TrackStream) : TrackStream :=
  { s with trackDirUrl := if s.trackDirUrl = [] then s.url else s.trackDirUrl }

/-- `openTrack`. -/
def openTrackFile (track : UInt16) (s : TrackStream) : Bool × TrackStream :=
  if track < 1 then (false, s)
  else
    let s := s.keepDirectory
    if s.openTrack = track ∧ s.file.isSome then (true, s)
    else match (s.entries fs)[track.toNat - 1]? with
      | none => (false, s)
      | some e =>
        if fs.openable e.url then (true, { s with url := e.url, file := some e.url, openTrack := track })
        else (false, { s with url := e.url, file := none })

def seek (pos : UInt32) (s : TrackStream) : Bool × TrackStream :=
  ((s.file.map fun url => fs.seekable url pos).getD false, { s with sought := some pos })

def seekSector (track sector offset : UInt8) (s : TrackStream) : Bool × TrackStream :=
  let opened := s.openTrackFile fs track.toUInt16
  if opened.1 = false then opened
  else opened.2.seek fs (sector.toUInt32 * block_size + offset.toUInt32)

/- The loop of `seekBlock`, from the track and the blocks that it has passed. -/
def walk (count : UInt16 → UInt16) (index : UInt64) (trackCount : UInt16) : Nat → UInt16 → UInt16 → Option (UInt16 × UInt16)
  | 0, _, _ => none
  | fuel + 1, track, sectorOffset =>
    let track := track + 1
    let n := count track
    if sectorOffset.toNat + n.toNat ≤ index.toNat then
      if track < trackCount then walk count index trackCount fuel track (sectorOffset + n)
      else some (track, sectorOffset + n)
    else some (track, sectorOffset)

/-- `seekBlock(index, offset)`. The loop has a pass for each track at most. -/
def seekBlock (index : UInt64) (offset : UInt8) (s : TrackStream) : Option (Bool × TrackStream) :=
  let trackCount := s.getTrackCount fs
  if trackCount = 0 then some (false, s)
  else
    (walk (fun track => s.getSectorCount fs block_size track) index trackCount trackCount.toNat 0 0).map fun r =>
      s.seekSector fs block_size r.1.toUInt8 (index - r.2.toUInt64).toUInt8 offset

end Calls

/-- How many blocks a file has. -/
def blocks (block_size : UInt32) (e : TrackEntry) : Nat := (e.size.toNat + block_size.toNat - 1) / block_size.toNat

/-- Block `index` of the files is block `sector` of file `t`. -/
def Located (block_size : UInt32) (files : List TrackEntry) (index : UInt64) (t sector : Nat) (e : TrackEntry) : Prop :=
  files[t]? = some e ∧ index.toNat = ((files.take t).map (blocks block_size)).sum + sector ∧ sector < blocks block_size e

/-- The stream has opened file `t` and was asked for a place of it, and the answer is that of `seek`. -/
structure Seeks (fs : FileSystem) (t : Nat) (e : TrackEntry) (place : Nat) (r : Bool × TrackStream) : Prop where
  refused : fs.openable e.url = false → r.1 = false
  opened : fs.openable e.url = true → r.2.openTrack.toNat = t + 1 ∧ r.2.file = some e.url ∧
    ∃ pos, r.2.sought = some pos ∧ pos.toNat = place ∧ r.1 = fs.seekable e.url pos

/-- The stream is at its directory, and a track that is open is one of its files. -/
structure Settled (fs : FileSystem) (dirUrl : Str) (s : TrackStream) : Prop where
  directory : (if s.trackDirUrl = [] then s.url else s.trackDirUrl) = dirUrl
  opened : ∀ url, s.file = some url → s.openTrack ≠ 0 →
    ∃ e, (trackEntries (fs.directory dirUrl))[s.openTrack.toNat - 1]? = some e ∧ e.url = url ∧ fs.openable url = true

/-- `seekBlock` is right about a block of a listing: whichever files can be opened and whichever track is open before. -/
def Right (block_size : UInt32) (directory : Str → List DirEntry) (dirUrl : Str) (index : UInt64) (offset : UInt8) : Prop :=
  ∀ openable seekable s, let fs := ⟨directory, openable, seekable⟩
    Settled fs dirUrl s → ∃ r, s.seekBlock fs block_size index offset = some r ∧
      (∀ t sector e, Located block_size (trackEntries (directory dirUrl)) index t sector e →
        Seeks fs t e (sector * block_size.toNat + offset.toNat) r) ∧
      (((trackEntries (directory dirUrl)).map (blocks block_size)).sum ≤ index.toNat → r.1 = false)

/- The block count of a file as `seekBlock` sees it, in 16 bits, -/
def counted (block_size : UInt32) (files : List TrackEntry) (i : Nat) : Nat :=
  match files[i]? with
  | some e => (countBlocks block_size e).toNat
  | none => 0

/- and the blocks before a file, in as many. -/
def passed (n : Nat → Nat) : Nat → Nat
  | 0 => 0
  | i + 1 => (passed n i + n i) % 2 ^ 16

/-- File `i` is the first one of `m` that reaches beyond the index, or the last one. -/
def Leads (n : Nat → Nat) (m index i base : Nat) : Prop :=
  i < m ∧ (∀ k < i, passed n k + n k ≤ index) ∧
    (index < passed n i + n i ∧ base = passed n i ∨
      i + 1 = m ∧ passed n i + n i ≤ index ∧ base = passed n (i + 1))

/-- The counts of 16 bits lead to the block of the listing, or, behind its end, to no track. -/
def Reaches (block_size : UInt32) (files : List TrackEntry) (index : UInt64) (offset : UInt8) : Prop :=
  let leads := Leads (counted block_size files) (files.length % 2 ^ 16) index.toNat
  (∀ t sector e, Located block_size files index t sector e → ∃ i base, leads i base ∧ (i + 1) % 2 ^ 8 = t + 1 ∧
    ((index.toNat - base) % 2 ^ 8 * block_size.toNat + offset.toNat) % 2 ^ 32 =
      sector * block_size.toNat + offset.toNat) ∧
  ((files.map (blocks block_size)).sum ≤ index.toNat → ∀ i base, leads i base → (i + 1) % 2 ^ 8 = 0)

section Numbers

variable {n : Nat → Nat} {m index i j base base' : Nat}

theorem passed_succ_le (below : passed n i + n i ≤ index) : passed n (i + 1) ≤ index := (Nat.mod_le _ _).trans below

theorem Leads.base_le (leads : Leads n m index i base) : base ≤ index := by
  obtain ⟨-, before, ⟨-, rfl⟩ | ⟨-, past, rfl⟩⟩ := leads
  · cases i with
    | zero => exact Nat.zero_le _
    | succ k => exact passed_succ_le (before k (Nat.lt_succ_self k))
  · exact passed_succ_le past

theorem Leads.unique (leads : Leads n m index i base) (leads' : Leads n m index j base') : i = j ∧ base = base' := by
  have order {i j base base' : Nat} (leads : Leads n m index i base) (leads' : Leads n m index j base') : ¬ i < j := by
    intro less
    have past := leads'.2.1 i less
    have inside := leads'.1
    rcases leads.2.2 with ⟨beyond, -⟩ | ⟨last, -⟩ <;> omega
  obtain rfl : i = j := Nat.le_antisymm (Nat.not_lt.mp (order leads' leads)) (Nat.not_lt.mp (order leads leads'))
  refine ⟨rfl, ?_⟩
  rcases leads.2.2 with ⟨beyond, first⟩ | ⟨-, past, first⟩ <;> rcases leads'.2.2 with ⟨beyond', second⟩ | ⟨-, past', second⟩
  · exact first.trans second.symm
  · omega
  · omega
  · exact first.trans second.symm

theorem exists_leads (n : Nat → Nat) (index : Nat) (positive : 0 < m) : ∃ i base, Leads n m index i base := by
  by_cases beyond : ∃ i, i < m ∧ index < passed n i + n i
  · obtain ⟨inside, first⟩ := Nat.find_spec beyond
    refine ⟨_, _, inside, fun k less => ?_, .inl ⟨first, rfl⟩⟩
    by_contra past
    exact Nat.find_min beyond less ⟨less.trans inside, Nat.lt_of_not_le past⟩
  · have past (k : Nat) (inside : k < m) : passed n k + n k ≤ index := by
      by_contra short
      exact beyond ⟨k, inside, Nat.lt_of_not_le short⟩
    exact ⟨m - 1, _, by omega, fun k less => past k (by omega), .inr ⟨by omega, past _ (by omega), rfl⟩⟩

/-- Where the loop ends. -/
theorem walk_leads {count : UInt16 → UInt16} (index : UInt64) {trackCount : UInt16} (track sectorOffset : UInt16)
    {fuel : Nat} (same : ∀ track : UInt16, 0 < track.toNat → (count track).toNat = n (track.toNat - 1))
    (inside : track.toNat < trackCount.toNat) (enough : trackCount.toNat ≤ track.toNat + fuel)
    (base : sectorOffset.toNat = passed n track.toNat) (before : ∀ k < track.toNat, passed n k + n k ≤ index.toNat) :
    ∃ track' base', walk count index trackCount fuel track sectorOffset = some (track', base') ∧ 0 < track'.toNat ∧
      Leads n trackCount.toNat index.toNat (track'.toNat - 1) base'.toNat := by
  induction fuel generalizing track sectorOffset with
  | zero => omega
  | succ fuel ih =>
    have small := trackCount.toNat_lt
    have next : (track + 1).toNat = track.toNat + 1 := by
      have one : (1 : UInt16).toNat = 1 := rfl
      rw [UInt16.toNat_add, one]
      exact Nat.mod_eq_of_lt (by omega)
    have number : (count (track + 1)).toNat = n track.toNat := by
      rw [same _ (by omega), next, Nat.add_sub_cancel]
    rw [walk, number, base]
    by_cases past : passed n track.toNat + n track.toNat ≤ index.toNat
    · have sum : (sectorOffset + count (track + 1)).toNat = passed n (track.toNat + 1) := by
        rw [UInt16.toNat_add, base, number, passed]
      have before' : ∀ k < track.toNat + 1, passed n k + n k ≤ index.toNat := by
        intro k below
        rcases Nat.lt_succ_iff_lt_or_eq.mp below with less | rfl
        · exact before k less
        · exact past
      rw [if_pos past]
      by_cases more : track + 1 < trackCount
      · rw [if_pos more]
        rw [UInt16.lt_iff_toNat_lt, next] at more
        apply ih
        · rw [next]
          exact more
        · omega
        · rw [sum, next]
        · rw [next]
          exact before'
      · rw [if_neg more]
        rw [UInt16.lt_iff_toNat_lt, next] at more
        refine ⟨_, _, rfl, by omega, ?_⟩
        rw [next, Nat.add_sub_cancel, sum]
        exact ⟨inside, before, .inr ⟨by omega, past, rfl⟩⟩
    · rw [if_neg past]
      refine ⟨_, _, rfl, by omega, ?_⟩
      rw [next, Nat.add_sub_cancel, base]
      exact ⟨inside, before, .inl ⟨Nat.lt_of_not_le past, rfl⟩⟩

end Numbers

variable {fs : FileSystem} {dirUrl : Str} {block_size : UInt32} {s : TrackStream} {index : UInt64} {offset : UInt8}

theorem Settled.entries (settled : Settled fs dirUrl s) : s.entries fs = trackEntries (fs.directory dirUrl) := by
  rw [TrackStream.entries, settled.directory]

theorem Settled.getSectorCount (settled : Settled fs dirUrl s) (block_size : UInt32) (track : UInt16) (positive : 0 < track.toNat) :
    (s.getSectorCount fs block_size track).toNat =
      counted block_size (trackEntries (fs.directory dirUrl)) (track.toNat - 1) := by
  have not_zero : ¬ track < 1 := by
    rw [UInt16.lt_iff_toNat_lt]
    exact Nat.not_lt.mpr positive
  rw [TrackStream.getSectorCount, if_neg not_zero, settled.entries, counted]
  split <;> rfl

theorem Settled.keepDirectory (settled : Settled fs dirUrl s) : Settled fs dirUrl s.keepDirectory where
  directory := by
    rw [← settled.directory, TrackStream.keepDirectory]
    dsimp only
    split_ifs with none empty
    · rfl
    · rfl
    · rfl
  opened := settled.opened

/-- What `openTrack` does with a file of the directory. -/
theorem Settled.openTrackFile (settled : Settled fs dirUrl s) {track : UInt16} {i : Nat} {e : TrackEntry}
    (number : track.toNat = i + 1) (listed : (trackEntries (fs.directory dirUrl))[i]? = some e) :
    (s.openTrackFile fs track).1 = fs.openable e.url ∧ (fs.openable e.url = true →
      (s.openTrackFile fs track).2.openTrack = track ∧ (s.openTrackFile fs track).2.file = some e.url) := by
  have positive : ¬ track < 1 := by
    rw [UInt16.lt_iff_toNat_lt, number]
    exact Nat.not_lt.mpr (Nat.le_add_left 1 i)
  have kept := settled.keepDirectory
  have here : (s.keepDirectory.entries fs)[track.toNat - 1]? = some e := by
    rw [kept.entries, number]
    exact listed
  have unfolded : s.openTrackFile fs track =
      if s.keepDirectory.openTrack = track ∧ s.keepDirectory.file.isSome then (true, s.keepDirectory)
      else if fs.openable e.url then (true, { s.keepDirectory with url := e.url, file := some e.url, openTrack := track })
      else (false, { s.keepDirectory with url := e.url, file := none }) := by
    rw [TrackStream.openTrackFile, if_neg positive]
    dsimp only
    rw [here]
  rw [unfolded]
  by_cases already : s.keepDirectory.openTrack = track ∧ s.keepDirectory.file.isSome
  · rw [if_pos already]
    obtain ⟨same, some⟩ := already
    obtain ⟨url, file⟩ := Option.isSome_iff_exists.mp some
    have not_zero : s.keepDirectory.openTrack ≠ 0 := by
      rintro zero
      rw [← same, zero] at number
      cases number
    obtain ⟨e', listed', rfl, openable⟩ := kept.opened url file not_zero
    rw [same, number, Nat.add_sub_cancel, listed] at listed'
    obtain rfl := Option.some.inj listed'
    exact ⟨openable.symm, fun _ => ⟨same, file⟩⟩
  · rw [if_neg already]
    cases openable : fs.openable e.url with
    | true => exact ⟨rfl, fun _ => ⟨rfl, rfl⟩⟩
    | false => exact ⟨rfl, fun no => absurd no Bool.false_ne_true⟩

/- The sector number is what is left of the index in eight bits. -/
theorem sector_toNat {base : UInt16} (below : base.toNat ≤ index.toNat) :
    (index - base.toUInt64).toUInt8.toNat = (index.toNat - base.toNat) % 2 ^ 8 := by
  have small := index.toNat_lt
  have wide : base.toUInt64.toNat = base.toNat := UInt16.toNat_toUInt64 base
  rw [UInt64.toNat_toUInt8, UInt64.toNat_sub, wide]
  omega

theorem place_toNat (sector offset : UInt8) : (sector.toUInt32 * block_size + offset.toUInt32).toNat =
    (sector.toNat * block_size.toNat + offset.toNat) % 2 ^ 32 := by
  rw [UInt32.toNat_add, UInt32.toNat_mul, UInt8.toNat_toUInt32, UInt8.toNat_toUInt32, Nat.mod_add_mod]

theorem seekSector_zero {track : UInt8} (sector : UInt8) (zero : track.toNat = 0) :
    (s.seekSector fs block_size track sector offset).1 = false := by
  obtain rfl : track = 0 := UInt8.toNat_inj.mp zero
  rfl

/-- `seekSector` of a file of the directory. -/
theorem Settled.seekSector (settled : Settled fs dirUrl s) (block_size : UInt32) {track : UInt8} (sector offset : UInt8) {i : Nat} {e : TrackEntry}
    (number : track.toNat = i + 1) (listed : (trackEntries (fs.directory dirUrl))[i]? = some e) :
    Seeks fs i e ((sector.toNat * block_size.toNat + offset.toNat) % 2 ^ 32)
      (s.seekSector fs block_size track sector offset) := by
  have wide : track.toUInt16.toNat = i + 1 := by
    rw [UInt8.toNat_toUInt16, number]
  obtain ⟨found, opened⟩ := settled.openTrackFile wide listed
  rw [TrackStream.seekSector]
  constructor
  · intro no
    rw [if_pos (found.trans no)]
    exact found.trans no
  · intro yes
    obtain ⟨track', file⟩ := opened yes
    have there : (s.openTrackFile fs track.toUInt16).1 ≠ false := by
      rw [found, yes]
      decide
    rw [if_neg there]
    refine ⟨?_, file, _, rfl, place_toNat sector offset, ?_⟩
    · exact (congrArg UInt16.toNat track').trans wide
    · rw [TrackStream.seek, file]
      rfl

/-- A directory without a track that can be counted. -/
theorem seekBlock_none (settled : Settled fs dirUrl s)
    (none : (trackEntries (fs.directory dirUrl)).length % 2 ^ 16 = 0) :
    s.seekBlock fs block_size index offset = some (false, s) := by
  have count : s.getTrackCount fs = 0 := by
    rw [getTrackCount, settled.entries]
    exact UInt16.toNat_inj.mp none
  rw [seekBlock, count]
  exact if_pos rfl

/-- The track and the sector that `seekBlock` seeks. -/
theorem seekBlock_leads (settled : Settled fs dirUrl s) (block_size : UInt32) (index : UInt64) (offset : UInt8)
    (some_ : (trackEntries (fs.directory dirUrl)).length % 2 ^ 16 ≠ 0) :
    ∃ i base, Leads (counted block_size (trackEntries (fs.directory dirUrl)))
        ((trackEntries (fs.directory dirUrl)).length % 2 ^ 16) index.toNat i base ∧
      ∃ track sector : UInt8, track.toNat = (i + 1) % 2 ^ 8 ∧ sector.toNat = (index.toNat - base) % 2 ^ 8 ∧
        s.seekBlock fs block_size index offset = some (s.seekSector fs block_size track sector offset) := by
  have number : (s.getTrackCount fs).toNat = (trackEntries (fs.directory dirUrl)).length % 2 ^ 16 := by
    rw [getTrackCount, settled.entries]
    rfl
  have not_zero : s.getTrackCount fs ≠ 0 := by
    intro zero
    rw [zero] at number
    exact some_ number.symm
  obtain ⟨track, base, walked, positive, leads⟩ := walk_leads index 0 0
    (fun track positive => settled.getSectorCount block_size track positive)
    (Nat.pos_of_ne_zero (number ▸ some_)) (Nat.le_add_left _ _) rfl (fun k below => absurd below (Nat.not_lt_zero k))
  rw [number] at leads
  refine ⟨_, _, leads, track.toUInt8, (index - base.toUInt64).toUInt8, ?_, sector_toNat leads.base_le, ?_⟩
  · rw [UInt16.toNat_toUInt8, Nat.sub_add_cancel positive]
  · rw [seekBlock]
    simp only [if_neg not_zero]
    rw [walked]
    rfl

/- A stream that was not used yet. -/
theorem settled_fresh (fs : FileSystem) (dirUrl : Str) : Settled fs dirUrl { url := dirUrl } where
  directory := rfl
  opened url no := by cases no

/-- Where all files can be opened a track that is not zero is opened. -/
theorem fresh_seekSector (block_size : UInt32) (directory : Str → List DirEntry) (dirUrl : Str) {track : UInt8}
    (sector offset : UInt8) {i : Nat}
    (number : track.toNat = (i + 1) % 2 ^ 8) (not_zero : track.toNat ≠ 0)
    (few : i < (trackEntries (directory dirUrl)).length % 2 ^ 16) :
    let fs : FileSystem := ⟨directory, fun _ => true, fun _ _ => true⟩
    let r := TrackStream.seekSector fs block_size track sector offset { url := dirUrl }
    r.1 = true ∧ r.2.openTrack.toNat = track.toNat ∧
      ∃ pos, r.2.sought = some pos ∧ pos.toNat = (sector.toNat * block_size.toNat + offset.toNat) % 2 ^ 32 := by
  intro fs r
  have inside : track.toNat - 1 < (trackEntries (directory dirUrl)).length := by
    have := Nat.mod_le (i + 1) (2 ^ 8)
    have := Nat.mod_le (trackEntries (directory dirUrl)).length (2 ^ 16)
    omega
  have next : track.toNat = track.toNat - 1 + 1 := by omega
  obtain ⟨number', -, pos, sought, place, answer⟩ :=
    ((settled_fresh fs dirUrl).seekSector block_size sector offset next
      (List.getElem?_eq_getElem inside)).opened rfl
  exact ⟨answer, number'.trans next.symm, pos, sought, place⟩

variable {directory : Str → List DirEntry}

/-- Where `seekBlock` is right the counts of 16 bits lead to the block, -/
theorem reaches_of_right (right : Right block_size directory dirUrl index offset) :
    Reaches block_size (trackEntries (directory dirUrl)) index offset := by
  obtain ⟨r, sought, inside, behind⟩ := right (fun _ => true) (fun _ _ => true) { url := dirUrl } (settled_fresh _ _)
  by_cases none : (trackEntries (directory dirUrl)).length % 2 ^ 16 = 0
  · rw [seekBlock_none (settled_fresh _ _) none] at sought
    obtain rfl := Option.some.inj sought
    constructor
    · intro t sector e located
      exact absurd ((inside t sector e located).opened rfl).1 (Nat.succ_ne_zero t).symm
    · intro past i base leads
      have := leads.1
      omega
  · obtain ⟨i, base, leads, track, part, number, rest, sought'⟩ := seekBlock_leads
      (settled_fresh ⟨directory, fun _ => true, fun _ _ => true⟩ dirUrl) block_size index offset none
    rw [sought'] at sought
    obtain rfl := Option.some.inj sought
    constructor
    · intro t sector e located
      obtain ⟨openTrack, -, pos, asked, place, answer⟩ := (inside t sector e located).opened rfl
      have not_zero : track.toNat ≠ 0 := by
        intro zero
        rw [seekSector_zero part zero] at answer
        exact Bool.false_ne_true answer
      obtain ⟨-, openTrack', pos', asked', place'⟩ := fresh_seekSector block_size directory dirUrl
        part offset number not_zero leads.1
      refine ⟨i, base, leads, ?_, ?_⟩
      · rw [← number, ← openTrack', openTrack]
      · rw [← place, ← rest, ← place']
        congr 1
        exact Option.some.inj (asked'.symm.trans asked)
    · intro past j base' leads'
      obtain ⟨rfl, rfl⟩ := leads.unique leads'
      by_contra not_zero
      rw [← number] at not_zero
      have answer := (fresh_seekSector block_size directory dirUrl part offset number not_zero leads.1).1
      exact Bool.false_ne_true ((behind past).symm.trans answer)

/-- and where they do it is right. -/
theorem right_of_reaches (reaches : Reaches block_size (trackEntries (directory dirUrl)) index offset) :
    Right block_size directory dirUrl index offset := by
  obtain ⟨inside, behind⟩ := reaches
  intro openable seekable s fs settled
  by_cases none : (trackEntries (directory dirUrl)).length % 2 ^ 16 = 0
  · refine ⟨_, seekBlock_none settled none, fun t sector e located => ?_, fun _ => rfl⟩
    obtain ⟨i, base, leads, -⟩ := inside t sector e located
    have := leads.1
    omega
  · obtain ⟨i, base, leads, track, part, number, rest, sought⟩ := seekBlock_leads settled block_size index offset none
    refine ⟨_, sought, fun t sector e located => ?_, fun past => ?_⟩
    · obtain ⟨j, base', leads', same, place⟩ := inside t sector e located
      obtain ⟨rfl, rfl⟩ := leads.unique leads'
      rw [← place, ← rest]
      exact settled.seekSector block_size part offset (number.trans same) located.1
    · exact seekSector_zero part (number.trans (behind past i base leads))

/-- The next call finds the directory too, if that has a name. -/
theorem Settled.openTrackFile_settled (settled : Settled fs dirUrl s) (named : dirUrl ≠ []) (track : UInt16) :
    Settled fs dirUrl (s.openTrackFile fs track).2 := by
  have kept := settled.keepDirectory
  have directory' : s.keepDirectory.trackDirUrl = dirUrl := by
    by_contra other
    have directory := settled.directory
    rw [TrackStream.keepDirectory] at other
    exact other directory
  rw [TrackStream.openTrackFile]
  split
  · exact settled
  · rename_i positive
    dsimp only
    split
    · exact kept
    · split
      · exact kept
      · rename_i e listed
        rw [kept.entries] at listed
        have stays (s' : TrackStream) (same : s'.trackDirUrl = dirUrl) :
            (if s'.trackDirUrl = [] then s'.url else s'.trackDirUrl) = dirUrl := by
          rw [same, if_neg named]
        split
        · rename_i openable
          refine ⟨stays _ directory', fun url file not_zero => ?_⟩
          obtain rfl := Option.some.inj file
          exact ⟨e, listed, rfl, openable⟩
        · exact ⟨stays _ directory', fun url file not_zero => by cases file⟩

theorem Settled.seekBlock {r : Bool × TrackStream} (settled : Settled fs dirUrl s) (named : dirUrl ≠ [])
    (sought : s.seekBlock fs block_size index offset = some r) : Settled fs dirUrl r.2 := by
  rw [TrackStream.seekBlock] at sought
  split at sought
  · obtain rfl := Option.some.inj sought
    exact settled
  · obtain ⟨walked, -, rfl⟩ := Option.map_eq_some_iff.mp sought
    have opened := settled.openTrackFile_settled named walked.1.toUInt8.toUInt16
    rw [TrackStream.seekSector]
    split
    · exact opened
    · exact ⟨opened.directory, opened.opened⟩

section Small

variable {files : List TrackEntry} {t t' sector sector' i : Nat} {e e' : TrackEntry}

theorem sum_take_succ (block_size : UInt32) (listed : files[i]? = some e) : ((files.take (i + 1)).map (blocks block_size)).sum =
    ((files.take i).map (blocks block_size)).sum + blocks block_size e := by
  rw [List.take_add_one, listed]
  simp

theorem sum_take_le (block_size : UInt32) (files : List TrackEntry) (le : i ≤ t) :
    ((files.take i).map (blocks block_size)).sum ≤ ((files.take t).map (blocks block_size)).sum := by
  obtain ⟨k, rfl⟩ := Nat.exists_eq_add_of_le le
  rw [List.take_add, List.map_append, List.sum_append]
  exact Nat.le_add_right _ _

/-- A block lies in one file. -/
theorem Located.unique (located : Located block_size files index t sector e)
    (located' : Located block_size files index t' sector' e') : t = t' ∧ sector = sector' := by
  have order {t t' sector sector' : Nat} {e e' : TrackEntry} (located : Located block_size files index t sector e)
      (located' : Located block_size files index t' sector' e') : ¬ t < t' := by
    intro less
    have next := sum_take_succ block_size located.1
    have behind : t + 1 ≤ t' := less
    have := sum_take_le block_size files behind
    have := located.2
    have := located'.2
    omega
  obtain rfl : t = t' := Nat.le_antisymm (Nat.not_lt.mp (order located' located)) (Nat.not_lt.mp (order located located'))
  have := located.2.1
  have := located'.2.1
  exact ⟨rfl, by omega⟩

theorem countBlocks_toNat (some_ : block_size ≠ 0) (fits : e.size.toNat + block_size.toNat ≤ 2 ^ 32) :
    (countBlocks block_size e).toNat = blocks block_size e % 2 ^ 16 := by
  have positive : 0 < block_size.toNat := Nat.pos_of_ne_zero fun zero => some_ (UInt32.toNat_inj.mp zero)
  have one : (1 : UInt32).toNat = 1 := rfl
  have sum : (e.size + block_size - 1).toNat = e.size.toNat + block_size.toNat - 1 := by
    rw [UInt32.toNat_sub, UInt32.toNat_add, one]
    omega
  rw [countBlocks, UInt32.toNat_toUInt16, UInt32.toNat_div, sum, blocks]

/-- A directory of less than 65536 blocks has no block counted wrong. -/
theorem counted_small (some_ : block_size ≠ 0) (fits : ∀ e ∈ files, e.size.toNat + block_size.toNat ≤ 2 ^ 32)
    (small : (files.map (blocks block_size)).sum < 2 ^ 16) (inside : i ≤ files.length) :
    passed (counted block_size files) i = ((files.take i).map (blocks block_size)).sum ∧
      ∀ e, files[i]? = some e → counted block_size files i = blocks block_size e := by
  have total (k : Nat) : ((files.take k).map (blocks block_size)).sum < 2 ^ 16 := by
    have most := sum_take_le block_size files (Nat.le_max_left k files.length)
    rw [List.take_of_length_le (Nat.le_max_right k files.length)] at most
    omega
  have here (k : Nat) (e : TrackEntry) (listed : files[k]? = some e) : counted block_size files k = blocks block_size e := by
    have next := sum_take_succ block_size listed
    have := total (k + 1)
    rw [counted, listed]
    dsimp only
    rw [countBlocks_toNat some_ (fits e (List.mem_of_getElem? listed))]
    exact Nat.mod_eq_of_lt (by omega)
  refine ⟨?_, here i⟩
  induction i with
  | zero => rfl
  | succ i ih =>
    have listed := List.getElem?_eq_getElem inside
    rw [passed, ih (Nat.le_of_succ_le inside), here i _ listed, sum_take_succ block_size listed, Nat.mod_eq_of_lt]
    rw [← sum_take_succ block_size listed]
    exact total (i + 1)

/-- In such a directory of less than 256 files `seekBlock` is right about the first 256 blocks of each. -/
theorem reaches_small (some_ : block_size ≠ 0) (fits : ∀ e ∈ files, e.size.toNat + block_size.toNat ≤ 2 ^ 32)
    (small : (files.map (blocks block_size)).sum < 2 ^ 16) (few : files.length < 2 ^ 8)
    (located : Located block_size files index t sector e) (near : sector < 2 ^ 8)
    (place : sector * block_size.toNat + offset.toNat < 2 ^ 32) : Reaches block_size files index offset := by
  obtain ⟨listed, sum, inside⟩ := located
  have below : t < files.length := (List.getElem?_eq_some_iff.mp listed).1
  obtain ⟨base, count⟩ := counted_small some_ fits small below.le
  have leads : Leads (counted block_size files) (files.length % 2 ^ 16) index.toNat t
      ((files.take t).map (blocks block_size)).sum := by
    refine ⟨by omega, fun k less => ?_, .inl ⟨?_, base.symm⟩⟩
    · have next := sum_take_succ block_size (List.getElem?_eq_getElem (less.trans below))
      obtain ⟨base', count'⟩ := counted_small some_ fits small (less.trans below).le
      have behind : k + 1 ≤ t := less
      have := sum_take_le block_size files behind
      rw [base', count' _ (List.getElem?_eq_getElem (less.trans below))]
      omega
    · rw [base, count e listed]
      omega
  constructor
  · intro t' sector' e' located'
    obtain ⟨rfl, rfl⟩ := Located.unique ⟨listed, sum, inside⟩ located'
    refine ⟨t, _, leads, Nat.mod_eq_of_lt (by omega), ?_⟩
    rw [sum, Nat.add_sub_cancel_left, Nat.mod_eq_of_lt near, Nat.mod_eq_of_lt place]
  · intro past
    have next := sum_take_succ block_size listed
    have most := sum_take_le block_size files below
    rw [List.take_length] at most
    have again : t.succ = t + 1 := rfl
    rw [again] at most
    omega

/-- and wrong about all blocks behind the last one, if it has a file. -/
theorem not_reaches_past (few : files.length < 2 ^ 8) (some_ : files ≠ [])
    (past : (files.map (blocks block_size)).sum ≤ index.toNat) : ¬ Reaches block_size files index offset := by
  rintro ⟨-, behind⟩
  have positive := List.length_pos_iff.mpr some_
  obtain ⟨i, base, leads⟩ := exists_leads (counted block_size files) (m := files.length % 2 ^ 16) index.toNat (by omega)
  have none := behind past i base leads
  have inside := leads.1
  omega

end Small

/-- `seekBlock` is right about a block if and only if the counts of 16 bits lead to it. -/
theorem seekBlock_right_iff (block_size : UInt32) (directory : Str → List DirEntry) (dirUrl : Str) (index : UInt64)
    (offset : UInt8) : Right block_size directory dirUrl index offset ↔
      Reaches block_size (trackEntries (directory dirUrl)) index offset :=
  ⟨reaches_of_right, right_of_reaches⟩

/-- A directory with one file of two blocks has no third block, and the first one is sought for it. -/
theorem seekBlock_past_end : ¬ Right 256 (fun _ => [⟨[0x61], 300, false⟩]) [0x64] 2 0 := by
  intro right
  have files : trackEntries [⟨[0x61], 300, false⟩] = [⟨[0x61], 300⟩] := by
    rw [trackEntries]
    exact List.mergeSort_singleton _
  have reaches := reaches_of_right right
  rw [files] at reaches
  exact not_reaches_past (by decide) (List.cons_ne_nil _ _) (by decide) reaches

end TrackStream

end Meatloaf
