import Meatloaf.Archive.Entries

/-! What the streams of an archive read of its entries. All copies of an entry have the bytes that were written to
it, as long as no copy is made of an entry that has been written to. -/
namespace Meatloaf

open Lib

/-- A run of calls: where the archive is now, the entry that each stream has had open since its last `seekPath`, the
byte that was written last to each place of an entry, and the entry that each copy was made of. -/
structure ArchiveRun where
  now : Archives := {}
  opened : Nat → Option Str := fun _ => none
  written : Str → Nat → Option UInt8 := fun _ _ => none
  names : List Str := []

/- Bytes that are written to an entry. -/
def noted (name : Str) (offset : Nat) (buf : List UInt8) (written : Str → Nat → Option UInt8) : Str → Nat → Option UInt8 :=
  fun other k => if other = name ∧ offset ≤ k ∧ k < offset + buf.length then buf[k - offset]? else written other k

namespace ArchiveRun

variable (a : ArchiveSetting)

/- What a new copy is made of is the entry of its stream. -/
def named (r : ArchiveRun) (i : Nat) (w : Archives) : List Str :=
  r.names ++ List.replicate (w.copies.files.length - r.now.copies.files.length) (w.streams i).entry.filename

def call (r : ArchiveRun) (call : ArchiveCall) : ArchiveRun :=
  if r.now.stopped = true then r
  else
  let w := r.now.run a call
  match call with
  | .seekPath i path room =>
    let found := ((a.seekPath path room (r.now.streams i) r.now.copies).map Prod.fst).getD false
    { r with
      now := w
      opened := Function.update r.opened i (if found = true then some (w.streams i).entry.filename else none)
      names := r.named i w }
  | .read i _ _ | .seek i _ _ => { r with now := w, names := r.named i w }
  | .write i buf _ =>
    let offset := (r.now.streams i).position
    { r with
      now := w
      names := r.named i w
      written := match r.opened i with
        | some name => noted name offset (buf.take ((w.streams i).position - offset)) r.written
        | none => r.written }
  | .close i => { r with now := w, opened := Function.update r.opened i none }

/-- The byte of an entry that was written last, or the archived one. -/
def byteAt (r : ArchiveRun) (name : Str) (k : Nat) : Option UInt8 := (r.written name k).or (a.container.archived name)[k]?

/-- A read of an entry gives its bytes. -/
def Served (r : ArchiveRun) : ArchiveCall → Prop
  | .read i count room => r.now.stopped = false → ∀ name, r.opened i = some name → ∀ k < count,
    (r.now.bytes a i count room)[k]? = r.byteAt a name ((r.now.streams i).position + k)
  | _ => True

/-- A write is made inside an entry that is open. -/
def Inside (r : ArchiveRun) : ArchiveCall → Prop
  | .write i buf _ => ∃ name, r.opened i = some name ∧
    (r.now.streams i).position + buf.length ≤ (a.container.archived name).length
  | _ => True

/- The copy that the session's cache has of an entry. -/
def cached (r : ArchiveRun) (name : Str) : Option Nat := r.now.copies.cached name

/- A copy that is read for an entry: the cache has it, or a stream that has the entry open. -/
def IsCopy (r : ArchiveRun) (name : Str) (copy : Nat) : Prop :=
  r.cached name = some copy ∨ ∃ i, r.opened i = some name ∧ (r.now.streams i).m_cachedEntry = some copy

/-- What keeps the copies of an entry the same. A `seekPath` is served from the cache, or it comes to an entry that
the stream has open, or the stream has none, and the entry is in the cache under its name or has not been written to.
A write goes to all copies of the entry. No stream extracts an entry without a `seekPath` that has found it. -/
def Sharing (r : ArchiveRun) : ArchiveCall → Prop
  | .seekPath i path _ => (a.seekCachedFile path (r.now.streams i) r.now.copies).isSome ∨
    (r.now.streams i).m_archive = none ∨ ∀ e, a.container.find path = some e → r.opened i = some e.1 ∨
      ((r.now.streams i).m_cachedEntry = none ∧ ((r.cached e.1).isSome ∨ ∀ k, r.written e.1 k = none))
  | .write i _ _ => ∀ name copy, r.opened i = some name → r.IsCopy name copy →
    (r.now.streams i).m_cachedEntry = some copy
  | .read i _ _ | .seek i _ _ => (r.now.streams i).m_cachedEntry ≠ none ∨ a.source (r.now.streams i) = none
  | .close _ => True

/-- Every copy that is read for an entry was made of it, and has its bytes. -/
structure Kept (r : ArchiveRun) : Prop where
  total : r.names.length = r.now.copies.files.length
  made : ∀ name copy, r.IsCopy name copy → r.names[copy]? = some name
  bytes : ∀ name copy, r.IsCopy name copy → ∃ f, r.now.copies.files[copy]? = some f ∧ f.Whole ∧
    ∀ k, f.data[k]? = r.byteAt a name k
  held : ∀ i name, r.opened i = some name → (r.now.streams i).m_cachedEntry ≠ none
  alone : ∀ i, (r.now.streams i).m_isCompressedOnly = true → a.container.headers true = some []

variable {a} {r r' : ArchiveRun} {i : Nat} {name : Str} {copy : Nat}

/- What is read of a copy. -/
theorem read_served (kept : Kept a r) (open_ : r.opened i = some name) (count : Nat) (room : Room) {k : Nat} (inside : k < count) :
    (r.now.bytes a i count room)[k]? = r.byteAt a name ((r.now.streams i).position + k) := by
  obtain ⟨copy, cached⟩ := Option.ne_none_iff_exists'.mp (kept.held i name open_)
  obtain ⟨f, file, whole, bytes⟩ := kept.bytes name copy (.inr ⟨i, open_, cached⟩)
  rw [Archives.bytes, ArchiveSetting.ensureData_held cached]
  simp only [cached, Option.bind_some, file, Option.map_some, Option.getD_some]
  rw [← bytes]
  exact whole.read _ inside

/-- A state with the same entries written, in which every copy is an earlier one, or a new one of an entry with its
bytes. -/
theorem Kept.carry (kept : Kept a r) {more : List CachedCopy} (one : more.length ≤ 1)
    (files : r'.now.copies.files = r.now.copies.files ++ more)
    (names : r'.names = r.names ++ List.replicate more.length name) (written : r'.written = r.written)
    (fresh : ∀ f ∈ more, f.Whole ∧ ∀ k, f.data[k]? = r.byteAt a name k)
    (copies : ∀ other copy, r'.IsCopy other copy → r.IsCopy other copy ∨
      (other = name ∧ copy = r.now.copies.files.length ∧ more ≠ []))
    (held : ∀ i name, r'.opened i = some name → (r'.now.streams i).m_cachedEntry ≠ none)
    (alone : ∀ i, (r'.now.streams i).m_isCompressedOnly = true → a.container.headers true = some []) : Kept a r' := by
  have same (other : Str) (k : Nat) : r'.byteAt a other k = r.byteAt a other k := by rw [byteAt, byteAt, written]
  have all (other : Str) (copy : Nat) (is : r'.IsCopy other copy) : r'.names[copy]? = some other ∧
      ∃ f, r'.now.copies.files[copy]? = some f ∧ f.Whole ∧ ∀ k, f.data[k]? = r'.byteAt a other k := by
    rcases copies other copy is with before | ⟨rfl, rfl, some_⟩
    · have made := kept.made other copy before
      obtain ⟨f, file, whole, bytes⟩ := kept.bytes other copy before
      refine ⟨?_, f, ?_, whole, fun k => (bytes k).trans (same other k).symm⟩
      · rw [names, List.getElem?_append_left (List.getElem?_eq_some_iff.mp made).1]
        exact made
      · rw [files, List.getElem?_append_left (List.getElem?_eq_some_iff.mp file).1]
        exact file
    · obtain ⟨f, rfl⟩ := List.length_eq_one_iff.mp (Nat.le_antisymm one (List.length_pos_iff.mpr some_))
      obtain ⟨whole, bytes⟩ := fresh f List.mem_cons_self
      refine ⟨?_, f, ?_, whole, fun k => (bytes k).trans (same other k).symm⟩
      · rw [names, ← kept.total, List.getElem?_append_right (Nat.le_refl _), Nat.sub_self]
        rfl
      · rw [files, List.getElem?_append_right (Nat.le_refl _), Nat.sub_self]
        rfl
  refine ⟨?_, fun other copy is => (all other copy is).1, fun other copy is => (all other copy is).2, held, alone⟩
  rw [names, files, List.length_append, List.length_append, List.length_replicate, kept.total]

/- The same without a new copy. -/
theorem Kept.carry_same (kept : Kept a r) (files : r'.now.copies.files = r.now.copies.files) (names : r'.names = r.names)
    (written : r'.written = r.written) (copies : ∀ other copy, r'.IsCopy other copy → r.IsCopy other copy)
    (held : ∀ i name, r'.opened i = some name → (r'.now.streams i).m_cachedEntry ≠ none)
    (alone : ∀ i, (r'.now.streams i).m_isCompressedOnly = true → a.container.headers true = some []) : Kept a r' :=
  @Kept.carry a r r' [] kept [] (Nat.zero_le 1) (files.trans (List.append_nil _).symm) (names.trans (List.append_nil _).symm)
    written (fun _ no => absurd no List.not_mem_nil) (fun other copy is => .inl (copies other copy is)) held alone

/- The streams after a call, of which only one has changed. -/
theorem update_streams {β : Type*} (g : ArchiveMStream → β) {streams : Nat → ArchiveMStream} {s' : ArchiveMStream}
    (same : g s' = g (streams i)) (j : Nat) : g (Function.update streams i s' j) = g (streams j) := by
  by_cases here : j = i
  · rw [here, Function.update_self, same]
  · rw [Function.update_of_ne here]

theorem named_same {w : Archives} (files : w.copies.files = r.now.copies.files) : r.named i w = r.names := by
  rw [named, files, Nat.sub_self, List.replicate_zero, List.append_nil]

/-- A call that leaves the copies alone, and the copy of the stream. -/
theorem Kept.put_same (kept : Kept a r) {s' : ArchiveMStream} (cached : s'.m_cachedEntry = (r.now.streams i).m_cachedEntry)
    (only : s'.m_isCompressedOnly = (r.now.streams i).m_isCompressedOnly) :
    Kept a { r with
      now := r.now.put i s' r.now.copies
      names := r.named i (r.now.put i s' r.now.copies) } := by
  have streams := @update_streams i _ ArchiveMStream.m_cachedEntry r.now.streams s' cached
  refine kept.carry_same rfl (named_same rfl) rfl (fun other copy is => ?_) (fun j name open_ => ?_) fun j flag => ?_
  · rcases is with cache | ⟨j, open_, held⟩
    · exact .inl cache
    · exact .inr ⟨j, open_, (streams j).symm.trans held⟩
  · rw [show ((r.now.put i s' r.now.copies).streams j).m_cachedEntry = _ from streams j]
    exact kept.held j name open_
  · have before := @update_streams i _ ArchiveMStream.m_isCompressedOnly r.now.streams s' only j
    exact kept.alone j (before.symm.trans flag)

theorem Kept.read (kept : Kept a r) (going : r.now.stopped = false) {count : Nat} {room : Room}
    (idle : (r.now.streams i).m_cachedEntry ≠ none ∨ a.source (r.now.streams i) = none) :
    Kept a (r.call a (.read i count room)) := by
  obtain ⟨ok, s', data, cached, only⟩ := @ArchiveSetting.ensureData_idle a (r.now.streams i) r.now.copies room idle
  rw [call, if_neg (by simp [going])]
  dsimp only [Archives.run]
  rw [data]
  exact kept.put_same cached only

theorem Kept.seek (kept : Kept a r) (going : r.now.stopped = false) {pos : Nat} {room : Room}
    (idle : (r.now.streams i).m_cachedEntry ≠ none ∨ a.source (r.now.streams i) = none) :
    Kept a (r.call a (.seek i pos room)) := by
  obtain ⟨ok, s', data, cached, only⟩ := @ArchiveSetting.ensureData_idle a (r.now.streams i) r.now.copies room idle
  rw [call, if_neg (by simp [going])]
  dsimp only [Archives.run]
  rw [data]
  cases ok with
  | true =>
    dsimp only
    split
    · exact kept.put_same cached only
    · exact kept.put_same cached only
  | false => exact kept.put_same cached only

/- A stream that is closed has no entry open. -/
theorem Kept.close (kept : Kept a r) (going : r.now.stopped = false) : Kept a (r.call a (.close i)) := by
  rw [call, if_neg (by simp [going])]
  refine kept.carry_same rfl rfl rfl (fun other copy is => ?_) (fun j name open_ => ?_) fun j flag => ?_
  · rcases is with cache | ⟨j, open_, held⟩
    · exact .inl cache
    · right
      dsimp only [Archives.run, Archives.put] at open_ held
      by_cases here : j = i
      · rw [here, Function.update_self] at open_
        cases open_
      · rw [Function.update_of_ne here] at open_ held
        exact ⟨j, open_, held⟩
  · dsimp only [Archives.run, Archives.put] at open_ ⊢
    by_cases here : j = i
    · rw [here, Function.update_self] at open_
      cases open_
    · rw [Function.update_of_ne here] at open_ ⊢
      exact kept.held j name open_
  · have before := @update_streams i _ ArchiveMStream.m_isCompressedOnly r.now.streams
      { r.now.streams i with m_archive := (r.now.streams i).m_archive.map fun _ => none, m_cachedEntry := none } rfl j
    exact kept.alone j (before.symm.trans flag)

theorem noted_byteAt {offset : Nat} {buf : List UInt8} (w : Archives) (names : List Str) (other : Str) (k : Nat) :
    (ArchiveRun.mk w r.opened (noted name offset buf r.written) names).byteAt a other k =
      if other = name ∧ offset ≤ k ∧ k < offset + buf.length then buf[k - offset]? else r.byteAt a other k := by
  unfold byteAt noted
  dsimp only
  split
  · rename_i within
    rw [List.getElem?_eq_getElem (show k - offset < buf.length by omega)]
    rfl
  · rfl

/- The copy of a stream has room for a write that is made inside the entry. -/
theorem room_inside {f : CachedCopy} (bytes : ∀ k, f.data[k]? = r.byteAt a name k) :
    (a.container.archived name).length ≤ f.data.length := by
  by_contra short
  have behind := bytes f.data.length
  rw [List.getElem?_eq_none (Nat.le_refl _), byteAt, List.getElem?_eq_getElem (Nat.not_le.mp short)] at behind
  cases found : r.written name f.data.length with
  | none => rw [found] at behind; cases behind
  | some b => rw [found] at behind; cases behind

/-- A write goes to all copies of the entry. -/
theorem Kept.write (kept : Kept a r) (going : r.now.stopped = false) {buf : List UInt8} {room : Room}
    (valid : r.Inside a (.write i buf room)) (sharing : r.Sharing a (.write i buf room)) :
    Kept a (r.call a (.write i buf room)) := by
  obtain ⟨name, open_, inside⟩ := valid
  obtain ⟨copy, cached⟩ := Option.ne_none_iff_exists'.mp (kept.held i name open_)
  have made := kept.made name copy (.inr ⟨i, open_, cached⟩)
  obtain ⟨f, file, whole, bytes⟩ := kept.bytes name copy (.inr ⟨i, open_, cached⟩)
  obtain ⟨all, whole', bytes'⟩ := whole.write (inside.trans (room_inside bytes))
  have there : copy < r.now.copies.files.length := (List.getElem?_eq_some_iff.mp file).1
  have run : r.now.run a (.write i buf room) = r.now.put i
      { r.now.streams i with position := (r.now.streams i).position + buf.length }
      { r.now.copies with files := r.now.copies.files.set copy (f.write (r.now.streams i).position buf).2 } := by
    dsimp only [Archives.run]
    rw [ArchiveSetting.ensureData_held cached]
    dsimp only
    rw [cached, Option.bind_some, file, Option.map_some]
    dsimp only
    rw [all]
  have position : ((r.now.run a (.write i buf room)).streams i).position - (r.now.streams i).position = buf.length := by
    rw [run]
    simp [Archives.put]
  have names : r.named i (r.now.run a (.write i buf room)) = r.names := by
    rw [named, run]
    simp [Archives.put]
  rw [call, if_neg (by simp [going])]
  dsimp only
  rw [position, names, open_, List.take_length]
  dsimp only
  have copies (other : Str) (c : Nat) (is : IsCopy { r with
      now := r.now.run a (.write i buf room)
      written := noted name (r.now.streams i).position buf r.written } other c) : r.IsCopy other c := by
    rw [run] at is
    rcases is with cache | ⟨j, open', held⟩
    · exact .inl cache
    · have same := @update_streams i _ ArchiveMStream.m_cachedEntry r.now.streams
        { r.now.streams i with position := (r.now.streams i).position + buf.length } rfl j
      exact .inr ⟨j, open', same.symm.trans held⟩
  refine ⟨?_, fun other c is => kept.made other c (copies other c is), fun other c is => ?_, fun j other open' => ?_, fun j flag => ?_⟩
  · rw [run]
    simpa [Archives.put] using kept.total
  · have before := copies other c is
    rw [run]
    dsimp only [Archives.put]
    by_cases this : c = copy
    · -- the copy was made of no other entry
      subst this
      have same : other = name := Option.some.inj ((kept.made other c before).symm.trans made)
      subst same
      refine ⟨_, List.getElem?_set_self there, whole', fun k => ?_⟩
      rw [bytes', noted_byteAt, bytes]
      simp
    · have apart : other ≠ name := by
        rintro rfl
        exact this (Option.some.inj ((sharing other c open_ before).symm.trans cached))
      obtain ⟨g, file', whole'', bytes''⟩ := kept.bytes other c before
      refine ⟨g, ?_, whole'', fun k => ?_⟩
      · rw [List.getElem?_set_ne (Ne.symm this)]
        exact file'
      · rw [bytes'', noted_byteAt, if_neg fun no => apart no.1]
  · rw [run]
    have same := @update_streams i _ ArchiveMStream.m_cachedEntry r.now.streams
      { r.now.streams i with position := (r.now.streams i).position + buf.length } rfl j
    exact fun none => kept.held j other open' (same.symm.trans none)
  · rw [run] at flag
    have same := @update_streams i _ ArchiveMStream.m_isCompressedOnly r.now.streams
      { r.now.streams i with position := (r.now.streams i).position + buf.length } rfl j
    exact kept.alone j (same.symm.trans flag)

/- What a `seekPath` that returns leaves, when its stream has this copy now. -/
theorem Kept.seekPath (kept : Kept a r) (going : r.now.stopped = false) (sound : a.container.Sound) {path : Str} {room : Room}
    (sharing : r.Sharing a (.seekPath i path room)) (after : (r.call a (.seekPath i path room)).now.stopped = false) :
    Kept a (r.call a (.seekPath i path room)) := by
  rw [call, if_neg (by simp [going])] at after ⊢
  dsimp only [Archives.run] at after ⊢
  cases sought : a.seekPath path room (r.now.streams i) r.now.copies with
  | none =>
    rw [sought] at after
    cases after
  | some result =>
    obtain ⟨ok, s', m'⟩ := result
    dsimp only
    -- the new copies, and where the copy of the stream was before
    have grown : (s'.m_isCompressedOnly = true → a.container.headers true = some []) ∧ ∃ more,
        Grown r.now.copies m' s'.entry.filename more ∧
        (∀ f ∈ more, f.Whole ∧ ∀ k, f.data[k]? = r.byteAt a s'.entry.filename k) ∧
        (ok = true → ∃ copy, s'.m_cachedEntry = some copy ∧
          (m'.cached s'.entry.filename = some copy ∨ r.IsCopy s'.entry.filename copy)) := by
      cases hit : a.seekCachedFile path (r.now.streams i) r.now.copies with
      | some result =>
        obtain ⟨s1, m1⟩ := result
        rw [ArchiveSetting.seekPath_hit hit] at sought
        cases sought
        obtain ⟨copy, held, cached, files, same, only⟩ := ArchiveSetting.seekCachedFile_cases hit
        exact ⟨fun only' => kept.alone i (only.symm.trans only'), [], ArchiveSetting.grown_same files same _,
          fun f no => absurd no List.not_mem_nil, fun _ => ⟨copy, held, .inr (.inl cached)⟩⟩
      | none =>
        obtain ⟨more, result⟩ := ArchiveSetting.seekPath_sought sound (kept.alone i) hit sought
        have missed (found : ok = true ∨ more ≠ []) : r.opened i = some s'.entry.filename ∨
            ((r.now.streams i).m_cachedEntry = none ∧
              ((r.cached s'.entry.filename).isSome ∨ ∀ k, r.written s'.entry.filename k = none)) := by
          obtain ⟨there, e, find, same⟩ := result.found found
          rcases sharing with no | gone | all
          · rw [hit] at no
            cases no
          · exact absurd gone there
          · rw [← same]
            exact all e find
        refine ⟨result.alone, more, result.grown, fun f member => ?_, fun found => ?_⟩
        · obtain ⟨whole, data⟩ := result.made f member
          obtain ⟨uncached, bare⟩ := result.fresh (List.ne_nil_of_mem member)
          refine ⟨whole, fun k => ?_⟩
          rcases missed (.inr (List.ne_nil_of_mem member)) with open_ | ⟨-, cached | unwritten⟩
          · exact absurd bare (kept.held i _ open_)
          · rw [ArchiveRun.cached, uncached] at cached
            cases cached
          · rw [byteAt, unwritten k, data]
            rfl
        · obtain ⟨copy, held, cached | before⟩ := result.held found
          · exact ⟨copy, held, .inl cached⟩
          · rcases missed (.inl found) with open_ | ⟨bare, -⟩
            · exact ⟨copy, held, .inr (.inr ⟨i, open_, before⟩)⟩
            · rw [bare] at before
              cases before
    obtain ⟨alone, more, grown, fresh, held⟩ := grown
    have length : m'.files.length - r.now.copies.files.length = more.length := by
      rw [grown.files, List.length_append, Nat.add_sub_cancel_left]
    refine kept.carry grown.one grown.files ?_ rfl fresh (fun other copy is => ?_) (fun j other open_ => ?_) fun j flag => ?_
    · dsimp only [named, Archives.put]
      rw [length, Function.update_self]
    · -- the stream has a copy that is in the cache, or was one before
      have new (found : m'.cached other = some copy) : r.IsCopy other copy ∨
          (other = s'.entry.filename ∧ copy = r.now.copies.files.length ∧ more ≠ []) :=
        (grown.cached other copy found).imp_left .inl
      rcases is with cache | ⟨j, open_, copy_⟩
      · exact new cache
      · dsimp only [Archives.put] at open_ copy_
        by_cases here : j = i
        · rw [here, Function.update_self] at open_ copy_
          split at open_
          · rename_i found
            rw [Function.update_self, Option.some.injEq] at open_
            rw [open_] at held
            obtain ⟨copy', held', known⟩ := held (by simpa using found)
            rw [copy_] at held'
            cases held'
            exact known.elim new .inl
          · cases open_
        · rw [Function.update_of_ne here] at open_ copy_
          exact .inl (.inr ⟨j, open_, copy_⟩)
    · dsimp only [Archives.put] at open_ ⊢
      by_cases here : j = i
      · rw [here, Function.update_self] at open_ ⊢
        split at open_
        · rename_i found
          obtain ⟨copy, held', -⟩ := held (by simpa using found)
          rw [held']
          simp
        · cases open_
      · rw [Function.update_of_ne here] at open_ ⊢
        exact kept.held j other open_
    · dsimp only [Archives.put] at flag
      by_cases here : j = i
      · rw [here, Function.update_self] at flag
        exact alone flag
      · rw [Function.update_of_ne here] at flag
        exact kept.alone j flag

theorem kept_start : Kept a {} := by
  have none (name : Str) (copy : Nat) : ¬ IsCopy {} name copy := by
    rintro (cache | ⟨i, open_, -⟩)
    · cases cache
    · cases open_
  exact ⟨rfl, fun name copy is => absurd is (none name copy), fun name copy is => absurd is (none name copy), nofun, nofun⟩

/-- A call keeps the copies of an entry the same. -/
theorem Kept.call (kept : r.now.stopped = false → Kept a r) (sound : a.container.Sound) {call : ArchiveCall}
    (valid : r.Inside a call) (sharing : r.Sharing a call) :
    (r.call a call).now.stopped = false → Kept a (r.call a call) := by
  intro after
  by_cases stopped : r.now.stopped = true
  · rw [ArchiveRun.call, if_pos stopped, stopped] at after
    cases after
  · have going : r.now.stopped = false := by simpa using stopped
    cases call with
    | seekPath i path room => exact (kept going).seekPath going sound sharing after
    | read i count room => exact (kept going).read going sharing
    | write i buf room => exact (kept going).write going valid sharing
    | seek i pos room => exact (kept going).seek going sharing
    | close i => exact (kept going).close going

/-- In a run in which each step keeps the copies of an entry together, every read gives the bytes that were written
last, and the archived ones elsewhere. -/
theorem entry_served (a : ArchiveSetting) (sound : a.container.Sound) (calls : List ArchiveCall)
    (valid : Along (call a) (Inside a) {} calls) (sharing : Along (call a) (Sharing a) {} calls) :
    Along (call a) (Served a) {} calls := by
  refine (valid.and sharing).imp (I := fun r => r.now.stopped = false → Kept a r) ?_ ?_ fun _ => kept_start
  · exact fun r c kept both => Kept.call kept sound both.1 both.2
  · intro r c kept _
    cases c with
    | read i count room => exact fun going name open_ k inside => read_served (kept going) open_ count room inside
    | _ => exact trivial

/- Eleven files of one byte, "a" to "k". -/
def sampleArchive : ArchiveSetting where
  container :=
    { url := [], source := [], firstBytes := [], filter_count := 1, ended := true, raw := none,
      headers := fun _ => some ((List.range 11).map fun k => ⟨some [0x61 + k.toUInt8], true, 1, [0]⟩) }
  order := id

theorem sampleArchive_sound : sampleArchive.container.Sound where
  few := by rintro hs ⟨⟩; decide
  sizes := by rintro hs ⟨⟩; decide
  later := by rintro h hs ⟨⟩; decide
  again := fun _ _ all _ => all
  trailer := nofun
  whole := nofun

/- A byte is written to "a", which another stream reads. -/
def sharedCalls : List ArchiveCall :=
  [.seekPath 0 [0x61] .ram, .write 0 [1] .ram, .seekPath 1 [0x61] .ram, .read 1 1 .ram]

theorem entry_shared : Along (call sampleArchive) (Served sampleArchive) {} sharedCalls := by
  refine entry_served sampleArchive sampleArchive_sound sharedCalls ⟨trivial, ⟨[0x61], ?_, ?_⟩, trivial, trivial, trivial⟩ ?_
  · decide
  · decide
  · refine ⟨.inr (.inr fun e _ => .inr ⟨rfl, .inr fun k => rfl⟩), ?_, .inl ?_, .inl ?_, trivial⟩
    · rintro name copy open_ (cache | ⟨j, open', held⟩)
      · have same : name = [0x61] := by
          have first : (ArchiveRun.call sampleArchive {} (.seekPath 0 [0x61] .ram)).opened 0 = some [0x61] := by decide
          exact Option.some.inj (open_.symm.trans first)
        rw [same] at cache
        exact (by decide : _ = (ArchiveRun.call sampleArchive {} (.seekPath 0 [0x61] .ram)).cached [0x61]).trans cache
      · by_cases here : j = 0
        · rw [here] at held
          exact held
        · have none : (ArchiveRun.call sampleArchive {} (.seekPath 0 [0x61] .ram)).opened j = none := by
            simp [ArchiveRun.call, Function.update_of_ne here]
          rw [none] at open'
          cases open'
    · decide
    · decide

/- A byte is written to "a", ten other entries are extracted, and "a" is sought again. -/
def evictingCalls : List ArchiveCall :=
  [.seekPath 0 [0x61] .ram, .write 0 [1] .ram] ++
    (List.range 10).map (fun k => .seekPath (k + 1) [0x62 + k.toUInt8] .ram) ++ [.seekPath 11 [0x61] .ram]

/-- The byte that was written to "a" is lost. -/
theorem entry_evicted : ¬ ∀ (a : ArchiveSetting) (calls : List ArchiveCall), a.container.Sound →
    Along (call a) (Inside a) {} calls → Along (call a) (Served a) {} calls := by
  intro all
  have valid : Along (call sampleArchive) (Inside sampleArchive) {} (evictingCalls ++ [.read 11 1 .ram]) :=
    ⟨trivial, ⟨[0x61], by decide, by decide⟩, trivial, trivial, trivial, trivial, trivial, trivial, trivial,
      trivial, trivial, trivial, trivial, trivial, trivial⟩
  have served := (all sampleArchive _ sampleArchive_sound valid).append_right
  have read := served.1 (by decide +kernel) [0x61] (by decide) 0 (by decide)
  exact absurd read (by decide)

end ArchiveRun

end Meatloaf
