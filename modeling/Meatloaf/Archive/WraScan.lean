import Mathlib.Data.List.Pairwise
import Mathlib.Data.List.Sort
import Meatloaf.Archive.Wra

/-! The entries that the scan of a Wraptor archive finds: the scan sees every place of the signature
once and in order, and of two entries whose data begins at one place the first has no data. -/
namespace Meatloaf.Archive.WRAEntry

open Lib

variable {container : Str} {hit next : Nat} {e : WRAEntry}

/- What the scan has behind a chunk. -/
structure Scanned (container : Str) (s : Scan) : Prop where
  inside : s.pos ≤ container.length
  base : s.base = s.pos - 3
  buf : s.buf = (container.take s.pos).drop (s.pos - 3)
  hits : s.hits = (List.range (s.pos - 3)).filter (signed container)

theorem scanned_start (container : Str) : Scanned container {} := ⟨Nat.zero_le _, rfl, rfl, rfl⟩

/- The bytes of a piece of the container. -/
theorem signed_piece {upto first i : Nat} (fits : first + i + 4 ≤ upto) :
    signed ((container.take upto).drop first) i = signed container (first + i) := by
  have enough : 4 ≤ upto - first - i := by omega
  simp only [signed, List.drop_drop, List.drop_take, List.take_take, Nat.min_eq_left enough]

/-- The next chunk. -/
theorem Scanned.chunk {s : Scan} (scanned : Scanned container s) (more : s.pos < container.length) :
    ∃ t, WRAEntry.chunk container s = some t ∧ Scanned container t ∧ s.pos < t.pos := by
  obtain ⟨inside, base, buf, hits⟩ := scanned
  obtain ⟨want, size⟩ : ∃ want, want = min (container.length - s.pos) WRA_SCAN_CHUNK := ⟨_, rfl⟩
  have positive : 0 < want := by
    rw [size, WRA_SCAN_CHUNK]
    omega
  have fits : s.pos + want ≤ container.length := by omega
  have joined : s.buf ++ (container.drop s.pos).take want = (container.take (s.pos + want)).drop (s.pos - 3) := by
    have short : s.pos - 3 ≤ (container.take s.pos).length := by
      rw [List.length_take]
      omega
    rw [buf, List.take_add, List.drop_append_of_le_length short]
  have length : (s.buf ++ (container.drop s.pos).take want).length = s.pos + want - (s.pos - 3) := by
    rw [joined, List.length_drop, List.length_take, Nat.min_eq_left fits]
  have read : wra_read_at container s.pos want = some ((container.drop s.pos).take want) := if_pos fits
  simp only [WRAEntry.chunk, if_pos more, ← size, read, Option.map_some, length]
  refine ⟨_, rfl, ⟨fits, ?_, ?_, ?_⟩, by dsimp only; omega⟩
  · dsimp only
    split <;> omega
  · dsimp only
    rw [joined, List.drop_drop]
    congr 1
    split <;> omega
  · have found : ((List.range (s.pos + want - (s.pos - 3) - 3)).filter (signed (s.buf ++ (container.drop s.pos).take want))) =
        (List.range (s.pos + want - (s.pos - 3) - 3)).filter (signed container ∘ (s.pos - 3 + ·)) := by
      apply List.filter_congr
      intro i below
      rw [List.mem_range] at below
      rw [joined]
      exact signed_piece (by omega)
    have range : s.pos + want - 3 = s.pos - 3 + (s.pos + want - (s.pos - 3) - 3) := by omega
    dsimp only
    rw [found, hits, base, range, List.range_add, List.filter_append, List.filter_map]

/- The places of the signature. -/
def places (container : Str) : List Nat := (List.range (container.length - 3)).filter (signed container)

theorem mem_places {offset : Nat} : offset ∈ places container ↔ signed container offset = true := by
  rw [places, List.mem_filter, List.mem_range, and_iff_right_iff_imp]
  intro here
  have four := congrArg List.length (of_decide_eq_true here)
  rw [List.length_take, List.length_drop] at four
  have length : WRA_SIGNATURE.length = 4 := rfl
  omega

theorem places_rising (container : Str) : (places container).Pairwise (· < ·) := List.pairwise_lt_range.filter _

theorem Scanned.taken {s t : Scan} (scanned : Scanned container s) (read : WRAEntry.chunk container s = some t) :
    Scanned container t ∧ container.length - t.pos < container.length - s.pos := by
  have more : s.pos < container.length := by
    by_contra finished
    simp [WRAEntry.chunk, finished] at read
  obtain ⟨u, same, kept, further⟩ := scanned.chunk more
  rw [read, Option.some.injEq] at same
  subst same
  exact ⟨kept, by omega⟩

/-- When the scan ends it has all of them. -/
theorem Scanned.ended {s : Scan} (scanned : Scanned container s) (last : WRAEntry.chunk container s = none) :
    s.hits = places container := by
  have all : s.pos = container.length := by
    refine Nat.le_antisymm scanned.inside (Nat.le_of_not_lt fun more => ?_)
    obtain ⟨t, taken, -⟩ := scanned.chunk more
    rw [taken] at last
    cases last
  rw [scanned.hits, all, places]

theorem loadHits_places {fuel : Nat} {hits : List Nat} (built : loadHits fuel container = some hits) :
    hits = places container ∧ 8 ≤ container.length := by
  rw [loadHits, Option.ite_none_left_eq_some, Option.map_eq_some_iff] at built
  obtain ⟨large, s, left, rfl⟩ := built
  obtain ⟨scanned, last⟩ := loop_keeps (fun s t scanned next => (Scanned.taken scanned next).1)
    (scanned_start container) left
  exact ⟨scanned.ended last, Nat.le_of_not_lt large⟩

theorem loadHits_built (large : 8 ≤ container.length) :
    loadHits (container.length + 1) container = some (places container) := by
  have enough : container.length - ({} : Scan).pos < container.length + 1 := Nat.lt_succ_of_le (Nat.sub_le _ _)
  have ends := loop_ends (fun s => container.length - s.pos) (fun s t => Scanned.taken) (scanned_start container) enough
  obtain ⟨s, left⟩ := Option.isSome_iff_exists.mp ends
  have built : loadHits (container.length + 1) container = some s.hits := by
    have scanned : ¬ container.length < WRA_SIGNATURE.length + 4 := Nat.not_lt.mpr large
    rw [loadHits, if_neg scanned, left]
    rfl
  rw [built, (loadHits_places built).1]

/-- `loadEntries` builds a list for every container of eight bytes or more, and no other one than the rising list of
the places where the signature is. -/
theorem loadHits_exact (container : Str) (hits : List Nat) :
    (∃ fuel, loadHits fuel container = some hits) ↔
      8 ≤ container.length ∧ hits.Pairwise (· < ·) ∧
        ∀ offset, offset ∈ hits ↔ (container.drop offset).take 4 = [0xFF, 0x42, 0x4C, 0xFF] := by
  have place (offset : Nat) : offset ∈ places container ↔ (container.drop offset).take 4 = [0xFF, 0x42, 0x4C, 0xFF] :=
    mem_places.trans decide_eq_true_iff
  constructor
  · rintro ⟨fuel, built⟩
    obtain ⟨rfl, large⟩ := loadHits_places built
    exact ⟨large, places_rising container, place⟩
  · rintro ⟨large, rising, listed⟩
    have same : hits = places container :=
      rising.eq_of_mem_iff (places_rising container) fun offset => (listed offset).trans (place offset).symm
    exact ⟨_, same ▸ loadHits_built large⟩

theorem validate_spec (valid : validate container hit = some e) :
    e.sig_offset = hit ∧ hit < e.data_offset ∧ e.data_offset ≤ hit + 40 ∧ e.data_offset ≤ container.length := by
  simp only [validate] at valid
  split at valid
  · cases valid
  · obtain ⟨head, -, valid⟩ := Option.bind_eq_some_iff.mp valid
    split at valid
    · cases valid
    · rename_i named
      split at valid
      · cases valid
      · split at valid
        · cases valid
        · cases valid
          dsimp only
          rw [WRA_MAX_NAME] at named
          omega

@[simp] theorem span_data_offset : (span container next e).data_offset = e.data_offset := by
  simp only [span]
  split
  · rfl
  · split <;> rfl

/-- An entry has no data, or its data ends two bytes before `next`. -/
theorem span_data_end (container : Str) (before : e.sig_offset < next) (header : e.data_offset ≤ e.sig_offset + 40)
    (start : e.sig_offset < e.data_offset) (small : next < 2 ^ 32) :
    (span container next e).data_end = e.data_offset ∨ (span container next e).data_end = next - 2 := by
  simp only [span]
  split
  · exact .inl rfl
  · rename_i long
    have two : 2 ≤ next := by omega
    have data_end : (next + 2 ^ 32 - 2) % 2 ^ 32 = next - 2 := by omega
    rw [data_end]
    split <;> exact .inr rfl

/- What holds of the entries before they have their spans. -/
structure Found (container : Str) (es : List WRAEntry) : Prop where
  rising : es.Pairwise fun e f => e.sig_offset < f.sig_offset
  start : ∀ e ∈ es, e.sig_offset < e.data_offset
  header : ∀ e ∈ es, e.data_offset ≤ e.sig_offset + 40
  inside : ∀ e ∈ es, e.data_offset ≤ container.length

theorem Found.tail {es : List WRAEntry} (found : Found container (e :: es)) : Found container es where
  rising := (List.pairwise_cons.mp found.rising).2
  start f member := found.start f (List.mem_cons_of_mem _ member)
  header f member := found.header f (List.mem_cons_of_mem _ member)
  inside f member := found.inside f (List.mem_cons_of_mem _ member)

theorem found_places (container : Str) : Found container ((places container).filterMap (validate container)) where
  rising := by
    refine List.Pairwise.filterMap _ ?_ (places_rising container)
    intro i j below e first f second
    rw [(validate_spec first).1, (validate_spec second).1]
    exact below
  start e member := by
    obtain ⟨hit, -, valid⟩ := List.mem_filterMap.mp member
    have := validate_spec valid
    omega
  header e member := by
    obtain ⟨hit, -, valid⟩ := List.mem_filterMap.mp member
    have := validate_spec valid
    omega
  inside e member := by
    obtain ⟨hit, -, valid⟩ := List.mem_filterMap.mp member
    exact (validate_spec valid).2.2.2

/- An entry with its span is one of the entries without. -/
theorem spans_mem {es : List WRAEntry} (member : e ∈ spans container es) :
    ∃ f ∈ es, e.data_offset = f.data_offset := by
  induction es with
  | nil => cases member
  | cons f es ih =>
    cases es with
    | nil =>
      obtain rfl := List.mem_singleton.mp member
      exact ⟨f, List.mem_singleton_self f, span_data_offset⟩
    | cons g es =>
      rcases List.mem_cons.mp member with rfl | member
      · exact ⟨f, List.mem_cons_self, span_data_offset⟩
      · obtain ⟨h, inside, same⟩ := ih member
        exact ⟨h, List.mem_cons_of_mem _ inside, same⟩

/-- The first of two entries that begin at one place has no data. -/
theorem spans_apart {es : List WRAEntry} (found : Found container es) (small : container.length < 2 ^ 32) :
    (spans container es).Pairwise fun e f => e.data_offset = f.data_offset → e.data_end ≤ e.data_offset := by
  induction es with
  | nil => exact List.Pairwise.nil
  | cons e es ih =>
    cases es with
    | nil => exact List.pairwise_singleton _ _
    | cons f es =>
      refine List.pairwise_cons.mpr ⟨fun g member same => ?_, ih found.tail⟩
      obtain ⟨h, inside, data⟩ := spans_mem member
      rw [span_data_offset] at same ⊢
      have order := List.pairwise_cons.mp found.rising
      have next := order.1 f List.mem_cons_self
      have later : f.sig_offset ≤ h.sig_offset := by
        rcases List.mem_cons.mp inside with rfl | inside
        · exact Nat.le_refl _
        · exact Nat.le_of_lt ((List.pairwise_cons.mp order.2).1 h inside)
      have behind := found.start h (List.mem_cons_of_mem _ inside)
      have within := found.inside e List.mem_cons_self
      rcases span_data_end container next (found.header e List.mem_cons_self) (found.start e List.mem_cons_self)
        (by omega) with ended | ended
      · exact Nat.le_of_eq ended
      · omega

/-- The data of an entry lies in the archive. -/
theorem spans_inside {es : List WRAEntry} (found : Found container es) (small : container.length < 2 ^ 32)
    (member : e ∈ spans container es) : e.data_end ≤ container.length := by
  induction es with
  | nil => cases member
  | cons f es ih =>
    have header := found.header f List.mem_cons_self
    have start := found.start f List.mem_cons_self
    have within := found.inside f List.mem_cons_self
    cases es with
    | nil =>
      obtain rfl := List.mem_singleton.mp member
      have next : f.sig_offset < container.length := by omega
      rcases span_data_end container next header start small with ended | ended <;> omega
    | cons g es =>
      rcases List.mem_cons.mp member with rfl | member
      · have next := (List.pairwise_cons.mp found.rising).1 g List.mem_cons_self
        have behind := found.start g (List.mem_cons_of_mem _ List.mem_cons_self)
        have below := found.inside g (List.mem_cons_of_mem _ List.mem_cons_self)
        rcases span_data_end container next header start (by omega) with ended | ended <;> omega
      · exact ih found.tail member

/- The entries are found all, or the archive is too small. -/
theorem wraEntries_eq (container : Str) :
    wraEntries container = [] ∨ wraEntries container = spans container ((places container).filterMap (validate container)) := by
  rw [wraEntries]
  cases built : loadHits (container.length + 1) container with
  | none => exact .inl rfl
  | some hits =>
    obtain ⟨rfl, -⟩ := loadHits_places built
    exact .inr rfl

theorem mem_wraEntries (member : e ∈ wraEntries container) :
    e ∈ spans container ((places container).filterMap (validate container)) := by
  rcases wraEntries_eq container with none | all
  · rw [none] at member
    cases member
  · exact all ▸ member

/-- Two entries with data that begin at one place are one. -/
theorem wraEntries_apart (small : container.length < 2 ^ 32) {e f : WRAEntry} (first : e ∈ wraEntries container)
    (second : f ∈ wraEntries container) (data : e.data_offset < e.data_end) (data' : f.data_offset < f.data_end)
    (same : e.data_offset = f.data_offset) : e = f := by
  have apart := List.pairwise_iff_get.mp (spans_apart (found_places container) small)
  obtain ⟨i, rfl⟩ := List.get_of_mem (mem_wraEntries first)
  obtain ⟨j, rfl⟩ := List.get_of_mem (mem_wraEntries second)
  rcases Nat.lt_trichotomy i.val j.val with before | here | behind
  · exact absurd data (Nat.not_lt.mpr (apart i j before same))
  · rw [Fin.ext here]
  · exact absurd data' (Nat.not_lt.mpr (apart j i behind same.symm))

theorem wraEntries_inside (small : container.length < 2 ^ 32) (member : e ∈ wraEntries container) :
    e.data_end ≤ container.length :=
  spans_inside (found_places container) small (mem_wraEntries member)

theorem wraEntries_start (member : e ∈ wraEntries container) : e.data_offset ≤ container.length := by
  obtain ⟨f, inside, same⟩ := spans_mem (mem_wraEntries member)
  rw [same]
  exact (found_places container).inside f inside

end Meatloaf.Archive.WRAEntry
