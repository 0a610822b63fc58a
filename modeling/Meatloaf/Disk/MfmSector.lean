import Meatloaf.Disk.MfmTrack

/-! Reading a sector back from a rotated track. The buffer is a loop to some of the functions and a line to others, so
that it matters where its end falls. -/
namespace Meatloaf.Disk.Mfm

open Lib

/- A list of items lies at item `m` of a loop. -/
def Lies (items w : List Item) (m : Nat) : Prop := ∀ r it, w[r]? = some it → item items (m + r) = it

/- The length of a list of sectors in items. -/
def span (sectors : List Sector) : Nat := (track sectors).length

variable {items v w : List Item} {bytes bits : List UInt8} {m o p : Nat}

theorem Lies.left (lies : Lies items (v ++ w) m) : Lies items v m := fun r it here =>
  lies r it (List.getElem?_append_left (List.getElem?_eq_some_iff.mp here).1 ▸ here)

theorem Lies.right (lies : Lies items (v ++ w) m) : Lies items w (m + v.length) := by
  intro r it here
  have behind : (v ++ w)[v.length + r]? = some it := by
    rw [List.getElem?_append_right (by omega), Nat.add_sub_cancel_left, here]
  rw [Nat.add_assoc]
  exact lies _ it behind

theorem Lies.loop (t : Nat) : Lies items items (t * items.length) := by
  intro r it here
  obtain ⟨inside, same⟩ := List.getElem?_eq_some_iff.mp here
  rw [item, Nat.mul_comm, Nat.mul_add_mod, Nat.mod_eq_of_lt inside, List.getD_eq_getElem _ _ inside, same]

theorem Lies.syncs (lies : Lies items syncs m) : ∀ c < 3, item items (m + c) = .sync := by
  intro c inside
  exact lies c .sync (by rw [Mfm.syncs, List.getElem?_replicate, if_pos inside])

theorem Lies.byte (lies : Lies items (bytes.map .byte) m) :
    ∀ i, i < bytes.length → item items (m + i) = .byte (bytes.getD i 0) := by
  intro i inside
  exact lies i _ (by simp [inside])

theorem Ring.reads (ring : Ring bits items o) (sits : Sits items o p m) (lies : Lies items (bytes.map .byte) m) :
    readBytes bits p bytes.length = bytes := by
  rw [ring.readBytes_items sits]
  apply List.ext_getElem (by simp)
  intro i inside within
  rw [List.getElem_map, List.getElem_range, lies.byte i within]
  simp [Item.value, within]

namespace Sector

variable (x : Sector)

theorem header_length : x.header.length = 7 := rfl

theorem body_length : x.body.length = x.data.length + 3 := by
  simp [body, crcBytes]

theorem items_length : x.items.length = 16 + x.gap.length + x.data.length + x.after.length := by
  simp [items, syncs, header_length, body_length]
  omega

/- Where the syncs of a sector are. -/
theorem items_sync (c : Nat) (here : x.items[c]? = some .sync) :
    c < 3 ∨ ∃ d < 3, c = 10 + x.gap.length + d := by
  have plain (bs : List UInt8) (i : Nat) : (bs.map Item.byte)[i]? ≠ some .sync := by simp
  have three : syncs.length = 3 := rfl
  have middle : ((x.header ++ x.gap).map Item.byte).length = 7 + x.gap.length := by simp [header_length]
  by_contra other
  rw [items, List.append_assoc, List.getElem?_append_right (by omega), three] at here
  by_cases front : c - 3 < 7 + x.gap.length
  · rw [List.getElem?_append_left (by omega)] at here
    exact plain _ _ here
  · rw [List.getElem?_append_right (by omega), middle] at here
    by_cases second : c - 3 - (7 + x.gap.length) < 3
    · exact other (.inr ⟨c - 3 - (7 + x.gap.length), second, by omega⟩)
    · rw [List.getElem?_append_right (by omega), three] at here
      exact plain _ _ here

end Sector

/- A sector lies at item `m`. -/
structure Lays (items : List Item) (x : Sector) (m : Nat) : Prop where
  syncs : ∀ c < 3, item items (m + c) = .sync
  header : Lies items (x.header.map .byte) (m + 3)
  gap : Lies items (x.gap.map .byte) (m + 10)
  data_syncs : ∀ c < 3, item items (m + 10 + x.gap.length + c) = .sync
  body : Lies items (x.body.map .byte) (m + 13 + x.gap.length)

theorem Lies.lays {x : Sector} (lies : Lies items x.items m) : Lays items x m := by
  have three : Mfm.syncs.length = 3 := rfl
  rw [Sector.items, List.append_assoc, List.map_append, List.map_append] at lies
  have middle := lies.right
  have behind := middle.right
  have body := behind.right
  simp only [three, List.length_append, List.length_map, Sector.header_length] at middle behind body
  have gap := middle.left.right
  simp only [List.length_map, Sector.header_length] at gap
  have first : m + 3 + (7 + x.gap.length) = m + 10 + x.gap.length := by omega
  have second : m + 3 + (7 + x.gap.length) + 3 = m + 13 + x.gap.length := by omega
  exact ⟨lies.left.syncs, middle.left.left, gap, first ▸ behind.left.syncs, second ▸ body.left⟩

/- The sectors of a list lie one behind the other. -/
theorem Lies.sector {l l' : List Sector} {x : Sector} (lies : Lies items (track (l ++ x :: l')) m) :
    Lies items x.items (m + span l) := by
  rw [track, List.flatMap_append, List.flatMap_cons] at lies
  exact lies.right.left

/- A sync of a list of sectors is one of a sector. -/
theorem sync_of_sector (sectors : List Sector) (r : Nat) (here : (track sectors)[r]? = some .sync) :
    ∃ l x l' c, sectors = l ++ x :: l' ∧ r = span l + c ∧ x.items[c]? = some .sync := by
  induction sectors generalizing r with
  | nil => simp [track] at here
  | cons y rest ih =>
    rw [track, List.flatMap_cons] at here
    by_cases inside : r < y.items.length
    · rw [List.getElem?_append_left inside] at here
      exact ⟨[], y, rest, r, rfl, by simp [span, track], here⟩
    · rw [List.getElem?_append_right (by omega)] at here
      obtain ⟨l, x, l', c, rfl, place, sync⟩ := ih _ here
      refine ⟨y :: l, x, l', c, rfl, ?_, sync⟩
      simp only [span, track, List.flatMap_cons, List.length_append] at place ⊢
      omega

/- A run of three syncs at item `m`: that of a header, or that of a data mark. -/
inductive Run (sectors : List Sector) (items : List Item) (m : Nat) : Prop
  | header (l l' : List Sector) (x : Sector) (t : Nat) (listed : sectors = l ++ x :: l')
      (place : m = t * items.length + span l) (lays : Lays items x m)
  | data (x : Sector) (syncs : ∀ c < 3, item items (m + c) = .sync) (mark : item items (m + 3) = .byte x.mark)

theorem Lays.mark_id {x : Sector} (lays : Lays items x m) : item items (m + 3) = .byte MARK_ID :=
  lays.header.byte 0 (by rw [x.header_length]; decide)

theorem Lays.mark {x : Sector} (lays : Lays items x m) : item items (m + 10 + x.gap.length + 3) = .byte x.mark := by
  have place : m + 10 + x.gap.length + 3 = m + 13 + x.gap.length + 0 := by omega
  rw [place, lays.body.byte 0 (by simp [Sector.body])]
  rfl

variable {sectors : List Sector}

/- Every sync of a track is in a run. -/
theorem run_of_sync (m : Nat) (nonempty : 0 < (track sectors).length)
    (here : item (track sectors) m = .sync) :
    ∃ ρ c, c < 3 ∧ m = ρ + c ∧ Run sectors (track sectors) ρ := by
  have inside := Nat.mod_lt m nonempty
  have stored : (track sectors)[m % (track sectors).length]? = some .sync := by
    rw [item, List.getD_eq_getElem _ _ inside] at here
    rw [List.getElem?_eq_getElem inside, here]
  obtain ⟨l, x, l', c, listed, place, sync⟩ := sync_of_sector sectors _ stored
  have whole := Nat.div_add_mod' m (track sectors).length
  have lays : Lays (track sectors) x (m / (track sectors).length * (track sectors).length + span l) := by
    have loop : Lies (track sectors) (track sectors) _ := Lies.loop (m / (track sectors).length)
    rw [listed] at loop ⊢
    exact loop.sector.lays
  rcases x.items_sync c sync with front | ⟨d, less, behind⟩
  · exact ⟨_, c, front, by omega, .header l l' x _ listed rfl lays⟩
  · exact ⟨_, d, less, by omega, .data x lays.data_syncs lays.mark⟩

theorem Run.syncs (run : Run sectors items m) : ∀ c < 3, item items (m + c) = .sync := by
  cases run with
  | header l l' x t listed place lays => exact lays.syncs
  | data x syncs mark => exact syncs

/- The mark behind a run. -/
theorem Run.mark (run : Run sectors items m) : ∃ b : UInt8, item items (m + 3) = .byte b ∧ b.toNat.testBit 7 = true := by
  cases run with
  | header l l' x t listed place lays => exact ⟨MARK_ID, lays.mark_id, by decide⟩
  | data x syncs mark =>
    have top : ∀ deleted : Bool, (if deleted then MARK_DELETED_DATA else MARK_DATA).toNat.testBit 7 = true := by decide
    exact ⟨x.mark, mark, top x.deleted⟩

theorem marked_sectors (nonempty : 0 < (track sectors).length) : Marked (track sectors) := by
  intro m here
  obtain ⟨ρ, c, less, rfl, run⟩ := run_of_sync m nonempty here
  by_cases last : c = 2
  · obtain ⟨b, mark, top⟩ := run.mark
    rw [last, Nat.add_assoc, mark]
    exact top
  · rw [Nat.add_assoc, run.syncs (c + 1) (by omega)]
    decide

/- A rotated track of sectors. -/
theorem ring_encode (nonempty : 0 < (track sectors).length) (k : Nat) :
    Ring ((encode sectors).rotate k) (track sectors) (8 * k) :=
  ⟨plays_pack k, cells_pack k, nonempty, marked_sectors nonempty⟩

/- Where item `m` of `n` starts in a buffer that was rotated by `k` bytes. -/
def place (n k m : Nat) : Nat := (m * 16 + (n * 16 - 8 * k % (n * 16))) % (n * 16)

theorem place_lt {n : Nat} (some_ : 0 < n) (k m : Nat) : place n k m < n * 16 := Nat.mod_lt _ (by omega)

theorem place_spec {n : Nat} (k m : Nat) (inside : m < n) : ∃ t, place n k m + 8 * k = (m + t * n) * 16 := by
  have rest := Nat.mod_lt (8 * k) (show 0 < n * 16 by omega)
  have whole := Nat.mod_add_div' (8 * k) (n * 16)
  have turns : 8 * k / (n * 16) * (n * 16) = 8 * k / (n * 16) * n * 16 := by ring
  have more : (8 * k / (n * 16) + 1) * n = 8 * k / (n * 16) * n + n := by ring
  rw [place]
  by_cases wraps : m * 16 + (n * 16 - 8 * k % (n * 16)) < n * 16
  · refine ⟨8 * k / (n * 16) + 1, ?_⟩
    rw [Nat.mod_eq_of_lt wraps, more]
    omega
  · refine ⟨8 * k / (n * 16), ?_⟩
    rw [Nat.mod_eq_sub_mod (by omega), Nat.mod_eq_of_lt (by omega)]
    omega

/- One cell of the buffer stands for a cell of the loop. -/
theorem turn_inj {n q t u : Nat} (left : p < n) (right : q < n) (same : p + t * n = q + u * n) : p = q := by
  have reduced := congrArg (· % n) same
  simp only [Nat.add_mul_mod_self_right] at reduced
  rwa [Nat.mod_eq_of_lt left, Nat.mod_eq_of_lt right] at reduced

/- A cell of the buffer at which item `m` starts is its place. -/
theorem place_unique {k u : Nat} (inside : p < items.length * 16) (listed : m < items.length)
    (sits : Sits items (8 * k) p (m + u * items.length)) : p = place items.length k m := by
  obtain ⟨t, spot⟩ := sits
  obtain ⟨v, spec⟩ := place_spec k m listed
  refine turn_inj inside (place_lt (by omega) k m) (t := t + v) (u := u) ?_
  have left : (t + v) * (items.length * 16) = t * (items.length * 16) + v * items.length * 16 := by ring
  have right : u * (items.length * 16) = u * items.length * 16 := by ring
  omega

/- The end of the buffer does not come between the first sync of the run at item `m` and the mark behind the run. -/
def Unbroken (n k m : Nat) : Prop := place n k m + 16 < n * 16 → place n k m + 48 < n * 16

instance (n k m : Nat) : Decidable (Unbroken n k m) := inferInstanceAs (Decidable (_ → _))

/- The cell behind the first sync of a run. -/
theorem behind_place {q k u : Nat} (inside : q < items.length * 16) (listed : m < items.length)
    (long : 1 < items.length) (sits : Sits items (8 * k) q (m + u * items.length + 1)) :
    q = if place items.length k m + 16 < items.length * 16 then place items.length k m + 16
      else place items.length k m + 16 - items.length * 16 := by
  have start := place_lt (show 0 < items.length by omega) k m
  obtain ⟨t, spot⟩ := sits
  obtain ⟨v, spec⟩ := place_spec k m listed
  have left : (t + v) * (items.length * 16) = t * (items.length * 16) + v * items.length * 16 := by ring
  have right : u * (items.length * 16) = u * items.length * 16 := by ring
  have more : (u + 1) * (items.length * 16) = u * items.length * 16 + items.length * 16 := by ring
  split
  next room => exact turn_inj inside room (t := t + v) (u := u) (by omega)
  next exceeds => exact turn_inj inside (by omega) (t := t + v) (u := u + 1) (by omega)

theorem unbroken_iff {q k u : Nat} (inside : q < items.length * 16) (listed : m < items.length)
    (long : 3 ≤ items.length) (sits : Sits items (8 * k) q (m + u * items.length + 1)) :
    Unbroken items.length k m ↔ q + 32 < items.length * 16 := by
  have start := place_lt (show 0 < items.length by omega) k m
  have behind := behind_place inside listed (by omega) sits
  rw [Unbroken]
  split at behind
  next room => exact ⟨fun unbroken => by have := unbroken room; omega, fun room _ => by omega⟩
  next exceeds => exact ⟨fun _ => by omega, fun _ room => absurd room exceeds⟩

theorem pair_crcBytes (crc : UInt16) : pair (crc >>> 8).toUInt8 crc.toUInt8 = crc := by
  have small := crc.toNat_lt
  have high : crc.toNat >>> 8 = crc.toNat / 256 := Nat.shiftRight_eq_div_pow _ 8
  have low : crc.toNat % 256 < 2 ^ 8 := Nat.mod_lt _ (by decide)
  have whole : (crc.toNat / 256) <<< 8 + crc.toNat % 256 = crc.toNat := by
    rw [Nat.shiftLeft_eq]
    omega
  have room : (crc.toNat / 256) <<< 8 < 65536 := by
    rw [Nat.shiftLeft_eq]
    omega
  apply UInt16.toNat_inj.mp
  have joined := (Nat.shiftLeft_add_eq_or_of_lt low (crc.toNat / 256)).symm.trans whole
  simpa [pair, high, Nat.mod_eq_of_lt (show crc.toNat / 256 < 256 by omega), Nat.mod_eq_of_lt room] using joined

theorem Sector.header_checked (x : Sector) :
    crc16 ([0xa1, 0xa1, 0xa1] ++ x.header.take 5) 0xffff = pair (x.header.getD 5 0) (x.header.getD 6 0) :=
  (pair_crcBytes _).symm

theorem crc16_append (a b : List UInt8) (crc : UInt16) : crc16 (a ++ b) crc = crc16 b (crc16 a crc) :=
  List.foldl_append

theorem Sector.body_checked (x : Sector) :
    (crc16 x.data (crc16 [x.mark] (crc16 [0xa1, 0xa1, 0xa1] 0xffff)) ==
      pair ((crcBytes (crc16 ([0xa1, 0xa1, 0xa1] ++ x.mark :: x.data) 0xffff)).getD 0 0)
        ((crcBytes (crc16 ([0xa1, 0xa1, 0xa1] ++ x.mark :: x.data) 0xffff)).getD 1 0)) = true := by
  rw [← crc16_append, ← crc16_append, beq_iff_eq, List.cons_append]
  exact (pair_crcBytes _).symm

section Run

variable {q : Nat} {b : UInt8} (ring : Ring bits items o) (syncs : ∀ c < 3, item items (m + c) = .sync)
  (sits : Sits items o q (m + 1))

include ring syncs sits

theorem Ring.skip_run (mark : item items (m + 3) = .byte b) (room : q + 32 < cells bits) :
    skipExtraSyncs bits (cells bits) q 1 = (q + 32, 3) := by
  have behind (i : Nat) : m + 1 + i = m + (1 + i) := by omega
  refine ring.skipExtraSyncs_run 2 sits (fun i less => behind i ▸ syncs (1 + i) (by omega)) (by omega) (.inl ?_)
    (cells bits) 1 (by omega)
  rw [behind, mark]
  exact Item.noConfusion

/- A broken run leaves a sync to be read as the mark. -/
theorem Ring.skip_broken (inside : q < cells bits) (exceeds : cells bits ≤ q + 32) :
    ∃ j < 2, skipExtraSyncs bits (cells bits) q 1 = (q + 16 * j, 1 + j) ∧ item items (m + 1 + j) = .sync := by
  have behind (i : Nat) : m + 1 + i = m + (1 + i) := by omega
  have aligned := ring.length
  have some_ := ring.nonempty
  by_cases first : cells bits ≤ q + 16
  · refine ⟨0, by decide, ?_, syncs 1 (by decide)⟩
    exact ring.skipExtraSyncs_run 0 sits (by simp) (by omega) (.inr (by omega)) (cells bits) 1 (by omega)
  · refine ⟨1, by decide, ?_, syncs 2 (by decide)⟩
    exact ring.skipExtraSyncs_run 1 sits (fun i less => behind i ▸ syncs (1 + i) (by omega)) (by omega)
      (.inr (by omega)) (cells bits) 1 (by omega)

end Run

/- What `readData` makes of the cell at which the data run's first sync ends. -/
theorem Ring.read_body {x : Sector} (ring : Ring bits items o) (lays : Lays items x m) {d : Nat}
    (sits : Sits items o d (m + 13 + x.gap.length)) :
    (readBytes bits d 1).getD 0 0 = x.mark ∧ readBytes bits (d + 16) x.data.length = x.data ∧
      readBytes bits (d + 16 + x.data.length * 16) 2 =
        crcBytes (crc16 ([0xa1, 0xa1, 0xa1] ++ x.mark :: x.data) 0xffff) := by
  have body : Lies items (([x.mark] ++ (x.data ++ crcBytes (crc16 ([0xa1, 0xa1, 0xa1] ++ x.mark :: x.data) 0xffff))).map
      .byte) (m + 13 + x.gap.length) := lays.body
  rw [List.map_append, List.map_append] at body
  have data := body.right.left
  have tail := body.right.right
  rw [List.length_map] at data tail
  rw [List.length_map] at tail
  have first := ring.reads sits body.left
  have second := ring.reads (sits.shift 1) data
  have last := ring.reads ((sits.shift 1).shift x.data.length) tail
  rw [Nat.mul_comm 16 x.data.length] at last
  exact ⟨by rw [show (1 : Nat) = [x.mark].length from rfl, first]; rfl, second, last⟩

/- Where the search for the data mark starts, and how often the loop has gone round before that. -/
theorem findSync_data (inside : p < cells bits) (limit : Nat) : ∃ start e,
    findSync bits (p + 7 * 16) limit = findSync bits start limit ∧ start < cells bits ∧
      p ≤ start + e * cells bits ∧ start + e * cells bits + (if p + 7 * 16 < cells bits then 0
        else p + 7 * 16 - cells bits) = p + 7 * 16 := by
  by_cases room : p + 7 * 16 < cells bits
  · exact ⟨p + 7 * 16, 0, rfl, room, by omega, by simp [room]⟩
  · exact ⟨0, 1, findSync_over (by omega) limit, by omega, by omega, by rw [if_neg room]; omega⟩

theorem Lays.between {x : Sector} (lays : Lays items x m) (r : Nat) (inside : r < 7 + x.gap.length) :
    item items (m + 3 + r) ≠ .sync := by
  by_cases header : r < 7
  · rw [lays.header.byte r header]
    exact Item.noConfusion
  · have place : m + 3 + r = m + 10 + (r - 7) := by omega
    rw [place, lays.gap.byte (r - 7) (by omega)]
    exact Item.noConfusion

/- `readData` delivers the data if the data mark is near enough and its run unbroken. -/
theorem Ring.readData_target {x : Sector} {k u a : Nat} (ring : Ring bits items (8 * k))
    (lays : Lays items x (a + u * items.length)) (fits : a + x.items.length ≤ items.length) (inside : p < cells bits)
    (sits : Sits items (8 * k) p (a + u * items.length + 3)) :
    readData bits p x.data.length = some (true, x.data) ↔
      (if p + 7 * 16 < cells bits then 0 else p + 7 * 16 - cells bits) + x.gap.length * 16 + 16 ≤ 100 * 16 ∧
        Unbroken items.length k (a + 10 + x.gap.length) := by
  obtain ⟨start, e, search, within, later, skipped⟩ := findSync_data inside (100 * 16)
  obtain ⟨m₀, t, place, base⟩ := sits.base
  have length := ring.length
  have whole := x.items_length
  have turns : e * cells bits = e * items.length * 16 := by
    rw [length]
    ring
  obtain ⟨M, shape⟩ : ∃ M, M + e * items.length = m₀ + 7 + x.gap.length :=
    ⟨m₀ + 7 + x.gap.length - e * items.length, by omega⟩
  have round (j r : Nat) (there : j + e * items.length = m₀ + r) :
      item items j = item items (a + u * items.length + 3 + r) := by
    have before : item items (j + e * items.length) = item items j := item_turn j e 0
    rw [base, item_turn, ← there, before]
  have sync : item items M = .sync := by
    have same : a + u * items.length + 3 + (7 + x.gap.length) = a + u * items.length + 10 + x.gap.length + 0 := by omega
    rw [round M (7 + x.gap.length) (by omega), same]
    exact lays.data_syncs 0 (by decide)
  have first : ∀ j, start + 8 * k ≤ j * 16 → j < M → item items j ≠ .sync := by
    intro j after earlier
    rw [round j (j + e * items.length - m₀) (by omega)]
    exact lays.between _ (by omega)
  rw [readData, search, ring.findSync_first within (by omega) sync first (100 * 16)]
  by_cases near : (if p + 7 * 16 < cells bits then 0 else p + 7 * 16 - cells bits) + x.gap.length * 16 + 16 ≤ 100 * 16
  · rw [if_pos (by omega)]
    generalize result : (M * 16 + 16 - 8 * k) % cells bits = d
    have room : d < cells bits := result ▸ Nat.mod_lt _ (by omega)
    have sits : Sits items (8 * k) d (a + 10 + x.gap.length + u * items.length + 1) := by
      have spot := ((ring.sits_mod (M * 16 + 16 - 8 * k) (M + 1) (by omega)).turn e).turn t
      have same : M + 1 + e * items.length + t * items.length = a + 10 + x.gap.length + u * items.length + 1 := by omega
      rwa [result, same] at spot
    have listed : a + 10 + x.gap.length < items.length := by omega
    have start_ : a + 10 + x.gap.length + u * items.length = a + u * items.length + 10 + x.gap.length := by omega
    have syncs : ∀ c < 3, item items (a + 10 + x.gap.length + u * items.length + c) = .sync := start_ ▸ lays.data_syncs
    rw [unbroken_iff (length ▸ room) listed (by omega) sits, ← length]
    simp only [near, true_and]
    by_cases unbroken : d + 32 < cells bits
    · have mark : item items (a + 10 + x.gap.length + u * items.length + 3) = .byte x.mark := start_ ▸ lays.mark
      have behind : a + 10 + x.gap.length + u * items.length + 1 + 2 = a + u * items.length + 13 + x.gap.length := by
        omega
      obtain ⟨data_mark, data, tail⟩ := ring.read_body lays (behind ▸ sits.shift 2)
      have known : ¬ (x.mark ≠ MARK_DATA ∧ x.mark ≠ MARK_DELETED_DATA) := by
        rw [Sector.mark]
        split <;> simp
      have spot : d + 16 * 2 = d + 32 := rfl
      rw [spot] at data_mark data tail
      simp only [ring.skip_run syncs sits mark unbroken, unbroken, data_mark, data, tail, x.body_checked, if_neg known]
    · obtain ⟨j, less, run, left⟩ := ring.skip_broken syncs sits room (by omega)
      have mark := ring.readBytes_one (sits.shift j)
      rw [left] at mark
      have other : Item.sync.value ≠ MARK_DATA ∧ Item.sync.value ≠ MARK_DELETED_DATA := by decide
      simp only [run, mark, if_pos other, unbroken, reduceCtorEq]
  · rw [if_neg (by omega)]
    simp [near]

/- The runs of syncs that end in `len` items from item `b` on. -/
def runs (items : List Item) (b len : Nat) : Nat :=
  (List.range' b len).countP fun m => item items m = .sync ∧ item items (m + 1) ≠ .sync

theorem runs_quiet (b d len : Nat)
    (quiet : ∀ m, b ≤ m → m < b + d → ¬ (item items m = .sync ∧ item items (m + 1) ≠ .sync)) :
    runs items b (d + len) = runs items (b + d) len := by
  have none : (List.range' b d).countP (fun m => item items m = .sync ∧ item items (m + 1) ≠ .sync) = 0 := by
    rw [List.countP_eq_zero]
    intro m inside
    obtain ⟨after, before⟩ := List.mem_range'_1.mp inside
    simpa using quiet m after before
  rw [runs, ← List.range'_append_1, List.countP_append, none, Nat.zero_add, runs]

theorem runs_end (m len : Nat) (sync : item items m = .sync) (other : item items (m + 1) ≠ .sync) :
    runs items m (len + 1) = runs items (m + 1) len + 1 := by
  rw [runs, List.range'_succ, List.countP_cons_of_pos (by simp [sync, other]), runs]

/- A run, and items behind it that are no syncs. -/
theorem runs_pass {q q' stop : Nat} {b : UInt8} (quiet : ∀ j, q ≤ j → j < m → item items j ≠ .sync)
    (rest : ∀ j, m ≤ j → j < p → item items (j + 1) = .sync) (last : item items p = .sync)
    (mark : item items (p + 1) = .byte b) (between : ∀ j, p + 1 ≤ j → j < q' → item items j ≠ .sync)
    (order : q ≤ p ∧ p + 1 ≤ q' ∧ q' ≤ stop) : runs items q (stop - q) = runs items q' (stop - q') + 1 := by
  obtain ⟨first, second, third⟩ := order
  have other : item items (p + 1) ≠ .sync := mark ▸ Item.noConfusion
  have front : stop - q = p - q + (stop - p) := by omega
  have one : stop - p = stop - (p + 1) + 1 := by omega
  have back : stop - (p + 1) = q' - (p + 1) + (stop - q') := by omega
  have start : q + (p - q) = p := by omega
  have finish : p + 1 + (q' - (p + 1)) = q' := by omega
  rw [front, runs_quiet, start, one, runs_end _ _ last other, back, runs_quiet, finish]
  · exact fun j after_ before both => between j after_ (by omega) both.1
  · intro j after_ before both
    by_cases inside : m ≤ j
    · exact both.2 (rest j inside (by omega))
    · exact quiet j after_ (by omega) both.1

section Pass

variable {cylinder head sector : UInt8} {size guard q r marks : Nat} {first : Option Nat}
  (found : findSync bits p (cells bits) = some q) (fresh : first ≠ some q)
  (run : skipExtraSyncs bits (cells bits) q 1 = (r, marks))

include found fresh run

/- A run that is not that of a header is passed over. -/
theorem scan_other (other : (readBytes bits r 1).getD 0 0 ≠ MARK_ID ∨ marks < 3) :
    scan bits cylinder head sector size (guard + 1) p first =
      scan bits cylinder head sector size guard r (some (first.getD q)) := by
  simp only [scan, found, if_neg fresh, run, if_pos other]

theorem scan_header {x : Sector} (ring : Ring bits items o) (lays : Lays items x m) (sits : Sits items o r (m + 3))
    (whole : ¬ marks < 3) :
    scan bits cylinder head sector size (guard + 1) p first =
      if (x.cylinder ≠ cylinder ∨ x.head ≠ head ∨ x.sector ≠ sector) then
        scan bits cylinder head sector size guard (r + 7 * 16) (some (first.getD q))
      else readData bits r size := by
  have id : readBytes bits r 7 = x.header := ring.reads sits lays.header
  have mark : (readBytes bits r 1).getD 0 0 = MARK_ID := by
    rw [ring.readBytes_one sits, lays.mark_id]
    rfl
  have header : ¬ ((readBytes bits r 1).getD 0 0 ≠ MARK_ID ∨ marks < 3) := fun either =>
    either.elim (fun other => other mark) whole
  simp only [scan, found, if_neg fresh, run, if_neg header, id, x.header_checked, ne_eq, not_true_eq_false, if_false]
  rfl

end Pass

theorem span_split (before after : List Sector) (x : Sector) :
    span (before ++ x :: after) = span before + x.items.length + span after := by
  simp [span, track]
  omega

/- An id tells which sector of the list it is. -/
theorem listed_once {before after l l' : List Sector} {x y : Sector}
    (distinct : ((before ++ x :: after).map Sector.id).Nodup) (listed : before ++ x :: after = l ++ y :: l')
    (same : y.id = x.id) : l = before := by
  have here : ((before ++ x :: after).map Sector.id)[before.length]? = some x.id := by simp
  have there : ((before ++ x :: after).map Sector.id)[l.length]? = some y.id := by simp [listed]
  have lengths : before.length = l.length :=
    (List.getElem?_inj (by simp) distinct).mp (by rw [here, there, same])
  exact (List.append_inj_left listed lengths).symm

theorem Sector.mark_ne_id (x : Sector) : x.mark ≠ MARK_ID := by
  rw [mark]
  split <;> decide

theorem first_sync {q stop : Nat} (order : q ≤ stop) (last : item items stop = .sync) :
    ∃ m, q ≤ m ∧ m ≤ stop ∧ item items m = .sync ∧ ∀ j, q ≤ j → j < m → item items j ≠ .sync := by
  have some_ : ∃ m, q ≤ m ∧ item items m = .sync := ⟨stop, order, last⟩
  obtain ⟨since, sync⟩ := Nat.find_spec some_
  exact ⟨Nat.find some_, since, Nat.find_min' some_ ⟨order, last⟩, sync, fun j later less same =>
    Nat.find_min some_ less ⟨later, same⟩⟩

namespace Run

variable {ρ c : Nat} (run : Run sectors items ρ) (less : c < 3)

include run less

/- A run is over before the next one starts. -/
theorem ends {stop : Nat} (syncs : ∀ c < 3, item items (stop + c) = .sync) (before : ρ + c < stop) : ρ + 3 ≤ stop := by
  obtain ⟨b, mark, -⟩ := run.mark
  by_contra exceeds
  have same : ρ + 3 = stop + (ρ + 3 - stop) := by omega
  rw [same, syncs _ (by omega)] at mark
  cases mark

/- A search that meets a run at its sync `c` takes the rest of it, if the end of the buffer is behind. -/
theorem skip (ring : Ring bits items o) {s : Nat} (spot : s + o = (ρ + c + 1) * 16)
    (inside : s + 16 * (2 - c) < cells bits) :
    skipExtraSyncs bits (cells bits) s 1 = (s + 16 * (2 - c), 1 + (2 - c)) := by
  obtain ⟨b, mark, -⟩ := run.mark
  refine ring.skipExtraSyncs_run (m := ρ + c + 1) (2 - c) ⟨0, by omega⟩ (fun i behind => ?_) inside (.inl ?_)
    (cells bits) 1 (by omega)
  · have there : ρ + c + 1 + i = ρ + (c + 1 + i) := by omega
    exact there ▸ run.syncs (c + 1 + i) (by omega)
  · have there : ρ + c + 1 + (2 - c) = ρ + 3 := by omega
    rw [there, mark]
    exact Item.noConfusion

/- One run less. -/
theorem counts {q q' stop : Nat} (quiet : ∀ j, q ≤ j → j < ρ + c → item items j ≠ .sync) (since : q ≤ ρ + c)
    (order : ρ + 3 ≤ q' ∧ q' ≤ stop) (between : ∀ j, ρ + 3 ≤ j → j < q' → item items j ≠ .sync) :
    runs items q (stop - q) = runs items q' (stop - q') + 1 := by
  obtain ⟨b, mark, -⟩ := run.mark
  refine runs_pass (m := ρ + c) (p := ρ + 2) quiet (fun j later earlier => ?_) (run.syncs 2 (by decide)) mark between
    ⟨by omega, by omega, by omega⟩
  have there : j + 1 = ρ + (j + 1 - ρ) := by omega
  exact there ▸ run.syncs (j + 1 - ρ) (by omega)

/- Two more syncs behind one: it is the first of a run, and they are the rest. -/
theorem whole {j : Nat} (long : 2 ≤ j) (extra : ∀ i < j, item items (ρ + c + 1 + i) = .sync) : c = 0 ∧ j = 2 := by
  obtain ⟨b, mark, -⟩ := run.mark
  have here : ρ + 3 = ρ + c + 1 + (2 - c) := by omega
  by_contra other
  rw [here, extra (2 - c) (by omega)] at mark
  cases mark

end Run

section Target

variable {before after : List Sector} {x : Sector} {k t : Nat} (size : Nat) (written : items = track (before ++ x :: after))

include written

/- The header of the sector, wherever it is met on the loop. -/
theorem lays_target (t : Nat) : Lays items x (span before + t * items.length) := by
  subst written
  rw [Nat.add_comm]
  exact ((Lies.loop t).sector).lays

theorem fits_target : span before + x.items.length ≤ items.length := by
  have whole := span_split before after x
  rw [span, ← written] at whole
  omega

omit written in
/- Less than a round apart, two headers are not of one sector. -/
theorem other_header (distinct : ((before ++ x :: after).map Sector.id).Nodup) {l l' : List Sector} {y : Sector}
    (listed : before ++ x :: after = l ++ y :: l') {n u : Nat} (behind : u * n + span l < span before + t * n)
    (near : span before + t * n < u * n + span l + n) : y.id ≠ x.id := by
  intro same
  obtain rfl := listed_once distinct listed same
  rcases Nat.lt_or_ge u t with rounds | rounds
  · have := Nat.mul_le_mul_right n (show u + 1 ≤ t from rounds)
    rw [Nat.add_mul] at this
    omega
  · have := Nat.mul_le_mul_right n rounds
    omega

variable (ring : Ring bits items (8 * k)) (unbroken : Unbroken items.length k (span before))
  (spot : place items.length k (span before) + 8 * k = (span before + t * items.length) * 16)

include ring unbroken spot

/- The search that comes to the header reads the data. -/
theorem scan_target (guard p : Nat) (first : Option Nat) (after_ : p ≤ place items.length k (span before))
    (next : ∀ j, p + 8 * k ≤ j * 16 → j < span before + t * items.length → item items j ≠ .sync)
    (earlier : ∀ f, first = some f → 16 ≤ f ∧ f ≤ p) :
    scan bits x.cylinder x.head x.sector size (guard + 1) p first =
      readData bits (place items.length k (span before + 3)) size := by
  have lays := lays_target written t
  have fits := fits_target written
  have whole := x.items_length
  have length := ring.length
  have start := place_lt ring.nonempty k (span before)
  -- a first sync across the end of the buffer has the second one behind the beginning, so that `p` is behind it
  have reach : (span before + t * items.length + 0) * 16 + 16 ≤ p + 8 * k + cells bits := by
    by_contra far
    have second := lays.syncs 1 (by decide)
    obtain ⟨j, shape⟩ : ∃ j, j + 1 * items.length = span before + t * items.length + 1 :=
      ⟨span before + t * items.length + 1 - items.length, by omega⟩
    rw [← shape] at second
    exact next j (by omega) (by omega) ((item_turn j 1 0).symm.trans second)
  have found := ring.findSync_first (by omega) (by omega) (lays.syncs 0 (by decide)) next (cells bits)
  rw [if_pos reach] at found
  generalize answer : ((span before + t * items.length + 0) * 16 + 16 - 8 * k) % cells bits = q at found
  have room : q < cells bits := answer ▸ Nat.mod_lt _ (by omega)
  have sits : Sits items (8 * k) q (span before + t * items.length + 1) := by
    rw [← answer]
    exact ring.sits_mod _ _ (by omega)
  have behind := behind_place (length ▸ room) (by omega) (by omega) sits
  have fresh : first ≠ some q := by
    intro same
    obtain ⟨low, high⟩ := earlier q same
    split at behind <;> omega
  have stays : q + 32 < cells bits := length ▸ (unbroken_iff (length ▸ room) (by omega) (by omega) sits).mp unbroken
  have run := ring.skip_run lays.syncs sits lays.mark_id stays
  have here : q + 32 = place items.length k (span before + 3) := by
    refine place_unique (length ▸ stays) (by omega) (u := t) ?_
    have shape : span before + t * items.length + 1 + 2 = span before + 3 + t * items.length := by omega
    exact shape ▸ sits.shift 2
  rw [scan_header found fresh run ring lays (sits.shift 2) (by decide)]
  simp [here]

/- The searches before that pass over one run each. -/
theorem scan_reaches (distinct : ((before ++ x :: after).map Sector.id).Nodup) (guard p q : Nat)
    (first : Option Nat) (after_ : p ≤ place items.length k (span before)) (base : p + 8 * k ≤ q * 16)
    (near : q * 16 < p + 8 * k + 16) (earlier : ∀ f, first = some f → 16 ≤ f ∧ f ≤ p) :
    scan bits x.cylinder x.head x.sector size guard p first =
      if runs items q (span before + t * items.length - q) < guard then
        readData bits (place items.length k (span before + 3)) size
      else none := by
  induction guard generalizing p q first with
  | zero => rfl
  | succ guard ih =>
    have lays := lays_target written t
    have start := place_lt ring.nonempty k (span before)
    have length := ring.length
    obtain ⟨m, since, upTo, sync, quiet⟩ : ∃ m, q ≤ m ∧ m ≤ span before + t * items.length ∧ item items m = .sync ∧
        ∀ j, q ≤ j → j < m → item items j ≠ .sync := first_sync (by omega) (lays.syncs 0 (by decide))
    by_cases reached : m = span before + t * items.length
    · have none : runs items q (span before + t * items.length - q) = 0 :=
        runs_quiet q (span before + t * items.length - q) 0 fun j later less both => quiet j later (by omega) both.1
      rw [scan_target size written ring unbroken spot guard p first after_
        (fun j later less => quiet j (by omega) (by omega)) earlier, none, if_pos (by omega)]
    · obtain ⟨ρ, c, less, rfl, run⟩ : ∃ ρ c, c < 3 ∧ m = ρ + c ∧ Run (before ++ x :: after) items ρ := by
        subst written
        exact run_of_sync m ring.nonempty sync
      have past := run.ends less lays.syncs (by omega)
      have found := ring.findSync_first (p := p) (by omega) (by omega) sync
        (fun j later less => quiet j (by omega) less) (cells bits)
      rw [if_pos (by omega), Nat.mod_eq_of_lt (by omega)] at found
      generalize answer : (ρ + c) * 16 + 16 - 8 * k = s at found
      have fresh : first ≠ some s := fun same => by
        have := earlier s same
        omega
      have sits : Sits items (8 * k) (s + 16 * (2 - c)) (ρ + 3) := ⟨0, by omega⟩
      have skipped := run.skip less ring (s := s) (by omega) (by omega)
      have kept : ∀ f, some (first.getD s) = some f → 16 ≤ f ∧ f ≤ s := by
        intro f same
        cases first with
        | none =>
          have value : s = f := Option.some.inj same
          omega
        | some f₀ =>
          have value : f₀ = f := Option.some.inj same
          have := earlier f₀ rfl
          omega
      have other (not : (readBytes bits (s + 16 * (2 - c)) 1).getD 0 0 ≠ MARK_ID ∨ 1 + (2 - c) < 3) :
          scan bits x.cylinder x.head x.sector size (guard + 1) p first =
            if runs items q (span before + t * items.length - q) < guard + 1 then
              readData bits (place items.length k (span before + 3)) size
            else none := by
        rw [scan_other found fresh skipped not, run.counts less quiet since ⟨by omega, past⟩ (by omega),
          ih (s + 16 * (2 - c)) (ρ + 3) _ (by omega) (by omega) (by omega) fun f same => by
            have := kept f same
            omega]
        simp
      by_cases part : c = 0
      · subst part
        cases run' : run with
        | header l l' y u listed index laysY =>
          have between (j : Nat) (later : ρ + 3 ≤ j) (earlier : j < ρ + 10) : item items j ≠ .sync := by
            have there : j = ρ + 3 + (j - (ρ + 3)) := by omega
            rw [there]
            exact laysY.between _ (by omega)
          have next : ρ + 10 ≤ span before + t * items.length := by
            by_contra exceeds
            exact between _ past (by omega) (lays.syncs 0 (by decide))
          have differs : y.cylinder ≠ x.cylinder ∨ y.head ≠ x.head ∨ y.sector ≠ x.sector := by
            by_contra same
            simp only [not_or, not_not] at same
            exact @other_header _ _ _ t distinct _ _ _ listed items.length u (by omega) (by omega)
              (by rw [Sector.id, Sector.id, same.1, same.2.1, same.2.2])
          rw [scan_header found fresh skipped ring laysY sits (by decide), if_pos differs,
            run.counts less quiet since ⟨by omega, next⟩ between,
            ih (s + 16 * (2 - 0) + 7 * 16) (ρ + 10) _ (by omega) (by omega) (by omega) fun f same => by
              have := kept f same
              omega]
          simp
        | data y _ mark =>
          refine other (.inl ?_)
          rw [ring.readBytes_one sits, mark]
          exact y.mark_ne_id
      · exact other (.inr (by omega))

omit unbroken spot in
/- Only an unbroken header is taken. -/
theorem scan_unbroken (distinct : ((before ++ x :: after).map Sector.id).Nodup) (guard p : Nat) (first : Option Nat)
    (v : Bool × List UInt8) (answer : scan bits x.cylinder x.head x.sector size guard p first = some v) :
    Unbroken items.length k (span before) := by
  induction guard generalizing p first with
  | zero => cases answer
  | succ guard ih =>
    rw [scan] at answer
    split at answer
    next => cases answer
    next q found =>
      split at answer
      next => cases answer
      next fresh =>
        obtain ⟨room, m, sync, sits⟩ := ring.findSync_some found
        obtain ⟨j, skipped, inside, extra⟩ := ring.skipExtraSyncs_skips sits room (cells bits) 1
        simp only [skipped] at answer
        split at answer
        next => exact ih _ _ answer
        next header =>
          split at answer
          next => exact ih _ _ answer
          next checked =>
            split at answer
            next => exact ih _ _ answer
            next same =>
              obtain ⟨ρ, c, less, rfl, run⟩ : ∃ ρ c, c < 3 ∧ m = ρ + c ∧ Run (before ++ x :: after) items ρ := by
                subst written
                exact run_of_sync m ring.nonempty sync
              have long : 2 ≤ j := by
                by_contra short
                exact header (.inr (by omega))
              obtain ⟨rfl, rfl⟩ := run.whole less long extra
              have behind := sits.shift 2
              cases run with
              | header l l' y u listed index laysY =>
                have id : readBytes bits (q + 16 * 2) 7 = y.header := ring.reads behind laysY.header
                rw [id] at same
                have ids : y.id = x.id := by
                  simp only [not_or, not_not] at same
                  rw [Sector.id, Sector.id, ← same.1, ← same.2.1, ← same.2.2]
                  rfl
                obtain rfl := listed_once distinct listed ids
                have length := ring.length
                have fits := fits_target written
                have whole := x.items_length
                have there : Sits items (8 * k) q (span l + u * items.length + 1) := by
                  have shape : ρ + 0 + 1 = span l + u * items.length + 1 := by omega
                  exact shape ▸ sits
                exact (unbroken_iff (length ▸ room) (by omega) (by omega) there).mpr (by omega)
              | data y _ mark =>
                refine absurd (.inl ?_) header
                rw [ring.readBytes_one behind, mark]
                exact y.mark_ne_id

end Target

/- Where `readSector` reads the sector `x` of a track that is rotated by `k` bytes: its two runs of syncs are unbroken,
the data mark is near the header as the search for it goes, and few runs come before. -/
structure Clear (before : List Sector) (x : Sector) (after : List Sector) (k : Nat) : Prop where
  header : Unbroken (span (before ++ x :: after)) k (span before)
  data : Unbroken (span (before ++ x :: after)) k (span before + 10 + x.gap.length)
  near : (if place (span (before ++ x :: after)) k (span before + 3) + 7 * 16 < span (before ++ x :: after) * 16 then 0
    else place (span (before ++ x :: after)) k (span before + 10)) + x.gap.length * 16 + 16 ≤ 100 * 16
  few : runs (track (before ++ x :: after)) ((8 * k + 15) / 16)
    (place (span (before ++ x :: after)) k (span before) / 16) < 256

/- A sector whose header is broken is not found at all. -/
theorem readSector_broken {before after : List Sector} {x : Sector} {k : Nat}
    (distinct : ((before ++ x :: after).map Sector.id).Nodup)
    (broken : ¬ Unbroken (span (before ++ x :: after)) k (span before)) (size : Nat) :
    readSector ((encode (before ++ x :: after)).rotate k) x.cylinder x.head x.sector size = none := by
  have some_ : 0 < (track (before ++ x :: after)).length := by
    have fits : span before + x.items.length ≤ (track (before ++ x :: after)).length := fits_target rfl
    have := x.items_length
    omega
  cases answer : readSector ((encode (before ++ x :: after)).rotate k) x.cylinder x.head x.sector size with
  | none => rfl
  | some v => exact absurd (scan_unbroken size rfl (ring_encode some_ k) distinct 256 0 none v answer) broken

theorem readSector_iff (before after : List Sector) (x : Sector) (k : Nat)
    (distinct : ((before ++ x :: after).map Sector.id).Nodup) :
    readSector ((encode (before ++ x :: after)).rotate k) x.cylinder x.head x.sector x.data.length =
      some (true, x.data) ↔ Clear before x after k := by
  have long := x.items_length
  have fits : span before + x.items.length ≤ (track (before ++ x :: after)).length := fits_target rfl
  have ring : Ring ((encode (before ++ x :: after)).rotate k) (track (before ++ x :: after)) (8 * k) :=
    ring_encode (by omega) k
  have length := ring.length
  have start := place_lt ring.nonempty k (span before)
  obtain ⟨t, spot⟩ := place_spec k (span before) (show _ < (track (before ++ x :: after)).length by omega)
  obtain ⟨u, behind⟩ := place_spec k (span before + 3) (show _ < (track (before ++ x :: after)).length by omega)
  have far := place_lt ring.nonempty k (span before + 3)
  have count : span before + t * (track (before ++ x :: after)).length - (8 * k + 15) / 16 =
      place (track (before ++ x :: after)).length k (span before) / 16 := by omega
  have read := ring.readData_target (lays_target rfl u) fits (length ▸ far) ⟨0, by omega⟩
  have rest : (if place (track (before ++ x :: after)).length k (span before + 3) + 7 * 16 <
        cells ((encode (before ++ x :: after)).rotate k) then 0
      else place (track (before ++ x :: after)).length k (span before + 3) + 7 * 16 -
        cells ((encode (before ++ x :: after)).rotate k)) =
      if place (track (before ++ x :: after)).length k (span before + 3) + 7 * 16 <
        (track (before ++ x :: after)).length * 16 then 0
      else place (track (before ++ x :: after)).length k (span before + 10) := by
    rw [length]
    split
    next => rfl
    next exceeds => exact place_unique (by omega) (by omega) (u := u) ⟨1, by omega⟩
  rw [rest] at read
  have reach (unbroken : Unbroken (track (before ++ x :: after)).length k (span before)) :=
    scan_reaches x.data.length rfl ring unbroken spot distinct 256 0 ((8 * k + 15) / 16) none (by omega)
      (by omega) (by omega) (by simp)
  rw [count] at reach
  constructor
  · intro answer
    have unbroken := scan_unbroken x.data.length rfl ring distinct 256 0 none _ answer
    rw [readSector, reach unbroken] at answer
    split at answer
    next few =>
      obtain ⟨near, data⟩ := read.mp answer
      exact ⟨unbroken, data, near, few⟩
    next => cases answer
  · rintro ⟨unbroken, data, near, few⟩
    rw [readSector, reach unbroken]
    exact (if_pos few).trans (read.mpr ⟨near, data⟩)

/- Sector 1 of cylinder 0, on a track of its own. -/
def sampleSector : Sector where
  cylinder := 0
  head := 0
  sector := 1
  code := 2
  gap := [0x4e, 0x4e, 0x00]
  deleted := false
  data := [0x44, 0x89, 0xa1, 0xfe]
  after := [0x4e, 0x00]

theorem readSector_sample : readSector ((encode [sampleSector]).rotate 2) 0 0 1 4 = some (true, sampleSector.data) :=
  (readSector_iff [] [] sampleSector 2 (by decide)).mpr ⟨by decide, by decide, by decide, by decide⟩

/- Three bytes on, the end of the buffer is in the second sync of the header. -/
theorem seam_in_header : ([sampleSector].map Sector.id).Nodup ∧
    readSector ((encode [sampleSector]).rotate 3) 0 0 1 4 = none :=
  ⟨by decide, @readSector_broken [] [] sampleSector 3 (by decide) (by decide) 4⟩

end Meatloaf.Disk.Mfm
