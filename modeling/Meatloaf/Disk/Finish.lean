import Meatloaf.Disk.Save

/-! The end of a save: the last block, the directory slot and the entry. -/
namespace Meatloaf.Disk

open Lib

namespace D64

/- What `findSlot` does at the end of a directory that is full. -/
def extendDirectory (s : D64) (b : Block) : Except Nat (Block × Str × Nat) × D64 :=
  match s.claimBlock b.track b.sector true with
  | (none, s) => (.error ST_DISK_FULL, s)
  | (some c, s') =>
    let w := s'.writeBlock b.track b.sector
      (((Store.read s.container.data (s.geo.addr b) 256).set 0 (UInt8.ofNat c.track)).set 1
        (UInt8.ofNat c.sector))
    if w.1 then (.ok (c, 0x00 :: 0xFF :: List.replicate (block_size - 2) 0, 0), w.2)
    else (.error ST_WRITE_VERIFY, (w.2.deallocateBlock c).2)

/-- The walk over a directory: the first vacant slot, the end, or too long a chain. -/
theorem findSlot_walk (s : D64) (w : Whole s) (l : List Block) (b : Block) (n : Nat)
    (chain : s.geo.ChainAt s.container.data b l) (nonempty : l ≠ []) (inside : ∀ c ∈ l, s.geo.Inside c) :
    ∃ q, Moved s q ∧ findSlot n b s =
      match s.geo.slotAmong s.container.data l n with
      | some (c, x) => (.ok (c, Store.read s.container.data (s.geo.addr c) 256, x), q)
      | none => if l.length ≤ n then q.extendDirectory (l.getLastD ⟨0, 0⟩) else (.error ST_DIR_ERROR, q) := by
  induction l generalizing s b n with
  | nil => exact absurd rfl nonempty
  | cons c l ih =>
    obtain rfl := chain.head
    have insideC := inside c List.mem_cons_self
    have read := readBlock_inside s w c insideC
    have moved := at_moved s (s.geo.addr c + 256) c.track c.sector
    cases n with
    | zero =>
      refine ⟨_, moved, ?_⟩
      unfold findSlot
      simp only [read, Geometry.slotAmong, List.take_zero, List.findSome?_nil]
      rw [if_neg (by simp)]
    | succ n =>
      have among : s.geo.slotAmong s.container.data (c :: l) (n + 1) =
          ((freeSlot (Store.read s.container.data (s.geo.addr c) 256)).map (c, ·)).or
            (s.geo.slotAmong s.container.data l n) := by
        unfold Geometry.slotAmong
        rw [List.take_succ_cons, List.findSome?_cons]
        cases (freeSlot (Store.read s.container.data (s.geo.addr c) 256)).map (c, ·) <;> rfl
      have length : ¬ (Store.read s.container.data (s.geo.addr c) 256).length ≠ block_size := by
        simp [block_size]
      rw [among]
      cases slot : freeSlot (Store.read s.container.data (s.geo.addr c) 256) with
      | some x =>
        refine ⟨_, moved, ?_⟩
        unfold findSlot
        simp only [read, if_neg length, slot, Option.map_some, Option.some_or]
      | none =>
        have link0 := Store.getD_read s.container.data (s.geo.addr c) 256 0 0 (by decide)
        have link1 := Store.getD_read s.container.data (s.geo.addr c) 256 1 0 (by decide)
        rw [Nat.add_zero] at link0
        cases chain with
        | step runs rest =>
          cases l with
          | nil =>
            have ends : s.container.data (s.geo.addr c) = 0 := by
              cases rest with
              | done stop => exact UInt8.toNat_inj.mp stop
            refine ⟨_, moved, ?_⟩
            unfold findSlot
            simp only [read, if_neg length, slot, link0, ends, ne_eq, not_true, if_false, Option.map_none,
              Option.none_or, Geometry.slotAmong, List.take_nil, List.findSome?_nil]
            rw [if_pos (by simp)]
            rfl
          | cons e l =>
            have next : s.geo.link s.container.data c = e := rest.head.symm
            have live : s.container.data (s.geo.addr c) ≠ 0 := by
              intro zero
              have stop : Ends (s.geo.link s.container.data c) := by
                unfold Ends Geometry.link
                rw [zero]
                rfl
              cases rest with
              | step runs _ => exact runs stop
            obtain ⟨q, movedQ, walk⟩ := ih (s.at_ (s.geo.addr c + 256) c.track c.sector) ⟨w.valid, w.size⟩
              (s.geo.link s.container.data c) n rest (by simp) (fun x hx => inside x (List.mem_cons_of_mem _ hx))
            refine ⟨q, moved.step movedQ, ?_⟩
            have step : findSlot (n + 1) c s =
                findSlot n (s.geo.link s.container.data c) (s.at_ (s.geo.addr c + 256) c.track c.sector) := by
              conv_lhs => unfold findSlot
              simp only [read, if_neg length, slot, link0, link1, ne_eq, live, not_false_eq_true, if_true]
              rfl
            rw [step, walk]
            have data : (s.at_ (s.geo.addr c + 256) c.track c.sector).container.data = s.container.data := rfl
            have geo : (s.at_ (s.geo.addr c + 256) c.track c.sector).geo = s.geo := rfl
            rw [data, geo, Option.map_none, Option.none_or]
            cases s.geo.slotAmong s.container.data (e :: l) n with
            | some found => rfl
            | none =>
              simp only [List.length_cons, Nat.add_le_add_iff_right]
              rfl

end D64

namespace Geometry

variable {g : Geometry} {d₀ d : Nat → UInt8} {bs dirs : List Block} {chain : Nat → List Block}

/- A save changes nothing in a block that was in use, the BAM apart. -/
theorem Claimed.kept (h : g.Claimed d₀ bs d) (v : g.Valid) (ok : g.BamOk d₀) {b : Block} (inside : g.Inside b)
    (used : g.free d₀ b = false) (i : Nat) (hi : i < 256) (outside : ¬ g.BamArea (g.addr b + i)) :
    d (g.addr b + i) = d₀ (g.addr b + i) := by
  apply h.rest _ outside
  intro c free
  have range := (Represented.of_free free).track v
  have insideC : g.Inside c := by
    refine ⟨range.1, range.2, Nat.lt_of_not_le fun beyond => ?_⟩
    rw [ok.spare c.track c.sector beyond] at free
    exact Bool.false_ne_true free
  have other : b ≠ c := by
    rintro rfl
    rw [used] at free
    exact Bool.false_ne_true free
  rcases inside.apart insideC other with before | after <;> omega

theorem Claimed.onChain (h : g.Claimed d₀ bs d) (v : g.Valid) (sound : Sound g d₀ dirs chain) {b : Block}
    (used : OnChain dirs chain b) (i : Nat) (hi : i < 256) : d (g.addr b + i) = d₀ (g.addr b + i) := by
  obtain ⟨inside, allocated, system⟩ := sound.taken b used
  exact h.kept v sound.bam inside allocated i hi (v.bamArea_outside inside system hi)

/- The directory has been extended by `c` while `bs` was claimed. -/
theorem Claimed.extend (h : g.Claimed d₀ bs d) (v : g.Valid) (sound : Sound g d₀ dirs chain) {c tail : Block}
    (member : tail ∈ dirs) (inside : g.Inside c) (free : g.free d c = true) (link sector : List UInt8)
    (two : link.length = 2) (full : sector.length = 256) :
    g.Claimed (Store.put (Store.put (g.setFree d₀ c true) (g.addr tail) link) (g.addr c) sector) bs
      (Store.put (Store.put (g.setFree d c true) (g.addr tail) link) (g.addr c) sector) := by
  obtain ⟨insideT, usedT, systemT⟩ := sound.taken tail (.inl member)
  obtain ⟨before, new⟩ := h.open_ free
  obtain ⟨_, systemC, _⟩ := sound.free_block v before
  have represented := inside.represented v
  have agree : ∀ m : Nat → UInt8, ∀ a, g.BamArea a →
      Store.put (Store.put m (g.addr tail) link) (g.addr c) sector a = m a := by
    intro m a area
    have first := put_agree (d := m) v insideT systemT 0 link (by omega) a area
    have second := put_agree (d := Store.put m (g.addr tail) link) v inside systemC 0 sector (by omega) a area
    rw [Nat.add_zero] at first second
    exact second.trans first
  have freed : ∀ m : Nat → UInt8, ∀ x,
      g.free (Store.put (Store.put (g.setFree m c true) (g.addr tail) link) (g.addr c) sector) x =
        (decide (x ≠ c) && g.free m x) := by
    intro m x
    rw [free_agree v (agree _), free_allocate v represented]
  refine ⟨(h.bam.allocate v inside free).agree v (agree _), ?_, ?_, h.nodup, ?_⟩
  · intro x
    rw [freed, freed, h.free, Bool.and_assoc]
  · intro b hb
    have other : b ≠ c := fun same => new (same ▸ hb)
    rw [freed, h.fresh b hb]
    simpa using other
  · intro a outside off
    by_cases inC : g.addr c ≤ a ∧ a < g.addr c + 256
    · obtain ⟨i, hi, rfl⟩ : ∃ i < sector.length, a = g.addr c + i := ⟨a - g.addr c, by omega, by omega⟩
      rw [Store.put_inside _ _ _ _ hi, Store.put_inside _ _ _ _ hi]
    · have away : ∀ m : Nat → UInt8, Store.put m (g.addr c) sector a = m a :=
        fun m => Store.put_outside _ _ _ _ (by omega)
      rw [away, away]
      by_cases inLink : g.addr tail ≤ a ∧ a < g.addr tail + 2
      · obtain ⟨i, hi, rfl⟩ : ∃ i < link.length, a = g.addr tail + i := ⟨a - g.addr tail, by omega, by omega⟩
        rw [Store.put_inside _ _ _ _ hi, Store.put_inside _ _ _ _ hi]
      · have beside : ∀ m : Nat → UInt8, Store.put m (g.addr tail) link a = m a :=
          fun m => Store.put_outside _ _ _ _ (by omega)
        rw [beside, beside, setFree_outside v represented true outside,
          setFree_outside v represented true outside]
        apply h.rest a outside
        intro x freeX
        by_cases same : x = c
        · subst same
          omega
        · apply off x
          rw [freed, freeX]
          simpa using same

end Geometry

namespace Sound

variable {g : Geometry} {d₀ d : Nat → UInt8} {bs dirs : List Block} {chain : Nat → List Block}

/-- The entry of a saved file goes into a vacant slot. -/
theorem enter (h : Sound g d₀ dirs chain) (v : g.Valid) (claimed : g.Claimed d₀ bs d) {i : Nat}
    (slot : i < 8 * dirs.length) (vacant : fileType (g.entryOf d₀ dirs i) = 0) (fields : List UInt8)
    (length : fields.length = 30) (live : fields.getD 0 0 ≠ 0)
    (file : g.ChainAt d ⟨(fields.getD 1 0).toNat, (fields.getD 2 0).toNat⟩ bs) :
    Sound g (Store.put d (g.slotAddr dirs i + 2) fields) dirs (Function.update chain i bs) ∧
    (g.entryOf (Store.put d (g.slotAddr dirs i + 2) fields) dirs i).drop 2 = fields ∧
    (∀ j < 8 * dirs.length, j ≠ i →
      g.entryOf (Store.put d (g.slotAddr dirs i + 2) fields) dirs j = g.entryOf d₀ dirs j) ∧
    (∀ b, g.Inside b → b ∉ dirs → ∀ k < 256,
      Store.put d (g.slotAddr dirs i + 2) fields (g.addr b + k) = d (g.addr b + k)) := by
  have member := Geometry.slot_mem slot
  obtain ⟨insideD, usedD, systemD⟩ := h.taken _ (.inl member)
  have place : g.slotAddr dirs i + 2 = g.addr (dirs.getD (i / 8) ⟨0, 0⟩) + (32 * (i % 8) + 2) := by
    unfold Geometry.slotAddr
    omega
  have others : ∀ b, g.Inside b → b ∉ dirs → ∀ k < 256,
      Store.put d (g.slotAddr dirs i + 2) fields (g.addr b + k) = d (g.addr b + k) := by
    intro b inside off k hk
    have other : b ≠ dirs.getD (i / 8) ⟨0, 0⟩ := fun same => off (same ▸ member)
    apply Store.put_outside
    rcases inside.apart insideD other with before | after <;> omega
  have agree : ∀ a, g.BamArea a → Store.put d (g.slotAddr dirs i + 2) fields a = d a := by
    rw [place]
    exact Geometry.put_agree v insideD systemD _ fields (by omega)
  have links : ∀ b, g.Inside b → g.link (Store.put d (g.slotAddr dirs i + 2) fields) b = g.link d b := by
    intro b inside
    have bytes : ∀ k < 2, Store.put d (g.slotAddr dirs i + 2) fields (g.addr b + k) = d (g.addr b + k) := by
      intro k hk
      apply Store.put_outside
      by_cases same : b = dirs.getD (i / 8) ⟨0, 0⟩
      · rw [← same] at place
        omega
      · rcases inside.apart insideD same with before | after <;> omega
    have first := bytes 0 (by omega)
    simp only [Nat.add_zero] at first
    unfold Geometry.link
    rw [first, bytes 1 (by omega)]
  have entries : ∀ j < 8 * dirs.length, j ≠ i →
      g.entryOf (Store.put d (g.slotAddr dirs i + 2) fields) dirs j = g.entryOf d₀ dirs j := by
    intro j hj ne
    have apart := Geometry.slot_apart h.directory.nodup h.dirs_inside slot hj (Ne.symm ne)
    unfold Geometry.entryOf
    rw [Store.read_put_disjoint _ _ _ _ _ (by omega)]
    exact Geometry.entry_congr fun k hk => claimed.onChain v h (.inl (Geometry.slot_mem hj)) k hk
  have entry : ∀ k < 30, (g.entryOf (Store.put d (g.slotAddr dirs i + 2) fields) dirs i).getD (k + 2) 0 =
      fields.getD k 0 := by
    intro k hk
    unfold Geometry.entryOf
    rw [Store.getD_read _ _ _ _ _ (by omega), show g.slotAddr dirs i + (k + 2) = g.slotAddr dirs i + 2 + k by omega,
      Store.put_getD _ _ _ _ 0 (by omega)]
  refine ⟨?_, ?_, entries, others⟩
  · apply h.insert v slot (fun alive => alive.2 vacant) bs (claimed.bam.agree v agree)
    · intro b
      rw [Geometry.free_agree v agree]
      exact claimed.free b
    · exact claimed.fresh
    · intro b used
      rw [links b (h.taken b used).1]
      exact Geometry.link_congr fun k hk => claimed.onChain v h used k hk
    · exact entries
    · unfold fileType
      rw [entry 0 (by omega)]
      exact live
    · have start : startBlock (g.entryOf (Store.put d (g.slotAddr dirs i + 2) fields) dirs i) =
          ⟨(fields.getD 1 0).toNat, (fields.getD 2 0).toNat⟩ := by
        unfold startBlock
        rw [entry 1 (by omega), entry 2 (by omega)]
      rw [start]
      exact file.congr fun b hb => links b (claimed.inside v h.bam hb)
  · unfold Geometry.entryOf
    rw [Store.drop_read _ _ _ _ (by omega)]
    have same := Store.read_put_same d (g.slotAddr dirs i + 2) fields
    rwa [length] at same

end Sound

/- A link byte gives the number back. -/
theorem Geometry.Inside.bytes {g : Geometry} (v : g.Valid) {b : Block} (h : g.Inside b) :
    (UInt8.ofNat b.track).toNat = b.track ∧ (UInt8.ofNat b.sector).toNat = b.sector := by
  have track := h.2.1
  have sector := h.2.2
  have last := v.last
  have sectors := (v.track b.track h.1 h.2.1).sectors
  rw [UInt8.toNat_ofNat', UInt8.toNat_ofNat']
  omega

namespace D64

/- The block that ends a file: its link is the offset of the last byte. -/
def lastBlock (tail : Str) : Str :=
  0 :: UInt8.ofNat (tail.length + 1) :: (tail ++ List.replicate (254 - tail.length) 0)

theorem length_lastBlock (tail : Str) (short : tail.length ≤ 254) : (lastBlock tail).length = 256 := by
  simp only [lastBlock, List.length_cons, List.length_append, List.length_replicate]
  omega

theorem writeBlock_last (s : D64) (t x : Nat) (tail : Str) (short : tail.length ≤ 254) :
    s.writeBlock t x (0 :: UInt8.ofNat (tail.length + 1) :: tail) = s.writeBlock t x (lastBlock tail) := by
  have padded : ((0 :: UInt8.ofNat (tail.length + 1) :: tail) ++ List.replicate
      (block_size - (0 :: UInt8.ofNat (tail.length + 1) :: tail).length) 0) = lastBlock tail := by
    have gap : block_size - (0 :: UInt8.ofNat (tail.length + 1) :: tail).length = 254 - tail.length := by
      unfold block_size
      rw [List.length_cons, List.length_cons]
      omega
    rw [gap]
    rfl
  have full := length_lastBlock tail short
  unfold writeBlock
  rw [padded, padded_block _ full, List.take_of_length_le (by rw [full]; exact Nat.le_refl 256)]

theorem length_nameField (name : Str) : (nameField name).length = 16 := by
  simp only [nameField, List.length_append, List.length_replicate, List.length_take]
  omega

theorem length_newEntry (name : Str) (start : Block) (n : Nat) : (newEntry name start n).length = 30 := by
  simp [newEntry, length_nameField]

/-- What the file of a save looks like on the medium. -/
structure Holds (g : Geometry) (d : Nat → UInt8) (bs : List Block) (p : Str) : Prop where
  count : bs.length = blocksFor p.length
  inside : ∀ b ∈ bs, g.Inside b
  stored : ∀ k, k + 1 < bs.length → Store.read d (g.addr (bs.getD k ⟨0, 0⟩)) 256 =
    UInt8.ofNat (bs.getD (k + 1) ⟨0, 0⟩).track :: UInt8.ofNat (bs.getD (k + 1) ⟨0, 0⟩).sector ::
      (p.drop (254 * k)).take 254
  last : Store.read d (g.addr (bs.getD (bs.length - 1) ⟨0, 0⟩)) 256 =
    lastBlock (p.drop (254 * (bs.length - 1)))

theorem Holds.nonempty {g : Geometry} {d : Nat → UInt8} {bs : List Block} {p : Str} (h : Holds g d bs p) :
    0 < bs.length := by
  rw [h.count]
  unfold blocksFor
  omega

/-- The links of the blocks make a chain. -/
theorem Holds.chain {g : Geometry} {d : Nat → UInt8} {bs : List Block} {p : Str} (h : Holds g d bs p)
    (v : g.Valid) : g.ChainAt d (bs.getD 0 ⟨0, 0⟩) bs := by
  have positive := h.nonempty
  have byte : ∀ b i, i < 256 → (Store.read d (g.addr b) 256).getD i 0 = d (g.addr b + i) :=
    fun b i hi => Store.getD_read _ _ _ _ _ hi
  apply Chain.of_links bs ⟨0, 0⟩ (List.ne_nil_of_length_pos positive)
  · intro b member ends
    have := (h.inside b member).1
    unfold Ends at ends
    omega
  · intro k hk
    have stored := h.stored k hk
    obtain ⟨track, sector⟩ := (h.inside _ (getD_mem hk)).bytes v
    have first := byte (bs.getD k ⟨0, 0⟩) 0 (by decide)
    have second := byte (bs.getD k ⟨0, 0⟩) 1 (by decide)
    rw [stored] at first second
    simp only [Nat.add_zero] at first
    unfold Geometry.link
    rw [← first, ← second, List.getD_cons_zero, List.getD_cons_succ, List.getD_cons_zero, track, sector]
  · have first := byte (bs.getD (bs.length - 1) ⟨0, 0⟩) 0 (by decide)
    rw [h.last] at first
    simp only [Nat.add_zero] at first
    unfold Ends Geometry.link
    rw [← first]
    rfl

/- Only the blocks of the file matter. -/
theorem Holds.congr {g : Geometry} {d d' : Nat → UInt8} {bs : List Block} {p : Str} (h : Holds g d bs p)
    (same : ∀ b ∈ bs, ∀ i < 256, d' (g.addr b + i) = d (g.addr b + i)) : Holds g d' bs p where
  count := h.count
  inside := h.inside
  stored k hk := by
    rw [Store.read_congr (same _ (getD_mem (Nat.lt_of_succ_lt hk)))]
    exact h.stored k hk
  last := by
    have positive := h.nonempty
    rw [Store.read_congr (same _ (getD_mem (by omega)))]
    exact h.last

/-- A save that went through: the file is in slot `i` of the directory `dirs'`. -/
structure Saved (s₀ s : D64) (dirs : List Block) (chain : Nat → List Block) (name p : Str)
    (dirs' : List Block) (i : Nat) (bs : List Block) : Prop where
  geo : s.geo = s₀.geo
  size : s.container.size = s₀.container.size
  steady : s.container.fault = none
  error : s.error = 0
  sound : Sound s₀.geo s.container.data dirs' (Function.update chain i bs)
  slot : i < 8 * dirs'.length
  vacant : ¬ s₀.geo.LiveAt s₀.container.data dirs i
  first : ∀ j < 8 * dirs.length, fileType (s₀.geo.entryOf s₀.container.data dirs j) = 0 → i ≤ j
  grown : dirs' = dirs ∨ (i = 8 * dirs.length ∧ ∃ c, dirs' = dirs ++ [c])
  entry : (s₀.geo.entryOf s.container.data dirs' i).drop 2 =
    newEntry name (bs.getD 0 ⟨0, 0⟩) (bs.length % 65536)
  others : ∀ j < 8 * dirs.length, j ≠ i → (s₀.geo.entryOf s.container.data dirs' j).drop 2 =
    (s₀.geo.entryOf s₀.container.data dirs j).drop 2
  blank : ∀ j, 8 * dirs.length ≤ j → j < 8 * dirs'.length → j ≠ i →
    (s₀.geo.entryOf s.container.data dirs' j).drop 2 = List.replicate 30 0
  file : Holds s₀.geo s.container.data bs p
  fresh : ∀ b ∈ bs, s₀.geo.free s₀.container.data b = true
  kept : ∀ j, ∀ b ∈ chain j, ∀ k < 256,
    s.container.data (s₀.geo.addr b + k) = s₀.container.data (s₀.geo.addr b + k)
  header : ∀ k < 256, ¬ s₀.geo.BamArea (s₀.geo.addr s₀.geo.headerBlock + k) →
    s.container.data (s₀.geo.addr s₀.geo.headerBlock + k) =
      s₀.container.data (s₀.geo.addr s₀.geo.headerBlock + k)

/- The medium with `c` claimed for the directory and linked to its last sector. -/
def extended (g : Geometry) (d : Nat → UInt8) (tail c : Block) : Nat → UInt8 :=
  Store.put (Store.put (g.setFree d c true) (g.addr tail) [UInt8.ofNat c.track, UInt8.ofNat c.sector])
    (g.addr c) blankSector

section extension

variable {g : Geometry} {d : Nat → UInt8} {dirs : List Block} {chain : Nat → List Block} {c : Block}
variable (v : g.Valid) (h : Sound g d dirs chain) (free : g.free d c = true)
include v h free

theorem extended_kept {b : Block} (inside : g.Inside b) (other : b ≠ c) {k : Nat} (hk : k < 256)
    (off : b ≠ dirs.getLast h.nonempty ∨ 2 ≤ k) (outside : ¬ g.BamArea (g.addr b + k)) :
    extended g d (dirs.getLast h.nonempty) c (g.addr b + k) = d (g.addr b + k) := by
  have insideC := (h.free_block v free).1
  have insideT := h.dirs_inside _ (List.getLast_mem h.nonempty)
  unfold extended
  rw [Store.put_outside _ _ _ _ (by
      rw [length_blankSector]
      rcases inside.apart insideC other with before | after <;> omega),
    Store.put_outside _ _ _ _ (by
      rw [List.length_cons, List.length_singleton]
      rcases off with apart | high
      · rcases inside.apart insideT apart with before | after <;> omega
      · by_cases same : b = dirs.getLast h.nonempty
        · rw [same]
          omega
        · rcases inside.apart insideT same with before | after <;> omega)]
  exact Geometry.setFree_outside v (insideC.represented v) true outside

/- The sector that was the last one keeps its entries. -/
theorem extended_entry {j : Nat} (hj : j < 8 * dirs.length) :
    (g.entryOf (extended g d (dirs.getLast h.nonempty) c) (dirs ++ [c]) j).drop 2 = (g.entryOf d dirs j).drop 2 := by
  have member := Geometry.slot_mem hj
  obtain ⟨inside, used, system⟩ := h.taken _ (.inl member)
  have other : dirs.getD (j / 8) ⟨0, 0⟩ ≠ c := by
    intro same
    rw [same, free] at used
    exact Bool.false_ne_true used.symm
  rw [Geometry.entry_append _ hj]
  unfold Geometry.entryOf
  rw [Store.drop_read _ _ _ _ (by omega), Store.drop_read _ _ _ _ (by omega)]
  apply Store.read_congr
  intro k hk
  have place : g.slotAddr dirs j + 2 + k = g.addr (dirs.getD (j / 8) ⟨0, 0⟩) + (32 * (j % 8) + 2 + k) := by
    unfold Geometry.slotAddr
    omega
  rw [place]
  exact extended_kept v h free inside other (by omega) (.inr (by omega))
    (v.bamArea_outside inside system (by omega))

omit v free in
theorem extended_blank {j : Nat} (low : 8 * dirs.length ≤ j) (high : j < 8 * dirs.length + 8) :
    (g.entryOf (extended g d (dirs.getLast h.nonempty) c) (dirs ++ [c]) j).drop 2 = List.replicate 30 0 := by
  have sector : (dirs ++ [c]).getD (j / 8) ⟨0, 0⟩ = c := by
    rw [show j / 8 = dirs.length by omega, List.getD_append_right _ _ _ _ (Nat.le_refl _), Nat.sub_self]
    rfl
  unfold Geometry.entryOf
  rw [Store.drop_read _ _ _ _ (by omega)]
  apply List.ext_getElem
  · simp
  · intro k hk _
    have small : k < 30 := by simpa using hk
    have place : g.slotAddr (dirs ++ [c]) j + 2 + k = g.addr c + (32 * (j % 8) + 2 + k) := by
      unfold Geometry.slotAddr
      rw [sector]
      omega
    simp only [Store.read, List.getElem_map, List.getElem_range, List.getElem_replicate, place]
    unfold extended
    rw [Store.put_getD _ _ _ _ 0 (by rw [length_blankSector]; omega)]
    exact blankSector_byte _ (by omega)

/-- The directory with one more sector. -/
theorem extended_sound : Sound g (extended g d (dirs.getLast h.nonempty) c) (dirs ++ [c]) chain := by
  obtain ⟨inside, system, unused⟩ := h.free_block v free
  have represented := inside.represented v
  obtain ⟨insideT, usedT, systemT⟩ := h.taken _ (.inl (List.getLast_mem h.nonempty))
  have tailC : dirs.getLast h.nonempty ≠ c := fun same => unused (.inl (same ▸ List.getLast_mem h.nonempty))
  have own : g.Clean (extended g d (dirs.getLast h.nonempty) c) (extended g d (dirs.getLast h.nonempty) c) :=
    (Geometry.Claimed.refl h.bam).extend v h (List.getLast_mem h.nonempty) inside free
    [UInt8.ofNat c.track, UInt8.ofNat c.sector] blankSector rfl length_blankSector
  obtain ⟨track, sector⟩ := inside.bytes v
  have linkKept : ∀ b, OnChain dirs chain b → b ≠ dirs.getLast h.nonempty →
      g.link (extended g d (dirs.getLast h.nonempty) c) b = g.link d b := by
    intro b used ne
    obtain ⟨insideB, _, systemB⟩ := h.taken b used
    have other : b ≠ c := fun same => unused (same ▸ used)
    exact Geometry.link_congr fun k hk => extended_kept v h free insideB other hk (.inl ne)
      (v.bamArea_outside insideB systemB hk)
  have types : ∀ i < 8 * dirs.length,
      fileType (g.entryOf (extended g d (dirs.getLast h.nonempty) c) dirs i) = fileType (g.entryOf d dirs i) ∧
      startBlock (g.entryOf (extended g d (dirs.getLast h.nonempty) c) dirs i) =
        startBlock (g.entryOf d dirs i) := by
    intro i hi
    have same := extended_entry v h free hi
    rw [Geometry.entry_append _ hi] at same
    have byte : ∀ k, (g.entryOf (extended g d (dirs.getLast h.nonempty) c) dirs i).getD (2 + k) 0 =
        (g.entryOf d dirs i).getD (2 + k) 0 := by
      intro k
      have := congrArg (fun l => l.getD k 0) same
      simpa [List.getD_eq_getElem?_getD, List.getElem?_drop] using this
    exact ⟨byte 0, by unfold startBlock; rw [byte 1, byte 2]⟩
  apply h.extend v c own.bam
  · intro x
    have agree : ∀ a, g.BamArea a → extended g d (dirs.getLast h.nonempty) c a = g.setFree d c true a := by
      intro a area
      have first := Geometry.put_agree (d := g.setFree d c true) v insideT systemT 0
        [UInt8.ofNat c.track, UInt8.ofNat c.sector] (by simp) a area
      have second := Geometry.put_agree (d := Store.put (g.setFree d c true) (g.addr (dirs.getLast h.nonempty))
        [UInt8.ofNat c.track, UInt8.ofNat c.sector]) v inside system 0 blankSector
        (by rw [length_blankSector]) a area
      exact second.trans first
    rw [Geometry.free_agree v agree, Geometry.free_allocate v represented]
  · exact free
  · intro b member
    have used : OnChain dirs chain b := .inl (List.mem_of_mem_dropLast member)
    refine linkKept b used ?_
    rintro rfl
    have parts := List.dropLast_append_getLast h.nonempty
    have nodup := h.directory.nodup
    rw [← parts, List.nodup_append] at nodup
    exact nodup.2.2 _ member _ (List.mem_singleton.mpr rfl) rfl
  · have apart := insideT.apart inside tailC
    have bytes : ∀ k < 2, extended g d (dirs.getLast h.nonempty) c (g.addr (dirs.getLast h.nonempty) + k) =
        [UInt8.ofNat c.track, UInt8.ofNat c.sector].getD k 0 := by
      intro k hk
      unfold extended
      rw [Store.put_outside _ _ _ _ (by rw [length_blankSector]; omega), Store.put_getD _ _ _ _ 0 (by simpa using hk)]
    have first := bytes 0 (by omega)
    simp only [Nat.add_zero] at first
    unfold Geometry.link
    rw [first, bytes 1 (by omega)]
    simp only [List.getD_cons_zero, List.getD_cons_succ, track, sector]
  · have first : extended g d (dirs.getLast h.nonempty) c (g.addr c) = 0 := by
      have byte := Store.put_getD (Store.put (g.setFree d c true) (g.addr (dirs.getLast h.nonempty))
        [UInt8.ofNat c.track, UInt8.ofNat c.sector]) (g.addr c) blankSector 0 0
        (by rw [length_blankSector]; decide)
      exact byte
    unfold Ends Geometry.link
    rw [first]
    rfl
  · intro i b hb
    apply linkKept b (.inr ⟨i, hb⟩)
    rintro rfl
    exact (h.once i _ hb).1 (List.getLast_mem h.nonempty)
  · exact types
  · intro i low high
    have blank := extended_blank (c := c) h low high
    have byte := congrArg (fun l => l.getD 0 0) blank
    simp only [List.getD_eq_getElem?_getD, List.getElem?_drop, List.getElem?_replicate] at byte
    unfold fileType
    rw [List.getD_eq_getElem?_getD]
    exact byte

end extension

section finish

variable {s₀ s : D64} {dirs bs : List Block} {chain : Nat → List Block} {name p : Str} {o : Outcome}
variable (ready : Whole s₀) (sound : Sound s₀.geo s₀.container.data dirs chain)
include ready sound

/- The file is on the medium once its last block is. -/
theorem Saving.holds (h : Saving s₀ name s bs p) (count : bs.length = blocksFor p.length) :
    s₀.geo.Claimed s₀.container.data bs (Store.put s.container.data
      (s₀.geo.addr (bs.getD (bs.length - 1) ⟨0, 0⟩)) (lastBlock s.cbuf)) ∧
    Holds s₀.geo (Store.put s.container.data (s₀.geo.addr (bs.getD (bs.length - 1) ⟨0, 0⟩)) (lastBlock s.cbuf))
      bs p := by
  have positive := List.length_pos_iff.mpr h.nonempty
  have lastMember : bs.getD (bs.length - 1) ⟨0, 0⟩ ∈ bs := getD_mem (by omega)
  obtain ⟨lastInside, lastSystem, _⟩ := h.block ready sound lastMember
  have short : s.cbuf.length ≤ 254 := by
    have := h.short
    rw [h.buffer, List.length_drop]
    omega
  have full := length_lastBlock s.cbuf short
  refine ⟨h.claimed.write ready.valid lastInside lastSystem (h.claimed.fresh _ lastMember) _ full,
    count, fun b hb => (h.block ready sound hb).1, ?_, ?_⟩
  · intro k hk
    have member : bs.getD k ⟨0, 0⟩ ∈ bs := getD_mem (by omega)
    have other : bs.getD k ⟨0, 0⟩ ≠ bs.getD (bs.length - 1) ⟨0, 0⟩ := by
      rw [List.getD_eq_getElem _ _ (by omega), List.getD_eq_getElem _ _ (by omega)]
      intro same
      have := (h.claimed.nodup.getElem_inj_iff).mp same
      omega
    have apart := (h.block ready sound member).1.apart lastInside other
    rw [Store.read_put_disjoint _ _ _ _ _ (by omega)]
    exact h.stored k hk
  · rw [← h.buffer, ← full]
    exact Store.read_put_same _ _ _

/-- The entry goes into a slot the directory already has. -/
theorem Saved.of_slot {d : Nat → UInt8} (claimed : s₀.geo.Claimed s₀.container.data bs d)
    (file : Holds s₀.geo d bs p) {i : Nat} (slot : i < 8 * dirs.length)
    (vacant : fileType (s₀.geo.entryOf s₀.container.data dirs i) = 0)
    (first : ∀ j < 8 * dirs.length, fileType (s₀.geo.entryOf s₀.container.data dirs j) = 0 → i ≤ j)
    (geo : s.geo = s₀.geo) (size : s.container.size = s₀.container.size) (steady : s.container.fault = none) (error : s.error = 0)
    (data : s.container.data = Store.put d (s₀.geo.slotAddr dirs i + 2)
      (newEntry name (bs.getD 0 ⟨0, 0⟩) (bs.length % 65536))) :
    Saved s₀ s dirs chain name p dirs i bs := by
  have v := ready.valid
  have positive := file.nonempty
  obtain ⟨track, sector⟩ := (file.inside _ (getD_mem positive)).bytes v
  have start : (⟨((newEntry name (bs.getD 0 ⟨0, 0⟩) (bs.length % 65536)).getD 1 0).toNat,
      ((newEntry name (bs.getD 0 ⟨0, 0⟩) (bs.length % 65536)).getD 2 0).toNat⟩ : Block) = bs.getD 0 ⟨0, 0⟩ := by
    have bytes : (newEntry name (bs.getD 0 ⟨0, 0⟩) (bs.length % 65536)).getD 1 0 =
        UInt8.ofNat (bs.getD 0 ⟨0, 0⟩).track ∧
        (newEntry name (bs.getD 0 ⟨0, 0⟩) (bs.length % 65536)).getD 2 0 =
        UInt8.ofNat (bs.getD 0 ⟨0, 0⟩).sector := ⟨rfl, rfl⟩
    rw [bytes.1, bytes.2, track, sector]
  obtain ⟨sound', entry, others, rest⟩ := sound.enter v claimed slot vacant
    (newEntry name (bs.getD 0 ⟨0, 0⟩) (bs.length % 65536)) (length_newEntry _ _ _)
    (show (0x82 : UInt8) ≠ 0 by decide) (by rw [start]; exact file.chain v)
  have away : ∀ b, s₀.geo.Inside b → b ∉ dirs → ∀ k < 256,
      s.container.data (s₀.geo.addr b + k) = d (s₀.geo.addr b + k) := by
    rw [data]
    exact rest
  refine ⟨geo, size, steady, error, ?_, slot, fun live => live.2 vacant, first, .inl rfl, ?_, ?_, ?_, ?_, claimed.fresh,
    ?_, ?_⟩
  · rw [data]
    exact sound'
  · rw [data]
    exact entry
  · intro j hj ne
    rw [data, others j hj ne]
  · intro j low high
    exact absurd low (Nat.not_le_of_lt high)
  · apply file.congr
    intro b hb
    have free := sound.free_block v (claimed.fresh b hb)
    exact away b free.1 fun dir => free.2.2 (.inl dir)
  · intro j b hb k hk
    have once := sound.once j b hb
    rw [away b (sound.taken b (.inr ⟨j, hb⟩)).1 once.1 k hk]
    exact claimed.onChain v sound (.inr ⟨j, hb⟩) k hk
  · intro k hk outside
    have off : s₀.geo.headerBlock ∉ dirs := fun dir => (sound.taken _ (.inl dir)).2.2 (.inl rfl)
    rw [away _ v.header off k hk]
    exact claimed.kept v sound.bam v.header (sound.system _ v.header (.inl rfl)) k hk outside

/-- The entry goes into a sector the directory was extended by. -/
theorem Saved.of_extension {d : Nat → UInt8} (claimed : s₀.geo.Claimed s₀.container.data bs d)
    (file : Holds s₀.geo d bs p) {c : Block} (inside : s₀.geo.Inside c) (free : s₀.geo.free d c = true)
    (full : ∀ j < 8 * dirs.length, fileType (s₀.geo.entryOf s₀.container.data dirs j) ≠ 0) (geo : s.geo = s₀.geo) (size : s.container.size = s₀.container.size) (steady : s.container.fault = none)
    (error : s.error = 0)
    (data : s.container.data = Store.put (extended s₀.geo d (dirs.getLast sound.nonempty) c)
      (s₀.geo.addr c + 2) (newEntry name (bs.getD 0 ⟨0, 0⟩) (bs.length % 65536))) :
    Saved s₀ s dirs chain name p (dirs ++ [c]) (8 * dirs.length) bs := by
  have v := ready.valid
  obtain ⟨before, new⟩ := claimed.open_ free
  obtain ⟨_, system, unused⟩ := sound.free_block v before
  have base := extended_sound v sound before
  -- the save as if the directory had been extended before it began
  let t₀ : D64 := { s₀ with container := { s₀.container with
    data := extended s₀.geo s₀.container.data (dirs.getLast sound.nonempty) c } }
  have claimed' : s₀.geo.Claimed t₀.container.data bs (extended s₀.geo d (dirs.getLast sound.nonempty) c) :=
    claimed.extend v sound (List.getLast_mem sound.nonempty) inside free _ blankSector rfl length_blankSector
  have file' : Holds s₀.geo (extended s₀.geo d (dirs.getLast sound.nonempty) c) bs p := by
    apply file.congr
    intro b hb i hi
    have fresh := sound.free_block v (claimed.fresh b hb)
    have other : b ≠ c := fun same => new (same ▸ hb)
    have apartC := fresh.1.apart inside other
    have apartT := fresh.1.apart (sound.dirs_inside _ (List.getLast_mem sound.nonempty))
      (fun same => fresh.2.2 (.inl (same ▸ List.getLast_mem sound.nonempty)))
    unfold extended
    rw [Store.put_outside _ _ _ _ (by rw [length_blankSector]; omega),
      Store.put_outside _ _ _ _ (by rw [List.length_cons, List.length_singleton]; omega)]
    exact Geometry.setFree_outside v (inside.represented v) true (v.bamArea_outside fresh.1 fresh.2.1 hi)
  have slotAt : s₀.geo.slotAddr (dirs ++ [c]) (8 * dirs.length) = s₀.geo.addr c := by
    unfold Geometry.slotAddr
    rw [Nat.mul_div_cancel_left _ (by decide), Nat.mul_mod_right, List.getD_append_right _ _ _ _ (Nat.le_refl _),
      Nat.sub_self]
    rfl
  have slot : 8 * dirs.length < 8 * (dirs ++ [c]).length := by
    rw [List.length_append, List.length_singleton]
    omega
  have vacant : fileType (s₀.geo.entryOf t₀.container.data (dirs ++ [c]) (8 * dirs.length)) = 0 := by
    have blank := extended_blank (d := s₀.container.data) (c := c) sound (Nat.le_refl _) (by omega)
    have byte := congrArg (fun l => l.getD 0 0) blank
    simp only [List.getD_eq_getElem?_getD, List.getElem?_drop, List.getElem?_replicate] at byte
    unfold fileType
    rw [List.getD_eq_getElem?_getD]
    exact byte
  have first : ∀ j < 8 * (dirs ++ [c]).length, fileType (s₀.geo.entryOf t₀.container.data (dirs ++ [c]) j) = 0 →
      8 * dirs.length ≤ j := by
    intro j _ scratched
    by_contra early
    apply full j (by omega)
    have byte := congrArg (fun l => l.getD 0 0) (extended_entry v sound before (c := c) (show j < 8 * dirs.length by omega))
    simp only [List.getD_eq_getElem?_getD, List.getElem?_drop] at byte
    unfold fileType at scratched ⊢
    rw [List.getD_eq_getElem?_getD] at scratched ⊢
    rw [← byte]
    exact scratched
  have ready' : Whole t₀ := ⟨v, ready.size⟩
  have saved : Saved t₀ s (dirs ++ [c]) chain name p (dirs ++ [c]) (8 * dirs.length) bs :=
    Saved.of_slot ready' base claimed' file' slot vacant first geo size steady error
      (by
        rw [data]
        show _ = Store.put _ (s₀.geo.slotAddr (dirs ++ [c]) (8 * dirs.length) + 2) _
        rw [slotAt])
  refine ⟨geo, size, steady, error, saved.sound, slot, fun live => Nat.lt_irrefl _ live.1,
    fun j hj scratched => absurd scratched (full j hj), .inr ⟨rfl, c, rfl⟩,
    saved.entry, ?_, ?_, saved.file, claimed.fresh, ?_, ?_⟩
  · intro j hj ne
    rw [saved.others j (by rw [List.length_append]; omega) ne]
    exact extended_entry v sound before hj
  · intro j low high ne
    rw [List.length_append, List.length_singleton] at high
    rw [saved.others j (by rw [List.length_append, List.length_singleton]; omega) ne]
    exact extended_blank sound low (by omega)
  · intro j b hb k hk
    obtain ⟨insideB, _, systemB⟩ := sound.taken b (.inr ⟨j, hb⟩)
    rw [saved.kept j b hb k hk]
    exact extended_kept v sound before insideB (fun same => unused (.inr ⟨j, same ▸ hb⟩)) hk
      (.inl fun same => (sound.once j b hb).1 (same ▸ List.getLast_mem sound.nonempty))
      (v.bamArea_outside insideB systemB hk)
  · intro k hk outside
    rw [saved.header k hk outside]
    exact extended_kept v sound before v.header (fun same => system (.inl same.symm)) hk
      (.inl fun same => (sound.taken _ (.inl (List.getLast_mem sound.nonempty))).2.2 (.inl same.symm)) outside

omit ready sound in
theorem Saving.idle (h : Saving s₀ name s bs p) : Saving s₀ name { s with creating := false } bs p :=
  ⟨h.geo, h.size, h.error, h.filename, h.directory, h.allocated, h.nonempty, h.start, h.current, h.claimed,
    h.stored, h.buffer, h.long, h.short⟩

/- Where the entry goes when the directory has a vacant slot. -/
theorem Saving.place (h : Saving s₀ name s bs p) {d₁ : Nat → UInt8} {fault : Option Nat} {q : D64}
    (reach : Reaches s d₁ fault q) (claimed : s₀.geo.Claimed s₀.container.data bs d₁)
    (file : Holds s₀.geo d₁ bs p) {i : Nat} (slot : i < 8 * dirs.length)
    (vacant : fileType (s₀.geo.entryOf s₀.container.data dirs i) = 0)
    (first : ∀ j < 8 * dirs.length, fileType (s₀.geo.entryOf s₀.container.data dirs j) = 0 → i ≤ j)
    (fate : Fate [.entry false] fault o) (entry : Str)
    (bytes : entry = overwrite (Store.read d₁ (s₀.geo.addr (dirs.getD (i / 8) ⟨0, 0⟩)) 256) (i % 8 * 32 + 2)
      (newEntry q.create_filename q.create_start (q.create_allocated.length % 65536))) :
    ∃ r s', q.writeBlock (dirs.getD (i / 8) ⟨0, 0⟩).track (dirs.getD (i / 8) ⟨0, 0⟩).sector entry = (r, s') ∧
      (r = false → Failed s₀ (s'.failWrite ST_WRITE_VERIFY) o) ∧
      (r = true → o = .complete ∧ Saved s₀ s' dirs chain name p dirs i bs) := by
  have v := ready.valid
  have geo : q.geo = s₀.geo := reach.geo.trans h.geo
  have wholeQ := reach.whole (h.whole ready)
  have inside : q.geo.Inside (dirs.getD (i / 8) ⟨0, 0⟩) := by
    rw [geo]
    exact sound.dirs_inside _ (Geometry.slot_mem slot)
  have fields : newEntry q.create_filename q.create_start (q.create_allocated.length % 65536) =
      newEntry name (bs.getD 0 ⟨0, 0⟩) (bs.length % 65536) := by
    rw [reach.eq]
    dsimp only
    rw [h.filename, h.start, h.allocated]
  have length := length_newEntry name (bs.getD 0 ⟨0, 0⟩) (bs.length % 65536)
  rw [fields] at bytes
  have full : entry.length = 256 := by
    rw [bytes]
    simp only [overwrite, List.length_append, List.length_take, List.length_drop, Store.length_read, length]
    omega
  have target : Store.put d₁ (s₀.geo.addr (dirs.getD (i / 8) ⟨0, 0⟩)) entry =
      Store.put d₁ (s₀.geo.slotAddr dirs i + 2) (newEntry name (bs.getD 0 ⟨0, 0⟩) (bs.length % 65536)) := by
    rw [bytes, overwrite, Store.put_overwrite _ _ _ _ _ (by omega)]
    congr 1
    unfold Geometry.slotAddr
    omega
  by_cases refuses : fault = some 0
  · obtain ⟨s', write, reach'⟩ := writeBlock_refused q wholeQ.valid _ inside entry full
      (reach.fault.trans refuses)
    refine ⟨false, s', write, fun _ => ?_, fun no => by cases no⟩
    rw [reach.data] at reach'
    obtain rfl := fate.refused refuses rfl
    exact h.giveBack ready sound (reach.trans reach') claimed (by decide) (by decide) id
  · obtain ⟨steady, done⟩ := fate.entry refuses
    obtain ⟨s', write, reach'⟩ := writeBlock_taken q wholeQ.mounted _ inside entry full
      (by rw [reach.fault]; exact refuses)
    rw [reach.data, reach.fault, geo, steady, target] at reach'
    refine ⟨true, s', write, (fun no => by cases no), fun _ => ⟨done, ?_⟩⟩
    refine Saved.of_slot ready sound claimed file slot vacant first (reach'.geo.trans geo) ?_ reach'.fault ?_ reach'.data
    · rw [reach'.size wholeQ, reach.size (h.whole ready), h.size]
    · rw [reach'.eq, reach.eq]
      exact h.error

/- A full directory gets another sector, or the save is given up. -/
theorem Saving.grow (h : Saving s₀ name s bs p) {d₁ : Nat → UInt8} {fault : Option Nat} {q : D64}
    (reach : Reaches s d₁ fault q) (claimed : s₀.geo.Claimed s₀.container.data bs d₁)
    (same : ∀ b, s₀.geo.free d₁ b = s₀.geo.free s.container.data b)
    (plan : List Write) (listed : plan = match s₀.geo.pick d₁ true (dirs.getLast sound.nonempty).track
        (dirs.getLast sound.nonempty).sector with
      | none => []
      | some b => s₀.geo.mapWrites b.track ++ [.link, .entry true])
    (fate : Fate plan fault o) :
    (∃ code s', q.extendDirectory (dirs.getLast sound.nonempty) = (.error code, s') ∧
      Failed s₀ (s'.failWrite code) o) ∨
    (∃ c s' fault', q.extendDirectory (dirs.getLast sound.nonempty) = (.ok (c, blankSector, 0), s') ∧
      s₀.geo.Inside c ∧ s₀.geo.free d₁ c = true ∧
      Reaches s (Store.put (s₀.geo.setFree d₁ c true) (s₀.geo.addr (dirs.getLast sound.nonempty))
        [UInt8.ofNat c.track, UInt8.ofNat c.sector]) fault' s' ∧
      Fate [.entry true] fault' o) := by
  have v := ready.valid
  have geo : q.geo = s₀.geo := reach.geo.trans h.geo
  have mounted := (reach.whole (h.whole ready)).mounted
  have ok : q.geo.BamOk q.container.data := by
    rw [geo, reach.data]
    exact claimed.bam
  obtain ⟨insideT, _, systemT⟩ := sound.taken _ (.inl (List.getLast_mem sound.nonempty))
  cases found : s₀.geo.pick d₁ true (dirs.getLast sound.nonempty).track
      (dirs.getLast sound.nonempty).sector with
  | none =>
    rw [found] at listed
    subst listed
    obtain ⟨steady, rfl⟩ := fate.nil
    obtain ⟨s', claim, moved⟩ := claimBlock_none q mounted ok true _ _
      (by rw [geo, reach.data]; exact found)
    have reach' : Reaches q d₁ none s' := by
      have step := moved
      unfold Moved at step
      rwa [reach.data, reach.fault, steady] at step
    left
    refine ⟨ST_DISK_FULL, s', by simp only [extendDirectory, claim], ?_⟩
    exact h.giveBack ready sound (reach.trans reach') claimed (by decide) (by decide) id
  | some c =>
    rw [found] at listed
    subst listed
    dsimp only at fate
    obtain ⟨inside, free⟩ := Geometry.pick_some v found
    have represented := inside.represented v
    have allocated := Geometry.free_allocate (d := d₁) v represented
    have claims := claimBlock_cases q mounted ok true (dirs.getLast sound.nonempty).track
      (dirs.getLast sound.nonempty).sector (b := c) (by rw [geo, reach.data]; exact found)
      (by rw [geo, reach.fault]; exact fate)
    rw [geo, reach.data] at claims
    rcases claims with ⟨s₁, fault₁, claim, reach₁, fate₁⟩ | ⟨s₁, d₂, claim, reach₁, refusal⟩
    · have geo₁ : s₁.geo = s₀.geo := reach₁.geo.trans geo
      have mounted₁ := reach₁.mounted mounted
      have insideT₁ : s₁.geo.Inside (dirs.getLast sound.nonempty) := by rw [geo₁]; exact insideT
      have length : (((Store.read q.container.data (q.geo.addr (dirs.getLast sound.nonempty)) 256).set 0
          (UInt8.ofNat c.track)).set 1 (UInt8.ofNat c.sector)).length = 256 := by simp
      by_cases refuses : fault₁ = some 0
      · -- the link is refused, and the new sector given back
        obtain ⟨s₂, write, reach₂⟩ := writeBlock_refused s₁ mounted₁.valid _ insideT₁ _ length
          (reach₁.fault.trans refuses)
        rw [reach₁.data] at reach₂
        have geo₂ : s₂.geo = s₀.geo := reach₂.geo.trans geo₁
        obtain ⟨s₃, give, reach₃⟩ := deallocateBlock_used s₂ (reach₂.mounted mounted₁) c
          (by rw [geo₂]; exact represented)
          (by
            rw [geo₂, reach₂.data, allocated]
            simp) reach₂.fault
        rw [geo₂, reach₂.data] at reach₃
        left
        refine ⟨ST_WRITE_VERIFY, s₃, ?_, ?_⟩
        · simp only [extendDirectory, claim, write, Bool.false_eq_true, if_false, give]
        · obtain rfl := fate₁.refused refuses rfl
          have back : ∀ x, s₀.geo.free (s₀.geo.setFree (s₀.geo.setFree d₁ c true) c false) x =
              s₀.geo.free d₁ x := by
            intro x
            rw [Geometry.free_release v represented, allocated]
            by_cases here : x = c
            · simp [here, free]
            · simp [here]
          refine h.giveBack ready sound (reach.trans (reach₁.trans (reach₂.trans reach₃))) ?_ (by decide)
            (by decide) id
          refine ⟨(claimed.bam.allocate v inside free).release v inside (by rw [allocated]; simp), ?_,
            claimed.fresh, claimed.nodup, ?_⟩
          · intro x
            rw [back]
            exact claimed.free x
          · intro a outside off
            rw [Geometry.setFree_outside v represented false outside,
              Geometry.setFree_outside v represented true outside]
            exact claimed.rest a outside off
      · obtain ⟨s₂, write, reach₂⟩ := writeBlock_taken s₁ mounted₁ _ insideT₁ _ length
          (by rw [reach₁.fault]; exact refuses)
        have sector : Store.read q.container.data (q.geo.addr (dirs.getLast sound.nonempty)) 256 =
            Store.read (s₀.geo.setFree d₁ c true) (s₀.geo.addr (dirs.getLast sound.nonempty)) 256 := by
          rw [geo, reach.data]
          apply Store.read_congr
          intro k hk
          exact (Geometry.setFree_outside v represented true (v.bamArea_outside insideT systemT hk)).symm
        rw [reach₁.data, reach₁.fault, geo₁, sector, Store.put_set_set] at reach₂
        right
        refine ⟨c, s₂, _, ?_, inside, free, reach.trans (reach₁.trans reach₂), fate₁.next rfl refuses⟩
        simp only [extendDirectory, claim, write, if_true]
        rfl
    · left
      refine ⟨ST_DISK_FULL, s₁, by simp only [extendDirectory, claim], ?_⟩
      rcases refusal with ⟨rfl, rfl⟩ | ⟨rfl, rfl⟩
      · exact h.giveBack ready sound (reach.trans reach₁) claimed (by decide) (by decide) id
      · have marked := Geometry.free_mark (d := d₁) v represented
        refine h.lose ready sound (reach.trans reach₁) (fun b hb => ?_) (by decide) trivial
          (b := c) (by rw [← same]; exact free) (by rw [marked]; simp)
        rw [marked, claimed.used hb, Bool.and_false]

/- The same in the first slot of a sector that was just linked. -/
theorem Saving.placeFirst (h : Saving s₀ name s bs p) {d₁ : Nat → UInt8} {fault : Option Nat} {q : D64} {c : Block}
    (claimed : s₀.geo.Claimed s₀.container.data bs d₁) (file : Holds s₀.geo d₁ bs p)
    (same : ∀ b, s₀.geo.free d₁ b = s₀.geo.free s.container.data b) (inside : s₀.geo.Inside c)
    (free : s₀.geo.free d₁ c = true)
    (full : ∀ j < 8 * dirs.length, fileType (s₀.geo.entryOf s₀.container.data dirs j) ≠ 0)
    (reach : Reaches s (Store.put (s₀.geo.setFree d₁ c true) (s₀.geo.addr (dirs.getLast sound.nonempty))
      [UInt8.ofNat c.track, UInt8.ofNat c.sector]) fault q)
    (fate : Fate [.entry true] fault o) (entry : Str)
    (bytes : entry = overwrite blankSector (0 * 32 + 2)
      (newEntry q.create_filename q.create_start (q.create_allocated.length % 65536))) :
    ∃ r s', q.writeBlock c.track c.sector entry = (r, s') ∧
      (r = false → Failed s₀ (s'.failWrite ST_WRITE_VERIFY) o) ∧
      (r = true → o = .complete ∧ Saved s₀ s' dirs chain name p (dirs ++ [c]) (8 * dirs.length) bs) := by
  have v := ready.valid
  have geo : q.geo = s₀.geo := reach.geo.trans h.geo
  have wholeQ := reach.whole (h.whole ready)
  have insideQ : q.geo.Inside c := by
    rw [geo]
    exact inside
  have fields : newEntry q.create_filename q.create_start (q.create_allocated.length % 65536) =
      newEntry name (bs.getD 0 ⟨0, 0⟩) (bs.length % 65536) := by
    rw [reach.eq]
    dsimp only
    rw [h.filename, h.start, h.allocated]
  have length := length_newEntry name (bs.getD 0 ⟨0, 0⟩) (bs.length % 65536)
  rw [fields] at bytes
  have sized : entry.length = 256 := by
    rw [bytes]
    simp only [overwrite, List.length_append, List.length_take, List.length_drop, length_blankSector, length]
    omega
  by_cases refuses : fault = some 0
  · obtain ⟨s', write, reach'⟩ := writeBlock_refused q wholeQ.valid _ insideQ entry sized
      (reach.fault.trans refuses)
    refine ⟨false, s', write, fun _ => ?_, fun no => by cases no⟩
    rw [reach.data] at reach'
    obtain rfl := fate.refused refuses rfl
    obtain ⟨insideT, _, systemT⟩ := sound.taken _ (.inl (List.getLast_mem sound.nonempty))
    have taken : ∀ b, s₀.geo.free (Store.put (s₀.geo.setFree d₁ c true)
        (s₀.geo.addr (dirs.getLast sound.nonempty)) [UInt8.ofNat c.track, UInt8.ofNat c.sector]) b =
        (decide (b ≠ c) && s₀.geo.free d₁ b) := by
      intro b
      have agree := Geometry.put_agree (d := s₀.geo.setFree d₁ c true) v insideT systemT 0
        [UInt8.ofNat c.track, UInt8.ofNat c.sector] (by simp)
      rw [Nat.add_zero] at agree
      rw [Geometry.free_agree v agree, Geometry.free_allocate v (inside.represented v)]
    refine h.lose ready sound (reach.trans reach') (fun b hb => ?_) (by decide) trivial
      (b := c) (by rw [← same]; exact free) (by rw [taken]; simp)
    rw [taken, claimed.used hb, Bool.and_false]
  · obtain ⟨steady, done⟩ := fate.entry refuses
    obtain ⟨s', write, reach'⟩ := writeBlock_taken q wholeQ.mounted _ insideQ entry sized
      (by rw [reach.fault]; exact refuses)
    have target : Store.put (Store.put (s₀.geo.setFree d₁ c true) (s₀.geo.addr (dirs.getLast sound.nonempty))
        [UInt8.ofNat c.track, UInt8.ofNat c.sector]) (s₀.geo.addr c) entry =
        Store.put (extended s₀.geo d₁ (dirs.getLast sound.nonempty) c) (s₀.geo.addr c + 2)
          (newEntry name (bs.getD 0 ⟨0, 0⟩) (bs.length % 65536)) := by
      have sector : Store.read (extended s₀.geo d₁ (dirs.getLast sound.nonempty) c) (s₀.geo.addr c) 256 =
          blankSector := by
        rw [← length_blankSector]
        exact Store.read_put_same _ _ _
      have inner := Store.put_overwrite (extended s₀.geo d₁ (dirs.getLast sound.nonempty) c) (s₀.geo.addr c) 256 2
        (newEntry name (bs.getD 0 ⟨0, 0⟩) (bs.length % 65536)) (by omega)
      rw [sector] at inner
      rw [← inner, bytes]
      unfold extended overwrite
      rw [Store.put_put_same _ _ _ _ (by
        simp only [List.length_append, List.length_take, List.length_drop, length_blankSector, length]
        omega)]
    rw [reach.data, reach.fault, geo, steady, target] at reach'
    refine ⟨true, s', write, (fun no => by cases no), fun _ => ⟨done, ?_⟩⟩
    refine Saved.of_extension ready sound claimed file inside free full (reach'.geo.trans geo) ?_ reach'.fault ?_
      reach'.data
    · rw [reach'.size wholeQ, reach.size (h.whole ready), h.size]
    · rw [reach'.eq, reach.eq]
      exact h.error

/-- The last block is written and the directory entry follows, or the save is given up. -/
theorem Saving.finish (h : Saving s₀ name s bs p) (count : bs.length = blocksFor p.length) (root : s₀.AtRoot)
    (fate : Fate (s₀.geo.entryPlan (s₀.geo.vacantSlot s₀.container.data dirs) dirs s.container.data)
      s.container.fault o) :
    (∃ s', s.finalizeFileWrite = (false, s') ∧ Failed s₀ s' o) ∨
    (o = .complete ∧ ∃ s' dirs' i, s.finalizeFileWrite = (true, s') ∧ Saved s₀ s' dirs chain name p dirs' i bs) := by
  have v := ready.valid
  have idle := h.idle
  have wholeT := idle.whole ready
  have positive := List.length_pos_iff.mpr h.nonempty
  have lastMember : bs.getD (bs.length - 1) ⟨0, 0⟩ ∈ bs := getD_mem (by omega)
  obtain ⟨lastInside, lastSystem, _⟩ := h.block ready sound lastMember
  have short : s.cbuf.length ≤ 254 := by
    have := h.short
    rw [h.buffer, List.length_drop]
    omega
  have full := length_lastBlock s.cbuf short
  obtain ⟨claimed, file⟩ := h.holds ready sound count
  unfold Geometry.entryPlan at fate
  have lastWrite : ({ s with creating := false } : D64).writeBlock s.create_block.track s.create_block.sector
      (0 :: UInt8.ofNat (s.cbuf.length + 1) :: s.cbuf) =
      ({ s with creating := false } : D64).writeBlock (bs.getD (bs.length - 1) ⟨0, 0⟩).track
        (bs.getD (bs.length - 1) ⟨0, 0⟩).sector (lastBlock s.cbuf) := by
    rw [writeBlock_last _ _ _ _ short, h.current]
  have insideT : ({ s with creating := false } : D64).geo.Inside (bs.getD (bs.length - 1) ⟨0, 0⟩) := by
    rw [idle.geo]
    exact lastInside
  by_cases refuses : s.container.fault = some 0
  · -- the last block
    obtain ⟨s₁, write, reach⟩ := writeBlock_refused _ wholeT.valid _ insideT _ full refuses
    left
    refine ⟨s₁.failWrite ST_WRITE_VERIFY, ?_, ?_⟩
    · simp only [finalizeFileWrite, lastWrite, write, Bool.false_eq_true, if_false]
    · obtain rfl := fate.refused refuses rfl
      exact idle.giveBack ready sound reach h.claimed (by decide) (by decide) id
  · obtain ⟨s₁, write, reach⟩ := writeBlock_taken _ wholeT.mounted _ insideT _ full refuses
    have reach : Reaches { s with creating := false } (Store.put s.container.data
        (s₀.geo.addr (bs.getD (bs.length - 1) ⟨0, 0⟩)) (lastBlock s.cbuf)) (s.container.fault.map (· - 1)) s₁ := by
      rw [← h.geo]
      exact reach
    have fate := fate.next rfl refuses
    have geo₁ : s₁.geo = s₀.geo := reach.geo.trans idle.geo
    have whole₁ := reach.whole wholeT
    have sectors : ∀ b ∈ dirs, ∀ k < 256, s₁.container.data (s₀.geo.addr b + k) =
        s₀.container.data (s₀.geo.addr b + k) := by
      rw [reach.data]
      exact fun b hb => claimed.onChain v sound (.inl hb)
    obtain ⟨q, moved, walk⟩ := findSlot_walk s₁ whole₁ dirs s₀.geo.directoryStart 1001
      (by
        rw [geo₁]
        exact sound.directory.congr fun b hb => Geometry.link_congr (sectors b hb))
      sound.nonempty (by rw [geo₁]; exact sound.dirs_inside)
    rw [geo₁, Geometry.slotAmong_congr sectors] at walk
    have reachQ : Reaches { s with creating := false } (Store.put s.container.data
        (s₀.geo.addr (bs.getD (bs.length - 1) ⟨0, 0⟩)) (lastBlock s.cbuf)) (s.container.fault.map (· - 1)) q := by
      have step := moved
      unfold Moved at step
      rw [reach.data, reach.fault] at step
      exact reach.trans step
    have start : (if s₁.dir_track ≠ 0 then (⟨s₁.dir_track, s₁.dir_sector⟩ : Block)
        else ⟨s₁.geo.directory_track, s₁.geo.directory_sector⟩) = s₀.geo.directoryStart := by
      rw [geo₁, reach.eq]
      dsimp only
      rw [h.directory.1, h.directory.2]
      unfold Geometry.directoryStart
      rcases root with zero | ⟨track, sector⟩
      · rw [if_neg (by simpa using zero)]
      · rw [← track, ← sector]
        split <;> rfl
    cases found : s₀.geo.vacantSlot s₀.container.data dirs with
    | some place =>
      obtain ⟨b, x⟩ := place
      obtain ⟨i, slot, _, rfl, rfl, vacant, first⟩ := Geometry.slotAmong_some found
      rw [found] at fate
      dsimp only at fate
      have found' : s₀.geo.slotAmong s₀.container.data dirs 1001 = some (dirs.getD (i / 8) ⟨0, 0⟩, i % 8) := found
      rw [found'] at walk
      obtain ⟨r, s', write', failed, saved⟩ := idle.place ready sound reachQ claimed file slot vacant first fate _ rfl
      rw [← reach.data] at write'
      have run : s.finalizeFileWrite = if r then (true, s') else (false, s'.failWrite ST_WRITE_VERIFY) := by
        simp only [finalizeFileWrite, lastWrite, write, if_true, start, walk, write']
      cases r with
      | false => exact .inl ⟨_, run, failed rfl⟩
      | true =>
        obtain ⟨done, saved⟩ := saved rfl
        exact .inr ⟨done, s', dirs, i, run, saved⟩
    | none =>
      have found' : s₀.geo.slotAmong s₀.container.data dirs 1001 = none := found
      rw [found'] at walk
      dsimp only at walk
      have tail : dirs.getLastD ⟨0, 0⟩ = dirs.getLast sound.nonempty := by
        cases dirs with
        | nil => exact absurd rfl sound.nonempty
        | cons b l => rfl
      have freed : ∀ b, s₀.geo.free (Store.put s.container.data (s₀.geo.addr (bs.getD (bs.length - 1) ⟨0, 0⟩))
          (lastBlock s.cbuf)) b = s₀.geo.free s.container.data b := by
        intro b
        rw [claimed.free, h.claimed.free]
      rw [found] at fate
      dsimp only at fate
      rw [tail] at walk fate
      by_cases bounded : dirs.length ≤ 1001
      · rw [if_pos bounded] at walk fate
        rw [← Geometry.pick_congr freed] at fate
        rcases idle.grow ready sound reachQ claimed freed _ rfl fate with
          ⟨code, s', extend, failed⟩ | ⟨c, s', fault', extend, inside, free, reach', fate'⟩
        · left
          refine ⟨_, ?_, failed⟩
          simp only [finalizeFileWrite, lastWrite, write, if_true, start, walk, extend]
        · obtain ⟨r, s₂, write', failed, saved⟩ := idle.placeFirst ready sound claimed file freed inside free
            (fun j hj => Geometry.slotAmong_none found hj (by omega)) reach' fate' _ rfl
          have run : s.finalizeFileWrite = if r then (true, s₂) else (false, s₂.failWrite ST_WRITE_VERIFY) := by
            simp only [finalizeFileWrite, lastWrite, write, if_true, start, walk, extend, write']
          cases r with
          | false => exact .inl ⟨_, run, failed rfl⟩
          | true =>
            obtain ⟨done, saved⟩ := saved rfl
            exact .inr ⟨done, s₂, dirs ++ [c], 8 * dirs.length, run, saved⟩
      · rw [if_neg bounded] at walk fate
        obtain ⟨steady, rfl⟩ := fate.nil
        left
        refine ⟨q.failWrite ST_DIR_ERROR, ?_, ?_⟩
        · simp only [finalizeFileWrite, lastWrite, write, if_true, start, walk]
        · rw [steady] at reachQ
          exact idle.giveBack ready sound reachQ claimed (by decide) (by decide) id

end finish

end D64

end Meatloaf.Disk
