import Meatloaf.Disk.Session
import Meatloaf.Disk.Counts
import Meatloaf.Lib.Keyed

/-! What an image stands for: a map from names to contents. A save is an assignment, a scratch
removes a name, and opening a name reads what was assigned to it last. -/
namespace Meatloaf.Disk

open Lib

/- The name under which a file is found again. -/
def filedName (name : Str) : Str := entryName (0 :: 0 :: D64.newEntry name ⟨0, 0⟩ 0)

/-- The path leads to one name in the root directory, no pattern, that the directory keeps as it is. -/
structure Filed (path name : Str) : Prop where
  single : splitPathComponents path = [name]
  whole : endsWithHash path = false
  plain : isWildcard name = false
  straight : slashed name = name
  kept : filedName name = name

instance (path name : Str) : Decidable (Filed path name) :=
  decidable_of_iff (splitPathComponents path = [name] ∧ endsWithHash path = false ∧ isWildcard name = false ∧
      slashed name = name ∧ filedName name = name)
    ⟨fun ⟨a, b, c, d, e⟩ => ⟨a, b, c, d, e⟩, fun h => ⟨h.single, h.whole, h.plain, h.straight, h.kept⟩⟩

theorem takeWhile_stops {p : UInt8 → Bool} {l : Str} (tail : Str) (stop : ∃ x ∈ l, p x = false) :
    (l ++ tail).takeWhile p = l.takeWhile p := by
  induction l with
  | nil => simp at stop
  | cons x l ih =>
    cases first : p x with
    | false => simp [first]
    | true =>
      have later : ∃ y ∈ l, p y = false := by
        obtain ⟨y, member, ends⟩ := stop
        rcases List.mem_cons.mp member with rfl | member
        · rw [first] at ends
          cases ends
        · exact ⟨y, member, ends⟩
      simp only [List.cons_append, List.takeWhile_cons, first, if_true, ih later]

/- The name of an entry does not depend on where its file is. -/
theorem entryName_newEntry (name : Str) (start : Block) (n : Nat) :
    entryName (0 :: 0 :: D64.newEntry name start n) = filedName name := by
  have text : ∀ (start : Block) (n : Nat), ((0 :: 0 :: D64.newEntry name start n).drop 5).takeWhile (· ≠ 0) =
      (D64.nameField name ++ List.replicate 9 0).takeWhile (· ≠ 0) := by
    intro start n
    exact takeWhile_stops _ ⟨0, by simp, by simp⟩
  unfold filedName entryName rawName
  rw [text, text]

/- The block count of an entry has 16 bits. -/
theorem entryBlocks_newEntry (name : Str) (start : Block) {n : Nat} (small : n < 65536) :
    entryBlocks (0 :: 0 :: D64.newEntry name start n) = n := by
  have long := D64.length_nameField name
  have front : (0 :: 0 :: D64.newEntry name start n) = (0 :: 0 :: 0x82 :: UInt8.ofNat start.track ::
      UInt8.ofNat start.sector :: D64.nameField name ++ List.replicate 9 0) ++
        [UInt8.ofNat (n % 256), UInt8.ofNat (n / 256)] := rfl
  have thirty : (0 :: 0 :: 0x82 :: UInt8.ofNat start.track :: UInt8.ofNat start.sector :: D64.nameField name ++
      List.replicate 9 0 : Str).length = 30 := by simp [long]
  have low : (UInt8.ofNat (n % 256)).toNat = n % 256 := UInt8.toNat_ofNat_of_lt (Nat.mod_lt n (by decide))
  have high : (UInt8.ofNat (n / 256)).toNat = n / 256 := UInt8.toNat_ofNat_of_lt (show n / 256 < 256 by omega)
  unfold entryBlocks
  rw [front, List.getD_append_right _ _ _ _ (by rw [thirty]), List.getD_append_right _ _ _ _ (by rw [thirty]; decide), thirty]
  show (UInt8.ofNat (n % 256)).toNat + 256 * (UInt8.ofNat (n / 256)).toNat = n
  omega

/-- A name is found in the entries that carry it. -/
theorem Filed.match_iff {path name : Str} (filed : Filed path name) (e : List UInt8) :
    liveMatch name e = true ↔ fileType e ≠ 0 ∧ entryName e = name := by
  unfold liveMatch
  dsimp only
  rw [filed.straight, filed.plain, compareFilename_plain]
  simp only [Bool.false_and, Bool.not_false, Bool.and_true, Bool.and_eq_true, bne_iff_ne, beq_iff_eq, ne_eq]
  exact ⟨fun h => ⟨h.1, h.2.symm⟩, fun h => ⟨h.1, h.2.symm⟩⟩

/- Names of ASCII characters -/

theorem nextPetscii_ascii (c : UInt8) (ascii : c.toNat ≤ 0x7f) (rest : Str) :
    nextPetscii (c :: rest) = (U8Char.toPetscii c.toNat, 1) := by
  unfold nextPetscii U8Char.fromCharArray
  simp [ascii]

theorem ascii_table : ∀ n, 0 < n → n < 128 →
    codePoint (U8Char.toPetscii n) = n ∧ U8Char.toPetscii n ≠ 0 ∧ U8Char.toPetscii n ≠ 0xA0 := by
  have all : ∀ n < 128, 0 < n →
      codePoint (U8Char.toPetscii n) = n ∧ U8Char.toPetscii n ≠ 0 ∧ U8Char.toPetscii n ≠ 0xA0 := by decide +kernel
  exact fun n positive small => all n small positive

def Ascii (s : Str) : Prop := ∀ c ∈ s, 0 < c.toNat ∧ c.toNat < 128

theorem toPETSCII2_ascii {s : Str} (ascii : Ascii s) : toPETSCII2 s = s.map fun c => U8Char.toPetscii c.toNat := by
  unfold toPETSCII2
  induction s with
  | nil => rfl
  | cons c s ih =>
    have first := (ascii c List.mem_cons_self).2
    have rest := ih fun x member => ascii x (List.mem_cons_of_mem c member)
    rw [List.length_cons, scan, nextPetscii_ascii c (by omega), List.drop_succ_cons, List.drop_zero, rest, List.map_cons]

theorem toUTF8_ascii {s : Str} (ascii : Ascii s) : toUTF8 (s.map fun c => U8Char.toPetscii c.toNat) = s := by
  induction s with
  | nil => rfl
  | cons c s ih =>
    obtain ⟨positive, small⟩ := ascii c List.mem_cons_self
    obtain ⟨code, some, _⟩ := ascii_table c.toNat positive small
    have rest := ih fun x member => ascii x (List.mem_cons_of_mem c member)
    have one : U8Char.toUtf8 c.toNat = [c] := by
      unfold U8Char.toUtf8
      rw [if_pos (by omega), UInt8.ofNat_toNat]
    unfold toUTF8 at rest ⊢
    rw [List.map_cons, List.flatMap_cons, if_pos some, code, one, rest, List.singleton_append]

/-- A short name of ASCII characters is kept. -/
theorem filedName_ascii {name : Str} (ascii : Ascii name) (short : name.length ≤ 16) : filedName name = name := by
  have petscii := toPETSCII2_ascii ascii
  have length : (name.map fun c => U8Char.toPetscii c.toNat).length = name.length := List.length_map ..
  have bytes : ∀ x ∈ name.map fun c => U8Char.toPetscii c.toNat, x ≠ 0 ∧ x ≠ 0xA0 := by
    intro x member
    obtain ⟨c, there, rfl⟩ := List.mem_map.mp member
    obtain ⟨positive, small⟩ := ascii c there
    exact (ascii_table c.toNat positive small).2
  have field : D64.nameField name =
      (name.map fun c => U8Char.toPetscii c.toNat) ++ List.replicate (16 - name.length) 0xA0 := by
    unfold D64.nameField
    rw [petscii, List.take_of_length_le (by omega)]
    dsimp only
    rw [length]
  have text : (D64.nameField name ++ List.replicate 9 0).takeWhile (fun x => decide (x ≠ 0)) = D64.nameField name := by
    rw [List.takeWhile_append_of_pos]
    · rw [List.replicate_succ, List.takeWhile_cons_of_neg (by simp), List.append_nil]
    · intro x member
      rw [field] at member
      rcases List.mem_append.mp member with letter | padding
      · exact decide_eq_true (bytes x letter).1
      · rw [List.eq_of_mem_replicate padding]
        decide
  have cut : ((0 :: 0 :: D64.newEntry name ⟨0, 0⟩ 0).drop 5).takeWhile (fun x => decide (x ≠ 0)) = D64.nameField name := by
    rw [← text]
    exact takeWhile_stops _ ⟨0, by simp, by simp⟩
  have letters : (0xA0 : UInt8) ∉ name.map fun c => U8Char.toPetscii c.toNat := fun member => (bytes _ member).2 rfl
  have index : (D64.nameField name).idxOf 0xA0 = name.length := by
    rw [field, List.idxOf_append_of_notMem letters, length]
    cases 16 - name.length with
    | zero => rfl
    | succ n => rw [List.replicate_succ, List.idxOf_cons_self, Nat.add_zero]
  have whole : (D64.nameField name).take name.length = name.map fun c => U8Char.toPetscii c.toNat := by
    rw [field, List.take_left' length]
  unfold filedName entryName rawName
  dsimp only
  rw [cut, index, D64.length_nameField]
  by_cases full : name.length = 16
  · rw [if_neg (by omega), ← full, whole, toUTF8_ascii ascii]
  · rw [if_pos (by omega), whole, toUTF8_ascii ascii]

/-- Such names without separators and pattern characters are found again. -/
theorem Filed.of_ascii {name : Str} (ascii : Ascii name) (short : name.length ≤ 16) (nonempty : name ≠ [])
    (plain : ∀ c ∈ name, c ≠ slash ∧ c ≠ backslash ∧ c ≠ star ∧ c ≠ question) (last : name.getLast? ≠ some hash) :
    Filed name name where
  single := splitPathComponents_plain name (fun member => (plain slash member).1 rfl) nonempty
  whole := beq_eq_false_iff_ne.mpr last
  plain := by
    unfold isWildcard
    rw [Bool.or_eq_false_iff, ← Bool.not_eq_true, ← Bool.not_eq_true, List.contains_iff_mem, List.contains_iff_mem]
    exact ⟨fun member => (plain star member).2.2.1 rfl, fun member => (plain question member).2.2.2 rfl⟩
  straight := by
    unfold slashed
    rw [List.map_congr_left (g := id), List.map_id]
    intro c member
    exact if_neg (plain c member).2.1
  kept := filedName_ascii ascii short

/- The file on the medium -/

namespace D64.Holds

variable {g : Geometry} {d : Nat → UInt8} {b b' : Block} {rest bs : List Block} {p : Str}

/- The file behind its first block. -/
theorem tail (h : Holds g d (b :: b' :: rest) p) : Holds g d (b' :: rest) (p.drop 254) where
  count := by
    have count := h.count
    simp only [List.length_cons, blocksFor, List.length_drop] at count ⊢
    omega
  inside c member := h.inside c (List.mem_cons_of_mem b member)
  stored k hk := by
    have stored := h.stored (k + 1) (by simpa using hk)
    rw [List.getD_cons_succ, List.getD_cons_succ] at stored
    rw [stored, List.drop_drop, Nat.mul_succ, Nat.add_comm (254 * k)]
  last := by
    have last := h.last
    simp only [List.length_cons, Nat.add_sub_cancel] at last ⊢
    rw [List.getD_cons_succ, Nat.mul_succ, Nat.add_comm (254 * rest.length), ← List.drop_drop] at last
    exact last

/-- The bytes a reader finds are the ones that were saved. -/
theorem fileBytes (h : Holds g d bs p) : g.fileBytes d bs = p := by
  induction bs generalizing p with
  | nil => exact absurd h.nonempty (by simp)
  | cons b rest ih =>
    cases rest with
    | nil =>
      have short : p.length ≤ 254 := by
        have count := h.count
        simp only [List.length_cons, List.length_nil, blocksFor] at count
        omega
      have last := h.last
      simp only [List.length_singleton, Nat.sub_self, Nat.mul_zero, List.drop_zero, List.getD_cons_zero] at last
      have used : g.usedBytes d b = p.length := by
        have byte := Store.getD_read d (g.addr b) 256 1 0 (by decide)
        rw [last] at byte
        unfold Geometry.usedBytes Geometry.link
        rw [← byte]
        have small : (UInt8.ofNat (p.length + 1)).toNat = p.length + 1 := UInt8.toNat_ofNat_of_lt (show p.length + 1 < 256 by omega)
        exact congrArg (· - 1) small
      have data := congrArg (fun l => (l.drop 2).take p.length) last
      rw [Store.drop_read _ _ _ _ (by decide), Store.take_read, Nat.min_eq_left (by omega)] at data
      rw [Geometry.fileBytes, used, data]
      simp [lastBlock]
    | cons b' rest =>
      have stored := congrArg (List.drop 2) (h.stored 0 (by simp))
      rw [Store.drop_read _ _ _ _ (by decide), Nat.mul_zero, List.drop_zero] at stored
      have first : Store.read d (g.addr b + 2) 254 = p.take 254 := stored
      rw [Geometry.fileBytes, ih h.tail, first, List.take_append_drop]

end D64.Holds

/-- What is in the slots of the directory: names and contents. -/
structure Stores (f : Format) (c : Container) (dirs : List Block) (chain : Nat → List Block)
    (file : Nat → Option (Str × Str)) : Prop where
  kept : Kept f c dirs chain
  vacant : ∀ i, ¬ f.standard.LiveAt c.data dirs i → file i = none
  filled : ∀ i, f.standard.LiveAt c.data dirs i → ∃ name p, file i = some (name, p) ∧
    entryName (f.standard.entryOf c.data dirs i) = name ∧
    entryBlocks (f.standard.entryOf c.data dirs i) = (chain i).length ∧ D64.Holds f.standard c.data (chain i) p

namespace Stores

variable {f : Format} {c : Container} {dirs : List Block} {chain : Nat → List Block} {file : Nat → Option (Str × Str)}
variable {m : Str → Option Str} {path name p : Str} {i : Nat}

theorem at_slot (h : Stores f c dirs chain file) (here : file i = some (name, p)) :
    f.standard.LiveAt c.data dirs i ∧ entryName (f.standard.entryOf c.data dirs i) = name ∧
      entryBlocks (f.standard.entryOf c.data dirs i) = (chain i).length ∧ D64.Holds f.standard c.data (chain i) p := by
  by_cases live : f.standard.LiveAt c.data dirs i
  · obtain ⟨n, q, there, named, counted, holds⟩ := h.filled i live
    rw [here] at there
    obtain ⟨rfl, rfl⟩ := Prod.mk.inj (Option.some.inj there)
    exact ⟨live, named, counted, holds⟩
  · rw [h.vacant i live] at here
    cases here

/- The bytes are the same. -/
theorem same (h : Stores f c dirs chain file) {c' : Container} (data : c'.data = c.data) (size : c'.size = c.size)
    (fault : c'.fault = c.fault) : Stores f c' dirs chain file where
  kept := h.kept.same data size fault
  vacant i := by
    rw [data]
    exact h.vacant i
  filled i := by
    rw [data]
    exact h.filled i

/- The lookup of a name goes to the slot that has it. -/
theorem lookup_some (h : Stores f c dirs chain file) (keyed : Keyed file m) (filed : Filed path name)
    (here : file i = some (name, p)) : f.standard.lookup c.data dirs (liveMatch name) = some i := by
  obtain ⟨live, named, -, -⟩ := h.at_slot here
  refine Geometry.lookup_some.mpr ⟨live.1, (filed.match_iff _).mpr ⟨live.2, named⟩, ?_⟩
  intro j before
  by_contra found
  rw [Bool.not_eq_false] at found
  obtain ⟨alive, same⟩ := (filed.match_iff _).mp found
  obtain ⟨n, q, there, named', -, -⟩ := h.filled j ⟨by have := live.1; omega, alive⟩
  rw [named'] at same
  subst same
  exact absurd (keyed.once j i _ _ _ there here) (by omega)

theorem lookup_none (h : Stores f c dirs chain file) (keyed : Keyed file m) (filed : Filed path name)
    (gone : m name = none) : f.standard.lookup c.data dirs (liveMatch name) = none := by
  refine Geometry.lookup_none.mpr ?_
  intro j inside
  by_contra found
  rw [Bool.not_eq_false] at found
  obtain ⟨alive, same⟩ := (filed.match_iff _).mp found
  obtain ⟨n, q, there, named, -, -⟩ := h.filled j ⟨inside, alive⟩
  rw [named] at same
  subst same
  exact keyed.absent gone j q there

/- The reader that a path is looked up with. -/
theorem reader (h : Stores f c dirs chain file) :
    D64.Whole (D64.new f (c.seek 0)).resetPath ∧ (D64.new f (c.seek 0)).resetPath.entry.length = 32 ∧
      (D64.new f (c.seek 0)).resetPath.geo = f.standard ∧ (D64.new f (c.seek 0)).resetPath.container.data = c.data ∧
      Sound (D64.new f (c.seek 0)).resetPath.geo (D64.new f (c.seek 0)).resetPath.container.data dirs chain := by
  obtain ⟨whole, full, geo, data, kept⟩ := h.kept.opened (D64.resetPath_looks _)
  refine ⟨whole, full, geo, data, ?_⟩
  rw [geo, data]
  exact h.kept.sound

/-- The content of a slot is read under its name, in pieces of any sizes. -/
theorem reads (h : Stores f c dirs chain file) (keyed : Keyed file m) (filed : Filed path name)
    (here : file i = some (name, p)) : ∃ s, (D64.new f (c.seek 0)).seekPathIn path = some (true, s) ∧
      Delivers D64.readOf (0 < ·) s p := by
  obtain ⟨whole, full, geo, data, sound⟩ := h.reader
  obtain ⟨live, -, counted, holds⟩ := h.at_slot here
  have found := h.lookup_some keyed filed here
  have closed := h.kept.closed i live
  rw [← geo, ← data] at found closed counted holds
  have resolved := D64.resolvePath_found whole sound h.kept.short path name filed.single full found
    (by rw [closed]; decide)
  obtain ⟨called, position, offset⟩ := D64.resolvePath_reader resolved
  obtain ⟨b, rest, blocks⟩ := List.exists_cons_of_length_pos holds.nonempty
  rw [← geo, ← data] at live
  have chained := sound.file i live
  rw [blocks] at chained holds counted
  have file : FileChain (D64.new f (c.seek 0)).resetPath.geo (D64.new f (c.seek 0)).resetPath.container.data
      (D64.new f (c.seek 0)).resetPath.container.size
      (startBlock ((D64.new f (c.seek 0)).resetPath.geo.entryOf (D64.new f (c.seek 0)).resetPath.container.data dirs i))
      (b :: rest) := ⟨chained, List.cons_ne_nil _ _, fun c member => whole.readable (holds.inside c member)⟩
  have start := chained.head
  have opened := D64.seekPathIn_file filed.whole resolved (start ▸ file.readable b List.mem_cons_self)
  refine ⟨_, opened, ?_⟩
  have size : ((D64.new f (c.seek 0)).resetPath.onEntry dirs i).selected.size = (b :: rest).length * 254 :=
    congrArg (· * 254) counted
  have bytes : ((D64.new f (c.seek 0)).resetPath.onEntry dirs i).selected.geo.fileBytes
      ((D64.new f (c.seek 0)).resetPath.onEntry dirs i).selected.container.data (b :: rest) = p := holds.fileBytes
  have reading : D64.Reading ((D64.new f (c.seek 0)).resetPath.onEntry dirs i).selected
      (((D64.new f (c.seek 0)).resetPath.onEntry dirs i).selected.geo.fileBytes
        ((D64.new f (c.seek 0)).resetPath.onEntry dirs i).selected.container.data (b :: rest)) := by
    refine .start called offset (congrArg _ start.symm) (start ▸ file) ?_
    have zero : ((D64.new f (c.seek 0)).resetPath.onEntry dirs i).selected.position = 0 := position
    rw [size, List.length_cons]
    omega
  rw [bytes] at reading
  exact reading.delivers

/-- A name that is not there is not opened. -/
theorem misses (h : Stores f c dirs chain file) (keyed : Keyed file m) (filed : Filed path name)
    (gone : m name = none) : ∃ s, (D64.new f (c.seek 0)).seekPathIn path = some (false, s) := by
  obtain ⟨whole, full, geo, data, sound⟩ := h.reader
  have missing := h.lookup_none keyed filed gone
  rw [← geo, ← data] at missing
  have resolved := D64.resolvePath_missing whole sound h.kept.short path name filed.single full missing
  refine ⟨((D64.new f (c.seek 0)).resetPath.onEntry dirs (8 * dirs.length - 1)).clearEntry, ?_⟩
  unfold D64.seekPathIn
  dsimp only
  rw [if_neg (by simp [filed.whole]), resolved]
  rfl

/- A slot is given up, and the BAM with it. -/
theorem scratched (h : Stores f c dirs chain file) (live : f.standard.LiveAt c.data dirs i) {d' : Nat → UInt8}
    (released : f.standard.Released c.data (chain i) d') {c' : Container}
    (data : c'.data = Function.update d' (f.standard.slotAddr dirs i + 2) 0) (size : c'.size = c.size)
    (steady : c'.fault = none) :
    Stores f c' dirs (Function.update chain i []) (Function.update file i none) := by
  have v := f.standard_formattable.valid
  obtain ⟨-, -, others, entry⟩ := h.kept.sound.retype v live.1 released.rest 0
  have gone : ¬ f.standard.LiveAt c'.data dirs i := by
    rintro ⟨-, alive⟩
    rw [data, entry, fileType_set _ _ (by simp [Geometry.entryOf])] at alive
    exact alive rfl
  have alive_iff : ∀ j, j ≠ i → (f.standard.LiveAt c'.data dirs j ↔ f.standard.LiveAt c.data dirs j) := by
    intro j other
    unfold Geometry.LiveAt
    refine and_congr_right fun inside => ?_
    rw [data, others j inside other]
  refine ⟨h.kept.scratched live released data size steady, ?_, ?_⟩
  · intro j dead
    by_cases here : j = i
    · rw [here, Function.update_self]
    · rw [Function.update_of_ne here]
      exact h.vacant j fun alive => dead ((alive_iff j here).mpr alive)
  · intro j alive
    have other : j ≠ i := by
      rintro rfl
      exact gone alive
    have before := (alive_iff j other).mp alive
    obtain ⟨name, p, there, named, counted, holds⟩ := h.filled j before
    rw [Function.update_of_ne other, Function.update_of_ne other, data, others j before.1 other]
    refine ⟨name, p, there, named, counted, holds.congr ?_⟩
    intro b member k hk
    obtain ⟨inside, -, system⟩ := h.kept.sound.taken b (.inr ⟨j, member⟩)
    have dir := h.kept.sound.taken _ (.inl (Geometry.slot_mem live.1))
    have apart : f.standard.addr b + k ≠ f.standard.slotAddr dirs i + 2 := by
      have ends := f.standard.slot_end dirs i
      have starts : f.standard.addr (dirs.getD (i / 8) ⟨0, 0⟩) ≤ f.standard.slotAddr dirs i := Nat.le_add_right _ _
      have different : b ≠ dirs.getD (i / 8) ⟨0, 0⟩ := fun same =>
        (h.kept.sound.once j b member).1 (same ▸ Geometry.slot_mem live.1)
      rcases inside.apart dir.1 different with lo | hi
      · omega
      · omega
    rw [Function.update_of_ne apart]
    exact released.rest _ (v.bamArea_outside inside system hk)

/- A save that was given up leaves the slots alone. -/
theorem failed {s₀ s : D64} (h : Stores f s₀.container dirs chain file) (geo : s₀.geo = f.standard) {o : Outcome}
    (safe : ¬ o.Exposed) (failed : D64.Failed s₀ s o) : Stores f s.container dirs chain file := by
  obtain ⟨kept, same⟩ := h.kept.failed geo safe failed
  have entries : ∀ j < 8 * dirs.length, f.standard.entryOf s.container.data dirs j =
      f.standard.entryOf s₀.container.data dirs j :=
    fun j hj => Geometry.entry_congr fun k hk => same _ (.inl (Geometry.slot_mem hj)) k hk
  have alive_iff : ∀ j, f.standard.LiveAt s.container.data dirs j ↔ f.standard.LiveAt s₀.container.data dirs j := by
    intro j
    unfold Geometry.LiveAt
    refine and_congr_right fun inside => ?_
    rw [entries j inside]
  refine ⟨kept, fun j dead => h.vacant j fun alive => dead ((alive_iff j).mpr alive), fun j alive => ?_⟩
  have before := (alive_iff j).mp alive
  obtain ⟨name, p, there, named, counted, holds⟩ := h.filled j before
  rw [entries j before.1]
  exact ⟨name, p, there, named, counted, holds.congr fun b member k hk => same b (.inr ⟨j, member⟩) k hk⟩

/- A save that went through fills a vacant slot. -/
theorem saved {s₀ s : D64} (h : Stores f s₀.container dirs chain file) (geo : s₀.geo = f.standard)
    {dirs' bs : List Block} (saved : D64.Saved s₀ s dirs chain name p dirs' i bs) :
    Stores f s.container dirs' (Function.update chain i bs) (Function.update file i (some (filedName name, p))) := by
  have kept := h.kept.saved geo saved
  have entry := saved.entry
  have others := saved.others
  have blank := saved.blank
  have holds := saved.file
  have same := saved.kept
  rw [geo] at entry others blank holds same
  have fresh : (f.standard.entryOf s.container.data dirs' i).drop 2 =
      (0 :: 0 :: D64.newEntry name (bs.getD 0 ⟨0, 0⟩) (bs.length % 65536)).drop 2 := entry
  have grown : 8 * dirs.length ≤ 8 * dirs'.length := by
    rcases saved.grown with rfl | ⟨-, c, rfl⟩
    · exact Nat.le_refl _
    · rw [List.length_append]
      omega
  have old : ∀ j, j ≠ i → f.standard.LiveAt s.container.data dirs' j → f.standard.LiveAt s₀.container.data dirs j := by
    rintro j other ⟨inside, alive⟩
    by_cases early : j < 8 * dirs.length
    · rw [fileType_congr (others j early other)] at alive
      exact ⟨early, alive⟩
    · have none : (f.standard.entryOf s.container.data dirs' j).drop 2 =
          (0 :: 0 :: List.replicate 30 0).drop 2 := blank j (by omega) inside other
      rw [fileType_congr none] at alive
      exact absurd rfl alive
  refine ⟨kept, ?_, ?_⟩
  · intro j dead
    by_cases here : j = i
    · subst here
      refine absurd ⟨saved.slot, ?_⟩ dead
      rw [fileType_congr fresh]
      exact (by decide : (0x82 : UInt8) ≠ 0)
    · rw [Function.update_of_ne here]
      refine h.vacant j fun alive => dead ⟨by have := alive.1; omega, ?_⟩
      rw [fileType_congr (others j alive.1 here)]
      exact alive.2
  · intro j alive
    by_cases here : j = i
    · subst here
      have bounded := kept.bounded j
      rw [Function.update_self] at bounded
      rw [Function.update_self, Function.update_self]
      refine ⟨filedName name, p, rfl, ?_, ?_, holds⟩
      · rw [entryName_congr fresh, entryName_newEntry]
      · rw [entryBlocks_congr fresh, Nat.mod_eq_of_lt (by omega), entryBlocks_newEntry _ _ (by omega)]
    · have before := old j here alive
      obtain ⟨n, q, there, named, counted, stored⟩ := h.filled j before
      rw [Function.update_of_ne here, Function.update_of_ne here]
      refine ⟨n, q, there, ?_, ?_, stored.congr fun b member k hk => same j b member k hk⟩
      · rw [entryName_congr (others j before.1 here), named]
      · rw [entryBlocks_congr (others j before.1 here), counted]

/- A save that has come to its end, under a name no slot has. -/
theorem ended {s₀ s : D64} (h : Stores f s₀.container dirs chain file) (keyed : Keyed file m) (new : m name = none)
    (geo : s₀.geo = f.standard) (kept : filedName name = name) {o : Outcome} (safe : ¬ o.Exposed)
    (e : D64.Ended s₀ dirs chain name p o s) : ∃ dirs' chain' file', Stores f s.container dirs' chain' file' ∧
      Keyed file' (Function.update m name (if s.error = 0 then some p else none)) := by
  rcases e with failed | ⟨-, dirs', i, bs, saved⟩
  · rw [if_neg failed.error, Keyed.update_absent new]
    exact ⟨dirs, chain, file, h.failed geo safe failed, keyed⟩
  · have stores := h.saved geo saved
    have vacant := saved.vacant
    rw [geo] at vacant
    rw [kept] at stores
    rw [if_pos saved.error]
    exact ⟨dirs', _, _, stores, keyed.fill (h.vacant i vacant) new p⟩

/-- A save is an assignment: the name has the content afterwards, or nothing where an error is
reported. -/
theorem save (h : Stores f c dirs chain file) (keyed : Keyed file m) (filed : Filed path name) (chunks : List Str) :
    ∃ s dirs' chain' file', (D64.new f (c.seek 0)).save path chunks = some s ∧
      Stores f s.container dirs' chain' file' ∧
      Keyed file' (Function.update m name (if s.error = 0 then some chunks.flatten else none)) := by
  obtain ⟨whole, full, geo, data, kept⟩ := h.kept.opened (D64.Looks.refl _)
  have sound : Sound (D64.new f (c.seek 0)).geo (D64.new f (c.seek 0)).container.data dirs chain := by
    rw [geo]
    exact h.kept.sound
  cases found : m name with
  | none =>
    have missing := h.lookup_none keyed filed found
    rw [← geo, ← data] at missing
    obtain ⟨s, run, ended⟩ := D64.save_new whole ⟨rfl, rfl⟩ full sound h.kept.short path name filed.single filed.whole
      missing chunks (.steady h.kept.standard.steady)
    have here : Stores f (D64.new f (c.seek 0)).container dirs chain file := h.same rfl rfl rfl
    obtain ⟨dirs', chain', file', result⟩ := here.ended keyed found geo filed.kept (outcome_steady _) ended
    exact ⟨s, dirs', chain', file', run, result⟩
  | some q =>
    obtain ⟨i, there⟩ := keyed.complete name q found
    obtain ⟨live, -, -, -⟩ := h.at_slot there
    have lookup := h.lookup_some keyed filed there
    have closed := h.kept.closed i live
    rw [← geo, ← data] at lookup closed
    obtain ⟨s₁, d', s, released, looks, run, ended⟩ := D64.save_over whole ⟨rfl, rfl⟩ full sound h.kept.short path
      name filed.single filed.whole h.kept.standard.steady lookup (by rw [closed]; decide) (h.kept.bounded i) chunks
    rw [geo] at released
    have data₁ := looks.data
    dsimp only at data₁
    rw [geo] at data₁
    have scratched := h.scratched live released data₁ looks.size looks.fault
    have freed := keyed.free there
    obtain ⟨dirs', chain', file', stores, keyed'⟩ := scratched.ended freed (Function.update_self ..)
      (looks.geo.trans geo) filed.kept (outcome_steady _) ended
    rw [Function.update_idem] at keyed'
    exact ⟨s, dirs', chain', file', run, stores, keyed'⟩

/-- A scratch removes the name, and reports whether it was there. -/
theorem remove (h : Stores f c dirs chain file) (keyed : Keyed file m) (filed : Filed path name) :
    ∃ s chain' file', (D64.new f (c.seek 0)).removeFile path = some ((m name).isSome, s) ∧
      Stores f s.container dirs chain' file' ∧ Keyed file' (Function.update m name none) := by
  obtain ⟨whole, full, geo, data, kept⟩ := h.kept.opened (D64.Looks.refl _)
  have sound : Sound (D64.new f (c.seek 0)).geo (D64.new f (c.seek 0)).container.data dirs chain := by
    rw [geo]
    exact h.kept.sound
  cases found : m name with
  | none =>
    have missing := h.lookup_none keyed filed found
    rw [← geo, ← data] at missing
    have resolve := D64.resolvePath_missing whole sound h.kept.short path name filed.single full missing
    refine ⟨((D64.new f (c.seek 0)).onEntry dirs (8 * dirs.length - 1)).clearEntry, chain, file, ?_, ?_, ?_⟩
    · unfold D64.removeFile
      rw [resolve]
      rfl
    · have looks := (D64.onEntry_looks (D64.new f (c.seek 0)) dirs (8 * dirs.length - 1)).trans
        (D64.clearEntry_walks _).looks
      exact h.same looks.data looks.size looks.fault
    · rwa [Keyed.update_absent found]
  | some q =>
    obtain ⟨i, there⟩ := keyed.complete name q found
    obtain ⟨live, -, -, -⟩ := h.at_slot there
    have lookup := h.lookup_some keyed filed there
    have closed := h.kept.closed i live
    rw [← geo, ← data] at lookup closed
    obtain ⟨s, d', run, released, reach⟩ := D64.removeFile_root whole h.kept.standard.steady full sound h.kept.short
      path name filed.single lookup closed (h.kept.bounded i)
    rw [geo] at released reach
    have size := reach.size ((D64.onEntry_looks _ dirs i).whole whole)
    exact ⟨s, _, _, run, h.scratched live released reach.data size reach.fault, keyed.free there⟩

end Stores

/-- One operation on a freshly opened stream, with whether it reports success. -/
def Op.report (f : Format) (op : Op) (c : Container) : Option (Bool × Container) :=
  let s := D64.new f (c.seek 0)
  match op with
  | save path chunks => (s.save path chunks).map fun t => (decide (t.error = 0), t.container)
  | remove path => (s.removeFile path).map fun r => (r.1, r.2.container)
  | unremove path => (s.unremoveFile path).map fun r => (r.1, r.2.container)

def Op.reportAll (f : Format) : List Op → Container → Option (List Bool × Container)
  | [], c => some ([], c)
  | op :: ops, c => (op.report f c).bind fun r => (reportAll f ops r.2).map fun q => (r.1 :: q.1, q.2)

/-- What operations on filed names do to the map that the image stands for. -/
inductive Op.Assigns : List Op → List Bool → (Str → Option Str) → (Str → Option Str) → Prop where
  | nil (m : Str → Option Str) : Assigns [] [] m m
  | save {path name : Str} {m m' : Str → Option Str} {ops : List Op} {reports : List Bool} (filed : Filed path name)
      (chunks : List Str) (done : Bool)
      (rest : Assigns ops reports (Function.update m name (if done = true then some chunks.flatten else none)) m') :
      Assigns (.save path chunks :: ops) (done :: reports) m m'
  | remove {path name : Str} {m m' : Str → Option Str} {ops : List Op} {reports : List Bool} (filed : Filed path name)
      (rest : Assigns ops reports (Function.update m name none) m') :
      Assigns (.remove path :: ops) ((m name).isSome :: reports) m m'

/-- Saves and scratches of filed names. -/
def Op.OnFiles : Op → Prop
  | save path _ | remove path => ∃ name, Filed path name
  | unremove _ => False

/-- Opening a name reads what the map has under it. -/
def Serves (f : Format) (c : Container) (m : Str → Option Str) : Prop :=
  ∀ path name, Filed path name → match m name with
    | some p => ∃ s, (D64.new f (c.seek 0)).seekPathIn path = some (true, s) ∧ Delivers D64.readOf (0 < ·) s p
    | none => ∃ s, (D64.new f (c.seek 0)).seekPathIn path = some (false, s)

namespace Stores

variable {f : Format} {c : Container} {dirs : List Block} {chain : Nat → List Block} {file : Nat → Option (Str × Str)}
variable {m : Str → Option Str}

theorem serves (h : Stores f c dirs chain file) (keyed : Keyed file m) : Serves f c m := by
  intro path name filed
  cases found : m name with
  | none => exact h.misses keyed filed found
  | some p =>
    obtain ⟨i, there⟩ := keyed.complete name p found
    exact h.reads keyed filed there

/-- Any number of operations. -/
theorem run (h : Stores f c dirs chain file) (keyed : Keyed file m) (ops : List Op) (files : ∀ op ∈ ops, op.OnFiles) :
    ∃ reports c' m' dirs' chain' file', Op.reportAll f ops c = some (reports, c') ∧ Op.Assigns ops reports m m' ∧
      Stores f c' dirs' chain' file' ∧ Keyed file' m' := by
  induction ops generalizing c dirs chain file m with
  | nil => exact ⟨[], c, m, dirs, chain, file, rfl, .nil m, h, keyed⟩
  | cons op ops ih =>
    have later := fun o ho => files o (List.mem_cons_of_mem _ ho)
    have first := files op List.mem_cons_self
    cases op with
    | save path chunks =>
      obtain ⟨name, filed⟩ := first
      obtain ⟨s, _, _, _, run, stores, keyed'⟩ := h.save keyed filed chunks
      have agrees : (if s.error = 0 then some chunks.flatten else none) =
          if decide (s.error = 0) = true then some chunks.flatten else none := by simp
      rw [agrees] at keyed'
      obtain ⟨reports, c', m', dirs', chain', file', rest, assigns, result⟩ := ih stores keyed' later
      refine ⟨decide (s.error = 0) :: reports, c', m', dirs', chain', file', ?_, .save filed chunks _ assigns, result⟩
      simp only [Op.reportAll, Op.report, run, Option.map_some, Option.bind_some, rest]
    | remove path =>
      obtain ⟨name, filed⟩ := first
      obtain ⟨s, _, _, run, stores, keyed'⟩ := h.remove keyed filed
      obtain ⟨reports, c', m', dirs', chain', file', rest, assigns, result⟩ := ih stores keyed' later
      refine ⟨(m name).isSome :: reports, c', m', dirs', chain', file', ?_, .remove filed assigns, result⟩
      simp only [Op.reportAll, Op.report, run, Option.map_some, Option.bind_some, rest]
    | unremove path => exact first.elim

/-- A freshly laid out image stores nothing. -/
theorem blank (f : Format) {name id : Str} (labelled : D64.Labelled name id) :
    Stores f (D64.format f name id) [f.standard.directoryStart] (fun _ => []) (fun _ => none) := by
  obtain ⟨standard, formatted⟩ := format_standard f name id labelled
  exact ⟨⟨standard, formatted.sound f.standard_formattable, fun i live => absurd live (formatted.dead i)⟩, fun _ _ => rfl,
    fun i live => absurd live (formatted.dead i)⟩

end Stores

/-- For every writable class and every session of saves and scratches on a freshly laid out image, the image
stands for the map that the reports tell of: each name reads as it was saved last. -/
theorem session_contents (f : Format) (name id : Str) (labelled : D64.Labelled name id) (ops : List Op)
    (files : ∀ op ∈ ops, op.OnFiles) :
    ∃ reports c m, Op.reportAll f ops (D64.format f name id) = some (reports, c) ∧
      Op.Assigns ops reports (fun _ => none) m ∧ Serves f c m := by
  obtain ⟨reports, c, m, _, _, _, run, assigns, stores, keyed⟩ := (Stores.blank f labelled).run Keyed.empty ops files
  exact ⟨reports, c, m, run, assigns, stores.serves keyed⟩

/-- Two saves under one name and a scratch of another on a blank D81. -/
theorem session_contents_d81 : ∃ reports c m, Op.reportAll .d81 [.save [0x61] [[0x2A], [0x2B]], .save [0x61] [],
    .remove [0x62]] (D64.format .d81 [] []) = some (reports, c) ∧
      Op.Assigns [.save [0x61] [[0x2A], [0x2B]], .save [0x61] [], .remove [0x62]] reports (fun _ => none) m ∧
      Serves .d81 c m := by
  have a : Filed [0x61] [0x61] := Filed.of_ascii (List.forall_mem_singleton.mpr (by decide)) (by decide) (by decide)
    (List.forall_mem_singleton.mpr (by decide)) (by decide)
  have b : Filed [0x62] [0x62] := Filed.of_ascii (List.forall_mem_singleton.mpr (by decide)) (by decide) (by decide)
    (List.forall_mem_singleton.mpr (by decide)) (by decide)
  refine session_contents .d81 [] [] ⟨by decide, by decide⟩ _ ?_
  intro op member
  rcases List.mem_cons.mp member with rfl | member
  · exact ⟨_, a⟩
  · rcases List.mem_cons.mp member with rfl | member
    · exact ⟨_, a⟩
    · obtain rfl := List.mem_singleton.mp member
      exact ⟨_, b⟩

end Meatloaf.Disk
