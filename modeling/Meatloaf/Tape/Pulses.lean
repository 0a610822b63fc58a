import Mathlib.Data.List.Forall2
import Meatloaf.Tape.Reading

/-! Durations, written as the bytes of a TAP image of version 1 and read back. A byte stands for a
multiple of eight cycles; what has no byte is written in 24 bits. -/
namespace Meatloaf.Tape

open Lib TapeFormat TapeDecoder Window

variable {answer : Nat → Nat} {f : TapeFormat} {image rest : Str} {cycles p n : Nat} {ds : List Nat}

/- The bytes of a duration. -/
def code (cycles : Nat) : Str := appendValue cycles []

/- What they stand for. -/
def restored (cycles : Nat) : Nat := if 8 ≤ cycles ∧ cycles ≤ 255 * 8 then (cycles + 4) / 8 * 8 else cycles % 2 ^ 24

/- An image of durations. -/
def written (f : TapeFormat) (ds : List Nat) : Str := ds.foldl (fun image cycles => appendValue cycles image) (imageHeader f)

/- The durations that are read from an image. -/
def readBack (answer : Nat → Nat) (image : Str) : Option (List Nat) :=
  (openContainer answer image).map fun d =>
    (values (readBytes image answer) image.length d.format image.length data_start d.window).1

/-- As many durations as were written, each within 4 cycles. -/
def Preserved (answer : Nat → Nat) (f : TapeFormat) (ds : List Nat) : Prop :=
  ∃ back, readBack answer (written f ds) = some back ∧ List.Forall₂ (fun d e => d ≤ e + 4 ∧ e ≤ d + 4) ds back

theorem appendValue_eq (cycles : Nat) (image : Str) : appendValue cycles image = image ++ code cycles := by
  simp only [code, appendValue]
  split <;> rfl

theorem written_eq (f : TapeFormat) (ds : List Nat) : written f ds = imageHeader f ++ ds.flatMap code := by
  rw [written]
  generalize imageHeader f = image
  induction ds generalizing image with
  | nil => rw [List.foldl_nil, List.flatMap_nil, List.append_nil]
  | cons d ds ih => rw [List.foldl_cons, ih, appendValue_eq, List.flatMap_cons, List.append_assoc]

theorem code_positive (cycles : Nat) : 0 < (code cycles).length := by
  simp only [code, appendValue]
  split <;> exact Nat.succ_pos _

/-- The bytes of a duration stand for one within 4 cycles exactly when it has 24 bits. -/
theorem restored_near (cycles : Nat) : (cycles ≤ restored cycles + 4 ∧ restored cycles ≤ cycles + 4) ↔ cycles < 2 ^ 24 := by
  rw [restored]
  split <;> omega

/- Bytes of an image that are there. -/
theorem slice_run {a : Str} (here : image.drop p = a ++ rest) (inside : p ≤ image.length) :
    (slice image p a.length).run = some a := by
  have length := congrArg List.length here
  rw [List.length_drop, List.length_append] at length
  have fits : a.length = 0 ∨ p + a.length ≤ image.length := .inr (by omega)
  simp only [slice, Id.run, if_pos fits, here, List.take_left]

/-- A duration is read from its bytes. -/
theorem nextValue_code (kind : f.kind = .tap) (version : f.version = 1) (here : image.drop p = code cycles ++ rest)
    (inside : p ≤ image.length) :
    (nextValue (slice image) image.length f p).run = (some (restored cycles), p + (code cycles).length) := by
  have length := congrArg List.length here
  rw [List.length_drop, List.length_append] at length
  have positive := code_positive cycles
  have before : ¬ image.length ≤ p := by omega
  have one : (1 : UInt8) ≠ 0 := by decide
  simp only [nextValue, kind, before, if_false, version, one]
  by_cases short : 8 ≤ cycles ∧ cycles ≤ 255 * 8
  · have byte : (cycles + 4) / 8 < 256 ∧ (cycles + 4) / 8 ≠ 0 := by omega
    have coded : code cycles = [UInt8.ofNat ((cycles + 4) / 8)] := if_pos short
    rw [coded] at here ⊢
    have read : slice image p 1 = some [UInt8.ofNat ((cycles + 4) / 8)] := slice_run here inside
    have value : number [UInt8.ofNat ((cycles + 4) / 8)] = (cycles + 4) / 8 := by
      simp only [number, List.foldr_cons, List.foldr_nil, UInt8.toNat_ofNat', Nat.mod_eq_of_lt byte.1]
      rfl
    simp only [read, Id.run, bind, pure, value, byte.2, ne_eq, not_false_eq_true, if_true, restored, if_pos short]
    rfl
  · have coded : code cycles = ([0] : Str) ++ [UInt8.ofNat cycles, UInt8.ofNat (cycles >>> 8), UInt8.ofNat (cycles >>> 16)] :=
      if_neg short
    rw [coded, List.append_assoc] at here
    have behind : image.drop (p + 1) =
        [UInt8.ofNat cycles, UInt8.ofNat (cycles >>> 8), UInt8.ofNat (cycles >>> 16)] ++ rest := by
      rw [← List.drop_drop, here]
      rfl
    have read : slice image p 1 = some [0] := slice_run here inside
    have read' : slice image (p + 1) 3 = some [UInt8.ofNat cycles, UInt8.ofNat (cycles >>> 8), UInt8.ofNat (cycles >>> 16)] :=
      slice_run behind (by omega)
    have value : number [UInt8.ofNat cycles, UInt8.ofNat (cycles >>> 8), UInt8.ofNat (cycles >>> 16)] = cycles % 2 ^ 24 := by
      simp only [number, List.foldr_cons, List.foldr_nil, UInt8.toNat_ofNat', Nat.shiftRight_eq_div_pow]
      omega
    have zero : number [0] = 0 := rfl
    rw [coded]
    simp only [read, read', Id.run, bind, pure, zero, ne_eq, not_true_eq_false, if_false, value, restored, if_neg short]
    rfl

/-- Durations are read one after the other. -/
theorem values_code (kind : f.kind = .tap) (version : f.version = 1) (here : image.drop p = ds.flatMap code)
    (inside : p ≤ image.length) (enough : ds.length ≤ n) :
    (values (slice image) image.length f n p).run = ds.map restored := by
  induction ds generalizing p n with
  | nil =>
    cases n with
    | zero => rfl
    | succ n =>
      have ended : image.length ≤ p := List.drop_eq_nil_iff.mp here
      have none : nextValue (slice image) image.length f p = (none, p) := by
        simp only [nextValue, kind, ended, if_true]
        rfl
      simp only [values, none]
      rfl
  | cons d ds ih =>
    obtain ⟨n, rfl⟩ : ∃ m, n = m + 1 := ⟨n - 1, by rw [List.length_cons] at enough; omega⟩
    rw [List.flatMap_cons] at here
    have first := nextValue_code kind version here inside
    have length := congrArg List.length here
    rw [List.length_drop, List.length_append] at length
    have behind : image.drop (p + (code d).length) = ds.flatMap code := by
      rw [← List.drop_drop, here, List.drop_left]
    have positive := code_positive d
    have more := ih behind (by omega) (Nat.le_of_succ_le_succ enough)
    have first' : nextValue (slice image) image.length f p = (some (restored d), p + (code d).length) := first
    have more' : values (slice image) image.length f n (p + (code d).length) = ds.map restored := more
    simp only [values, first', Id.run, bind, pure, more', List.map_cons]

/- The image is opened as one of version 1. -/
theorem ofHeader_written (f : TapeFormat) (ds : List Nat) : ofHeader ((written f ds).take 20) = some
    { kind := .tap, version := 1, platform := f.platform, video := f.video, halfwaves := false } := by
  have header : (written f ds).take 20 = imageHeader f := by
    rw [written_eq]
    exact List.take_left' rfl
  rw [header]
  rfl

theorem length_written (f : TapeFormat) (ds : List Nat) : 20 + ds.length ≤ (written f ds).length := by
  rw [written_eq, List.length_append]
  have header : (imageHeader f).length = 20 := rfl
  have longer : ds.length ≤ (ds.flatMap code).length := by
    induction ds with
    | nil => exact Nat.le_refl _
    | cons d ds ih =>
      have := code_positive d
      rw [List.flatMap_cons, List.length_append, List.length_cons]
      omega
  omega

/-- What is read back. -/
theorem readBack_written (steady : ∀ k, answer k ≠ 0) (f : TapeFormat) (ds : List Nat) :
    readBack answer (written f ds) = some (ds.map restored) := by
  have long := length_written f ds
  have clean : ∀ s t : Window, Clean asked (fun k => answer k = 0) s t := fun _ _ k _ _ => steady k
  have opens := @readBytes_agrees (written f ds) answer 0 20
  have header : (readBytes (written f ds) answer 0 20 {}).1 = some ((written f ds).take 20) := by
    rw [opens.value {} (shows_start _) (clean _ _)]
    have fits : 20 = 0 ∨ 0 + 20 ≤ (written f ds).length := .inr (by omega)
    simp only [slice, Id.run, if_pos fits, List.drop_zero]
  have opened : openContainer answer (written f ds) = some
      { container := written f ds
        format := { kind := .tap, version := 1, platform := f.platform, video := f.video, halfwaves := false }
        window := (readBytes (written f ds) answer 0 20 {}).2 } := by
    rw [openContainer, if_neg (by omega)]
    simp only [header, Option.bind_some, ofHeader_written, Option.map_some]
  have here : (written f ds).drop data_start = ds.flatMap code := by
    rw [written_eq]
    exact List.drop_left' rfl
  rw [readBack, opened, Option.map_some, Option.some.injEq]
  refine (Agrees.value (values_agrees (readBytes_agrees) _ _) _ (opens.keeps {} (shows_start _)) (clean _ _)).trans ?_
  exact values_code rfl rfl here (by rw [data_start]; omega) (by omega)

/-- Durations are preserved exactly when each has 24 bits. -/
theorem preserved_iff (answer : Nat → Nat) (steady : ∀ k, answer k ≠ 0) (f : TapeFormat) (ds : List Nat) :
    Preserved answer f ds ↔ ∀ d ∈ ds, d < 2 ^ 24 := by
  have back := readBack_written steady f ds
  have near : List.Forall₂ (fun d e => d ≤ e + 4 ∧ e ≤ d + 4) ds (ds.map restored) ↔ ∀ d ∈ ds, d < 2 ^ 24 := by
    rw [List.forall₂_map_right_iff, List.forall₂_same]
    exact forall₂_congr fun d _ => restored_near d
  rw [← near, Preserved, back]
  constructor
  · rintro ⟨_, same, preserved⟩
    rwa [← Option.some.inj same] at preserved
  · exact fun preserved => ⟨_, rfl, preserved⟩

/- A container that gives all it has. -/
def wholeReads : Nat → Nat := fun _ => 16384

theorem wholeReads_steady (k : Nat) : wholeReads k ≠ 0 := Nat.succ_ne_zero _

/-- A second and boundaries of the one-byte form. -/
theorem preserved_iff_samples : Preserved wholeReads { kind := .dmp, version := 0, platform := 0, video := 0, halfwaves := false }
      [985248, 7, 8, 2040, 2041] ↔ ∀ d ∈ [985248, 7, 8, 2040, 2041], d < 2 ^ 24 :=
  preserved_iff wholeReads wholeReads_steady _ _

/- An HTAP container with a pause of 20 seconds. -/
def longPause : Str := List.replicate 6 0 ++ htapSignature ++ List.replicate 8 0 ++ [0, 0, 0, 0, 0x31, 0x01, 0x00, 0x2d]

def longPauseOpen : TapeDecoder where
  container := longPause
  format := { kind := .htap, version := 0, platform := 0, video := 0, halfwaves := true }
  window := { bytes := longPause, asked := 1 }

/-- The pause is read, and comes back as one of three seconds. -/
theorem longPause_lost : ∃ d, openContainer wholeReads longPause = some d ∧
    (values (readBytes longPause wholeReads) longPause.length d.format 8 data_start d.window).1 = [19704960] ∧
    readBack wholeReads (written d.format [19704960]) = some [2927744] ∧ ¬ Preserved wholeReads d.format [19704960] := by
  have back : ∀ f, readBack wholeReads (written f [19704960]) = some [2927744] :=
    fun f => (readBack_written wholeReads_steady f _).trans (by decide)
  refine ⟨longPauseOpen, by rfl, by decide, back _, ?_⟩
  rintro ⟨found, same, preserved⟩
  rw [back, Option.some.injEq] at same
  subst same
  simp at preserved

end Meatloaf.Tape
