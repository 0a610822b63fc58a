import Mathlib.Algebra.GroupWithZero.Nat
import Mathlib.Data.List.TakeDrop
import Mathlib.Data.List.GetD
import Meatloaf.Lib.Run
import Meatloaf.Lib.Store

/-! `ram.h`: the memory of a drive, as M-R and M-W see it. RAM stands at the bottom and once more behind
itself, ROM in the upper half and once more behind itself; how large they are is set independently. -/
namespace Meatloaf.Drive

open Lib

/-- `driveMemory`. The RAM has no bytes before it is first written. -/
structure DriveMemory where
  ram : List UInt8 := []
  ramSize : Nat := 2048
  rom : Option (List UInt8) := none
  mw_hash : UInt16 := 0xFFFF

/- Where the bytes come from that `read` answers with. -/
inductive Source where
  | zeros
  | ram (addr : Nat)
  | rom (addr : Nat)
  deriving DecidableEq

/- `memcpy` gets the place and the number of bytes. -/
structure Reading where
  got : Nat
  source : Source
  deriving DecidableEq

namespace DriveMemory

/- The RAM mirror, and the ROM mirror. -/
def ramAddr (addr : Nat) : Nat := if 0x0800 ≤ addr then addr - 0x0800 else addr
def romAddr (addr : Nat) : Nat := if 0xC000 ≤ addr then addr - 0xC000 else addr - 0x8000

def read (m : DriveMemory) (addr : UInt16) (len : Nat) : Reading :=
  if addr.toNat < 0x0FFF then
    let addr := ramAddr addr.toNat
    if m.ram = [] then if m.ramSize < addr + len then ⟨0, .zeros⟩ else ⟨len, .zeros⟩
    else if m.ram.length < addr + len then ⟨0, .zeros⟩
    else ⟨len, .ram addr⟩
  else if 0x8000 ≤ addr.toNat then
    match m.rom with
    | none => ⟨0, .zeros⟩
    | some rom =>
      let addr := romAddr addr.toNat
      -- `size_t` has 32 bits
      ⟨if rom.length < addr + len then (rom.length + 2 ^ 32 - addr) % 2 ^ 32 else len, .rom addr⟩
  else ⟨0, .zeros⟩

/- The bytes that are copied, and whether they are in the array that they are copied from. -/
def bytes (m : DriveMemory) (r : Reading) : List UInt8 :=
  match r.source with
  | .zeros => List.replicate r.got 0
  | .ram addr => (m.ram.drop addr).take r.got
  | .rom addr => ((m.rom.getD []).drop addr).take r.got

def Inside (m : DriveMemory) (r : Reading) : Prop :=
  match r.source with
  | .zeros => True
  | .ram addr => addr + r.got ≤ m.ram.length
  | .rom addr => addr + r.got ≤ (m.rom.getD []).length

/- What `write` allocates. -/
def allocated (m : DriveMemory) : List UInt8 := if m.ram = [] then List.replicate m.ramSize 0 else m.ram

variable (esp_rom_crc16_be : UInt16 → List UInt8 → UInt16)

/-- `write`: the place that is written, and the memory behind it. -/
def write (m : DriveMemory) (addr : UInt16) (data : List UInt8) : Option Nat × DriveMemory :=
  if addr.toNat < 0x0FFF then
    let addr := ramAddr addr.toNat
    if m.allocated.length < addr + data.length then (none, { m with ram := m.allocated })
    else
      (some addr, { m with
        ram := m.allocated.take addr ++ data ++ m.allocated.drop (addr + data.length)
        mw_hash := esp_rom_crc16_be m.mw_hash data })
  else (none, m)

def reset (m : DriveMemory) : DriveMemory := { m with ram := List.replicate m.ram.length 0, mw_hash := 0xFFFF }

/- A file that cannot be read leaves the ROM as it is. -/
def setROM (m : DriveMemory) (file : Option (List UInt8)) : DriveMemory := { m with rom := file.or m.rom }

end DriveMemory

/-- What is done to the memory of a drive. -/
inductive MemoryCall where
  | memoryRead (addr : UInt16) (size : UInt8)
  | memoryWrite (addr : UInt16) (data : List UInt8)
  | reset
  | setROM (file : Option (List UInt8))

/-- The memory, and beside it what was written last at each place of the RAM since the last reset. -/
structure Recalled where
  memory : DriveMemory
  last : Nat → UInt8 := fun _ => 0

namespace Recalled

variable (esp_rom_crc16_be : UInt16 → List UInt8 → UInt16)

/- The `n` bytes from an address of the RAM or of its mirror on are all in the RAM. -/
def Fits (x : Recalled) (addr : UInt16) (n : Nat) : Prop :=
  addr.toNat < 0x1000 ∧ addr.toNat % 0x0800 + n ≤ x.memory.ramSize

instance (x : Recalled) (addr : UInt16) (n : Nat) : Decidable (x.Fits addr n) := inferInstanceAs (Decidable (_ ∧ _))

def step (x : Recalled) : MemoryCall → Recalled
  | .memoryRead _ _ => x
  | .memoryWrite addr data =>
    { memory := (x.memory.write esp_rom_crc16_be addr data).2
      last := if x.Fits addr data.length then Store.put x.last (addr.toNat % 0x0800) data else x.last }
  | .reset => { memory := x.memory.reset }
  | .setROM file => { x with memory := x.memory.setROM file }

/- The bytes of the RAM are those written last, as far as they go. -/
def Remembers (x : Recalled) : Prop := ∀ i < x.memory.ramSize, x.memory.ram.getD i 0 = x.last i

/-- A read stays in the arrays and in what was asked for, and gives of the RAM what was written last; a
write stays in the RAM and is remembered. -/
def Sound (x : Recalled) : MemoryCall → Prop
  | .memoryRead addr size =>
    let r := x.memory.read addr size.toNat
    x.memory.Inside r ∧ r.got ≤ size.toNat ∧
      (x.Fits addr size.toNat → x.memory.bytes r = Store.read x.last (addr.toNat % 0x0800) size.toNat)
  | .memoryWrite addr data =>
    let r := x.memory.write esp_rom_crc16_be addr data
    (∀ place ∈ r.1, place + data.length ≤ r.2.ram.length) ∧ (x.step esp_rom_crc16_be (.memoryWrite addr data)).Remembers
  | _ => True

/-- No address is behind the end of the ROM, and the last address of the RAM's mirror is not used where
that matters. -/
def Mapped (x : Recalled) : MemoryCall → Prop
  | .memoryRead addr size =>
    (0x8000 ≤ addr.toNat → ∀ rom ∈ x.memory.rom, DriveMemory.romAddr addr.toNat ≤ rom.length) ∧
      (addr = 0x0FFF → x.Fits addr size.toNat → size = 0)
  | .memoryWrite addr data =>
    addr = 0x0FFF → x.Fits addr data.length → Store.read x.last 0x07FF data.length = data
  | _ => True

/-- The RAM has all of its bytes or none, and they are those written last. -/
structure Holds (x : Recalled) : Prop where
  whole : x.memory.ram ≠ [] → x.memory.ram.length = x.memory.ramSize
  remembers : x.Remembers

end Recalled

namespace DriveMemory

variable (esp_rom_crc16_be : UInt16 → List UInt8 → UInt16) {m : DriveMemory} {addr : UInt16}

theorem ramAddr_eq (low : addr.toNat < 0x0FFF) : ramAddr addr.toNat = addr.toNat % 0x0800 := by
  unfold ramAddr
  split
  · omega
  · omega

theorem allocated_getD (i : Nat) : m.allocated.getD i 0 = m.ram.getD i 0 := by
  unfold allocated
  split
  · rename_i none
    rw [none, List.getD_nil]
    by_cases inside : i < m.ramSize
    · exact List.getD_replicate 0 inside
    · exact List.getD_eq_default _ _ (by simpa using inside)
  · rfl

theorem allocated_length (whole : m.ram ≠ [] → m.ram.length = m.ramSize) : m.allocated.length = m.ramSize := by
  unfold allocated
  split
  · exact List.length_replicate
  · rename_i some
    exact whole some

/- A run written over the middle of a list. -/
theorem getD_splice (l data : List UInt8) {a : Nat} (fits : a + data.length ≤ l.length) (i : Nat) :
    (l.take a ++ data ++ l.drop (a + data.length)).getD i 0 = Store.put (fun k => l.getD k 0) a data i := by
  have front : (l.take a).length = a := List.length_take_of_le (by omega)
  by_cases low : i < a
  · rw [Store.put_outside _ _ _ _ (.inl low), List.append_assoc, List.getD_append _ _ _ _ (by omega)]
    simp [List.getD_eq_getElem?_getD, low]
  · by_cases inside : i < a + data.length
    · obtain ⟨k, rfl⟩ : ∃ k, i = a + k := ⟨i - a, by omega⟩
      rw [Store.put_getD _ _ _ _ 0 (by omega), List.getD_append _ _ _ _ (by rw [List.length_append]; omega),
        List.getD_append_right _ _ _ _ (by omega), front, Nat.add_sub_cancel_left]
    · rw [Store.put_outside _ _ _ _ (.inr (by omega)), List.getD_append_right _ _ _ _ (by rw [List.length_append]; omega),
        List.length_append, front]
      simp only [List.getD_eq_getElem?_getD, List.getElem?_drop]
      rw [show a + data.length + (i - (a + data.length)) = i by omega]

/- A write that the RAM has room for, and any other. -/
theorem write_inside (whole : m.ram ≠ [] → m.ram.length = m.ramSize) (low : addr.toNat < 0x0FFF) {data : List UInt8}
    (fits : addr.toNat % 0x0800 + data.length ≤ m.ramSize) :
    ∃ ram hash, m.write esp_rom_crc16_be addr data = (some (addr.toNat % 0x0800), { m with ram := ram, mw_hash := hash }) ∧
      ram.length = m.ramSize ∧ ∀ i, ram.getD i 0 = Store.put (fun k => m.ram.getD k 0) (addr.toNat % 0x0800) data i := by
  have length := allocated_length whole
  refine ⟨m.allocated.take (addr.toNat % 0x0800) ++ data ++ m.allocated.drop (addr.toNat % 0x0800 + data.length),
    esp_rom_crc16_be m.mw_hash data, ?_, ?_, fun i => ?_⟩
  · rw [write, if_pos low, ramAddr_eq low]
    exact if_neg (by omega)
  · simp only [List.length_append, List.length_take, List.length_drop]
    omega
  · rw [getD_splice _ _ (by omega)]
    exact congrArg (fun cells => Store.put cells _ data i) (funext allocated_getD)

theorem write_outside (whole : m.ram ≠ [] → m.ram.length = m.ramSize) {data : List UInt8}
    (outside : ¬ (addr.toNat < 0x0FFF ∧ addr.toNat % 0x0800 + data.length ≤ m.ramSize)) :
    ∃ ram, m.write esp_rom_crc16_be addr data = (none, { m with ram := ram }) ∧
      (ram ≠ [] → ram.length = m.ramSize) ∧ ∀ i, ram.getD i 0 = m.ram.getD i 0 := by
  have length := allocated_length whole
  by_cases low : addr.toNat < 0x0FFF
  · refine ⟨m.allocated, ?_, fun _ => length, allocated_getD⟩
    rw [write, if_pos low, ramAddr_eq low]
    exact if_pos (by have := not_and.mp outside low; omega)
  · exact ⟨m.ram, if_neg low, whole, fun _ => rfl⟩

/- What a read of the RAM gives, wherever the bytes come from. -/
theorem read_ram (whole : m.ram ≠ [] → m.ram.length = m.ramSize) (low : addr.toNat < 0x0FFF) (len : Nat) :
    m.Inside (m.read addr len) ∧ (m.read addr len).got ≤ len ∧ (addr.toNat % 0x0800 + len ≤ m.ramSize →
      m.bytes (m.read addr len) = Store.read (fun k => m.ram.getD k 0) (addr.toNat % 0x0800) len) := by
  rw [read, if_pos low, ramAddr_eq low]
  dsimp only
  by_cases empty : m.ram = []
  · rw [if_pos empty]
    by_cases outside : m.ramSize < addr.toNat % 0x0800 + len
    · rw [if_pos outside]
      exact ⟨trivial, Nat.zero_le len, fun fits => absurd fits (by omega)⟩
    · rw [if_neg outside]
      refine ⟨trivial, Nat.le_refl len, fun _ => ?_⟩
      simp [bytes, Store.read, empty]
  · rw [if_neg empty]
    have length := whole empty
    by_cases outside : m.ram.length < addr.toNat % 0x0800 + len
    · rw [if_pos outside]
      exact ⟨trivial, Nat.zero_le len, fun fits => absurd fits (by omega)⟩
    · rw [if_neg outside]
      refine ⟨Nat.le_of_not_lt outside, Nat.le_refl len, fun _ => ?_⟩
      apply List.ext_getElem
      · simp only [bytes, Store.length_read, List.length_take, List.length_drop]
        omega
      · intro i h₁ h₂
        rw [Store.length_read] at h₂
        have inside : addr.toNat % 0x0800 + i < m.ram.length := by omega
        simp [bytes, Store.read, inside]

/- A read of the ROM stays in it up to the end of the ROM, -/
theorem read_rom (high : 0x8000 ≤ addr.toNat) {len : Nat}
    (mapped : ∀ rom ∈ m.rom, romAddr addr.toNat ≤ rom.length) :
    m.Inside (m.read addr len) ∧ (m.read addr len).got ≤ len := by
  rw [read, if_neg (by omega), if_pos high]
  cases there : m.rom with
  | none => exact ⟨trivial, Nat.zero_le len⟩
  | some rom =>
    have inside := mapped rom there
    simp only [Inside, there, Option.getD_some]
    split
    · omega
    · omega

/- and behind it it does not. -/
theorem read_behind (high : 0x8000 ≤ addr.toNat) {rom : List UInt8} (there : m.rom = some rom) {len : Nat} (small : len < 256)
    (behind : rom.length < romAddr addr.toNat) : len < (m.read addr len).got := by
  have bound : romAddr addr.toNat < 2 ^ 16 := by
    have limit := addr.toNat_lt
    unfold romAddr
    split
    · omega
    · omega
  rw [read, if_neg (by omega), if_pos high, there]
  simp only
  rw [if_pos (by omega)]
  omega

end DriveMemory

namespace Recalled

variable (esp_rom_crc16_be : UInt16 → List UInt8 → UInt16) {x : Recalled} {addr : UInt16}

theorem last_address (top : addr.toNat = 0x0FFF) : addr = 0x0FFF := UInt16.toNat_inj.mp top

/- Below that address the RAM and its mirror are what the code takes them for. -/
theorem fits_iff (other : addr ≠ 0x0FFF) (n : Nat) :
    x.Fits addr n ↔ addr.toNat < 0x0FFF ∧ addr.toNat % 0x0800 + n ≤ x.memory.ramSize := by
  have apart : addr.toNat ≠ 0x0FFF := fun top => other (last_address top)
  unfold Fits
  constructor
  · rintro ⟨low, room⟩
    exact ⟨by omega, room⟩
  · rintro ⟨low, room⟩
    exact ⟨by omega, room⟩

theorem read_last (holds : Holds x) {n : Nat} (fits : addr.toNat % 0x0800 + n ≤ x.memory.ramSize) :
    Store.read (fun k => x.memory.ram.getD k 0) (addr.toNat % 0x0800) n = Store.read x.last (addr.toNat % 0x0800) n :=
  Store.read_congr fun i inside => holds.remembers _ (by omega)

theorem sound_read (holds : Holds x) (size : UInt8) :
    Sound esp_rom_crc16_be x (.memoryRead addr size) ↔ Mapped x (.memoryRead addr size) := by
  have small := size.toNat_lt
  rcases Nat.lt_trichotomy addr.toNat 0x0FFF with low | top | high
  · obtain ⟨inside, short, given⟩ := DriveMemory.read_ram holds.whole low size.toNat
    have other : addr ≠ 0x0FFF := fun same => by simp [same] at low
    refine iff_of_true ⟨inside, short, fun fits => ?_⟩ ⟨fun wrong => by omega, fun same => absurd same other⟩
    have room := ((fits_iff other _).mp fits).2
    rw [given room, read_last holds room]
  · have same := last_address top
    have nothing : x.memory.read addr size.toNat = ⟨0, .zeros⟩ := by
      rw [DriveMemory.read, if_neg (by omega), if_neg (by omega)]
    constructor
    · rintro ⟨-, -, given⟩
      refine ⟨fun wrong => by omega, fun _ fits => ?_⟩
      have length := congrArg List.length (given fits)
      rw [nothing, Store.length_read] at length
      exact UInt8.toNat_inj.mp length.symm
    · rintro ⟨-, unused⟩
      refine ⟨by rw [nothing]; trivial, by rw [nothing]; exact Nat.zero_le _, fun fits => ?_⟩
      rw [nothing, unused same fits]
      rfl
  · have other : addr ≠ 0x0FFF := fun same => by simp [same] at high
    have unfit : ¬ x.Fits addr size.toNat := fun fits => by
      have low := ((fits_iff other _).mp fits).1
      omega
    by_cases upper : 0x8000 ≤ addr.toNat
    · by_cases mapped : ∀ rom ∈ x.memory.rom, DriveMemory.romAddr addr.toNat ≤ rom.length
      · obtain ⟨inside, short⟩ := DriveMemory.read_rom upper mapped
        exact iff_of_true ⟨inside, short, fun fits => absurd fits unfit⟩ ⟨fun _ => mapped, fun same => absurd same other⟩
      · refine iff_of_false ?_ fun wanted => mapped (wanted.1 upper)
        rintro ⟨-, short, -⟩
        simp only [not_forall, Nat.not_le] at mapped
        obtain ⟨rom, there, behind⟩ := mapped
        have exceeds := DriveMemory.read_behind upper there small behind
        omega
    · have nothing : x.memory.read addr size.toNat = ⟨0, .zeros⟩ := by
        rw [DriveMemory.read, if_neg (by omega), if_neg upper]
      refine iff_of_true ⟨?_, ?_, fun fits => absurd fits unfit⟩ ⟨fun wrong => absurd wrong upper, fun same => absurd same other⟩
      · rw [nothing]
        trivial
      · rw [nothing]
        exact Nat.zero_le _

/- The memory behind a write: as large as before, and with the bytes of the write where they fit. -/
theorem written (holds : Holds x) (addr : UInt16) (data : List UInt8) :
    ∃ place ram hash, x.memory.write esp_rom_crc16_be addr data = (place, { x.memory with ram := ram, mw_hash := hash }) ∧
      (ram ≠ [] → ram.length = x.memory.ramSize) ∧ (∀ a ∈ place, a + data.length ≤ ram.length) ∧
      ∀ i, ram.getD i 0 = if addr ≠ 0x0FFF ∧ x.Fits addr data.length
        then Store.put (fun k => x.memory.ram.getD k 0) (addr.toNat % 0x0800) data i else x.memory.ram.getD i 0 := by
  by_cases inside : addr ≠ 0x0FFF ∧ x.Fits addr data.length
  · obtain ⟨low, room⟩ := (fits_iff inside.1 _).mp inside.2
    obtain ⟨ram, hash, same, length, cells⟩ := DriveMemory.write_inside esp_rom_crc16_be holds.whole low room
    refine ⟨_, ram, hash, same, fun _ => length, ?_, fun i => ?_⟩
    · rintro a ⟨⟩
      omega
    · rw [if_pos inside, cells]
  · have outside : ¬ (addr.toNat < 0x0FFF ∧ addr.toNat % 0x0800 + data.length ≤ x.memory.ramSize) := by
      intro fits
      have other : addr ≠ 0x0FFF := fun top => by simp [top] at fits
      exact inside ⟨other, (fits_iff other _).mpr fits⟩
    obtain ⟨ram, same, whole, cells⟩ := DriveMemory.write_outside esp_rom_crc16_be holds.whole outside
    refine ⟨none, ram, _, same, whole, fun a none => (by cases none), fun i => ?_⟩
    rw [if_neg inside, cells]

theorem sound_write (holds : Holds x) (data : List UInt8) :
    Sound esp_rom_crc16_be x (.memoryWrite addr data) ↔ Mapped x (.memoryWrite addr data) := by
  obtain ⟨place, ram, hash, same, -, bound, cells⟩ := written esp_rom_crc16_be holds addr data
  have remembers : (x.step esp_rom_crc16_be (.memoryWrite addr data)).Remembers ↔ ∀ i < x.memory.ramSize, ram.getD i 0 =
      (if x.Fits addr data.length then Store.put x.last (addr.toNat % 0x0800) data else x.last) i := by
    simp only [Remembers, step, same]
  simp only [Sound, same, remembers, Mapped]
  by_cases fits : x.Fits addr data.length
  · by_cases top : addr = 0x0FFF
    · have place_top : addr.toNat % 0x0800 = 0x07FF := by rw [top]; rfl
      have room := fits.2
      have still : ∀ i, ram.getD i 0 = x.memory.ram.getD i 0 := fun i => by rw [cells, if_neg fun both => both.1 top]
      simp only [still, fits, if_true, forall_const]
      rw [place_top] at room ⊢
      rw [forall_prop_of_true top]
      constructor
      · rintro ⟨-, kept⟩
        have there : Store.read x.last 0x07FF data.length = Store.read (Store.put x.last 0x07FF data) 0x07FF data.length :=
          Store.read_congr fun i inside => by rw [← holds.remembers _ (by omega), kept _ (by omega)]
        rw [there, Store.read_put_same]
      · intro already
        refine ⟨bound, fun i inside => ?_⟩
        rw [Store.put_eq_self _ _ _ already]
        exact holds.remembers i inside
    · refine iff_of_true ⟨bound, fun i inside => ?_⟩ fun same => absurd same top
      rw [cells, if_pos ⟨top, fits⟩, if_pos fits]
      simp only [Store.put, holds.remembers i inside]
  · refine iff_of_true ⟨bound, fun i inside => ?_⟩ fun _ there => absurd there fits
    rw [cells, if_neg fun both => fits both.2, if_neg fits]
    exact holds.remembers i inside

theorem sound_iff (holds : Holds x) (call : MemoryCall) : Sound esp_rom_crc16_be x call ↔ Mapped x call := by
  cases call with
  | memoryRead addr size => exact sound_read esp_rom_crc16_be holds size
  | memoryWrite addr data => exact sound_write esp_rom_crc16_be holds data
  | reset => exact Iff.rfl
  | setROM file => exact Iff.rfl

theorem holds_step (holds : Holds x) (call : MemoryCall) (mapped : Mapped x call) : Holds (x.step esp_rom_crc16_be call) := by
  cases call with
  | memoryRead addr size => exact holds
  | memoryWrite addr data =>
    refine ⟨?_, ((sound_write esp_rom_crc16_be holds data).mpr mapped).2⟩
    obtain ⟨place, ram, hash, same, whole, -⟩ := written esp_rom_crc16_be holds addr data
    simpa only [step, same] using whole
  | reset =>
    refine ⟨fun some => ?_, fun i inside => ?_⟩
    · have before : x.memory.ram ≠ [] := fun none => some (by simp [step, DriveMemory.reset, none])
      simp only [step, DriveMemory.reset, List.length_replicate]
      exact holds.whole before
    · by_cases low : i < x.memory.ram.length
      · exact List.getD_replicate 0 low
      · exact List.getD_eq_default _ _ (by simpa [step, DriveMemory.reset] using low)
  | setROM file => exact ⟨holds.whole, holds.remembers⟩

def fresh (ramSize : Nat) : Recalled := { memory := { ramSize := ramSize } }

theorem fresh_holds (ramSize : Nat) : Holds (fresh ramSize) := ⟨fun some => absurd rfl some, fun _ _ => rfl⟩

/-- Reads and writes are sound in every state that the calls reach, whatever the sizes of RAM and ROM, if and only if no
read is behind the end of the ROM, and the last address of the RAM's mirror is not read, nor written with
bytes that are not there already. -/
theorem memory_sound_iff (ramSize : Nat) (calls : List MemoryCall) :
    Along (step esp_rom_crc16_be) (Sound esp_rom_crc16_be) (fresh ramSize) calls ↔
      Along (step esp_rom_crc16_be) Mapped (fresh ramSize) calls :=
  Along.congr (I := Holds) (fun _ call holds => sound_iff esp_rom_crc16_be holds call)
    (fun _ call holds => holds_step esp_rom_crc16_be holds call)
    (fresh_holds ramSize)

/-- Of a ROM of eight kilobytes more is read at $E001 than there is; and what is written at $0FFF is not in the RAM. -/
theorem rom_overruns :
    ¬ Along (step fun hash _ => hash) (Sound fun hash _ => hash) (fresh 2048)
        [.setROM (some (List.replicate 0x2000 0)), .memoryRead 0xE001 1] ∧
      ¬ Along (step fun hash _ => hash) (Sound fun hash _ => hash) (fresh 2048) [.memoryWrite 0x0FFF [1]] := by
  constructor
  · rintro ⟨-, sound, -⟩
    have loaded := holds_step (fun hash _ => hash) (fresh_holds 2048)
      (.setROM (some (List.replicate 0x2000 0))) trivial
    have mapped := ((sound_iff _ loaded _).mp sound).1 (by decide) _ rfl
    rw [List.length_replicate] at mapped
    exact absurd mapped (by decide)
  · rintro ⟨sound, -⟩
    have mapped := (sound_iff _ (fresh_holds 2048) _).mp sound
    have there := mapped rfl ⟨by decide, by decide⟩
    exact absurd there (by decide)

end Recalled

end Meatloaf.Drive
