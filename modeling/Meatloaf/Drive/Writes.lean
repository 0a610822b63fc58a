import Meatloaf.Drive.Direct

/-! Block writes on a direct-access channel. A write goes to the container where it stands: the window
bounds what is read, and nothing bounds what is written. -/
namespace Meatloaf.Drive

open Lib Disk

/- A byte of a container, if it is there. -/
def cell (c : Container) (a : Nat) : Option UInt8 := if a < c.size then some (c.data a) else none

namespace Channel

variable {c : Channel}

/- The container has only been moved. -/
def Still (c c' : Channel) : Prop :=
  (∃ p, c'.stream.container = c.stream.container.seek p) ∧ Raw c'.stream ∧ c'.out = c.out ∧ c'.stream.geo = c.stream.geo

theorem Still.refl (raw : Raw c.stream) : Still c c := ⟨⟨c.stream.container.pos, rfl⟩, raw, rfl, rfl⟩

end Channel

/-- What is asked of a direct-access channel that is open for writing. -/
inductive Order where
  | blockWrite (b : Block)
  | bufferWrite (b : Block)
  | bufferPointer (p : Nat)
  | put (bytes : List UInt8)

/-- A channel, the status of its last command, and the block that the last `U2` or `B-W` to succeed
has selected. -/
structure Writing where
  channel : Channel
  status : Status := {}
  selected : Option Block := none

namespace Writing

def step (x : Writing) : Order → Writing
  | .blockWrite b =>
    let r := x.channel.seekToBlock b 0 true
    ⟨r.2, r.1, if r.1.code = ST_OK then some b else x.selected⟩
  | .bufferWrite b =>
    let r := x.channel.seekToBlock b 1 true
    ⟨r.2, r.1, if r.1.code = ST_OK then some b else x.selected⟩
  | .bufferPointer p =>
    let r := x.channel.positionTo p true
    ⟨r.2, r.1, x.selected⟩
  | .put bytes =>
    let r := x.channel.write bytes
    ⟨r.2.2, if r.1 = ST_OK then x.status else { code := r.1 }, x.selected⟩

def container (x : Writing) : Container := x.channel.stream.container

/- An address in the selected block. -/
def Selected (x : Writing) (a : Nat) : Prop :=
  ∃ b, x.selected = some b ∧ x.channel.stream.geo.addr b ≤ a ∧ a < x.channel.stream.geo.addr b + 256

/-- A write starts where the container is, and each of its bytes falls into the selected block or is
there already; it leaves no hole outside of the block. A write that the container refuses is no write. -/
def Within (x : Writing) : Order → Prop
  | .put bytes => x.container.fault = some 0 ∨
      (∀ i, i < bytes.length →
        x.Selected (x.container.pos + i) ∨ cell x.container (x.container.pos + i) = bytes[i]?) ∧
      (bytes ≠ [] → ∀ a, x.container.size ≤ a → a < x.container.pos → x.Selected a)
  | _ => True

/- The channel as every step leaves it. -/
structure Holds (x : Writing) : Prop where
  raw : Raw x.channel.stream
  out : x.channel.out = true

variable {x : Writing}

section store

variable {bytes : List UInt8} (selected : Nat → Prop) (c : Container)

end store

/- The channel right after open for writing. -/
def opened (f : Format) (image : Container) : Writing := { channel := .direct f image true }

theorem opened_holds (f : Format) (image : Container) : Holds (opened f image) where
  raw := ⟨rfl, rfl, (by decide : 0 < block_size)⟩
  out := rfl

end Writing

end Meatloaf.Drive
