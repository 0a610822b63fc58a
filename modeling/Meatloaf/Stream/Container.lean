import Meatloaf.Lib.Store

/-! The container under every media stream: a file with a position. A transfer
that reaches past its end is short; a write past its end extends it with zeros.
`fault` numbers the write call that the container refuses, counted from the next
one; `none` is a container whose writes all succeed. -/
namespace Meatloaf

open Lib

structure Container where
  data : Nat → UInt8
  size : Nat
  pos : Nat := 0
  fault : Option Nat := none

namespace Container

/- One byte, zero where a one-byte read finds nothing. -/
def byte (c : Container) (a : Nat) : UInt8 := if a < c.size then c.data a else 0

def seek (c : Container) (p : Nat) : Container := { c with pos := p }

def read (c : Container) (n : Nat) : List UInt8 × Container :=
  let k := min n (c.size - c.pos)
  (Store.read c.data c.pos k, { c with pos := c.pos + k })

/- `seek(pos)` and a read of `n` bytes that has to be complete. -/
def fetch (c : Container) (pos n : Nat) : Option (List UInt8) :=
  let bytes := ((c.seek pos).read n).1
  if bytes.length = n then some bytes else none

/- A hole left between the old end of a file and the place of a write is zero. -/
def extend (data : Nat → UInt8) (size pos : Nat) : Nat → UInt8 := fun k =>
  if size ≤ k ∧ k < pos then 0 else data k

def store (c : Container) (bytes : List UInt8) : Container where
  data := Store.put (extend c.data c.size c.pos) c.pos bytes
  size := max c.size (c.pos + bytes.length)
  pos := c.pos + bytes.length
  fault := c.fault.map (· - 1)

/-- `containerStream->write`: the number of bytes taken, and the file. -/
def write (c : Container) (bytes : List UInt8) : Nat × Container :=
  if c.fault = some 0 then (0, { c with fault := none }) else (bytes.length, c.store bytes)

theorem extend_inside (data : Nat → UInt8) (size pos : Nat) (h : pos ≤ size) :
    extend data size pos = data := by
  funext k
  exact if_neg (by omega)

/-- A transfer inside the file is complete. -/
theorem read_full (c : Container) (n : Nat) (h : c.pos + n ≤ c.size) :
    c.read n = (Store.read c.data c.pos n, { c with pos := c.pos + n }) := by
  have hn : min n (c.size - c.pos) = n := Nat.min_eq_left (by omega)
  simp only [read, hn]

theorem write_taken (c : Container) (bytes : List UInt8) (h : c.fault ≠ some 0) :
    c.write bytes = (bytes.length, c.store bytes) := if_neg h

theorem write_refused (c : Container) (bytes : List UInt8) (h : c.fault = some 0) :
    c.write bytes = (0, { c with fault := none }) := if_pos h

/-- Overwriting leaves the length of the file alone. -/
theorem store_inside (c : Container) (bytes : List UInt8) (h : c.pos + bytes.length ≤ c.size) :
    c.store bytes = ⟨Store.put c.data c.pos bytes, c.size, c.pos + bytes.length,
      c.fault.map (· - 1)⟩ := by
  have hs : max c.size (c.pos + bytes.length) = c.size := Nat.max_eq_left h
  simp only [store, extend_inside c.data c.size c.pos (by omega), hs]

end Container

end Meatloaf
