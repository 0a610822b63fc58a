import Meatloaf.Text.Names

/-! Naming a partition of a hard disk image. CMD and IDE64 images number their partitions
differently, but a path or a command names one the same way: by a number, by a name or
pattern, or not at all. -/
namespace Meatloaf.Hd

def isDigit (c : UInt8) : Bool := 0x30 ≤ c && c ≤ 0x39

/- `find_first_not_of("0123456789") == npos`. -/
def numeric (s : Str) : Bool := s.all isDigit

def decimal (s : Str) : Nat := s.foldl (fun v c => 10 * v + (c.toNat - 0x30)) 0

/- `strtol` of a string of digits; a `long` has 32 bits on the device. -/
def strtol (s : Str) : Nat := min (decimal s) (2 ^ 31 - 1)

/- `find_first_not_of("*?") == npos` of a component. -/
def wildcardOnly (comp : Str) : Bool := comp.all fun c => c == star || c == question

/- The first component of a path, and what follows its slash. -/
def firstComponent (path : Str) : Str := path.takeWhile (· ≠ slash)

def afterComponent (path : Str) : Str := path.drop ((firstComponent path).length + 1)

/- "$=P" or "$=p": the path asks for the list of partitions. -/
def listsPartitions (path : Str) : Bool :=
  [0x24, 0x3d, 0x50].isPrefixOf path || [0x24, 0x3d, 0x70].isPrefixOf path

variable {π : Type}

/- The partition that a component names: a number up to `hi`, where zero stands for the
selected one, or else a name. -/
def namedPartition (hi : Nat) (current : Option π) (byNumber : UInt8 → Option π) (byName : Str → Option π)
    (comp : Str) : Option π :=
  if comp = [] ∨ wildcardOnly comp = true then none
  else if numeric comp = true then
    if strtol comp ≤ hi then
      if strtol comp = 0 then current else byNumber (UInt8.ofNat (strtol comp))
    else none
  else byName comp

/- What `DHDResolvePartition` and `hddResolvePartitionIn` answer: the partition, the rest of
the path, and whether the path named the partition. -/
structure Resolved (π : Type) where
  partition : Option π
  out_rest : Str
  out_explicit : Bool

def resolvePartition (hi : Nat) (current : Option π) (byNumber : UInt8 → Option π)
    (byName : Str → Option π) (in_path : Str) : Resolved π :=
  match namedPartition hi current byNumber byName (firstComponent in_path) with
  | some p => ⟨some p, afterComponent in_path, true⟩
  | none => ⟨current, in_path, false⟩

/- `hdpart::resolve`, given the numbers that `list` shows; it answers -1 where nothing
matches. -/
def resolveArgument (hi : Nat) (numbers : List UInt8) (byName : Str → Option UInt8) (arg : Str) : Int :=
  if arg = [] then -1
  else if numeric arg = true ∧ strtol arg ≤ hi ∧ UInt8.ofNat (strtol arg) ∈ numbers then strtol arg
  else match byName arg with
    | some number => number.toNat
    | none => -1

/-- The rest of a path whose first component was taken. -/
theorem afterComponent_eq (path : Str) :
    path = firstComponent path ++ (if slash ∈ path then slash :: afterComponent path else []) ∧
      (slash ∉ path → afterComponent path = []) := by
  unfold afterComponent firstComponent
  induction path with
  | nil => simp
  | cons c path ih =>
    by_cases same : c = slash
    · subst same
      simp
    · have other : slash ≠ c := fun h => same h.symm
      rw [List.takeWhile_cons_of_pos (by simpa using same)]
      simp only [List.mem_cons, other, false_or, List.cons_append, List.length_cons, List.drop_succ_cons]
      refine ⟨?_, ih.2⟩
      rw [← ih.1]

theorem firstComponent_plain (path : Str) : slash ∉ firstComponent path := by
  intro member
  have differs := List.all_eq_true.mp (List.all_takeWhile (l := path)) slash member
  simp at differs

theorem firstComponent_idem (path : Str) : firstComponent (firstComponent path) = firstComponent path := by
  have parts := (afterComponent_eq (firstComponent path)).1
  rw [if_neg (firstComponent_plain path), List.append_nil] at parts
  exact parts.symm

theorem namedPartition_nil (hi : Nat) (current : Option π) (byNumber : UInt8 → Option π)
    (byName : Str → Option π) : namedPartition hi current byNumber byName [] = none := if_pos (.inl rfl)

theorem resolvePartition_cases (hi : Nat) (current : Option π) (byNumber : UInt8 → Option π)
    (byName : Str → Option π) (in_path : Str) :
    (∃ p, namedPartition hi current byNumber byName (firstComponent in_path) = some p ∧
      resolvePartition hi current byNumber byName in_path = ⟨some p, afterComponent in_path, true⟩) ∨
    resolvePartition hi current byNumber byName in_path = ⟨current, in_path, false⟩ := by
  unfold resolvePartition
  cases namedPartition hi current byNumber byName (firstComponent in_path) with
  | some p => exact .inl ⟨p, rfl, rfl⟩
  | none => exact .inr rfl

theorem namedPartition_cases {hi : Nat} {current : Option π} {byNumber : UInt8 → Option π}
    {byName : Str → Option π} {comp : Str} {p : π}
    (named : namedPartition hi current byNumber byName comp = some p) :
    current = some p ∨ (∃ v, 0 < v ∧ v ≤ hi ∧ byNumber (UInt8.ofNat v) = some p) ∨ byName comp = some p := by
  unfold namedPartition at named
  split at named
  · cases named
  · split at named
    · split at named
      · rename_i within
        split at named
        · exact .inl named
        · rename_i positive
          exact .inr (.inl ⟨_, Nat.pos_of_ne_zero positive, within, named⟩)
      · cases named
    · exact .inr (.inr named)

end Meatloaf.Hd
