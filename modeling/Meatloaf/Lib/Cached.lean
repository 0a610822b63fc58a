import Mathlib.Logic.Function.Basic

/-! Programs that look at blocks through buffers. A buffer is marked with the block it was filled
with last, and a load of that block asks the device for nothing. The device may fail; what it has
written by then stays in the buffer. -/
namespace Meatloaf.Lib

variable {ι κ β γ δ : Type*}

/-- A program that loads blocks. It goes on with the content of the block, or with `none` where the
load has failed. -/
inductive Loads (ι κ β γ : Type*)
  | done (result : γ)
  | load (buffer : ι) (block : κ) (next : Option β → Loads ι κ β γ)

def Loads.bind : Loads ι κ β γ → (γ → Loads ι κ β δ) → Loads ι κ β δ
  | .done x, f => f x
  | .load i k next, f => .load i k fun b => (next b).bind f

/-- What a program may return when each load fails or gives the block. -/
inductive Gives (image : κ → Option β) : Loads ι κ β γ → γ → Prop
  | done {x : γ} : Gives image (.done x) x
  | fails {i : ι} {k : κ} {next : Option β → Loads ι κ β γ} {x : γ} : Gives image (next none) x →
      Gives image (.load i k next) x
  | loads {i : ι} {k : κ} {next : Option β → Loads ι κ β γ} {b : β} {x : γ} : image k = some b →
      Gives image (next (some b)) x → Gives image (.load i k next) x

structure Buffer (κ β : Type*) where
  tag : Option κ
  content : β

structure Buffers (ι κ β : Type*) where
  buffer : ι → Buffer κ β
  asked : Nat := 0

/- A request, by its number: whether it succeeded, and what is in the buffer then. -/
abbrev Device (κ β : Type*) := Nat → κ → β → Bool × β

/-- What a request that succeeds leaves in the buffer is the block. -/
def Serves (device : Device κ β) (image : κ → Option β) : Prop :=
  ∀ asked k b, (device asked k b).1 = true → image k = some (device asked k b).2

/-- A marked buffer holds the block it is marked with. -/
def Buffers.Sound (image : κ → Option β) (s : Buffers ι κ β) : Prop :=
  ∀ i k, (s.buffer i).tag = some k → image k = some (s.buffer i).content

namespace Buffers

variable [DecidableEq ι] [DecidableEq κ]

/-- A load. The mark is changed only when the request has succeeded. -/
def load (device : Device κ β) (i : ι) (k : κ) (s : Buffers ι κ β) : Bool × Buffers ι κ β :=
  if (s.buffer i).tag = some k then (true, s)
  else
    let r := device s.asked k (s.buffer i).content
    (r.1, {
      buffer := Function.update s.buffer i ⟨if r.1 then some k else (s.buffer i).tag, r.2⟩
      asked := s.asked + 1 })

/- What a program goes on with after a load. -/
def loaded (device : Device κ β) (i : ι) (k : κ) (s : Buffers ι κ β) : Option β :=
  if (s.load device i k).1 then some ((s.load device i k).2.buffer i).content else none

/-- A load leaves no mark on a buffer it has spoilt: it finds the block or gets it, or the buffer was
not marked, or is as it was. -/
def Harmless (device : Device κ β) (i : ι) (k : κ) (s : Buffers ι κ β) : Prop :=
  (s.load device i k).1 = true ∨ (s.buffer i).tag = none ∨
    (device s.asked k (s.buffer i).content).2 = (s.buffer i).content

variable {device : Device κ β} {image : κ → Option β} {i : ι} {k : κ} {s : Buffers ι κ β}

/- A load that succeeds. -/
theorem Sound.load_true (sound : s.Sound image) (serves : Serves device image) (ok : (s.load device i k).1 = true) :
    image k = some ((s.load device i k).2.buffer i).content ∧ (s.load device i k).2.Sound image := by
  unfold load at ok ⊢
  split
  · rename_i hit
    exact ⟨sound i k hit, sound⟩
  · rename_i miss
    rw [if_neg miss] at ok
    dsimp only at ok ⊢
    have block := serves s.asked k (s.buffer i).content ok
    refine ⟨by rw [Function.update_self]; exact block, fun j l tag => ?_⟩
    by_cases same : j = i
    · subst j
      dsimp only at tag ⊢
      rw [Function.update_self] at tag ⊢
      rw [if_pos ok, Option.some.injEq] at tag
      exact tag ▸ block
    · dsimp only at tag ⊢
      rw [Function.update_of_ne same] at tag ⊢
      exact sound j l tag

/-- After a load the marks are right exactly when it was harmless. -/
theorem Sound.load_iff (sound : s.Sound image) (serves : Serves device image) :
    (s.load device i k).2.Sound image ↔ s.Harmless device i k := by
  by_cases ok : (s.load device i k).1 = true
  · exact iff_of_true (sound.load_true serves ok).2 (.inl ok)
  · have miss : ¬ (s.buffer i).tag = some k := by
      intro hit
      rw [load, if_pos hit] at ok
      exact ok rfl
    rw [Harmless, load, if_neg miss]
    rw [load, if_neg miss] at ok
    dsimp only at ok ⊢
    rw [if_neg ok]
    constructor
    · intro after
      cases mark : (s.buffer i).tag with
      | none => exact .inr (.inl rfl)
      | some l =>
        have here := after i l
        dsimp only at here
        rw [Function.update_self] at here
        have block := (here mark).symm.trans (sound i l mark)
        exact .inr (.inr (Option.some.inj block))
    · intro harmless j l tag
      by_cases same : j = i
      · rw [same] at tag ⊢
        dsimp only at tag ⊢
        rw [Function.update_self] at tag ⊢
        rcases harmless with yes | unmarked | kept
        · exact absurd yes ok
        · rw [unmarked] at tag
          cases tag
        · rw [kept]
          exact sound i l tag
      · dsimp only at tag ⊢
        rw [Function.update_of_ne same] at tag ⊢
        exact sound j l tag

end Buffers

namespace Loads

/-- A program that loads nothing after a load that failed, and what it returns then. -/
def Stops (failed : γ → Prop) : Loads ι κ β γ → Prop
  | done _ => True
  | load _ _ next => (∃ x, failed x ∧ next none = done x) ∧ ∀ b, (next (some b)).Stops failed

theorem Stops.load {failed : γ → Prop} {i : ι} {k : κ} {next : Option β → Loads ι κ β γ} {x : γ} (bad : failed x)
    (last : next none = done x) (rest : ∀ b, (next (some b)).Stops failed) : (Loads.load i k next).Stops failed :=
  ⟨⟨x, bad, last⟩, rest⟩

theorem Stops.bind {failed : γ → Prop} {failed' : δ → Prop} {p : Loads ι κ β γ} {f : γ → Loads ι κ β δ}
    (stops : p.Stops failed) (last : ∀ x, failed x → ∃ y, failed' y ∧ f x = done y) (next : ∀ x, (f x).Stops failed') :
    (p.bind f).Stops failed' := by
  induction p with
  | done x => exact next x
  | load i k step ih =>
    refine ⟨?_, fun b => ih _ (stops.2 b)⟩
    obtain ⟨x, bad, result⟩ := stops.1
    obtain ⟨y, bad', rest⟩ := last x bad
    have ends : (step none).bind f = done y := by rw [result, Loads.bind, rest]
    exact ⟨y, bad', ends⟩

variable [DecidableEq ι] [DecidableEq κ] {device : Device κ β} {image : κ → Option β}

def run (device : Device κ β) : Loads ι κ β γ → Buffers ι κ β → γ × Buffers ι κ β
  | done x, s => (x, s)
  | load i k next, s => (next (s.loaded device i k)).run device (s.load device i k).2

/-- Every load on the way is harmless. -/
def Quiet (device : Device κ β) : Loads ι κ β γ → Buffers ι κ β → Prop
  | done _, _ => True
  | load i k next, s => s.Harmless device i k ∧ (next (s.loaded device i k)).Quiet device (s.load device i k).2

/-- From marks that are right, a program that stops at a failure returns what the blocks give, and the
marks are right afterwards exactly when all its loads were harmless. -/
theorem Stops.run {failed : γ → Prop} {p : Loads ι κ β γ} (stops : p.Stops failed) (serves : Serves device image)
    {s : Buffers ι κ β} (sound : s.Sound image) :
    Gives image p (p.run device s).1 ∧ ((p.run device s).2.Sound image ↔ p.Quiet device s) := by
  induction p generalizing s with
  | done x => exact ⟨.done, iff_of_true sound trivial⟩
  | load i k next ih =>
    rw [Loads.run, Quiet, ← sound.load_iff serves]
    by_cases ok : (s.load device i k).1 = true
    · obtain ⟨block, after⟩ := sound.load_true serves ok
      have given : s.loaded device i k = some ((s.load device i k).2.buffer i).content := if_pos ok
      obtain ⟨gives, still⟩ := ih _ (stops.2 _) after
      rw [given]
      exact ⟨.loads block gives, still.trans (and_iff_right after).symm⟩
    · have failed : s.loaded device i k = none := if_neg ok
      obtain ⟨x, -, last⟩ := stops.1
      rw [failed, last]
      refine ⟨.fails ?_, (and_iff_left trivial).symm⟩
      rw [last]
      exact .done

end Loads

/- What comes from two programs one after the other. -/
theorem Gives.of_bind {image : κ → Option β} {p : Loads ι κ β γ} {f : γ → Loads ι κ β δ} {y : δ}
    (gives : Gives image (p.bind f) y) : ∃ x, Gives image p x ∧ Gives image (f x) y := by
  induction p with
  | done x => exact ⟨x, .done, gives⟩
  | load i k next ih =>
    cases gives with
    | fails rest =>
      obtain ⟨x, first, second⟩ := ih _ rest
      exact ⟨x, .fails first, second⟩
    | loads block rest =>
      obtain ⟨x, first, second⟩ := ih _ rest
      exact ⟨x, .loads block first, second⟩

/-- What a program returns when no load fails. -/
inductive Gets (image : κ → Option β) : Loads ι κ β γ → γ → Prop
  | done {x : γ} : Gets image (.done x) x
  | loads {i : ι} {k : κ} {next : Option β → Loads ι κ β γ} {b : β} {x : γ} : image k = some b →
      Gets image (next (some b)) x → Gets image (.load i k next) x

namespace Gets

variable {image : κ → Option β}

theorem bind {p : Loads ι κ β γ} {f : γ → Loads ι κ β δ} {x : γ} {y : δ} (first : Gets image p x)
    (second : Gets image (f x) y) : Gets image (p.bind f) y := by
  induction first with
  | done => exact second
  | loads block _ ih => exact .loads block (ih second)

theorem det {p : Loads ι κ β γ} {x y : γ} (one : Gets image p x) (other : Gets image p y) : x = y := by
  induction one with
  | done =>
    cases other
    rfl
  | loads block _ ih =>
    cases other with
    | loads block' rest =>
      rw [block] at block'
      cases block'
      exact ih rest

variable [DecidableEq ι] [DecidableEq κ] {device : Device κ β}

/-- From marks that are right, on a device that answers for every block there is. -/
theorem run {p : Loads ι κ β γ} {x : γ} (gets : Gets image p x) (serves : Serves device image)
    (answers : ∀ asked k b, (image k).isSome = true → (device asked k b).1 = true) {s : Buffers ι κ β}
    (sound : s.Sound image) : (p.run device s).1 = x ∧ (p.run device s).2.Sound image := by
  induction gets generalizing s with
  | done => exact ⟨rfl, sound⟩
  | @loads i k next b x block _ ih =>
    have ok : (s.load device i k).1 = true := by
      unfold Buffers.load
      split
      · rfl
      · exact answers _ _ _ (block ▸ rfl)
    obtain ⟨filled, after⟩ := sound.load_true serves ok
    rw [block, Option.some.injEq] at filled
    have given : s.loaded device i k = some b := by rw [Buffers.loaded, if_pos ok, ← filled]
    rw [Loads.run, given]
    exact ih after

end Gets

end Meatloaf.Lib
