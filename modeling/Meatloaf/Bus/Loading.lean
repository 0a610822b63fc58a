import Meatloaf.Bus.Session

/-! Files that a host loads one after the other: each is opened by its name, read as far as the host likes, and
closed again. -/
namespace Meatloaf.Bus

open Lib

variable {σ : Type} {ops : Device σ} {left : σ → Nat → Option Str} {X : Str}

/-- A file that the host loads, the hosts' turns that send its name, and those that take its bytes. -/
structure Load where
  channel : Nat
  name : List Host
  gets : List Host

namespace Load

/- OPEN, TALK and CLOSE. -/
def hosts (l : Load) : List Host :=
  (.listen (OPEN l.channel) :: (l.name ++ [.unlisten])) ++
    ((.talk (DATA l.channel) false :: (l.gets ++ [.untalk])) ++ [.listen (CLOSE l.channel), .unlisten])

structure Proper (l : Load) : Prop where
  listed : l.channel < 15
  sends : Sends l.name
  gets : IECBusHandler.Gets l.gets

/- The name as the class gets it. -/
def named (l : Load) : Str := (offered l.name).take 254

/-- What the host sees of a file that has these bytes. -/
def replies (l : Load) (X : Str) : List Reply :=
  List.replicate (offered l.name).length .taken ++ IECBusHandler.sent l.channel X (IECBusHandler.asked l.gets)

end Load

/-- Names that stand for the same bytes whatever else is loaded: `kept` is what the class keeps the while. A name that
stands for nothing may be refused. -/
structure Library (ops : Device σ) (left : σ → Nat → Option Str) (known : Nat → Str → Prop) (content : Nat → Str → Str)
    (kept : σ → Prop) : Prop where
  opens : ∀ {c name s}, known c name → kept s → kept (ops.open_ c name s).2.2
  reads : ∀ {c n s}, kept s → kept (ops.read c n s).2.2
  closes : ∀ {c s}, kept s → kept (ops.close c s).2
  opened : ∀ {c name s}, known c name → kept s → left (ops.open_ c name s).2.2 c = some (content c name)
  refused : ∀ {c name s}, known c name → kept s → (ops.open_ c name s).1 = false → content c name = []
  open_others : ∀ {c c' name s}, c' ≠ c → known c name → kept s → left (ops.open_ c name s).2.2 c' = left s c'
  close_others : ∀ {c c' s}, c' ≠ c → kept s → left (ops.close c s).2 c' = left s c'

namespace IECBusHandler

open IECFileDevice

variable {b : IECBusHandler σ} {known : Nat → Str → Prop} {content : Nat → Str → Str} {kept : σ → Prop}

/-- A file that has just been opened has all of its bytes to give. -/
theorem opened_pending (library : Library ops left known content kept) {c : Nat} {name : Str} {s : σ} {d : IECFileDevice σ}
    (here : known c name) (holds : kept s) (state : d.state = (ops.open_ c name s).2.2)
    (buffer : d.readBuffer c = if (ops.open_ c name s).1 then some [] else none) : Pending left c (content c name) d := by
  have opened := library.opened here holds
  have empty : (d.readBuffer c).getD [] = [] := by
    rw [buffer]
    split <;> rfl
  refine ⟨?_, fun none => ?_, content c name, ?_, ?_⟩
  · rw [empty]
    exact Nat.zero_le 2
  · have failed : (ops.open_ c name s).1 = false := Bool.eq_false_of_not_eq_true fun success => by
      rw [buffer, if_pos success] at none
      cases none
    rw [state, opened, library.refused here holds failed]
  · rw [state, opened]
  · rw [empty, List.nil_append]

/-- A file is loaded: the host gets its bytes, and the other channels are as before. -/
theorem Rests.loads (enabled : FastLoader → Bool) (m_bufferSize : Nat) (reader : Reader ops left)
    (library : Library ops left known content kept) (rests : Rests b) (holds : kept b.device.state) {l : Load}
    (proper : l.Proper) (here : known l.channel l.named) :
    let r := b.run ops enabled m_bufferSize l.hosts
    r.1 = l.replies (content l.channel l.named) ∧ Rests r.2 ∧ kept r.2.device.state ∧
      ∀ c ≠ l.channel, Aside left c b.device r.2.device := by
  obtain ⟨taken, rests₁, -, -, state₁, buffer₁⟩ := @Rests.opens _ ops enabled m_bufferSize l.channel b rests proper.listed
    l.name proper.sends
  have hosts : b.run ops enabled m_bufferSize l.hosts = _ := run_append _ _
  rw [hosts]
  dsimp only
  generalize b.run ops enabled m_bufferSize (.listen (OPEN l.channel) :: (l.name ++ [.unlisten])) = first at *
  rw [run_append]
  dsimp only
  have pending := opened_pending library here holds state₁
    ((congrFun buffer₁ l.channel).trans (Function.update_self _ _ _))
  obtain ⟨gets, rests₂, -, fetches⟩ := @Rests.gets _ ops enabled m_bufferSize left l.channel _ first.2 reader
    proper.listed rests₁ pending l.gets proper.gets
  generalize first.2.run ops enabled m_bufferSize (.talk (DATA l.channel) false :: (l.gets ++ [.untalk])) = second at *
  obtain ⟨rests₃, quiet, state₃, buffer₃⟩ := @Rests.closes _ ops enabled m_bufferSize l.channel second.2 rests₂ proper.listed
  generalize second.2.run ops enabled m_bufferSize [.listen (CLOSE l.channel), .unlisten] = third at *
  have opened : kept first.2.device.state := state₁ ▸ library.opens here holds
  have read : kept second.2.device.state := fetches.keeps kept (fun _ _ => library.reads) opened
  refine ⟨?_, rests₃, state₃ ▸ library.closes read, fun c other => ⟨?_, ?_⟩⟩
  · rw [taken, gets, quiet, List.append_nil]
    rfl
  · rw [buffer₃, Function.update_of_ne other, fetches.others c other, buffer₁, Function.update_of_ne other]
  · rw [state₃, library.close_others other read]
    refine fetches.keeps (fun s => left s c = left b.device.state c)
      (fun _ _ same => (reader.read_others other).trans same) ?_
    rw [state₁]
    exact library.open_others other here holds

/-- However many files are loaded, each is the one that its name stands for, and channels that none of them is
loaded on are as before. -/
theorem Rests.loads_all (enabled : FastLoader → Bool) (m_bufferSize : Nat) (reader : Reader ops left)
    (library : Library ops left known content kept) (rests : Rests b) (holds : kept b.device.state) {ls : List Load}
    (proper : ∀ l ∈ ls, l.Proper) (names : ∀ l ∈ ls, known l.channel l.named) :
    let r := b.run ops enabled m_bufferSize (ls.flatMap Load.hosts)
    r.1 = ls.flatMap (fun l => l.replies (content l.channel l.named)) ∧ Rests r.2 ∧ kept r.2.device.state ∧
      ∀ c, (∀ l ∈ ls, l.channel ≠ c) → Aside left c b.device r.2.device := by
  induction ls generalizing b with
  | nil => exact ⟨rfl, rests, holds, fun _ _ => .refl _⟩
  | cons l ls ih =>
    obtain ⟨first, others⟩ := List.forall_mem_cons.mp proper
    obtain ⟨here, elsewhere⟩ := List.forall_mem_cons.mp names
    obtain ⟨replies, rests', holds', aside⟩ := rests.loads enabled m_bufferSize reader library holds first here
    obtain ⟨replies', rests'', holds'', aside'⟩ := ih rests' holds' others elsewhere
    rw [List.flatMap_cons, run_append]
    dsimp only
    rw [replies, replies']
    refine ⟨rfl, rests'', holds'', fun c apart => ?_⟩
    obtain ⟨other, apart⟩ := List.forall_mem_cons.mp apart
    exact (aside c other.symm).trans (aside' c apart)

end IECBusHandler

end Meatloaf.Bus
