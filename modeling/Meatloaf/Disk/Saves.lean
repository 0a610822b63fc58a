import Meatloaf.Disk.Finish

/-! Whole saves: from the path that is opened to `close`. -/
namespace Meatloaf.Disk

open Lib

namespace D64

section begun

variable {s₀ s t : D64} {dirs : List Block} {chain : Nat → List Block} {name p : Str} {o : Outcome}

/- What a save did is told from the image it started on, not from the stream. -/
theorem Failed.of_looks (h : Failed s₀ s o) (looks : Looks t s₀) : Failed t s o where
  cause := h.cause
  geo := h.geo.trans looks.geo
  size := h.size.trans looks.size
  steady := h.steady
  error := h.error
  creating := h.creating
  clean := by
    rw [← looks.data]
    exact h.clean
  leaks := by
    rw [← looks.data]
    exact h.leaks

theorem Saved.of_looks {dirs' bs : List Block} {i : Nat} (h : Saved s₀ s dirs chain name p dirs' i bs)
    (looks : Looks t s₀) : Saved t s dirs chain name p dirs' i bs := by
  obtain ⟨geo, data, size, _, _, _, _⟩ := looks
  cases s₀ with
  | mk geo₀ container₀ =>
    cases container₀ with
    | mk data₀ size₀ =>
      dsimp only at geo data size
      subst geo data size
      exact ⟨h.geo, h.size, h.steady, h.error, h.sound, h.slot, h.vacant, h.first, h.grown, h.entry, h.others, h.blank,
        h.file, h.fresh, h.kept, h.header⟩

theorem Saved.of_idle {dirs' bs : List Block} {i : Nat} (h : Saved s₀ s dirs chain name p dirs' i bs) :
    Saved s₀ { s with creating := false } dirs chain name p dirs' i bs :=
  ⟨h.geo, h.size, h.steady, h.error, h.sound, h.slot, h.vacant, h.first, h.grown, h.entry, h.others, h.blank, h.file,
    h.fresh, h.kept, h.header⟩

/- A save ends in one of two ways. -/
def Ended (s₀ : D64) (dirs : List Block) (chain : Nat → List Block) (name p : Str) (o : Outcome) (s : D64) :
    Prop :=
  Failed s₀ s o ∨ (o = .complete ∧ ∃ dirs' i bs, Saved s₀ s dirs chain name p dirs' i bs)

theorem Ended.of_looks (h : Ended s₀ dirs chain name p o s) (looks : Looks t s₀) :
    Ended t dirs chain name p o s := by
  rcases h with failed | ⟨done, dirs', i, bs, saved⟩
  · exact .inl (failed.of_looks looks)
  · exact .inr ⟨done, dirs', i, bs, saved.of_looks looks⟩

variable (ready : Whole s₀) (sound : Sound s₀.geo s₀.container.data dirs chain) (root : s₀.AtRoot)
include ready sound root

/-- `close` once everything has been written. -/
theorem Progress.close (h : Progress s₀ name dirs (s₀.geo.vacantSlot s₀.container.data dirs) (blocksFor p.length)
    o s p) : Ended s₀ dirs chain name p o s.close := by
  unfold D64.close
  rcases h with ⟨bs, saving, creating, count, fate⟩ | failed
  · rw [if_pos ⟨creating, saving.error⟩]
    rw [count, Nat.sub_self] at fate
    rcases saving.finish ready sound count root fate with
      ⟨s', run, failed⟩ | ⟨done, s', dirs', i, run, saved⟩
    · rw [run]
      exact .inl ⟨failed.cause, failed.geo, failed.size, failed.steady, failed.error, rfl, failed.clean, failed.leaks⟩
    · rw [run]
      exact .inr ⟨done, dirs', i, bs, saved.of_idle⟩
  · rw [if_neg fun begun => failed.error begun.2]
    exact .inl ⟨failed.cause, failed.geo, failed.size, failed.steady, failed.error, rfl, failed.clean, failed.leaks⟩

/-- A save into the root directory, from its first block on. -/
theorem beginFileWrite_ended (steady : s₀.error = 0 ∧ s₀.creating = false) (name : Str) (chunks : List Str)
    (fate : Fate (s₀.geo.savePlan s₀.container.data dirs (blocksFor chunks.flatten.length))
      s₀.container.fault o) :
    ∃ q, s₀.beginFileWrite name = (true, q) ∧
      Ended s₀ dirs chain name chunks.flatten o (chunks.foldl write q).close := by
  obtain ⟨q, begun, progress⟩ := beginFileWrite_progress ready sound steady fate name
  have written := progress.writes ready sound chunks (by rw [List.length_nil, Nat.zero_add])
  rw [List.nil_append] at written
  exact ⟨q, begun, written.close ready sound root⟩

end begun

theorem resetPath_looks (s : D64) : Looks s s.resetPath := ⟨rfl, rfl, rfl, rfl, rfl, rfl, id⟩

section opened

variable {s : D64} {dirs : List Block} {chain : Nat → List Block}
variable (w : Whole s) (idle : s.error = 0 ∧ s.creating = false) (full : s.entry.length = 32)
variable (h : Sound s.geo s.container.data dirs chain) (short : 8 * dirs.length < 65536)
variable (path name : Str) (single : splitPathComponents path = [name]) (plain : endsWithHash path = false)
include w idle full h short single plain

/-- A save under a name nothing in the directory answers to. -/
theorem save_new (missing : s.geo.lookup s.container.data dirs (liveMatch name) = none) (chunks : List Str)
    {o : Outcome}
    (fate : Fate (s.geo.savePlan s.container.data dirs (blocksFor chunks.flatten.length)) s.container.fault o) :
    ∃ s', s.save path chunks = some s' ∧ Ended s dirs chain name chunks.flatten o s' := by
  have resolve := resolvePath_missing (s := s.resetPath) ⟨w.valid, w.size⟩ h short path name single full missing
  have looks := (resetPath_looks s).trans ((onEntry_looks s.resetPath dirs (8 * dirs.length - 1)).trans
    (clearEntry_walks _).looks)
  let s₀ : D64 := { (s.resetPath.onEntry dirs (8 * dirs.length - 1)).clearEntry with
    dir_track := 0, dir_sector := 0, entry_index := 0 }
  have looks₀ : Looks s s₀ := ⟨looks.geo, looks.data, looks.size, looks.fault, looks.error, looks.creating,
    looks.entry⟩
  have ready : Whole s₀ := ⟨w.valid, w.size⟩
  obtain ⟨q, begun, ended⟩ := beginFileWrite_ended ready h (.inl rfl) idle name chunks fate
  refine ⟨_, ?_, ended.of_looks looks₀⟩
  have opened : s.seekPathOut path = some (true, q) := by
    unfold seekPathOut
    simp only [plain, Bool.false_eq_true, if_false, resolve, Option.bind_some, single, List.getLast?_singleton,
      parentPath_single]
    rw [seekDirectory_root, Option.map_some, if_pos rfl, begun]
  simp only [save, opened, Option.map_some, if_true]

/-- A save over a file: that one is scratched first. -/
theorem save_over (steady : s.container.fault = none) {i : Nat}
    (found : s.geo.lookup s.container.data dirs (liveMatch name) = some i)
    (file : ¬ (fileType (s.geo.entryOf s.container.data dirs i) &&& 0b111 = 5 ∨
      fileType (s.geo.entryOf s.container.data dirs i) &&& 0b111 = 6))
    (bounded : (chain i).length ≤ 10000) (chunks : List Str) :
    ∃ s₁ d' s', s.geo.Released s.container.data (chain i) d' ∧
      Looks { s with container := ⟨Function.update d' (s.geo.slotAddr dirs i + 2) 0, s.container.size,
        s.container.pos, none⟩ } s₁ ∧
      s.save path chunks = some s' ∧
      Ended s₁ dirs (Function.update chain i []) name chunks.flatten
        (outcome (s₁.geo.savePlan s₁.container.data dirs (blocksFor chunks.flatten.length)) none) s' := by
  obtain ⟨inside, matched, _⟩ := Geometry.lookup_some.mp found
  have live : s.geo.LiveAt s.container.data dirs i := by
    refine ⟨inside, fun scratched => ?_⟩
    unfold liveMatch at matched
    rw [scratched] at matched
    simp at matched
  have resolve := resolvePath_found (s := s.resetPath) ⟨w.valid, w.size⟩ h short path name single full found file
  obtain ⟨s₁, d', run, released, reach⟩ := scratchEntry_root (s := s.resetPath) ⟨w.valid, w.size⟩ steady h live
    bounded
  have whole : Whole (s.resetPath.onEntry dirs i) := ⟨w.valid, w.size⟩
  have geo : s₁.geo = s.geo := reach.geo
  have scratched : Sound s₁.geo s₁.container.data dirs (Function.update chain i []) := by
    rw [geo, reach.data]
    exact h.scratch w.valid live released
  have same : s₁.error = s.error ∧ s₁.creating = s.creating ∧ s₁.AtRoot ∧ s₁.entry.length = 32 := by
    rw [reach.eq]
    exact ⟨rfl, rfl, .inr ⟨rfl, rfl⟩, by simp [onEntry, Geometry.entryOf]⟩
  obtain ⟨q, begun, ended⟩ := beginFileWrite_ended (reach.whole whole) scratched same.2.2.1
    ⟨same.1.trans idle.1, same.2.1.trans idle.2⟩ name chunks (.steady reach.fault)
  refine ⟨s₁, d', _, released, ⟨geo, reach.data, reach.size whole, reach.fault, same.1, same.2.1,
    fun _ => same.2.2.2⟩, ?_, ended⟩
  have opened : s.seekPathOut path = some (true, q) := by
    unfold seekPathOut
    simp only [plain, Bool.false_eq_true, if_false, resolve, Option.bind_some, single, List.getLast?_singleton, run,
      begun]
  simp only [save, opened, Option.map_some, if_true]

end opened

end D64

end Meatloaf.Disk
