import Meatloaf.Disk.Contents
import Meatloaf.Drive.Delivery

/-! A channel that is open on a file of a disk image: between the blocks of the image and the bus there is one
more buffer, and what comes out of it is what was saved. -/
namespace Meatloaf.Drive

open Lib Disk

/- A read leaves of the image, and of the errors, what a lookup leaves of them. -/

theorem seekSector_looks {s s' : D64} (looks : D64.Looks s s') (t x o : Nat) : D64.Looks s (s'.seekSector t x o).2 :=
  looks.trans (D64.seekSector_walks s' t x o).looks

theorem readBlockHeader_looks (s : D64) : D64.Looks s s.readBlockHeader := by
  unfold D64.readBlockHeader
  dsimp only [D64.readContainer]
  split
  · split
    · exact ⟨rfl, rfl, rfl, rfl, rfl, rfl, id⟩
    · split <;> exact ⟨rfl, rfl, rfl, rfl, rfl, rfl, id⟩
  · split <;> exact ⟨rfl, rfl, rfl, rfl, rfl, rfl, id⟩

theorem readFile_looks (s : D64) (n : Nat) : D64.Looks s (s.readFile n).2 := by
  have header : D64.Looks s (if s.sector_offset % block_size = 0 then s.readBlockHeader else s) := by
    split
    · exact readBlockHeader_looks s
    · exact .refl s
  unfold D64.readFile
  split
  · exact .refl s
  · dsimp only
    generalize (if s.sector_offset % block_size = 0 then s.readBlockHeader else s) = s' at header
    split
    · exact header
    · split
      · split
        · refine seekSector_looks ?_ _ _ _
          exact header.trans ⟨rfl, rfl, rfl, rfl, rfl, rfl, id⟩
        · refine seekSector_looks ?_ _ _ _
          exact header.trans ⟨rfl, rfl, rfl, rfl, rfl, rfl, id⟩
      · exact header.trans ⟨rfl, rfl, rfl, rfl, rfl, rfl, id⟩

theorem read_looks (s : D64) (n : Nat) : D64.Looks s (s.read n).2 := by
  unfold D64.read
  split
  · exact .refl s
  · dsimp only
    split
    · exact (readFile_looks s _).trans ⟨rfl, rfl, rfl, rfl, rfl, rfl, id⟩
    · exact ⟨rfl, rfl, rfl, rfl, rfl, rfl, id⟩

theorem seekPathIn_looks {t s : D64} {path : Str} {found : Bool} (opened : t.seekPathIn path = some (found, s)) :
    D64.Looks t s := by
  unfold D64.seekPathIn at opened
  dsimp only at opened
  split at opened
  · have same : s = _ := (congrArg Prod.snd (Option.some.inj opened)).symm
    rw [same]
    refine seekSector_looks ?_ _ _ _
    exact ⟨rfl, rfl, rfl, rfl, rfl, rfl, id⟩
  · obtain ⟨r, resolved, last⟩ := Option.map_eq_some_iff.mp opened
    have same : s = _ := (congrArg Prod.snd last).symm
    have looks : D64.Looks t r.2 :=
      (D64.resetPath_looks t).trans (D64.resolvePath_walks t.resetPath path r resolved).looks
    rw [same]
    split
    · refine seekSector_looks ?_ _ _ _
      exact looks.trans ⟨rfl, rfl, rfl, rfl, rfl, rfl, id⟩
    · refine seekSector_looks ?_ _ _ _
      exact looks.trans ⟨rfl, rfl, rfl, rfl, rfl, rfl, id⟩
    · exact looks

/-- The streams of a disk image, read for what they deliver. -/
theorem imageStream_streams :
    Streams imageStream fun s p => s.1.error = 0 ∧ Delivers D64.readOf (0 < ·) s.1 p where
  takes {s _ n} stands wanted := by
    obtain ⟨rest, takes, delivers⟩ := stands.2.step wanted
    exact ⟨rest, takes, (read_looks s.1 n).error.trans stands.1, delivers⟩
  calm {s _ n} stands _ := (read_looks s.1 n).error.trans stands.1

/-- The channels on the files of an image give what the map has under their names. -/
def ServesChannels (f : Format) (c : Container) (m : Str → Option Str) : Prop :=
  ∀ path name, Filed path name → match m name with
    | some p => ∃ s, (D64.new f (c.seek 0)).seekPathIn path = some (true, s) ∧
        Delivers (FileChannel.get imageStream) (0 < ·) { stream := (s, false) } p
    | none => ∃ s, (D64.new f (c.seek 0)).seekPathIn path = some (false, s)

theorem serves_channels {f : Format} {c : Container} {m : Str → Option Str} (serves : Serves f c m) :
    ServesChannels f c m := by
  intro path name filed
  have here := serves path name filed
  cases found : m name with
  | none =>
    rw [found] at here
    exact here
  | some p =>
    rw [found] at here
    obtain ⟨s, opened, delivers⟩ := here
    exact ⟨s, opened, FileChannel.delivers imageStream_streams ⟨(seekPathIn_looks opened).error, delivers⟩⟩

/-- After any session on a freshly laid out image of a writable class, a channel that is opened on a name gives,
in reads of any sizes, what was saved under the name last. -/
theorem session_channels (f : Format) (name id : Str) (labelled : D64.Labelled name id) (ops : List Op)
    (files : ∀ op ∈ ops, op.OnFiles) :
    ∃ reports c m, Op.reportAll f ops (D64.format f name id) = some (reports, c) ∧
      Op.Assigns ops reports (fun _ => none) m ∧ ServesChannels f c m := by
  obtain ⟨reports, c, m, _, _, _, run, assigns, stores, keyed⟩ := (Stores.blank f labelled).run Keyed.empty ops files
  exact ⟨reports, c, m, run, assigns, serves_channels (stores.serves keyed)⟩

/-- A save, and the channel of its name, on a blank D81. -/
theorem session_channels_d81 : ∃ reports c m, Op.reportAll .d81 [.save [0x61] [[0x2A], [0x2B]]] (D64.format .d81 [] []) =
    some (reports, c) ∧ Op.Assigns [.save [0x61] [[0x2A], [0x2B]]] reports (fun _ => none) m ∧ ServesChannels .d81 c m := by
  have a : Filed [0x61] [0x61] := Filed.of_ascii (List.forall_mem_singleton.mpr (by decide)) (by decide) (by decide)
    (List.forall_mem_singleton.mpr (by decide)) (by decide)
  refine session_channels .d81 [] [] ⟨by decide, by decide⟩ _ fun op member => ?_
  obtain rfl := List.mem_singleton.mp member
  exact ⟨_, a⟩

end Meatloaf.Drive
