import Meatloaf.Lib.Run
import Meatloaf.Lib.While
import Meatloaf.Tape.Reading

/-! A conversion that is interrupted and taken up again. What was read of a pulse before a read of the
container fails is lost, unless nothing was; and close to the end of the container a read that fails
passes for the end. -/
namespace Meatloaf.Tape

open Lib TapeFormat TapeDecoder Window

variable {container : Str} {answer : Nat → Nat} {f : TapeFormat} {c : Conversion} {w : Window} {p n : Nat}

section Plain

/- The end of a DMP duration is missing only at the end of the container. -/
theorem samples_none {total : Nat} (enough : container.length - p < n)
    (none : (samples (slice container) n total p).run.1 = none) :
    container.length < (samples (slice container) n total p).run.2 + 2 := by
  induction n generalizing total p with
  | zero => omega
  | succ n ih =>
    by_cases inside : p + 2 ≤ container.length
    · have read : slice container p 2 = some ((container.drop p).take 2) := if_pos (.inr inside)
      simp only [samples, read, Id.run, bind] at none ⊢
      split
      · rename_i last
        rw [if_pos last] at none
        cases none
      · rename_i more
        rw [if_neg more] at none
        exact ih (by omega) none
    · have read : slice container p 2 = Option.none := if_neg (by omega)
      simp only [samples, read, Id.run, bind, pure]
      omega

/-- A duration is missing only at the end of the container. -/
theorem nextValue_none (none : (nextValue (slice container) container.length f p).run.1 = none) :
    container.length - (nextValue (slice container) container.length f p).run.2 < 8 := by
  cases kind : f.kind with
  | tap =>
    simp only [nextValue, kind] at none ⊢
    by_cases ended : container.length ≤ p
    · rw [if_pos ended]
      simp only [Id.run, pure]
      omega
    · rw [if_neg ended] at none ⊢
      have read : slice container p 1 = some ((container.drop p).take 1) := if_pos (.inr (by omega))
      simp only [read, Id.run, bind] at none ⊢
      split
      · rename_i short
        rw [if_pos short] at none
        cases none
      · rename_i long
        rw [if_neg long] at none
        split
        · rename_i pause
          rw [if_pos pause] at none
          cases none
        · rename_i marked
          rw [if_neg marked] at none
          by_cases inside : p + 1 + 3 ≤ container.length
          · have read : slice container (p + 1) 3 = some ((container.drop (p + 1)).take 3) := if_pos (.inr inside)
            rw [read] at none
            cases none
          · have read : slice container (p + 1) 3 = Option.none := if_neg (by omega)
            rw [read]
            simp only [pure]
            omega
  | dmp =>
    simp only [nextValue, kind, Id.run, bind] at none ⊢
    have ended := @samples_none container p (container.length + 1) 0 (by omega)
    simp only [Id.run] at ended
    generalize samples (slice container) (container.length + 1) 0 p = r at none ended ⊢
    obtain ⟨_ | total, p⟩ := r
    · have := ended rfl
      simp only [pure]
      omega
    · cases none
  | htap =>
    simp only [nextValue, kind] at none ⊢
    by_cases inside : p + 2 ≤ container.length
    · have read : slice container p 2 = some ((container.drop p).take 2) := if_pos (.inr inside)
      simp only [read, Id.run, bind] at none ⊢
      split
      · rename_i pause
        rw [if_pos pause] at none
        by_cases inside : p + 2 + 6 ≤ container.length
        · have read : slice container (p + 2) 6 = some ((container.drop (p + 2)).take 6) := if_pos (.inr inside)
          rw [read] at none
          cases none
        · have read : slice container (p + 2) 6 = Option.none := if_neg (by omega)
          rw [read]
          simp only [pure]
          omega
      · rename_i wave
        rw [if_neg wave] at none
        cases none
    · have read : slice container p 2 = Option.none := if_neg (by omega)
      simp only [read, Id.run, bind, pure]
      omega

/- A pass that asks nobody. -/
def plainPulse (container : Str) (f : TapeFormat) (c : Conversion) : Bool × Conversion :=
  (pulse (slice container) container.length f c).run

/-- It does not fail. -/
theorem plainPulse_true (container : Str) (f : TapeFormat) (c : Conversion) : (plainPulse container f c).1 = true := by
  have ended := @nextValue_none container f c.conv_pos
  simp only [plainPulse, pulse, Id.run, bind] at ended ⊢
  generalize nextValue (slice container) container.length f c.conv_pos = r at ended ⊢
  obtain ⟨_ | cycles, p⟩ := r
  · have short := ended rfl
    dsimp only at short ⊢
    rw [if_neg (by omega)]
    rfl
  · dsimp only
    split
    · generalize nextValue (slice container) container.length f p = r
      obtain ⟨_ | second, p⟩ := r <;> rfl
    · rfl

/- The passes of a conversion that asks nobody. -/
def plainStep (container : Str) (f : TapeFormat) (c : Conversion) : Option Conversion :=
  if c.conv_eof ∨ container.length ≤ c.conv_pos then none else some (plainPulse container f c).2

end Plain

/- The bytes that a pulse is begun with. -/
def firstBytes (f : TapeFormat) : Nat := if f.kind = .tap then 1 else 2

/-- A pulse, and the reads of the container that it needs: none fails, or one for its first bytes does,
with 8 bytes or more of the container left. -/
def FailsFirst (container : Str) (answer : Nat → Nat) (f : TapeFormat) (c : Conversion) (w : Window) : Prop :=
  Clean asked (fun k => answer k = 0) w (pulse (readBytes container answer) container.length f c w).2 ∨
    (readBytes container answer c.conv_pos (firstBytes f) w).1 = none ∧ 8 ≤ container.length - c.conv_pos

/- The pulses of a call of `fetchTo`. -/
def AllFailFirst (container : Str) (answer : Nat → Nat) (f : TapeFormat) (target : Nat) : Nat → Conversion → Window → Prop
  | 0, _, _ => True
  | n + 1, c, w =>
    (c.conv_eof = true ∨ target ≤ c.conv_pos) ∨
      FailsFirst container answer f c w ∧
        ((pulse (readBytes container answer) container.length f c w).1.1 = true →
          AllFailFirst container answer f target n (pulse (readBytes container answer) container.length f c w).1.2
            (pulse (readBytes container answer) container.length f c w).2)

instance (c : Conversion) (w : Window) : Decidable (FailsFirst container answer f c w) := inferInstanceAs (Decidable (_ ∨ _))

instance AllFailFirst.instDecidable (target : Nat) :
    (n : Nat) → (c : Conversion) → (w : Window) → Decidable (AllFailFirst container answer f target n c w)
  | 0, _, _ => inferInstanceAs (Decidable True)
  | n + 1, c, w =>
    let _ := AllFailFirst.instDecidable target n (pulse (readBytes container answer) container.length f c w).1.2
      (pulse (readBytes container answer) container.length f c w).2
    inferInstanceAs (Decidable (_ ∨ _ ∧ (_ → _)))

/-- Nothing of a pulse is lost when its first bytes are not read. -/
theorem pulse_first (failed : (readBytes container answer c.conv_pos (firstBytes f) w).1 = none)
    (far : 8 ≤ container.length - c.conv_pos) :
    (pulse (readBytes container answer) container.length f c w).1 = (false, c) ∧
      (pulse (readBytes container answer) container.length f c w).2 =
        (readBytes container answer c.conv_pos (firstBytes f) w).2 := by
  have value : nextValue (readBytes container answer) container.length f c.conv_pos w =
      ((none, c.conv_pos), (readBytes container answer c.conv_pos (firstBytes f) w).2) := by
    cases kind : f.kind with
    | tap =>
      have one : firstBytes f = 1 := by rw [firstBytes, kind]; rfl
      rw [one] at failed ⊢
      have inside : ¬ container.length ≤ c.conv_pos := by omega
      simp only [nextValue, kind, inside, if_false, bind, StateT.bind]
      generalize readBytes container answer c.conv_pos 1 w = r at failed ⊢
      obtain ⟨bytes, w⟩ := r
      dsimp only at failed
      subst failed
      rfl
    | dmp =>
      have two : firstBytes f = 2 := by rw [firstBytes, kind]; rfl
      rw [two] at failed ⊢
      simp only [nextValue, kind, samples, bind, StateT.bind]
      generalize readBytes container answer c.conv_pos 2 w = r at failed ⊢
      obtain ⟨bytes, w⟩ := r
      dsimp only at failed
      subst failed
      rfl
    | htap =>
      have two : firstBytes f = 2 := by rw [firstBytes, kind]; rfl
      rw [two] at failed ⊢
      simp only [nextValue, kind, bind, StateT.bind]
      generalize readBytes container answer c.conv_pos 2 w = r at failed ⊢
      obtain ⟨bytes, w⟩ := r
      dsimp only at failed
      subst failed
      rfl
  simp only [pulse, bind, StateT.bind, value, if_pos far]
  exact ⟨rfl, rfl⟩

/-- A pass is the one that asks nobody, or changes nothing. -/
theorem pulse_spec (showing : Shows container w) (fails : FailsFirst container answer f c w) :
    Shows container (pulse (readBytes container answer) container.length f c w).2 ∧
      ((pulse (readBytes container answer) container.length f c w).1 = plainPulse container f c ∨
        (pulse (readBytes container answer) container.length f c w).1 = (false, c)) := by
  have agrees := @pulse_agrees _ _ _ _ _ _ container.length f (@readBytes_agrees container answer) c
  refine ⟨agrees.keeps w showing, ?_⟩
  rcases fails with clean | ⟨failed, far⟩
  · exact .inl (agrees.value w showing clean)
  · exact .inr (pulse_first failed far).1

section Reached

/- The conversion before its first pulse. -/
def begin (f : TapeFormat) : Conversion := { image := imageHeader f, conv_pos := data_start }

/- How far the conversion that asks nobody comes. -/
def Reached (container : Str) (f : TapeFormat) (c : Conversion) : Prop :=
  ∃ n, pass (plainStep container f) n (begin f) = some c

theorem Reached.step (reached : Reached container f c) (more : ¬ (c.conv_eof = true ∨ container.length ≤ c.conv_pos)) :
    Reached container f (plainPulse container f c).2 := by
  obtain ⟨n, taken⟩ := reached
  refine ⟨n + 1, ?_⟩
  rw [pass_succ, taken, Option.bind_some, plainStep, if_neg more]

/-- There is one conversion that has come to its end. -/
theorem Reached.unique {x y : Conversion} (reached : Reached container f x) (other : Reached container f y)
    (ended : plainStep container f x = none) (ended' : plainStep container f y = none) : x = y := by
  obtain ⟨n, taken⟩ := reached
  obtain ⟨m, taken'⟩ := other
  exact loop_unique (loop_of_pass taken ended) (loop_of_pass taken' ended')

end Reached

section Loop

variable {σ : Type} {read : Nat → Nat → StateM σ (Option Str)} {s : σ} {len target : Nat}

theorem convert_succ (n : Nat) (c : Conversion) (s : σ) :
    convert read len f target (n + 1) c s =
      if c.conv_eof = true ∨ target ≤ c.conv_pos then (some (true, c), s)
      else if (pulse read len f c s).1.1 = true then
        convert read len f target n (pulse read len f c s).1.2 (pulse read len f c s).2
      else (some (false, (pulse read len f c s).1.2), (pulse read len f c s).2) := by
  rw [convert]
  split
  · rfl
  · simp only [bind, StateT.bind]
    generalize pulse read len f c s = r
    obtain ⟨⟨_ | _, c⟩, s⟩ := r <;> rfl

/- A duration has a byte or more. -/
theorem samples_rises (n total p : Nat) (s : σ) :
    p ≤ (samples read n total p s).1.2 ∧ ((samples read n total p s).1.1.isSome → p < (samples read n total p s).1.2) := by
  induction n generalizing total p s with
  | zero => exact ⟨Nat.le_refl _, fun given => by cases given⟩
  | succ n ih =>
    simp only [samples, bind, StateT.bind]
    generalize read p 2 s = r
    obtain ⟨_ | two, s⟩ := r
    · exact ⟨Nat.le_refl _, fun given => by cases given⟩
    · dsimp only
      split
      · exact ⟨Nat.le_add_right _ _, fun _ => Nat.lt_add_of_pos_right (by decide)⟩
      · have more := ih (total + number two) (p + 2) s
        exact ⟨by omega, fun given => by have := more.2 given; omega⟩

theorem nextValue_rises (p : Nat) (s : σ) :
    p ≤ (nextValue read len f p s).1.2 ∧
      ((nextValue read len f p s).1.1.isSome → p < (nextValue read len f p s).1.2) := by
  have none {q : Nat} (behind : p ≤ q) : p ≤ q ∧ ((Option.none : Option Nat).isSome → p < q) :=
    ⟨behind, fun given => by cases given⟩
  have some {v : Option Nat} {q : Nat} (behind : p < q) : p ≤ q ∧ (v.isSome → p < q) := ⟨by omega, fun _ => behind⟩
  cases kind : f.kind with
  | tap =>
    simp only [nextValue, kind]
    split
    · exact none (Nat.le_refl p)
    · simp only [bind, StateT.bind]
      generalize read p 1 s = r
      obtain ⟨_ | b, s⟩ := r
      · exact none (Nat.le_refl p)
      · dsimp only
        split
        · exact some (Nat.lt_succ_self p)
        · split
          · exact some (Nat.lt_succ_self p)
          · simp only [bind, StateT.bind]
            generalize read (p + 1) 3 s = r
            obtain ⟨_ | three, s⟩ := r
            · exact none (Nat.le_succ p)
            · exact some (Nat.lt_add_of_pos_right (by decide))
  | dmp =>
    simp only [nextValue, kind, bind, StateT.bind]
    have rises := @samples_rises σ read (len + 1) 0 p s
    generalize samples read (len + 1) 0 p s = r at rises
    obtain ⟨⟨_ | total, q⟩, s⟩ := r
    · exact none rises.1
    · exact some (rises.2 rfl)
  | htap =>
    simp only [nextValue, kind, bind, StateT.bind]
    generalize read p 2 s = r
    obtain ⟨_ | two, s⟩ := r
    · exact none (Nat.le_refl p)
    · dsimp only
      split
      · simp only [bind, StateT.bind]
        generalize read (p + 2) 6 s = r
        obtain ⟨_ | rest, s⟩ := r
        · exact none (Nat.le_add_right p 2)
        · exact some (Nat.lt_add_of_pos_right (by decide))
      · exact some (Nat.lt_add_of_pos_right (by decide))

/-- A pulse that does not fail brings the conversion on, or to its end. -/
theorem pulse_rises (c : Conversion) (s : σ) (passed : (pulse read len f c s).1.1 = true) :
    (pulse read len f c s).1.2.conv_eof = true ∨ c.conv_pos < (pulse read len f c s).1.2.conv_pos := by
  simp only [pulse, bind, StateT.bind] at passed ⊢
  have rises := @nextValue_rises f σ read len c.conv_pos s
  generalize nextValue read len f c.conv_pos s = r at passed rises
  obtain ⟨⟨_ | cycles, p⟩, s⟩ := r
  · dsimp only at passed ⊢
    split at passed
    · cases passed
    · rename_i short
      rw [if_neg short]
      exact .inl rfl
  · have behind := rises.2 rfl
    dsimp only at behind ⊢
    split
    · simp only [bind, StateT.bind]
      have more := @nextValue_rises f σ read len p s
      generalize nextValue read len f p s = r at more
      obtain ⟨⟨_ | second, q⟩, s⟩ := r
      · exact .inr (Nat.lt_of_lt_of_le behind more.1)
      · exact .inr (Nat.lt_of_lt_of_le behind more.1)
    · exact .inr behind

/-- The loop is left within the tests it is given. -/
theorem convert_isSome {n : Nat} {c : Conversion} (enough : (if c.conv_eof = true then 0 else target - c.conv_pos) < n) :
    (convert read len f target n c s).1.isSome := by
  induction n generalizing c s with
  | zero => omega
  | succ n ih =>
    rw [convert_succ]
    split
    · rfl
    · rename_i going
      split
      · rename_i passed
        apply ih
        have running : ¬ c.conv_eof = true := fun ended => going (.inl ended)
        rw [if_neg running] at enough
        have rises := pulse_rises c s passed
        split
        · omega
        · rename_i more
          have := rises.resolve_left more
          omega
      · rfl

end Loop

/-- A conversion that loses nothing is on the way of the one that asks nobody. -/
theorem convert_reaches {target : Nat} (short : target ≤ container.length) (showing : Shows container w)
    (reached : Reached container f c) (fails : AllFailFirst container answer f target n c w) :
    Shows container (convert (readBytes container answer) container.length f target n c w).2 ∧
      ∀ done ∈ (convert (readBytes container answer) container.length f target n c w).1, Reached container f done.2 := by
  induction n generalizing c w with
  | zero => exact ⟨showing, fun _ none => by cases none⟩
  | succ n ih =>
    rw [convert_succ]
    split
    · exact ⟨showing, fun done same => Option.some.inj same ▸ reached⟩
    · rename_i going
      obtain ⟨first, rest⟩ := fails.resolve_left going
      obtain ⟨kept, result⟩ := pulse_spec showing first
      have more : ¬ (c.conv_eof = true ∨ container.length ≤ c.conv_pos) := fun ended =>
        going (ended.imp_right short.trans)
      have there : Reached container f (pulse (readBytes container answer) container.length f c w).1.2 := by
        rcases result with plain | failed
        · rw [plain]
          exact reached.step more
        · rw [failed]
          exact reached
      split
      · rename_i passed
        exact ih kept there (rest passed)
      · exact ⟨kept, fun done same => Option.some.inj same ▸ there⟩

section Runs

variable {d e : TapeDecoder}

/- A call of `fetchTo`, and the decoder it leaves. -/
def fetched (answer : Nat → Nat) (d : TapeDecoder) (target : Nat) : TapeDecoder :=
  ((fetchTo answer target d).map Prod.snd).getD d

/-- Every read that fails in a call does so for the first bytes of a pulse, not at the end. -/
def LosesNothing (answer : Nat → Nat) (d : TapeDecoder) (target : Nat) : Prop :=
  AllFailFirst d.container answer d.format (min target d.container.length) (d.container.length + 2) d.begun d.window

instance (d : TapeDecoder) (target : Nat) : Decidable (LosesNothing answer d target) := AllFailFirst.instDecidable ..

/- A decoder of a container whose conversion is on the way. -/
structure UnderWay (container : Str) (f : TapeFormat) (d : TapeDecoder) : Prop where
  this_container : d.container = container
  this_format : d.format = f
  shows : Shows container d.window
  reached : ∃ c, Reached container f c ∧
    (d.begun = c ∨ container.length ≤ c.conv_pos ∧ d.begun = { c with conv_eof := true })

/-- A decoder that was opened knows its format from the container alone. -/
theorem openContainer_spec (opened : openContainer answer container = some d) :
    ofHeader (container.take 20) = some d.format ∧ UnderWay container d.format d := by
  rw [openContainer] at opened
  split at opened
  · cases opened
  · rename_i enough
    rw [Option.bind_eq_some_iff] at opened
    obtain ⟨header, read, rest⟩ := opened
    rw [Option.map_eq_some_iff] at rest
    obtain ⟨format, known, rfl⟩ := rest
    have bytes := readBytes_some (shows_start container) read
    have inside : slice container 0 20 = some (container.take 20) := if_pos (.inr (by omega))
    rw [inside] at bytes
    obtain rfl := Option.some.inj bytes
    have shows := (@readBytes_agrees container answer 0 20).keeps {} (shows_start container)
    exact ⟨known, rfl, rfl, shows, begin format, ⟨0, rfl⟩, .inl rfl⟩

/- What is left to do when a call comes to its loop. -/
theorem called_isSome (answer : Nat → Nat) (d : TapeDecoder) (target : Nat) :
    (convert (readBytes d.container answer) d.container.length d.format (min target d.container.length)
      (d.container.length + 2) d.begun d.window).1.isSome := by
  apply convert_isSome
  split <;> omega

/-- A call of `fetchTo` has a result. -/
theorem fetchTo_isSome (answer : Nat → Nat) (target : Nat) (d : TapeDecoder) : (fetchTo answer target d).isSome := by
  rw [fetchTo, Option.isSome_map]
  exact called_isSome answer d target

/- The conversion that a call leaves. -/
theorem fetched_spec {done : Bool × Conversion} {target : Nat}
    (left : done ∈ (convert (readBytes d.container answer) d.container.length d.format (min target d.container.length)
      (d.container.length + 2) d.begun d.window).1) :
    (fetched answer d target).container = d.container ∧ (fetched answer d target).format = d.format ∧
      (fetched answer d target).window = (convert (readBytes d.container answer) d.container.length d.format
        (min target d.container.length) (d.container.length + 2) d.begun d.window).2 ∧
      ((fetched answer d target).begun = done.2 ∧ (done.1 = true → ¬ d.container.length ≤ done.2.conv_pos) ∨
        d.container.length ≤ done.2.conv_pos ∧ (fetched answer d target).begun = { done.2 with conv_eof := true }) := by
  rw [Option.mem_def] at left
  obtain ⟨ok, c⟩ := done
  simp only [fetched, fetchTo, left, Option.map_some, Option.getD_some]
  cases ok with
  | false => exact ⟨rfl, rfl, rfl, .inl ⟨rfl, fun passed => by cases passed⟩⟩
  | true =>
    by_cases past : d.container.length ≤ c.conv_pos
    · refine ⟨rfl, rfl, rfl, .inr ⟨past, ?_⟩⟩
      simp [begun, past]
    · refine ⟨rfl, rfl, rfl, .inl ⟨?_, fun _ => past⟩⟩
      simp [begun, past]

/-- A call that loses nothing keeps the conversion on its way. -/
theorem UnderWay.fetched {target : Nat} (way : UnderWay container f d) (fails : LosesNothing answer d target) :
    UnderWay container f (fetched answer d target) := by
  obtain ⟨rfl, rfl, shows, x, reached, place⟩ := way
  obtain ⟨done, left⟩ := Option.isSome_iff_exists.mp (called_isSome answer d target)
  obtain ⟨same, format, window, after⟩ := fetched_spec left
  rcases place with here | ⟨past, ended⟩
  · have reaches := convert_reaches (Nat.min_le_right target d.container.length) shows (here ▸ reached) fails
    exact ⟨same, format, window ▸ reaches.1, done.2, reaches.2 done left, after.imp_left And.left⟩
  · -- the call finds the conversion at its end
    have before : d.begun.conv_eof = true := by rw [ended]
    rw [convert_succ, if_pos (.inl before)] at left window
    obtain rfl := Option.some.inj left
    refine ⟨same, format, window ▸ shows, x, reached, .inr ⟨past, ?_⟩⟩
    rcases after with ⟨same, -⟩ | ⟨-, same⟩
    · rw [same, ended]
    · rw [same, ended]

/-- The image of a conversion that has ended. -/
theorem UnderWay.image_unique (way : UnderWay container f d) (other : UnderWay container f e)
    (ended : d.begun.conv_eof = true) (ended' : e.begun.conv_eof = true) : d.begun.image = e.begun.image := by
  have last {d : TapeDecoder} (way : UnderWay container f d) (ended : d.begun.conv_eof = true) :
      ∃ c, Reached container f c ∧ plainStep container f c = none ∧ d.begun.image = c.image := by
    obtain ⟨c, reached, same | ⟨past, same⟩⟩ := way.reached
    · exact ⟨c, reached, if_pos (.inl (same ▸ ended)), by rw [same]⟩
    · exact ⟨c, reached, if_pos (.inr past), by rw [same]⟩
  obtain ⟨x, reached, done, image⟩ := last way ended
  obtain ⟨y, reached', done', image'⟩ := last other ended'
  rw [image, image', reached.unique reached' done done']

/-- Where no read fails nothing is lost. -/
theorem steady_losesNothing (steady : ∀ k, answer k ≠ 0) (d : TapeDecoder) (target : Nat) :
    LosesNothing answer d target := by
  have all (n : Nat) (c : Conversion) (w : Window) :
      AllFailFirst d.container answer d.format (min target d.container.length) n c w := by
    induction n generalizing c w with
    | zero => exact trivial
    | succ n ih => exact .inr ⟨.inl fun k _ _ => steady k, fun _ => ih _ _⟩
  exact all _ _ _

theorem convert_steady {target : Nat} (steady : ∀ k, answer k ≠ 0) (showing : Shows container w) :
    ∀ done ∈ (convert (readBytes container answer) container.length f target n c w).1,
      done.1 = true ∧ (done.2.conv_eof = true ∨ target ≤ done.2.conv_pos) := by
  induction n generalizing c w with
  | zero => exact fun _ none => by cases none
  | succ n ih =>
    rw [convert_succ]
    split
    · rename_i ended
      exact fun done same => Option.some.inj same ▸ ⟨rfl, ended⟩
    · have agrees := @pulse_agrees _ _ _ _ _ _ container.length f (@readBytes_agrees container answer) c
      have plain : (pulse (readBytes container answer) container.length f c w).1 = plainPulse container f c :=
        agrees.value w showing fun k _ _ => steady k
      rw [plain, if_pos (plainPulse_true container f c), ← plain]
      exact ih (agrees.keeps w showing)

/-- A conversion that is not interrupted comes to its end in one call. -/
theorem UnderWay.steady_ends {target : Nat} (way : UnderWay container f d) (steady : ∀ k, answer k ≠ 0)
    (whole : container.length ≤ target) : (Tape.fetched answer d target).begun.conv_eof = true := by
  obtain ⟨rfl, rfl, shows, -⟩ := way
  obtain ⟨done, left⟩ := Option.isSome_iff_exists.mp (called_isSome answer d target)
  obtain ⟨passed, ended⟩ := convert_steady steady shows done left
  rw [Nat.min_eq_right whole] at ended
  obtain ⟨-, -, -, ⟨same, short⟩ | ⟨-, same⟩⟩ := fetched_spec left
  · rw [same]
    exact ended.resolve_right (short passed)
  · rw [same]

/-- An interrupted conversion that loses nothing comes to the image of one that is not interrupted. -/
theorem resumed_image {a b : Nat → Nat} (steady : ∀ k, b k ≠ 0) {targets whole : List Nat}
    (opened : openContainer a container = some d) (opened' : openContainer b container = some e)
    (fails : Along (fetched a) (LosesNothing a) d targets)
    (ended : (targets.foldl (fetched a) d).begun.conv_eof = true)
    (ended' : (whole.foldl (fetched b) e).begun.conv_eof = true) :
    (targets.foldl (fetched a) d).begun.image = (whole.foldl (fetched b) e).begun.image := by
  obtain ⟨known, start⟩ := openContainer_spec opened
  obtain ⟨known', start'⟩ := openContainer_spec opened'
  have format : e.format = d.format := Option.some.inj (known'.symm.trans known)
  rw [format] at start'
  have way : UnderWay container d.format (targets.foldl (fetched a) d) :=
    fails.invariant (fun _ _ way fails => way.fetched fails) start
  have steady : Along (fetched b) (LosesNothing b) e whole :=
    along_true.imp (I := fun _ => True) (fun _ _ _ _ => trivial)
      (fun d target _ _ => steady_losesNothing steady d target) trivial
  have way' : UnderWay container d.format (whole.foldl (fetched b) e) :=
    steady.invariant (fun _ _ way fails => way.fetched fails) start'
  exact way.image_unique way' ended ended'

/- A DMP container: a counter that runs over, and six more samples. -/
def overflowing : Str :=
  dmpSignature ++ [0, 0, 0, 0, 0x80, 0x84, 0x1E, 0, 0xFF, 0xFF, 0x10, 0, 0, 1, 0, 2, 0, 3, 0, 4, 0, 5]

/- A container that gives so many bytes at first, then fails once. -/
def failsOnce (first : Nat) : Nat → Nat
  | 0 => first
  | 1 => 0
  | _ => 16384

def retried : TapeDecoder := (openContainer (failsOnce 20) overflowing).get (by decide)

def notRetried : TapeDecoder := (openContainer (fun _ => 16384) overflowing).get (by decide)

/-- A read that fails behind the header is made up for. -/
theorem resumed_image_retried :
    ([100, 100].foldl (fetched (failsOnce 20)) retried).begun.image =
      ([100].foldl (fetched fun _ => 16384) notRetried).begun.image :=
  resumed_image (fun _ => by decide) (Option.some_get _).symm (Option.some_get _).symm (by decide)
    (by decide +kernel) (by decide +kernel)

/- One that fails between a sample of 0xFFFF and the next has these 65535 ticks lost. -/
theorem overflow_lost :
    (openContainer (failsOnce 22) overflowing).map (fun d => ([100, 100].foldl (fetched (failsOnce 22)) d).begun) =
        some { image := imageHeader { kind := .dmp, version := 0, platform := 0, video := 0, halfwaves := false } ++
                 [1, 16, 32, 47, 63, 79]
               conv_pos := 34
               conv_eof := true } ∧
      (openContainer (fun _ => 16384) overflowing).map (fun d => ([100].foldl (fetched fun _ => 16384) d).begun) =
        some { image := imageHeader { kind := .dmp, version := 0, platform := 0, video := 0, halfwaves := false } ++
                 [0, 36, 126, 0, 16, 32, 47, 63, 79]
               conv_pos := 34
               conv_eof := true } := by
  decide +kernel

end Runs

end Meatloaf.Tape
