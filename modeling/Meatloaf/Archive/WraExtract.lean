import Meatloaf.Lib.Run
import Meatloaf.Archive.WraTokens

/-! `extractEntry` gives what the tokens of an entry stand for, and refuses everything else. Only
an entry without data is not refused when its place is the one of the cached entry. -/
namespace Meatloaf.Archive

open Lib WraToken

namespace WraDecoding

variable {s : WraDecoding} {width : Nat} {out : Str} {bits rest : List Bool} {t : WraToken}

/- A decoder before bits, with a text that it has decoded. -/
structure Ready (s : WraDecoding) (width : Nat) (out : Str) (bits : List Bool) : Prop where
  holds : s.d.Holds bits
  width : s.bits = width
  data : s.data = out
  wpos : s.d.wpos = out.length % WRA_WINDOW
  window : ∀ j < WRA_WINDOW, s.d.window j = Window.cell WRA_WINDOW 0 out j

theorem ready_start (compressed : Str) : Ready { d := { input := compressed } } WRA_START_BITS [] (bitsMSB compressed) where
  holds := ⟨rfl, Nat.zero_lt_succ 7, rfl⟩
  width := rfl
  data := rfl
  wpos := rfl
  window _ _ := Window.cell_nil.symm

/- Bits were read. -/
theorem Ready.read (ready : Ready s width out bits) {d : WraDecoder} (holds : d.Holds rest)
    (window : d.window = s.d.window ∧ d.wpos = s.d.wpos) : Ready { s with d := d } width out rest where
  holds := holds
  width := ready.width
  data := ready.data
  wpos := window.2.trans ready.wpos
  window j inside := (congrFun window.1 j).trans (ready.window j inside)

theorem Ready.emit (ready : Ready s width out bits) (v : UInt8) : Ready (s.emit v) width (out ++ [v]) bits where
  holds := ⟨ready.holds.alive, ready.holds.inByte, ready.holds.unread⟩
  width := ready.width
  data := by rw [WraDecoding.emit, ready.data]
  wpos := by
    have next : (out.length + 1) % WRA_WINDOW = if WRA_WINDOW ≤ out.length % WRA_WINDOW + 1 then 0 else out.length % WRA_WINDOW + 1 := by
      rw [WRA_WINDOW]
      split <;> omega
    rw [List.length_append, List.length_singleton, next, ← ready.wpos]
    rfl
  window j inside := by
    show (if j = s.d.wpos then v else s.d.window j) = _
    rw [ready.wpos]
    split
    · rename_i here
      rw [Window.cell_written v here.symm]
    · rename_i elsewhere
      rw [Window.cell_kept v inside (Ne.symm elsewhere), ready.window j inside]

/-- A copy takes what the window has at the time. -/
theorem Ready.copyFrom (ready : Ready s width out bits) (offset length i : Nat) :
    Ready (copyFrom offset length i s) width (Window.copy WRA_WINDOW 0 length (offset - 1 + i) out) bits := by
  induction length generalizing s out i with
  | zero => exact ready
  | succ length ih =>
    have inside : (offset - 1 + i) % WRA_WINDOW < WRA_WINDOW := Nat.mod_lt _ (by decide)
    rw [WraDecoding.copyFrom, Window.copy, ready.window _ inside]
    exact ih (ready.emit _) (i + 1)

/- What a round comes to after a token. -/
structure Took (r : Option Bool × WraDecoding) (width : Nat) (out : Str) (rest : List Bool) : Prop where
  bounded : r.1 = if WRA_MAX_OUTPUT < out.length then some false else none
  ready : Ready r.2 width out rest

theorem Ready.checked (ready : Ready s width out bits) : Took s.bounded width out bits :=
  ⟨by rw [WraDecoding.bounded, ready.data], ready⟩

theorem round_literal (v : UInt8) (ready : Ready s width out ((literal v).code width ++ rest)) :
    Took s.round width (out ++ [v]) rest := by
  have holds : s.d.Holds (false :: (bitsBE 8 v.toNat ++ rest)) := ready.holds
  obtain ⟨flag, left⟩ := holds.getBit
  obtain ⟨value, behind⟩ := left.getBits (by simpa using v.toNat_lt)
  have window := WraDecoder.getBitsFrom_window 1 0 s.d
  have window' := WraDecoder.getBitsFrom_window 8 0 (s.d.getBits 1).2
  rw [round]
  simp only [flag, Bool.toNat_false, if_true, behind.alive, value, UInt8.ofNat_toNat, Bool.false_eq_true, if_false]
  exact ((ready.read behind ⟨window'.1.trans window.1, window'.2.trans window.2⟩).emit v).checked

/- An offset, after the flag. -/
theorem Ready.offset {v : Nat} (ready : Ready s width out (true :: (bitsBE width v ++ rest))) (small : v < 2 ^ width) :
    (s.d.getBits 1).1 = 1 ∧ ((s.d.getBits 1).2.getBits s.bits).1 = v ∧
      Ready { s with d := ((s.d.getBits 1).2.getBits s.bits).2 } width out rest := by
  obtain ⟨flag, left⟩ := ready.holds.getBit
  obtain ⟨value, behind⟩ := left.getBits small
  have window := WraDecoder.getBitsFrom_window 1 0 s.d
  have window' := WraDecoder.getBitsFrom_window s.bits 0 (s.d.getBits 1).2
  rw [← ready.width] at value behind
  exact ⟨flag, value, ready.read behind ⟨window'.1.trans window.1, window'.2.trans window.2⟩⟩

theorem round_copy {index length : Nat} (fits : (copy index length).Fits width)
    (ready : Ready s width out ((copy index length).code width ++ rest)) :
    Took s.round width ((copy index length).append out) rest := by
  obtain ⟨positive, small, short⟩ := fits
  have bits : (copy index length).code width ++ rest = true :: (bitsBE width index ++ (bitsBE 5 length ++ rest)) := by
    simp [code]
  rw [bits] at ready
  obtain ⟨flag, value, read⟩ := ready.offset small
  obtain ⟨count, behind⟩ := WraDecoder.Holds.getBits read.holds (show length < 2 ^ 5 by omega)
  have window := WraDecoder.getBitsFrom_window 5 0 ((s.d.getBits 1).2.getBits s.bits).2
  have some : index ≠ 0 := by omega
  have alive : ((s.d.getBits 1).2.getBits s.bits).2.ran_out = false := read.holds.alive
  rw [round]
  simp only [flag, Nat.one_ne_zero, if_false, alive, value, some, Bool.false_eq_true, behind.alive, count]
  exact ((read.read behind window).copyFrom index length 0).checked

/- The escape, and the bit behind it. -/
theorem Ready.escape {b : Bool} (ready : Ready s width out (true :: (bitsBE width 0 ++ [b]) ++ rest)) :
    s.round = (if b then
        (if WRA_MAX_BITS < s.bits + 1 then fun s : WraDecoding => (some false, s) else WraDecoding.bounded)
          { s with d := (((s.d.getBits 1).2.getBits s.bits).2.getBits 1).2, bits := s.bits + 1 }
      else (some true, { s with d := (((s.d.getBits 1).2.getBits s.bits).2.getBits 1).2 })) ∧
    Ready { s with d := (((s.d.getBits 1).2.getBits s.bits).2.getBits 1).2 } width out rest := by
  have bits : true :: (bitsBE width 0 ++ [b]) ++ rest = true :: (bitsBE width 0 ++ (b :: rest)) := by simp
  rw [bits] at ready
  obtain ⟨flag, value, read⟩ := ready.offset (Nat.two_pow_pos width)
  obtain ⟨widen, behind⟩ := WraDecoder.Holds.getBit read.holds
  have window := WraDecoder.getBitsFrom_window 1 0 ((s.d.getBits 1).2.getBits s.bits).2
  have alive : ((s.d.getBits 1).2.getBits s.bits).2.ran_out = false := read.holds.alive
  refine ⟨?_, read.read behind window⟩
  rw [round]
  simp only [flag, Nat.one_ne_zero, if_false, alive, value, if_true, Bool.false_eq_true, behind.alive, widen]
  cases b with
  | false => simp
  | true =>
    simp only [Bool.toNat_true, Nat.one_ne_zero, if_false, if_true]
    split <;> rfl

theorem round_widen (fits : widen.Fits width) (ready : Ready s width out (widen.code width ++ rest)) :
    Took s.round (width + 1) out rest := by
  obtain ⟨result, read⟩ := Ready.escape (b := true) ready
  have room : ¬ WRA_MAX_BITS < s.bits + 1 := by
    have : width < WRA_MAX_BITS := fits
    rw [ready.width]
    omega
  rw [result, if_pos rfl, if_neg room]
  exact Ready.checked ⟨read.holds, congrArg (· + 1) read.width, read.data, read.wpos, read.window⟩

/-- A round takes the token that is before it. -/
theorem round_token (fits : t.Fits width) (ready : Ready s width out (t.code width ++ rest)) :
    Took s.round (t.widened width) (t.append out) rest := by
  cases t with
  | literal v => exact round_literal v ready
  | copy index length => exact round_copy fits ready
  | widen => exact round_widen fits ready

/-- The end of the tokens ends the loop. -/
theorem round_finish (ready : Ready s width out (finish width ++ rest)) :
    s.round.1 = some true ∧ s.round.2.data = out := by
  obtain ⟨result, -⟩ := Ready.escape (b := false) ready
  rw [result]
  exact ⟨rfl, ready.data⟩

/- No bits at all. -/
theorem round_nothing (ready : Ready s width out []) : s.round.1 = some false := by
  have outside : s.d.input.length ≤ s.d.pos := ready.holds.outside.mpr rfl
  have flag : s.d.getBits 1 = (0, { s.d with ran_out := true }) := if_pos outside
  have byte : WraDecoder.getBits { s.d with ran_out := true } 8 = (0, { s.d with ran_out := true }) := if_pos outside
  rw [round]
  simp only [flag, byte, if_true]

/- Bits are missing behind the flag. -/
theorem round_literal_short (ready : Ready s width out (false :: bits)) (missing : bits.length < 8) :
    s.round.1 = some false := by
  obtain ⟨flag, left⟩ := ready.holds.getBit
  have ended : ((s.d.getBits 1).2.getBits 8).2.ran_out = true := left.short missing
  rw [round]
  simp only [flag, Bool.toNat_false, if_true, ended]

theorem round_offset_short (ready : Ready s width out (true :: bits)) (missing : bits.length < width) :
    s.round.1 = some false := by
  obtain ⟨flag, left⟩ := ready.holds.getBit
  have ended : ((s.d.getBits 1).2.getBits s.bits).2.ran_out = true := by
    rw [ready.width]
    exact left.short missing
  rw [round]
  simp only [flag, Bool.toNat_true, Nat.one_ne_zero, if_false, if_true, ended]

/- Bits are missing behind the offset. -/
theorem round_behind_short {v : Nat} (ready : Ready s width out (true :: (bitsBE width v ++ bits))) (small : v < 2 ^ width)
    (missing : bits.length < if v = 0 then 1 else 5) : s.round.1 = some false := by
  obtain ⟨flag, value, read⟩ := ready.offset small
  have alive : ((s.d.getBits 1).2.getBits s.bits).2.ran_out = false := read.holds.alive
  have ended : ∀ n, bits.length < n → (((s.d.getBits 1).2.getBits s.bits).2.getBits n).2.ran_out = true :=
    fun n fewer => read.holds.short fewer
  rw [round]
  by_cases zero : v = 0
  · rw [if_pos zero] at missing
    simp only [flag, Nat.one_ne_zero, if_false, alive, value, zero, if_true, Bool.false_eq_true, ended 1 missing]
  · rw [if_neg zero] at missing
    simp only [flag, Nat.one_ne_zero, if_false, alive, value, zero, if_true, Bool.false_eq_true, ended 5 missing]

/-- What is neither a token nor the end ends the loop too. -/
theorem round_other (ready : Ready s width out bits) :
    (∃ (t : WraToken) (rest : List Bool), t.Fits width ∧ bits = t.code width ++ rest) ∨ (∃ rest : List Bool, bits = finish width ++ rest) ∨
      s.round.1 = some false := by
  cases bits with
  | nil => exact .inr (.inr (round_nothing ready))
  | cons flag bits =>
    cases flag with
    | false =>
      by_cases missing : bits.length < 8
      · exact .inr (.inr (round_literal_short ready missing))
      · obtain ⟨v, rest, small, rfl⟩ := split_number (Nat.le_of_not_lt missing)
        refine .inl ⟨literal (UInt8.ofNat v), rest, trivial, ?_⟩
        rw [code, UInt8.toNat_ofNat', Nat.mod_eq_of_lt small]
        rfl
    | true =>
      by_cases missing : bits.length < width
      · exact .inr (.inr (round_offset_short ready missing))
      · obtain ⟨v, bits, small, rfl⟩ := split_number (Nat.le_of_not_lt missing)
        by_cases zero : v = 0
        · subst zero
          cases bits with
          | nil => exact .inr (.inr (round_behind_short ready small (by simp)))
          | cons b rest =>
            cases b with
            | false => exact .inr (.inl ⟨rest, by simp [finish]⟩)
            | true =>
              by_cases room : width < WRA_MAX_BITS
              · exact .inl ⟨widen, rest, room, by simp [code]⟩
              · have bits : true :: (bitsBE width 0 ++ true :: rest) = true :: (bitsBE width 0 ++ [true]) ++ rest := by simp
                rw [bits] at ready
                obtain ⟨result, -⟩ := ready.escape
                have past : WRA_MAX_BITS < s.bits + 1 := by
                  rw [ready.width]
                  omega
                rw [result, if_pos rfl, if_pos past]
                exact .inr (.inr rfl)
        · by_cases missing : bits.length < 5
          · exact .inr (.inr (round_behind_short ready small (by rw [if_neg zero]; exact missing)))
          · obtain ⟨length, rest, short, rfl⟩ := split_number (Nat.le_of_not_lt missing)
            exact .inl ⟨copy v length, rest, ⟨by omega, small, by omega⟩, by simp [code]⟩

theorem code_length (t : WraToken) (width : Nat) : 0 < (t.code width).length := by
  cases t <;> exact Nat.succ_pos _

theorem decode_succ (ready : Ready s width out bits) (n : Nat) :
    decode (n + 1) s = match s.round.1 with
      | some ok => some (ok, s.round.2)
      | none => decode n s.round.2 := by
  rw [decode, ready.holds.alive]
  simp only [Bool.false_eq_true, if_false]
  rcases s.round with ⟨_ | ok, t⟩ <;> rfl

/-- Written tokens are decoded to the end. -/
theorem decode_encode {ts : List WraToken} (fits : AllFit width ts) (ready : Ready s width out (encode width ts ++ rest))
    (short : (expand ts out).length ≤ WRA_MAX_OUTPUT) {n : Nat} (enough : (encode width ts).length < n) :
    ∃ t, decode n s = some (true, t) ∧ t.data = expand ts out := by
  induction ts generalizing s width out n with
  | nil =>
    obtain ⟨n, rfl⟩ : ∃ k, n = k + 1 := ⟨n - 1, by omega⟩
    obtain ⟨ended, data⟩ := round_finish ready
    exact ⟨s.round.2, by rw [decode_succ ready, ended], data⟩
  | cons t ts ih =>
    obtain ⟨n, rfl⟩ : ∃ k, n = k + 1 := ⟨n - 1, by omega⟩
    rw [encode, List.append_assoc] at ready
    obtain ⟨bounded, next⟩ := round_token fits.1 ready
    have below : ¬ WRA_MAX_OUTPUT < (t.append out).length :=
      Nat.not_lt.mpr ((length_expand_le ts _).trans short)
    rw [if_neg below] at bounded
    have size := code_length t width
    rw [encode, List.length_append] at enough
    obtain ⟨u, decoded, data⟩ := ih fits.2 next short (n := n) (by omega)
    exact ⟨u, by rw [decode_succ ready, bounded]; exact decoded, data⟩

/-- The loop ends, and when it is content it has decoded tokens. -/
theorem decode_sound (ready : Ready s width out bits) (short : out.length ≤ WRA_MAX_OUTPUT) {n : Nat} (enough : bits.length < n) :
    ∃ r, decode n s = some r ∧ (r.1 = true → ∃ ts rest, bits = encode width ts ++ rest ∧ AllFit width ts ∧
      expand ts out = r.2.data ∧ r.2.data.length ≤ WRA_MAX_OUTPUT) := by
  induction n generalizing s width out bits with
  | zero => omega
  | succ n ih =>
    have refused : s.round.1 = some false → ∃ r, decode (n + 1) s = some r ∧ (r.1 = true → ∃ ts rest,
        bits = encode width ts ++ rest ∧ AllFit width ts ∧ expand ts out = r.2.data ∧ r.2.data.length ≤ WRA_MAX_OUTPUT) := by
      intro ended
      exact ⟨(false, s.round.2), by rw [decode_succ ready, ended], fun impossible => by cases impossible⟩
    rcases round_other ready with ⟨t, rest, fits, rfl⟩ | ⟨rest, rfl⟩ | ended
    · obtain ⟨bounded, next⟩ := round_token fits ready
      by_cases long : WRA_MAX_OUTPUT < (t.append out).length
      · rw [if_pos long] at bounded
        exact refused bounded
      · rw [if_neg long] at bounded
        have size := code_length t width
        rw [List.length_append] at enough
        obtain ⟨r, decoded, tokens⟩ := ih next (Nat.le_of_not_lt long) (by omega)
        refine ⟨r, ?_, fun accepted => ?_⟩
        · rw [decode_succ ready, bounded]
          exact decoded
        · obtain ⟨ts, more, rfl, all, expanded, bound⟩ := tokens accepted
          exact ⟨t :: ts, more, by rw [encode, List.append_assoc], ⟨fits, all⟩, expanded, bound⟩
    · have fewer : (finish width).length < n + 1 := by
        rw [List.length_append] at enough
        omega
      obtain ⟨u, decoded, data⟩ := @decode_encode s width out rest [] trivial ready short (n + 1) fewer
      exact ⟨(true, u), decoded, fun _ => ⟨[], rest, rfl, trivial, data.symm, data ▸ short⟩⟩
    · exact refused ended

end WraDecoding

/-- The bits of a text stand for one text. -/
theorem WraEncodes.decoded {compressed out : Str} (encodes : WraEncodes (bitsMSB compressed) out) {n : Nat}
    (enough : 8 * compressed.length < n) :
    ∃ t, WraDecoding.decode n { d := { input := compressed } } = some (true, t) ∧ t.data = out := by
  obtain ⟨ts, rest, bits, fits, rfl, short⟩ := encodes
  have ready := WraDecoding.ready_start compressed
  have size : (encode WRA_START_BITS ts).length ≤ 8 * compressed.length := by
    rw [← length_bitsMSB, bits, List.length_append]
    omega
  rw [bits] at ready
  exact WraDecoding.decode_encode fits ready short (by omega)

theorem WraEncodes.unique {compressed out out' : Str} (first : WraEncodes (bitsMSB compressed) out)
    (second : WraEncodes (bitsMSB compressed) out') : out = out' := by
  obtain ⟨t, decoded, rfl⟩ := first.decoded (Nat.lt_add_one _)
  obtain ⟨u, decoded', rfl⟩ := second.decoded (Nat.lt_add_one _)
  rw [decoded, Option.some.injEq, Prod.mk.injEq] at decoded'
  rw [decoded'.2]

theorem decode_complete (compressed : Str) : ∃ r,
    WraDecoding.decode (8 * compressed.length + 1) { d := { input := compressed } } = some r ∧
      (r.1 = true → WraEncodes (bitsMSB compressed) r.2.data) := by
  have ready := WraDecoding.ready_start compressed
  obtain ⟨r, decoded, tokens⟩ := WraDecoding.decode_sound (n := 8 * compressed.length + 1) ready (Nat.zero_le _)
    (by rw [length_bitsMSB]; omega)
  exact ⟨r, decoded, tokens⟩

/-- There is no text without bits. -/
theorem not_encodes_nil (out : Str) : ¬ WraEncodes (bitsMSB []) out := by
  rintro ⟨ts, rest, bits, -, -, -⟩
  have length := congrArg List.length bits
  have positive : 0 < (encode WRA_START_BITS ts).length := by
    cases ts with
    | nil => exact Nat.succ_pos _
    | cons t ts =>
      have := WraDecoding.code_length t WRA_START_BITS
      rw [encode, List.length_append]
      omega
  rw [length_bitsMSB, List.length_append, List.length_nil] at length
  omega

namespace WRAEntry

/- The bytes of an entry. -/
def compressed (e : WRAEntry) (container : Str) : Str := (container.drop e.data_offset).take (e.data_end - e.data_offset)

end WRAEntry

namespace WRAMStream

variable {s : WRAMStream} {e : WRAEntry} {container : Str}

/-- What is asked of `extractEntry`: texts for tokens, and nothing for anything else. -/
def Implements (s : WRAMStream) (e : WRAEntry) : Prop :=
  ∃ ok t, s.extractEntry e = some (ok, t) ∧
    (∀ out, WraEncodes (bitsMSB (e.compressed s.container)) out → ok = true ∧ t.data = out) ∧
    ((∀ out, ¬ WraEncodes (bitsMSB (e.compressed s.container)) out) → ok = false ∧ t.data = [])

/- A stream with the entries of its archive. -/
def opened (container : Str) : WRAMStream := { container := container : WRAMStream }.readHeader.2

/- One extraction after the other. -/
def extracted (s : WRAMStream) (e : WRAEntry) : WRAMStream := ((s.extractEntry e).map Prod.snd).getD s

/-- What is cached was extracted. -/
structure Tidy (container : Str) (s : WRAMStream) : Prop where
  here : s.container = container
  cached : s.cached_entry = -1 ∨ ∃ e ∈ wraEntries container, e.data_offset < e.data_end ∧
    s.cached_entry = int32 e.data_offset ∧ WraEncodes (bitsMSB (e.compressed container)) s.data

theorem tidy_opened (container : Str) : Tidy container (opened container) := by
  rw [opened, readHeader]
  simp only [Bool.false_eq_true, if_false, loadEntries]
  split
  · split <;> exact ⟨rfl, .inl rfl⟩
  · split <;> exact ⟨rfl, .inl rfl⟩

theorem opened_entries (member : e ∈ (opened container).entries) : e ∈ wraEntries container := by
  rw [opened, readHeader] at member
  simp only [Bool.false_eq_true, if_false, loadEntries] at member
  split at member
  · cases member
  · split at member <;> exact member

/-- An extraction that is not answered from the cache. -/
theorem extractEntry_fresh (uncached : s.cached_entry ≠ int32 e.data_offset) (inside : e.data_end ≤ s.container.length) :
    s.Implements e ∧ (s.extracted e).container = s.container ∧ ((s.extracted e).cached_entry = -1 ∨
      e.data_offset < e.data_end ∧ (s.extracted e).cached_entry = int32 e.data_offset ∧
        WraEncodes (bitsMSB (e.compressed s.container)) (s.extracted e).data) := by
  by_cases empty : e.data_end ≤ e.data_offset
  · have nothing : e.compressed s.container = [] := by
      rw [WRAEntry.compressed, Nat.sub_eq_zero_of_le empty, List.take_zero]
    have result : s.extractEntry e = some (false, { s with data := [], cached_entry := -1 }) := by
      rw [extractEntry, if_neg uncached]
      exact if_pos empty
    refine ⟨⟨false, _, result, fun out encodes => ?_, fun _ => ⟨rfl, rfl⟩⟩, ?_, .inl ?_⟩
    · rw [nothing] at encodes
      exact absurd encodes (not_encodes_nil out)
    · rw [extracted, result]
      rfl
    · rw [extracted, result]
      rfl
  · have read : wra_read_at s.container e.data_offset (e.data_end - e.data_offset) = some (e.compressed s.container) :=
      if_pos (by omega)
    obtain ⟨r, decoded, sound⟩ := decode_complete (e.compressed s.container)
    have result : s.extractEntry e = some (if r.1
        then (true, { s with data := r.2.data, cached_entry := int32 e.data_offset })
        else (false, { s with data := [], cached_entry := -1 })) := by
      rw [extractEntry, if_neg uncached]
      simp only [empty, if_false, read, decoded, Option.map_some]
    have complete : ∀ out, WraEncodes (bitsMSB (e.compressed s.container)) out → r.1 = true ∧ r.2.data = out := by
      intro out encodes
      obtain ⟨t, decoded', data⟩ := encodes.decoded (Nat.lt_add_one _)
      rw [decoded, Option.some.injEq] at decoded'
      rw [decoded']
      exact ⟨rfl, data⟩
    have next : s.extracted e = (if r.1
        then (true, { s with data := r.2.data, cached_entry := int32 e.data_offset })
        else (false, { s with data := [], cached_entry := -1 }) : Bool × WRAMStream).2 := by
      rw [extracted, result]
      rfl
    by_cases accepted : r.1 = true
    · rw [if_pos accepted] at result next
      refine ⟨⟨true, _, result, fun out encodes => ⟨rfl, (complete out encodes).2⟩, fun none => ?_⟩, ?_, .inr ?_⟩
      · exact absurd (sound accepted) (none _)
      · rw [next]
      · rw [next]
        dsimp only
        exact ⟨Nat.lt_of_not_le empty, rfl, sound accepted⟩
    · rw [if_neg accepted] at result next
      refine ⟨⟨false, _, result, fun out encodes => ?_, fun _ => ⟨rfl, rfl⟩⟩, ?_, .inl ?_⟩
      · exact absurd (complete out encodes).1 accepted
      · rw [next]
      · rw [next]

/- An extraction that is answered from the cache. -/
theorem extractEntry_cached (cached : s.cached_entry = int32 e.data_offset) : s.extractEntry e = some (true, s) :=
  if_pos cached

theorem extracted_cached (cached : s.cached_entry = int32 e.data_offset) : s.extracted e = s := by
  rw [extracted, extractEntry_cached cached]
  rfl

theorem Tidy.extracted (tidy : Tidy container s) (small : container.length < 2 ^ 32) (member : e ∈ wraEntries container) :
    Tidy container (s.extracted e) := by
  by_cases cached : s.cached_entry = int32 e.data_offset
  · rw [extracted_cached cached]
    exact tidy
  · have inside := WRAEntry.wraEntries_inside small member
    rw [← tidy.here] at inside
    obtain ⟨-, same, result⟩ := extractEntry_fresh cached inside
    rw [tidy.here] at same result
    refine ⟨same, result.imp id fun kept => ⟨e, member, kept⟩⟩

theorem int32_injective {m n : Nat} (small : m < 2 ^ 32) (small' : n < 2 ^ 32) (same : int32 m = int32 n) : m = n := by
  simp only [int32] at same
  split at same <;> split at same <;> omega

/-- An entry of the archive is extracted as asked, in every state that extractions lead to, exactly
when it has data or is not the cached one. -/
theorem extractEntry_iff (container : Str) (small : container.length < 2 ^ 32) (es : List WRAEntry)
    (known : ∀ e ∈ es, e ∈ (opened container).entries) (e : WRAEntry) (member : e ∈ (opened container).entries) :
    (es.foldl extracted (opened container)).Implements e ↔
      e.data_offset < e.data_end ∨ (es.foldl extracted (opened container)).cached_entry ≠ int32 e.data_offset := by
  have tidy : Tidy container (es.foldl extracted (opened container)) :=
    Along.invariant (fun s f tidy listed => tidy.extracted small (opened_entries listed)) (tidy_opened container)
      (along_of_mem known)
  have member := opened_entries member
  have inside := WRAEntry.wraEntries_inside small member
  have begins := WRAEntry.wraEntries_start member
  generalize es.foldl extracted (opened container) = s at tidy
  by_cases cached : s.cached_entry = int32 e.data_offset
  · rw [or_iff_left (not_not.mpr cached)]
    constructor
    · rintro ⟨ok, t, result, -, refuses⟩
      by_contra empty
      have nothing : e.compressed s.container = [] := by
        rw [WRAEntry.compressed, Nat.sub_eq_zero_of_le (Nat.le_of_not_lt empty), List.take_zero]
      rw [nothing] at refuses
      have refused := (refuses not_encodes_nil).1
      rw [extractEntry_cached cached, refused] at result
      cases result
    · intro data
      rcases tidy.cached with fresh | ⟨f, listed, data', same, encodes⟩
      · rw [cached] at fresh
        simp only [int32] at fresh
        split at fresh <;> omega
      · have equal : f.data_offset = e.data_offset := by
          have := WRAEntry.wraEntries_start listed
          exact int32_injective (by omega) (by omega) (same.symm.trans cached)
        obtain rfl := WRAEntry.wraEntries_apart small listed member data' data equal
        rw [← tidy.here] at encodes
        exact ⟨true, s, extractEntry_cached cached, fun out encodes' => ⟨rfl, encodes.unique encodes'⟩,
          fun none => absurd encodes (none _)⟩
  · rw [← tidy.here] at inside
    exact iff_of_true (extractEntry_fresh cached inside).1 (.inr cached)

/- Two signatures before one text, the byte `0x78`; the second stands in the name of the first. -/
def nested : Str := [0xFF, 0x42, 0x4C, 0xFF, 0x41, 0xFF, 0x42, 0x4C, 0xFF, 0x42, 0, 2, 0x3C, 0x40, 0, 0, 0]

def shadowed : WRAEntry where
  filename := [0x41, 0xFF, 0x42, 0x4C, 0xFF, 0x42]
  file_type := 2
  sig_offset := 0
  data_offset := 12
  data_end := 12

def named : WRAEntry where
  filename := [0x42]
  file_type := 2
  sig_offset := 5
  data_offset := 12
  data_end := 15

theorem nested_entries : (opened nested).entries = [shadowed, named] := by decide

/-- The entry without data, after the other one: it is extracted, with the text of the other. -/
theorem shadowed_extracted : (∀ e ∈ [shadowed, named], e ∈ (opened nested).entries) ∧ shadowed.compressed nested = [] ∧
    ((([named].foldl extracted (opened nested)).extractEntry shadowed).map fun r => (r.1, r.2.data)) =
      some (true, [0x78]) ∧
    ¬ ([named].foldl extracted (opened nested)).Implements shadowed := by
  have both : (([named].foldl extracted (opened nested)).extractEntry shadowed).map (fun r => (r.1, r.2.data)) =
      some (true, [0x78]) := by decide +kernel
  have same : ([named].foldl extracted (opened nested)).container = nested := by decide
  have nothing : shadowed.compressed nested = [] := by decide
  refine ⟨fun e member => nested_entries ▸ member, nothing, both, ?_⟩
  rintro ⟨ok, t, result, -, refuses⟩
  rw [same, nothing] at refuses
  rw [result, (refuses not_encodes_nil).1] at both
  cases both

/-- The two entries in turn. -/
theorem extractEntry_iff_nested : ([named].foldl extracted (opened nested)).Implements named ↔
    named.data_offset < named.data_end ∨ ([named].foldl extracted (opened nested)).cached_entry ≠ int32 named.data_offset :=
  extractEntry_iff nested (by decide) [named] (by rw [nested_entries]; decide) named (by rw [nested_entries]; decide)

end WRAMStream

end Meatloaf.Archive
