import Meatloaf.Network.Paging

/-! Seeks in a resource, between reads of it: on servers that answer a range with the part or refuse it, and on servers
that answer with the whole. -/
namespace Meatloaf.Network

open Lib

/- A range from the start of a resource is answered with that part of it; another one is too, if it can be, or is
refused. -/
structure Server.Partial (server : Server) : Prop where
  start : ∀ url r, r.first = 0 → r.Satisfied (server.content url).length →
    (server.answer url (some r)).status = 206 ∧ (server.answer url (some r)).body = r.slice (server.content url) ∧
      (server.answer url (some r)).total = some (server.content url).length
  further : ∀ url r, r.first ≠ 0 →
    (r.Satisfied (server.content url).length ∧ (server.answer url (some r)).status = 206 ∧
        (server.answer url (some r)).body = r.slice (server.content url) ∧
        (server.answer url (some r)).total = some (server.content url).length) ∨
      ((server.answer url (some r)).status = 416 ∧ ∀ n ∈ (server.answer url (some r)).total, n = (server.content url).length)

inductive ClientCall where
  | reads (size : UInt32)
  | seeks (pos : UInt32)

namespace MeatHttpClient

variable (server : Server) (canReuse : Bool)

def call (c : MeatHttpClient) : ClientCall → MeatHttpClient
  | .reads size => (c.read server canReuse size.toNat).2
  | .seeks pos => (c.seek server canReuse pos.toNat).2

/- The next byte is the one at this position, however many are read. -/
def Stands (text : List UInt8) (c : MeatHttpClient) (pos : Nat) : Prop :=
  ∀ size, 0 < size → (c.read server canReuse size).1.head? = text[pos]?

/-- A seek to a byte of the resource that succeeds stands at that byte. -/
def Lands (text : List UInt8) (c : MeatHttpClient) : ClientCall → Prop
  | .reads _ => True
  | .seeks pos => (c.seek server canReuse pos.toNat).1 = true → pos.toNat < text.length →
      Stands server canReuse text (c.seek server canReuse pos.toNat).2 pos.toNat

/- The client that a read reads from. -/
def atWork (c : MeatHttpClient) (size : Nat) : MeatHttpClient :=
  if c.isOpen then c else (c.processRedirectsAndOpen server canReuse c.position size).2

/-- No page is refused with a text, and without range requests the start is not sought where the client takes
itself to be there, with the response used up. -/
def Clear (text : List UInt8) (c : MeatHttpClient) : ClientCall → Prop
  | .reads size => let c := c.atWork server canReuse size.toNat
    c.isOpen = true → ∀ r ∈ c.pageRange size.toNat, (server.answer c.url (some r)).status = 416 →
      (server.answer c.url (some r)).body = []
  | .seeks pos => ¬ (c.isFriendlySkipper = false ∧ c.isOpen = true ∧ c.position = pos.toNat ∧ c.live = [] ∧
      pos.toNat < text.length)

variable {server} {canReuse} {text : List UInt8} {c : MeatHttpClient} {pos size : Nat}

theorem stands_of_live (isOpen : c.isOpen = true) (live : c.live <+: text.drop pos) (some : c.live ≠ []) :
    Stands server canReuse text c pos := by
  intro size positive
  have first : (c.read server canReuse size).1 = c.live.take size := by
    simp only [read, isOpen, if_true, page]
    split
    · rfl
    · rfl
  obtain ⟨rest, join⟩ := live
  obtain ⟨b, tail, bytes⟩ := List.exists_cons_of_ne_nil some
  have there : text[pos]? = Option.some b := by
    rw [← List.head?_drop, ← join, bytes]
    rfl
  obtain ⟨k, rfl⟩ : ∃ k, size = k + 1 := ⟨size - 1, by omega⟩
  rw [first, there, bytes]
  rfl

/-- A client of a server that answers ranges. -/
structure Skipping (server : Server) (text : List UInt8) (c : MeatHttpClient) : Prop where
  long : 5 ≤ c.url.length
  content : server.content c.url = text
  total : c.rangeSize = text.length
  skips : c.isFriendlySkipper = true
  live : c.isOpen = true → c.live <+: text.drop c.position

theorem Skipping.init (skipping : Skipping server text c) : Skipping server text (c.init canReuse) where
  long := by simpa only [init_url] using skipping.long
  content := by simpa only [init_url] using skipping.content
  total := by simpa only [init_rangeSize] using skipping.total
  skips := by simpa only [init_skips] using skipping.skips
  live isOpen := by
    rw [init_closed] at isOpen
    cases isOpen

theorem Skipping.drained (skipping : Skipping server text c) : Skipping server text c.drain :=
  ⟨skipping.long, skipping.content, skipping.total, skipping.skips, fun _ => List.nil_prefix⟩

/- A request that is answered with the part. -/
theorem opened_part (canReuse : Bool) (long : 5 ≤ c.url.length) (content : server.content c.url = text)
    (status : (server.answer c.url (some (c.rangeFor pos size))).status = 206)
    (body : (server.answer c.url (some (c.rangeFor pos size))).body = (c.rangeFor pos size).slice text)
    (total : (server.answer c.url (some (c.rangeFor pos size))).total = some text.length) :
    ∃ c', c.processRedirectsAndOpen server canReuse pos size = (true, c') ∧ Skipping server text c' ∧ c'.isOpen = true ∧
      c'.lastRC = 206 ∧ c'.position = pos ∧ c'.live = (c.rangeFor pos size).slice text := by
  refine ⟨{ { c with connectionClose := false }.onHeaders (server.answer c.url (some (c.rangeFor pos size))) with
    isOpen := true, lastRC := 206, isFriendlySkipper := true, position := pos }, ?_, ?_, rfl, rfl, rfl, body⟩
  · simp [processRedirectsAndOpen, openAndFetchHeaders, Nat.not_lt.mpr long, status]
  · have part : (server.answer c.url (some (c.rangeFor pos size))).body <+: text.drop pos := by
      rw [body]
      exact Range.slice_prefix _ _
    exact ⟨long, content, congrArg (Option.getD · c.rangeSize) total, rfl, fun _ => part⟩

/- What a request leaves: the part, or a client that is closed. -/
theorem Skipping.request (canReuse : Bool) (pos size : Nat) (partially : server.Partial) (more : text ≠ []) (skipping : Skipping server text c) :
    (∃ c', c.processRedirectsAndOpen server canReuse pos size = (true, c') ∧ Skipping server text c' ∧ c'.isOpen = true ∧
        c'.lastRC = 206 ∧ c'.position = pos ∧ c'.live = (c.rangeFor pos size).slice text ∧
        (c.rangeFor pos size).Satisfied text.length) ∨
      ∃ c', c.processRedirectsAndOpen server canReuse pos size = (false, c') ∧ Skipping server text c' ∧
        c'.isOpen = false := by
  have content := skipping.content
  by_cases start : pos = 0
  · subst start
    have inside : (c.rangeFor 0 size).Satisfied text.length := content ▸ rangeFor_start (content.symm ▸ more)
    obtain ⟨status, body, total⟩ := partially.start c.url _ rfl (content.symm ▸ inside)
    rw [content] at body total
    obtain ⟨c', step, next⟩ := opened_part canReuse skipping.long content status body total
    exact .inl ⟨c', step, next.1, next.2.1, next.2.2.1, next.2.2.2.1, next.2.2.2.2, inside⟩
  · rcases partially.further c.url (c.rangeFor pos size) start with ⟨inside, status, body, total⟩ | ⟨status, known⟩
    · rw [content] at inside body total
      obtain ⟨c', step, next⟩ := opened_part canReuse skipping.long content status body total
      exact .inl ⟨c', step, next.1, next.2.1, next.2.2.1, next.2.2.2.1, next.2.2.2.2, inside⟩
    · right
      rw [content] at known
      refine ⟨{ { { c with connectionClose := false }.onHeaders (server.answer c.url (some (c.rangeFor pos size))) with
        isOpen := true, lastRC := 416 } with error := 416, isOpen := false }.init canReuse, ?_, ?_, init_closed _⟩
      · simp [processRedirectsAndOpen, openAndFetchHeaders, Nat.not_lt.mpr skipping.long, status, start]
      · refine Skipping.init ⟨skipping.long, content, ?_, ?_, fun wrong => by cases wrong⟩
        · cases there : (server.answer c.url (some (c.rangeFor pos size))).total with
          | none => simpa [onHeaders, there] using skipping.total
          | some n => simpa [onHeaders, there] using known n there
        · simp [onHeaders, skipping.skips]

/- The headers of the next page. -/
theorem Skipping.headers (partially : server.Partial) (skipping : Skipping server text c) (further : c.position ≠ 0)
    (clear : (server.answer c.url (some (c.rangeFor c.position size))).status = 416 →
      (server.answer c.url (some (c.rangeFor c.position size))).body = []) :
    Skipping server text (c.openAndFetchHeaders server c.position size).2 := by
  have content := skipping.content
  have next : (c.openAndFetchHeaders server c.position size).2 = { { c with connectionClose := false }.onHeaders
      (server.answer c.url (some (c.rangeFor c.position size))) with isOpen := true } := by
    simp [openAndFetchHeaders, Nat.not_lt.mpr skipping.long, further]
  rw [next]
  refine ⟨skipping.long, content, ?_, ?_, fun _ => ?_⟩
  · simp only [onHeaders]
    rcases partially.further c.url (c.rangeFor c.position size) further with ⟨-, -, -, total⟩ | ⟨-, known⟩
    · rw [total, content]
      rfl
    · cases there : (server.answer c.url (some (c.rangeFor c.position size))).total with
      | none => exact skipping.total
      | some n => exact (known n there).trans (congrArg List.length content)
  · simp only [onHeaders, skipping.skips, Bool.true_or]
  · simp only [onHeaders]
    rcases partially.further c.url (c.rangeFor c.position size) further with ⟨-, -, body, -⟩ | ⟨status, -⟩
    · rw [body, content]
      exact Range.slice_prefix _ _
    · rw [clear status]
      exact List.nil_prefix

/- A read off an open response keeps what the client is, unless the next range is refused with a text. -/
theorem Skipping.page (partially : server.Partial) (skipping : Skipping server text c) (fits : text.length < 2 ^ 32)
    (isOpen : c.isOpen = true)
    (clear : ∀ r ∈ c.pageRange size, (server.answer c.url (some r)).status = 416 → (server.answer c.url (some r)).body = []) :
    Skipping server text (c.page server size).2 := by
  have live := skipping.live isOpen
  have taken : Skipping server text (c.taken size) :=
    ⟨skipping.long, skipping.content, skipping.total, skipping.skips, fun _ => taken_follows live fits⟩
  by_cases exceeds : c.live.take size ≠ [] ∧ (c.live.take size).length < size ∧
      (c.knownSize = 0 ∨ (c.taken size).position < c.knownSize)
  · have next : c.page server size = (c.live.take size,
        ((c.taken size).openAndFetchHeaders server (c.taken size).position size).2) := if_pos exceeds
    have range : c.pageRange size = some ((c.taken size).rangeFor (c.taken size).position size) := if_pos exceeds
    have further : (c.taken size).position ≠ 0 := by
      have positive := List.length_pos_iff.mpr exceeds.1
      rw [taken_position live fits exceeds.1]
      omega
    simp only [range, Option.mem_def, Option.some.injEq, forall_eq'] at clear
    rw [next]
    exact taken.headers partially further clear
  · have next : c.page server size = (c.live.take size, c.taken size) := if_neg exceeds
    rw [next]
    exact taken

theorem Skipping.read (partially : server.Partial) (more : text ≠ []) (fits : text.length < 2 ^ 32)
    (skipping : Skipping server text c)
    (clear : (c.atWork server canReuse size).isOpen = true → ∀ r ∈ (c.atWork server canReuse size).pageRange size,
      (server.answer (c.atWork server canReuse size).url (some r)).status = 416 →
        (server.answer (c.atWork server canReuse size).url (some r)).body = []) :
    Skipping server text (c.read server canReuse size).2 := by
  have turn : c.read server canReuse size = if (c.atWork server canReuse size).isOpen then
      (c.atWork server canReuse size).page server size else ([], c.atWork server canReuse size) := rfl
  have works : Skipping server text (c.atWork server canReuse size) := by
    unfold atWork
    split
    · exact skipping
    · rcases skipping.request canReuse c.position size partially more with
        ⟨c', step, next, -⟩ | ⟨c', step, next, -⟩
      · rw [step]
        exact next
      · rw [step]
        exact next
  rw [turn]
  split
  · rename_i isOpen
    exact works.page partially fits isOpen (clear isOpen)
  · exact works

theorem Range.slice_ne_nil {r : Range} (inside : r.Satisfied text.length) : r.slice text ≠ [] := by
  obtain ⟨first, above⟩ := inside
  apply List.ne_nil_of_length_pos
  unfold Range.slice
  split
  · rw [List.length_drop]
    omega
  · rename_i last known
    have further := above last known
    rw [List.length_take, List.length_drop]
    omega

/- A part from the start that is asked for to reach behind a place does so, unless its end does not have 32 bits. -/
theorem rangeFor_reaches (total : c.rangeSize = text.length) (inside : pos < text.length) (fits : text.length < 2 ^ 32)
    (flushed : pos ≤ ((c.rangeFor 0 ((pos + HTTP_BLOCK_SIZE) % 2 ^ 32)).slice text).length) :
    pos < ((c.rangeFor 0 ((pos + HTTP_BLOCK_SIZE) % 2 ^ 32)).slice text).length := by
  have positive : 0 < text.length := Nat.lt_of_le_of_lt (Nat.zero_le _) inside
  have known : c.knownSize = text.length := by
    rw [knownSize, total, if_pos positive]
  cases single : c.sequentialAccess with
  | true =>
    have whole : (c.rangeFor 0 ((pos + HTTP_BLOCK_SIZE) % 2 ^ 32)).slice text = text := by
      simp only [rangeFor, single, if_true, Range.slice, List.drop_zero]
    rwa [whole]
  | false =>
    simp only [rangeFor, single, known, Bool.false_eq_true, if_false, Range.slice, List.drop_zero, List.length_take,
      HTTP_BLOCK_SIZE] at flushed ⊢
    by_cases ends : 0 < text.length ∧ text.length ≤ (0 + (pos + 256) % 2 ^ 32 + 5) % 2 ^ 32
    · rw [if_pos ends] at flushed ⊢
      omega
    · rw [if_neg ends] at flushed ⊢
      omega

/- What becomes of the way back, once the start is there. -/
theorem restart_opened {c' : MeatHttpClient}
    (step : c.processRedirectsAndOpen server canReuse 0 ((pos + HTTP_BLOCK_SIZE) % 2 ^ 32) = (true, c')) :
    (c'.live.length < pos ∧ c.restart server canReuse pos = (false, { c' with live := [], position := 0 })) ∨
      (pos ≤ c'.live.length ∧ c.restart server canReuse pos = (true, { c' with live := c'.live.drop pos, position := pos })) := by
  have turn : c.restart server canReuse pos = if 0 < pos ∧ ({ c' with position := 0 }.flush pos).1 = false then
      { c' with position := 0 }.flush pos else (true, { ({ c' with position := 0 }.flush pos).2 with position := pos }) := by
    unfold MeatHttpClient.restart
    rw [step]
    rfl
  rw [turn]
  by_cases short : c'.live.length < pos
  · refine .inl ⟨short, (if_pos ⟨by omega, decide_eq_false (Nat.not_le.mpr short)⟩).trans ?_⟩
    simp only [flush, List.drop_eq_nil_of_le (Nat.le_of_lt short), decide_eq_false (Nat.not_le.mpr short)]
  · have enough := Nat.not_lt.mp short
    exact .inr ⟨enough, if_neg fun wrong => by simp [flush, enough] at wrong⟩

/- The way back to the start and on to a place. -/
theorem Skipping.restart (partially : server.Partial) (more : text ≠ []) (fits : text.length < 2 ^ 32)
    (long : 5 ≤ c.url.length) (content : server.content c.url = text) (total : c.rangeSize = text.length) :
    Skipping server text (c.restart server canReuse pos).2 ∧
      ((c.restart server canReuse pos).1 = true → pos < text.length →
        Stands server canReuse text (c.restart server canReuse pos).2 pos) := by
  have inside : (c.rangeFor 0 ((pos + HTTP_BLOCK_SIZE) % 2 ^ 32)).Satisfied text.length :=
    content ▸ rangeFor_start (content.symm ▸ more)
  obtain ⟨status, body, whole⟩ := partially.start c.url _ rfl (content.symm ▸ inside)
  rw [content] at body whole
  obtain ⟨c', step, next, isOpen, -, -, live⟩ := opened_part canReuse long content status body whole
  rcases restart_opened step with ⟨-, stops⟩ | ⟨flushed, goes⟩
  · rw [stops]
    exact ⟨⟨next.long, next.content, next.total, next.skips, fun _ => List.nil_prefix⟩, fun wrong => by cases wrong⟩
  · have part : c'.live <+: text := by
      rw [live]
      exact Range.slice_prefix _ text
    have place : c'.live.drop pos <+: text.drop pos := prefix_drop part pos
    rw [goes]
    refine ⟨⟨next.long, next.content, next.total, next.skips, fun _ => place⟩, fun _ less => ?_⟩
    refine stands_of_live (c := { c' with live := c'.live.drop pos, position := pos }) isOpen place ?_
    rw [live] at flushed ⊢
    have reached := rangeFor_reaches total less fits flushed
    apply List.ne_nil_of_length_pos
    rw [List.length_drop]
    omega

theorem Skipping.seek (partially : server.Partial) (more : text ≠ []) (fits : text.length < 2 ^ 32)
    (skipping : Skipping server text c) (pos : Nat) :
    Skipping server text (c.seek server canReuse pos).2 ∧
      ((c.seek server canReuse pos).1 = true → pos < text.length →
        Stands server canReuse text (c.seek server canReuse pos).2 pos) := by
  by_cases there : c.isOpen = true ∧ pos = c.position ∧ c.live ≠ []
  · have stays : c.seek server canReuse pos = (true, c) := if_pos there
    obtain ⟨isOpen, rfl, some⟩ := there
    rw [stays]
    exact ⟨skipping, fun _ _ => stands_of_live isOpen (skipping.live isOpen) some⟩
  · have ready : Skipping server text (if c.isOpen then c.drain else c) := by
      split
      · exact skipping.drained
      · exact skipping
    unfold MeatHttpClient.seek
    rw [if_neg there, if_pos skipping.skips]
    generalize (if c.isOpen then c.drain else c) = d at ready
    rcases ready.request canReuse pos HTTP_BLOCK_SIZE partially more with
      ⟨c', step, next, isOpen, status, -, live, inside⟩ | ⟨c', step, next, closed⟩
    · have place : c'.live <+: text.drop pos := by
        rw [live]
        exact Range.slice_prefix _ _
      simp only [step, status, if_true]
      exact ⟨⟨next.long, next.content, next.total, next.skips, fun _ => place⟩, fun _ _ =>
        stands_of_live isOpen place (live ▸ Range.slice_ne_nil inside)⟩
    · simp only [step, Bool.false_eq_true, if_false]
      split
      · exact ⟨next, fun wrong => by cases wrong⟩
      · rw [discard_closed (c := { c' with isFriendlySkipper := false }) closed]
        exact Skipping.restart (c := { c' with isFriendlySkipper := false }) partially more fits next.long next.content next.total

/- A client that has been told of no ranges. -/
structure Rangeless (server : Server) (text : List UInt8) (c : MeatHttpClient) : Prop where
  long : 5 ≤ c.url.length
  content : server.content c.url = text
  skips : c.isFriendlySkipper = false
  total : c.rangeSize = 0
  calm : c.error = 0

/-- A client of a server without range requests. The response is used up where a seek behind its end has failed. -/
structure Whole (server : Server) (text : List UInt8) (c : MeatHttpClient) : Prop extends Rangeless server text c where
  isOpen : c.isOpen = true
  size : c.size = text.length
  inside : c.position ≤ text.length
  live : c.live = text.drop c.position ∨ c.live = [] ∧ c.position = 0

/- A request that is answered with the whole. -/
theorem opened_whole (canReuse : Bool) (size : Nat) (plain : server.Plain) (rangeless : Rangeless server text c) :
    ∃ c', c.processRedirectsAndOpen server canReuse 0 size = (true, c') ∧ Whole server text c' ∧ c'.live = text := by
  obtain ⟨status, body, unknown⟩ := plain c.url (some (c.rangeFor 0 size))
  rw [rangeless.content] at body
  refine ⟨{ { c with connectionClose := false }.onHeaders (server.answer c.url (some (c.rangeFor 0 size))) with
    isOpen := true, lastRC := 200, position := 0 }, ?_, ?_, body⟩
  · simp [processRedirectsAndOpen, openAndFetchHeaders, Nat.not_lt.mpr rangeless.long, status, onHeaders, rangeless.calm]
  · refine ⟨⟨rangeless.long, rangeless.content, ?_, ?_, rangeless.calm⟩, rfl, congrArg List.length body, Nat.zero_le _, .inl body⟩
    · simp only [onHeaders, rangeless.skips, unknown, Option.isSome_none, Bool.or_false]
    · simp only [onHeaders, rangeless.total, unknown, Option.getD_none]

theorem Whole.read (whole : Whole server text c) (fits : text.length < 2 ^ 32) :
    Whole server text (c.read server canReuse size).2 := by
  have turn : c.read server canReuse size = c.page server size := by
    simp only [MeatHttpClient.read, whole.isOpen, if_true]
  have aligned : c.live <+: text.drop c.position := by
    rcases whole.live with rest | ⟨none, -⟩
    · exact rest ▸ List.prefix_rfl
    · exact none ▸ List.nil_prefix
  -- a response that ends before the read does ends with the resource
  have stops : ¬ (c.live.take size ≠ [] ∧ (c.live.take size).length < size ∧
      (c.knownSize = 0 ∨ (c.taken size).position < c.knownSize)) := by
    rintro ⟨some, less, more⟩
    have known : c.knownSize = text.length := by
      rw [knownSize, whole.total, whole.size]
      exact if_neg (Nat.lt_irrefl 0)
    rw [taken_position aligned fits some, known] at more
    rcases whole.live with rest | ⟨none, -⟩
    · have positive := List.length_pos_iff.mpr some
      have length := congrArg List.length rest
      rw [List.length_drop] at length
      rw [List.length_take] at less more positive
      omega
    · rw [none, List.take_nil] at some
      exact some rfl
  have next : c.page server size = (c.live.take size, c.taken size) := if_neg stops
  rw [turn, next]
  have inside := whole.inside
  rcases whole.live with rest | ⟨none, start⟩
  · have piece : (c.live.take size).length = min size (text.length - c.position) := by
      rw [rest, List.length_take, List.length_drop]
    have place : (c.taken size).position = c.position + min size (text.length - c.position) := by
      simp only [taken, piece]
      exact Nat.mod_eq_of_lt (by omega)
    have after : (c.taken size).live = text.drop (c.taken size).position := by
      rw [place]
      simp only [taken, rest, List.drop_drop]
      by_cases short : size ≤ text.length - c.position
      · rw [Nat.min_eq_left short]
      · rw [List.drop_eq_nil_of_le (by omega), List.drop_eq_nil_of_le (by omega)]
    have within : (c.taken size).position ≤ text.length := by omega
    exact ⟨⟨whole.long, whole.content, whole.skips, whole.total, whole.calm⟩, whole.isOpen, whole.size, within, .inl after⟩
  · have still : c.taken size = c := by
      obtain ⟨⟩ := c
      simp_all [taken]
    rw [still]
    exact whole

/- The way back to the start and on to a place. -/
theorem Rangeless.restart (plain : server.Plain) (rangeless : Rangeless server text c) :
    Whole server text (c.restart server canReuse pos).2 ∧
      ((c.restart server canReuse pos).1 = true → pos < text.length →
        Stands server canReuse text (c.restart server canReuse pos).2 pos) := by
  obtain ⟨c', step, next, live⟩ := opened_whole canReuse ((pos + HTTP_BLOCK_SIZE) % 2 ^ 32) plain rangeless
  rcases restart_opened step with ⟨-, stops⟩ | ⟨flushed, goes⟩
  · rw [stops]
    exact ⟨⟨⟨next.long, next.content, next.skips, next.total, next.calm⟩, next.isOpen, next.size, Nat.zero_le _,
      .inr ⟨rfl, rfl⟩⟩, fun wrong => by cases wrong⟩
  · rw [live] at flushed goes
    rw [goes]
    refine ⟨⟨⟨next.long, next.content, next.skips, next.total, next.calm⟩, next.isOpen, next.size, flushed, .inl rfl⟩,
      fun _ less => ?_⟩
    refine stands_of_live (c := { c' with live := text.drop pos, position := pos }) next.isOpen List.prefix_rfl ?_
    exact fun none => absurd (List.drop_eq_nil_iff.mp none) (Nat.not_le.mpr less)

theorem Whole.seek (plain : server.Plain) (whole : Whole server text c)
    (clear : ¬ (c.isFriendlySkipper = false ∧ c.isOpen = true ∧ c.position = pos ∧ c.live = [] ∧ pos < text.length)) :
    Whole server text (c.seek server canReuse pos).2 ∧
      ((c.seek server canReuse pos).1 = true → pos < text.length →
        Stands server canReuse text (c.seek server canReuse pos).2 pos) := by
  by_cases there : c.isOpen = true ∧ pos = c.position ∧ c.live ≠ []
  · have stays : c.seek server canReuse pos = (true, c) := if_pos there
    obtain ⟨isOpen, rfl, some⟩ := there
    have rest := whole.live.resolve_right fun used => some used.1
    rw [stays]
    exact ⟨whole, fun _ _ => stands_of_live isOpen (rest ▸ List.prefix_rfl) some⟩
  · have goes : c.seek server canReuse pos = c.discard server canReuse pos := by
      unfold MeatHttpClient.seek
      rw [if_neg there, if_neg (by rw [whole.skips]; decide)]
    rw [goes]
    unfold discard
    dsimp only
    by_cases ahead : c.isOpen = true ∧ c.position ≤ pos
    · rw [if_pos ahead]
      by_cases same : pos = c.position
      · rw [if_pos same]
        refine ⟨whole, fun _ less => absurd ?_ clear⟩
        have used : c.live = [] := by
          by_contra some
          exact there ⟨ahead.1, same, some⟩
        exact ⟨whole.skips, whole.isOpen, same.symm, used, less⟩
      · rw [if_neg same]
        by_cases enough : pos - c.position ≤ c.live.length
        · have succeeds : (c.flush (pos - c.position)).1 = true := decide_eq_true enough
          rw [if_pos succeeds]
          have rest : c.live = text.drop c.position := by
            apply whole.live.resolve_right
            rintro ⟨used, -⟩
            rw [used, List.length_nil] at enough
            omega
          have behind : c.live.drop (pos - c.position) = text.drop pos := by
            rw [rest, List.drop_drop, Nat.add_sub_cancel' ahead.2]
          have inside : pos ≤ text.length := by
            have before := whole.inside
            rw [rest, List.length_drop] at enough
            omega
          refine ⟨⟨⟨whole.long, whole.content, whole.skips, whole.total, whole.calm⟩, whole.isOpen, whole.size, inside,
            .inl behind⟩, fun _ less => ?_⟩
          refine stands_of_live (c := { (c.flush (pos - c.position)).2 with position := pos }) whole.isOpen ?_ ?_
          · exact behind ▸ List.prefix_rfl
          · exact fun none => absurd (List.drop_eq_nil_iff.mp (behind.symm.trans none)) (Nat.not_le.mpr less)
        · have fails : ¬ (c.flush (pos - c.position)).1 = true := by simpa [flush] using enough
          rw [if_neg fails]
          have used : Rangeless server text (c.flush (pos - c.position)).2 :=
            ⟨whole.long, whole.content, whole.skips, whole.total, whole.calm⟩
          exact used.restart plain
    · rw [if_neg ahead]
      exact whole.toRangeless.restart plain

/- What GET leaves. -/
theorem get_serves {url : Str} (serves : server.Partial ∨ server.Plain) (ok : (c.get server canReuse url).1 = true)
    (more : server.content (encoded url) ≠ []) :
    server.Partial ∧ Skipping server (server.content (encoded url)) (c.get server canReuse url).2 ∨
      server.Plain ∧ Whole server (server.content (encoded url)) (c.get server canReuse url).2 := by
  obtain ⟨same, calm, -, fresh⟩ := Download.asking_new canReuse c url
  have skips : (Download.asking canReuse c url).isFriendlySkipper = false := init_skips _
  unfold MeatHttpClient.get at ok ⊢
  rw [show (c.renew url).init canReuse = Download.asking canReuse c url from rfl] at ok ⊢
  generalize Download.asking canReuse c url = d at same calm fresh skips ok ⊢
  rw [← same] at more ⊢
  have long : 5 ≤ d.url.length := by
    by_contra short
    simp [processRedirectsAndOpen, openAndFetchHeaders, Nat.not_le.mp short] at ok
  rcases serves with partially | plain
  · left
    obtain ⟨status, body, total⟩ := partially.start d.url (d.rangeFor 0 HTTP_BLOCK_SIZE) rfl (rangeFor_start more)
    obtain ⟨c', step, next, -⟩ := opened_part canReuse long rfl status body total
    rw [step]
    exact ⟨partially, next⟩
  · right
    obtain ⟨c', step, next, -⟩ := opened_whole canReuse HTTP_BLOCK_SIZE plain
      ⟨long, rfl, skips, fresh, calm⟩
    rw [step]
    exact ⟨plain, next⟩

/-- In every run of reads and seeks after a GET in which all calls are clear, every seek to a byte of the resource that
succeeds stands at that byte. -/
theorem client_seek_lands (server : Server) (canReuse : Bool) (serves : server.Partial ∨ server.Plain) (c : MeatHttpClient) (url : Str)
    (ok : (c.get server canReuse url).1 = true) (fits : (server.content (encoded url)).length < 2 ^ 32) (calls : List ClientCall)
    (clear : Along (call server canReuse) (Clear server canReuse (server.content (encoded url))) (c.get server canReuse url).2 calls) :
    Along (call server canReuse) (Lands server canReuse (server.content (encoded url))) (c.get server canReuse url).2 calls := by
  by_cases more : server.content (encoded url) = []
  · rw [more]
    have never : ∀ d call, Lands server canReuse [] d call := by
      rintro d (size | pos)
      · trivial
      · exact fun _ inside => absurd inside (Nat.not_lt_zero _)
    exact Along.imp (I := fun _ => True) (fun _ _ _ _ => trivial) (fun d call _ _ => never d call) trivial along_true
  · rcases get_serves serves ok more with ⟨partially, skipping⟩ | ⟨plain, whole⟩
    · refine Along.imp (I := Skipping server (server.content (encoded url))) ?_ ?_ skipping clear
      · rintro d (size | pos) skipping clear
        · exact skipping.read partially more fits clear
        · exact (skipping.seek partially more fits pos.toNat).1
      · rintro d (size | pos) skipping -
        · trivial
        · exact (skipping.seek partially more fits pos.toNat).2
    · refine Along.imp (I := Whole server (server.content (encoded url))) ?_ ?_ whole clear
      · rintro d (size | pos) whole clear
        · exact whole.read fits
        · exact (whole.seek plain clear).1
      · rintro d (size | pos) whole clear
        · trivial
        · exact (whole.seek plain clear).2

end MeatHttpClient

theorem serve_parts (content : Str → List UInt8) : (serve content).Partial where
  start url r first inside := by
    simp only [serve] at inside ⊢
    simp [inside]
  further url r further := by
    by_cases inside : r.Satisfied (content url).length
    · simp [serve, inside]
    · simp [serve, inside]

/-- `client_seek_lands` applies where a client seeks forward, behind the end and back. -/
theorem client_seek_lands_letters : Along (MeatHttpClient.call (serve twoFiles) true)
    (MeatHttpClient.Lands (serve twoFiles) true (twoFiles (encoded (letters false).text)))
    (({} : MeatHttpClient).get (serve twoFiles) true (letters false).text).2
    [.seeks 1, .reads 1, .seeks 3, .seeks 0, .reads 2] :=
  MeatHttpClient.client_seek_lands (serve twoFiles) true (.inl (serve_parts twoFiles)) {} (letters false).text (by decide)
    (by decide +kernel) _ (by
      simp only [Along, MeatHttpClient.Clear]
      decide)

/- A server that answers with the whole. -/
def serveWhole (content : Str → List UInt8) : Server where
  content := content
  answer url _ := { status := 200, body := content url, total := none, close := false }

/-- Behind its end a seek fails in a file of two bytes; back at the start it succeeds, and nothing is read. -/
theorem start_used_up : ¬ ∀ (server : Server) (canReuse : Bool) (c : MeatHttpClient) (url : Str) (calls : List ClientCall),
    server.Partial ∨ server.Plain → (c.get server canReuse url).1 = true → (server.content (encoded url)).length < 2 ^ 32 →
    Along (MeatHttpClient.call server canReuse) (MeatHttpClient.Lands server canReuse (server.content (encoded url)))
      (c.get server canReuse url).2 calls := by
  intro all
  obtain ⟨-, lands, -⟩ := all (serveWhole twoFiles) true {} (letters false).text [.seeks 3, .seeks 0]
    (.inr fun _ _ => ⟨rfl, rfl, rfl⟩) (by decide) (by decide)
  have first := lands (by decide) (by decide) 1 Nat.one_pos
  revert first
  decide

end Meatloaf.Network
