import Meatloaf.Lib.Run
import Meatloaf.Text.Names
import Mathlib.Logic.Function.Basic

/-! `HTTPMStream`, opened for reading, and the one `MeatHttpClient` that all streams of a host and
port share. The server answers at once and without a redirect, and every answer has its length. -/
namespace Meatloaf.Network

open Lib

/- The value of a "Range" header. -/
structure Range where
  first : Nat
  last : Option Nat

/- `total` is what "Content-Range" has behind the slash, `close` is "Connection: close". -/
structure Reply where
  status : Nat
  body : List UInt8
  total : Option Nat
  close : Bool

structure Server where
  content : Str → List UInt8
  answer : Str → Option Range → Reply

namespace Range

def Satisfied (r : Range) (size : Nat) : Prop := r.first < size ∧ ∀ last ∈ r.last, r.first ≤ last

instance (r : Range) (size : Nat) : Decidable (r.Satisfied size) := inferInstanceAs (Decidable (_ ∧ _))

def slice (r : Range) (text : List UInt8) : List UInt8 :=
  match r.last with
  | none => text.drop r.first
  | some last => (text.drop r.first).take (last + 1 - r.first)

theorem slice_prefix (r : Range) (text : List UInt8) : r.slice text <+: text.drop r.first := by
  unfold slice
  split
  · exact List.prefix_rfl
  · exact List.take_prefix _ _

end Range

/-- A server that answers range requests correctly. A range that cannot be satisfied is refused, or
one that makes no sense ignored. -/
structure Server.Correct (server : Server) : Prop where
  fits : ∀ url, (server.content url).length < 2 ^ 32
  slices : ∀ url r, r.Satisfied (server.content url).length →
    (server.answer url (some r)).status = 206 ∧ (server.answer url (some r)).body = r.slice (server.content url) ∧
      (server.answer url (some r)).total = some (server.content url).length
  refuses : ∀ url r, ¬ r.Satisfied (server.content url).length →
    ((server.answer url (some r)).status = 200 ∧ (server.answer url (some r)).body = server.content url ∧
        (server.answer url (some r)).total = none) ∨
      ((server.answer url (some r)).status = 416 ∧ ∀ n ∈ (server.answer url (some r)).total, n = (server.content url).length)
  whole : ∀ url, (server.answer url none).status = 200 ∧ (server.answer url none).body = server.content url ∧
    (server.answer url none).total = none

/- `mstr::replaceAll(url, " ", "%20")`. -/
def encoded (url : Str) : Str := url.flatMap fun c => if c = 0x20 then [0x25, 0x32, 0x30] else [c]

/- Scheme and authority, as `init` cuts them off. -/
def origin (url : Str) : Str :=
  if 0x3a ∈ url then
    let start := url.idxOf 0x3a + 3
    url.take start ++ (url.drop start).takeWhile fun c => !([0x2f, 0x3f, 0x23].contains c)
  else []

def HTTP_BLOCK_SIZE : Nat := 256

/-- `MeatHttpClient`, as far as a GET uses it. `live` is what the handle has still to read of the
response: when it is empty, all data have been received. -/
structure MeatHttpClient where
  url : Str := []
  isOpen : Bool := false
  size : Nat := 0
  rangeSize : Nat := 0
  position : Nat := 0
  error : Nat := 0
  lastRC : Nat := 0
  isFriendlySkipper : Bool := false
  sequentialAccess : Bool := false
  connectionClose : Bool := false
  httpOrigin : Str := []
  live : List UInt8 := []

namespace MeatHttpClient

variable (server : Server) (canReuse : Bool)

/- A handle is used again only for the same origin and after a response that was read to its end. -/
def init (c : MeatHttpClient) : MeatHttpClient :=
  if origin c.url ≠ [] ∧ origin c.url = c.httpOrigin ∧ canReuse ∧ c.live = [] ∧ c.connectionClose = false then
    { c with isOpen := false, size := 0, position := 0, lastRC := 0 }
  else
    { c with
      isOpen := false
      connectionClose := false
      httpOrigin := if 0x3a ∈ c.url then origin c.url else c.httpOrigin
      live := [] }

/- The size of the resource, as far as it is known: the total of a range before the length of a response. -/
def knownSize (c : MeatHttpClient) : Nat := if 0 < c.rangeSize then c.rangeSize else c.size

/- The end of the range that is asked for. -/
def rangeFor (c : MeatHttpClient) (position size : Nat) : Range where
  first := position
  last :=
    if c.sequentialAccess then none
    else
      let rangeEnd := (position + size + 5) % 2 ^ 32
      some (if 0 < c.knownSize ∧ c.knownSize ≤ rangeEnd then c.knownSize - 1 else rangeEnd)

/- What the headers of a response set. -/
def onHeaders (c : MeatHttpClient) (reply : Reply) : MeatHttpClient :=
  { c with
    size := reply.body.length
    rangeSize := reply.total.getD c.rangeSize
    isFriendlySkipper := c.isFriendlySkipper || reply.total.isSome
    connectionClose := c.connectionClose || reply.close
    live := reply.body }

/-- `openAndFetchHeaders`. The length has been set by the headers, so what is assigned behind
`fetch_headers` finds it known. -/
def openAndFetchHeaders (c : MeatHttpClient) (position size : Nat) : Nat × MeatHttpClient :=
  if c.url.length < 5 then (0, c)
  else
    let reply := server.answer c.url (some (c.rangeFor position size))
    let whole := server.answer c.url none
    let asked := { c with connectionClose := false }.onHeaders reply
    -- refused at the very start, the request is made again without a range
    if reply.status = 416 ∧ position = 0 then (whole.status, { asked.onHeaders whole with isOpen := true })
    else (reply.status, { asked with isOpen := true })

def processRedirectsAndOpen (c : MeatHttpClient) (position size : Nat) : Bool × MeatHttpClient :=
  let r := c.openAndFetchHeaders server position size
  let c : MeatHttpClient := { r.2 with lastRC := r.1 }
  if r.1 = 0 then (false, ((c.init canReuse).init canReuse).init canReuse)
  else if r.1 = 206 then (true, { c with isFriendlySkipper := true, isOpen := true, position := position })
  else if r.1 ≠ 520 ∧ (399 < r.1 ∨ c.error ≠ 0) then (false, { c with error := r.1, isOpen := false }.init canReuse)
  else (true, { c with isOpen := true, position := position })

/- What `open` sets before `init`. -/
def renew (c : MeatHttpClient) (dstUrl : Str) : MeatHttpClient :=
  { c with url := encoded dstUrl, error := 0, isFriendlySkipper := false, size := 0, rangeSize := 0 }

/-- `GET`. -/
def get (c : MeatHttpClient) (dstUrl : Str) : Bool × MeatHttpClient :=
  ((c.renew dstUrl).init canReuse).processRedirectsAndOpen server canReuse 0 HTTP_BLOCK_SIZE

def reopen (c : MeatHttpClient) : Bool × MeatHttpClient := c.get server canReuse c.url

/- `flush` of at least one byte. -/
def flush (c : MeatHttpClient) (numBytes : Nat) : Bool × MeatHttpClient :=
  (decide (numBytes ≤ c.live.length), { c with live := c.live.drop numBytes })

/- `flush(0)`, which always succeeds. -/
def drain (c : MeatHttpClient) : MeatHttpClient := { c with live := [] }

/- The end of `seek`: a request from the start, and bytes thrown away up to the place. -/
def restart (c : MeatHttpClient) (pos : Nat) : Bool × MeatHttpClient :=
  let r := c.processRedirectsAndOpen server canReuse 0 ((pos + HTTP_BLOCK_SIZE) % 2 ^ 32)
  let f := { r.2 with position := 0 }.flush pos
  if r.1 = false then r
  else if 0 < pos ∧ f.1 = false then f
  else (true, { f.2 with position := pos })

/- `seek` without range requests. -/
def discard (c : MeatHttpClient) (pos : Nat) : Bool × MeatHttpClient :=
  let f := c.flush (pos - c.position)
  if c.isOpen ∧ c.position ≤ pos then
    if pos = c.position then (true, c)
    else if f.1 then (true, { f.2 with position := pos })
    else f.2.restart server canReuse pos
  else c.restart server canReuse pos

def seek (c : MeatHttpClient) (pos : Nat) : Bool × MeatHttpClient :=
  if c.isOpen ∧ pos = c.position ∧ c.live ≠ [] then (true, c)
  else if c.isFriendlySkipper then
    let r := (if c.isOpen then c.drain else c).processRedirectsAndOpen server canReuse pos HTTP_BLOCK_SIZE
    if r.1 then
      if r.2.lastRC = 206 then (true, { r.2 with position := pos })
      else { r.2 with position := 0 }.discard server canReuse pos
    else if 0 < r.2.knownSize ∧ r.2.knownSize ≤ pos then (false, r.2)
    else { r.2 with isFriendlySkipper := false }.discard server canReuse pos
  else c.discard server canReuse pos

/- `esp_http_client_read`, and the position behind it. It fills the request unless the response ends. -/
def taken (c : MeatHttpClient) (size : Nat) : MeatHttpClient :=
  { c with live := c.live.drop size, position := (c.position + (c.live.take size).length) % 2 ^ 32 }

/- `read` off an open response. -/
def page (c : MeatHttpClient) (size : Nat) : List UInt8 × MeatHttpClient :=
  let buf := c.live.take size
  -- the range is exhausted, but not the resource
  if buf ≠ [] ∧ buf.length < size ∧ (c.knownSize = 0 ∨ (c.taken size).position < c.knownSize) then
    (buf, ((c.taken size).openAndFetchHeaders server (c.taken size).position size).2)
  else (buf, c.taken size)

def read (c : MeatHttpClient) (size : Nat) : List UInt8 × MeatHttpClient :=
  let c := if c.isOpen then c else (c.processRedirectsAndOpen server canReuse c.position size).2
  if c.isOpen then c.page server size else ([], c)

end MeatHttpClient

/- "http:" or "https:" at its start. -/
structure HttpUrl where
  text : Str
  scheme : [0x68, 0x74, 0x74, 0x70, 0x3a] <+: text ∨ [0x68, 0x74, 0x74, 0x70, 0x73, 0x3a] <+: text

/-- `HTTPMStream`. It has a session once it has been opened. -/
structure HTTPMStream where
  url : HttpUrl
  session : Bool := false
  size : Nat := 0
  position : Nat := 0

/-- The streams of one host and port, and their client. -/
structure Sharing (I : Type*) where
  client : MeatHttpClient
  streams : I → HTTPMStream

/- What is called on the streams. -/
inductive Call (I : Type*) where
  | opens (i : I)
  | reads (i : I) (size : UInt32)
  | seeks (i : I) (pos : UInt32)

namespace Sharing

variable {I : Type*} [DecidableEq I] (server : Server) (canReuse : Bool)

def available (w : Sharing I) (i : I) : Nat :=
  let s := w.streams i
  if s.position < s.size then s.size - s.position
  else if s.session ∧ w.client.isOpen then HTTP_BLOCK_SIZE else 0

def «open» (w : Sharing I) (i : I) : Sharing I :=
  let c := (w.client.get server canReuse (w.streams i).url.text).2
  { client := c
    streams := Function.update w.streams i
      { w.streams i with session := true, size := c.knownSize } }

def read (w : Sharing I) (i : I) (size : Nat) : List UInt8 × Sharing I :=
  let size := min size (w.available i)
  let r := w.client.read server canReuse size
  let s := w.streams i
  if 0 < size ∧ s.session then
    (r.1, { client := r.2, streams := Function.update w.streams i { s with position := (s.position + r.1.length) % 2 ^ 32 } })
  else ([], w)

/- Without a session there is no client to ask. -/
def seek (w : Sharing I) (i : I) (pos : Nat) : Sharing I :=
  let s := w.streams i
  let reopened := w.client.reopen server canReuse
  let c := if w.client.isOpen then w.client else reopened.2
  let r := { c with position := s.position }.seek server canReuse pos
  if s.session = false then w
  else if w.client.isOpen = false ∧ reopened.1 = false then { w with client := c }
  else { client := r.2, streams := Function.update w.streams i { s with position := if r.1 then pos else s.position } }

def step (w : Sharing I) : Call I → Sharing I
  | .opens i => w.open server canReuse i
  | .reads i size => (w.read server canReuse i size.toNat).2
  | .seeks i pos => w.seek server canReuse i pos.toNat

/- What a read delivers is a part of the stream's resource from the stream's position on. -/
def Own (w : Sharing I) : Call I → Prop
  | .reads i size => (w.read server canReuse i size.toNat).1 <+:
      (server.content (encoded (w.streams i).url.text)).drop (w.streams i).position
  | _ => True

instance (w : Sharing I) : (call : Call I) → Decidable (Own server canReuse w call)
  | .opens _ => inferInstanceAs (Decidable True)
  | .reads _ _ => inferInstanceAs (Decidable (_ <+: _))
  | .seeks _ _ => inferInstanceAs (Decidable True)

/- Before anything is opened. -/
def fresh (sequentialAccess : Bool) (urls : I → HttpUrl) : Sharing I where
  client := { sequentialAccess := sequentialAccess }
  streams i := { url := urls i }

end Sharing

/- ## What a request leaves -/

theorem prefix_drop {α : Type*} {s t : List α} (h : s <+: t) (n : Nat) : s.drop n <+: t.drop n := by
  obtain ⟨rest, rfl⟩ := h
  rw [List.drop_append]
  exact List.prefix_append _ _

theorem encoded_length (url : Str) : url.length ≤ (encoded url).length := by
  induction url with
  | nil => exact Nat.le_refl _
  | cons c url ih =>
    simp only [encoded, List.flatMap_cons, List.length_append, List.length_cons] at ih ⊢
    split <;> simp only [List.length_cons, List.length_nil] <;> omega

theorem HttpUrl.long (url : HttpUrl) : 5 ≤ (encoded url.text).length := by
  apply Nat.le_trans _ (encoded_length url.text)
  rcases url.scheme with plain | secure
  · exact plain.length_le
  · exact Nat.le_trans (by decide) secure.length_le

namespace MeatHttpClient

variable {server : Server} {canReuse : Bool} {c : MeatHttpClient} {pos size : Nat}

/-- A client that has the length of its resource right, and reads nothing else. -/
structure Serving (server : Server) (c : MeatHttpClient) : Prop where
  long : 5 ≤ c.url.length
  total : c.rangeSize = (server.content c.url).length
  skips : c.isFriendlySkipper = true ∨ server.content c.url = []
  part : c.isOpen → ∃ q, c.live <+: (server.content c.url).drop q

/-- What comes next stands where the client is. -/
def Aligned (server : Server) (c : MeatHttpClient) : Prop :=
  c.isOpen → c.live <+: (server.content c.url).drop c.position

theorem init_url (c : MeatHttpClient) : (c.init canReuse).url = c.url := by
  unfold init
  split <;> rfl

theorem init_closed (c : MeatHttpClient) : (c.init canReuse).isOpen = false := by
  unfold init
  split <;> rfl

theorem init_rangeSize (c : MeatHttpClient) : (c.init canReuse).rangeSize = c.rangeSize := by
  unfold init
  split <;> rfl

theorem init_skips (c : MeatHttpClient) : (c.init canReuse).isFriendlySkipper = c.isFriendlySkipper := by
  unfold init
  split <;> rfl

theorem init_error (c : MeatHttpClient) : (c.init canReuse).error = c.error := by
  unfold init
  split <;> rfl

theorem Aligned.of_closed (closed : c.isOpen = false) : Aligned server c := by
  intro isOpen
  rw [closed] at isOpen
  cases isOpen

theorem Aligned.of_empty (empty : c.live = []) : Aligned server c := by
  intro _
  rw [empty]
  exact List.nil_prefix

theorem Serving.init (serving : Serving server c) : Serving server (c.init canReuse) where
  long := by simpa only [init_url] using serving.long
  total := by simpa only [init_url, init_rangeSize] using serving.total
  skips := by simpa only [init_url, init_skips] using serving.skips
  part isOpen := by
    rw [init_closed] at isOpen
    cases isOpen

inductive Opened (server : Server) (c : MeatHttpClient) (pos : Nat) : Bool × MeatHttpClient → Prop
  | slice {c' : MeatHttpClient} (url : c'.url = c.url) (serving : Serving server c') (isOpen : c'.isOpen = true)
      (status : c'.lastRC = 206) (place : c'.position = pos) (live : c'.live <+: (server.content c.url).drop pos)
      (more : 0 < (server.content c.url).length) : Opened server c pos (true, c')
  | whole {c' : MeatHttpClient} (url : c'.url = c.url) (serving : Serving server c') (isOpen : c'.isOpen = true)
      (status : c'.lastRC = 200) (place : c'.position = pos) (live : c'.live = server.content c.url)
      (size : c'.size = (server.content c.url).length) : Opened server c pos (true, c')
  | refused {c' : MeatHttpClient} (url : c'.url = c.url) (serving : Serving server c') (closed : c'.isOpen = false)
      (why : 0 < pos ∨ c.error ≠ 0) : Opened server c pos (false, c')

/- What a client must know before it asks: nothing at all at the start of a resource. -/
def Ready (server : Server) (c : MeatHttpClient) (pos : Nat) : Prop :=
  Serving server c ∨ pos = 0 ∧ 5 ≤ c.url.length ∧ (server.content c.url = [] → c.rangeSize = 0)

theorem Ready.long (ready : Ready server c pos) : 5 ≤ c.url.length :=
  ready.elim (·.long) (·.2.1)

theorem fetch_satisfied (correct : server.Correct) (long : 5 ≤ c.url.length)
    (inside : (c.rangeFor pos size).Satisfied (server.content c.url).length) :
    ∃ c', c.openAndFetchHeaders server pos size = (206, c') ∧ c'.url = c.url ∧ Serving server c' ∧ c'.isOpen = true ∧
      c'.position = c.position ∧ c'.live <+: (server.content c.url).drop pos := by
  obtain ⟨status, body, total⟩ := correct.slices c.url _ inside
  have part : (server.answer c.url (some (c.rangeFor pos size))).body <+: (server.content c.url).drop pos := by
    rw [body]
    exact Range.slice_prefix _ _
  have step : c.openAndFetchHeaders server pos size = (206, { { c with connectionClose := false }.onHeaders
      (server.answer c.url (some (c.rangeFor pos size))) with isOpen := true }) := by
    simp [openAndFetchHeaders, Nat.not_lt.mpr long, status]
  refine ⟨_, step, rfl, ⟨long, ?_, .inl ?_, fun _ => ⟨pos, part⟩⟩, rfl, rfl, part⟩
  · simp [onHeaders, total]
  · simp [onHeaders, total]

theorem total_kept {url : Str} {n : Nat} {reply : Reply} (known : n = (server.content url).length)
    (right : ∀ m ∈ reply.total, m = (server.content url).length) : reply.total.getD n = (server.content url).length := by
  cases total : reply.total with
  | none => exact known
  | some m => exact right m total

/- A range that cannot be satisfied is answered with everything, or not at all. -/
theorem fetch_refused (correct : server.Correct) (long : 5 ≤ c.url.length) (total : c.rangeSize = (server.content c.url).length)
    (skips : c.isFriendlySkipper = true ∨ server.content c.url = [])
    (outside : ¬ (c.rangeFor pos size).Satisfied (server.content c.url).length) :
    ∃ rc c', c.openAndFetchHeaders server pos size = (rc, c') ∧ c'.url = c.url ∧ c'.isOpen = true ∧
      c'.rangeSize = (server.content c.url).length ∧ (c'.isFriendlySkipper = true ∨ server.content c.url = []) ∧
      c'.error = c.error ∧
      (rc = 200 ∧ c'.live = server.content c.url ∧ c'.size = (server.content c.url).length ∨ rc = 416 ∧ 0 < pos) := by
  obtain ⟨status, body, plain⟩ := correct.whole c.url
  rcases correct.refuses c.url _ outside with ⟨status', body', plain'⟩ | ⟨status', right⟩
  · have step : c.openAndFetchHeaders server pos size = (200, { { c with connectionClose := false }.onHeaders
        (server.answer c.url (some (c.rangeFor pos size))) with isOpen := true }) := by
      simp [openAndFetchHeaders, Nat.not_lt.mpr long, status']
    refine ⟨200, _, step, rfl, rfl, ?_, ?_, rfl, .inl ⟨rfl, body', congrArg List.length body'⟩⟩
    · simp [onHeaders, plain', total]
    · simpa [onHeaders, plain'] using skips
  · by_cases start : pos = 0
    · subst start
      have step : c.openAndFetchHeaders server 0 size = (200, { ({ c with connectionClose := false }.onHeaders
          (server.answer c.url (some (c.rangeFor 0 size)))).onHeaders (server.answer c.url none) with isOpen := true }) := by
        simp [openAndFetchHeaders, Nat.not_lt.mpr long, status', status]
      refine ⟨200, _, step, rfl, rfl, ?_, ?_, rfl, .inl ⟨rfl, body, congrArg List.length body⟩⟩
      · simpa [onHeaders, plain] using total_kept total right
      · simp only [onHeaders, plain, Option.isSome_none, Bool.or_false, Bool.or_eq_true]
        exact skips.imp_left .inl
    · have step : c.openAndFetchHeaders server pos size = (416, { { c with connectionClose := false }.onHeaders
          (server.answer c.url (some (c.rangeFor pos size))) with isOpen := true }) := by
        simp [openAndFetchHeaders, Nat.not_lt.mpr long, status', start]
      refine ⟨416, _, step, rfl, rfl, total_kept total right, ?_, rfl, .inr ⟨rfl, Nat.pos_of_ne_zero start⟩⟩
      simp only [onHeaders, Bool.or_eq_true]
      exact skips.imp_left .inl

/- A range from inside is satisfied if its end does not run over. -/
theorem rangeFor_satisfied (total : c.rangeSize = (server.content c.url).length) (inside : pos < (server.content c.url).length)
    (room : pos + size + 5 < 2 ^ 32) : (c.rangeFor pos size).Satisfied (server.content c.url).length := by
  refine ⟨inside, ?_⟩
  intro last member
  simp only [rangeFor] at member ⊢
  split at member
  · cases member
  · have positive : 0 < (server.content c.url).length := by omega
    rw [Nat.mod_eq_of_lt room, knownSize, total, if_pos positive] at member
    injection member with member
    split at member <;> omega

theorem rangeFor_start (more : server.content c.url ≠ []) : (c.rangeFor 0 size).Satisfied (server.content c.url).length :=
  ⟨List.length_pos_iff.mpr more, fun _ _ => Nat.zero_le _⟩

theorem opened_of_satisfied (canReuse : Bool) (correct : server.Correct) (long : 5 ≤ c.url.length)
    (inside : (c.rangeFor pos size).Satisfied (server.content c.url).length) :
    ∃ c', c.processRedirectsAndOpen server canReuse pos size = (true, c') ∧ c'.url = c.url ∧ Serving server c' ∧
      c'.isOpen = true ∧ c'.lastRC = 206 ∧ c'.position = pos ∧ c'.live <+: (server.content c.url).drop pos := by
  obtain ⟨c', step, url, serving, isOpen, -, live⟩ := fetch_satisfied correct long inside
  refine ⟨{ c' with lastRC := 206, isFriendlySkipper := true, isOpen := true, position := pos }, ?_, url,
    ⟨serving.long, serving.total, .inl rfl, fun _ => serving.part isOpen⟩, rfl, rfl, rfl, live⟩
  simp [processRedirectsAndOpen, step]

/-- What a request leaves behind. -/
theorem opened (canReuse : Bool) (size : Nat) (correct : server.Correct) (ready : Ready server c pos) :
    Opened server c pos (c.processRedirectsAndOpen server canReuse pos size) := by
  by_cases inside : (c.rangeFor pos size).Satisfied (server.content c.url).length
  · obtain ⟨c', step, url, serving, isOpen, status, place, live⟩ := opened_of_satisfied canReuse correct ready.long inside
    rw [step]
    exact .slice url serving isOpen status place live (Nat.lt_of_le_of_lt (Nat.zero_le _) inside.1)
  · have facts : c.rangeSize = (server.content c.url).length ∧
        (c.isFriendlySkipper = true ∨ server.content c.url = []) := by
      rcases ready with serving | ⟨rfl, -, unknown⟩
      · exact ⟨serving.total, serving.skips⟩
      · have empty : server.content c.url = [] := by
          by_contra more
          exact inside (rangeFor_start more)
        exact ⟨by rw [unknown empty, empty]; rfl, .inr empty⟩
    obtain ⟨rc, c', step, url, isOpen, total, skips, error, outcome⟩ := fetch_refused correct ready.long facts.1 facts.2 inside
    have long : 5 ≤ c'.url.length := url ▸ ready.long
    rw [← url] at total skips
    rcases outcome with ⟨rfl, live, length⟩ | ⟨rfl, positive⟩
    · by_cases clean : c'.error = 0
      · have turn : c.processRedirectsAndOpen server canReuse pos size =
            (true, { c' with lastRC := 200, isOpen := true, position := pos }) := by
          simp [processRedirectsAndOpen, step, clean]
        rw [turn]
        exact .whole url ⟨long, total, skips, fun _ => ⟨0, by simp [live, url]⟩⟩ rfl rfl rfl live length
      · have turn : c.processRedirectsAndOpen server canReuse pos size =
            (false, { c' with lastRC := 200, error := 200, isOpen := false }.init canReuse) := by
          simp [processRedirectsAndOpen, step, clean]
        rw [turn]
        exact .refused ((init_url _).trans url) (.init ⟨long, total, skips, fun isOpen => nomatch isOpen⟩) (init_closed _)
          (.inr (error ▸ clean))
    · have turn : c.processRedirectsAndOpen server canReuse pos size =
          (false, { c' with lastRC := 416, error := 416, isOpen := false }.init canReuse) := by
        simp [processRedirectsAndOpen, step]
      rw [turn]
      exact .refused ((init_url _).trans url) (.init ⟨long, total, skips, fun isOpen => nomatch isOpen⟩) (init_closed _)
        (.inl positive)

/- ## Opening, seeking and reading -/

/-- A client that delivers its own resource. -/
structure Steady (server : Server) (c : MeatHttpClient) : Prop extends Serving server c where
  aligned : Aligned server c

theorem get_steady (canReuse : Bool) (c : MeatHttpClient) (correct : server.Correct) {url : Str} (long : 5 ≤ (encoded url).length) :
    ∃ c', c.get server canReuse url = (true, c') ∧ c'.url = encoded url ∧ Steady server c' ∧ c'.position = 0 ∧
      c'.knownSize = (server.content (encoded url)).length := by
  have ready : Ready server ((c.renew url).init canReuse) 0 := by
    refine .inr ⟨rfl, ?_, fun _ => init_rangeSize _⟩
    rw [init_url]
    exact long
  have outcome := opened canReuse HTTP_BLOCK_SIZE correct ready
  change Opened server _ 0 (c.get server canReuse url) at outcome
  have kept : ((c.renew url).init canReuse).url = encoded url := init_url _
  generalize c.get server canReuse url = r at outcome ⊢
  cases outcome with
  | @slice c' same serving isOpen status place live more =>
    have url := same.trans kept
    rw [kept] at live more
    have total := serving.total
    rw [url] at total
    refine ⟨c', rfl, url, ⟨serving, ?_⟩, place, ?_⟩
    · intro _
      rw [url, place]
      exact live
    · rw [knownSize, total, if_pos more]
  | @whole c' same serving isOpen status place live size =>
    have url := same.trans kept
    rw [kept] at live size
    refine ⟨c', rfl, url, ⟨serving, ?_⟩, place, ?_⟩
    · intro _
      rw [url, place, live]
      exact List.prefix_rfl
    · have total := serving.total
      rw [url] at total
      rw [knownSize, total, size, ite_self]
  | refused same serving closed why =>
    rw [init_error] at why
    exact absurd why (by simp [renew])

/- A request that was answered, from the start of the resource. -/
theorem Opened.start {r : Bool × MeatHttpClient} (outcome : Opened server c pos r) (ok : r.1 = true)
    (first : pos = 0 ∨ r.2.lastRC ≠ 206) : r.2.url = c.url ∧ Serving server r.2 ∧ r.2.live <+: server.content c.url := by
  cases outcome with
  | slice same serving isOpen status place live =>
    rcases first with rfl | other
    · exact ⟨same, serving, live⟩
    · exact absurd status other
  | whole same serving isOpen status place live => exact ⟨same, serving, live ▸ List.prefix_rfl⟩
  | refused => cases ok

theorem Opened.closed {r : Bool × MeatHttpClient} (outcome : Opened server c pos r) (failed : r.1 = false) :
    r.2.url = c.url ∧ Serving server r.2 ∧ r.2.isOpen = false := by
  cases outcome with
  | slice => cases failed
  | whole => cases failed
  | refused same serving closed => exact ⟨same, serving, closed⟩

/- The position of the client is not among what it serves from. -/
theorem Serving.moved (serving : Serving server c) (n : Nat) : Serving server { c with position := n } :=
  ⟨serving.long, serving.total, serving.skips, serving.part⟩

/- Bytes that are thrown away. -/
theorem Serving.flushed (serving : Serving server c) (n : Nat) : Serving server (c.flush n).2 := by
  refine ⟨serving.long, serving.total, serving.skips, fun isOpen => ?_⟩
  obtain ⟨q, part⟩ := serving.part isOpen
  exact ⟨q + n, by simpa [flush, List.drop_drop] using prefix_drop part n⟩

theorem restart_steady (correct : server.Correct) (ready : Ready server c 0) :
    Steady server (c.restart server canReuse pos).2 := by
  have outcome := opened canReuse ((pos + HTTP_BLOCK_SIZE) % 2 ^ 32) correct ready
  unfold restart
  dsimp only
  generalize c.processRedirectsAndOpen server canReuse 0 ((pos + HTTP_BLOCK_SIZE) % 2 ^ 32) = r at outcome
  by_cases ok : r.1 = true
  · obtain ⟨same, serving, live⟩ := outcome.start ok (.inl rfl)
    have flushed := (serving.moved 0).flushed pos
    rw [if_neg (by simp [ok])]
    split
    · rename_i short
      refine ⟨flushed, .of_empty ?_⟩
      simpa [flush] using Nat.le_of_lt (by simpa [flush] using short.2)
    · refine ⟨flushed.moved pos, fun _ => ?_⟩
      simpa [flush, same] using prefix_drop live pos
  · have failed : r.1 = false := by simpa using ok
    obtain ⟨same, serving, closed⟩ := outcome.closed failed
    rw [if_pos failed]
    exact ⟨serving, .of_closed closed⟩

theorem Serving.ready (serving : Serving server c) : Ready server c pos := .inl serving

theorem discard_steady (correct : server.Correct) (serving : Serving server c)
    (here : c.isOpen → c.position ≤ pos → c.live <+: (server.content c.url).drop c.position) :
    Steady server (c.discard server canReuse pos).2 := by
  unfold discard
  dsimp only
  split
  · rename_i ahead
    have live := here ahead.1 ahead.2
    split
    · exact ⟨serving, fun _ => live⟩
    · split
      · refine ⟨(serving.flushed _).moved pos, fun _ => ?_⟩
        have rest := prefix_drop live (pos - c.position)
        rw [List.drop_drop, Nat.add_sub_cancel' ahead.2] at rest
        exact rest
      · exact restart_steady correct (serving.flushed _).ready
  · exact restart_steady correct serving.ready

theorem discard_closed (closed : c.isOpen = false) : c.discard server canReuse pos = c.restart server canReuse pos := by
  unfold discard
  rw [if_neg (by simp [closed])]

theorem Steady.ite {P : Prop} [Decidable P] {r r' : Bool × MeatHttpClient} (steady : Steady server r.2)
    (steady' : Steady server r'.2) : Steady server (if P then r else r').2 := by
  split
  · exact steady
  · exact steady'

/-- Whatever the position said before, a seek leads to the right place, unless it finds itself there
already. -/
theorem seek_steady (correct : server.Correct) (serving : Serving server c)
    (here : c.isOpen → pos = c.position → c.live <+: (server.content c.url).drop pos) :
    Steady server (c.seek server canReuse pos).2 := by
  unfold seek
  dsimp only
  split
  · rename_i already
    exact ⟨serving, fun isOpen => already.2.1 ▸ here isOpen already.2.1⟩
  · split
    · rename_i skipper
      have drained : Serving server (if c.isOpen then c.drain else c) := by
        split
        · exact ⟨serving.long, serving.total, serving.skips, fun _ => ⟨0, List.nil_prefix⟩⟩
        · exact serving
      have ready : Ready server _ pos := drained.ready
      have outcome := opened canReuse HTTP_BLOCK_SIZE correct ready
      generalize (if c.isOpen then c.drain else c).processRedirectsAndOpen server canReuse pos HTTP_BLOCK_SIZE = r at outcome
      cases outcome with
      | slice same serving isOpen status place live more =>
        rw [if_pos rfl, if_pos status]
        refine ⟨serving.moved pos, fun _ => ?_⟩
        rw [← same] at live
        exact live
      | whole same serving isOpen status place live size =>
        rw [if_pos rfl, if_neg (by rw [status]; decide)]
        apply discard_steady correct (serving.moved 0)
        intro _ _
        show _ <+: server.content _
        simp only [live, same, List.prefix_rfl]
      | @refused c' same serving closed why =>
        rw [if_neg (by simp)]
        apply Steady.ite
        · exact ⟨serving, .of_closed closed⟩
        · show Steady server (discard server canReuse { c' with isFriendlySkipper := false } pos).2
          rw [discard_closed (c := { c' with isFriendlySkipper := false }) closed]
          apply restart_steady correct
          exact .inr ⟨rfl, serving.long, fun empty => by rw [serving.total, empty]; rfl⟩
    · rename_i notSkipper
      have empty := serving.skips.resolve_left notSkipper
      apply discard_steady correct serving
      intro isOpen _
      obtain ⟨q, part⟩ := serving.part isOpen
      rw [empty, List.drop_nil] at part ⊢
      exact part

/- A position behind bytes that are there does not wrap. -/
theorem taken_position {text : List UInt8} (live : c.live <+: text.drop c.position) (fits : text.length < 2 ^ 32)
    (some : c.live.take size ≠ []) : (c.taken size).position = c.position + (c.live.take size).length := by
  have bound := ((List.take_prefix size c.live).trans live).length_le
  have positive := List.length_pos_iff.mpr some
  rw [List.length_drop] at bound
  exact Nat.mod_eq_of_lt (by omega)

/- What is left stands behind what has been read. -/
theorem taken_follows {text : List UInt8} (live : c.live <+: text.drop c.position) (fits : text.length < 2 ^ 32) :
    (c.taken size).live <+: text.drop (c.taken size).position := by
  by_cases none : c.live.drop size = []
  · simp only [taken, none, List.nil_prefix]
  · have exceeds : size < c.live.length := by
      by_contra short
      exact none (List.drop_eq_nil_of_le (Nat.not_lt.mp short))
    have place : (c.taken size).position = c.position + size := by
      by_cases zero : size = 0
      · have bound := live.length_le
        rw [List.length_drop] at bound
        subst zero
        exact Nat.mod_eq_of_lt (by simp only [List.take_zero, List.length_nil]; omega)
      · have piece : (c.live.take size).length = size := List.length_take_of_le (Nat.le_of_lt exceeds)
        rw [taken_position live fits (List.ne_nil_of_length_pos (by omega)), piece]
    rw [place, ← List.drop_drop]
    exact prefix_drop live size

/- What is read next is there, and the client goes on behind it. -/
theorem page_steady (correct : server.Correct) (steady : Steady server c) (isOpen : c.isOpen = true)
    (room : size + (server.content c.url).length + 5 < 2 ^ 32 ∨ c.live = []) :
    (c.page server size).1 <+: (server.content c.url).drop c.position ∧ Steady server (c.page server size).2 := by
  have live := steady.aligned isOpen
  have here : c.live.take size <+: (server.content c.url).drop c.position := (List.take_prefix _ _).trans live
  have fits := correct.fits c.url
  have taken : Steady server (c.taken size) := by
    refine ⟨⟨steady.long, steady.total, steady.skips, fun _ => ⟨c.position + size, ?_⟩⟩, fun _ => taken_follows live fits⟩
    have rest := prefix_drop live size
    rwa [List.drop_drop] at rest
  unfold page
  dsimp only
  split
  · rename_i paged
    obtain ⟨some, short, more⟩ := paged
    have inside : (c.taken size).position < (server.content c.url).length := by
      have positive : 0 < (server.content c.url).length := by
        apply Nat.pos_of_ne_zero
        intro zero
        rw [List.eq_nil_of_length_eq_zero zero, List.drop_nil] at here
        exact some (List.prefix_nil.mp here)
      rw [knownSize, steady.total, if_pos positive] at more
      exact more.resolve_left (Nat.ne_of_gt positive)
    have room := room.resolve_right fun empty => some (by rw [empty, List.take_nil])
    have satisfied : ((c.taken size).rangeFor (c.taken size).position size).Satisfied (server.content c.url).length :=
      rangeFor_satisfied steady.total inside (by omega)
    obtain ⟨c', step, url, serving, -, same, live'⟩ := fetch_satisfied (c := c.taken size) correct steady.long satisfied
    rw [step]
    refine ⟨here, serving, fun _ => ?_⟩
    rw [url, same]
    exact live'
  · exact ⟨here, taken⟩

/-- A read delivers the resource of the client's URL from the client's position on. -/
theorem read_steady (canReuse : Bool) (size : Nat) (correct : server.Correct) (steady : Steady server c)
    (able : c.isOpen = true ∧ c.live = [] ∨ size + (server.content c.url).length + 5 < 2 ^ 32 ∧
      (c.isOpen = true ∨ c.position < (server.content c.url).length)) :
    (c.read server canReuse size).1 <+: (server.content c.url).drop c.position ∧
      Steady server (c.read server canReuse size).2 := by
  by_cases isOpen : c.isOpen = true
  · have turn : c.read server canReuse size = c.page server size := by
      simp [read, isOpen]
    rw [turn]
    exact page_steady correct steady isOpen (able.symm.imp And.left And.right)
  · obtain ⟨room, inside⟩ := able.resolve_left fun already => isOpen already.1
    have inside := inside.resolve_left isOpen
    obtain ⟨c', step, url, serving, open', -, place, live⟩ := opened_of_satisfied canReuse correct steady.long
      (rangeFor_satisfied steady.total inside (show c.position + size + 5 < 2 ^ 32 by omega))
    have turn : c.read server canReuse size = c'.page server size := by
      simp [read, isOpen, step, open']
    have steady' : Steady server c' := ⟨serving, fun _ => by rw [url, place]; exact live⟩
    have paged := page_steady correct steady' open' (.inl (by rw [url]; exact room))
    rw [url, place] at paged
    rw [turn]
    exact paged

end MeatHttpClient

/- ## Streams that share a client -/

namespace Sharing

variable {I : Type*} [DecidableEq I] {server : Server} {canReuse : Bool}

open MeatHttpClient

/-- What the code would have to see to: a read finds the client at the stream's place of the stream's
resource, or there is nothing to read; a seek to where the stream stands finds the client there. The
end of a range, and the number of bytes asked for, must not run over. -/
def Safe (server : Server) (w : Sharing I) : Call I → Prop
  | .opens _ => True
  | .reads i size =>
    let n := min size.toNat (w.available i)
    let url := encoded (w.streams i).url.text
    n = 0 ∨ (w.client.isOpen = true ∧ w.client.live = []) ∨
      w.client.url = url ∧ w.client.position = (w.streams i).position ∧ n < 2 ^ 31 ∧
        n + (server.content url).length + 5 < 2 ^ 32
  | .seeks i pos =>
    (w.streams i).session = true → pos.toNat = (w.streams i).position →
      w.client.isOpen = true ∧ (w.client.position = pos.toNat ∨ w.client.live = []) ∨ w.client.isOpen = false ∧ pos = 0

instance (w : Sharing I) : (call : Call I) → Decidable (Safe server w call)
  | .opens _ => inferInstanceAs (Decidable True)
  | .reads _ _ => inferInstanceAs (Decidable (_ ∨ _))
  | .seeks _ _ => inferInstanceAs (Decidable (_ → _ → _))

/- A client that has been used is steady, and every stream that has a session knows its size. -/
structure Kept (server : Server) (w : Sharing I) : Prop where
  client : ∀ i, (w.streams i).session = true → Steady server w.client
  sizes : ∀ i, (w.streams i).session = true →
    (w.streams i).size = (server.content (encoded (w.streams i).url.text)).length

theorem fresh_kept (sequentialAccess : Bool) (urls : I → HttpUrl) : Kept server (fresh sequentialAccess urls) :=
  ⟨fun _ session => absurd session (by simp [fresh]), fun _ session => absurd session (by simp [fresh])⟩

theorem open_kept (correct : server.Correct) {w : Sharing I} (kept : Kept server w) (i : I) :
    Kept server (w.open server canReuse i) := by
  obtain ⟨c', step, url, steady, -, size⟩ := get_steady canReuse w.client correct (w.streams i).url.long
  have client : (w.open server canReuse i).client = c' := congrArg Prod.snd step
  constructor
  · intro _ _
    rw [client]
    exact steady
  · intro j session
    by_cases same : j = i
    · subst same
      simpa [Sharing.open, step] using size
    · simp only [Sharing.open, Function.update_of_ne same] at session ⊢
      exact kept.sizes j session

theorem Kept.moved {w : Sharing I} (kept : Kept server w) {c : MeatHttpClient} (steady : Steady server c) (i : I) (n : Nat) :
    Kept server { client := c, streams := Function.update w.streams i { w.streams i with position := n } } := by
  refine ⟨fun _ _ => steady, fun j session => ?_⟩
  by_cases same : j = i
  · subst same
    simp only [Function.update_self] at session ⊢
    exact kept.sizes j session
  · simp only [Function.update_of_ne same] at session ⊢
    exact kept.sizes j session

theorem seek_kept (correct : server.Correct) {w : Sharing I} (kept : Kept server w) (i : I) (pos : UInt32)
    (safe : Safe server w (.seeks i pos)) : Kept server (w.seek server canReuse i pos.toNat) := by
  unfold Sharing.seek
  dsimp only
  split
  · exact kept
  · rename_i session
    have session : (w.streams i).session = true := by simpa using session
    have steady := kept.client i session
    have safe := safe session
    by_cases isOpen : w.client.isOpen = true
    · rw [if_neg (by simp [isOpen]), if_pos isOpen]
      apply kept.moved
      apply seek_steady correct (steady.moved _)
      intro _ same
      obtain ⟨-, place | empty⟩ := (safe same).resolve_right (fun closed => by simp [isOpen] at closed)
      · rw [← place]
        exact steady.aligned isOpen
      · show w.client.live <+: _
        rw [empty]
        exact List.nil_prefix
    · -- the response that is asked for again starts at zero
      obtain ⟨c', step, -, steady', start, -⟩ := get_steady canReuse w.client correct
        (Nat.le_trans steady.long (encoded_length w.client.url))
      change w.client.reopen server canReuse = _ at step
      rw [step, if_neg (by simp), if_neg isOpen]
      apply kept.moved
      apply seek_steady correct (steady'.moved _)
      intro open' same
      obtain ⟨-, zero⟩ := (safe same).resolve_left (fun opened => isOpen opened.1)
      have aligned := steady'.aligned open'
      rw [start] at aligned
      rw [zero]
      exact aligned

theorem read_kept (correct : server.Correct) {w : Sharing I} (kept : Kept server w) (i : I) (size : UInt32)
    (safe : Safe server w (.reads i size)) :
    (w.read server canReuse i size.toNat).1 <+:
        (server.content (encoded (w.streams i).url.text)).drop (w.streams i).position ∧
      Kept server (w.read server canReuse i size.toNat).2 := by
  unfold Sharing.read
  dsimp only
  split
  · rename_i asked
    obtain ⟨positive, session⟩ := asked
    have steady := kept.client i session
    have known := kept.sizes i session
    unfold Safe at safe
    dsimp only at safe
    generalize amount : min size.toNat (w.available i) = n at positive safe
    rcases safe with zero | ⟨isOpen, empty⟩ | ⟨url, place, -, room⟩
    · omega
    · have nothing : (w.client.read server canReuse n).1 = [] := by
        simp [MeatHttpClient.read, MeatHttpClient.page, isOpen, empty]
      obtain ⟨-, steady'⟩ := read_steady canReuse n correct steady (.inl ⟨isOpen, empty⟩)
      rw [nothing]
      exact ⟨List.nil_prefix, kept.moved steady' i _⟩
    · have inside : w.client.isOpen = true ∨ w.client.position < (server.content w.client.url).length := by
        by_cases isOpen : w.client.isOpen = true
        · exact .inl isOpen
        · right
          have some : 0 < w.available i := by omega
          unfold available at some
          simp only [isOpen] at some
          split at some
          · rw [place, url, ← known]
            assumption
          · simp at some
      obtain ⟨own, steady'⟩ := read_steady canReuse n correct steady
        (.inr ⟨by rw [url]; exact room, inside⟩)
      rw [url, place] at own
      exact ⟨own, kept.moved steady' i _⟩
  · exact ⟨List.nil_prefix, kept⟩

/-- As long as every call is safe, every read of every stream delivers the stream's own resource at the
stream's own position. -/
theorem reads_own (correct : server.Correct) (canReuse sequentialAccess : Bool) (urls : I → HttpUrl) (calls : List (Call I))
    (safe : Along (step server canReuse) (Safe server) (fresh sequentialAccess urls) calls) :
    Along (step server canReuse) (Own server canReuse) (fresh sequentialAccess urls) calls := by
  apply Along.imp (I := Kept server) _ _ (fresh_kept sequentialAccess urls) safe
  · intro w call kept safe
    cases call with
    | opens i => exact open_kept correct kept i
    | reads i size => exact (read_kept correct kept i size safe).2
    | seeks i pos => exact seek_kept correct kept i pos safe
  · intro w call kept safe
    cases call with
    | opens i => exact trivial
    | reads i size => exact (read_kept correct kept i size safe).1
    | seeks i pos => exact trivial

end Sharing

/- A server of given resources, which refuses a range that cannot be satisfied. -/
def serve (content : Str → List UInt8) : Server where
  content := content
  answer url
    | none => { status := 200, body := content url, total := none, close := false }
    | some r =>
      if r.Satisfied (content url).length then
        { status := 206, body := r.slice (content url), total := some (content url).length, close := false }
      else { status := 416, body := [], total := some (content url).length, close := false }

theorem serve_correct {content : Str → List UInt8} (fits : ∀ url, (content url).length < 2 ^ 32) : (serve content).Correct where
  fits := fits
  slices url r inside := by
    simp only [serve] at inside ⊢
    simp [inside]
  refuses url r outside := by
    simp only [serve] at outside ⊢
    simp [outside]
  whole url := ⟨rfl, rfl, rfl⟩

/- Two files of a server: "http://h/a" with the letters AB, and "http://h/b" with CD. -/
def letters (i : Bool) : HttpUrl where
  text := [0x68, 0x74, 0x74, 0x70, 0x3a, 0x2f, 0x2f, 0x68, 0x2f, if i then 0x62 else 0x61]
  scheme := .inl ⟨[0x2f, 0x2f, 0x68, 0x2f, if i then 0x62 else 0x61], rfl⟩

def twoFiles (url : Str) : List UInt8 := if url = (letters true).text then [0x43, 0x44] else [0x41, 0x42]

theorem twoFiles_correct : (serve twoFiles).Correct := by
  apply serve_correct
  intro url
  unfold twoFiles
  split <;> decide

/-- Read to the end one after the other, they do not mix. -/
theorem reads_own_apart : Along (Sharing.step (serve twoFiles) true) (Sharing.Own (serve twoFiles) true)
    (Sharing.fresh false letters) [.opens false, .reads false 5, .opens true, .reads true 5, .seeks true 1, .reads true 1] :=
  Sharing.reads_own twoFiles_correct true false letters _ (by decide)

/-- Opened both at first, the first one delivers what is in the second. -/
theorem foreign_bytes : ¬ ∀ (server : Server), server.Correct → ∀ (canReuse sequentialAccess : Bool) (urls : Bool → HttpUrl)
    (calls : List (Call Bool)), (∀ i j, i ≠ j → encoded (urls i).text ≠ encoded (urls j).text) →
    Along (Sharing.step server canReuse) (Sharing.Own server canReuse) (Sharing.fresh sequentialAccess urls) calls := by
  intro all
  have run := all (serve twoFiles) twoFiles_correct true false letters [.opens false, .opens true, .reads false 1]
    (by decide)
  revert run
  decide

end Meatloaf.Network
