import Mathlib.Data.List.AList
import Meatloaf.Lib.Deliver
import Meatloaf.Lib.Run
import Meatloaf.Stream.Owner
import Meatloaf.Text.Numbers

/-! `HTTPMStream` in full mode: a request is put together by the lines of a command channel and sent, and parts of the
response are asked for by further lines and read. The stream was opened for reading and writing, so it has a session
whose client is open. -/
namespace Meatloaf.Network

open Lib MFSOwner

/- `mstr::toUpper`. -/
def toUpper (s : Str) : Str := s.map fun c => if 0x61 ≤ c ∧ c ≤ 0x7a then c - 0x20 else c

/- `std::to_string`. -/
def numberText (n : Int) : Str :=
  let digits := (Nat.toDigits 10 n.natAbs).map fun c => UInt8.ofNat c.toNat
  if n < 0 then 0x2d :: digits else digits

/- `c == 'x' || c == 'X'`. -/
def letter (x c : UInt8) : Bool := c == x || c == x - 0x20

structure HTTPRequestContext where
  method : Str := [0x47, 0x45, 0x54]
  headers : AList (fun _ : Str => List Str) := ∅
  body : Str := []
  responseHeaders : List Str := []
  responseStatus : Int := 0
  deriving DecidableEq

namespace HTTPRequestContext

def setMethod (ctx : HTTPRequestContext) (m : Str) : HTTPRequestContext := { ctx with method := toUpper m }

def setHeader (ctx : HTTPRequestContext) (name value : Str) : HTTPRequestContext :=
  { ctx with headers := ctx.headers.insert (toLower name) [value] }

def appendHeader (ctx : HTTPRequestContext) (name value : Str) : HTTPRequestContext :=
  { ctx with
    headers := ctx.headers.insert (toLower name) ((ctx.headers.lookup (toLower name)).getD [] ++ [value]) }

def setBody (ctx : HTTPRequestContext) (b : Str) : HTTPRequestContext := { ctx with body := b }

def appendBody (ctx : HTTPRequestContext) (b : Str) : HTTPRequestContext := { ctx with body := ctx.body ++ b }

end HTTPRequestContext

/- What a request that has been sent leaves in the context and in `_bodyCapture`. -/
structure Response where
  status : Int
  headers : List Str
  body : List UInt8

/- What the JSON library makes of a body and a pointer. The value is the text of a string, or the value in print. -/
inductive JsonAnswer where
  | unparsed
  | absent
  | unprintable
  | value (text : Str)

inductive FullModeState where
  | SIMPLE
  | BUILDING_REQUEST
  | RESPONSE_HEADERS
  deriving DecidableEq

/-- `HTTPMStream`, as far as the full mode uses it. `postBuffer` is what the client has been passed. -/
structure FullStream where
  fullMode : FullModeState := .SIMPLE
  ctx : HTTPRequestContext := {}
  cmdLine : Str := []
  queuedSend : Bool := false
  statusRequested : Bool := false
  jsonQueryRequested : Bool := false
  jsonQueryResult : Str := []
  queryResultPos : Nat := 0
  pendingJsonPointer : Str := []
  responseBuffer : List UInt8 := []
  responseBufPos : Nat := 0
  statusEnd : Nat := 0
  headersEnd : Nat := 0
  bodyCapture : List UInt8 := []
  size : Nat := 0
  position : Nat := 0
  postBuffer : List UInt8 := []
  clientPosition : Nat := 0

/- What the stream stands on: the request that is sent through the session, the JSON library, and the reads of simple
mode. -/
structure Around where
  send : HTTPRequestContext → Response
  json : List UInt8 → Str → JsonAnswer
  simple : FullStream → Nat → List UInt8 × FullStream

/- "JSON parse error" and "JSON serialize error". -/
def parseError : Str := [0x4a, 0x53, 0x4f, 0x4e, 0x20, 0x70, 0x61, 0x72, 0x73, 0x65, 0x20, 0x65, 0x72, 0x72, 0x6f, 0x72]
def serializeError : Str :=
  [0x4a, 0x53, 0x4f, 0x4e, 0x20, 0x73, 0x65, 0x72, 0x69, 0x61, 0x6c, 0x69, 0x7a, 0x65, 0x20, 0x65, 0x72, 0x72, 0x6f, 0x72]

namespace FullStream

variable (around : Around)

def performJsonQuery (w : FullStream) (pointer : Str) : FullStream :=
  let w := { w with jsonQueryResult := [], jsonQueryRequested := false, queryResultPos := 0 }
  if w.bodyCapture = [] then w
  else
    match around.json w.bodyCapture pointer with
    | .unparsed =>
      { w with ctx := { w.ctx with responseStatus := -99 }, jsonQueryResult := parseError, jsonQueryRequested := true }
    | .absent => w
    | .unprintable =>
      { w with ctx := { w.ctx with responseStatus := -99 }, jsonQueryResult := serializeError, jsonQueryRequested := true }
    | .value text => { w with jsonQueryResult := toPETSCII2 text, jsonQueryRequested := true }

/- "status". -/
def statusWord : Str := [0x73, 0x74, 0x61, 0x74, 0x75, 0x73]

/- `r-h` and `r-b`. -/
def reposition (w : FullStream) (place : Nat) : FullStream :=
  { w with responseBufPos := place, position := place, size := w.responseBuffer.length }

/- `c`. -/
def clear (w : FullStream) : FullStream :=
  { w with
    ctx := {}
    bodyCapture := []
    responseBuffer := []
    responseBufPos := 0
    position := 0
    statusEnd := 0
    headersEnd := 0
    fullMode := .BUILDING_REQUEST
    statusRequested := false
    queuedSend := false
    jsonQueryRequested := false
    jsonQueryResult := []
    queryResultPos := 0
    pendingJsonPointer := [] }

/- `j <pointer>`. The query has to wait where no body has been captured. -/
def query (w : FullStream) (pointer : Str) : FullStream :=
  let w := { w with pendingJsonPointer := pointer }
  if w.bodyCapture = [] then w
  else
    { w.performJsonQuery around pointer with
      pendingJsonPointer := []
      responseBufPos := w.responseBuffer.length }

/- `h <name>: <value>` and `h+ <name>: <value>`, without the letter and the plus. -/
def header (w : FullStream) (append : Bool) (rest : Str) : Option FullStream :=
  let rest := if rest.head? = some 0x20 then rest.drop 1 else rest
  if 0x3a ∈ rest then
    let name := trim (rest.take (rest.idxOf 0x3a))
    let value := trim (rest.drop (rest.idxOf 0x3a + 1))
    some { w with ctx := if append then w.ctx.appendHeader name value else w.ctx.setHeader name value }
  else none

/-- `handleCommand`. -/
def handleCommand (w : FullStream) (cmd : Str) : Bool × FullStream :=
  let c := toUTF8 (trim cmd)
  let first := c.getD 0 0
  let second := c.getD 1 0
  if trim cmd = [] then (true, w)
  else if 3 ≤ c.length ∧ letter 0x72 first ∧ second = 0x2d then
    if letter 0x68 (c.getD 2 0) then (true, w.reposition w.statusEnd)
    else if letter 0x62 (c.getD 2 0) then (true, w.reposition w.headersEnd)
    else (false, w)
  else if c = [0x73] ∨ c = [0x53] then (true, { w with fullMode := .RESPONSE_HEADERS, queuedSend := true })
  else if c = [0x63] ∨ c = [0x43] then (true, w.clear)
  else if toLower c = statusWord then (true, { w with statusRequested := true, responseBufPos := 0, position := 0 })
  else if 2 ≤ c.length ∧ letter 0x6a first ∧ second = 0x20 then (true, w.query around (trim (c.drop 2)))
  else if 2 ≤ c.length ∧ second = 0x20 ∧ letter 0x6d first then (true, { w with ctx := w.ctx.setMethod (trim (c.drop 2)) })
  else if 2 ≤ c.length ∧ second = 0x20 ∧ letter 0x62 first then (true, { w with ctx := w.ctx.setBody (trim (c.drop 2)) })
  else
    match if 2 ≤ c.length ∧ letter 0x68 first then w.header (second == 0x2b) (c.drop (if second = 0x2b then 2 else 1)) else none with
    | some w => (true, w)
    | none =>
      if 2 ≤ c.length ∧ letter 0x62 first ∧ second = 0x2b then
        let rest := c.drop 2
        (true, { w with ctx := w.ctx.appendBody (if rest.head? = some 0x20 then rest.drop 1 else rest) })
      else (false, w)

/- One byte of the command channel. -/
def feed (w : FullStream) (c : UInt8) : FullStream :=
  if c = 0x0d ∨ c = 0x0a then
    if w.cmdLine = [] then w else { (w.handleCommand around w.cmdLine).2 with cmdLine := [] }
  else { w with cmdLine := w.cmdLine ++ [c] }

/- What a write in simple mode is peeked at for. The text "status" begins with an 's'. -/
def looksLikeCommand (buf : Str) : Bool :=
  let first := buf.getD 0 0
  letter 0x6d first || letter 0x68 first || letter 0x62 first || letter 0x73 first || letter 0x63 first ||
    (decide (3 ≤ buf.length) && first == 0x72 && buf.getD 1 0 == 0x2d) ||
    (decide (6 ≤ buf.length) && toLower (buf.take 6) == statusWord)

/-- `write`. In simple mode the client keeps the bytes for a request. -/
def write (w : FullStream) (buf : Str) : Nat × FullStream :=
  if w.fullMode ≠ .SIMPLE then (buf.length, buf.foldl (feed around) w)
  else if buf ≠ [] ∧ looksLikeCommand buf then
    (buf.length, buf.foldl (feed around) { w with fullMode := .BUILDING_REQUEST })
  else
    (buf.length, { w with
      postBuffer := w.postBuffer ++ buf
      clientPosition := (w.clientPosition + buf.length) % 2 ^ 32
      position := (w.position + buf.length) % 2 ^ 32 })

end FullStream

/- The parts of a response, as they stand in the buffer. -/
def Response.statusLine (r : Response) : List UInt8 := numberText r.status ++ [carriageReturn]

def Response.headerLines (r : Response) : List UInt8 := (r.headers.flatMap fun h => h ++ [carriageReturn]) ++ [carriageReturn]

namespace FullStream

variable (around : Around)

/- The request is sent, and the response laid out in the buffer. -/
def capture (w : FullStream) : FullStream :=
  let r := around.send w.ctx
  let buffer := r.statusLine ++ r.headerLines ++ r.body
  { w with
    queuedSend := false
    ctx := { w.ctx with responseHeaders := r.headers, responseStatus := r.status }
    bodyCapture := r.body
    responseBuffer := buffer
    responseBufPos := 0
    statusEnd := r.statusLine.length
    headersEnd := (r.statusLine ++ r.headerLines).length
    size := buffer.length
    position := 0 }

/- A pointer that came before the body did. -/
def resolve (w : FullStream) : FullStream :=
  if w.pendingJsonPointer = [] then w
  else { if w.bodyCapture = [] then w else w.performJsonQuery around w.pendingJsonPointer with pendingJsonPointer := [] }

def serveJson (w : FullStream) (size : Nat) : List UInt8 × FullStream :=
  if w.jsonQueryResult.length ≤ w.queryResultPos then
    ([], { w with
      position := w.jsonQueryResult.length
      size := w.jsonQueryResult.length
      jsonQueryRequested := false
      jsonQueryResult := []
      queryResultPos := 0 })
  else
    let piece := (w.jsonQueryResult.drop w.queryResultPos).take size
    (piece, { w with queryResultPos := w.queryResultPos + piece.length, position := w.queryResultPos + piece.length })

/- Up to the end of the status line, or to the end of the buffer. -/
def serveBuffer (w : FullStream) (size : Nat) : List UInt8 × FullStream :=
  if w.responseBuffer.length ≤ w.responseBufPos then
    ([], { w with position := w.responseBuffer.length, size := w.responseBuffer.length, statusRequested := false })
  else if w.statusRequested ∧ w.statusEnd ≤ w.responseBufPos then
    ([], { w with responseBufPos := w.responseBuffer.length, position := w.responseBuffer.length, statusRequested := false })
  else
    let shown := if w.statusRequested then w.responseBuffer.take w.statusEnd else w.responseBuffer
    let piece := (shown.drop w.responseBufPos).take size
    (piece, { w with responseBufPos := w.responseBufPos + piece.length, position := w.responseBufPos + piece.length })

/-- `read`, which sends a request that is queued. -/
def read (size : Nat) (w : FullStream) : List UInt8 × FullStream :=
  if size = 0 then ([], w)
  else
    let w := (if w.queuedSend then w.capture around else w).resolve around
    if w.jsonQueryRequested then w.serveJson size
    else if w.responseBuffer ≠ [] then w.serveBuffer size
    else around.simple w size

end FullStream

/- ## The parts of a response -/

/-- What is asked for on the command channel once there is a response. -/
inductive Command where
  | status
  | headers
  | body
  | json (pointer : Str)
  deriving DecidableEq

/- The command that a line is, if it is one of these. -/
def commandOf (line : Str) : Option Command :=
  let c := toUTF8 (trim line)
  if toLower c = FullStream.statusWord then some .status
  else if toLower c = [0x72, 0x2d, 0x68] then some .headers
  else if toLower c = [0x72, 0x2d, 0x62] then some .body
  else if 2 ≤ c.length ∧ letter 0x6a (c.getD 0 0) ∧ c.getD 1 0 = 0x20 then some (.json (trim (c.drop 2)))
  else none

/-- The part of a response that a command names. -/
def Response.part (json : List UInt8 → Str → JsonAnswer) (r : Response) : Command → Option (List UInt8)
  | .status => some r.statusLine
  | .headers => some (r.headerLines ++ r.body)
  | .body => some r.body
  | .json pointer =>
    match json r.body pointer with
    | .value text => if r.body = [] then none else some (toPETSCII2 text)
    | _ => none

inductive Use where
  | tells (line : Str) (newline : UInt8)
  | reads (size : Nat)

namespace FullStream

variable (around : Around)

def step (w : FullStream) : Use → FullStream
  | .tells line newline => (w.write around (line ++ [newline])).2
  | .reads size => (w.read around size).2

/- A complete line with a command on it, for something that is there. -/
def Asks (r : Response) : Use → Prop
  | .tells line newline => 0x0d ∉ line ∧ 0x0a ∉ line ∧ (newline = 0x0d ∨ newline = 0x0a) ∧
      ∃ c part, commandOf line = some c ∧ r.part around.json c = some part
  | .reads size => 0 < size

/-- Reads after the command give what it names, as much of it as they ask for and from its start on. -/
def Serves (r : Response) (w : FullStream) : Use → Prop
  | .tells line newline => ∀ c ∈ commandOf line, ∀ part ∈ r.part around.json c, ∀ sizes, (∀ size ∈ sizes, 0 < size) →
      (drain (read around) sizes (w.step around (.tells line newline))).1 = part.take sizes.sum
  | .reads _ => True

/-- No answer to a query is open where something else is asked for, and the status line has been read up to its end
where a part behind it is. -/
def Free (r : Response) (w : FullStream) : Command → Prop
  | .status => w.jsonQueryRequested = false
  | .headers => w.jsonQueryRequested = false ∧ w.statusRequested = false
  | .body => w.jsonQueryRequested = false ∧ (w.statusRequested = false ∨ r.body = [])
  | .json _ => True

def Settled (r : Response) (w : FullStream) : Use → Prop
  | .tells line _ => ∀ c ∈ commandOf line, w.Free r c
  | .reads _ => True

/-- The response has been captured. -/
structure Captured (r : Response) (w : FullStream) : Prop where
  full : w.fullMode ≠ .SIMPLE
  line : w.cmdLine = []
  sent : w.queuedSend = false
  resolved : w.pendingJsonPointer = []
  body : w.bodyCapture = r.body
  buffer : w.responseBuffer = r.statusLine ++ r.headerLines ++ r.body
  status : w.statusEnd = r.statusLine.length
  headers : w.headersEnd = (r.statusLine ++ r.headerLines).length

variable {around} {r : Response} {w : FullStream} {line : Str} {newline : UInt8}

/- ### What the commands do -/

theorem toLower_cons {c : Str} {x : UInt8} {xs : Str} (same : toLower c = x :: xs) :
    ∃ a s, c = a :: s ∧ (if 0x41 ≤ a ∧ a ≤ 0x5a then a + 0x20 else a) = x ∧ toLower s = xs :=
  List.map_eq_cons_iff.mp same

/- Letters in either case, and the others as they are. -/
theorem lower_letter (a : UInt8) : ∀ x, (if 0x41 ≤ a ∧ a ≤ 0x5a then a + 0x20 else a) = x →
    (x = 0x72 → letter 0x72 a = true) ∧ (x = 0x73 → letter 0x72 a = false) ∧ (x = 0x68 → letter 0x68 a = true) ∧
      (x = 0x62 → letter 0x62 a = true ∧ letter 0x68 a = false) ∧ (x = 0x2d → a = 0x2d) ∧ (x = 0x74 → a ≠ 0x20) := by
  rintro x rfl
  exact forall_byte (fun a => ((if 0x41 ≤ a ∧ a ≤ 0x5a then a + 0x20 else a) = 0x72 → letter 0x72 a = true) ∧
    ((if 0x41 ≤ a ∧ a ≤ 0x5a then a + 0x20 else a) = 0x73 → letter 0x72 a = false) ∧
    ((if 0x41 ≤ a ∧ a ≤ 0x5a then a + 0x20 else a) = 0x68 → letter 0x68 a = true) ∧
    ((if 0x41 ≤ a ∧ a ≤ 0x5a then a + 0x20 else a) = 0x62 → letter 0x62 a = true ∧ letter 0x68 a = false) ∧
    ((if 0x41 ≤ a ∧ a ≤ 0x5a then a + 0x20 else a) = 0x2d → a = 0x2d) ∧
    ((if 0x41 ≤ a ∧ a ≤ 0x5a then a + 0x20 else a) = 0x74 → a ≠ 0x20)) (by decide +kernel) a

theorem trim_ne_nil (some : toUTF8 (trim line) ≠ []) : trim line ≠ [] := by
  intro none
  rw [none] at some
  exact some rfl

theorem handle_status (named : toLower (toUTF8 (trim line)) = statusWord) :
    (w.handleCommand around line).2 = { w with statusRequested := true, responseBufPos := 0, position := 0 } := by
  obtain ⟨a, s, text, first, rest⟩ := toLower_cons named
  obtain ⟨b, s, rfl, -, -⟩ := toLower_cons rest
  have other := (lower_letter a _ first).2.1 rfl
  have some : trim line ≠ [] := trim_ne_nil (by rw [text]; exact List.cons_ne_nil _ _)
  simp only [handleCommand, if_neg some]
  rw [text] at named ⊢
  simp [other, named]

theorem handle_headers (named : toLower (toUTF8 (trim line)) = [0x72, 0x2d, 0x68]) :
    (w.handleCommand around line).2 = w.reposition w.statusEnd := by
  obtain ⟨a, s, text, first, rest⟩ := toLower_cons named
  obtain ⟨b, s, rfl, second, rest⟩ := toLower_cons rest
  obtain ⟨d, s, rfl, third, -⟩ := toLower_cons rest
  have some : trim line ≠ [] := trim_ne_nil (by rw [text]; exact List.cons_ne_nil _ _)
  simp only [handleCommand, if_neg some]
  rw [text]
  simp [(lower_letter a _ first).1 rfl, (lower_letter b _ second).2.2.2.2.1 rfl, (lower_letter d _ third).2.2.1 rfl]

theorem handle_body (named : toLower (toUTF8 (trim line)) = [0x72, 0x2d, 0x62]) :
    (w.handleCommand around line).2 = w.reposition w.headersEnd := by
  obtain ⟨a, s, text, first, rest⟩ := toLower_cons named
  obtain ⟨b, s, rfl, second, rest⟩ := toLower_cons rest
  obtain ⟨d, s, rfl, third, -⟩ := toLower_cons rest
  have some : trim line ≠ [] := trim_ne_nil (by rw [text]; exact List.cons_ne_nil _ _)
  simp only [handleCommand, if_neg some]
  rw [text]
  simp [(lower_letter a _ first).1 rfl, (lower_letter b _ second).2.2.2.2.1 rfl, (lower_letter d _ third).2.2.2.1 rfl]

theorem handle_json (long : 2 ≤ (toUTF8 (trim line)).length) (first : letter 0x6a ((toUTF8 (trim line)).getD 0 0) = true)
    (second : (toUTF8 (trim line)).getD 1 0 = 0x20) :
    (w.handleCommand around line).2 = w.query around (trim ((toUTF8 (trim line)).drop 2)) := by
  have some : trim line ≠ [] := trim_ne_nil (by intro none; rw [none] at long; cases long)
  have other : toLower (toUTF8 (trim line)) ≠ statusWord := by
    intro named
    obtain ⟨a, s, text, -, rest⟩ := toLower_cons named
    obtain ⟨b, s, rfl, second', -⟩ := toLower_cons rest
    rw [text] at second
    exact (lower_letter b _ second').2.2.2.2.2 rfl second
  have single : ∀ x, toUTF8 (trim line) ≠ [x] := by
    rintro x same
    rw [same] at long
    simp at long
  simp only [handleCommand, if_neg some, second, single, other, long, first]
  simp

/- The bytes of a line are kept until it ends. -/
theorem foldl_feed (plain : 0x0d ∉ line ∧ 0x0a ∉ line) (w : FullStream) :
    line.foldl (feed around) w = { w with cmdLine := w.cmdLine ++ line } := by
  induction line generalizing w with
  | nil => simp only [List.foldl_nil, List.append_nil]
  | cons c line ih =>
    simp only [List.mem_cons, not_or] at plain
    have kept : w.feed around c = { w with cmdLine := w.cmdLine ++ [c] } := if_neg fun ends =>
      ends.elim (fun cr => plain.1.1 cr.symm) fun lf => plain.2.1 lf.symm
    rw [List.foldl_cons, kept, ih ⟨plain.1.2, plain.2.2⟩, List.append_assoc]
    rfl

/- A complete line is a command. -/
theorem step_tells (around : Around) (full : w.fullMode ≠ .SIMPLE) (start : w.cmdLine = []) (plain : 0x0d ∉ line ∧ 0x0a ∉ line)
    (ends : newline = 0x0d ∨ newline = 0x0a) (some : line ≠ []) :
    w.step around (.tells line newline) = { (({ w with cmdLine := line } : FullStream).handleCommand around line).2 with
      cmdLine := [] } := by
  have kept : line.foldl (feed around) w = { w with cmdLine := line } := by
    rw [foldl_feed plain, start, List.nil_append]
  simp only [step, write]
  rw [if_pos full, List.foldl_append, kept, List.foldl_cons, List.foldl_nil, feed, if_pos ends, if_neg some]

theorem commandOf_ne_nil {c : Command} (named : commandOf line = some c) : line ≠ [] := by
  rintro rfl
  cases named

/- ### Reads -/

theorem Captured.read_eq {size : Nat} (captured : Captured r w) (positive : 0 < size) :
    w.read around size = if w.jsonQueryRequested then w.serveJson size else w.serveBuffer size := by
  have some : w.responseBuffer ≠ [] := by
    rw [captured.buffer]
    simp [Response.statusLine]
  simp only [FullStream.read, resolve, captured.sent, captured.resolved, Nat.ne_of_gt positive, some, if_true, if_false,
    Bool.false_eq_true, not_false_eq_true, ne_eq]

theorem Captured.read {size : Nat} (captured : Captured r w) (positive : 0 < size) : Captured r (w.read around size).2 := by
  obtain ⟨full, line, sent, resolved, body, buffer, status, headers⟩ := captured
  rw [Captured.read_eq ⟨full, line, sent, resolved, body, buffer, status, headers⟩ positive]
  unfold serveJson serveBuffer
  split
  · split
    · exact ⟨full, line, sent, resolved, body, buffer, status, headers⟩
    · exact ⟨full, line, sent, resolved, body, buffer, status, headers⟩
  · split
    · exact ⟨full, line, sent, resolved, body, buffer, status, headers⟩
    · split
      · exact ⟨full, line, sent, resolved, body, buffer, status, headers⟩
      · exact ⟨full, line, sent, resolved, body, buffer, status, headers⟩

/-- A read that sends the request captures the response. -/
theorem read_captures {size : Nat} (around : Around) (full : w.fullMode ≠ .SIMPLE) (line : w.cmdLine = [])
    (queued : w.queuedSend = true) (positive : 0 < size) : Captured (around.send w.ctx) (w.read around size).2 := by
  have captured : Captured (around.send w.ctx) ((w.capture around).resolve around) := by
    unfold resolve
    split
    · rename_i resolved
      exact ⟨full, line, rfl, resolved, rfl, rfl, rfl, rfl⟩
    · split
      · exact ⟨full, line, rfl, rfl, rfl, rfl, rfl, rfl⟩
      · unfold performJsonQuery
        dsimp only
        split
        · exact ⟨full, line, rfl, rfl, rfl, rfl, rfl, rfl⟩
        · split <;> exact ⟨full, line, rfl, rfl, rfl, rfl, rfl, rfl⟩
  have again : w.read around size = ((w.capture around).resolve around).read around size := by
    have resolved : ((w.capture around).resolve around).resolve around = (w.capture around).resolve around :=
      if_pos captured.resolved
    simp only [FullStream.read, queued, captured.sent, resolved, Nat.ne_of_gt positive, if_true, Bool.false_eq_true, if_false]
  rw [again]
  exact captured.read positive

/-- What is left of the part that was asked for last. -/
inductive Serving (r : Response) (w : FullStream) : List UInt8 → Prop
  | json : w.jsonQueryRequested = true → w.responseBufPos = w.responseBuffer.length →
      Serving r w (w.jsonQueryResult.drop w.queryResultPos)
  | status : w.jsonQueryRequested = false → w.statusRequested = true → w.responseBufPos ≤ w.statusEnd →
      Serving r w (r.statusLine.drop w.responseBufPos)
  | buffer : w.jsonQueryRequested = false → (w.statusRequested = false ∨ w.responseBuffer.length ≤ w.responseBufPos) →
      Serving r w (w.responseBuffer.drop w.responseBufPos)

theorem drop_piece {α : Type*} (s : List α) (p n : Nat) : s.drop (p + ((s.drop p).take n).length) = (s.drop p).drop n := by
  rw [← List.drop_drop, List.length_take]
  by_cases short : n ≤ (s.drop p).length
  · rw [Nat.min_eq_left short]
  · rw [Nat.min_eq_right (Nat.le_of_not_le short), List.drop_length, List.drop_eq_nil_of_le (Nat.le_of_not_le short)]

theorem Serving.done (free : w.jsonQueryRequested = false) (exceeds : w.responseBuffer.length ≤ w.responseBufPos) :
    Serving r w [] := by
  have serving : Serving r w (w.responseBuffer.drop w.responseBufPos) := .buffer free (.inr exceeds)
  rwa [List.drop_eq_nil_of_le exceeds] at serving

/-- A read gives as much as it asks for of what is left. -/
theorem Serving.read {left : List UInt8} {size : Nat} (captured : Captured r w) (serving : Serving r w left)
    (positive : 0 < size) :
    (w.read around size).1 = left.take size ∧ Serving r (w.read around size).2 (left.drop size) := by
  rw [captured.read_eq positive]
  cases serving with
  | json requested past =>
    rw [if_pos requested]
    unfold serveJson
    split
    · rename_i exceeds
      rw [List.drop_eq_nil_of_le exceeds, List.take_nil, List.drop_nil]
      exact ⟨rfl, .done rfl (Nat.le_of_eq past.symm)⟩
    · refine ⟨rfl, ?_⟩
      rw [← drop_piece]
      exact .json requested past
  | status free requested inside =>
    rw [if_neg (by rw [free]; decide)]
    have whole : w.responseBuffer = r.statusLine ++ (r.headerLines ++ r.body) := by rw [captured.buffer, List.append_assoc]
    have before : w.responseBufPos < w.responseBuffer.length := by
      rw [captured.status] at inside
      rw [whole]
      simp only [Response.headerLines, List.length_append, List.length_singleton]
      omega
    unfold serveBuffer
    rw [if_neg (Nat.not_le.mpr before)]
    split
    · rename_i ended
      rw [captured.status] at ended
      rw [List.drop_eq_nil_of_le ended.2, List.take_nil, List.drop_nil]
      exact ⟨rfl, .done free (Nat.le_refl _)⟩
    · have shown : w.responseBuffer.take w.statusEnd = r.statusLine := by
        rw [captured.status, whole, List.take_left]
      simp only [requested, shown]
      refine ⟨trivial, ?_⟩
      rw [← drop_piece]
      refine .status free rfl ?_
      rw [captured.status] at inside ⊢
      simp only [List.length_take, List.length_drop]
      omega
  | buffer free place =>
    rw [if_neg (by rw [free]; decide)]
    unfold serveBuffer
    split
    · rename_i exceeds
      rw [List.drop_eq_nil_of_le exceeds, List.take_nil, List.drop_nil]
      exact ⟨rfl, .done free exceeds⟩
    · rename_i more
      have unasked : w.statusRequested = false := place.resolve_right more
      simp only [unasked, Bool.false_eq_true, false_and, if_false]
      refine ⟨trivial, ?_⟩
      rw [← drop_piece]
      exact .buffer free (.inl rfl)

/- ### Commands -/

theorem part_json {json : List UInt8 → Str → JsonAnswer} {pointer : Str} {part : List UInt8}
    (there : r.part json (.json pointer) = some part) :
    ∃ text, json r.body pointer = .value text ∧ r.body ≠ [] ∧ toPETSCII2 text = part := by
  simp only [Response.part] at there
  cases answer : json r.body pointer with
  | value text =>
    simp only [answer] at there
    split at there
    · cases there
    · rename_i some
      exact ⟨text, rfl, some, Option.some.inj there⟩
  | unparsed => simp [answer] at there
  | absent => simp [answer] at there
  | unprintable => simp [answer] at there

/-- A command keeps the response, and sets off its own part where nothing stands in its way. -/
theorem Captured.tells {c : Command} {part : List UInt8} (captured : Captured r w) (plain : 0x0d ∉ line ∧ 0x0a ∉ line)
    (ends : newline = 0x0d ∨ newline = 0x0a) (named : commandOf line = some c) (there : r.part around.json c = some part) :
    Captured r (w.step around (.tells line newline)) ∧
      (w.Free r c → Serving r (w.step around (.tells line newline)) part) := by
  have step := step_tells around captured.full captured.line plain ends (commandOf_ne_nil named)
  obtain ⟨full, start, sent, resolved, body, buffer, status, headers⟩ := captured
  rw [step]
  unfold commandOf at named
  dsimp only at named
  split at named
  · rename_i word
    cases named
    cases there
    rw [handle_status word]
    exact ⟨⟨full, rfl, sent, resolved, body, buffer, status, headers⟩, fun free => .status free rfl (Nat.zero_le _)⟩
  · split at named
    · rename_i word
      cases named
      cases there
      rw [handle_headers word]
      have behind : w.responseBuffer.drop w.statusEnd = r.headerLines ++ r.body := by
        rw [buffer, status, List.append_assoc, List.drop_left]
      refine ⟨⟨full, rfl, sent, resolved, body, buffer, status, headers⟩, fun free => ?_⟩
      rw [← behind]
      exact .buffer free.1 (.inl free.2)
    · split at named
      · rename_i word
        cases named
        cases there
        rw [handle_body word]
        have behind : w.responseBuffer.drop w.headersEnd = r.body := by
          rw [buffer, headers, List.drop_left]
        refine ⟨⟨full, rfl, sent, resolved, body, buffer, status, headers⟩, fun free => ?_⟩
        rw [← behind]
        refine .buffer free.1 (free.2.imp_right fun none => ?_)
        have ended : w.responseBuffer.length = w.headersEnd := by rw [buffer, headers, none, List.append_nil]
        exact Nat.le_of_eq ended
      · split at named
        · rename_i word
          cases named
          rw [handle_json word.1 word.2.1 word.2.2]
          obtain ⟨text, answer, some, rfl⟩ := part_json there
          have found : query around { w with cmdLine := line } (trim ((toUTF8 (trim line)).drop 2)) =
              { w with
                cmdLine := line
                jsonQueryResult := toPETSCII2 text
                jsonQueryRequested := true
                queryResultPos := 0
                pendingJsonPointer := []
                responseBufPos := w.responseBuffer.length } := by
            simp only [query, performJsonQuery, body, some, if_false, answer]
          rw [found]
          exact ⟨⟨full, rfl, sent, rfl, body, buffer, status, headers⟩, fun _ => .json rfl rfl⟩
        · cases named

/-- In every run of commands and reads that finds the response settled at every command, every command is served what it
names. -/
theorem serves_named (around : Around) (r : Response) (w : FullStream) (captured : Captured r w) (uses : List Use)
    (asks : ∀ use ∈ uses, Asks around r use) (settled : Along (step around) (Settled r) w uses) :
    Along (step around) (Serves around r) w uses := by
  have valid : Along (step around) (fun _ use => Asks around r use) w uses := along_of_mem asks
  refine Along.imp (I := Captured r) ?_ ?_ captured (valid.and settled)
  · rintro w (⟨line, newline⟩ | size) captured ⟨asks, -⟩
    · obtain ⟨cr, lf, ends, c, part, named, there⟩ := asks
      exact (captured.tells ⟨cr, lf⟩ ends named there).1
    · exact captured.read asks
  · rintro w (⟨line, newline⟩ | size) captured ⟨asks, settled⟩
    · obtain ⟨cr, lf, ends, -, -, -, -⟩ := asks
      intro c named part there sizes positive
      obtain ⟨next, serving⟩ := captured.tells ⟨cr, lf⟩ ends named there
      refine drain_take (fun w left => Captured r w ∧ Serving r w left) ?_
        ⟨next, serving (settled c named)⟩ positive
      rintro w left size ⟨captured, serving⟩ positive
      obtain ⟨piece, rest⟩ := serving.read captured positive
      exact ⟨piece, captured.read positive, rest⟩
    · trivial

end FullStream

/- A server whose answer is the body AB, and no JSON in it. -/
def plainAround : Around where
  send _ := { status := 200, headers := [], body := [0x41, 0x42] }
  json _ _ := .unparsed
  simple w _ := ([], w)

/- The letter S and a read, on a new stream. -/
def sentStream : FullStream := ((({} : FullStream).write plainAround [0x53, 0x0d]).2.read plainAround 256).2

theorem sentStream_captured : FullStream.Captured (plainAround.send {}) sentStream :=
  FullStream.read_captures plainAround (by decide +kernel) (by decide) (by decide) (by decide)

/- "STATUS" and "R-B", in PETSCII. -/
def statusLine : Use := .tells [0x53, 0x54, 0x41, 0x54, 0x55, 0x53] 0x0d
def bodyLine : Use := .tells [0x52, 0x2d, 0x42] 0x0d

theorem statusLine_asks : FullStream.Asks plainAround (plainAround.send {}) statusLine :=
  ⟨by decide, by decide, .inl rfl, .status, _, by decide, rfl⟩

theorem bodyLine_asks : FullStream.Asks plainAround (plainAround.send {}) bodyLine :=
  ⟨by decide, by decide, .inl rfl, .body, _, by decide, rfl⟩

/-- `serves_named` applies where the status line is read up to its end and the body then asked for. -/
theorem serves_named_body : Along (FullStream.step plainAround) (FullStream.Serves plainAround (plainAround.send {})) sentStream
    [statusLine, .reads 256, .reads 1, bodyLine, .reads 2] := by
  have status : commandOf [0x53, 0x54, 0x41, 0x54, 0x55, 0x53] = some .status := by decide
  have body : commandOf [0x52, 0x2d, 0x42] = some .body := by decide
  refine FullStream.serves_named plainAround (plainAround.send {}) sentStream sentStream_captured _ ?_ ?_
  · have reads : ∀ size, 0 < size → FullStream.Asks plainAround (plainAround.send {}) (.reads size) := fun _ positive => positive
    simp only [List.forall_mem_cons, statusLine_asks, bodyLine_asks, reads, Nat.succ_pos, true_and]
    exact List.forall_mem_nil _
  · simp only [Along, statusLine, bodyLine, FullStream.Settled, status, body, Option.mem_some_iff, forall_eq', FullStream.Free]
    decide

/-- Asked for before the status line has been read, the body is not given. -/
theorem body_withheld : ¬ ∀ (around : Around) (r : Response) (w : FullStream) (uses : List Use), FullStream.Captured r w →
    (∀ use ∈ uses, FullStream.Asks around r use) → Along (FullStream.step around) (FullStream.Serves around r) w uses := by
  intro all
  obtain ⟨-, serves, -⟩ := all plainAround (plainAround.send {}) sentStream
    [statusLine, bodyLine] sentStream_captured (by
      simp only [List.forall_mem_cons, statusLine_asks, bodyLine_asks, true_and]
      exact List.forall_mem_nil _)
  have body := serves .body (by decide) [0x41, 0x42] (by decide) [2] (by decide)
  revert body
  decide

end Meatloaf.Network
