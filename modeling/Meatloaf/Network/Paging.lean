import Meatloaf.Network.Http

/-! A resource that is read from its start to its end, page by page. Of a page that ends before a read does, the next one
is asked for at once; of a page that ends where a read does, it is not. -/
namespace Meatloaf.Network

open Lib

/- A range that can be satisfied is answered with just that part. -/
def Server.Ranging (server : Server) : Prop := ∀ url r, r.Satisfied (server.content url).length →
  (server.answer url (some r)).status = 206 ∧ (server.answer url (some r)).body = r.slice (server.content url) ∧
    (server.answer url (some r)).total = some (server.content url).length

/- Every request is answered with the whole. -/
def Server.Plain (server : Server) : Prop := ∀ url r,
  (server.answer url r).status = 200 ∧ (server.answer url r).body = server.content url ∧ (server.answer url r).total = none

namespace MeatHttpClient

/- The range that `page` asks for, if it asks for one. -/
def pageRange (c : MeatHttpClient) (size : Nat) : Option Range :=
  let buf := c.live.take size
  if buf ≠ [] ∧ buf.length < size ∧ (c.knownSize = 0 ∨ (c.taken size).position < c.knownSize) then
    some ((c.taken size).rangeFor (c.taken size).position size)
  else none

/- The ranges that `read` asks for. -/
def readRanges (server : Server) (canReuse : Bool) (c : MeatHttpClient) (size : Nat) : List Range :=
  if c.isOpen then (c.pageRange size).toList
  else
    let reopened := (c.processRedirectsAndOpen server canReuse c.position size).2
    c.rangeFor c.position size :: if reopened.isOpen then (reopened.pageRange size).toList else []

end MeatHttpClient

/-- A client, and what its reads have given. -/
structure Download where
  client : MeatHttpClient
  given : List UInt8 := []

namespace Download

variable (server : Server) (canReuse : Bool)

def step (w : Download) (size : UInt32) : Download :=
  let r := w.client.read server canReuse size.toNat
  { client := r.2, given := w.given ++ r.1 }

/-- What is given goes on with the resource, nothing is given only at its end, and the ranges that are asked for are in it
and not empty. -/
def Delivers (text : List UInt8) (w : Download) (size : UInt32) : Prop :=
  w.given ++ (w.client.read server canReuse size.toNat).1 <+: text ∧
    ((w.client.read server canReuse size.toNat).1 = [] → w.given = text) ∧
    ∀ r ∈ w.client.readRanges server canReuse size.toNat, r.Satisfied text.length

/-- The read does not begin at the end of a page with more of the resource behind it; and if it goes over the end of one,
the end of the next range has 32 bits. -/
def Pages (text : List UInt8) (w : Download) (size : UInt32) : Prop :=
  (w.client.live = [] → w.given = text) ∧
    (w.client.live ≠ [] → w.client.live.length < size.toNat → w.given.length + w.client.live.length < text.length →
      w.given.length + w.client.live.length ≤ (w.given.length + w.client.live.length + size.toNat + 5) % 2 ^ 32)

instance (text : List UInt8) (w : Download) (size : UInt32) : Decidable (Delivers server canReuse text w size) :=
  inferInstanceAs (Decidable (_ ∧ _))

instance (text : List UInt8) (w : Download) (size : UInt32) : Decidable (Pages text w size) :=
  inferInstanceAs (Decidable (_ ∧ _))

/-- The client reads the resource from its position on, and knows how long it is. -/
structure Paging (text : List UInt8) (w : Download) : Prop where
  isOpen : w.client.isOpen = true
  long : 5 ≤ w.client.url.length
  content : server.content w.client.url = text
  known : w.client.knownSize = text.length
  place : w.client.position = w.given.length
  given : w.given ++ w.client.live <+: text
  ranging : server.Ranging ∧ w.client.rangeSize = text.length ∧ w.client.sequentialAccess = false ∨
    w.given ++ w.client.live = text

variable {server} {text : List UInt8} {w : Download} {size : UInt32}

/- A page that is not read over its end, or ends with the resource. -/
theorem read_within (paging : Paging server text w)
    (within : ¬ (w.client.live ≠ [] ∧ w.client.live.length < size.toNat ∧ w.given.length + w.client.live.length < text.length))
    (fits : text.length < 2 ^ 32) :
    w.client.read server canReuse size.toNat = (w.client.live.take size.toNat, w.client.taken size.toNat) ∧
      w.client.readRanges server canReuse size.toNat = [] := by
  have short := paging.given.length_le
  rw [List.length_append] at short
  have piece : (w.client.live.take size.toNat).length = min size.toNat w.client.live.length := List.length_take
  have stops : ¬ (w.client.live.take size.toNat ≠ [] ∧ (w.client.live.take size.toNat).length < size.toNat ∧
      (w.client.knownSize = 0 ∨ (w.client.taken size.toNat).position < w.client.knownSize)) := by
    rintro ⟨some, less, more⟩
    have live : w.client.live ≠ [] := fun none => some (by rw [none, List.take_nil])
    have positive := List.length_pos_iff.mpr live
    refine within ⟨live, by omega, ?_⟩
    rw [paging.known] at more
    simp only [MeatHttpClient.taken, paging.place] at more
    omega
  simp only [MeatHttpClient.read, MeatHttpClient.readRanges, MeatHttpClient.pageRange, MeatHttpClient.page, paging.isOpen, if_true]
  rw [if_neg stops, if_neg stops]
  exact ⟨rfl, rfl⟩

theorem taken_paging (paging : Paging server text w)
    (within : ¬ (w.client.live ≠ [] ∧ w.client.live.length < size.toNat ∧ w.given.length + w.client.live.length < text.length))
    (fits : text.length < 2 ^ 32) : Paging server text (w.step server canReuse size) := by
  have short := paging.given.length_le
  rw [List.length_append] at short
  have join : w.given ++ w.client.live.take size.toNat ++ w.client.live.drop size.toNat = w.given ++ w.client.live := by
    rw [List.append_assoc, List.take_append_drop]
  have place : (w.client.position + (w.client.live.take size.toNat).length) % 2 ^ 32 =
      (w.given ++ w.client.live.take size.toNat).length := by
    have piece : (w.client.live.take size.toNat).length ≤ w.client.live.length := List.length_take_le' _ _
    rw [paging.place, List.length_append, Nat.mod_eq_of_lt (by omega)]
  rw [step, (read_within canReuse paging within fits).1]
  exact ⟨paging.isOpen, paging.long, paging.content, paging.known, place, join ▸ paging.given, join ▸ paging.ranging⟩

/- The range behind a page, once the total is known. -/
theorem rangeFor_iff {c : MeatHttpClient} {p n : Nat} (size : Nat) (known : c.knownSize = n) (inside : p < n)
    (single : c.sequentialAccess = false) : (c.rangeFor p size).Satisfied n ↔ p ≤ (p + size + 5) % 2 ^ 32 := by
  simp only [Range.Satisfied, MeatHttpClient.rangeFor, known, single, Option.mem_def]
  constructor
  · rintro ⟨-, above⟩
    have last := above _ rfl
    split at last <;> omega
  · intro above
    refine ⟨inside, ?_⟩
    rintro last ⟨⟩
    split <;> omega

/- A page that is read over its end, with more of the resource behind it. -/
theorem read_over (paging : Paging server text w) (some : w.client.live ≠ []) (less : w.client.live.length < size.toNat)
    (more : w.given.length + w.client.live.length < text.length) (fits : text.length < 2 ^ 32) :
    let next := w.client.taken size.toNat
    let p := w.given.length + w.client.live.length
    w.client.read server canReuse size.toNat = (w.client.live, (next.openAndFetchHeaders server p size.toNat).2) ∧
      w.client.readRanges server canReuse size.toNat = [next.rangeFor p size.toNat] ∧ next.position = p := by
  have all : w.client.live.take size.toNat = w.client.live := List.take_of_length_le (Nat.le_of_lt less)
  have place : (w.client.taken size.toNat).position = w.given.length + w.client.live.length := by
    simp only [MeatHttpClient.taken, all, paging.place]
    exact Nat.mod_eq_of_lt (by omega)
  have goes : w.client.live.take size.toNat ≠ [] ∧ (w.client.live.take size.toNat).length < size.toNat ∧
      (w.client.knownSize = 0 ∨ (w.client.taken size.toNat).position < w.client.knownSize) := by
    rw [all, place, paging.known]
    exact ⟨some, less, .inr more⟩
  simp only [MeatHttpClient.read, MeatHttpClient.readRanges, MeatHttpClient.pageRange, MeatHttpClient.page, paging.isOpen, if_true]
  rw [if_pos goes, if_pos goes, all, place]
  exact ⟨rfl, rfl, rfl⟩

theorem over_paging (paging : Paging server text w) (some : w.client.live ≠ []) (less : w.client.live.length < size.toNat)
    (more : w.given.length + w.client.live.length < text.length) (fits : text.length < 2 ^ 32)
    (room : w.given.length + w.client.live.length ≤ (w.given.length + w.client.live.length + size.toNat + 5) % 2 ^ 32) :
    Paging server text (w.step server canReuse size) := by
  obtain ⟨step, -, place⟩ := read_over canReuse paging some less more fits
  obtain ⟨ranging, total, single⟩ : server.Ranging ∧ w.client.rangeSize = text.length ∧ w.client.sequentialAccess = false := by
    rcases paging.ranging with ranging | whole
    · exact ranging
    · have length := congrArg List.length whole
      rw [List.length_append] at length
      omega
  have positive : 0 < text.length := Nat.lt_of_le_of_lt (Nat.zero_le _) more
  generalize next : w.client.taken size.toNat = c at step place
  have content : server.content c.url = text := next ▸ paging.content
  have long : 5 ≤ c.url.length := next ▸ paging.long
  have inside : (c.rangeFor (w.given.length + w.client.live.length) size.toNat).Satisfied (server.content c.url).length := by
    rw [content]
    exact (rangeFor_iff _ (next ▸ paging.known) more (next ▸ single)).mpr room
  obtain ⟨status, body, whole⟩ := ranging c.url _ inside
  rw [content] at body whole
  have answered : (c.openAndFetchHeaders server (w.given.length + w.client.live.length) size.toNat).2 =
      { { c with connectionClose := false }.onHeaders (server.answer c.url
        (Option.some (c.rangeFor (w.given.length + w.client.live.length) size.toNat))) with isOpen := true } := by
    simp [MeatHttpClient.openAndFetchHeaders, Nat.not_lt.mpr long, status]
  have known : (server.answer c.url (Option.some (c.rangeFor (w.given.length + w.client.live.length) size.toNat))).total.getD c.rangeSize =
      text.length := by rw [whole, Option.getD_some]
  rw [Download.step, step, answered]
  have behind : w.given ++ w.client.live ++ text.drop (w.given.length + w.client.live.length) = text := by
    rw [← List.length_append]
    exact List.prefix_iff_eq_append.mp paging.given
  refine ⟨rfl, long, content, ?_, ?_, ?_, .inl ⟨ranging, known, next ▸ single⟩⟩
  · simp only [MeatHttpClient.knownSize, MeatHttpClient.onHeaders, known]
    exact if_pos positive
  · simp only [MeatHttpClient.onHeaders, place, List.length_append]
  · simp only [MeatHttpClient.onHeaders, body]
    obtain ⟨tail, join⟩ := Range.slice_prefix (c.rangeFor (w.given.length + w.client.live.length) size.toNat) text
    refine ⟨tail, ?_⟩
    rw [List.append_assoc, join]
    exact behind

theorem delivers_iff (paging : Paging server text w) (fits : text.length < 2 ^ 32) (positive : 0 < size.toNat) :
    Delivers server canReuse text w size ↔ Pages text w size := by
  by_cases exceeds : w.client.live ≠ [] ∧ w.client.live.length < size.toNat ∧ w.given.length + w.client.live.length < text.length
  · obtain ⟨some, less, more⟩ := exceeds
    obtain ⟨step, ranges, -⟩ := read_over canReuse paging some less more fits
    have single : w.client.sequentialAccess = false := by
      rcases paging.ranging with ranging | whole
      · exact ranging.2.2
      · have length := congrArg List.length whole
        rw [List.length_append] at length
        omega
    have known : (w.client.taken size.toNat).knownSize = text.length := paging.known
    have range := rangeFor_iff size.toNat known more single
    simp only [Delivers, Pages, step, ranges, List.forall_mem_singleton, range]
    constructor
    · rintro ⟨-, -, room⟩
      exact ⟨fun none => absurd none some, fun _ _ _ => room⟩
    · rintro ⟨-, room⟩
      exact ⟨paging.given, fun none => absurd none some, room some less more⟩
  · obtain ⟨step, ranges⟩ := read_within canReuse paging exceeds fits
    have joined : w.given ++ w.client.live.take size.toNat <+: text :=
      (List.prefix_append_right_inj _).mpr (List.take_prefix _ _) |>.trans paging.given
    simp only [Delivers, Pages, step, ranges, List.take_eq_nil_iff]
    constructor
    · rintro ⟨-, ended, -⟩
      exact ⟨fun none => ended (.inr none), fun some less more => absurd ⟨some, less, more⟩ exceeds⟩
    · rintro ⟨ended, -⟩
      refine ⟨joined, ?_, fun r none => absurd none List.not_mem_nil⟩
      rintro (zero | none)
      · omega
      · exact ended none

theorem pages_paging (paging : Paging server text w) (fits : text.length < 2 ^ 32) (pages : Pages text w size) :
    Paging server text (w.step server canReuse size) := by
  by_cases exceeds : w.client.live ≠ [] ∧ w.client.live.length < size.toNat ∧ w.given.length + w.client.live.length < text.length
  · exact over_paging canReuse paging exceeds.1 exceeds.2.1 exceeds.2.2 fits (pages.2 exceeds.1 exceeds.2.1 exceeds.2.2)
  · exact taken_paging canReuse paging exceeds fits

/- The client that GET asks with. -/
def asking (canReuse : Bool) (c : MeatHttpClient) (url : Str) : MeatHttpClient := (c.renew url).init canReuse

theorem asking_new (c : MeatHttpClient) (url : Str) : (asking canReuse c url).url = encoded url ∧
    (asking canReuse c url).error = 0 ∧ (asking canReuse c url).knownSize = 0 ∧ (asking canReuse c url).rangeSize = 0 := by
  unfold asking MeatHttpClient.init
  split
  · exact ⟨rfl, rfl, rfl, rfl⟩
  · exact ⟨rfl, rfl, rfl, rfl⟩

theorem get_paging {c : MeatHttpClient} {url : Str} (serves : server.Ranging ∨ server.Plain)
    (ok : (c.get server canReuse url).1 = true) (more : server.content (encoded url) ≠ []) :
    Paging server (server.content (encoded url)) ⟨(c.get server canReuse url).2, []⟩ := by
  obtain ⟨same, calm, -, fresh⟩ := asking_new canReuse c url
  unfold MeatHttpClient.get at ok ⊢
  rw [show (c.renew url).init canReuse = asking canReuse c url from rfl] at ok ⊢
  generalize asking canReuse c url = d at same calm fresh ok ⊢
  rw [← same] at more ⊢
  have long : 5 ≤ d.url.length := by
    by_contra short
    simp [MeatHttpClient.processRedirectsAndOpen, MeatHttpClient.openAndFetchHeaders, Nat.not_le.mp short] at ok
  have positive := List.length_pos_iff.mpr more
  rcases serves with ranging | plain
  · obtain ⟨status, body, total⟩ := ranging d.url (d.rangeFor 0 HTTP_BLOCK_SIZE) (MeatHttpClient.rangeFor_start more)
    have opened : d.processRedirectsAndOpen server canReuse 0 HTTP_BLOCK_SIZE = (true,
        { { d with connectionClose := false }.onHeaders (server.answer d.url (some (d.rangeFor 0 HTTP_BLOCK_SIZE))) with
          isOpen := true, lastRC := 206, isFriendlySkipper := true, position := 0 }) := by
      simp [MeatHttpClient.processRedirectsAndOpen, MeatHttpClient.openAndFetchHeaders, Nat.not_lt.mpr long, status]
    rw [opened]
    refine ⟨rfl, long, rfl, ?_, rfl, ?_, ?_⟩
    · simp only [MeatHttpClient.knownSize, MeatHttpClient.onHeaders, total, Option.getD_some]
      exact if_pos positive
    · simp only [MeatHttpClient.onHeaders, body, List.nil_append]
      exact Range.slice_prefix _ _
    · by_cases single : d.sequentialAccess = false
      · left
        exact ⟨ranging, congrArg (Option.getD · d.rangeSize) total, single⟩
      · right
        have whole : (d.rangeFor 0 HTTP_BLOCK_SIZE).slice (server.content d.url) = server.content d.url := by
          simp [Range.slice, MeatHttpClient.rangeFor, single]
        exact body.trans whole
  · obtain ⟨status, body, total⟩ := plain d.url (some (d.rangeFor 0 HTTP_BLOCK_SIZE))
    have opened : d.processRedirectsAndOpen server canReuse 0 HTTP_BLOCK_SIZE = (true,
        { { d with connectionClose := false }.onHeaders (server.answer d.url (some (d.rangeFor 0 HTTP_BLOCK_SIZE))) with
          isOpen := true, lastRC := 200, position := 0 }) := by
      simp [MeatHttpClient.processRedirectsAndOpen, MeatHttpClient.openAndFetchHeaders, Nat.not_lt.mpr long, status,
        MeatHttpClient.onHeaders, calm]
    rw [opened]
    refine ⟨rfl, long, rfl, ?_, rfl, ?_, .inr ?_⟩
    · simp only [MeatHttpClient.knownSize, MeatHttpClient.onHeaders, total, Option.getD_none, fresh, body]
      exact if_neg (Nat.lt_irrefl 0)
    · simp only [MeatHttpClient.onHeaders, body, List.nil_append]
      exact List.prefix_rfl
    · simp only [MeatHttpClient.onHeaders, body, List.nil_append]

/-- After a GET, the reads give the resource from its start to its end and ask for ranges of it alone, if and only if no
read begins at the end of a page with more of the resource behind it, and none goes over the end of a page with a size that
takes the next range over 32 bits. -/
theorem reads_resource_iff (server : Server) (canReuse : Bool) (serves : server.Ranging ∨ server.Plain) (c : MeatHttpClient)
    (url : Str) (ok : (c.get server canReuse url).1 = true) (more : server.content (encoded url) ≠ [])
    (fits : (server.content (encoded url)).length < 2 ^ 32) (sizes : List UInt32) (positive : ∀ size ∈ sizes, 0 < size.toNat) :
    ((asking canReuse c url).rangeFor 0 HTTP_BLOCK_SIZE).Satisfied (server.content (encoded url)).length ∧
      (Along (step server canReuse) (Delivers server canReuse (server.content (encoded url)))
          ⟨(c.get server canReuse url).2, []⟩ sizes ↔
        Along (step server canReuse) (Pages (server.content (encoded url))) ⟨(c.get server canReuse url).2, []⟩ sizes) := by
  constructor
  · exact ⟨List.length_pos_iff.mpr more, fun _ _ => Nat.zero_le _⟩
  · exact Along.congr_within (I := Paging server (server.content (encoded url))) (V := fun _ size => 0 < size.toNat)
      (fun _ _ paging wanted => delivers_iff canReuse paging fits wanted) (fun _ _ paging _ pages => pages_paging canReuse paging fits pages)
      (get_paging canReuse serves ok more) (along_of_mem positive)

end Download

theorem serve_ranging (content : Str → List UInt8) : (serve content).Ranging := by
  intro url r inside
  simp only [serve] at inside ⊢
  simp [inside]

/- A file of 264 bytes at every address. -/
def longFile (_ : Str) : List UInt8 := (List.range 264).map UInt8.ofNat

/-- `reads_resource_iff` applies to reads of 200 bytes, the second of which goes over the end of a page. -/
theorem reads_resource_long :
    ((Download.asking true {} (letters true).text).rangeFor 0 HTTP_BLOCK_SIZE).Satisfied (longFile []).length ∧
      (Along (Download.step (serve longFile) true) (Download.Delivers (serve longFile) true (longFile []))
          ⟨(({} : MeatHttpClient).get (serve longFile) true (letters true).text).2, []⟩ [200, 200, 200] ↔
        Along (Download.step (serve longFile) true) (Download.Pages (longFile []))
          ⟨(({} : MeatHttpClient).get (serve longFile) true (letters true).text).2, []⟩ [200, 200, 200]) :=
  Download.reads_resource_iff (serve longFile) true (.inl (serve_ranging longFile)) {} (letters true).text (by decide +kernel)
    (by decide) (by decide +kernel) _ (by simp)

/-- Read in pieces of 131 bytes, the file ends behind the two that the first page holds. -/
theorem page_end_ends :
    (({} : MeatHttpClient).get (serve longFile) true (letters true).text).1 = true ∧
      ¬ Along (Download.step (serve longFile) true) (Download.Delivers (serve longFile) true (longFile []))
        ⟨(({} : MeatHttpClient).get (serve longFile) true (letters true).text).2, []⟩ [131, 131, 131] := by
  constructor
  · decide +kernel
  · decide +kernel

end Meatloaf.Network
