import Meatloaf.Text.Settled

/-! The parts of a url in front of the path, and how they are read again from the url that the parser puts
together. The login is written without its slashes where there is no host. -/
namespace Meatloaf.PeoplesUrlParser

/-! The path, the name and its extension -/

/- The path without its first colon. -/
def dropColon (path : Str) : Str :=
  match find colon path with
  | none => path
  | some pos => path.take pos ++ path.drop (pos + 1)

/- The name as it is taken from the path. -/
def nameOf (path : Str) : Str :=
  match find colon path with
  | none => urlName path
  | some pos => path.drop (pos + 1)

def extensionOf (name : Str) : Str :=
  let nameParts := split period 9998 name
  if 1 < nameParts.length then nameParts.getLastD [] else []

def baseOf (name : Str) : Str :=
  if extensionOf name = [] then name else name.take (name.length - (extensionOf name).length - 1)

/-- What a parser has before it has looked into the path. -/
structure Fresh (p : PeoplesUrlParser) : Prop where
  name : p.name = []
  base_name : p.base_name = []
  extension : p.extension = []
  query : p.query = []
  fragment : p.fragment = []
  unasked : question ∉ p.path
  unhashed : hash ∉ p.path

theorem cleanPath_path (p : PeoplesUrlParser) : p.cleanPath.path = cleaned p.path := by
  unfold cleanPath cleaned
  split
  · rename_i none
    exact none
  · rfl

theorem rebuildUrl_path_eq (p : PeoplesUrlParser) : p.rebuildUrl.path = cleaned (rootedPath p.path) := by
  have path : (if p.path.head? = some slash then p else { p with path := slash :: p.path }).path = rootedPath p.path := by
    unfold rootedPath
    split <;> rfl
  rw [← path, ← cleanPath_path]
  rfl

/- The rest of the fields are left alone. -/
theorem rebuildUrl_name (p : PeoplesUrlParser) :
    p.cleanPath.rebuildUrl.name = p.name ∧ p.cleanPath.rebuildUrl.base_name = p.base_name ∧
      p.cleanPath.rebuildUrl.extension = p.extension := by
  have clean (q : PeoplesUrlParser) :
      q.cleanPath.name = q.name ∧ q.cleanPath.base_name = q.base_name ∧ q.cleanPath.extension = q.extension := by
    unfold cleanPath
    split
    · exact ⟨rfl, rfl, rfl⟩
    · exact ⟨rfl, rfl, rfl⟩
  have first := clean p
  have slashed (q : PeoplesUrlParser) : (if q.path.head? = some slash then q else { q with path := slash :: q.path }).name = q.name ∧
      (if q.path.head? = some slash then q else { q with path := slash :: q.path }).base_name = q.base_name ∧
      (if q.path.head? = some slash then q else { q with path := slash :: q.path }).extension = q.extension := by
    split
    · exact ⟨rfl, rfl, rfl⟩
    · exact ⟨rfl, rfl, rfl⟩
  have second := clean (if p.cleanPath.path.head? = some slash then p.cleanPath
    else { p.cleanPath with path := slash :: p.cleanPath.path })
  have middle := slashed p.cleanPath
  exact ⟨second.1.trans (middle.1.trans first.1), second.2.1.trans (middle.2.1.trans first.2.1),
    second.2.2.trans (middle.2.2.trans first.2.2)⟩

theorem Fresh.processQuery {p : PeoplesUrlParser} (fresh : Fresh p) : p.processQuery = p := by
  unfold PeoplesUrlParser.processQuery
  rw [find_none fresh.unasked, find_none fresh.unhashed]
  rfl

/- What the path is made into. -/
theorem Fresh.processPath {p : PeoplesUrlParser} (fresh : Fresh p) :
    p.processPath.path = dropColon p.path ∧ p.processPath.name = nameOf p.path ∧
      p.processPath.extension = extensionOf (nameOf p.path) ∧ p.processPath.base_name = baseOf (nameOf p.path) := by
  by_cases none : p.path = []
  · have same : p.processPath = p := if_pos none
    rw [same, none]
    exact ⟨rfl, fresh.name, fresh.extension, fresh.base_name⟩
  · have whole : p.processPath = p.processName.processExtension := by
      rw [PeoplesUrlParser.processPath, if_neg none, fresh.processQuery]
    have extension : p.processName.extension = [] := by
      rw [← fresh.extension]
      unfold processName
      split <;> rfl
    have path : p.processName.path = dropColon p.path ∧ p.processName.name = nameOf p.path := by
      unfold processName dropColon nameOf
      cases find colon p.path with
      | none => exact ⟨rfl, rfl⟩
      | some pos => exact ⟨rfl, rfl⟩
    have ext : p.processName.processExtension.extension = extensionOf p.processName.name := by
      rw [processExtension, extension]
      rfl
    have base : p.processName.processExtension.base_name = baseOf p.processName.name := by
      unfold baseOf
      rw [← ext]
      rfl
    rw [whole, ext, base, path.2]
    exact ⟨path.1, path.2, rfl, rfl⟩

/- The parts in front of the path are left alone. -/
theorem Fresh.parts {p : PeoplesUrlParser} (fresh : Fresh p) :
    UrlParts.SameParts p p.processPath.cleanPath.rebuildUrl := by
  have path : UrlParts.SameParts p p.processPath := by
    by_cases none : p.path = []
    · rw [PeoplesUrlParser.processPath, if_pos none]
      exact ⟨⟨rfl, rfl, rfl, rfl, rfl⟩, rfl, rfl⟩
    · rw [PeoplesUrlParser.processPath, if_neg none, fresh.processQuery]
      exact (UrlParts.processName_parts p).trans (UrlParts.processExtension_parts _)
  exact path.trans ((UrlParts.cleanPath_parts _).trans (UrlParts.rebuildUrl_parts _))

/-- The fields that come from the path, and the url, where there is no query and no fragment. -/
theorem Fresh.fields {p : PeoplesUrlParser} (fresh : Fresh p) :
    p.processPath.cleanPath.rebuildUrl.path = settled (dropColon p.path) ∧
      p.processPath.cleanPath.rebuildUrl.name = nameOf p.path ∧
      p.processPath.cleanPath.rebuildUrl.extension = extensionOf (nameOf p.path) ∧
      p.processPath.cleanPath.rebuildUrl.base_name = baseOf (nameOf p.path) ∧
      p.processPath.cleanPath.rebuildUrl.url = p.root ++ settled (dropColon p.path) := by
  obtain ⟨path, name, extension, base⟩ := fresh.processPath
  obtain ⟨name', base', extension'⟩ := rebuildUrl_name p.processPath
  have path' : p.processPath.cleanPath.rebuildUrl.path = settled (dropColon p.path) := by
    rw [rebuildUrl_path_eq, cleanPath_path, path]
    rfl
  have all := fresh.parts
  have url : p.processPath.cleanPath.rebuildUrl.url = p.processPath.cleanPath.rebuildUrl.root ++
      p.processPath.cleanPath.rebuildUrl.path ++ mark question p.processPath.cleanPath.rebuildUrl.query ++
      mark hash p.processPath.cleanPath.rebuildUrl.fragment := rfl
  refine ⟨path', name'.trans name, extension'.trans extension, base'.trans base, ?_⟩
  rw [url, path', all.query, all.fragment, fresh.query, fresh.fragment]
  unfold root
  rw [all.root.scheme, all.root.user, all.root.password, all.root.host, all.root.port]
  simp [mark]

/-! The parts in front of the path -/

/- A scheme that `hasScheme` takes. -/
def IsScheme (s : Str) : Prop := ∃ c rest, s = c :: rest ∧ isalpha c = true ∧ ∀ d ∈ rest, schemeChar d = true

/-- What the parts are known to have in them. -/
structure Cut (p : PeoplesUrlParser) : Prop where
  scheme : p.scheme = [] ∨ IsScheme p.scheme
  user : atSign ∉ p.user ∧ colon ∉ p.user
  password : atSign ∉ p.password
  host : slash ∉ p.host ∧ colon ∉ p.host
  port : slash ∉ p.port

/- The parser at the start. -/
def start (url scheme : Str) : PeoplesUrlParser := { mRawUrl := url, url := url, scheme := scheme }

/- What is behind the scheme. -/
def processRest (p : PeoplesUrlParser) (pastTheScheme : Str) : PeoplesUrlParser :=
  if pastTheScheme.take 2 = [slash, slash] then p.processAuthority pastTheScheme else { p with path := pastTheScheme }

theorem IsScheme.colon {s : Str} (scheme : IsScheme s) : colon ∉ s := by
  obtain ⟨c, rest, rfl, alpha, chars⟩ := scheme
  intro member
  rcases List.mem_cons.mp member with rfl | inside
  · exact absurd alpha (by decide)
  · exact absurd (chars Meatloaf.colon inside) (by decide)

theorem hasScheme_append {a : Str} (plain : colon ∉ a) (b : Str) : hasScheme (a ++ colon :: b) = true ↔ IsScheme a := by
  unfold hasScheme
  rw [find_first plain]
  dsimp only
  rw [List.take_left' rfl]
  cases a with
  | nil =>
    refine iff_of_false (by simp) ?_
    rintro ⟨c, rest, no, -⟩
    cases no
  | cons c a =>
    constructor
    · intro has
      simp only [List.length_cons, List.cons_append, List.head?_cons, Option.map_some, Option.getD_some,
        List.drop_succ_cons, List.drop_zero, Bool.and_eq_true, bne_iff_ne, List.all_eq_true] at has
      exact ⟨c, a, rfl, has.1.2, has.2⟩
    · rintro ⟨c', a', same, alpha, chars⟩
      cases same
      simp [alpha]
      exact chars

theorem hasScheme_cases (u : Str) : hasScheme u = false ∨ ∃ s rest, u = s ++ colon :: rest ∧ IsScheme s := by
  by_cases there : colon ∈ u
  · obtain ⟨a, b, rfl, plain⟩ := List.eq_append_cons_of_mem there
    by_cases scheme : IsScheme a
    · exact .inr ⟨a, b, rfl, scheme⟩
    · exact .inl (eq_false_of_ne_true fun has => scheme ((hasScheme_append plain b).mp has))
  · left
    rw [hasScheme, find_none there]

theorem processScheme_eq (u : Str) : processScheme u =
    processRest (start u (if hasScheme u = true then (split colon 1 u).getD 0 [] else []))
      (if hasScheme u = true then (split colon 1 u).getD 1 [] else u) := rfl

theorem processScheme_scheme {s rest : Str} (scheme : IsScheme s) :
    processScheme (s ++ colon :: rest) = processRest (start (s ++ colon :: rest) s) rest := by
  have has := (hasScheme_append scheme.colon rest).mpr scheme
  have parts : split colon 1 (s ++ colon :: rest) = [s, rest] := split_first 0 s rest scheme.colon
  rw [processScheme_eq, if_pos has, if_pos has, parts]
  rfl

theorem processScheme_plain {u : Str} (plain : hasScheme u = false) : processScheme u = processRest (start u []) u := by
  have no : ¬ hasScheme u = true := by rw [plain]; exact Bool.false_ne_true
  rw [processScheme_eq, if_neg no, if_neg no]

/-! Host and port, user and password -/

theorem mark_mem {c ch : UInt8} {part : Str} (plain : c ∉ part) (other : c ≠ ch) : c ∉ mark ch part := by
  unfold mark
  split
  · exact List.not_mem_nil
  · exact fun member => (List.mem_cons.mp member).elim other plain

/- A text is cut at the first colon, or is the first part. -/
theorem split_mark {a : Str} (plain : colon ∉ a) (b : Str) :
    (split colon 1 (a ++ mark colon b)).getD 0 [] = a ∧ (split colon 1 (a ++ mark colon b)).length = (if b = [] then 1 else 2) ∧
      (b ≠ [] → (split colon 1 (a ++ mark colon b)).getD 1 [] = b) := by
  unfold mark
  by_cases none : b = []
  · rw [if_pos none, List.append_nil, split_whole 1 plain]
    exact ⟨rfl, by simp [none], fun no => absurd none no⟩
  · have parts : split colon 1 (a ++ colon :: b) = [a, b] := split_first 0 a b plain
    rw [if_neg none, parts]
    exact ⟨rfl, by simp [none], fun _ => rfl⟩

theorem processHostPort_mark {p : PeoplesUrlParser} {host port : Str} (plain : colon ∉ host) (fresh : p.port = []) :
    p.processHostPort (host ++ mark colon port) = { p with host := host, port := port } := by
  obtain ⟨first, length, second⟩ := split_mark plain port
  unfold processHostPort
  dsimp only
  rw [first, length]
  by_cases none : port = []
  · simp [none, fresh]
  · simpa [none] using second none

theorem processUserPass_mark {p : PeoplesUrlParser} {user password : Str} (plain : colon ∉ user) (fresh : p.password = []) :
    p.processUserPass (user ++ mark colon password) = { p with user := user, password := password } := by
  obtain ⟨first, length, second⟩ := split_mark plain password
  unfold processUserPass
  dsimp only
  rw [first, length]
  by_cases none : password = []
  · simp [none, fresh]
  · simpa [none] using second none

/- The text in front of the first of a character, and the text behind it. -/
def upTo (ch : UInt8) (s : Str) : Str := s.takeWhile (· ≠ ch)
def past (ch : UInt8) (s : Str) : Str := (s.dropWhile (· ≠ ch)).drop 1

theorem upTo_bare (ch : UInt8) (s : Str) : ch ∉ upTo ch s := fun member => by
  simpa using List.mem_takeWhile_imp member

theorem cut_first {ch : UInt8} {a : Str} (plain : ch ∉ a) (b : Str) :
    upTo ch (a ++ ch :: b) = a ∧ (a ++ ch :: b).dropWhile (· ≠ ch) = ch :: b ∧ past ch (a ++ ch :: b) = b := by
  have front : ∀ c ∈ a, decide (c ≠ ch) = true := fun c member => by
    simpa using fun same : c = ch => plain (same ▸ member)
  have behind : (a ++ ch :: b).dropWhile (· ≠ ch) = ch :: b := by
    rw [List.dropWhile_append_of_pos front]
    simp
  refine ⟨?_, behind, ?_⟩
  · rw [upTo, List.takeWhile_append_of_pos front]
    simp
  · rw [past, behind]
    rfl

theorem cut_plain {ch : UInt8} {s : Str} (plain : ch ∉ s) :
    upTo ch s = s ∧ s.dropWhile (· ≠ ch) = [] ∧ past ch s = [] := by
  have all : ∀ c ∈ s, decide (c ≠ ch) = true := fun c member => by
    simpa using fun same : c = ch => plain (same ▸ member)
  have behind : s.dropWhile (· ≠ ch) = [] := List.dropWhile_eq_nil_iff.mpr all
  exact ⟨List.takeWhile_eq_self_iff.mpr all, behind, by rw [past, behind]; rfl⟩

theorem cut_count {c ch : UInt8} (other : c ≠ ch) (s : Str) : (upTo ch s).count c + (past ch s).count c = s.count c := by
  by_cases there : ch ∈ s
  · obtain ⟨a, b, rfl, plain⟩ := List.eq_append_cons_of_mem there
    obtain ⟨front, -, back⟩ := cut_first plain b
    rw [front, back, List.count_append, List.count_cons_of_ne (Ne.symm other)]
  · obtain ⟨front, -, back⟩ := cut_plain there
    rw [front, back, List.count_nil, Nat.add_zero]

/- The parts of a text that is cut at the colon. -/
theorem split_cut (text : Str) : (split colon 1 text).getD 0 [] = upTo colon text ∧
    (if 1 < (split colon 1 text).length then (split colon 1 text).getD 1 [] else []) = past colon text := by
  by_cases there : colon ∈ text
  · obtain ⟨a, b, rfl, plain⟩ := List.eq_append_cons_of_mem there
    obtain ⟨front, -, back⟩ := cut_first plain b
    have parts : split colon 1 (a ++ colon :: b) = [a, b] := split_first 0 a b plain
    rw [parts, front, back]
    exact ⟨rfl, rfl⟩
  · obtain ⟨front, -, back⟩ := cut_plain there
    rw [split_whole 1 there, front, back]
    exact ⟨rfl, rfl⟩

theorem processHostPort_eq (text : Str) {p : PeoplesUrlParser} (fresh : p.port = []) :
    p.processHostPort text = { p with host := upTo colon text, port := past colon text } := by
  obtain ⟨front, back⟩ := split_cut text
  rw [processHostPort, front, fresh, back]

theorem processUserPass_eq (text : Str) {p : PeoplesUrlParser} (fresh : p.password = []) :
    p.processUserPass text = { p with user := upTo colon text, password := past colon text } := by
  obtain ⟨front, back⟩ := split_cut text
  have some := List.length_pos_iff.mpr (split_ne_nil colon 1 text)
  unfold processUserPass
  dsimp only
  rw [front]
  by_cases one : (split colon 1 text).length = 1
  · rw [if_neg (by omega)] at back
    rw [if_pos one, ← back, ← fresh]
  · rw [if_pos (by omega)] at back
    rw [if_neg one, back]

theorem processAuthorityPath_cases (text : Str) (p : PeoplesUrlParser) (fresh : p.port = []) (fresh' : p.path = []) :
    ∃ host port path, (colon ∉ host ∧ slash ∉ host) ∧ slash ∉ port ∧
      p.processAuthorityPath text = { p with host := host, port := port, path := path } ∧
      ∀ c, c ≠ colon → host.count c + port.count c + path.count c = text.count c := by
  -- the text is cut in front of the first slash, if it has one
  have cut : ∃ front path, text = front ++ path ∧ slash ∉ front ∧
      p.processAuthorityPath text = { p.processHostPort front with path := path } := by
    unfold processAuthorityPath
    by_cases there : slash ∈ text
    · obtain ⟨front, rest, rfl, plain⟩ := List.eq_append_cons_of_mem there
      rw [find_first plain]
      refine ⟨front, slash :: rest, rfl, plain, ?_⟩
      simp only [Option.some_or, List.take_left' rfl, List.drop_left' rfl]
    · rw [find_none there, Option.none_or]
      cases (find question text).or (find hash text) with
      | none =>
        exact ⟨text, [], (List.append_nil _).symm, there, by simp only [processHostPort_eq text fresh, ← fresh']⟩
      | some pos =>
        exact ⟨text.take pos, text.drop pos, (List.take_append_drop pos text).symm,
          fun member => there (List.mem_of_mem_take member), rfl⟩
  obtain ⟨front, path, rfl, plain, whole⟩ := cut
  have none := cut_count (show slash ≠ colon by decide) front
  rw [List.count_eq_zero.mpr plain] at none
  refine ⟨upTo colon front, past colon front, path, ⟨upTo_bare colon front, List.count_eq_zero.mp (by omega)⟩,
    List.count_eq_zero.mp (by omega), ?_, fun c other => ?_⟩
  · rw [whole, processHostPort_eq front fresh]
  · rw [cut_count other, List.count_append]

theorem processAuthorityPath_mark {p : PeoplesUrlParser} {host port : Str} (cut : colon ∉ host) (bare : slash ∉ host)
    (bare' : slash ∉ port) (fresh : p.port = []) (tail : Str) :
    p.processAuthorityPath (host ++ mark colon port ++ slash :: tail) =
      { p with host := host, port := port, path := slash :: tail } := by
  have plain : slash ∉ host ++ mark colon port := by
    rw [List.mem_append, not_or]
    exact ⟨bare, mark_mem bare' (by decide)⟩
  unfold processAuthorityPath
  rw [find_first plain]
  simp only [Option.some_or, List.take_left' rfl, List.drop_left' rfl]
  rw [processHostPort_mark cut fresh]

theorem processAuthority_plain {text : Str} (plain : atSign ∉ text) (p : PeoplesUrlParser) :
    p.processAuthority (slash :: slash :: text) = p.processAuthorityPath text := by
  have whole : atSign ∉ slash :: slash :: text := by
    rw [List.mem_cons, List.mem_cons]
    exact fun member => member.elim (by decide) fun more => more.elim (by decide) plain
  unfold processAuthority
  rw [split_whole 1 whole]
  rfl

theorem processAuthority_sign {login : Str} (plain : atSign ∉ login) (text : Str) (p : PeoplesUrlParser) :
    p.processAuthority (slash :: slash :: (login ++ atSign :: text)) =
      (p.processUserPass login).processAuthorityPath text := by
  have whole : atSign ∉ slash :: slash :: login := by
    rw [List.mem_cons, List.mem_cons]
    exact fun member => member.elim (by decide) fun more => more.elim (by decide) plain
  have parts : split atSign 1 (slash :: slash :: (login ++ atSign :: text)) = [slash :: slash :: login, text] :=
    split_first 0 (slash :: slash :: login) text whole
  unfold processAuthority
  rw [parts]
  rfl

theorem take_two {text : Str} (marked : text.take 2 = [slash, slash]) : ∃ rest, text = slash :: slash :: rest :=
  ⟨text.drop 2, by rw [← List.take_append_drop 2 text, marked]; simp⟩

/- The parts that an authority is cut into, and how often a character other than the colon is in them. -/
theorem processAuthority_cases (rest url scheme : Str) : ∃ user password host port path,
    (start url scheme).processAuthority (slash :: slash :: rest) =
      { start url scheme with user := user, password := password, host := host, port := port, path := path } ∧
    (atSign ∉ user ∧ colon ∉ user) ∧ atSign ∉ password ∧ (slash ∉ host ∧ colon ∉ host) ∧ slash ∉ port ∧
    ∀ c, c ≠ colon → user.count c + password.count c + host.count c + port.count c + path.count c +
      (if c = atSign ∧ atSign ∈ rest then 1 else 0) = rest.count c := by
  by_cases sign : atSign ∈ rest
  · obtain ⟨login, text, rfl, plain⟩ := List.eq_append_cons_of_mem sign
    obtain ⟨host, port, path, host', port', parts', counts'⟩ := processAuthorityPath_cases text
      { start url scheme with user := upTo colon login, password := past colon login } rfl rfl
    have signs := cut_count (show atSign ≠ colon by decide) login
    rw [List.count_eq_zero.mpr plain] at signs
    refine ⟨upTo colon login, past colon login, host, port, path, ?_, ⟨List.count_eq_zero.mp (by omega), upTo_bare colon login⟩,
      List.count_eq_zero.mp (by omega), host'.symm, port', fun c other => ?_⟩
    · rw [processAuthority_sign plain, processUserPass_eq login rfl, parts']
    · have front := cut_count other login
      have back := counts' c other
      rw [List.count_append, List.count_cons]
      simp only [sign, and_true, beq_iff_eq, @eq_comm _ atSign c]
      omega
  · obtain ⟨host, port, path, host', port', parts', counts'⟩ := processAuthorityPath_cases rest (start url scheme) rfl rfl
    refine ⟨[], [], host, port, path, ?_, ⟨List.not_mem_nil, List.not_mem_nil⟩, List.not_mem_nil, host'.symm, port',
      fun c other => ?_⟩
    · rw [processAuthority_plain sign, parts']
      rfl
    · have back := counts' c other
      simp only [sign, and_false, if_false, List.count_nil]
      omega

theorem processRest_plain {text : Str} (unmarked : text.take 2 ≠ [slash, slash]) (url scheme : Str) :
    processRest (start url scheme) text = { start url scheme with path := text } := if_neg unmarked

theorem processRest_scheme (url scheme text : Str) : (processRest (start url scheme) text).scheme = scheme := by
  by_cases marked : text.take 2 = [slash, slash]
  · obtain ⟨rest, rfl⟩ := take_two marked
    obtain ⟨user, password, host, port, path, parts, -⟩ := processAuthority_cases rest url scheme
    rw [processRest, if_pos marked, parts]
    rfl
  · rw [processRest_plain marked]
    rfl

/- No character but the colon is there more often than it was. -/
theorem processRest_counts (url scheme text : Str) {c : UInt8} (other : c ≠ colon) :
    (processRest (start url scheme) text).user.count c + (processRest (start url scheme) text).password.count c +
      (processRest (start url scheme) text).host.count c + (processRest (start url scheme) text).port.count c +
      (processRest (start url scheme) text).path.count c ≤ text.count c := by
  by_cases marked : text.take 2 = [slash, slash]
  · obtain ⟨rest, rfl⟩ := take_two marked
    obtain ⟨user, password, host, port, path, parts, -, -, -, -, counts⟩ := processAuthority_cases rest url scheme
    have all := counts c other
    rw [processRest, if_pos marked, parts]
    dsimp only
    rw [List.count_cons, List.count_cons]
    omega
  · rw [processRest_plain marked]
    simp [start]

/-- The parts of any url without a query and a fragment. -/
theorem processRest_cut {url scheme text : Str} (ok : scheme = [] ∨ IsScheme scheme) (unasked : question ∉ text)
    (unhashed : hash ∉ text) :
    Cut (processRest (start url scheme) text) ∧ Fresh (processRest (start url scheme) text) := by
  have below {c : UInt8} (other : c ≠ colon) (plain : c ∉ text) : c ∉ (processRest (start url scheme) text).path := by
    have counts := processRest_counts url scheme text other
    rw [List.count_eq_zero.mpr plain] at counts
    exact List.count_eq_zero.mp (by omega)
  have unasked' := below (by decide) unasked
  have unhashed' := below (by decide) unhashed
  by_cases marked : text.take 2 = [slash, slash]
  · obtain ⟨rest, rfl⟩ := take_two marked
    obtain ⟨user, password, host, port, path, parts, user', password', host', port', -⟩ := processAuthority_cases rest url scheme
    rw [processRest, if_pos marked, parts] at unasked' unhashed' ⊢
    exact ⟨⟨ok, user', password', host', port'⟩, rfl, rfl, rfl, rfl, rfl, unasked', unhashed'⟩
  · rw [processRest_plain marked] at unasked' unhashed' ⊢
    exact ⟨⟨ok, ⟨List.not_mem_nil, List.not_mem_nil⟩, List.not_mem_nil, ⟨List.not_mem_nil, List.not_mem_nil⟩,
      List.not_mem_nil⟩, rfl, rfl, rfl, rfl, rfl, unasked', unhashed'⟩

theorem processScheme_cut {u : Str} (unasked : question ∉ u) (unhashed : hash ∉ u) :
    Cut (processScheme u) ∧ Fresh (processScheme u) := by
  rcases hasScheme_cases u with plain | ⟨s, rest, rfl, scheme⟩
  · rw [processScheme_plain plain]
    exact processRest_cut (.inl rfl) unasked unhashed
  · rw [processScheme_scheme scheme]
    exact processRest_cut (.inr scheme) (fun member => unasked (by simp [member])) fun member => unhashed (by simp [member])

/-! The url again -/

/- What the parser puts together behind the scheme. -/
def restOf (p : PeoplesUrlParser) (path : Str) : Str :=
  (if p.host = [] then [] else [slash, slash]) ++
    (if p.user = [] then [] else p.user ++ mark colon p.password ++ [atSign]) ++ p.host ++ mark colon p.port ++ path

theorem root_rest (p : PeoplesUrlParser) (path : Str) :
    p.root ++ path = (if p.scheme = [] then [] else p.scheme ++ [colon]) ++ p.restOf path := by
  simp [root, restOf, List.append_assoc]

/- The scheme is found again, unless there is none and the rest has one. -/
theorem processScheme_root {p : PeoplesUrlParser} (cut : Cut p) (path : Str)
    (plain : p.scheme = [] → hasScheme (p.restOf path) = false) :
    ∃ url, processScheme (p.root ++ path) = processRest (start url p.scheme) (p.restOf path) := by
  rw [root_rest]
  rcases cut.scheme with none | scheme
  · rw [if_pos none, List.nil_append, none]
    exact ⟨_, processScheme_plain (plain none)⟩
  · have some : p.scheme ≠ [] := by
      obtain ⟨c, rest, cons, -⟩ := scheme
      rw [cons]
      exact List.cons_ne_nil _ _
    rw [if_neg some, List.append_assoc]
    exact ⟨_, processScheme_scheme scheme⟩

theorem hasScheme_head {c : UInt8} (letter : isalpha c = false) (rest : Str) : hasScheme (c :: rest) = false := by
  rcases hasScheme_cases (c :: rest) with plain | ⟨s, rest', cons, ⟨c', s', rfl, alpha, -⟩⟩
  · exact plain
  · rw [List.cons_append, List.cons.injEq] at cons
    rw [cons.1, alpha] at letter
    cases letter

/-- When the host, the port and the path are found again. -/
def Readable (p : PeoplesUrlParser) (path : Str) : Prop :=
  if p.host ≠ [] then p.user ≠ [] ∨ (atSign ∉ p.host ∧ atSign ∉ p.port ∧ atSign ∉ path)
  else if p.user = [] then p.port = [] else [slash, slash] <+: p.user

variable {p : PeoplesUrlParser} {path : Str}

/- The login in front of an authority. -/
theorem login_plain (cut : Cut p) : atSign ∉ p.user ++ mark colon p.password := by
  rw [List.mem_append, not_or]
  exact ⟨cut.user.1, mark_mem cut.password (by decide)⟩

/-- Where the parts are readable, the parser has them again before it looks into the path. -/
theorem processScheme_readable (cut : Cut p) {tail : Str} (open_ : tail.head? ≠ some slash)
    (readable : Readable p (slash :: tail)) :
    (processScheme (p.root ++ slash :: tail)).scheme = p.scheme ∧
      (processScheme (p.root ++ slash :: tail)).host = p.host ∧
      (processScheme (p.root ++ slash :: tail)).port = p.port ∧
      (processScheme (p.root ++ slash :: tail)).path = slash :: tail := by
  have no : isalpha slash = false := by decide
  have authority {rest : Str} (rest_ : p.restOf (slash :: tail) = slash :: slash :: rest) :
      ∃ url, processScheme (p.root ++ slash :: tail) = (start url p.scheme).processAuthority (slash :: slash :: rest) := by
    obtain ⟨url, again⟩ := processScheme_root cut (slash :: tail) fun _ => by rw [rest_]; exact hasScheme_head no _
    exact ⟨url, by rw [again, rest_]; exact if_pos rfl⟩
  unfold Readable at readable
  by_cases host : p.host = []
  · rw [if_neg (not_not.mpr host)] at readable
    by_cases user : p.user = []
    · rw [if_pos user] at readable
      have rest : p.restOf (slash :: tail) = slash :: tail := by simp [restOf, host, user, readable, mark]
      obtain ⟨url, again⟩ := processScheme_root cut (slash :: tail) fun _ => by rw [rest]; exact hasScheme_head no _
      have single : (slash :: tail).take 2 ≠ [slash, slash] := by
        intro two
        obtain ⟨more, same⟩ := take_two two
        rw [List.cons.injEq] at same
        exact open_ (by rw [same.2]; rfl)
      rw [again, rest, processRest, if_neg single, host, readable]
      exact ⟨rfl, rfl, rfl, rfl⟩
    · rw [if_neg user] at readable
      obtain ⟨user', user_⟩ := readable
      have inside : atSign ∉ user' ∧ colon ∉ user' := by
        constructor
        · exact fun member => cut.user.1 (by rw [← user_]; simp [member])
        · exact fun member => cut.user.2 (by rw [← user_]; simp [member])
      have plain : atSign ∉ user' ++ mark colon p.password := by
        rw [List.mem_append, not_or]
        exact ⟨inside.1, fun member => login_plain cut (List.mem_append_right _ member)⟩
      have rest : p.restOf (slash :: tail) =
          slash :: slash :: ((user' ++ mark colon p.password) ++ atSign :: ([] ++ mark colon p.port ++ slash :: tail)) := by
        simp [restOf, host, ← user_]
      obtain ⟨url, again⟩ := authority rest
      rw [again, processAuthority_sign plain, processUserPass_mark inside.2 rfl,
        processAuthorityPath_mark List.not_mem_nil List.not_mem_nil cut.port rfl, host]
      exact ⟨rfl, rfl, rfl, rfl⟩
  · rw [if_pos host] at readable
    by_cases user : p.user = []
    · have signs := readable.resolve_left (not_not.mpr user)
      have rest : p.restOf (slash :: tail) = slash :: slash :: (p.host ++ mark colon p.port ++ slash :: tail) := by
        simp [restOf, host, user]
      obtain ⟨url, again⟩ := authority rest
      have plain : atSign ∉ p.host ++ mark colon p.port ++ slash :: tail := by
        rw [List.mem_append, List.mem_append]
        rintro ((no | no) | no)
        · exact signs.1 no
        · exact mark_mem signs.2.1 (by decide) no
        · exact signs.2.2 no
      rw [again, processAuthority_plain plain, processAuthorityPath_mark cut.host.2 cut.host.1 cut.port rfl]
      exact ⟨rfl, rfl, rfl, rfl⟩
    · have rest : p.restOf (slash :: tail) =
          slash :: slash :: ((p.user ++ mark colon p.password) ++ atSign :: (p.host ++ mark colon p.port ++ slash :: tail)) := by
        simp [restOf, host, user]
      obtain ⟨url, again⟩ := authority rest
      rw [again, processAuthority_sign (login_plain cut), processUserPass_mark cut.user.2 rfl,
        processAuthorityPath_mark cut.host.2 cut.host.1 cut.port rfl]
      exact ⟨rfl, rfl, rfl, rfl⟩

/- What the parts have none of is not in the url that is put together from them. -/
theorem root_plain {u : Str} {c : UInt8} (plain : c ∉ u) (other : c ≠ colon ∧ c ≠ slash ∧ c ≠ atSign) :
    c ∉ (processScheme u).root := by
  have parts : c ∉ (processScheme u).scheme ∧ c ∉ (processScheme u).user ∧ c ∉ (processScheme u).password ∧
      c ∉ (processScheme u).host ∧ c ∉ (processScheme u).port := by
    have behind (url scheme text : Str) (front : c ∉ scheme) (back : c ∉ text) :
        c ∉ (processRest (start url scheme) text).scheme ∧ c ∉ (processRest (start url scheme) text).user ∧
          c ∉ (processRest (start url scheme) text).password ∧ c ∉ (processRest (start url scheme) text).host ∧
          c ∉ (processRest (start url scheme) text).port := by
      have counts := processRest_counts url scheme text other.1
      rw [List.count_eq_zero.mpr back] at counts
      rw [processRest_scheme]
      exact ⟨front, List.count_eq_zero.mp (by omega), List.count_eq_zero.mp (by omega),
        List.count_eq_zero.mp (by omega), List.count_eq_zero.mp (by omega)⟩
    rcases hasScheme_cases u with none | ⟨s, rest, rfl, scheme⟩
    · rw [processScheme_plain none]
      exact behind u [] u List.not_mem_nil plain
    · rw [processScheme_scheme scheme]
      exact behind _ s rest (fun member => plain (by simp [member])) fun member => plain (by simp [member])
  obtain ⟨scheme, user, password, host, port⟩ := parts
  have password' := mark_mem password other.1
  have port' := mark_mem port other.1
  unfold root
  intro member
  simp only [List.mem_append] at member
  rcases member with (((member | member) | member) | member) | member
  · split at member
    · cases member
    · simp [scheme, other.1] at member
  · split at member
    · cases member
    · simp [other.2.1] at member
  · split at member
    · cases member
    · simp [user, password', other.2.2] at member
  · exact host member
  · exact port' member

/-! The path without its colon -/

theorem dropColon_plain {path : Str} (plain : colon ∉ path) : dropColon path = path := by
  rw [dropColon, find_none plain]

theorem dropColon_append {a : Str} (plain : colon ∉ a) (b : Str) : dropColon (a ++ colon :: b) = a ++ b := by
  have cut : a ++ colon :: b = (a ++ [colon]) ++ b := by simp
  rw [dropColon, find_first plain]
  dsimp only
  rw [List.take_left' rfl, cut, List.drop_left' (by simp)]

theorem nameOf_append {a : Str} (plain : colon ∉ a) (b : Str) : nameOf (a ++ colon :: b) = b := by
  have cut : a ++ colon :: b = (a ++ [colon]) ++ b := by simp
  rw [nameOf, find_first plain]
  dsimp only
  rw [cut, List.drop_left' (by simp)]

theorem nameOf_plain {path : Str} (plain : colon ∉ path) : nameOf path = urlName path := by
  rw [nameOf, find_none plain]

theorem dropColon_count (path : Str) (c : UInt8) : (dropColon path).count c ≤ path.count c := by
  by_cases there : colon ∈ path
  · obtain ⟨a, b, rfl, plain⟩ := List.eq_append_cons_of_mem there
    rw [dropColon_append plain, List.count_append, List.count_append]
    exact Nat.add_le_add_left List.count_le_count_cons _
  · rw [dropColon_plain there]

theorem dropColon_fewer {path : Str} (there : colon ∈ path) : (dropColon path).count colon < path.count colon := by
  obtain ⟨a, b, rfl, plain⟩ := List.eq_append_cons_of_mem there
  rw [dropColon_append plain, List.count_append, List.count_append, List.count_cons_self]
  omega

/- With its colon a path is another than the one that is settled without it. -/
theorem settled_dropColon {path : Str} (there : colon ∈ path) : settled (dropColon path) ≠ path := by
  intro same
  have fewer := dropColon_fewer there
  have counts := count_settled (show colon ≠ slash by decide) (dropColon path)
  rw [same] at counts
  omega

theorem settled_dropColon_count {c : UInt8} (other : c ≠ slash) (path : Str) :
    (settled (dropColon path)).count c ≤ path.count c :=
  (count_settled other _).trans (dropColon_count path c)

/-! The url that is put together and read again -/

section again

variable {dirs : List Str} {ends : Bool}

/-- With a login that no authority is in front of, the path has it in it, or the login is a scheme. -/
theorem login_apart (cut : Cut p) (clean : ∀ d ∈ dirs, Component d) (dotless : Dotless dirs) (host : p.host = [])
    (user : p.user ≠ []) (bare : ¬ [slash, slash] <+: p.user)
    (plain : p.scheme = [] → hasScheme (p.restOf (canonicalForm dirs ends)) = false) :
    (processScheme (p.root ++ canonicalForm dirs ends)).port ≠ p.port ∨
      settled (dropColon (processScheme (p.root ++ canonicalForm dirs ends)).path) ≠ canonicalForm dirs ends := by
  have rest : p.restOf (canonicalForm dirs ends) =
      p.user ++ mark colon p.password ++ atSign :: (mark colon p.port ++ canonicalForm dirs ends) := by
    simp [restOf, host, user]
  have unmarked : (p.restOf (canonicalForm dirs ends)).take 2 ≠ [slash, slash] := by
    intro two
    rw [rest] at two
    obtain ⟨a, user', same⟩ := List.exists_cons_of_ne_nil user
    rw [same] at two bare
    cases user' with
    | nil =>
      unfold mark at two
      split at two
      · cases two
      · cases two
    | cons b user' =>
      cases two
      exact bare ⟨user', rfl⟩
  obtain ⟨url, again⟩ := processScheme_root cut (canonicalForm dirs ends) plain
  rw [again, processRest_plain unmarked]
  by_cases port : p.port = []
  · right
    dsimp only
    rw [rest, port]
    have none : mark colon [] ++ canonicalForm dirs ends = canonicalForm dirs ends := rfl
    rw [none]
    by_cases password : p.password = []
    · have whole : p.user ++ mark colon p.password = p.user := by simp [mark, password]
      rw [whole]
      by_cases there : colon ∈ canonicalForm dirs ends
      · obtain ⟨a, b, form, plain⟩ := List.eq_append_cons_of_mem there
        have front : colon ∉ p.user ++ atSign :: a := by
          rw [List.mem_append, List.mem_cons]
          exact fun member => member.elim cut.user.2 fun more => more.elim (by decide) plain
        have cut' : p.user ++ atSign :: canonicalForm dirs ends = (p.user ++ atSign :: a) ++ colon :: b := by simp [form]
        rw [cut', dropColon_append front]
        intro same
        have fewer := count_settled (show colon ≠ slash by decide) ((p.user ++ atSign :: a) ++ b)
        rw [same, form, List.count_append, List.count_append, List.count_cons_self, List.count_eq_zero.mpr front] at fewer
        omega
      · rw [dropColon_plain]
        · exact settled_sign p.user clean dotless
        · rw [List.mem_append, List.mem_cons]
          exact fun member => member.elim cut.user.2 fun more => more.elim (by decide) there
    · have whole : p.user ++ mark colon p.password ++ atSign :: canonicalForm dirs ends =
          p.user ++ colon :: (p.password ++ atSign :: canonicalForm dirs ends) := by simp [mark, password]
      rw [whole, dropColon_append cut.user.2, ← List.append_assoc]
      exact settled_sign (p.user ++ p.password) clean dotless
  · left
    exact fun same => port same.symm

/- An '@' behind the host goes, where there is no login. -/
theorem sign_gone (cut : Cut p) (host : p.host ≠ []) (user : p.user = [])
    (sign : atSign ∈ p.host ∨ atSign ∈ p.port ∨ atSign ∈ path) :
    (processScheme (p.root ++ path)).host ≠ p.host ∨ (processScheme (p.root ++ path)).port ≠ p.port ∨
      settled (dropColon (processScheme (p.root ++ path)).path) ≠ path := by
  have rest : p.restOf path = slash :: slash :: (p.host ++ mark colon p.port ++ path) := by simp [restOf, host, user]
  obtain ⟨url, again⟩ := processScheme_root cut path fun _ => by rw [rest]; exact hasScheme_head (by decide) _
  have marked : (slash :: slash :: (p.host ++ mark colon p.port ++ path)).take 2 = [slash, slash] := rfl
  obtain ⟨user', password, host', port, path', parts, -, -, -, -, counts⟩ :=
    processAuthority_cases (p.host ++ mark colon p.port ++ path) url p.scheme
  have there : atSign ∈ p.host ++ mark colon p.port ++ path := by
    rw [List.mem_append, List.mem_append, or_assoc]
    refine sign.imp_right fun more => more.imp_left fun inside => ?_
    rw [mark, if_neg (List.ne_nil_of_mem inside)]
    exact List.mem_cons_of_mem _ inside
  have all := counts atSign (by decide)
  have port_ : (mark colon p.port).count atSign = p.port.count atSign := by
    unfold mark
    split
    · rename_i none
      rw [none]
    · exact List.count_cons_of_ne (by decide)
  rw [if_pos ⟨rfl, there⟩, List.count_append, List.count_append, port_] at all
  rw [again, rest, processRest, if_pos marked, parts]
  dsimp only
  by_contra same
  rw [not_or, not_or, not_not, not_not, not_not] at same
  obtain ⟨rfl, rfl, same⟩ := same
  have counts' := settled_dropColon_count (show atSign ≠ slash by decide) path'
  rw [same] at counts'
  omega

/-- What is not readable is read as something else. -/
theorem unreadable (cut : Cut p) (clean : ∀ d ∈ dirs, Component d) (dotless : Dotless dirs)
    (other : ¬ Readable p (canonicalForm dirs ends)) :
    (processScheme (p.root ++ canonicalForm dirs ends)).scheme ≠ p.scheme ∨
      (processScheme (p.root ++ canonicalForm dirs ends)).host ≠ p.host ∨
      (processScheme (p.root ++ canonicalForm dirs ends)).port ≠ p.port ∨
      settled (dropColon (processScheme (p.root ++ canonicalForm dirs ends)).path) ≠ canonicalForm dirs ends := by
  unfold Readable at other
  by_cases host : p.host = []
  · rw [if_neg (not_not.mpr host)] at other
    by_cases user : p.user = []
    · -- the port is behind nothing, and is taken for the path
      rw [if_pos user] at other
      have rest : p.restOf (canonicalForm dirs ends) = colon :: (p.port ++ canonicalForm dirs ends) := by
        simp [restOf, host, user, other, mark]
      obtain ⟨url, again⟩ := processScheme_root cut (canonicalForm dirs ends) fun _ => by
        rw [rest]
        exact hasScheme_head (by decide) _
      have unmarked : (p.restOf (canonicalForm dirs ends)).take 2 ≠ [slash, slash] := by
        rw [rest]
        intro two
        cases two
      refine .inr (.inr (.inl ?_))
      rw [again, processRest_plain unmarked]
      exact Ne.symm other
    · rw [if_neg user] at other
      by_cases plain : p.scheme = [] → hasScheme (p.restOf (canonicalForm dirs ends)) = false
      · exact .inr (.inr (login_apart cut clean dotless host user other plain))
      · -- the user is taken for a scheme
        left
        obtain ⟨none, has⟩ := Classical.not_imp.mp plain
        have whole : p.root ++ canonicalForm dirs ends = p.restOf (canonicalForm dirs ends) := by
          rw [root_rest, if_pos none, List.nil_append]
        rcases hasScheme_cases (p.restOf (canonicalForm dirs ends)) with no | ⟨s, rest, cons, scheme⟩
        · exact absurd no has
        · rw [whole, cons, processScheme_scheme scheme, processRest_scheme, none]
          obtain ⟨c, s, rfl, -⟩ := scheme
          exact List.cons_ne_nil _ _
  · rw [if_pos host, not_or, not_not] at other
    refine .inr (sign_gone cut host other.1 ?_)
    by_contra signs
    rw [not_or, not_or] at signs
    exact other.2 signs

theorem processScheme_again (cut : Cut p) (clean : ∀ d ∈ dirs, Component d) (readable : Readable p (canonicalForm dirs ends)) :
    (processScheme (p.root ++ canonicalForm dirs ends)).scheme = p.scheme ∧
      (processScheme (p.root ++ canonicalForm dirs ends)).host = p.host ∧
      (processScheme (p.root ++ canonicalForm dirs ends)).port = p.port ∧
      (processScheme (p.root ++ canonicalForm dirs ends)).path = canonicalForm dirs ends := by
  have single := @canonicalForm_single _ ends clean
  obtain ⟨tail, form, -⟩ := canonicalForm_cons dirs ends
  rw [form] at readable single ⊢
  refine processScheme_readable cut (fun head => ?_) readable
  cases tail with
  | nil => cases head
  | cons c tail => exact (List.isChain_cons_cons.mp single).1 ⟨rfl, Option.some.inj head⟩

/-- Where the path has no colon, and only there, what is readable has its fields again. -/
theorem readable_iff (cut : Cut p) (clean : ∀ d ∈ dirs, Component d) (dotless : Dotless dirs) :
    ((processScheme (p.root ++ canonicalForm dirs ends)).scheme = p.scheme ∧
        (processScheme (p.root ++ canonicalForm dirs ends)).host = p.host ∧
        (processScheme (p.root ++ canonicalForm dirs ends)).port = p.port ∧
        settled (dropColon (processScheme (p.root ++ canonicalForm dirs ends)).path) = canonicalForm dirs ends) ↔
      Readable p (canonicalForm dirs ends) ∧ colon ∉ canonicalForm dirs ends := by
  constructor
  · rintro ⟨scheme, host, port, path⟩
    have readable : Readable p (canonicalForm dirs ends) := by
      by_contra other
      rcases unreadable cut clean dotless other with no | no | no | no
      · exact no scheme
      · exact no host
      · exact no port
      · exact no path
    refine ⟨readable, fun there => ?_⟩
    rw [(processScheme_again cut clean readable).2.2.2] at path
    exact settled_dropColon there path
  · rintro ⟨readable, plain⟩
    obtain ⟨scheme, host, port, path⟩ := processScheme_again cut clean readable
    rw [path, dropColon_plain plain]
    exact ⟨scheme, host, port, settled_canonicalForm clean dotless ends⟩

end again

end Meatloaf.PeoplesUrlParser
