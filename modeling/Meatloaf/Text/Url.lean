import Meatloaf.Text.Numbers
import Meatloaf.Text.Paths

/-! `PeoplesUrlParser`: a url is cut at the first of each delimiter, and put together again. -/
namespace Meatloaf

def atSign : UInt8 := 0x40
def period : UInt8 := 0x2e

/-- `std::string::find` of a character. -/
def find (ch : UInt8) (s : Str) : Option Nat := s.findIdx? (· == ch)

/- The position of the first "://". -/
def findProtocol : Str → Option Nat
  | [] => none
  | c :: s => if [colon, slash, slash].isPrefixOf (c :: s) = true then some 0 else (findProtocol s).map (· + 1)

/-- `util_get_canonical_path` of any path; a protocol and its host are passed over. -/
def util_get_canonical_url (path : Str) : Str :=
  match findProtocol path with
  | none => util_get_canonical_path path
  | some proto =>
    let proto_host_len := ((find slash (path.drop (proto + 3))).map (proto + 3 + · + 1)).getD 0
    let res := path.take proto_host_len ++
      [slash].intercalate (canonical (splitPathComponents (path.drop proto_host_len)))
    if res ≠ [] ∧ res.getLast? ≠ some slash ∧ path.getLast? = some slash then res ++ [slash] else res

structure PeoplesUrlParser where
  mRawUrl : Str := []
  url : Str := []
  scheme : Str := []
  user : Str := []
  password : Str := []
  host : Str := []
  port : Str := []
  path : Str := []
  name : Str := []
  base_name : Str := []
  extension : Str := []
  query : Str := []
  fragment : Str := []
  deriving DecidableEq

namespace PeoplesUrlParser

/- A character of a scheme: a letter, a digit, '+', '-' or '.'. -/
def schemeChar (c : UInt8) : Bool := isalnum c || c == 0x2b || c == 0x2d || c == period

def hasScheme (u : Str) : Bool :=
  match find colon u with
  | none => false
  | some pos => pos != 0 && (u.head?.map isalpha).getD false && ((u.take pos).drop 1).all schemeChar

def processHostPort (hostPort : Str) (p : PeoplesUrlParser) : PeoplesUrlParser :=
  let byColon := split colon 1 hostPort
  { p with
    host := byColon.getD 0 []
    port := if 1 < byColon.length then byColon.getD 1 [] else p.port }

def processAuthorityPath (authorityPath : Str) (p : PeoplesUrlParser) : PeoplesUrlParser :=
  match ((find slash authorityPath).or (find question authorityPath)).or (find hash authorityPath) with
  | none => p.processHostPort authorityPath
  | some pos => { p.processHostPort (authorityPath.take pos) with path := authorityPath.drop pos }

def processUserPass (userPass : Str) (p : PeoplesUrlParser) : PeoplesUrlParser :=
  let byColon := split colon 1 userPass
  if byColon.length = 1 then { p with user := byColon.getD 0 [] }
  else { p with user := byColon.getD 0 [], password := byColon.getD 1 [] }

/- Everything behind the scheme is cut at the first '@'. -/
def processAuthority (pastTheColon : Str) (p : PeoplesUrlParser) : PeoplesUrlParser :=
  let byAtSign := split atSign 1 pastTheColon
  if byAtSign.length = 1 then p.processAuthorityPath ((byAtSign.getD 0 []).drop 2)
  else (p.processUserPass ((byAtSign.getD 0 []).drop 2)).processAuthorityPath (byAtSign.getD 1 [])

/- The query and the fragment are cut off the path. -/
def processQuery (p : PeoplesUrlParser) : PeoplesUrlParser :=
  match (find question p.path).or (find hash p.path) with
  | none => p
  | some pos =>
    let queryParts := split question 1 (p.path.drop pos)
    let fragmentParts := split hash 1 (queryParts.getLastD [])
    { p with
      query := if 1 < queryParts.length then fragmentParts.getD 0 [] else p.query
      fragment := if 1 < fragmentParts.length then fragmentParts.getD 1 [] else p.fragment
      path := p.path.take pos }

/- The name is behind a colon, which goes, or is the last piece. -/
def processName (p : PeoplesUrlParser) : PeoplesUrlParser :=
  match find colon p.path with
  | none => { p with name := urlName p.path }
  | some pos => { p with name := p.path.drop (pos + 1), path := p.path.take pos ++ p.path.drop (pos + 1) }

def processExtension (p : PeoplesUrlParser) : PeoplesUrlParser :=
  let nameParts := split period 9998 p.name
  let extension := if 1 < nameParts.length then nameParts.getLastD [] else p.extension
  { p with
    extension := extension
    base_name := if extension = [] then p.name else p.name.take (p.name.length - extension.length - 1) }

def processPath (p : PeoplesUrlParser) : PeoplesUrlParser :=
  if p.path = [] then p else p.processQuery.processName.processExtension

def cleanPath (p : PeoplesUrlParser) : PeoplesUrlParser :=
  if p.path = [] then p else { p with path := util_get_canonical_url p.path }

/- A part of a url behind its delimiter, if there is something of it. -/
def mark (ch : UInt8) (part : Str) : Str := if part = [] then [] else ch :: part

def root (p : PeoplesUrlParser) : Str :=
  (if p.scheme = [] then [] else p.scheme ++ [colon]) ++ (if p.host = [] then [] else [slash, slash]) ++
    (if p.user = [] then [] else p.user ++ mark colon p.password ++ [atSign]) ++ p.host ++ mark colon p.port

/-- `rebuildUrl`, which returns the url it sets. -/
def rebuildUrl (p : PeoplesUrlParser) : PeoplesUrlParser :=
  let p := cleanPath (if p.path.head? = some slash then p else { p with path := slash :: p.path })
  { p with url := p.root ++ p.path ++ mark question p.query ++ mark hash p.fragment }

/- What `resetURL` has before it looks into the path. -/
def processScheme (u : Str) : PeoplesUrlParser :=
  let byColon := split colon 1 u
  let scheme := if hasScheme u = true then byColon.getD 0 [] else []
  let pastTheScheme := if hasScheme u = true then byColon.getD 1 [] else u
  let p : PeoplesUrlParser := { mRawUrl := u, url := u, scheme := scheme }
  if pastTheScheme.take 2 = [slash, slash] then p.processAuthority pastTheScheme
  else { p with path := pastTheScheme }

/-- `parseURL`, which resets a new parser. -/
def parseURL (u : Str) : PeoplesUrlParser :=
  if u = [] then {} else (processScheme u).processPath.cleanPath.rebuildUrl

end PeoplesUrlParser

/- A part that no delimiter is in. -/
def Plain (s : Str) : Prop := ∀ c ∈ s, c ≠ colon ∧ c ≠ atSign ∧ c ≠ slash ∧ c ≠ question ∧ c ≠ hash

instance (s : Str) : Decidable (Plain s) :=
  inferInstanceAs (Decidable (∀ c ∈ s, c ≠ colon ∧ c ≠ atSign ∧ c ≠ slash ∧ c ≠ question ∧ c ≠ hash))

/-- What a url is composed from. A part may be there and have nothing in it. -/
structure UrlParts where
  scheme : Str
  login : Option (Str × Option Str)
  host : Str
  port : Option Str
  segments : List Str
  query : Option Str
  fragment : Option Str
  letter : ∃ c rest, scheme = c :: rest ∧ isalpha c = true ∧
    ∀ d ∈ rest, PeoplesUrlParser.schemeChar d = true
  plainLogin : ∀ user password, login = some (user, password) → Plain user ∧ ∀ s, password = some s → Plain s
  plainHost : Plain host
  plainPort : ∀ s, port = some s → Plain s
  names : ∀ d ∈ segments, Component d ∧ d ≠ dot ∧ d ≠ dotdot ∧ colon ∉ d ∧ question ∉ d ∧ hash ∉ d
  unhashed : ∀ s, query = some s → hash ∉ s

namespace UrlParts

/- A part behind its delimiter, if it is there. -/
def behind (ch : UInt8) : Option Str → Str
  | none => []
  | some part => ch :: part

def loginText : Option (Str × Option Str) → Str
  | none => []
  | some (user, password) => user ++ behind colon password ++ [atSign]

/- The path and what follows it. -/
def tail (p : UrlParts) : Str := rooted p.segments ++ behind question p.query ++ behind hash p.fragment

def compose (p : UrlParts) : Str :=
  p.scheme ++ colon :: slash :: slash :: (loginText p.login ++ (p.host ++ behind colon p.port ++ p.tail))

def user (p : UrlParts) : Str := (p.login.map Prod.fst).getD []
def password (p : UrlParts) : Str := (p.login.bind Prod.snd).getD []

/-- The parser has exactly the parts, and puts together what it was given. -/
def Recovered (p : UrlParts) : Prop :=
  let u := PeoplesUrlParser.parseURL p.compose
  u.scheme = p.scheme ∧ u.user = p.user ∧ u.password = p.password ∧ u.host = p.host ∧ u.port = p.port.getD [] ∧
    u.path = rooted p.segments ∧ u.query = p.query.getD [] ∧ u.fragment = p.fragment.getD [] ∧
    u.rebuildUrl.url = p.compose

/-- Nothing that is there is empty; without a login there is no '@' behind the host, and without
a query no '?' in the fragment. -/
structure Kept (p : UrlParts) : Prop where
  host : p.host ≠ []
  port : p.port ≠ some []
  login : ∀ user password, p.login = some (user, password) → user ≠ [] ∧ password ≠ some []
  query : p.query ≠ some []
  fragment : p.fragment ≠ some []
  unlogged : p.login = none → atSign ∉ p.tail
  unasked : p.query = none → ∀ s, p.fragment = some s → question ∉ s

end UrlParts

/- Where a delimiter is found -/

theorem find_first {ch : UInt8} {piece : Str} (plain : ch ∉ piece) (rest : Str) :
    find ch (piece ++ ch :: rest) = some piece.length := by
  induction piece with
  | nil => simp [find, List.findIdx?_cons]
  | cons c piece ih =>
    rw [List.mem_cons, not_or] at plain
    obtain ⟨other, below⟩ := plain
    have next := ih below
    unfold find at next ⊢
    rw [List.cons_append, List.findIdx?_cons, next]
    simp [Ne.symm other]

theorem find_none {ch : UInt8} {s : Str} (plain : ch ∉ s) : find ch s = none := by
  unfold find
  rw [List.findIdx?_eq_none_iff]
  intro c member
  simpa using fun same : c = ch => plain (same ▸ member)

theorem Plain.colon {s : Str} (plain : Plain s) : colon ∉ s := fun member => (plain _ member).1 rfl
theorem Plain.atSign {s : Str} (plain : Plain s) : atSign ∉ s := fun member => (plain _ member).2.1 rfl
theorem Plain.slash {s : Str} (plain : Plain s) : slash ∉ s := fun member => (plain _ member).2.2.1 rfl

namespace UrlParts

open PeoplesUrlParser

theorem scheme_plain (p : UrlParts) : colon ∉ p.scheme := by
  obtain ⟨c, rest, scheme, alpha, chars⟩ := p.letter
  rw [scheme]
  intro member
  rcases List.mem_cons.mp member with rfl | inside
  · exact absurd alpha (by decide)
  · exact absurd (chars colon inside) (by decide)

theorem compose_scheme (p : UrlParts) : hasScheme p.compose = true := by
  obtain ⟨c, rest, scheme, alpha, chars⟩ := p.letter
  have first := find_first p.scheme_plain
    (slash :: slash :: (loginText p.login ++ (p.host ++ behind colon p.port ++ p.tail)))
  unfold hasScheme compose
  rw [first]
  dsimp only
  rw [List.take_left' rfl, scheme]
  simp only [List.length_cons, List.cons_append, List.head?_cons, Option.map_some, alpha, Option.getD_some,
    List.drop_succ_cons, List.drop_zero, Bool.and_eq_true, bne_iff_ne]
  exact ⟨⟨Nat.succ_ne_zero _, trivial⟩, List.all_eq_true.mpr chars⟩

/- Host and port come apart. -/
theorem processHostPort_parts (p : UrlParts) (q : PeoplesUrlParser) (fresh : q.port = []) :
    q.processHostPort (p.host ++ behind colon p.port) = { q with host := p.host, port := p.port.getD [] } := by
  unfold processHostPort
  cases port : p.port with
  | none =>
    rw [behind, List.append_nil, split_whole 1 p.plainHost.colon]
    simp [fresh]
  | some s =>
    rw [behind, split_first 0 p.host s p.plainHost.colon]
    simp [split]

theorem tail_head (p : UrlParts) : ∃ rest, p.tail = slash :: rest := ⟨_, rfl⟩

theorem hostPort_plain (p : UrlParts) {ch : UInt8} (delimiter : ∀ c : UInt8,
    c ≠ colon ∧ c ≠ atSign ∧ c ≠ slash ∧ c ≠ question ∧ c ≠ hash → c ≠ ch) (other : colon ≠ ch) :
    ch ∉ p.host ++ behind colon p.port := by
  intro member
  rcases List.mem_append.mp member with host | port
  · exact delimiter ch (p.plainHost ch host) rfl
  · cases there : p.port with
    | none => rw [there] at port; cases port
    | some s =>
      rw [there] at port
      rcases List.mem_cons.mp port with same | inside
      · exact other same.symm
      · exact delimiter ch (p.plainPort s there ch inside) rfl

theorem processAuthorityPath_parts (p : UrlParts) (q : PeoplesUrlParser) (fresh : q.port = []) :
    q.processAuthorityPath (p.host ++ behind colon p.port ++ p.tail) =
      { q with host := p.host, port := p.port.getD [], path := p.tail } := by
  obtain ⟨rest, tail⟩ := p.tail_head
  have plain : slash ∉ p.host ++ behind colon p.port := p.hostPort_plain (fun c all => all.2.2.1) (by decide)
  unfold processAuthorityPath
  rw [tail, find_first plain, Option.some_or, Option.some_or]
  dsimp only
  rw [List.take_left' rfl, List.drop_left' rfl, p.processHostPort_parts q fresh]

theorem processUserPass_parts (p : UrlParts) (q : PeoplesUrlParser) (fresh : q.password = []) {user : Str}
    {password : Option Str} (login : p.login = some (user, password)) :
    q.processUserPass (user ++ behind colon password) = { q with user := user, password := password.getD [] } := by
  obtain ⟨plain, -⟩ := p.plainLogin user password login
  unfold processUserPass
  cases password with
  | none =>
    rw [behind, List.append_nil, split_whole 1 plain.colon]
    simp [fresh]
  | some s =>
    rw [behind, split_first 0 user s plain.colon]
    simp [split]

/- The parser before it looks into the path, where no '@' misleads it -/
theorem processScheme_parts (p : UrlParts) (signs : p.login = none → atSign ∉ p.tail) :
    processScheme p.compose = {
      mRawUrl := p.compose
      url := p.compose
      scheme := p.scheme
      user := p.user
      password := p.password
      host := p.host
      port := p.port.getD []
      path := p.tail } := by
  have cut : split colon 1 p.compose = [p.scheme,
      slash :: slash :: (loginText p.login ++ (p.host ++ behind colon p.port ++ p.tail))] :=
    split_first 0 p.scheme _ p.scheme_plain
  have hostPort : atSign ∉ p.host ++ behind colon p.port := p.hostPort_plain (fun c all => all.2.1) (by decide)
  unfold processScheme processAuthority
  rw [p.compose_scheme, cut]
  cases login : p.login with
  | none =>
    have whole : atSign ∉ slash :: slash :: (p.host ++ behind colon p.port ++ p.tail) := by
      rw [List.mem_cons, List.mem_cons, List.mem_append]
      rintro (no | no | front | back)
      · cases no
      · cases no
      · exact hostPort front
      · exact signs login back
    simp only [loginText, List.nil_append, if_true, List.getD_cons_succ, List.getD_cons_zero, List.take_succ_cons,
      List.take_zero, split_whole 1 whole, List.length_singleton, List.drop_succ_cons, List.drop_zero]
    rw [p.processAuthorityPath_parts _ rfl]
    simp [user, password, login]
  | some pair =>
    obtain ⟨user', password'⟩ := pair
    obtain ⟨plain, plain'⟩ := p.plainLogin user' password' login
    have before : atSign ∉ slash :: slash :: (user' ++ behind colon password') := by
      rw [List.mem_cons, List.mem_cons, List.mem_append]
      rintro (no | no | front | back)
      · cases no
      · cases no
      · exact plain.atSign front
      · cases password' with
        | none => cases back
        | some s =>
          rcases List.mem_cons.mp back with no | inside
          · cases no
          · exact (plain' s rfl).atSign inside
    have parts : split atSign 1 (slash :: slash :: (user' ++ behind colon password') ++
        atSign :: (p.host ++ behind colon p.port ++ p.tail)) =
        [slash :: slash :: (user' ++ behind colon password'), p.host ++ behind colon p.port ++ p.tail] :=
      split_first 0 _ _ before
    have begins : (slash :: slash :: (user' ++ behind colon password') ++
        atSign :: (p.host ++ behind colon p.port ++ p.tail)).take 2 = [slash, slash] := rfl
    have join : slash :: slash :: (loginText (some (user', password')) ++ (p.host ++ behind colon p.port ++ p.tail)) =
        slash :: slash :: (user' ++ behind colon password') ++
          atSign :: (p.host ++ behind colon p.port ++ p.tail) := by
      simp [loginText]
    simp only [join, if_true, List.getD_cons_succ, List.getD_cons_zero, begins, parts, List.length_cons,
      List.length_nil, List.drop_succ_cons, List.drop_zero]
    rw [if_neg (by decide), p.processUserPass_parts _ rfl login, p.processAuthorityPath_parts _ rfl]
    simp [user, password, login]

theorem rooted_plain (p : UrlParts) {ch : UInt8} (other : ch ≠ slash) (plain : ∀ d ∈ p.segments, ch ∉ d) :
    ch ∉ rooted p.segments := by
  intro member
  rcases (mem_rooted p.segments ch).mp member with same | ⟨d, there, inside⟩
  · exact other same
  · exact plain d there inside

theorem rooted_question (p : UrlParts) : question ∉ rooted p.segments :=
  p.rooted_plain (by decide) fun d member => (p.names d member).2.2.2.2.1

theorem rooted_hash (p : UrlParts) : hash ∉ rooted p.segments :=
  p.rooted_plain (by decide) fun d member => (p.names d member).2.2.2.2.2

theorem rooted_colon (p : UrlParts) : colon ∉ rooted p.segments :=
  p.rooted_plain (by decide) fun d member => (p.names d member).2.2.2.1

/- Query and fragment are found, unless a '?' in the fragment is taken for the query's. -/
theorem processQuery_parts (p : UrlParts) {q : PeoplesUrlParser} (path : q.path = p.tail) (query : q.query = [])
    (fragment : q.fragment = []) (asks : p.query = none → ∀ s, p.fragment = some s → question ∉ s) :
    q.processQuery =
      { q with query := p.query.getD [], fragment := p.fragment.getD [], path := rooted p.segments } := by
  unfold processQuery
  rw [path]
  unfold tail
  cases asked : p.query with
  | some s =>
    have cut : rooted p.segments ++ behind question (some s) ++ behind hash p.fragment =
        rooted p.segments ++ question :: (s ++ behind hash p.fragment) := by
      rw [List.append_assoc]
      rfl
    have parts : split question 1 (question :: (s ++ behind hash p.fragment)) = [[], s ++ behind hash p.fragment] :=
      split_first 0 [] _ List.not_mem_nil
    rw [cut, find_first p.rooted_question, Option.some_or]
    dsimp only
    rw [List.take_left' rfl, List.drop_left' rfl, parts]
    cases there : p.fragment with
    | none =>
      rw [behind, List.append_nil]
      simp [split_whole 1 (p.unhashed s asked), fragment]
    | some f =>
      have last : split hash 1 (s ++ hash :: f) = [s, f] := split_first 0 s f (p.unhashed s asked)
      rw [behind]
      simp [last]
  | none =>
    rw [behind, List.append_nil]
    cases there : p.fragment with
    | none =>
      rw [behind, List.append_nil, find_none p.rooted_question, find_none p.rooted_hash]
      have plain : q.path = rooted p.segments := by
        rw [path, tail, asked, there]
        simp [behind]
      cases q
      simp only at query fragment plain
      simp [query, fragment, plain]
    | some f =>
      have unasked : question ∉ rooted p.segments ++ hash :: f := by
        intro member
        rcases List.mem_append.mp member with front | back
        · exact p.rooted_question front
        · rcases List.mem_cons.mp back with no | inside
          · cases no
          · exact asks asked f there inside
      have parts : split hash 1 (hash :: f) = [[], f] := split_first 0 [] f List.not_mem_nil
      rw [behind, find_none unasked, find_first p.rooted_hash, Option.none_or]
      dsimp only
      rw [List.take_left' rfl, List.drop_left' rfl,
        split_whole 1 fun member => unasked (List.mem_append_right _ member)]
      simp [parts, query]

/- What the parser leaves alone behind the host -/

structure SameRoot (q q' : PeoplesUrlParser) : Prop where
  scheme : q'.scheme = q.scheme
  user : q'.user = q.user
  password : q'.password = q.password
  host : q'.host = q.host
  port : q'.port = q.port

structure SameParts (q q' : PeoplesUrlParser) : Prop where
  root : SameRoot q q'
  query : q'.query = q.query
  fragment : q'.fragment = q.fragment

theorem SameRoot.trans {q q' q'' : PeoplesUrlParser} (first : SameRoot q q') (second : SameRoot q' q'') :
    SameRoot q q'' :=
  ⟨second.scheme.trans first.scheme, second.user.trans first.user, second.password.trans first.password,
    second.host.trans first.host, second.port.trans first.port⟩

theorem SameParts.trans {q q' q'' : PeoplesUrlParser} (first : SameParts q q') (second : SameParts q' q'') :
    SameParts q q'' :=
  ⟨first.root.trans second.root, second.query.trans first.query, second.fragment.trans first.fragment⟩

theorem processQuery_root (q : PeoplesUrlParser) : SameRoot q q.processQuery := by
  unfold processQuery
  split
  · exact ⟨rfl, rfl, rfl, rfl, rfl⟩
  · exact ⟨rfl, rfl, rfl, rfl, rfl⟩

theorem processName_parts (q : PeoplesUrlParser) : SameParts q q.processName := by
  unfold processName
  split
  · exact ⟨⟨rfl, rfl, rfl, rfl, rfl⟩, rfl, rfl⟩
  · exact ⟨⟨rfl, rfl, rfl, rfl, rfl⟩, rfl, rfl⟩

theorem processExtension_parts (q : PeoplesUrlParser) : SameParts q q.processExtension :=
  ⟨⟨rfl, rfl, rfl, rfl, rfl⟩, rfl, rfl⟩

theorem cleanPath_parts (q : PeoplesUrlParser) : SameParts q q.cleanPath := by
  unfold cleanPath
  split
  · exact ⟨⟨rfl, rfl, rfl, rfl, rfl⟩, rfl, rfl⟩
  · exact ⟨⟨rfl, rfl, rfl, rfl, rfl⟩, rfl, rfl⟩

theorem rebuildUrl_parts (q : PeoplesUrlParser) : SameParts q q.rebuildUrl := by
  have slashed : SameParts q (if q.path.head? = some slash then q else { q with path := slash :: q.path }) := by
    split
    · exact ⟨⟨rfl, rfl, rfl, rfl, rfl⟩, rfl, rfl⟩
    · exact ⟨⟨rfl, rfl, rfl, rfl, rfl⟩, rfl, rfl⟩
  have cleaned := slashed.trans (cleanPath_parts _)
  exact ⟨⟨cleaned.root.scheme, cleaned.root.user, cleaned.root.password, cleaned.root.host, cleaned.root.port⟩,
    cleaned.query, cleaned.fragment⟩

/- The rest of `parseURL`. -/
theorem parseURL_parts {u : Str} (some : u ≠ []) (path : (processScheme u).path ≠ []) :
    SameParts (processScheme u).processQuery (parseURL u) := by
  rw [parseURL, if_neg some, processPath, if_neg path]
  exact (((processName_parts _).trans (processExtension_parts _)).trans (cleanPath_parts _)).trans (rebuildUrl_parts _)

theorem parseURL_root {u : Str} (some : u ≠ []) : SameRoot (processScheme u) (parseURL u) := by
  have path : SameRoot (processScheme u) (processScheme u).processPath := by
    unfold processPath
    split
    · exact ⟨rfl, rfl, rfl, rfl, rfl⟩
    · exact (processQuery_root _).trans ((processName_parts _).trans (processExtension_parts _)).root
  rw [parseURL, if_neg some]
  exact path.trans ((cleanPath_parts _).trans (rebuildUrl_parts _)).root

theorem findProtocol_none {s : Str} (plain : colon ∉ s) : findProtocol s = none := by
  induction s with
  | nil => rfl
  | cons c s ih =>
    rw [List.mem_cons, not_or] at plain
    have other : ¬ [colon, slash, slash].isPrefixOf (c :: s) = true := by
      rw [List.isPrefixOf_iff_prefix]
      rintro ⟨t, same⟩
      exact plain.1 (List.cons_eq_cons.mp same).1
    rw [findProtocol, if_neg other, ih plain.2]
    rfl

theorem canonical_url (p : UrlParts) : util_get_canonical_url (rooted p.segments) = rooted p.segments := by
  have dotless : Dotless p.segments := fun d member => ⟨(p.names d member).2.1, (p.names d member).2.2.1⟩
  unfold util_get_canonical_url
  rw [findProtocol_none p.rooted_colon]
  dsimp only
  rw [canonical_path_rooted fun d member => (p.names d member).1, (canonical_eq_iff _).mpr dotless]

theorem rebuildUrl_path (p : UrlParts) {q : PeoplesUrlParser} (path : q.path = rooted p.segments) :
    q.rebuildUrl = { q with
      url := q.root ++ rooted p.segments ++ mark question q.query ++ mark hash q.fragment } := by
  have clean : q.cleanPath = q := by
    have nonempty : rooted p.segments ≠ [] := List.cons_ne_nil _ _
    unfold cleanPath
    rw [path, if_neg nonempty, p.canonical_url, ← path]
  unfold rebuildUrl
  rw [if_pos (show q.path.head? = some slash by rw [path]; rfl), clean]
  dsimp only
  rw [path]

theorem compose_ne_nil (p : UrlParts) : p.compose ≠ [] := by
  obtain ⟨c, rest, scheme, -⟩ := p.letter
  unfold compose
  rw [scheme]
  exact List.cons_ne_nil _ _

/- The text that the parser puts together from the parts. -/
def rebuilt (p : UrlParts) : Str :=
  p.scheme ++ [colon] ++ (if p.host = [] then [] else [slash, slash]) ++
    (if p.user = [] then [] else p.user ++ mark colon p.password ++ [atSign]) ++ p.host ++
    mark colon (p.port.getD []) ++ rooted p.segments ++ mark question (p.query.getD []) ++
    mark hash (p.fragment.getD [])

/-- Where no delimiter misleads it, the parser finds the parts, and puts together those that
are not empty. -/
theorem parseURL_found (p : UrlParts) (signs : p.login = none → atSign ∉ p.tail)
    (asks : p.query = none → ∀ s, p.fragment = some s → question ∉ s) :
    let u := parseURL p.compose
    u.scheme = p.scheme ∧ u.user = p.user ∧ u.password = p.password ∧ u.host = p.host ∧ u.port = p.port.getD [] ∧
      u.path = rooted p.segments ∧ u.query = p.query.getD [] ∧ u.fragment = p.fragment.getD [] ∧
      u.rebuildUrl.url = p.rebuilt := by
  have start := p.processScheme_parts signs
  have query := p.processQuery_parts (q := processScheme p.compose) (by rw [start]) (by rw [start]) (by rw [start]) asks
  have nonempty : (processScheme p.compose).path ≠ [] := by
    rw [start]
    exact List.cons_ne_nil _ _
  have parts := parseURL_parts p.compose_ne_nil nonempty
  have path : (parseURL p.compose).path = rooted p.segments := by
    have name : ((processScheme p.compose).processQuery).processName.processExtension.path = rooted p.segments := by
      have plain : colon ∉ (processScheme p.compose).processQuery.path := by
        rw [query]
        exact p.rooted_colon
      rw [processExtension, processName, find_none plain, query]
    rw [parseURL, if_neg p.compose_ne_nil, processPath, if_neg nonempty, cleanPath]
    split
    · rw [p.rebuildUrl_path name]
      exact name
    · rw [p.rebuildUrl_path (by dsimp only; rw [name, p.canonical_url])]
      dsimp only
      rw [name, p.canonical_url]
  have scheme : p.scheme ≠ [] := by
    obtain ⟨c, rest, scheme, -⟩ := p.letter
    rw [scheme]
    exact List.cons_ne_nil c rest
  rw [query, start] at parts
  refine ⟨parts.root.scheme, parts.root.user, parts.root.password, parts.root.host, parts.root.port, path,
    parts.query, parts.fragment, ?_⟩
  rw [p.rebuildUrl_path path]
  dsimp only
  unfold PeoplesUrlParser.root rebuilt
  rw [parts.root.scheme, parts.root.user, parts.root.password, parts.root.host, parts.root.port, parts.query,
    parts.fragment]
  dsimp only
  rw [if_neg scheme]

/- A part that is there and empty is lost, and nothing else. -/

theorem mark_eq {ch : UInt8} {part : Option Str} (kept : part ≠ some []) : mark ch (part.getD []) = behind ch part := by
  cases part with
  | none => rfl
  | some s => exact if_neg fun empty : s = [] => kept (by rw [empty])

theorem mark_length (ch : UInt8) (part : Option Str) :
    (mark ch (part.getD [])).length ≤ (behind ch part).length ∧
      ((behind ch part).length ≤ (mark ch (part.getD [])).length → part ≠ some []) := by
  cases part with
  | none => exact ⟨Nat.le_refl 0, fun _ => nofun⟩
  | some s =>
    cases s with
    | nil => exact ⟨Nat.zero_le _, fun no => absurd no (by simp [mark, behind])⟩
    | cons c s => exact ⟨Nat.le_refl _, fun _ => nofun⟩

/- The login as the parser puts it together. -/
def loginMark (p : UrlParts) : Str := if p.user = [] then [] else p.user ++ mark colon p.password ++ [atSign]

theorem loginMark_eq (p : UrlParts)
    (kept : ∀ user password, p.login = some (user, password) → user ≠ [] ∧ password ≠ some []) :
    p.loginMark = loginText p.login := by
  unfold loginMark user password
  cases login : p.login with
  | none => rfl
  | some pair =>
    obtain ⟨some, more⟩ := kept pair.1 pair.2 login
    simp only [Option.map_some, Option.getD_some, Option.bind_some, if_neg some, loginText, mark_eq more]

theorem loginMark_length (p : UrlParts) :
    p.loginMark.length ≤ (loginText p.login).length ∧ ((loginText p.login).length ≤ p.loginMark.length →
      ∀ user password, p.login = some (user, password) → user ≠ [] ∧ password ≠ some []) := by
  unfold loginMark user password
  cases login : p.login with
  | none => exact ⟨Nat.le_refl 0, fun _ _ _ no => nomatch no⟩
  | some pair =>
    obtain ⟨user, password⟩ := pair
    obtain ⟨less, whole⟩ := mark_length colon password
    simp only [Option.map_some, Option.getD_some, Option.bind_some, loginText]
    by_cases empty : user = []
    · rw [if_pos empty]
      refine ⟨Nat.zero_le _, fun no => ?_⟩
      simp at no
    · rw [if_neg empty]
      simp only [List.length_append]
      refine ⟨by omega, ?_⟩
      rintro longer _ _ ⟨⟩
      exact ⟨empty, whole (by omega)⟩

/- The url that is put together is the url exactly where nothing that is there is empty. -/
theorem rebuilt_eq_iff (p : UrlParts) : p.rebuilt = p.compose ↔
    p.host ≠ [] ∧ p.port ≠ some [] ∧ (∀ user password, p.login = some (user, password) → user ≠ [] ∧ password ≠ some []) ∧
      p.query ≠ some [] ∧ p.fragment ≠ some [] := by
  have shape : p.rebuilt = p.scheme ++ [colon] ++ (if p.host = [] then [] else [slash, slash]) ++ p.loginMark ++
      p.host ++ mark colon (p.port.getD []) ++ rooted p.segments ++ mark question (p.query.getD []) ++
      mark hash (p.fragment.getD []) := rfl
  constructor
  · intro same
    obtain ⟨login, logged⟩ := p.loginMark_length
    obtain ⟨port, ported⟩ := mark_length colon p.port
    obtain ⟨query, asked⟩ := mark_length question p.query
    obtain ⟨fragment, ended⟩ := mark_length hash p.fragment
    have size := congrArg List.length same
    rw [shape, compose, tail] at size
    simp only [List.length_append, List.length_cons, List.length_nil] at size
    by_cases host : p.host = []
    · rw [if_pos host, List.length_nil] at size
      omega
    · rw [if_neg host] at size
      simp only [List.length_cons, List.length_nil] at size
      exact ⟨host, ported (by omega), logged (by omega), asked (by omega), ended (by omega)⟩
  · rintro ⟨host, port, login, query, fragment⟩
    rw [shape, if_neg host, p.loginMark_eq login, mark_eq port, mark_eq query, mark_eq fragment, compose, tail]
    simp only [List.append_assoc, List.cons_append, List.nil_append]

/- An '@' behind the host makes a login. -/
theorem processUserPass_slash {text : Str} (there : slash ∈ text) (q : PeoplesUrlParser) :
    (q.processUserPass text).user ≠ [] ∨ (q.processUserPass text).password ≠ [] := by
  unfold processUserPass
  by_cases cut : colon ∈ text
  · obtain ⟨user, password, rfl, plain⟩ := List.eq_append_cons_of_mem cut
    have parts : split colon 1 (user ++ colon :: password) = [user, password] := split_first 0 user password plain
    rw [parts]
    rcases List.mem_append.mp there with front | back
    · exact .inl (List.ne_nil_of_mem front)
    · rcases List.mem_cons.mp back with no | inside
      · cases no
      · exact .inr (List.ne_nil_of_mem inside)
  · rw [split_whole 1 cut]
    exact .inl (List.ne_nil_of_mem there)

theorem processAuthorityPath_login (text : Str) (q : PeoplesUrlParser) :
    (q.processAuthorityPath text).user = q.user ∧ (q.processAuthorityPath text).password = q.password := by
  unfold processAuthorityPath
  split
  · exact ⟨rfl, rfl⟩
  · exact ⟨rfl, rfl⟩

theorem sign_misleads (p : UrlParts) (login : p.login = none) (sign : atSign ∈ p.tail) :
    (processScheme p.compose).user ≠ [] ∨ (processScheme p.compose).password ≠ [] := by
  have cut : split colon 1 p.compose = [p.scheme,
      slash :: slash :: (loginText p.login ++ (p.host ++ behind colon p.port ++ p.tail))] :=
    split_first 0 p.scheme _ p.scheme_plain
  have hostPort : atSign ∉ p.host ++ behind colon p.port := p.hostPort_plain (fun c all => all.2.1) (by decide)
  obtain ⟨front, back, tail, plain⟩ := List.eq_append_cons_of_mem sign
  have begins : slash ∈ front := by
    obtain ⟨rest, head⟩ := p.tail_head
    cases front with
    | nil =>
      rw [head] at tail
      exact absurd (List.cons_eq_cons.mp tail).1 (by decide)
    | cons c front =>
      rw [head] at tail
      rw [(List.cons_eq_cons.mp tail).1]
      exact List.mem_cons_self
  have before : atSign ∉ slash :: slash :: (p.host ++ behind colon p.port ++ front) := by
    rw [List.mem_cons, List.mem_cons, List.mem_append]
    rintro (no | no | host | path)
    · cases no
    · cases no
    · exact hostPort host
    · exact plain path
  have whole : slash :: slash :: (p.host ++ behind colon p.port ++ p.tail) =
      slash :: slash :: (p.host ++ behind colon p.port ++ front) ++ atSign :: back := by
    rw [tail]
    simp
  have parts : split atSign 1 (slash :: slash :: (p.host ++ behind colon p.port ++ front) ++ atSign :: back) =
      [slash :: slash :: (p.host ++ behind colon p.port ++ front), back] := split_first 0 _ back before
  have two : (slash :: slash :: (p.host ++ behind colon p.port ++ front) ++ atSign :: back).take 2 =
    [slash, slash] := rfl
  unfold processScheme processAuthority
  rw [p.compose_scheme, cut, login]
  simp only [loginText, List.nil_append, if_true, List.getD_cons_succ, List.getD_cons_zero, whole, two, parts,
    List.length_cons, List.length_nil, List.drop_succ_cons, List.drop_zero]
  rw [if_neg (by decide), (processAuthorityPath_login back _).1, (processAuthorityPath_login back _).2]
  exact processUserPass_slash (List.mem_append_right _ begins) _

theorem split_second (ch : UInt8) (s : Str) : ((split ch 1 s).getD 1 []).length ≤ s.length := by
  by_cases cut : ch ∈ s
  · obtain ⟨front, back, rfl, plain⟩ := List.eq_append_cons_of_mem cut
    have parts : split ch 1 (front ++ ch :: back) = [front, back] := split_first 0 front back plain
    rw [parts, List.getD_cons_succ, List.getD_cons_zero, List.length_append, List.length_cons]
    omega
  · rw [split_whole 1 cut]
    exact Nat.zero_le _

/- A '?' in the fragment makes a query. -/
theorem question_misleads (p : UrlParts) {q : PeoplesUrlParser} (path : q.path = p.tail) (fragment : q.fragment = [])
    (asked : p.query = none) {f : Str} (there : p.fragment = some f) (inside : question ∈ f) :
    q.processQuery.fragment ≠ f := by
  obtain ⟨front, back, text, plain⟩ := List.eq_append_cons_of_mem inside
  have whole : q.path = rooted p.segments ++ hash :: front ++ question :: back := by
    rw [path, tail, asked, there, text]
    simp [behind]
  have before : question ∉ rooted p.segments ++ hash :: front := by
    intro member
    rcases List.mem_append.mp member with segments | rest
    · exact p.rooted_question segments
    · rcases List.mem_cons.mp rest with no | deep
      · cases no
      · exact plain deep
  have parts : split question 1 (question :: back) = [[], back] := split_first 0 [] back List.not_mem_nil
  have short : (q.processQuery.fragment).length ≤ back.length := by
    unfold processQuery
    rw [whole, find_first before, Option.some_or]
    dsimp only
    rw [List.drop_left' rfl, parts]
    split
    · exact split_second hash back
    · rw [fragment]
      exact Nat.zero_le _
  intro same
  rw [same, text, List.length_append, List.length_cons] at short
  omega

/-- Parsing finds the parts of a url and gives it back exactly where they are kept apart. -/
theorem recovered_iff (p : UrlParts) : p.Recovered ↔ p.Kept := by
  constructor
  · rintro ⟨-, user', password', -, -, -, -, fragment', same⟩
    have unlogged : p.login = none → atSign ∉ p.tail := by
      intro login sign
      have root := parseURL_root p.compose_ne_nil
      rw [root.user, UrlParts.user, login] at user'
      rw [root.password, UrlParts.password, login] at password'
      rcases p.sign_misleads login sign with some | more
      · exact some user'
      · exact more password'
    have start := p.processScheme_parts unlogged
    have unasked : p.query = none → ∀ s, p.fragment = some s → question ∉ s := by
      intro asked f there inside
      have parts := parseURL_parts p.compose_ne_nil (by rw [start]; exact List.cons_ne_nil _ _)
      rw [parts.fragment, there] at fragment'
      exact p.question_misleads (by rw [start]) (by rw [start]) asked there inside fragment'
    obtain ⟨-, -, -, -, -, -, -, -, rebuilt⟩ := p.parseURL_found unlogged unasked
    obtain ⟨host, port, login, query, fragment⟩ := p.rebuilt_eq_iff.mp (rebuilt.symm.trans same)
    exact ⟨host, port, login, query, fragment, unlogged, unasked⟩
  · rintro ⟨host, port, login, query, fragment, unlogged, unasked⟩
    have found := p.parseURL_found unlogged unasked
    rw [p.rebuilt_eq_iff.mpr ⟨host, port, login, query, fragment⟩] at found
    exact found

/- "http://h/a@b" and "http://h/#a?". -/
def sampleParts (segments : List Str) (fragment : Option Str)
    (names : ∀ d ∈ segments, Component d ∧ d ≠ dot ∧ d ≠ dotdot ∧ colon ∉ d ∧ question ∉ d ∧ hash ∉ d) : UrlParts where
  scheme := [0x68, 0x74, 0x74, 0x70]
  login := none
  host := [0x68]
  port := none
  segments := segments
  query := none
  fragment := fragment
  letter := ⟨0x68, _, rfl, by decide, by decide +kernel⟩
  plainLogin := nofun
  plainHost := by decide +kernel
  plainPort := nofun
  names := names
  unhashed := nofun

/-- An '@' in the path is taken for the end of a login, and a '?' in the fragment for the query's. -/
theorem delimiter_misleads :
    ¬ (sampleParts [[0x61, 0x40, 0x62]] none (by decide)).Recovered ∧
      ¬ (sampleParts [] (some [0x61, 0x3f]) (by decide)).Recovered := by
  constructor
  · rintro ⟨-, user, -⟩
    exact absurd user (by decide)
  · rintro ⟨-, -, -, -, -, -, -, fragment, -⟩
    exact absurd fragment (by decide)

end UrlParts

/- What the parser makes of a path -/

theorem splitPieces_chars {s acc p : Str} {c : UInt8} (member : p ∈ splitPieces s acc) (inside : c ∈ p) :
    c ∈ s ∨ c ∈ acc := by
  induction s generalizing acc with
  | nil =>
    rw [splitPieces] at member
    split at member
    · cases member
    · exact .inr (List.mem_singleton.mp member ▸ inside)
  | cons d s ih =>
    rw [splitPieces] at member
    split at member
    · split at member
      · exact .inl (List.mem_cons_of_mem d ((ih member).resolve_right List.not_mem_nil))
      · rcases List.mem_cons.mp member with rfl | later
        · exact .inr inside
        · exact .inl (List.mem_cons_of_mem d ((ih later).resolve_right List.not_mem_nil))
    · rcases ih member with later | seen
      · exact .inl (List.mem_cons_of_mem d later)
      · rcases List.mem_append.mp seen with old | new
        · exact .inr old
        · exact .inl (List.mem_singleton.mp new ▸ List.mem_cons_self)

/- A canonical path has no characters but those of the path, and slashes. -/
theorem canonical_path_chars {path : Str} {c : UInt8} (member : c ∈ util_get_canonical_path path) :
    c = slash ∨ c ∈ path := by
  have joined : c ∈ [slash].intercalate (canonical (splitPathComponents path)) → c = slash ∨ c ∈ path := by
    intro inside
    rcases (mem_rooted _ c).mp (List.mem_cons_of_mem slash inside) with same | ⟨d, there, within⟩
    · exact .inl same
    · exact .inr ((splitPieces_chars (canonical_mem there).1 within).resolve_right List.not_mem_nil)
  have head : c ∈ (if path.head? = some slash then [slash] else []) → c = slash := by
    split
    · exact List.mem_singleton.mp
    · exact (nomatch ·)
  have top : c ∈ (if path.head? = some slash then [slash] else []) ++
      [slash].intercalate (canonical (splitPathComponents path)) → c = slash ∨ c ∈ path := fun inside =>
    (List.mem_append.mp inside).elim (fun first => .inl (head first)) joined
  unfold util_get_canonical_path at member
  dsimp only at member
  generalize (if path.head? = some slash then [slash] else []) ++
    [slash].intercalate (canonical (splitPathComponents path)) = res at top member
  split at member
  · exact (List.mem_append.mp member).elim top fun last => .inl (List.mem_singleton.mp last)
  · exact top member

/- A parser that has a path only. -/
theorem rebuildUrl_bare {q : PeoplesUrlParser} (bare : UrlParts.SameParts {} q) : q.rebuildUrl.url =
    util_get_canonical_url (if q.path.head? = some slash then q.path else slash :: q.path) := by
  obtain ⟨⟨scheme, user, password, host, port⟩, query, fragment⟩ := bare
  have root : ∀ path, ({ q with path := path } : PeoplesUrlParser).root = [] := by
    intro path
    unfold PeoplesUrlParser.root
    rw [scheme, user, host, port]
    rfl
  unfold PeoplesUrlParser.rebuildUrl PeoplesUrlParser.cleanPath
  split
  · rename_i begins
    have nonempty : q.path ≠ [] := by
      intro none
      rw [none] at begins
      cases begins
    rw [if_neg nonempty]
    dsimp only
    rw [root, query, fragment]
    simp [PeoplesUrlParser.mark]
  · rw [if_neg (List.cons_ne_nil _ _)]
    dsimp only
    rw [root, query, fragment]
    simp [PeoplesUrlParser.mark]

/-- The url of a path without a scheme, a query or a fragment is what `resetURL` says. -/
theorem parseURL_path {u : Str} (path : u ≠ []) (unscheme : colon ∉ u) (unquery : question ∉ u) (unfragment : hash ∉ u)
    (relative : u.take 2 ≠ [slash, slash]) : (PeoplesUrlParser.parseURL u).url = resetURL u := by
  have same : ∀ s : Str, colon ∉ s → util_get_canonical_url s = util_get_canonical_path s := by
    intro s plain
    unfold util_get_canonical_url
    rw [UrlParts.findProtocol_none plain]
  have start : PeoplesUrlParser.processScheme u = { mRawUrl := u, url := u, path := u } := by
    have none : PeoplesUrlParser.hasScheme u = false := by
      unfold PeoplesUrlParser.hasScheme
      rw [find_none unscheme]
    unfold PeoplesUrlParser.processScheme
    rw [none]
    simp [relative]
  have query : (PeoplesUrlParser.processScheme u).processQuery = { mRawUrl := u, url := u, path := u } := by
    rw [start, PeoplesUrlParser.processQuery, find_none unquery, find_none unfragment]
    rfl
  have whole : (PeoplesUrlParser.processScheme u).processQuery.processName.processExtension.path = u := by
    rw [query, PeoplesUrlParser.processExtension, PeoplesUrlParser.processName, find_none unscheme]
  have bare : UrlParts.SameParts {} (PeoplesUrlParser.processScheme u).processQuery.processName.processExtension := by
    have empty : UrlParts.SameParts {} (PeoplesUrlParser.processScheme u).processQuery := by
      rw [query]
      exact ⟨⟨rfl, rfl, rfl, rfl, rfl⟩, rfl, rfl⟩
    exact empty.trans ((UrlParts.processName_parts _).trans (UrlParts.processExtension_parts _))
  have nonempty : (PeoplesUrlParser.processScheme u).path ≠ [] := by
    rw [start]
    exact path
  have plain : colon ∉ (if (util_get_canonical_path u).head? = some slash then util_get_canonical_path u
      else slash :: util_get_canonical_path u) := by
    have inside : colon ∉ util_get_canonical_path u := fun member =>
      (canonical_path_chars member).elim (by decide) unscheme
    split
    · exact inside
    · exact fun member => (List.mem_cons.mp member).elim (by decide) inside
  rw [PeoplesUrlParser.parseURL, if_neg path, PeoplesUrlParser.processPath, if_neg nonempty]
  generalize (PeoplesUrlParser.processScheme u).processQuery.processName.processExtension = q at whole bare
  have cleaned : q.cleanPath.path = util_get_canonical_path u := by
    rw [PeoplesUrlParser.cleanPath, whole, if_neg path, same u unscheme]
  rw [rebuildUrl_bare (bare.trans (UrlParts.cleanPath_parts q)), cleaned, same _ plain]
  rfl

end Meatloaf
