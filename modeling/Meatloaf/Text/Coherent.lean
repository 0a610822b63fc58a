import Meatloaf.Text.Reread

/-! The fields of a url, and those of the url that the parser puts together from them. The name is taken from
the path before that is cleaned. -/
namespace Meatloaf.PeoplesUrlParser

/-- `pathToFile`. The difference of the lengths wraps around where the name is longer than the path. -/
def pathToFile (p : PeoplesUrlParser) : Str :=
  if p.name = [] ∨ p.path.length < p.name.length then p.path else p.path.take (p.path.length - p.name.length)

/-- The fields of the url that has been parsed again. -/
structure SameFields (p q : PeoplesUrlParser) : Prop where
  scheme : q.scheme = p.scheme
  host : q.host = p.host
  port : q.port = p.port
  path : q.path = p.path
  name : q.name = p.name
  base_name : q.base_name = p.base_name
  extension : q.extension = p.extension

/-- The fields of a url agree with each other, and with those of the url that is put together from them. -/
structure Coherent (u : Str) : Prop where
  ends : (parseURL u).name <:+ (parseURL u).path
  file : (parseURL u).pathToFile ++ (parseURL u).name = (parseURL u).path
  last : (parseURL u).name = afterSlash (parseURL u).path
  parts : (parseURL u).name = (parseURL u).base_name ∨
    (parseURL u).name = (parseURL u).base_name ++ period :: (parseURL u).extension
  again : SameFields (parseURL u) (parseURL (parseURL u).url)

/-- When the name that is taken from a path is what is behind the last slash of it in the end. -/
def Named (path : Str) : Prop :=
  match find colon path with
  | none => path.count slash ≤ 9998 ∧ afterSlash path ≠ dot ∧ afterSlash path ≠ dotdot
  | some pos =>
    let front := path.take pos
    let name := path.drop (pos + 1)
    colon ∉ name ∧ slash ∉ name ∧
      ((afterSlash front = [] ∧ name ≠ dot ∧ name ≠ dotdot) ∨
        (name = [] ∧ (afterSlash front = dot ∨ afterSlash front = dotdot) ∧ canonical (splitPathComponents front) = []))

theorem Named_append {a : Str} (plain : colon ∉ a) (name : Str) : Named (a ++ colon :: name) ↔
    colon ∉ name ∧ slash ∉ name ∧ ((afterSlash a = [] ∧ name ≠ dot ∧ name ≠ dotdot) ∨
      (name = [] ∧ (afterSlash a = dot ∨ afterSlash a = dotdot) ∧ canonical (splitPathComponents a) = [])) := by
  have cut : a ++ colon :: name = (a ++ [colon]) ++ name := by simp
  have behind : (a ++ colon :: name).drop (a.length + 1) = name := by rw [cut, List.drop_left' (by simp)]
  rw [Named, find_first plain]
  dsimp only
  rw [List.take_left' rfl, behind]

theorem Named_plain {path : Str} (plain : colon ∉ path) :
    Named path ↔ path.count slash ≤ 9998 ∧ afterSlash path ≠ dot ∧ afterSlash path ≠ dotdot := by
  rw [Named, find_none plain]

/- The path field in the end. -/
def resolved (path : Str) : Str := canonicalForm (canonical (splitPathComponents path)) (path.getLast? == some slash)

/- Where the name has no slash, there is no protocol in the path. -/
theorem settled_resolved {path : Str} (bare : slash ∉ nameOf path) : settled (dropColon path) = resolved (dropColon path) := by
  refine settled_eq ?_
  by_cases there : colon ∈ path
  · obtain ⟨front, name, rfl, plain⟩ := List.eq_append_cons_of_mem there
    rw [nameOf_append plain] at bare
    rw [dropColon_append plain]
    exact findProtocol_append plain bare
  · rw [dropColon_plain there, ← List.append_nil path]
    exact findProtocol_append there List.not_mem_nil

theorem Named.bare {path : Str} (named : Named path) : slash ∉ nameOf path := by
  by_cases there : colon ∈ path
  · obtain ⟨front, name, rfl, plain⟩ := List.eq_append_cons_of_mem there
    rw [nameOf_append plain]
    exact ((Named_append plain name).mp named).2.1
  · rw [nameOf_plain there]
    exact (urlName_iff path).mpr ((Named_plain there).mp named).1

/-- The name is what is behind the last slash in the end, and no colon is left, in these cases only. -/
theorem nameOf_iff (path : Str) :
    (nameOf path = afterSlash (settled (dropColon path)) ∧ colon ∉ settled (dropColon path)) ↔ Named path := by
  by_cases there : colon ∈ path
  · obtain ⟨front, name, rfl, plain⟩ := List.eq_append_cons_of_mem there
    rw [nameOf_append plain, dropColon_append plain, Named_append plain]
    constructor
    · rintro ⟨same, clear⟩
      have bare : slash ∉ name := by
        rw [same]
        exact afterSlash_bare _
      have inside : colon ∉ name := by
        intro member
        rw [same] at member
        obtain ⟨before, whole, -⟩ := exists_front (settled (front ++ name))
        exact clear (by rw [whole]; exact List.mem_append_right _ member)
      exact ⟨inside, bare, (name_eq_iff (findProtocol_append plain bare) bare).mp same⟩
    · rintro ⟨inside, bare, cases⟩
      refine ⟨(name_eq_iff (findProtocol_append plain bare) bare).mpr cases, ?_⟩
      have counts := count_settled (show colon ≠ slash by decide) (front ++ name)
      have none : (front ++ name).count colon = 0 := List.count_eq_zero.mpr (by simp [plain, inside])
      exact List.count_eq_zero.mp (by omega)
  · obtain ⟨front, whole, cut⟩ := exists_front path
    have unprotected : findProtocol path = none := by
      rw [← List.append_nil path]
      exact findProtocol_append there List.not_mem_nil
    have clear : colon ∉ settled path := by
      have counts := count_settled (show colon ≠ slash by decide) path
      rw [List.count_eq_zero.mpr there] at counts
      exact List.count_eq_zero.mp (by omega)
    have iff := @name_eq_iff front (afterSlash path) (whole ▸ unprotected) (afterSlash_bare path)
    rw [← whole] at iff
    rw [nameOf_plain there, dropColon_plain there, Named_plain there]
    constructor
    · rintro ⟨same, -⟩
      have short := (urlName_iff path).mp (by rw [same]; exact afterSlash_bare _)
      rw [urlName_eq short] at same
      rcases iff.mp same with ⟨-, here, up⟩ | ⟨-, dots, -⟩
      · exact ⟨short, here, up⟩
      · rw [cut] at dots
        rcases dots with no | no
        · cases no
        · cases no
    · rintro ⟨short, here, up⟩
      rw [urlName_eq short]
      exact ⟨iff.mpr (.inl ⟨cut, here, up⟩), clear⟩

/- The extension is behind the last full stop. -/
theorem split_getLast (ch : UInt8) (n : Nat) (s : Str) :
    1 < (split ch n s).length → ∃ front, s = front ++ ch :: (split ch n s).getLastD [] := by
  induction n generalizing s with
  | zero => exact fun no => absurd no (by simp [split])
  | succ n ih =>
    intro more
    by_cases there : ch ∈ s
    · obtain ⟨a, b, rfl, plain⟩ := List.eq_append_cons_of_mem there
      rw [split_first n a b plain]
      obtain ⟨piece, pieces, cons⟩ := List.exists_cons_of_ne_nil (split_ne_nil ch n b)
      have last : (a :: split ch n b).getLastD [] = (split ch n b).getLastD [] := by rw [cons]; simp
      rw [last]
      by_cases one : 1 < (split ch n b).length
      · obtain ⟨front, whole⟩ := ih b one
        refine ⟨a ++ ch :: front, ?_⟩
        rw [List.append_assoc, List.cons_append, ← whole]
      · have whole : split ch n b = [b] := by
          cases n with
          | zero => rfl
          | succ n =>
            by_cases there : ch ∈ b
            · obtain ⟨a', b', rfl, plain'⟩ := List.eq_append_cons_of_mem there
              rw [split_first n a' b' plain', List.length_cons] at one
              have some := List.length_pos_iff.mpr (split_ne_nil ch n b')
              omega
            · exact split_whole (n + 1) there
        rw [whole]
        exact ⟨a, rfl⟩
    · rw [split_whole (n + 1) there] at more
      exact absurd more (lt_irrefl 1)

/-- A name is its base name, or that, a full stop and the extension. -/
theorem name_parts (name : Str) : name = baseOf name ∨ name = baseOf name ++ period :: extensionOf name := by
  unfold baseOf
  split
  · exact .inl rfl
  · rename_i some
    right
    unfold extensionOf at some ⊢
    dsimp only at some ⊢
    split at some
    · rename_i more
      obtain ⟨front, whole⟩ := split_getLast period 9998 name more
      rw [if_pos more]
      generalize (split period 9998 name).getLastD [] = extension at whole
      have front_ : name.take (name.length - extension.length - 1) = front := by
        have long := congrArg List.length whole
        rw [List.length_append, List.length_cons] at long
        have cut : name.length - extension.length - 1 = front.length := by omega
        rw [cut, whole, List.take_left' rfl]
      rw [front_]
      exact whole
    · exact absurd rfl some

/- The fields of a url with a path and without a query and a fragment. -/
theorem parseURL_fields {u : Str} (some : u ≠ []) (fresh : Fresh (processScheme u)) :
    UrlParts.SameParts (processScheme u) (parseURL u) ∧
      (parseURL u).path = settled (dropColon (processScheme u).path) ∧
      (parseURL u).name = nameOf (processScheme u).path ∧
      (parseURL u).extension = extensionOf (nameOf (processScheme u).path) ∧
      (parseURL u).base_name = baseOf (nameOf (processScheme u).path) ∧
      (parseURL u).url = (processScheme u).root ++ settled (dropColon (processScheme u).path) := by
  have whole : parseURL u = (processScheme u).processPath.cleanPath.rebuildUrl := if_neg some
  rw [whole]
  exact ⟨fresh.parts, fresh.fields⟩

/-- The url is read again with the fields that it had, where the path is canonical. -/
theorem again_iff {u : Str} (unasked : question ∉ u) (unhashed : hash ∉ u) (some : u ≠ [])
    (form : settled (dropColon (processScheme u).path) = resolved (dropColon (processScheme u).path)) :
    SameFields (parseURL u) (parseURL (parseURL u).url) ↔
      (Readable (processScheme u) (resolved (dropColon (processScheme u).path)) ∧
        colon ∉ resolved (dropColon (processScheme u).path)) ∧
        urlName (resolved (dropColon (processScheme u).path)) = nameOf (processScheme u).path := by
  obtain ⟨cut, fresh⟩ := processScheme_cut unasked unhashed
  have root_ {c : UInt8} (plain : c ∉ u) (other : c ≠ colon ∧ c ≠ slash ∧ c ≠ atSign) (plain' : c ∉ (processScheme u).path) :
      c ∉ (processScheme u).root ++ settled (dropColon (processScheme u).path) := by
    have counts := settled_dropColon_count other.2.1 (processScheme u).path
    rw [List.count_eq_zero.mpr plain'] at counts
    exact fun member => (List.mem_append.mp member).elim (root_plain plain other) (List.count_eq_zero.mp (by omega))
  obtain ⟨-, fresh'⟩ := processScheme_cut (root_ unasked (by decide) fresh.unasked) (root_ unhashed (by decide) fresh.unhashed)
  obtain ⟨parts, path, name, extension, base, url⟩ := parseURL_fields some fresh
  rw [form] at path url fresh'
  have clean := canonical_component (dropColon (processScheme u).path)
  have dotless := canonical_dotless (splitPathComponents (dropColon (processScheme u).path))
  unfold resolved at path url fresh' ⊢
  generalize canonical (splitPathComponents (dropColon (processScheme u).path)) = dirs at *
  generalize ((dropColon (processScheme u).path).getLast? == Option.some slash) = ends at *
  have some' : (parseURL u).url ≠ [] := by
    rw [url]
    intro none
    have head := canonicalForm_head dirs ends
    rw [(List.append_eq_nil_iff.mp none).2] at head
    cases head
  obtain ⟨parts', path', name', extension', base', -⟩ := parseURL_fields some' (url ▸ fresh')
  have root := parts'.root
  rw [← readable_iff cut clean dotless]
  rw [url] at path' name' extension' base' root ⊢
  have named (readable : Readable (processScheme u) (canonicalForm dirs ends)) (plain : colon ∉ canonicalForm dirs ends) :
      nameOf (processScheme ((processScheme u).root ++ canonicalForm dirs ends)).path = urlName (canonicalForm dirs ends) := by
    rw [(processScheme_again cut clean readable).2.2.2, nameOf_plain plain]
  constructor
  · intro same
    have again := And.intro (root.scheme.symm.trans (same.scheme.trans parts.root.scheme))
      (And.intro (root.host.symm.trans (same.host.trans parts.root.host))
        (And.intro (root.port.symm.trans (same.port.trans parts.root.port)) (path'.symm.trans (same.path.trans path))))
    obtain ⟨readable, plain⟩ := (readable_iff cut clean dotless).mp again
    refine ⟨again, ?_⟩
    rw [← named readable plain, ← name', same.name, name]
  · rintro ⟨again, last⟩
    obtain ⟨readable, plain⟩ := (readable_iff cut clean dotless).mp again
    obtain ⟨scheme, host, port, settled_⟩ := again
    rw [named readable plain, last] at name' extension' base'
    exact ⟨(root.scheme.trans scheme).trans parts.root.scheme.symm, (root.host.trans host).trans parts.root.host.symm,
      (root.port.trans port).trans parts.root.port.symm, (path'.trans settled_).trans path.symm, name'.trans name.symm,
      base'.trans base.symm, extension'.trans extension.symm⟩

/- The file and the name make the path, where the name is what it ends in. -/
theorem pathToFile_last {q : PeoplesUrlParser} (last : q.name = afterSlash q.path) :
    q.name <:+ q.path ∧ q.pathToFile ++ q.name = q.path := by
  obtain ⟨front, whole, -⟩ := exists_front q.path
  rw [← last] at whole
  refine ⟨⟨front, whole.symm⟩, ?_⟩
  unfold pathToFile
  by_cases none : q.name = []
  · rw [if_pos (.inl none), none, List.append_nil]
  · have long := congrArg List.length whole
    rw [List.length_append] at long
    have front_ : q.path.take (q.path.length - q.name.length) = front := by
      have cut : q.path.length - q.name.length = front.length := by omega
      rw [cut, whole, List.take_left' rfl]
    rw [if_neg fun no => no.elim none (by omega), front_, ← whole]

/-- The fields are coherent where the name is the last piece, what is put together can be read, and the name is
cut from no more pieces than the parser makes. -/
theorem coherent_parts {u : Str} (some : u ≠ []) (unasked : question ∉ u) (unhashed : hash ∉ u) : Coherent u ↔
    Named (processScheme u).path ∧ Readable (processScheme u) (resolved (dropColon (processScheme u).path)) ∧
      (resolved (dropColon (processScheme u).path)).count slash ≤ 9998 := by
  obtain ⟨-, fresh⟩ := processScheme_cut unasked unhashed
  obtain ⟨-, path, name, extension, base, -⟩ := parseURL_fields some fresh
  have iff := nameOf_iff (processScheme u).path
  constructor
  · intro coherent
    have last := coherent.last
    rw [path, name] at last
    have bare : slash ∉ nameOf (processScheme u).path := by
      rw [last]
      exact afterSlash_bare _
    have form := settled_resolved bare
    obtain ⟨⟨readable, plain⟩, again⟩ := (again_iff unasked unhashed some form).mp coherent.again
    refine ⟨iff.mp ⟨last, by rw [form]; exact plain⟩, readable, (urlName_iff _).mp ?_⟩
    rw [again]
    exact bare
  · rintro ⟨named, readable, short⟩
    have form := settled_resolved named.bare
    obtain ⟨last, plain⟩ := iff.mpr named
    have again : urlName (resolved (dropColon (processScheme u).path)) = nameOf (processScheme u).path := by
      rw [urlName_eq short, last, form]
    rw [form] at plain
    have last' : (parseURL u).name = afterSlash (parseURL u).path := by
      rw [path, name]
      exact last
    obtain ⟨ends, file⟩ := pathToFile_last last'
    refine ⟨ends, file, last', ?_, (again_iff unasked unhashed some form).mpr ⟨⟨readable, plain⟩, again⟩⟩
    rw [name, base, extension]
    exact name_parts _

/-! The parts as they stand in the url -/

/- What is behind the scheme, if there is one, and behind the login of an authority. -/
def pastScheme (u : Str) : Str := if hasScheme u = true then past colon u else u

def authority (u : Str) : Str := (pastScheme u).drop 2

def pastLogin (u : Str) : Str := if atSign ∈ authority u then past atSign (authority u) else authority u

def HasAuthority (u : Str) : Prop := (pastScheme u).take 2 = [slash, slash]

instance (u : Str) : Decidable (HasAuthority u) := inferInstanceAs (Decidable (_ = _))

def userText (u : Str) : Str :=
  if HasAuthority u ∧ atSign ∈ authority u then upTo colon (upTo atSign (authority u)) else []

def hostText (u : Str) : Str := if HasAuthority u then upTo colon (upTo slash (pastLogin u)) else []

def portText (u : Str) : Str := if HasAuthority u then past colon (upTo slash (pastLogin u)) else []

def pathText (u : Str) : Str := if HasAuthority u then (pastLogin u).dropWhile (· ≠ slash) else pastScheme u

/- The components of the path that stay when the dots are gone. -/
def kept (u : Str) : List Str := canonical (splitPathComponents (dropColon (pathText u)))

/-- No '@' makes a login of the host, the port and the path, and no part is in front of nothing. -/
def Legible (u : Str) : Prop :=
  if hostText u ≠ [] then userText u ≠ [] ∨ (atSign ∉ hostText u ∧ atSign ∉ portText u ∧ ∀ d ∈ kept u, atSign ∉ d)
  else if userText u = [] then portText u = [] else [slash, slash] <+: userText u

theorem processAuthorityPath_eq {text : Str} {p : PeoplesUrlParser} (unasked : question ∉ text) (unhashed : hash ∉ text)
    (fresh : p.port = []) (fresh' : p.path = []) : p.processAuthorityPath text =
      { p with
        host := upTo colon (upTo slash text), port := past colon (upTo slash text), path := text.dropWhile (· ≠ slash) } := by
  unfold processAuthorityPath
  by_cases there : slash ∈ text
  · obtain ⟨front, rest, rfl, plain⟩ := List.eq_append_cons_of_mem there
    obtain ⟨front', behind, -⟩ := cut_first plain rest
    rw [find_first plain, front', behind]
    simp only [Option.some_or, List.take_left' rfl, List.drop_left' rfl, processHostPort_eq front fresh]
  · obtain ⟨front, behind, -⟩ := cut_plain there
    rw [find_none there, find_none unasked, find_none unhashed, front, behind]
    simp only [Option.none_or, processHostPort_eq text fresh, ← fresh']

theorem processScheme_past (u : Str) : ∃ scheme, processScheme u = processRest (start u scheme) (pastScheme u) := by
  unfold pastScheme
  rcases hasScheme_cases u with none | ⟨s, rest, rfl, scheme⟩
  · rw [processScheme_plain none, none, if_neg Bool.false_ne_true]
    exact ⟨[], rfl⟩
  · rw [processScheme_scheme scheme, if_pos ((hasScheme_append scheme.colon rest).mpr scheme), (cut_first scheme.colon rest).2.2]
    exact ⟨s, rfl⟩

theorem pastScheme_mem {u : Str} {c : UInt8} (member : c ∈ pastScheme u) : c ∈ u := by
  unfold pastScheme past at member
  split at member
  · exact List.dropWhile_sublist _ |>.subset (List.mem_of_mem_drop member)
  · exact member

/-- The parser cuts the url into these parts. -/
theorem processScheme_texts {u : Str} (unasked : question ∉ u) (unhashed : hash ∉ u) :
    (processScheme u).user = userText u ∧ (processScheme u).host = hostText u ∧ (processScheme u).port = portText u ∧
      (processScheme u).path = pathText u := by
  obtain ⟨scheme, whole⟩ := processScheme_past u
  have unasked' : question ∉ authority u := fun member => unasked (pastScheme_mem (List.mem_of_mem_drop member))
  have unhashed' : hash ∉ authority u := fun member => unhashed (pastScheme_mem (List.mem_of_mem_drop member))
  rw [whole]
  unfold userText hostText portText pathText
  by_cases marked : HasAuthority u
  · have marked' : (pastScheme u).take 2 = [slash, slash] := marked
    obtain ⟨rest, behind⟩ := take_two marked'
    have rest_ : authority u = rest := by rw [authority, behind]; rfl
    rw [processRest, if_pos marked', behind, pastLogin]
    rw [rest_] at unasked' unhashed' ⊢
    by_cases sign : atSign ∈ rest
    · obtain ⟨login, text, rfl, plain⟩ := List.eq_append_cons_of_mem sign
      obtain ⟨front, -, back⟩ := cut_first plain text
      rw [processAuthority_sign plain, processUserPass_eq login rfl,
        processAuthorityPath_eq (fun member => unasked' (by simp [member])) (fun member => unhashed' (by simp [member])) rfl rfl]
      simp only [marked, sign, front, back, and_self, if_true]
    · rw [processAuthority_plain sign, processAuthorityPath_eq unasked' unhashed' rfl rfl]
      simp [marked, sign, start]
  · rw [processRest_plain marked]
    simp [marked, start]

/-- The fields of a url are coherent if and only if the name is the last piece of the path in the end, the parts
are read again as they were, and there are no more pieces than the parser makes. -/
theorem coherent_iff {u : Str} (some : u ≠ []) (unasked : question ∉ u) (unhashed : hash ∉ u) : Coherent u ↔
    Named (pathText u) ∧ Legible u ∧
      (kept u).length + (if (dropColon (pathText u)).getLast? = Option.some slash then 1 else 0) ≤ 9998 := by
  obtain ⟨user, host, port, path⟩ := processScheme_texts unasked unhashed
  have clean := canonical_component (dropColon (pathText u))
  have legible : Readable (processScheme u) (resolved (dropColon (pathText u))) ↔ Legible u := by
    unfold Readable Legible
    rw [user, host, port, resolved, mem_canonicalForm (by decide)]
    simp [kept]
  have short : (resolved (dropColon (pathText u))).count slash ≤ 9998 ↔
      (kept u).length + (if (dropColon (pathText u)).getLast? = Option.some slash then 1 else 0) ≤ 9998 := by
    rw [resolved, count_canonicalForm clean, ← kept]
    simp only [beq_iff_eq]
    split
    · rename_i none
      rw [none]
      exact iff_of_true (by decide) (by split <;> decide)
    · exact Iff.rfl
  rw [coherent_parts some unasked unhashed, path, legible, short]

/- "s://h/d/f.e". -/
def sampleUrl : Str := [0x73, 0x3a, 0x2f, 0x2f, 0x68, 0x2f, 0x64, 0x2f, 0x66, 0x2e, 0x65]

theorem coherent_sample : Coherent sampleUrl := by
  refine (coherent_iff (u := sampleUrl) (by decide) (by decide) (by decide)).mpr ⟨?_, ?_, ?_⟩
  · have path : pathText sampleUrl = [0x2f, 0x64, 0x2f, 0x66, 0x2e, 0x65] := by decide
    rw [path, Named_plain (by decide)]
    decide
  · refine (if_pos ?_).mpr (.inr ⟨?_, ?_, ?_⟩)
    all_goals decide +kernel
  · decide

/-- Of "/a:b" the name is "b", and the path in the end is "/ab". -/
theorem coherent_colon : ¬ ∀ u : Str, u ≠ [] → question ∉ u → hash ∉ u → Coherent u := by
  intro all
  have coherent := all [0x2f, 0x61, 0x3a, 0x62] (by decide) (by decide) (by decide)
  exact absurd coherent.last (by decide)

end Meatloaf.PeoplesUrlParser
