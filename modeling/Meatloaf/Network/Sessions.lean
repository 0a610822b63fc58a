import Mathlib.Data.List.AList
import Mathlib.Logic.Function.Basic
import Meatloaf.Lib.Run
import Meatloaf.Stream.Broker

/-! `SessionBroker`: the network sessions, found by the server they talk to. Clients and the
service task take turns. A critical section under the broker's lock is one step, and so are a
connect, a keep-alive call and the calls on a session that a client holds. -/
namespace Meatloaf

open Lib Function

/- An `MSession` as the broker looks at it, on a steady clock that counts nanoseconds. -/
structure MSession where
  connected : Bool := false
  last_activity : Nat := 0
  keep_alive_interval : Nat := 30000
  idle_grace_period : Nat := 5000
  io_active : Nat := 0

namespace MSession

def getIdleTime (m : MSession) (now : Nat) : Nat := ImageBroker.elapsed now m.last_activity % 2 ^ 32

def updateActivity (m : MSession) (now : Nat) : MSession := { m with last_activity := now }

def acquireIo (m : MSession) (now : Nat) : MSession :=
  { m with io_active := (m.io_active + 1) % 2 ^ 32 }.updateActivity now

def releaseIo (m : MSession) : MSession :=
  if 0 < m.io_active then { m with io_active := m.io_active - 1 } else m

def isBusy (m : MSession) : Bool := decide (0 < m.io_active)

/- What a virtual `connect`, `disconnect` or `keep_alive` may leave behind. -/
def talked (m : MSession) (connected active : Bool) (now : Nat) : MSession :=
  { m with connected := connected, last_activity := if active = true then now else m.last_activity }

end MSession

/- A session that a client holds, and how often the key had been removed when it got it. -/
structure Hold where
  client : Nat
  key : Str
  session : Nat
  removed : Nat
  deriving DecidableEq

/- How far a client is in `obtain`: its `find` missed, or its new session is connected. -/
inductive Obtaining where
  | idle
  | missed (key : Str)
  | made (key : Str) (session : Nat)

/- How far the service task is in `service`. -/
inductive Service where
  | waiting
  | started
  | checking (to_remove : List Str) (to_check : List (Str × Nat))

/-- The broker and those who use it. Sessions are shared objects, here numbers into `heap`.
The last three fields are not kept by the code: when a session was last handed out by `find`,
how often a key was removed, and which sessions were handed out or acquired since the service
last collected. -/
structure SessionBroker where
  heap : Nat → MSession := fun _ => {}
  next : Nat := 0
  clock : Nat
  session_repo : AList (fun _ : Str => Nat) := ∅
  last_keep_alive_check : Nat
  service : Service := .waiting
  clients : Nat → Obtaining := fun _ => .idle
  holds : List Hold := []
  handed : Nat → Option Nat := fun _ => none
  removed : Str → Nat := fun _ => 0
  touched : List Nat := []

namespace SessionBroker

def modify (s : SessionBroker) (id : Nat) (f : MSession → MSession) : SessionBroker :=
  { s with heap := update s.heap id (f (s.heap id)) }

/-- `find`, on its own or as the first half of an `obtain`. -/
def find (s : SessionBroker) (client : Nat) (key : Str) (obtains : Bool) : SessionBroker :=
  match s.clients client, s.session_repo.lookup key with
  | .idle, some id =>
    { s.modify id (·.updateActivity s.clock) with
      holds := ⟨client, key, id, s.removed key⟩ :: s.holds
      handed := update s.handed id (some s.clock)
      touched := id :: s.touched }
  | .idle, none => if obtains = true then { s with clients := update s.clients client (.missed key) } else s
  | _, _ => s

/-- A new session of a type with this keep-alive interval and grace period connects, or not. -/
def connect (s : SessionBroker) (client keep_alive_interval idle_grace_period : Nat) (ok : Bool) :
    SessionBroker :=
  match s.clients client with
  | .missed key =>
    { s with
      heap := update s.heap s.next ⟨ok, s.clock, keep_alive_interval, idle_grace_period, 0⟩
      next := s.next + 1
      clients := update s.clients client (if ok = true then .made key s.next else .idle) }
  | _ => s

/-- `add`. The map's `insert` leaves an entry that is there, and `obtain` returns the session
it made all the same. -/
def add (s : SessionBroker) (client : Nat) : SessionBroker :=
  match s.clients client with
  | .made key id =>
    { s.modify id (·.updateActivity s.clock) with
      session_repo := if key ∈ s.session_repo then s.session_repo else s.session_repo.insert key id
      clients := update s.clients client .idle
      holds := ⟨client, key, id, s.removed key⟩ :: s.holds }
  | _ => s

def acquireIo (s : SessionBroker) (h : Hold) : SessionBroker :=
  if h ∈ s.holds then { s.modify h.session (·.acquireIo s.clock) with touched := h.session :: s.touched } else s

def releaseIo (s : SessionBroker) (h : Hold) : SessionBroker :=
  if h ∈ s.holds then s.modify h.session MSession.releaseIo else s

/- Any other use of a session. -/
def use (s : SessionBroker) (h : Hold) (connected active : Bool) : SessionBroker :=
  if h ∈ s.holds then s.modify h.session (·.talked connected active s.clock) else s

def drop (s : SessionBroker) (h : Hold) : SessionBroker := { s with holds := s.holds.erase h }

/- What `service` makes of one entry: it is passed over, removed, or kept alive. -/
inductive Verdict where
  | skip
  | remove
  | check
  deriving DecidableEq

def judge (s : SessionBroker) (inUse : Str → Bool) (key : Str) (id : Nat) : Verdict :=
  let session := s.heap id
  let idle_time := session.getIdleTime s.clock
  if inUse key = false then
    if session.isBusy = true ∨ idle_time < session.idle_grace_period then .skip else .remove
  else if session.isBusy = true then .skip
  else if session.connected = false then .remove
  else if session.keep_alive_interval ≤ idle_time ∧ 0 < session.keep_alive_interval then .check
  else .skip

/- The keys whose entries get this verdict, each with its session. -/
def judged (s : SessionBroker) (inUse : Str → Bool) (v : Verdict) : List (Str × Nat) :=
  (s.session_repo.entries.filter fun e => s.judge inUse e.1 e.2 = v).map fun e => (e.1, e.2)

/-- `service` up to the lock: once a second at most. -/
def start (s : SessionBroker) : SessionBroker :=
  match s.service with
  | .waiting =>
    if ImageBroker.elapsed s.clock s.last_keep_alive_check < 1000 then s
    else { s with last_keep_alive_check := s.clock, service := .started }
  | _ => s

/-- The first critical section of `service`. -/
def collect (s : SessionBroker) (inUse : Str → Bool) : SessionBroker :=
  match s.service with
  | .started =>
    { s with
      service := .checking ((s.judged inUse .remove).map (·.1)) (s.judged inUse .check)
      touched := [] }
  | _ => s

/-- The next keep-alive call, and the reconnect where it fails. -/
def keepAlive (s : SessionBroker) (alive reconnected connected active : Bool) : SessionBroker :=
  match s.service with
  | .checking to_remove ((key, id) :: to_check) =>
    { s.modify id (·.talked connected active s.clock) with
      service := .checking (if (alive || reconnected) = true then to_remove else to_remove ++ [key]) to_check }
  | _ => s

def disposeByKey (s : SessionBroker) (key : Str) : SessionBroker :=
  match s.session_repo.lookup key with
  | none => s
  | some id =>
    { s.modify id (fun m => if m.isBusy = true then m else { m with connected := false }) with
      session_repo := s.session_repo.erase key
      removed := update s.removed key (s.removed key + 1) }

/-- The second critical section of `service`. -/
def remove (s : SessionBroker) : SessionBroker :=
  match s.service with
  | .checking to_remove [] => { to_remove.foldl disposeByKey s with service := .waiting }
  | _ => s

inductive Step where
  | find (client : Nat) (key : Str) (obtains : Bool)
  | connect (client keep_alive_interval idle_grace_period : Nat) (ok : Bool)
  | add (client : Nat)
  | acquireIo (h : Hold)
  | releaseIo (h : Hold)
  | use (h : Hold) (connected active : Bool)
  | drop (h : Hold)
  | start
  | collect (inUse : Str → Bool)
  | keepAlive (alive reconnected connected active : Bool)
  | remove
  | tick (ns : Nat)

def step (s : SessionBroker) : Step → SessionBroker
  | .find client key obtains => s.find client key obtains
  | .connect client interval grace ok => s.connect client interval grace ok
  | .add client => s.add client
  | .acquireIo h => s.acquireIo h
  | .releaseIo h => s.releaseIo h
  | .use h connected active => s.use h connected active
  | .drop h => s.drop h
  | .start => s.start
  | .collect inUse => s.collect inUse
  | .keepAlive alive reconnected connected active => s.keepAlive alive reconnected connected active
  | .remove => s.remove
  | .tick ns => { s with clock := s.clock + ns }

/- At boot, with the clock somewhere. -/
def boot (clock : Nat) : SessionBroker := { clock := clock, last_keep_alive_check := clock }

/- Not handed out by `find` less than its grace period ago. -/
def Rested (s : SessionBroker) (id : Nat) : Prop :=
  ∀ t ∈ s.handed id, (s.heap id).idle_grace_period ≤ ImageBroker.elapsed s.clock t

/-- The clients that got the same key, which is in the repository and was not removed since,
hold the same session. -/
def OneObject (s : SessionBroker) : Prop :=
  ∀ h ∈ s.holds, ∀ h' ∈ s.holds, h.key = h'.key → h.key ∈ s.session_repo →
    h.removed = s.removed h.key → h'.removed = s.removed h'.key → h.session = h'.session

/-- Whatever leaves the repository in a step, or is disconnected by the removal, was idle and
had not been handed out within its grace period. -/
def Spares (s : SessionBroker) (a : Step) : Prop :=
  ∀ key id, s.session_repo.lookup key = some id →
    ((s.step a).session_repo.lookup key ≠ some id ∨
      a = .remove ∧ ((s.step a).heap id).connected ≠ (s.heap id).connected) →
    (s.heap id).isBusy = false ∧ s.Rested id

/-- No two clients create one key at a time, a session that its users left unconnected or
that fails its keep-alive was not handed out within its grace period, and what is removed was
neither handed out nor acquired since it was collected. -/
def Orderly (s : SessionBroker) : Step → Prop
  | .add client =>
    match s.clients client with
    | .made key _ => key ∉ s.session_repo
    | _ => True
  | .collect inUse =>
    ∀ e ∈ s.session_repo.entries, inUse e.1 = true → s.judge inUse e.1 e.2 = .remove → s.Rested e.2
  | .keepAlive alive reconnected _ _ =>
    match s.service with
    | .checking _ ((_, id) :: _) => (alive || reconnected) = true ∨ s.Rested id
    | _ => True
  | .remove =>
    match s.service with
    | .checking to_remove [] => ∀ key ∈ to_remove, ∀ id ∈ s.session_repo.lookup key, id ∉ s.touched
    | _ => True
  | _ => True

/- A session that was handed out is dated then or later, and not from the future. -/
structure Dated (s : SessionBroker) : Prop where
  past : ∀ id, ∀ t ∈ s.handed id, t ≤ s.clock
  seen : ∀ id, ∀ t ∈ s.handed id, t ≤ (s.heap id).last_activity

theorem Dated.modify {s : SessionBroker} (dated : s.Dated) (id : Nat) (f : MSession → MSession)
    (dates : (f (s.heap id)).last_activity = s.clock ∨
      (f (s.heap id)).last_activity = (s.heap id).last_activity) : (s.modify id f).Dated := by
  refine ⟨dated.past, fun other t since => ?_⟩
  have seen := dated.seen other t since
  have past := dated.past other t since
  simp only [SessionBroker.modify]
  by_cases same : other = id
  · subst other
    rw [update_self]
    rcases dates with now | kept
    · exact now.symm ▸ past
    · exact kept.symm ▸ seen
  · rwa [update_of_ne same]

theorem disposeByKey_dated {s : SessionBroker} (key : Str) (dated : s.Dated) : (s.disposeByKey key).Dated := by
  unfold disposeByKey
  split
  · exact dated
  · rename_i id _
    have kept := dated.modify id (fun m => if m.isBusy = true then m else { m with connected := false })
      (.inr (by split <;> rfl))
    exact ⟨kept.past, kept.seen⟩

/-- Every step keeps the dates. -/
theorem step_dated {s : SessionBroker} (a : Step) (dated : s.Dated) : (s.step a).Dated := by
  have talks (id : Nat) (connected active : Bool) : (s.modify id (·.talked connected active s.clock)).Dated :=
    dated.modify id _ (by cases active <;> simp [MSession.talked])
  cases a with
  | find client key obtains =>
    simp only [step, find]
    split
    · rename_i id _ _
      have moved := dated.modify id (·.updateActivity s.clock) (.inl rfl)
      constructor
      · intro other t since
        simp only [update_apply] at since
        split at since
        · exact (Option.mem_some_iff.mp since).ge
        · exact dated.past other t since
      · intro other t since
        simp only [update_apply] at since
        split at since
        · rename_i same
          have now := Option.mem_some_iff.mp since
          simp [SessionBroker.modify, same, MSession.updateActivity, now]
        · exact moved.seen other t since
    · split <;> exact ⟨dated.past, dated.seen⟩
    · exact dated
  | connect client interval grace ok =>
    simp only [step, connect]
    split
    · refine ⟨dated.past, fun other t since => ?_⟩
      simp only [update_apply]
      split
      · exact dated.past other t since
      · exact dated.seen other t since
    · exact dated
  | add client =>
    simp only [step, add]
    split
    · rename_i id _
      have moved := dated.modify id (·.updateActivity s.clock) (.inl rfl)
      exact ⟨moved.past, moved.seen⟩
    · exact dated
  | acquireIo h =>
    simp only [step, acquireIo]
    split
    · have moved := dated.modify h.session (·.acquireIo s.clock) (.inl rfl)
      exact ⟨moved.past, moved.seen⟩
    · exact dated
  | releaseIo h =>
    simp only [step, releaseIo]
    split
    · exact dated.modify h.session _ (.inr (by unfold MSession.releaseIo; split <;> rfl))
    · exact dated
  | use h connected active =>
    simp only [step, use]
    split
    · exact talks h.session connected active
    · exact dated
  | drop h => exact ⟨dated.past, dated.seen⟩
  | start =>
    simp only [step, start]
    split
    · split
      · exact dated
      · exact ⟨dated.past, dated.seen⟩
    · exact dated
  | collect inUse =>
    simp only [step, collect]
    split
    · exact ⟨dated.past, dated.seen⟩
    · exact dated
  | keepAlive alive reconnected connected active =>
    simp only [step, keepAlive]
    split
    · rename_i id _ _
      exact ⟨(talks id connected active).past, (talks id connected active).seen⟩
    · exact dated
  | remove =>
    simp only [step, remove]
    split
    · rename_i to_remove _
      have gone : (to_remove.foldl disposeByKey s).Dated :=
        List.foldlRecOn to_remove disposeByKey dated fun _ kept key _ => disposeByKey_dated key kept
      exact ⟨gone.past, gone.seen⟩
    · exact dated
  | tick ns =>
    exact ⟨fun id t since => (dated.past id t since).trans (Nat.le_add_right _ _), dated.seen⟩

/- The sessions in the repository and those about to be added were made. -/
structure Placed (s : SessionBroker) : Prop where
  below : ∀ key id, s.session_repo.lookup key = some id → id < s.next
  made : ∀ client key id, s.clients client = .made key id → id < s.next

/- An entry that an erasure left was there before. -/
theorem disposeByKey_lookup (s : SessionBroker) (key other : Str) :
    (s.disposeByKey key).session_repo.lookup other =
      if other = key then none else s.session_repo.lookup other := by
  unfold disposeByKey
  split
  · rename_i absent
    split
    · rename_i same
      rw [same, absent]
    · rfl
  · split
    · rename_i same
      rw [same, AList.lookup_erase]
    · rename_i differs
      exact AList.lookup_erase_ne differs

@[simp] theorem disposeByKey_clients (s : SessionBroker) (key : Str) : (s.disposeByKey key).clients = s.clients := by
  unfold disposeByKey
  split <;> rfl

@[simp] theorem disposeByKey_next (s : SessionBroker) (key : Str) : (s.disposeByKey key).next = s.next := by
  unfold disposeByKey
  split <;> rfl

theorem disposeByKey_placed {s : SessionBroker} (key : Str) (placed : s.Placed) : (s.disposeByKey key).Placed := by
  refine ⟨fun other id found => ?_, fun client other id made => ?_⟩
  · rw [disposeByKey_lookup] at found
    split at found
    · cases found
    · exact (disposeByKey_next s key).symm ▸ placed.below other id found
  · rw [disposeByKey_clients] at made
    exact (disposeByKey_next s key).symm ▸ placed.made client other id made

/-- Every step keeps the sessions made. -/
theorem step_placed {s : SessionBroker} (a : Step) (placed : s.Placed) : (s.step a).Placed := by
  have moves {clients : Nat → Obtaining} (client : Nat) (pc : Obtaining)
      (no : ∀ key id, pc = .made key id → id < s.next) (same : clients = update s.clients client pc) :
      ∀ other key id, clients other = .made key id → id < s.next := by
    intro other key id made
    rw [same, update_apply] at made
    split at made
    · exact no key id made
    · exact placed.made other key id made
  cases a with
  | find client key obtains =>
    simp only [step, find]
    split
    · exact ⟨placed.below, placed.made⟩
    · split
      · exact ⟨placed.below, moves client (.missed key) nofun rfl⟩
      · exact placed
    · exact placed
  | connect client interval grace ok =>
    simp only [step, connect]
    split
    · rename_i key _
      refine ⟨fun other id found => (placed.below other id found).trans (Nat.lt_succ_self _), ?_⟩
      intro other made id is_made
      simp only [update_apply] at is_made
      split at is_made
      · split at is_made
        · cases is_made
          exact Nat.lt_succ_self _
        · cases is_made
      · exact (placed.made other made id is_made).trans (Nat.lt_succ_self _)
    · exact placed
  | add client =>
    simp only [step, add]
    split
    · rename_i key id is_made
      refine ⟨fun other at_key found => ?_, moves client .idle nofun rfl⟩
      simp only at found
      split at found
      · exact placed.below other at_key found
      · by_cases same : other = key
        · rw [same, AList.lookup_insert] at found
          cases found
          exact placed.made client key id is_made
        · rw [AList.lookup_insert_ne same] at found
          exact placed.below other at_key found
    · exact placed
  | acquireIo h | releaseIo h | use h connected active =>
    simp only [step, acquireIo, releaseIo, use]
    split <;> exact ⟨placed.below, placed.made⟩
  | drop h | tick ns => exact ⟨placed.below, placed.made⟩
  | start =>
    simp only [step, start]
    split
    · split <;> exact ⟨placed.below, placed.made⟩
    · exact placed
  | collect inUse | keepAlive alive reconnected connected active =>
    simp only [step, collect, keepAlive]
    split <;> exact ⟨placed.below, placed.made⟩
  | remove =>
    simp only [step, remove]
    split
    · rename_i to_remove _
      have gone : (to_remove.foldl disposeByKey s).Placed :=
        List.foldlRecOn to_remove disposeByKey placed fun _ kept key _ => disposeByKey_placed key kept
      exact ⟨gone.below, gone.made⟩
    · exact placed

/- What a client got and nobody removed since is the session in the repository. -/
structure Held (s : SessionBroker) : Prop where
  earlier : ∀ h ∈ s.holds, h.removed ≤ s.removed h.key
  current : ∀ h ∈ s.holds, h.removed = s.removed h.key → s.session_repo.lookup h.key = some h.session

theorem Held.oneObject {s : SessionBroker} (held : s.Held) : s.OneObject := by
  intro h mem h' mem' same _ now now'
  have first := held.current h mem now
  have second := held.current h' mem' now'
  rw [same, second] at first
  exact (Option.some_inj.mp first).symm

theorem disposeByKey_held {s : SessionBroker} (key : Str) (held : s.Held) : (s.disposeByKey key).Held := by
  have holds : (s.disposeByKey key).holds = s.holds := by
    unfold disposeByKey
    split <;> rfl
  have removed (other : Str) : (s.disposeByKey key).removed other =
      if other = key ∧ key ∈ s.session_repo then s.removed other + 1 else s.removed other := by
    unfold disposeByKey
    split
    · rename_i absent
      rw [if_neg fun here => AList.lookup_eq_none.mp absent here.2]
    · rename_i id found
      have mem : key ∈ s.session_repo := AList.lookup_isSome.mp (found ▸ rfl)
      simp only [mem, and_true, update_apply]
      split
      · rename_i same
        rw [same]
      · rfl
  constructor
  · intro h mem
    rw [removed]
    have before := held.earlier h (holds ▸ mem)
    split
    · exact before.trans (Nat.le_succ _)
    · exact before
  · intro h mem now
    rw [removed] at now
    have before := held.earlier h (holds ▸ mem)
    split at now
    · omega
    · rename_i kept
      have found := held.current h (holds ▸ mem) now
      have mem : h.key ∈ s.session_repo := AList.lookup_isSome.mp (found ▸ rfl)
      rw [disposeByKey_lookup, if_neg fun same => kept ⟨same, same ▸ mem⟩]
      exact found

/-- An orderly step keeps what the clients hold. -/
theorem step_held {s : SessionBroker} (a : Step) (held : s.Held) (orderly : s.Orderly a) : (s.step a).Held := by
  cases a with
  | find client key obtains =>
    simp only [step, find]
    split
    · rename_i id _ found
      refine ⟨List.forall_mem_cons.mpr ⟨le_rfl, held.earlier⟩, List.forall_mem_cons.mpr ⟨fun _ => found, held.current⟩⟩
    · split <;> exact ⟨held.earlier, held.current⟩
    · exact held
  | connect client interval grace ok =>
    simp only [step, connect]
    split <;> exact ⟨held.earlier, held.current⟩
  | add client =>
    simp only [step, add]
    split
    · rename_i key id is_made
      have absent : key ∉ s.session_repo := by simpa [Orderly, is_made] using orderly
      simp only [if_neg absent]
      refine ⟨List.forall_mem_cons.mpr ⟨le_rfl, held.earlier⟩, List.forall_mem_cons.mpr ⟨fun _ => ?_, fun h mem now => ?_⟩⟩
      · exact AList.lookup_insert s.session_repo
      · have found := held.current h mem now
        -- a client that still held the key would have its session in the repository
        have differs : h.key ≠ key := fun same =>
          absent (AList.lookup_isSome.mp (same ▸ found ▸ rfl))
        exact (AList.lookup_insert_ne differs).trans found
    · exact held
  | acquireIo h | releaseIo h | use h connected active =>
    simp only [step, acquireIo, releaseIo, use]
    split <;> exact ⟨held.earlier, held.current⟩
  | drop h =>
    exact ⟨fun other mem => held.earlier other (List.mem_of_mem_erase mem),
      fun other mem => held.current other (List.mem_of_mem_erase mem)⟩
  | tick ns => exact ⟨held.earlier, held.current⟩
  | start =>
    simp only [step, start]
    split
    · split <;> exact ⟨held.earlier, held.current⟩
    · exact held
  | collect inUse | keepAlive alive reconnected connected active =>
    simp only [step, collect, keepAlive]
    split <;> exact ⟨held.earlier, held.current⟩
  | remove =>
    simp only [step, remove]
    split
    · rename_i to_remove _
      have gone : (to_remove.foldl disposeByKey s).Held :=
        List.foldlRecOn to_remove disposeByKey held fun _ kept key _ => disposeByKey_held key kept
      exact ⟨gone.earlier, gone.current⟩
    · exact held

/- Every step but the removal leaves the entries of the repository. -/
theorem step_lookup {s : SessionBroker} {a : Step} (serves : a ≠ .remove) {key : Str} {id : Nat}
    (found : s.session_repo.lookup key = some id) : (s.step a).session_repo.lookup key = some id := by
  cases a with
  | add client =>
    simp only [step, add]
    split
    · rename_i made _ _
      simp only
      split
      · exact found
      · rename_i absent
        have differs : key ≠ made := fun same => absent (AList.lookup_isSome.mp (same ▸ found ▸ rfl))
        exact (AList.lookup_insert_ne differs).trans found
    · exact found
  | find client at_key obtains =>
    simp only [step, find]
    split
    · exact found
    · split <;> exact found
    · exact found
  | start =>
    simp only [step, start]
    split
    · split <;> exact found
    · exact found
  | connect client interval grace ok =>
    simp only [step, connect]
    split <;> exact found
  | acquireIo h | releaseIo h | use h connected active | collect inUse
      | keepAlive alive reconnected connected active =>
    simp only [step, acquireIo, releaseIo, use, collect, keepAlive]
    split <;> exact found
  | drop h | tick ns => exact found
  | remove => exact absurd rfl serves

/- The session of this key may go, unless a client touched it since it was collected. -/
def Removable (s : SessionBroker) (key : Str) : Prop :=
  ∃ id, s.session_repo.lookup key = some id ∧ (id ∉ s.touched → (s.heap id).isBusy = false ∧ s.Rested id)

/-- What the service knows between its critical sections of the keys it will remove and the
sessions it will check. -/
structure Passing (s : SessionBroker) : Prop where
  removing : ∀ to_remove to_check, s.service = .checking to_remove to_check → ∀ key ∈ to_remove, s.Removable key
  checking : ∀ to_remove to_check, s.service = .checking to_remove to_check → ∀ e ∈ to_check,
    s.session_repo.lookup e.1 = some e.2 ∧ (e.2 ∉ s.touched → (s.heap e.2).isBusy = false)

theorem elapsed_mono {now later since : Nat} (h : now ≤ later) :
    ImageBroker.elapsed now since ≤ ImageBroker.elapsed later since :=
  Nat.div_le_div_right (Nat.sub_le_sub_right h since)

/- A session that is not touched stays as idle as it was. -/
structure Leaves (s s' : SessionBroker) (id : Nat) : Prop where
  touched : id ∉ s.touched
  busy : (s.heap id).isBusy = false → (s'.heap id).isBusy = false
  grace : (s'.heap id).idle_grace_period = (s.heap id).idle_grace_period
  handed : s'.handed id = s.handed id

theorem Leaves.rested {s s' : SessionBroker} {id : Nat} (leaves : Leaves s s' id) (clock : s.clock ≤ s'.clock)
    (rested : s.Rested id) : s'.Rested id := by
  intro t since
  rw [leaves.grace]
  exact (rested t (leaves.handed ▸ since)).trans (elapsed_mono clock)

/- A step outside the service keeps what the service knows, if it leaves the sessions in the
repository that it does not touch. -/
theorem Passing.kept {s s' : SessionBroker} (passing : s.Passing) (service : s'.service = s.service)
    (clock : s.clock ≤ s'.clock)
    (lookup : ∀ key id, s.session_repo.lookup key = some id → s'.session_repo.lookup key = some id)
    (leaves : ∀ key id, s.session_repo.lookup key = some id → id ∉ s'.touched → Leaves s s' id) :
    s'.Passing := by
  constructor
  · intro to_remove to_check at_pass key mem
    obtain ⟨id, found, idle⟩ := passing.removing to_remove to_check (service ▸ at_pass) key mem
    refine ⟨id, lookup key id found, fun untouched => ?_⟩
    have same := leaves key id found untouched
    have was := idle same.touched
    exact ⟨same.busy was.1, same.rested clock was.2⟩
  · intro to_remove to_check at_pass e mem
    obtain ⟨found, idle⟩ := passing.checking to_remove to_check (service ▸ at_pass) e mem
    refine ⟨lookup e.1 e.2 found, fun untouched => ?_⟩
    have same := leaves e.1 e.2 found untouched
    exact same.busy (idle same.touched)

theorem Passing.outside {s : SessionBroker} (outside : ∀ to_remove to_check, s.service ≠ .checking to_remove to_check) :
    s.Passing :=
  ⟨fun to_remove to_check at_pass => absurd at_pass (outside to_remove to_check),
    fun to_remove to_check at_pass => absurd at_pass (outside to_remove to_check)⟩

theorem leaves_modify {s : SessionBroker} (id : Nat) (f : MSession → MSession)
    (busy : (s.heap id).isBusy = false → (f (s.heap id)).isBusy = false)
    (grace : (f (s.heap id)).idle_grace_period = (s.heap id).idle_grace_period)
    {other : Nat} (untouched : other ∉ s.touched) : Leaves s (s.modify id f) other := by
  by_cases same : other = id
  · subst other
    refine ⟨untouched, ?_, ?_, rfl⟩
    · simpa [SessionBroker.modify] using busy
    · simpa [SessionBroker.modify] using grace
  · refine ⟨untouched, ?_, ?_, rfl⟩
    · simp [SessionBroker.modify, update_of_ne same]
    · simp [SessionBroker.modify, update_of_ne same]

theorem releaseIo_idle {m : MSession} (idle : m.isBusy = false) : m.releaseIo.isBusy = false := by
  simp only [MSession.isBusy, decide_eq_false_iff_not] at *
  rwa [MSession.releaseIo, if_neg idle]

theorem releaseIo_grace (m : MSession) : m.releaseIo.idle_grace_period = m.idle_grace_period := by
  unfold MSession.releaseIo
  split <;> rfl

/- A collected session is not busy, and one that nobody uses has been idle for its grace period. -/
theorem judge_idle {s : SessionBroker} {inUse : Str → Bool} {key : Str} {id : Nat}
    (judged : s.judge inUse key id ≠ .skip) : (s.heap id).isBusy = false := by
  by_contra busy
  simp [judge, Bool.not_eq_false _ ▸ busy] at judged

theorem judge_remove {s : SessionBroker} {inUse : Str → Bool} {key : Str} {id : Nat}
    (judged : s.judge inUse key id = .remove) (unused : inUse key = false) :
    (s.heap id).idle_grace_period ≤ (s.heap id).getIdleTime s.clock := by
  by_contra recent
  simp [judge, unused, Nat.lt_of_not_le recent] at judged

theorem Dated.rested {s : SessionBroker} (dated : s.Dated) {id : Nat}
    (idle : (s.heap id).idle_grace_period ≤ (s.heap id).getIdleTime s.clock) : s.Rested id := by
  intro t since
  calc (s.heap id).idle_grace_period
    _ ≤ (s.heap id).getIdleTime s.clock := idle
    _ ≤ ImageBroker.elapsed s.clock (s.heap id).last_activity := Nat.mod_le _ _
    _ ≤ ImageBroker.elapsed s.clock t := Nat.div_le_div_right (Nat.sub_le_sub_left (dated.seen id t since) _)

theorem mem_judged {s : SessionBroker} {inUse : Str → Bool} {v : Verdict} {e : Str × Nat}
    (mem : e ∈ s.judged inUse v) :
    s.session_repo.lookup e.1 = some e.2 ∧ ⟨e.1, e.2⟩ ∈ s.session_repo.entries ∧ s.judge inUse e.1 e.2 = v := by
  obtain ⟨entry, kept, rfl⟩ := List.mem_map.mp mem
  obtain ⟨at_repo, verdict⟩ := List.mem_filter.mp kept
  exact ⟨AList.mem_lookup_iff.mpr at_repo, at_repo, of_decide_eq_true verdict⟩

theorem collect_passing {s : SessionBroker} {inUse : Str → Bool} (passing : s.Passing) (dated : s.Dated)
    (orderly : s.Orderly (.collect inUse)) : (s.collect inUse).Passing := by
  unfold collect
  split
  · constructor
    · rintro to_remove to_check ⟨⟩ key mem
      obtain ⟨e, collected, rfl⟩ := List.mem_map.mp mem
      obtain ⟨found, entry, verdict⟩ := mem_judged collected
      refine ⟨e.2, found, fun _ => ⟨judge_idle (verdict.trans_ne nofun), ?_⟩⟩
      cases used : inUse e.1 with
      | true => exact orderly ⟨e.1, e.2⟩ entry used verdict
      | false => exact dated.rested (judge_remove verdict used)
    · rintro to_remove to_check ⟨⟩ e mem
      obtain ⟨found, _, verdict⟩ := mem_judged mem
      exact ⟨found, fun _ => judge_idle (verdict.trans_ne nofun)⟩
  · exact passing

theorem keepAlive_passing {s : SessionBroker} {alive reconnected connected active : Bool} (passing : s.Passing)
    (orderly : s.Orderly (.keepAlive alive reconnected connected active)) :
    (s.keepAlive alive reconnected connected active).Passing := by
  unfold keepAlive
  split
  · rename_i to_remove key id to_check at_pass
    have leaves {other : Nat} (untouched : other ∉ s.touched) :
        Leaves s (s.modify id (·.talked connected active s.clock)) other := leaves_modify id _ (fun idle => idle) rfl untouched
    have removing := passing.removing _ _ at_pass
    have checking := passing.checking _ _ at_pass
    rw [List.forall_mem_cons] at checking
    have failing (failed : (alive || reconnected) = false) : s.Removable key := by
      refine ⟨id, checking.1.1, fun untouched => ⟨checking.1.2 untouched, ?_⟩⟩
      simpa [Orderly, at_pass, failed] using orderly
    constructor
    · rintro removed checked ⟨⟩ other mem
      have before : s.Removable other := by
        split at mem
        · exact removing other mem
        · rename_i failed
          rcases List.mem_append.mp mem with old | new
          · exact removing other old
          · rw [List.mem_singleton.mp new]
            exact failing (Bool.not_eq_true _ ▸ failed)
      obtain ⟨at_key, found, idle⟩ := before
      refine ⟨at_key, found, fun untouched => ?_⟩
      have was := idle untouched
      have same := leaves untouched
      exact ⟨same.busy was.1, fun t since => same.rested le_rfl was.2 t since⟩
    · rintro removed checked ⟨⟩ e mem
      obtain ⟨found, idle⟩ := checking.2 e mem
      exact ⟨found, fun untouched => (leaves untouched).busy (idle untouched)⟩
  · exact passing

theorem find_passing {s : SessionBroker} {client : Nat} {key : Str} {obtains : Bool} (passing : s.Passing) :
    (s.find client key obtains).Passing := by
  unfold find
  split
  · rename_i id _ _
    refine passing.kept rfl le_rfl (fun _ _ found => found) fun _ other _ untouched => ?_
    obtain ⟨differs, untouched⟩ := not_or.mp (mt List.mem_cons.mpr untouched)
    have same := leaves_modify (s := s) id (·.updateActivity s.clock) (fun idle => idle) rfl untouched
    exact ⟨same.touched, same.busy, same.grace, update_of_ne differs _ _⟩
  · split
    · exact ⟨passing.removing, passing.checking⟩
    · exact passing
  · exact passing

theorem connect_passing {s : SessionBroker} {client interval grace : Nat} {ok : Bool} (passing : s.Passing)
    (placed : s.Placed) : (s.connect client interval grace ok).Passing := by
  unfold connect
  split
  · refine passing.kept rfl le_rfl (fun _ _ found => found) fun key id found untouched => ?_
    have differs : id ≠ s.next := (placed.below key id found).ne
    refine ⟨untouched, ?_, ?_, rfl⟩
    · simp [update_of_ne differs]
    · simp [update_of_ne differs]
  · exact passing

theorem add_passing {s : SessionBroker} {client : Nat} (passing : s.Passing) : (s.add client).Passing := by
  have lookup (key : Str) (id : Nat) (found : s.session_repo.lookup key = some id) :
      (s.add client).session_repo.lookup key = some id := step_lookup (a := .add client) nofun found
  revert lookup
  unfold add
  split
  · rename_i id _
    intro lookup
    refine passing.kept rfl le_rfl lookup fun _ other _ untouched => ?_
    have same := leaves_modify (s := s) id (·.updateActivity s.clock) (fun idle => idle) rfl untouched
    exact ⟨same.touched, same.busy, same.grace, same.handed⟩
  · exact fun _ => passing

/-- An orderly step keeps what the service knows. -/
theorem step_passing {s : SessionBroker} (a : Step) (passing : s.Passing) (dated : s.Dated) (placed : s.Placed)
    (orderly : s.Orderly a) : (s.step a).Passing := by
  cases a with
  | find client key obtains => exact find_passing passing
  | connect client interval grace ok => exact connect_passing passing placed
  | add client => exact add_passing passing
  | acquireIo h =>
    simp only [step, acquireIo]
    split
    · refine passing.kept rfl le_rfl (fun _ _ found => found) fun _ other _ untouched => ?_
      obtain ⟨differs, untouched⟩ := not_or.mp (mt List.mem_cons.mpr untouched)
      refine ⟨untouched, ?_, ?_, rfl⟩
      · simp [SessionBroker.modify, update_of_ne differs]
      · simp [SessionBroker.modify, update_of_ne differs]
    · exact passing
  | releaseIo h =>
    simp only [step, releaseIo]
    split
    · exact passing.kept rfl le_rfl (fun _ _ found => found) fun _ other _ untouched =>
        leaves_modify h.session _ releaseIo_idle (releaseIo_grace _) untouched
    · exact passing
  | use h connected active =>
    simp only [step, use]
    split
    · exact passing.kept rfl le_rfl (fun _ _ found => found) fun _ other _ untouched =>
        leaves_modify h.session _ (fun idle => idle) rfl untouched
    · exact passing
  | drop h => exact ⟨passing.removing, passing.checking⟩
  | start =>
    simp only [step, start]
    split
    · split
      · exact passing
      · exact Passing.outside nofun
    · exact passing
  | collect inUse => exact collect_passing passing dated orderly
  | keepAlive alive reconnected connected active => exact keepAlive_passing passing orderly
  | remove =>
    simp only [step, remove]
    split
    · exact Passing.outside nofun
    · exact passing
  | tick ns =>
    exact passing.kept rfl (Nat.le_add_right _ _) (fun _ _ found => found) fun _ other _ untouched =>
      ⟨untouched, fun idle => idle, rfl, rfl⟩

theorem disposeAll_lookup (s : SessionBroker) (to_remove : List Str) (key : Str) (kept : key ∉ to_remove) :
    (to_remove.foldl disposeByKey s).session_repo.lookup key = s.session_repo.lookup key := by
  induction to_remove generalizing s with
  | nil => rfl
  | cons first rest ih =>
    obtain ⟨differs, kept⟩ := not_or.mp (mt List.mem_cons.mpr kept)
    rw [List.foldl_cons, ih _ kept, disposeByKey_lookup, if_neg differs]

/- A removal disconnects the sessions of its keys and no others. -/
theorem disposeAll_heap (s : SessionBroker) (to_remove : List Str) (id : Nat)
    (others : ∀ key ∈ to_remove, s.session_repo.lookup key ≠ some id) :
    (to_remove.foldl disposeByKey s).heap id = s.heap id := by
  induction to_remove generalizing s with
  | nil => rfl
  | cons first rest ih =>
    rw [List.forall_mem_cons] at others
    have first_kept : (s.disposeByKey first).heap id = s.heap id := by
      unfold disposeByKey
      split
      · rfl
      · rename_i at_first found
        have differs : id ≠ at_first := fun same => others.1 (same ▸ found)
        exact update_of_ne differs _ _
    rw [List.foldl_cons, ih _ fun key mem found => ?_, first_kept]
    rw [disposeByKey_lookup] at found
    split at found
    · cases found
    · exact others.2 key mem found

/-- In a state the service knows enough of, an orderly step takes no session from its users. -/
theorem step_spares {s : SessionBroker} (a : Step) (passing : s.Passing) (orderly : s.Orderly a) : s.Spares a := by
  intro key id found taken
  by_cases serves : a = .remove
  · subst a
    cases at_pass : s.service with
    | checking to_remove to_check =>
      cases to_check with
      | nil =>
        -- the session is that of a key on the list
        have listed : ∃ at_key ∈ to_remove, s.session_repo.lookup at_key = some id := by
          by_contra others
          push Not at others
          simp only [step, remove, at_pass] at taken
          rcases taken with gone | cut
          · refine gone ((disposeAll_lookup s to_remove key fun mem => others key mem found).trans found)
          · exact cut.2 (congrArg MSession.connected (disposeAll_heap s to_remove id others))
        obtain ⟨at_key, mem, at_id⟩ := listed
        obtain ⟨other, same, idle⟩ := passing.removing to_remove [] at_pass at_key mem
        cases at_id.symm.trans same
        have untouched : id ∉ s.touched := by
          simp only [Orderly, at_pass] at orderly
          exact orderly at_key mem id at_id
        exact idle untouched
      | cons e rest => simp [step, remove, at_pass, found] at taken
    | waiting | started => simp [step, remove, at_pass, found] at taken
  · rcases taken with gone | cut
    · exact absurd (step_lookup serves found) gone
    · exact absurd cut.1 serves

structure Sound (s : SessionBroker) : Prop where
  dated : s.Dated
  placed : s.Placed
  held : s.Held
  passing : s.Passing

theorem boot_sound (clock : Nat) : (boot clock).Sound where
  dated := ⟨nofun, nofun⟩
  placed := ⟨nofun, nofun⟩
  held := ⟨nofun, nofun⟩
  passing := Passing.outside nofun

theorem step_sound (s : SessionBroker) (a : Step) (sound : s.Sound) (orderly : s.Orderly a) : (s.step a).Sound where
  dated := step_dated a sound.dated
  placed := step_placed a sound.placed
  held := step_held a sound.held orderly
  passing := step_passing a sound.passing sound.dated sound.placed orderly

/-- In every run of orderly steps the clients of a key hold one session, and the service takes
no session from its users. -/
theorem orderly_safe (clock : Nat) (steps : List Step) (orderly : Along step Orderly (boot clock) steps) :
    Along step (fun s a => (s.step a).OneObject ∧ s.Spares a) (boot clock) steps :=
  Along.imp step_sound (fun s a sound orderly =>
    ⟨(step_sound s a sound orderly).held.oneObject, step_spares a sound.passing orderly⟩)
    (boot_sound clock) orderly

/- `tcp://a:1` -/
def server : Str := [116, 99, 112, 58, 47, 47, 97, 58, 49]

/- The first session of the server, as two clients hold it. -/
def first : Hold := ⟨1, server, 0, 0⟩
def second : Hold := ⟨2, server, 0, 0⟩

/- The session is busy in the first pass. In the second nobody has used it for twelve seconds. -/
def turns : List Step :=
  [.find 1 server true, .connect 1 30000 5000 true, .add 1, .find 2 server false, .acquireIo second,
    .tick 6000000000, .start, .collect fun _ => false, .remove, .releaseIo second,
    .tick 6000000000, .start, .collect fun _ => false, .remove]

theorem orderly_safe_turns : server ∉ (turns.foldl step (boot 0)).session_repo ∧
    Along step (fun s a => (s.step a).OneObject ∧ s.Spares a) (boot 0) turns :=
  ⟨by decide, orderly_safe 0 turns
    ⟨trivial, trivial, (by decide : server ∉ (∅ : AList fun _ : Str => Nat)), trivial, trivial, trivial, trivial,
      (fun _ _ used => absurd used nofun), nofun, trivial, trivial, trivial, (fun _ _ used => absurd used nofun),
      fun _ _ _ _ => List.not_mem_nil, trivial⟩⟩

/- Both miss before either adds. -/
def race : List Step :=
  [.find 1 server true, .find 2 server true, .connect 1 30000 5000 true, .connect 2 30000 5000 true, .add 1, .add 2]

/- A client finds the session between the two critical sections of a pass, and starts to work. -/
def late : List Step :=
  [.find 1 server true, .connect 1 30000 5000 true, .add 1, .tick 6000000000, .start, .collect fun _ => false,
    .find 2 server false, .acquireIo second]

/-- Two clients of one key hold two sessions, and a busy session is removed. -/
theorem race_unsafe : ¬(race.foldl step (boot 0)).OneObject ∧ ¬Along step Spares (boot 0) (late ++ [.remove]) := by
  constructor
  · intro one
    have same := one ⟨2, server, 1, 0⟩ (by decide) first (by decide) rfl (by decide) rfl rfl
    exact absurd same (by decide)
  · intro spares
    have idle := (spares.append_right.1 server 0 (by decide) (.inl (by decide))).1
    exact absurd idle (by decide)

end SessionBroker

end Meatloaf
