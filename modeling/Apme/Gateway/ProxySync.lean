import Apme.Lib.Text
import Apme.Lib.Transition

/-!
# Galaxy servers pushed to the proxy

Every change of the Galaxy servers is committed to the database and then asks
for a push.  A push is a task that reads the list, posts it and ends; a request
that finds a task under way is dropped.  A handler can be suspended between its
commit and its request, and a task between any two of its steps.

A dropped request does no harm as long as the task has not read the list.  After
that the task posts a list without the change, and no other push follows.
-/

set_option autoImplicit false

namespace Apme.Gateway

open Apme.Lib Option Transition

structure GalaxyServer where
  name : Text
  url : Text
  token : Option Text
  authUrl : Option Text
  validateCerts : Option Bool

structure ServerEntry where
  name : Text
  url : Text
  token : Text
  authUrl : Text
  validateCerts : Option Bool
  deriving DecidableEq

variable (servers : List GalaxyServer)

/-- The body of the request to `/admin/galaxy-config`. -/
def pushPayload : List ServerEntry :=
  servers.map fun s =>
    { name := s.name, url := s.url, token := s.token.getD [], authUrl := s.authUrl.getD [],
      validateCerts := s.validateCerts }

/-- Where the task of `_bg_push` is: the list is not read, it is read and not
posted, or the post is over. -/
inductive PushPhase where
  | waiting
  | loaded (payload : List ServerEntry)
  | answered
  deriving DecidableEq

structure ProxySync where
  servers : List GalaxyServer
  /-- Handlers that have committed and have not asked for a push yet. -/
  owed : Nat := 0
  /-- `_pending_push`, if it is not done. -/
  pending : Option PushPhase := none
  /-- The last payload that was posted. -/
  posted : Option (List ServerEntry) := none
  changed : Bool := false
  failed : Bool := false

inductive SyncLabel where
  | commit (servers : List GalaxyServer)
  | schedulePush
  | load
  | loadFails
  | post (ok : Bool)
  | finish

variable (s : ProxySync)

def syncStep : SyncLabel → Option ProxySync
  | .commit servers => some { s with servers := servers, owed := s.owed + 1, changed := true }
  | .schedulePush =>
    if s.owed = 0 then none
    else some { s with owed := s.owed - 1, pending := some (s.pending.getD .waiting) }
  | .load =>
    if s.pending = some .waiting then
      some { s with pending := some (.loaded (pushPayload s.servers)) }
    else none
  | .loadFails => if s.pending = some .waiting then some { s with pending := some .answered } else none
  | .post ok =>
    match s.pending with
    | some (.loaded payload) =>
      some { s with pending := some .answered, posted := some payload, failed := s.failed || !ok }
    | _ => none
  | .finish => if s.pending = some .answered then some { s with pending := none } else none

/-- With no push and no handler under way, the proxy has the current list. -/
def ProxySync.Synced : Prop :=
  s.pending = none → s.owed = 0 → s.failed = false → s.changed →
    s.posted = some (pushPayload s.servers)

/-- No request finds a task that has read the list, and every read succeeds. -/
def Timely : SyncLabel → Prop
  | .schedulePush => s.pending = none ∨ s.pending = some .waiting
  | .loadFails => False
  | _ => True

instance (s : ProxySync) (label : SyncLabel) : Decidable (Timely s label) :=
  match label with
  | .schedulePush => inferInstanceAs (Decidable (_ ∨ _))
  | .loadFails => inferInstanceAs (Decidable False)
  | .commit _ => inferInstanceAs (Decidable True)
  | .load => inferInstanceAs (Decidable True)
  | .post _ => inferInstanceAs (Decidable True)
  | .finish => inferInstanceAs (Decidable True)

/-- What a task has read or posted is current, unless a handler still owes its
request. -/
structure ProxySync.Current (s : ProxySync) : Prop where
  loaded : ∀ payload, s.pending = some (.loaded payload) → s.owed = 0 →
    payload = pushPayload s.servers
  answered : s.pending = some .answered → s.owed = 0 → s.failed = false →
    s.posted = some (pushPayload s.servers)
  idle : s.Synced

theorem ProxySync.Current.step {s t : ProxySync} {label : SyncLabel} (hc : s.Current)
    (hti : Timely s label) (ht : syncStep s label = some t) : t.Current := by
  cases label with
  | commit servers =>
    cases some.inj ht
    -- The handler owes its request from here on.
    refine ⟨?_, ?_, ?_⟩
    · intro payload _ none
      exact absurd none (Nat.succ_ne_zero _)
    · intro _ none
      exact absurd none (Nat.succ_ne_zero _)
    · intro _ none
      exact absurd none (Nat.succ_ne_zero _)
  | schedulePush =>
    obtain ⟨-, hn⟩ := ite_none_left_eq_some.mp ht
    cases hn
    have hw : some (s.pending.getD .waiting) = some PushPhase.waiting := by
      obtain hN | isWaiting := hti
      · rw [hN]
        rfl
      · rw [isWaiting]
        rfl
    rw [hw]
    refine ⟨?_, ?_, ?_⟩
    · intro payload ho
      cases ho
    · intro ho
      cases ho
    · intro ho
      cases ho
  | load =>
    obtain ⟨-, hn⟩ := ite_none_right_eq_some.mp ht
    cases hn
    refine ⟨?_, ?_, ?_⟩
    · intro payload hl _
      cases hl
      rfl
    · intro ho
      cases ho
    · intro ho
      cases ho
  | loadFails => exact hti.elim
  | post ok =>
    simp only [syncStep] at ht
    split at ht
    next payload hl =>
      cases some.inj ht
      refine ⟨?_, ?_, ?_⟩
      · intro payload ho
        cases ho
      · intro _ hs _
        exact congrArg some (hc.loaded payload hl hs)
      · intro ho
        cases ho
    next => cases ht
  | finish =>
    obtain ⟨ha, hn⟩ := ite_none_right_eq_some.mp ht
    cases hn
    refine ⟨?_, ?_, ?_⟩
    · intro payload ho
      cases ho
    · intro ho
      cases ho
    · intro _ hs hsu _
      exact hc.answered ha hs hsu

def ProxySync.start : ProxySync := { servers := servers }

/-- In every run in which requests come in time, every change reaches the proxy. -/
theorem changes_pushed (servers : List GalaxyServer) (s : ProxySync)
    (reached : Reaches syncStep Timely (.start servers) s) : s.Synced := by
  have initially : (ProxySync.start servers).Current := by
    refine ⟨?_, ?_, ?_⟩
    · intro payload other
      cases other
    · intro other
      cases other
    · intro _ _ _ changed
      cases changed
  have current := reached.invariant
    (fun s label t before timely taken => before.step timely taken) initially
  exact current.idle

def publicHub : GalaxyServer :=
  { name := "hub".toList, url := "https://hub".toList, token := none, authUrl := none,
    validateCerts := none }

def privateHub : GalaxyServer :=
  { name := "private".toList, url := "https://private".toList, token := some "t".toList,
    authUrl := none, validateCerts := some true }

/-- A change right after another one, before the task has read the list. -/
def earlyChange : List SyncLabel :=
  [.commit [publicHub], .schedulePush, .commit [publicHub, privateHub], .schedulePush, .load,
    .post true, .finish]

theorem earlyChange_pushed :
    ∃ s, follow syncStep Timely earlyChange (.start []) = some s ∧
      s.posted = some (pushPayload [publicHub, privateHub]) ∧ s.Synced :=
  ⟨_, rfl, by decide, changes_pushed [] _ (reaches_of_follow earlyChange rfl)⟩

/-- A change after the task has read the list: its request is dropped. -/
def lateChange : List SyncLabel :=
  [.commit [publicHub], .schedulePush, .load, .commit [publicHub, privateHub], .schedulePush,
    .post true, .finish]

theorem lateChange_dropped :
    ∃ s, Reaches syncStep (fun _ _ => True) (.start []) s ∧ s.pending = none ∧
      s.owed = 0 ∧ s.failed = false ∧ s.changed ∧
      s.posted = some (pushPayload [publicHub]) ∧ s.servers = [publicHub, privateHub] ∧
      ¬ s.Synced := by
  refine ⟨_, reaches_of_follow lateChange rfl, rfl, rfl, rfl, rfl, rfl, rfl, ?_⟩
  intro synced
  exact absurd (synced rfl rfl rfl rfl) (by decide)

end Apme.Gateway
