import Apme.Gateway.Registry

/-!
# The life of an operation

`transition` has no guard, so which statuses follow each other is decided by its
callers: the task that drives the engine session, `POST /cancel`,
`POST /submit`, `POST /escalate-ai`, and the reaper that removes an operation
some time after a terminal status.  A step is what one of them does between two
awaits.
-/

set_option autoImplicit false

namespace Apme.Gateway

open Apme.Lib List Option Registry Transition OperationStatus

/-- Where `_drive_operation` is; the flag says whether the session gave a
result.  `unstarted` is the time from `create` until the task exists. -/
inductive DriverPhase
  | unstarted
  | fetching
  | running (result : Bool)
  | closing (result : Bool)
  | stopping (result : Bool)
  | finalizing
  | ended
  deriving DecidableEq

/-- The task exists and is not done. -/
def DriverPhase.alive : DriverPhase → Bool
  | .unstarted => false
  | .ended => false
  | _ => true

inductive EngineEvent
  | created (operationBudgetSeconds : Int)
  | progress (entry : ProgressEntry)
  | findings (findings : List Row)
  | aiTriage (candidates : List Row)
  | proposals (proposals : List Proposal) (gateId : String)
  | approvalAck
  | error (code message : String)
  | result (result : OperationResult)

/-- A `POST /submit` for the live operation that has passed its checks: it reads
the database, or it waits for the provider. -/
inductive Submission
  | looking
  | publishing
  deriving DecidableEq

/-- What the database says to a submission. -/
inductive Lookup
  | raised
  | scanMissing
  | alreadyPublished (prUrl : String)
  | projectMissing
  | noPatches
  -- no token, no provider for the repository, or no usable API address
  | unprocessable (detail : String)
  | ready

inductive Publication
  | providerError (error : String)
  | notPersisted
  | notFound
  | published (prUrl : Option String)

inductive Answer
  | cancelled
  | submitted (prUrl : Option String)
  | refused (code : Nat) (detail : String)

/-- `reaped` is the status in which the reaper has removed the operation. -/
structure Lifecycle where
  registry : Registry
  driver : DriverPhase := .unstarted
  cancelRequested : Bool := false
  submissions : List Submission := []
  answers : List Answer := []
  reaped : Option OperationStatus := none

namespace Lifecycle

/-- A new operation in the registry. -/
def create (scanType : String) : Lifecycle := { registry := { op := { scanType } } }

variable (s : Lifecycle)

def status : OperationStatus := s.registry.op.status

def call (call : Call) : Lifecycle := { s with registry := s.registry.call call }

def answer (answer : Answer) : Lifecycle := { s with answers := s.answers ++ [answer] }

/-- `grpc_task.cancel()`, unless there is no task or it is done. -/
def cancelTask : Lifecycle := { s with cancelRequested := s.cancelRequested || s.driver.alive }

/-- `_remove` of the operation. -/
def remove : Lifecycle := { s.cancelTask with registry := s.registry.remove }

/-- `_progress_cb`. -/
def progressCb : EngineEvent → Lifecycle
  | .created operationBudgetSeconds => s.call (.setOperationBudget operationBudgetSeconds)
  | .progress entry =>
    if s.registry.registered ∧ s.status = .cloning then
      (s.call (.transition .scanning none none)).call (.addProgress entry)
    else s.call (.addProgress entry)
  | .findings findings => s.call (.setFindings findings)
  | .aiTriage candidates => s.call (.setAiTriage candidates)
  | .proposals proposals gateId => s.call (.setProposals proposals gateId)
  | .approvalAck => s.call (.transition .applying none none)
  | .error code message =>
    s.call (.transition .failed (some (code ++ ": " ++ message)) (some code))
  | .result result => s.call (.setResult result)

/-- Where the event loop of the session is after an event. -/
def afterEvent (result : Bool) : EngineEvent → DriverPhase
  | .error _ _ => .closing result
  | .result _ => .running true
  | _ => .running result

/-- The last transition of the driver, unless the status is terminal. -/
def conclude (status : OperationStatus) (error errorCode : Option String) : Lifecycle :=
  if s.registry.registered ∧ s.status ∉ terminalStatuses then
    { s.call (.transition status error errorCode) with driver := .ended }
  else { s with driver := .ended }

/-- The session is over and the bridge is stopped. -/
def settle (result : Bool) : Lifecycle :=
  if result then { s with driver := .finalizing }
  else s.conclude .failed (some "Session ended without a result") (some "no_result")

def cancelOperation : Lifecycle :=
  if ¬ s.registry.registered then s.answer (.refused 404 "No operation for this project")
  else if s.status ∈ terminalStatuses then
    s.answer (.refused 409 ("Operation already in terminal state '" ++ s.status.value ++ "'"))
  else ((s.call (.transition .cancelled none none)).cancelTask).answer .cancelled

/-- The checks of `POST /submit` for the live operation. -/
def submitOperation : Lifecycle :=
  if ¬ s.registry.registered then s.answer (.refused 404 "No active operation for this project")
  else if s.status ≠ .completed then
    s.answer
      (.refused 409 ("Cannot submit: operation is '" ++ s.status.value ++ "', not 'completed'"))
  else if s.registry.op.scanType ≠ "remediate" then
    s.answer (.refused 409 "Submit requires a remediate operation")
  else if s.registry.op.result.all fun result => result.patches.isEmpty then
    s.answer (.refused 409 "No patches available for submission")
  else { s with submissions := s.submissions ++ [.looking] }

/-- The submission ends with this answer. -/
def leave (index : Nat) (answer : Answer) : Lifecycle :=
  { s with submissions := s.submissions.eraseIdx index, answers := s.answers ++ [answer] }

def complete (error : Option String) : Lifecycle := s.call (.transition .completed error none)

def lookedUp (index : Nat) : Lookup → Lifecycle
  | .raised => s.leave index (.refused 500 "Internal Server Error")
  | .scanMissing => (s.complete none).leave index (.refused 404 "Activity not found")
  | .alreadyPublished prUrl =>
    (s.call (.setPrUrl prUrl)).leave index
      (.refused 409 ("PR already created for this activity: " ++ prUrl))
  | .projectMissing => (s.complete none).leave index (.refused 404 "Project not found")
  | .noPatches => (s.complete none).leave index (.refused 404 "No patched files found")
  | .unprocessable detail =>
    ((s.call (.transition .submittingPr none none)).complete none).leave index (.refused 422 detail)
  | .ready =>
    { s.call (.transition .submittingPr none none) with
      submissions := s.submissions.set index .publishing }

def published (index : Nat) : Publication → Lifecycle
  | .providerError error =>
    (s.complete (some error)).leave index (.refused 502 "SCM provider error")
  | .notPersisted =>
    (s.complete (some "Failed to persist SCM publish metadata")).leave index
      (.refused 500 "Failed to persist SCM publish metadata")
  | .notFound =>
    (s.complete (some "Activity not found")).leave index (.refused 404 "Activity not found")
  | .published prUrl =>
    match prUrl.filter (· ≠ "") with
    | some url => (s.call (.setPrUrl url)).leave index (.submitted prUrl)
    | none => (s.complete none).leave index (.submitted prUrl)

/-- `POST /escalate-ai`, as far as the status is concerned. -/
def escalateAi : Lifecycle :=
  if s.registry.registered ∧ s.status = .awaitingAiTriage ∧ s.registry.op.escalateAiFuture.isSome then
    s.call (.transition .applying none none)
  else s

/-- The time since the stamped terminal status is up. -/
def expired (ttl : Nat) : Prop := ∃ stamp ∈ s.registry.terminalTime, ttl ≤ s.registry.clock - stamp

instance (ttl : Nat) : Decidable (s.expired ttl) :=
  inferInstanceAs (Decidable (∃ stamp ∈ s.registry.terminalTime, ttl ≤ s.registry.clock - stamp))

end Lifecycle

inductive LifecycleLabel
  -- the handler that created the operation starts the task
  | start
  | fetched
  | event (event : EngineEvent)
  | endOfStream
  | channelClosed (bridged : Bool)
  | bridgeStopped
  | finalized
  | raised (error : String)
  | cancelledError
  | cancel
  | submit
  | lookedUp (index : Nat) (outcome : Lookup)
  | published (index : Nat) (outcome : Publication)
  | escalateAi
  | assign (values : Assignment)
  | tick (seconds : Nat)
  | reap
  -- a new operation of the project, or the project is deleted
  | replace

/-- A cancelled task is told at its next resumption, so only the wait for the
bridge, which suppresses the `CancelledError`, goes on as if nothing had
happened. -/
def lifecycleStep (ttl : Nat) (s : Lifecycle) : LifecycleLabel → Option Lifecycle
  | .start => if s.driver = .unstarted then some { s with driver := .fetching } else none
  | .fetched =>
    if s.driver = .fetching ∧ ¬ s.cancelRequested then
      some { s.call (.transition .cloning none none) with driver := .running false }
    else none
  | .event event =>
    match s.driver with
    | .running result =>
      if s.cancelRequested then none
      else some { s.progressCb event with driver := Lifecycle.afterEvent result event }
    | _ => none
  | .endOfStream =>
    match s.driver with
    | .running result => if s.cancelRequested then none else some { s with driver := .closing result }
    | _ => none
  | .channelClosed bridged =>
    match s.driver with
    | .closing result =>
      if s.cancelRequested then none
      else some (if bridged then { s with driver := .stopping result } else s.settle result)
    | _ => none
  | .bridgeStopped =>
    match s.driver with
    | .stopping result => some (Lifecycle.settle { s with cancelRequested := false } result)
    | _ => none
  | .finalized =>
    if s.driver = .finalizing ∧ ¬ s.cancelRequested then some (s.conclude .completed none none)
    else none
  | .raised error =>
    if s.driver.alive then
      some { s.call (.transition .failed (some error) none) with driver := .ended }
    else none
  | .cancelledError =>
    if s.driver.alive ∧ s.cancelRequested ∧ ∀ result, s.driver ≠ .stopping result then
      some { s.call (.transition .cancelled none none) with driver := .ended }
    else none
  | .cancel => some s.cancelOperation
  | .submit => some s.submitOperation
  | .lookedUp index outcome =>
    if s.submissions[index]? = some .looking then some (s.lookedUp index outcome) else none
  | .published index outcome =>
    if s.submissions[index]? = some .publishing then some (s.published index outcome) else none
  | .escalateAi => some s.escalateAi
  | .assign values =>
    (s.registry.step (.assign values)).map fun registry => { s with registry }
  | .tick seconds =>
    some { s with registry := { s.registry with clock := s.registry.clock + seconds } }
  | .reap =>
    -- `_remove` does nothing for an operation that is gone
    some
      (if s.expired ttl ∧ s.registry.registered then { s.remove with reaped := some s.status }
      else s)
  | .replace =>
    if s.registry.registered ∧ s.status ∈ terminalStatuses then some s.remove else none

section Finality

/-- The statuses that are never left. -/
def finalStatuses : List OperationStatus := [.failed, .expired, .cancelled]

/-- The statuses of an operation whose session has ended with a result. -/
def deliveredStatuses : List OperationStatus := [.completed, .submittingPr, .prSubmitted]

/-- A move that the statuses allow. -/
def LawfulMove (move : OperationStatus × OperationStatus) : Prop :=
  (move.1 ∈ finalStatuses → move.2 = move.1) ∧ (move.1 = .completed → move.2 ∈ deliveredStatuses)

namespace Lifecycle

/-- Every move of the operation so far was allowed, and the reaper has removed
it in a terminal status, if at all. -/
structure Lawful (s : Lifecycle) : Prop where
  moves : ∀ move ∈ s.registry.moves, LawfulMove move
  reaped : ∀ status ∈ s.reaped, status ∈ terminalStatuses

/-- A registered operation is cancelled only when its task exists and no
submission is on its way, the task of a cancelled operation ends with nothing
but the `CancelledError`, and the reaper does not come up while a submission is
on its way. -/
def Orderly (ttl : Nat) (s : Lifecycle) : LifecycleLabel → Prop
  | .cancel =>
    s.registry.registered → s.status ∈ terminalStatuses ∨ s.driver ≠ .unstarted ∧ s.submissions = []
  | .raised _ => s.registry.registered → s.status ≠ .cancelled
  | .reap => s.expired ttl → s.submissions = []
  | _ => True

instance (ttl : Nat) (s : Lifecycle) (label : LifecycleLabel) : Decidable (s.Orderly ttl label) := by
  unfold Orderly
  split <;> infer_instance

/-- Who may still act on a registered operation in each status. -/
structure Conduct (s : Lifecycle) : Prop where
  delivered : s.status ∈ deliveredStatuses → s.driver = .ended
  submitting : s.submissions ≠ [] → s.status ∈ deliveredStatuses
  publishing : s.status = .submittingPr → .publishing ∈ s.submissions
  cancelled : s.status = .cancelled → s.driver = .ended ∨ s.driver = .finalizing ∨ s.cancelRequested
  failed : s.status = .failed →
    s.driver ≠ .unstarted ∧ s.driver ≠ .fetching ∧ ∀ result, s.driver ≠ .running result
  requested : s.cancelRequested → s.status = .cancelled ∧ s.driver ≠ .unstarted
  stamped : s.registry.terminalTime.isSome → s.status ∈ terminalStatuses ∨ s.submissions ≠ []
  unexpired : s.status ≠ .expired

/-- What a step does to the history of the operation. -/
structure Proceeds (s t : Lifecycle) : Prop where
  moves : ∀ move ∈ t.registry.moves, move ∈ s.registry.moves ∨ LawfulMove move
  final : s.status ∈ finalStatuses → t.status = s.status
  reaped : ∀ status ∈ t.reaped, status ∈ s.reaped ∨ status ∈ terminalStatuses

/-- The session is on its way and nothing has ended yet. -/
structure Calm (s : Lifecycle) : Prop where
  unfinished : s.status ∉ terminalStatuses
  unsubmitted : s.status ≠ .submittingPr
  submissions : s.submissions = []
  unrequested : s.cancelRequested = false
  unstamped : s.registry.terminalTime = none

section History

variable {s t : Lifecycle} {old after : OperationStatus}

theorem LawfulMove.of_unfinished (hu : old ∉ terminalStatuses) : LawfulMove (old, after) := by
  cases old <;> simp_all [LawfulMove, terminalStatuses, finalStatuses]

theorem LawfulMove.of_delivered (left : old ∈ deliveredStatuses)
    (hc : after ∈ deliveredStatuses) : LawfulMove (old, after) := by
  cases old <;> simp_all [LawfulMove, deliveredStatuses, finalStatuses]

theorem Proceeds.of_same (st : t.status = s.status)
    (hmo : t.registry.moves = s.registry.moves) (hre : t.reaped = s.reaped) : Proceeds s t :=
  ⟨fun _ hm => .inl (hmo ▸ hm), fun _ => st, fun _ hr => .inl (hre ▸ hr)⟩

theorem Proceeds.of_call (call : Call) (registry : t.registry = s.registry.call call)
    (hre : t.reaped = s.reaped)
    (hl : s.registry.registered →
      ∀ status ∈ s.registry.target call, LawfulMove (s.status, status)) : Proceeds s t := by
  have he := s.registry.call_effect call
  rw [← registry] at he
  -- without the operation in the registry the call has no target
  have hl : ∀ status ∈ s.registry.target call, LawfulMove (s.status, status) := by
    intro status ha
    cases here : s.registry.registered with
    | true => exact hl here status ha
    | false => simp [target_of_removed _ here] at ha
  refine ⟨?_, ?_, fun _ hr => .inl (hre ▸ hr)⟩
  · intro move hm
    rw [he.moves] at hm
    rcases mem_append.mp hm with old | new
    · exact .inl old
    · obtain ⟨status, ha, rfl⟩ := mem_map.mp new
      exact .inr (hl status (mem_toList.mp ha))
  · intro hf
    show t.registry.op.status = s.registry.op.status
    rw [he.status]
    cases ha : s.registry.target call with
    | none => rfl
    | some status => exact (hl status ha).1 hf

theorem Proceeds.trans {u : Lifecycle} (first : Proceeds s t) (hse : Proceeds t u) :
    Proceeds s u := by
  refine ⟨?_, ?_, ?_⟩
  · intro move hm
    rcases hse.moves move hm with old | hl
    · exact first.moves move old
    · exact .inr hl
  · intro hf
    have hs := first.final hf
    rw [hse.final (hs ▸ hf), hs]
  · intro st hr
    rcases hse.reaped st hr with old | ht
    · exact first.reaped st old
    · exact .inr ht

end History

section Calls

variable (s : Lifecycle) (call : Call)

theorem call_registered : (s.call call).registry.registered = s.registry.registered :=
  (s.registry.call_effect call).registered

theorem call_status : (s.call call).status = (s.registry.target call).getD s.status :=
  (s.registry.call_effect call).status

theorem call_terminalTime : (s.call call).registry.terminalTime =
    if (s.registry.target call).any (· ∈ terminalStatuses) then some s.registry.clock
    else s.registry.terminalTime :=
  (s.registry.call_effect call).terminalTime

variable {s}

theorem transition_status (here : s.registry.registered) (st : OperationStatus)
    (error errorCode : Option String) : (s.call (.transition st error errorCode)).status = st := by
  simp [call_status, target, here]

end Calls

section Conduct

variable {s t : Lifecycle}

theorem Calm.conduct (hc : s.Calm) : s.Conduct := by
  obtain ⟨hud, hu, hs, hun, hus⟩ := hc
  constructor <;> cases st : s.status <;>
    simp_all [terminalStatuses, deliveredStatuses]

variable (conduct : s.Conduct)
include conduct

theorem Conduct.calm_of_status (hu : s.status ∉ terminalStatuses)
    (hus : s.status ≠ .submittingPr) : s.Calm := by
  have hun : s.status ∉ deliveredStatuses := by
    intro sent
    cases st : s.status <;> simp_all [terminalStatuses, deliveredStatuses]
  have hs : s.submissions = [] := by
    by_contra hb
    exact hun (conduct.submitting hb)
  refine ⟨hu, hus, hs, ?_, ?_⟩
  · by_contra hr
    simp only [Bool.not_eq_false] at hr
    rw [(conduct.requested hr).1] at hu
    exact hu (by decide)
  · by_contra hst
    rcases conduct.stamped (isSome_iff_ne_none.mpr hst) with ht | hb
    · exact hu ht
    · exact hb hs

theorem Conduct.calm (hun : s.cancelRequested = false)
    (he : s.driver = .unstarted ∨ s.driver = .fetching ∨ ∃ res, s.driver = .running res) :
    s.Calm := by
  have hg : s.driver ≠ .ended ∧ s.driver ≠ .finalizing := by
    rcases he with hp | hp | ⟨res, hp⟩ <;> simp [hp]
  have hu : s.status ∉ deliveredStatuses := fun sent =>
    hg.1 (conduct.delivered sent)
  refine conduct.calm_of_status ?_ (fun hs => hu (by simp [hs, deliveredStatuses]))
  intro hterm
  cases st : s.status with
  | failed =>
    obtain ⟨hst, hf, ran⟩ := conduct.failed st
    rcases he with hp | hp | ⟨res, hp⟩
    · exact hst hp
    · exact hf hp
    · exact ran res hp
  | cancelled =>
    rcases conduct.cancelled st with hp | hp | hr
    · exact hg.1 hp
    · exact hg.2 hp
    · simp [hun] at hr
  | expired => exact conduct.unexpired st
  | completed | prSubmitted => exact hu (by simp [st, deliveredStatuses])
  | _ => simp [st, terminalStatuses] at hterm

theorem Conduct.no_submissions (hg : s.driver ≠ .ended) : s.submissions = [] := by
  by_contra hb
  exact hg (conduct.delivered (conduct.submitting hb))

theorem Conduct.end_driver : Conduct { s with driver := .ended } :=
  { conduct with
    delivered := fun _ => rfl
    cancelled := fun _ => .inl rfl
    failed := fun _ => by simp
    requested := fun requested => ⟨(conduct.requested requested).1, by simp⟩ }

omit conduct in
theorem Calm.call (hc : s.Calm) (call : Call)
    (hm : ∀ st ∈ s.registry.target call, st ∉ terminalStatuses ∧ st ≠ .submittingPr) :
    (s.call call).Calm := by
  have hu := call_terminalTime s call
  refine ⟨?_, ?_, hc.submissions, hc.unrequested, ?_⟩
  all_goals cases ha : s.registry.target call with
    | none => simp [call_status, ha, hc.unfinished, hc.unsubmitted, hu, hc.unstamped]
    | some st =>
      obtain ⟨huf, hun⟩ := hm st ha
      simp [call_status, ha, huf, hun, hu, hc.unstamped]

theorem Conduct.end_with (here : s.registry.registered)
    (hg : s.driver ≠ .ended) {st : OperationStatus} (error errorCode : Option String)
    (last : st ∈ [.failed, .completed, .cancelled])
    (hr : s.cancelRequested → st = .cancelled) :
    Conduct { s.call (.transition st error errorCode) with driver := .ended } := by
  have hm := transition_status here st error errorCode
  have hi := conduct.no_submissions hg
  have hterm : st ∈ terminalStatuses := by
    cases st <;> simp_all [terminalStatuses]
  constructor
  · exact fun _ => rfl
  · exact fun hb => absurd hi hb
  · intro hs
    have : st = .submittingPr := hm.symm.trans hs
    simp [this] at last
  · exact fun _ => .inl rfl
  · exact fun _ => by simp
  · exact fun ha => ⟨hm.trans (hr ha), by simp⟩
  · exact fun _ => .inl (hm.symm ▸ hterm)
  · intro he
    have : st = .expired := hm.symm.trans he
    simp [this] at last

end Conduct

section Steps

variable {s t : Lifecycle}

/-- One step keeps the law and, while the operation is registered, its conduct. -/
def Keeps (s t : Lifecycle) : Prop := Proceeds s t ∧ (t.registry.registered → t.Conduct)

theorem Keeps.of_same (st : t.status = s.status)
    (hm : t.registry.moves = s.registry.moves) (hr : t.reaped = s.reaped)
    (hc : t.registry.registered → t.Conduct) : Keeps s t :=
  ⟨Proceeds.of_same st hm hr, hc⟩

theorem Keeps.of_call (call : Call) (registry : t.registry = s.registry.call call)
    (hre : t.reaped = s.reaped)
    (hl : s.registry.registered → ∀ st ∈ s.registry.target call, LawfulMove (s.status, st))
    (hc : s.registry.registered → t.Conduct) : Keeps s t := by
  refine ⟨Proceeds.of_call call registry hre hl, ?_⟩
  intro hr
  rw [registry, (s.registry.call_effect call).registered] at hr
  exact hc hr

theorem Keeps.trans {u : Lifecycle} (first : Proceeds s t) (hs : Keeps t u) : Keeps s u :=
  ⟨first.trans hs.1, hs.2⟩

theorem Keeps.of_calm (call : Call) (hr : t.registry = s.registry.call call)
    (hre : t.reaped = s.reaped) (calm : s.registry.registered → s.Calm)
    (hc : s.registry.registered → t.Conduct) : Keeps s t :=
  Keeps.of_call call hr hre (fun here _ _ => LawfulMove.of_unfinished (calm here).unfinished) hc

theorem progressCb_calm {event : EngineEvent} (hc : s.registry.registered → s.Calm)
    (hm : ∀ code message, event ≠ .error code message) (driver : DriverPhase) :
    Keeps s { s.progressCb event with driver } := by
  have one (call : Call)
      (aims : ∀ status ∈ s.registry.target call, status ∉ terminalStatuses ∧ status ≠ .submittingPr) :
      Keeps s { s.call call with driver } := by
    refine Keeps.of_calm call rfl rfl hc ?_
    intro here
    have ha := (hc here).call call aims
    exact Calm.conduct ⟨ha.unfinished, ha.unsubmitted, ha.submissions, ha.unrequested, ha.unstamped⟩
  cases event with
  | created seconds => exact one _ (by simp [target])
  | progress e =>
    simp only [progressCb]
    split
    next hcl =>
      obtain ⟨here, _⟩ := hcl
      have hm : ∀ status ∈ s.registry.target (.transition .scanning none none),
          status ∉ terminalStatuses ∧ status ≠ .submittingPr := by
        simp [target, terminalStatuses]
      have ha := (hc here).call _ hm
      refine Keeps.trans (t := s.call (.transition .scanning none none))
        (Proceeds.of_call (.transition .scanning none none) rfl rfl fun _ _ _ =>
          LawfulMove.of_unfinished (hc here).unfinished) ?_
      refine Keeps.of_calm (.addProgress e) rfl rfl (fun _ => ha) ?_
      intro _
      have last := ha.call (.addProgress e) (by simp [target])
      exact Calm.conduct ⟨last.unfinished, last.unsubmitted, last.submissions,
        last.unrequested, last.unstamped⟩
    next => exact one _ (by simp [target])
  | findings findings => exact one _ (by simp [target, terminalStatuses])
  | aiTriage candidates => exact one _ (by grind [target, terminalStatuses])
  | proposals proposals gateId => exact one _ (by simp [target, terminalStatuses])
  | approvalAck => exact one _ (by simp [target, terminalStatuses])
  | error code message => exact absurd rfl (hm code message)
  | result result => exact one _ (by simp [target])

theorem progressCb_error (hc : s.registry.registered → s.Calm) (code msg : String)
    (res : Bool) : Keeps s { s.progressCb (.error code msg) with driver := .closing res } := by
  refine Keeps.of_calm (.transition .failed _ _) rfl rfl hc ?_
  intro here
  have hm := transition_status here .failed (some (code ++ ": " ++ msg)) (some code)
  obtain ⟨_, _, hs, hu, _⟩ := hc here
  constructor
  · exact fun sent => absurd (hm ▸ sent) (by decide)
  · exact fun hb => absurd hs hb
  · exact fun subm => absurd (hm.symm.trans subm) (by decide)
  · exact fun hca => absurd (hm.symm.trans hca) (by decide)
  · exact fun _ => by simp
  · exact fun ha => absurd (hu.symm.trans ha) (by simp)
  · exact fun _ => .inl (hm.symm ▸ by decide)
  · exact fun he => absurd (hm.symm.trans he) (by decide)

section

variable (conduct : s.registry.registered → s.Conduct)

include conduct

theorem conclude_keeps
    (hg : s.driver ≠ .ended) {st : OperationStatus} (error errorCode : Option String)
    (last : st ∈ [.failed, .completed]) : Keeps s (s.conclude st error errorCode) := by
  simp only [conclude]
  split
  next hu =>
    obtain ⟨here, hu⟩ := hu
    refine Keeps.of_call (.transition st error errorCode) rfl rfl
      (fun _ _ _ => LawfulMove.of_unfinished hu) ?_
    intro _
    have he : st ∈ [failed, .completed, .cancelled] := mem_append_left [cancelled] last
    refine (conduct here).end_with here hg error errorCode he ?_
    intro ha
    rw [((conduct here).requested ha).1] at hu
    exact absurd (by decide) hu
  next => exact Keeps.of_same rfl rfl rfl fun here => (conduct here).end_driver

/-- The driver has stopped the bridge; a request to cancel it that came
meanwhile is forgotten. -/
theorem settle_keeps {result : Bool}
    (hp : s.driver = .closing result ∨ s.driver = .stopping result) :
    Keeps s (settle { s with cancelRequested := false } result) := by
  have hg : s.driver ≠ .ended := by rcases hp with hp | hp <;> simp [hp]
  cases result with
  | true =>
    refine Keeps.of_same rfl rfl rfl fun here => ?_
    exact
      { conduct here with
        delivered := fun delivered => absurd ((conduct here).delivered delivered) hg
        cancelled := fun _ => .inr (.inl rfl)
        failed := fun _ => by simp [settle]
        requested := fun requested => by cases requested }
  | false =>
    have hf (st : OperationStatus) (error errorCode : Option String) :
        conclude { s with cancelRequested := false } st error errorCode =
          { s.conclude st error errorCode with driver := .ended, cancelRequested := false } := by
      simp only [conclude]
      split <;> split <;> first | rfl | contradiction
    have hk := conclude_keeps conduct hg (some "Session ended without a result")
      (some "no_result") (mem_cons_self (a := failed) (l := [.completed]))
    simp only [settle, Bool.false_eq_true, if_false, hf]
    refine ⟨⟨hk.1.moves, hk.1.final, hk.1.reaped⟩, fun here => ?_⟩
    exact
      { hk.2 here with
        delivered := fun _ => rfl
        cancelled := fun _ => .inl rfl
        failed := fun _ => by simp
        requested := fun requested => by cases requested }

theorem cancelOperation_keeps
    (ho : s.registry.registered → s.status ∈ terminalStatuses ∨
      s.driver ≠ .unstarted ∧ s.submissions = []) : Keeps s s.cancelOperation := by
  have hs (answer : Answer) : Keeps s (s.answer answer) :=
    Keeps.of_same rfl rfl rfl fun here => { conduct here with }
  simp only [cancelOperation]
  split
  next => exact hs _
  next here =>
    simp only [not_not] at here
    split
    next => exact hs _
    next hu =>
      obtain ⟨hst, hi⟩ := (ho here).resolve_left hu
      refine Keeps.of_call (.transition .cancelled none none) rfl rfl
        (fun _ _ _ => LawfulMove.of_unfinished hu) fun _ => ?_
      have hm := transition_status here .cancelled none none
      constructor
      · exact fun sent => absurd (hm ▸ sent) (by decide)
      · exact fun hb => absurd hi hb
      · exact fun subm => absurd (hm.symm.trans subm) (by decide)
      · intro _
        cases hp : s.driver with
        | unstarted => exact absurd hp hst
        | ended => exact .inl hp
        | _ => exact .inr (.inr (by simp [answer, cancelTask, call, hp, DriverPhase.alive]))
      · exact fun hf => absurd (hm.symm.trans hf) (by decide)
      · exact fun _ => ⟨hm, hst⟩
      · exact fun _ => .inl (hm.symm ▸ by decide)
      · exact fun he => absurd (hm.symm.trans he) (by decide)

theorem submitOperation_keeps : Keeps s s.submitOperation := by
  have hs (answer : Answer) : Keeps s (s.answer answer) :=
    Keeps.of_same rfl rfl rfl fun here => { conduct here with }
  simp only [submitOperation]
  split
  next => exact hs _
  split
  next => exact hs _
  next hf =>
    simp only [ne_eq, not_not] at hf
    split
    next => exact hs _
    split
    next => exact hs _
    refine Keeps.of_same rfl rfl rfl fun here => ?_
    exact
      { conduct here with
        submitting := fun _ => by
          show s.status ∈ deliveredStatuses
          simp [hf, deliveredStatuses]
        publishing := fun submitting =>
          mem_append_left _ ((conduct here).publishing submitting)
        stamped := fun _ => .inr (by simp) }

end

theorem Conduct.busy (conduct : s.Conduct) {index : Nat} {stage : Submission}
    (hf : s.submissions[index]? = some stage) :
    s.status ∈ deliveredStatuses ∧ s.driver = .ended ∧ s.cancelRequested = false := by
  have hs : s.status ∈ deliveredStatuses := conduct.submitting (ne_nil_of_mem (mem_of_getElem? hf))
  refine ⟨hs, conduct.delivered hs, ?_⟩
  by_contra hr
  simp only [Bool.not_eq_false] at hr
  rw [(conduct.requested hr).1] at hs
  exact absurd hs (by decide)

theorem Conduct.of_delivered (sent : t.status ∈ deliveredStatuses)
    (he : t.driver = .ended) (hu : t.cancelRequested = false)
    (hp : t.status = .submittingPr → .publishing ∈ t.submissions) : t.Conduct := by
  have hterm (ho : t.status ≠ .submittingPr) : t.status ∈ terminalStatuses := by
    cases st : t.status <;> simp_all [deliveredStatuses, terminalStatuses]
  refine ⟨fun _ => he, fun _ => sent, hp, fun _ => .inl he, ?_, ?_, ?_, ?_⟩
  · exact fun _ => by simp [he]
  · exact fun ha => absurd (hu.symm.trans ha) (by simp)
  · intro _
    by_cases hs : t.status = .submittingPr
    · exact .inr (ne_nil_of_mem (hp hs))
    · exact .inl (hterm hs)
  · exact fun hex => absurd (hex ▸ sent) (by decide)

section Submissions

variable {index : Nat} {stage : Submission} (conduct : s.registry.registered → s.Conduct)
  (found : s.submissions[index]? = some stage)
include conduct found

/-- A submission moves the operation to a status and, unless that is
`submittingPr`, ends. -/
theorem submission_keeps (call : Call) {st : OperationStatus}
    (ha : s.registry.registered → s.registry.target call = some st)
    (hr : t.registry = s.registry.call call) (hd : t.driver = s.driver)
    (has : t.cancelRequested = s.cancelRequested) (hre : t.reaped = s.reaped)
    (hs : st ∈ deliveredStatuses)
    (hp : st = .submittingPr → .publishing ∈ t.submissions) : Keeps s t := by
  refine Keeps.of_call call hr hre ?_ ?_
  · intro here other hai
    obtain rfl : st = other := Option.some.inj ((ha here).symm.trans hai)
    exact LawfulMove.of_delivered ((conduct here).busy found).1 hs
  · intro here
    obtain ⟨_, he, hu⟩ := (conduct here).busy found
    have hm : t.status = st := by
      show t.registry.op.status = st
      rw [hr, (s.registry.call_effect call).status, ha here, getD_some]
    exact Conduct.of_delivered (hm ▸ hs) (hd.trans he) (has.trans hu) (hm ▸ hp)

theorem complete_keeps (error : Option String) (answer : Answer) :
    Keeps s ((s.complete error).leave index answer) :=
  submission_keeps conduct found (.transition .completed error none) (fun here => if_pos here) rfl rfl
    rfl rfl (by decide) (by simp)

theorem setPrUrl_keeps (prUrl : String) (answer : Answer) :
    Keeps s ((s.call (.setPrUrl prUrl)).leave index answer) :=
  submission_keeps conduct found (.setPrUrl prUrl) (fun here => if_pos here) rfl rfl rfl rfl (by decide)
    (by simp)

theorem published_keeps (outcome : Publication) : Keeps s (s.published index outcome) := by
  cases outcome with
  | providerError error => exact complete_keeps conduct found _ _
  | notPersisted => exact complete_keeps conduct found _ _
  | notFound => exact complete_keeps conduct found _ _
  | published prUrl =>
    simp only [published]
    split
    · exact setPrUrl_keeps conduct found _ _
    · exact complete_keeps conduct found _ _

end Submissions

variable (conduct : s.registry.registered → s.Conduct)
include conduct

theorem lookedUp_keeps {index : Nat} (hf : s.submissions[index]? = some .looking) (outcome : Lookup) :
    Keeps s (s.lookedUp index outcome) := by
  cases outcome with
  | raised =>
    refine Keeps.of_same rfl rfl rfl fun here => ?_
    obtain ⟨hd, he, hu⟩ := (conduct here).busy hf
    refine Conduct.of_delivered hd he hu ?_
    intro hs
    obtain ⟨o, held⟩ := mem_iff_getElem?.mp ((conduct here).publishing hs)
    refine mem_eraseIdx_iff_getElem?.mpr ⟨o, ?_, held⟩
    rintro rfl
    simp [hf] at held
  | scanMissing => exact complete_keeps conduct hf _ _
  | alreadyPublished prUrl => exact setPrUrl_keeps conduct hf _ _
  | projectMissing => exact complete_keeps conduct hf _ _
  | noPatches => exact complete_keeps conduct hf _ _
  | unprocessable detail =>
    -- the operation passes through `submittingPr` without an await
    have first : Proceeds s (s.call (.transition .submittingPr none none)) := by
      refine Proceeds.of_call (.transition .submittingPr none none) rfl rfl ?_
      intro here status ha
      obtain rfl : .submittingPr = status := Option.some.inj ((if_pos here).symm.trans ha)
      exact LawfulMove.of_delivered ((conduct here).busy hf).1 (by decide)
    refine Keeps.trans first (Keeps.of_call (.transition .completed none none) rfl rfl ?_ ?_)
    · intro here status ha
      obtain rfl : .completed = status := Option.some.inj ((if_pos here).symm.trans ha)
      rw [call_registered] at here
      exact LawfulMove.of_delivered (transition_status here _ _ _ ▸ by decide) (by decide)
    · intro here
      have hm : (((s.call (.transition .submittingPr none none)).complete none).leave index
          (.refused 422 detail)).status = .completed := transition_status here .completed none none
      rw [call_registered] at here
      obtain ⟨_, he, hu⟩ := (conduct here).busy hf
      refine Conduct.of_delivered (hm ▸ by decide) he hu ?_
      exact fun hs => absurd (hm.symm.trans hs) (by decide)
  | ready =>
    refine submission_keeps conduct hf (.transition .submittingPr none none)
      (fun here => if_pos here) rfl rfl rfl rfl (by decide) ?_
    intro _
    obtain ⟨hb, _⟩ := List.getElem?_eq_some_iff.mp hf
    exact mem_set hb .publishing

theorem escalateAi_keeps : Keeps s s.escalateAi := by
  simp only [escalateAi]
  split
  next ht =>
    obtain ⟨here, hw, _⟩ := ht
    have hc : s.Calm := (conduct here).calm_of_status (hw ▸ by decide) (hw ▸ by decide)
    refine Keeps.of_calm (.transition .applying none none) rfl rfl (fun _ => hc) fun _ => ?_
    exact (hc.call _ (by simp [target, terminalStatuses])).conduct
  next => exact Keeps.of_same rfl rfl rfl conduct

omit conduct in
theorem remove_keeps (hre : ∀ st ∈ t.reaped, st ∈ s.reaped ∨ st ∈ terminalStatuses)
    (hr : t.registry = s.registry.remove) : Keeps s t := by
  have hf : s.registry.remove.op = s.registry.op ∧ s.registry.remove.moves = s.registry.moves ∧
      s.registry.remove.registered = false := by
    simp only [Registry.remove]
    split <;> simp_all
  refine ⟨⟨?_, ?_, hre⟩, ?_⟩
  · exact fun move hm => .inl (by rwa [hr, hf.2.1] at hm)
  · intro _
    show t.registry.op.status = s.registry.op.status
    rw [hr, hf.1]
  · intro here
    rw [hr, hf.2.2] at here
    cases here

theorem step_keeps {ttl : Nat} {label : LifecycleLabel} (ho : s.Orderly ttl label)
    (ht : lifecycleStep ttl s label = some t) : Keeps s t := by
  cases label with
  | start =>
    obtain ⟨hp, ⟨⟩⟩ := ite_none_right_eq_some.mp ht
    refine Keeps.of_same rfl rfl rfl fun here => ?_
    have hu : s.cancelRequested = false := by
      by_contra requested
      simp only [Bool.not_eq_false] at requested
      exact ((conduct here).requested requested).2 hp
    have hc := (conduct here).calm hu (.inl hp)
    exact Calm.conduct ⟨hc.unfinished, hc.unsubmitted, hc.submissions, hc.unrequested, hc.unstamped⟩
  | fetched =>
    obtain ⟨⟨hp, hu⟩, ⟨⟩⟩ := ite_none_right_eq_some.mp ht
    simp only [Bool.not_eq_true] at hu
    have hc (here : s.registry.registered) : s.Calm := (conduct here).calm hu (.inr (.inl hp))
    refine Keeps.of_calm (.transition .cloning none none) rfl rfl hc fun here => ?_
    have ha := (hc here).call (.transition .cloning none none) (by simp [target, terminalStatuses])
    exact Calm.conduct ⟨ha.unfinished, ha.unsubmitted, ha.submissions, ha.unrequested, ha.unstamped⟩
  | event event =>
    simp only [lifecycleStep] at ht
    split at ht
    next res hp =>
      obtain ⟨hu, ⟨⟩⟩ := ite_none_left_eq_some.mp ht
      simp only [Bool.not_eq_true] at hu
      have hc (here : s.registry.registered) : s.Calm :=
        (conduct here).calm hu (.inr (.inr ⟨res, hp⟩))
      cases event with
      | error code msg => exact progressCb_error hc code msg res
      | _ => exact progressCb_calm hc (by simp) _
    next => cases ht
  | endOfStream =>
    simp only [lifecycleStep] at ht
    split at ht
    next res hp =>
      obtain ⟨hu, ⟨⟩⟩ := ite_none_left_eq_some.mp ht
      simp only [Bool.not_eq_true] at hu
      refine Keeps.of_same rfl rfl rfl fun here => ?_
      have hc := (conduct here).calm hu (.inr (.inr ⟨res, hp⟩))
      exact Calm.conduct ⟨hc.unfinished, hc.unsubmitted, hc.submissions,
        hc.unrequested, hc.unstamped⟩
    next => cases ht
  | channelClosed bridged =>
    simp only [lifecycleStep] at ht
    split at ht
    next res hp =>
      obtain ⟨hu, ⟨⟩⟩ := ite_none_left_eq_some.mp ht
      simp only [Bool.not_eq_true] at hu
      split
      · refine Keeps.of_same rfl rfl rfl fun here => ?_
        exact
          { conduct here with
            delivered := fun delivered =>
              absurd ((conduct here).delivered delivered) (by simp [hp])
            cancelled := fun cancelled => by
              rcases (conduct here).cancelled cancelled with he | hf | requested
              · simp [hp] at he
              · simp [hp] at hf
              · simp [hu] at requested
            failed := fun _ => by simp
            requested := fun requested => absurd (hu.symm.trans requested) (by simp) }
      · have hs : { s with cancelRequested := false } = s := by rw [← hu]
        exact hs ▸ settle_keeps conduct (.inl hp)
    next => cases ht
  | bridgeStopped =>
    simp only [lifecycleStep] at ht
    split at ht
    next res hp =>
      cases ht
      exact settle_keeps conduct (.inr hp)
    next => cases ht
  | finalized =>
    obtain ⟨⟨hp, _⟩, ⟨⟩⟩ := ite_none_right_eq_some.mp ht
    exact conclude_keeps conduct (by simp [hp]) _ _ (by simp)
  | raised error =>
    obtain ⟨hal, ⟨⟩⟩ := ite_none_right_eq_some.mp ht
    have hg : s.driver ≠ .ended := by
      rintro he
      simp [he, DriverPhase.alive] at hal
    refine Keeps.of_call (.transition .failed (some error) none) rfl rfl ?_ fun here => ?_
    · intro here st hai
      obtain rfl : .failed = st := Option.some.inj ((if_pos here).symm.trans hai)
      refine ⟨?_, fun full => ?_⟩
      · intro hfi
        have hun := ho here
        have hue := (conduct here).unexpired
        cases st : s.status <;> simp_all [finalStatuses]
      · exact absurd ((conduct here).delivered (by simp_all [deliveredStatuses])) hg
    · refine (conduct here).end_with here hg _ _ (by simp) fun requested => ?_
      exact absurd ((conduct here).requested requested).1 (ho here)
  | cancelledError =>
    obtain ⟨⟨hal, requested, _⟩, ⟨⟩⟩ := ite_none_right_eq_some.mp ht
    have hg : s.driver ≠ .ended := by
      rintro he
      simp [he, DriverPhase.alive] at hal
    refine Keeps.of_call (.transition .cancelled none none) rfl rfl ?_ fun here => ?_
    · intro here st hai
      obtain rfl : .cancelled = st := Option.some.inj ((if_pos here).symm.trans hai)
      have cancelled := ((conduct here).requested requested).1
      exact ⟨fun _ => cancelled.symm, fun full => by simp [cancelled] at full⟩
    · exact (conduct here).end_with here hg _ _ (by simp) fun _ => rfl
  | cancel =>
    cases ht
    exact cancelOperation_keeps conduct ho
  | submit =>
    cases ht
    exact submitOperation_keeps conduct
  | lookedUp i outcome =>
    obtain ⟨found, ⟨⟩⟩ := ite_none_right_eq_some.mp ht
    exact lookedUp_keeps conduct found outcome
  | published i outcome =>
    obtain ⟨found, ⟨⟩⟩ := ite_none_right_eq_some.mp ht
    exact published_keeps conduct found outcome
  | escalateAi =>
    cases ht
    exact escalateAi_keeps conduct
  | assign values =>
    cases ht
    exact Keeps.of_same rfl rfl rfl fun here => { conduct here with }
  | tick seconds =>
    cases ht
    exact Keeps.of_same rfl rfl rfl fun here => { conduct here with }
  | reap =>
    cases ht
    split
    next due =>
      obtain ⟨due, here⟩ := due
      refine remove_keeps ?_ rfl
      intro st hre
      obtain rfl : s.status = st := Option.some.inj hre
      obtain ⟨stamp, hst, _⟩ := id due
      have hterm := (conduct here).stamped (isSome_iff_exists.mpr ⟨stamp, hst⟩)
      exact .inr (hterm.resolve_right (not_not.mpr (ho due)))
    next => exact Keeps.of_same rfl rfl rfl conduct
  | replace =>
    obtain ⟨_, ⟨⟩⟩ := ite_none_right_eq_some.mp ht
    exact remove_keeps (fun _ hr => .inl hr) rfl

end Steps

end Lifecycle

open Lifecycle

theorem create_conduct (scanType : String) : (create scanType).Conduct :=
  Calm.conduct ⟨by simp [status, create, terminalStatuses], by simp [status, create], rfl, rfl, rfl⟩

/-- In every run whose steps are orderly, no operation leaves a final status,
a completed one goes on to the submission of its pull request only, and the
reaper removes none that is not terminal. -/
theorem terminal_statuses_final (ttl : Nat) (scanType : String) (s : Lifecycle)
    (reached : Reaches (lifecycleStep ttl) (Orderly ttl) (create scanType) s) :
    s.Lawful ∧
      (s.status ∈ finalStatuses → ∀ t,
        Reaches (lifecycleStep ttl) (Orderly ttl) s t → t.status = s.status) := by
  have kept : s.Lawful ∧ (s.registry.registered → s.Conduct) := by
    refine reached.invariant (P := fun s => s.Lawful ∧ (s.registry.registered → s.Conduct)) ?_
      ⟨⟨by simp [create], by simp [create]⟩, fun _ => create_conduct scanType⟩
    intro before label after ⟨lawful, conduct⟩ orderly taken
    obtain ⟨proceeds, conduct'⟩ := step_keeps conduct orderly taken
    refine ⟨⟨fun move moved => ?_, fun status removed => ?_⟩, conduct'⟩
    · exact (proceeds.moves move moved).elim (lawful.moves move) id
    · exact (proceeds.reaped status removed).elim (lawful.reaped status) id
  refine ⟨kept.1, fun final t onward => ?_⟩
  have stays : (t.registry.registered → t.Conduct) ∧ t.status = s.status := by
    refine onward.invariant
      (P := fun t => (t.registry.registered → t.Conduct) ∧ t.status = s.status) ?_ ⟨kept.2, rfl⟩
    intro before label after ⟨conduct, same⟩ orderly taken
    obtain ⟨proceeds, conduct'⟩ := step_keeps conduct orderly taken
    exact ⟨conduct', (proceeds.final (same ▸ final)).trans same⟩
  exact stays.2

/-- A remediation that is submitted, and cancelled neither before nor after. -/
def submittedRun : List LifecycleLabel :=
  [.start, .fetched, .event (.result { patches := [[("file", "site.yml")]] }), .endOfStream,
    .channelClosed true, .bridgeStopped, .finalized, .submit, .lookedUp 0 .ready,
    .published 0 (.published (some "https://scm/pr/1")), .cancel, .tick 600, .reap]

theorem submittedRun_final :
    ∃ s, follow (lifecycleStep 600) (Orderly 600) submittedRun (create "remediate") = some s ∧
      s.status = .prSubmitted ∧ s.reaped = some .prSubmitted ∧ s.Lawful :=
  ⟨_, rfl, by decide, by decide,
    (terminal_statuses_final 600 "remediate" _ (reaches_of_follow submittedRun rfl)).1⟩

/-- The same run with the operation cancelled while the provider is asked. -/
def cancelledSubmission : List LifecycleLabel :=
  [.start, .fetched, .event (.result { patches := [[("file", "site.yml")]] }), .endOfStream,
    .channelClosed true, .bridgeStopped, .finalized, .submit, .lookedUp 0 .ready, .cancel,
    .published 0 (.published (some "https://scm/pr/1"))]

theorem cancelledSubmission_left :
    ∃ s, Reaches (lifecycleStep 600) (fun _ _ => True) (create "remediate") s ∧
      (.cancelled, .prSubmitted) ∈ s.registry.moves ∧ s.status = .prSubmitted ∧ ¬ s.Lawful := by
  refine ⟨_, reaches_of_follow cancelledSubmission rfl, by decide, by decide, ?_⟩
  intro lawful
  exact absurd ((lawful.moves (.cancelled, .prSubmitted) (by decide)).1 (by decide)) (by decide)

end Finality

end Apme.Gateway
