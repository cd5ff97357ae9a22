import Apme.Lib.Text
import Mathlib.Data.List.Basic

/-!
# Approval of proposals at the gateway

One operation of a run with an approval queue.  `POST /approve`, the driver
with its timeout callback, and the approval bridge are tasks of one event loop:
a step is what a task does between two awaits.  `OperationRun` holds what the
tasks share, where each of them is, and what has left the gateway so far.

`OperatorAnswerQueue` keeps answers under the generation of the prompt they are
for.  A call of `next_answer` accepts answers of one generation only: it drops
older ones and puts newer ones aside until it returns.  `Desk` follows the
answers through any calls.
-/

set_option autoImplicit false

namespace Apme.Gateway

open List Option

structure OperatorAnswerQueue (α : Type) where
  items : List (Nat × α) := []
  generation : Nat := 0

/-- A call of `next_answer` between two turns of its loop. -/
structure Wait (α : Type) where
  promptGeneration : Nat
  stashed : List (Nat × α) := []
  deriving DecidableEq

/-- The end of a turn: the call returns an answer, or goes on waiting. -/
inductive Turn (α : Type)
  | answered (value : α) (queue : OperatorAnswerQueue α)
  | again (wait : Wait α) (queue : OperatorAnswerQueue α)

namespace OperatorAnswerQueue

variable {α : Type} (q : OperatorAnswerQueue α)

def put (value : α) (forGeneration : Option Nat) : OperatorAnswerQueue α :=
  { q with items := q.items ++ [(forGeneration.getD q.generation, value)] }

def beginPrompt : OperatorAnswerQueue α := { q with generation := q.generation + 1 }

/-- The queue without the answers through `maxGeneration`. -/
def drainThrough (maxGeneration : Nat) : OperatorAnswerQueue α :=
  { q with items := q.items.filter fun item => maxGeneration < item.1 }

def requeue (stashed : List (Nat × α)) : OperatorAnswerQueue α :=
  { q with items := q.items ++ stashed }

/-- A turn of `next_answer` that gets an item. -/
def take (wait : Wait α) : Option (Turn α) :=
  match q.items with
  | [] => none
  | (generation, value) :: rest =>
    let q := { q with items := rest }
    some
      (if generation = wait.promptGeneration then .answered value (q.requeue wait.stashed)
      else if generation < wait.promptGeneration then .again wait q
      else .again { wait with stashed := wait.stashed ++ [(generation, value)] } q)

/-- `next_answer` when its time is over. -/
def expire (wait : Wait α) : OperatorAnswerQueue α :=
  (q.requeue wait.stashed).drainThrough wait.promptGeneration

/-- Every answer in the queue, or put aside by the call, satisfies `P`. -/
def Every (P : Nat × α → Prop) (stashed : List (Nat × α)) : Prop :=
  ∀ item ∈ q.items ++ stashed, P item

variable {q} {P : Nat × α → Prop} {wait : Wait α}

theorem Every.put {stashed : List (Nat × α)} {v : α} {gen : Nat} (every : q.Every P stashed)
    (new : P (gen, v)) : (q.put v (some gen)).Every P stashed := by
  intro x mem
  simp only [OperatorAnswerQueue.put, getD_some, mem_append, mem_singleton] at mem
  obtain (hq | rfl) | aside := mem
  · exact every x (mem_append_left _ hq)
  · exact new
  · exact every x (mem_append_right _ aside)

variable (every : q.Every P wait.stashed)
include every

variable {q' : OperatorAnswerQueue α}

theorem Every.answered {v : α} (ht : q.take wait = some (.answered v q')) :
    P (wait.promptGeneration, v) ∧ q'.Every P [] ∧ q'.generation = q.generation := by
  unfold take at ht
  split at ht
  next => cases ht
  next gen first rest hi =>
    have head : P (gen, first) := every _ (by simp [hi])
    simp only [some.injEq] at ht
    split at ht
    next hs =>
      cases ht
      refine ⟨hs ▸ head, fun x mem => every x ?_, rfl⟩
      simp only [requeue, append_nil, mem_append] at mem
      simp only [hi, cons_append, mem_cons, mem_append]
      exact .inr mem
    next => split at ht <;> cases ht

theorem Every.again {wait' : Wait α} (ht : q.take wait = some (.again wait' q')) :
    wait'.promptGeneration = wait.promptGeneration ∧ q'.Every P wait'.stashed ∧
      q'.generation = q.generation := by
  unfold take at ht
  split at ht
  next => cases ht
  next gen first rest hi =>
    simp only [some.injEq] at ht
    split at ht
    next => cases ht
    next =>
      split at ht
      · cases ht
        refine ⟨rfl, fun x mem => every x ?_, rfl⟩
        simp only [hi, cons_append, mem_cons]
        exact .inr mem
      · cases ht
        refine ⟨rfl, fun x mem => every x ?_, rfl⟩
        simp only [mem_append, mem_singleton] at mem
        simp only [hi, cons_append, mem_cons, mem_append]
        tauto

theorem Every.expire : (q.expire wait).Every P [] := by
  intro x mem
  simp only [OperatorAnswerQueue.expire, drainThrough, requeue, append_nil, mem_filter] at mem
  exact every x mem.1

end OperatorAnswerQueue

section Desk

open OperatorAnswerQueue

/-- How an answer left the queue. -/
inductive Fate
  | returned (generation : Nat)
  | discarded (generation : Nat)
  | drained

/-- A queue with the call of its consumer, every answer that was put, and what
became of those that left. -/
structure Desk (α : Type) where
  queue : OperatorAnswerQueue α := {}
  wait : Option (Wait α) := none
  put : List (Nat × α) := []
  fates : List (Fate × Nat × α) := []

inductive DeskAction (α : Type)
  | beginPrompt
  | put (value : α) (forGeneration : Option Nat)
  | drainThrough (maxGeneration : Nat)
  | nextAnswer (expectedGeneration : Option Nat)
  | take
  | expire

namespace Desk

variable {α : Type} (d : Desk α)

def stash : Option (Wait α) → List (Nat × α)
  | none => []
  | some wait => wait.stashed

/-- The answers get this fate. -/
def gone (fate : Fate) (items : List (Nat × α)) : List (Fate × Nat × α) :=
  d.fates ++ items.map (fate, ·)

def step : DeskAction α → Desk α
  | .beginPrompt => { d with queue := d.queue.beginPrompt }
  | .put value forGeneration =>
    { d with
      queue := d.queue.put value forGeneration
      put := d.put ++ [(forGeneration.getD d.queue.generation, value)] }
  | .drainThrough maxGeneration =>
    { d with
      queue := d.queue.drainThrough maxGeneration
      fates := d.gone .drained (d.queue.items.filter (·.1 ≤ maxGeneration)) }
  | .nextAnswer expectedGeneration =>
    match d.wait with
    | none => { d with wait := some { promptGeneration := expectedGeneration.getD d.queue.generation } }
    | some _ => d
  | .take =>
    match d.wait with
    | none => d
    | some wait =>
      match d.queue.take wait with
      | none => d
      | some (.answered _ queue) =>
        { d with
          queue, wait := none
          fates := d.gone (.returned wait.promptGeneration) (d.queue.items.take 1) }
      | some (.again next queue) =>
        { d with
          queue, wait := some next
          fates := d.gone (.discarded wait.promptGeneration)
            ((d.queue.items.take 1).filter (·.1 < wait.promptGeneration)) }
  | .expire =>
    match d.wait with
    | none => d
    | some wait =>
      { d with
        queue := d.queue.expire wait, wait := none
        fates := d.gone (.discarded wait.promptGeneration)
          ((d.queue.items ++ wait.stashed).filter (·.1 ≤ wait.promptGeneration)) }

def after (actions : List (DeskAction α)) : Desk α := actions.foldl step {}

/-- A call returns only an answer that was put for its generation, and does not
discard a newer one. -/
def Fitting : Fate × Nat × α → Prop
  | (.returned generation, item) => item.1 = generation
  | (.discarded generation, item) => item.1 ≤ generation
  | (.drained, _) => True

structure Kept : Prop where
  each : d.put.Perm (d.queue.items ++ stash d.wait ++ d.fates.map Prod.snd)
  fitting : ∀ fate ∈ d.fates, Fitting fate
  aside : ∀ wait, d.wait = some wait → ∀ item ∈ wait.stashed, wait.promptGeneration < item.1

variable {d}

/-- What leaves the queue and the stash is what gets a fate. -/
theorem Kept.move (hk : d.Kept) {queue : OperatorAnswerQueue α} {wait : Option (Wait α)}
    {fate : Fate} {items : List (Nat × α)}
    (hp : (d.queue.items ++ stash d.wait).Perm (queue.items ++ stash wait ++ items))
    (hf : ∀ x ∈ items, Fitting (fate, x))
    (aside : ∀ w, wait = some w → ∀ x ∈ w.stashed, w.promptGeneration < x.1) :
    Kept { d with queue, wait, fates := d.gone fate items } where
  each := by
    refine hk.each.trans ((hp.append_right _).trans ?_)
    have hs : (items.map (Prod.mk fate)).map Prod.snd = items := by simp [Function.comp_def]
    rw [append_assoc, gone, map_append, hs]
    exact perm_append_comm.append_left _
  fitting := by
    intro left mem
    rcases mem_append.mp mem with old | new
    · exact hk.fitting left old
    · obtain ⟨x, hI, rfl⟩ := mem_map.mp new
      exact hf x hI
  aside := aside

theorem perm_split (xs : List (Nat × α)) (gen : Nat) :
    xs.Perm (xs.filter (gen < ·.1) ++ xs.filter (·.1 ≤ gen)) := by
  have hs := (filter_append_perm (fun x => decide (gen < x.1)) xs).symm
  simpa only [← decide_not, not_lt] using hs

theorem step_take {wait : Wait α} {item : Nat × α} {rest : List (Nat × α)}
    (hw : d.wait = some wait) (items : d.queue.items = item :: rest) :
    item.1 < wait.promptGeneration ∧ d.step .take = { d with
      queue := { d.queue with items := rest }
      fates := d.gone (.discarded wait.promptGeneration) [item] } ∨
    item.1 = wait.promptGeneration ∧ d.step .take = { d with
      queue := { d.queue with items := rest ++ wait.stashed }, wait := none
      fates := d.gone (.returned wait.promptGeneration) [item] } ∨
    wait.promptGeneration < item.1 ∧ d.step .take = { d with
      queue := { d.queue with items := rest }
      wait := some { wait with stashed := wait.stashed ++ [item] }
      fates := d.gone (.discarded wait.promptGeneration) [] } := by
  rcases lt_trichotomy item.1 wait.promptGeneration with hst | hs | hn
  · refine .inl ⟨hst, ?_⟩
    simp [step, OperatorAnswerQueue.take, hw, items, hst, hst.ne]
  · refine .inr (.inl ⟨hs, ?_⟩)
    simp [step, OperatorAnswerQueue.take, requeue, hw, items, hs]
  · refine .inr (.inr ⟨hn, ?_⟩)
    simp [step, OperatorAnswerQueue.take, hw, items, hn.ne', hn.not_gt]

theorem Kept.step (hk : d.Kept) (action : DeskAction α) : (d.step action).Kept := by
  cases action with
  | beginPrompt => exact { hk with }
  | put v forGeneration =>
    refine { hk with each := (hk.each.append_right _).trans ?_ }
    simp only [append_assoc, Desk.step, OperatorAnswerQueue.put]
    rw [← append_assoc (stash _)]
    exact perm_append_comm.append_left _
  | drainThrough maxGeneration =>
    refine hk.move ?_ (fun _ _ => trivial) hk.aside
    refine ((perm_split d.queue.items maxGeneration).append_right _).trans ?_
    simp only [append_assoc]
    exact perm_append_comm.append_left _
  | nextAnswer expectedGeneration =>
    simp only [Desk.step]
    split
    next idle =>
      refine ⟨?_, hk.fitting, ?_⟩
      · have each := hk.each
        rwa [idle] at each
      · rintro _ ⟨⟩ x mem
        cases mem
    next => exact hk
  | take =>
    cases hw : d.wait with
    | none => simpa [Desk.step, hw] using hk
    | some wait =>
      cases hi : d.queue.items with
      | nil => simpa [Desk.step, hw, OperatorAnswerQueue.take, hi] using hk
      | cons x rest =>
        have hm := (perm_append_singleton x (rest ++ wait.stashed)).symm
        rcases step_take hw hi with ⟨hst, step⟩ | ⟨hs, step⟩ | ⟨hn, step⟩
        · rw [step]
          refine hk.move ?_ (fun _ mem => mem_singleton.mp mem ▸ hst.le) hk.aside
          simpa [hi, hw, stash] using hm
        · rw [step]
          refine hk.move ?_ (fun _ mem => mem_singleton.mp mem ▸ hs) nofun
          simpa [hi, hw, stash] using hm
        · rw [step]
          refine hk.move ?_ nofun ?_
          · simpa [hi, hw, stash] using hm
          · rintro _ ⟨⟩ o mem
            rcases mem_append.mp mem with old | new
            · exact hk.aside wait hw o old
            · exact mem_singleton.mp new ▸ hn
  | expire =>
    simp only [Desk.step]
    split
    next => exact hk
    next wait hw =>
      refine hk.move ?_ (fun x mem => ?_) nofun
      · rw [hw, stash, stash, append_nil]
        exact perm_split (d.queue.items ++ wait.stashed) wait.promptGeneration
      · exact of_decide_eq_true (p := x.1 ≤ _) (mem_filter.mp mem).2

/-- The call puts what it has set aside behind what is still queued. -/
theorem Kept.ends (hk : d.Kept) {wait : Wait α} (hw : d.wait = some wait)
    {action : DeskAction α} (he : (d.step action).wait = none) :
    (d.step action).queue.items.filter (wait.promptGeneration < ·.1) =
      d.queue.items.filter (wait.promptGeneration < ·.1) ++ wait.stashed := by
  have ha : wait.stashed.filter (wait.promptGeneration < ·.1) = wait.stashed :=
    filter_eq_self.mpr fun item mem => decide_eq_true (hk.aside wait hw item mem)
  cases action with
  | beginPrompt | put | drainThrough => cases hw.symm.trans he
  | nextAnswer => simp [Desk.step, hw] at he
  | take =>
    cases hi : d.queue.items with
    | nil => simp [Desk.step, hw, OperatorAnswerQueue.take, hi] at he
    | cons item rest =>
      rcases step_take hw hi with ⟨hst, hs⟩ | ⟨same, hs⟩ | ⟨hn, hs⟩
      · rw [hs] at he
        cases hw.symm.trans he
      · rw [hs, filter_append, ha, filter_cons_of_neg (by simp [same])]
      · rw [hs] at he
        cases he
  | expire =>
    simp only [Desk.step, hw]
    rw [OperatorAnswerQueue.expire, drainThrough, List.filter_filter]
    simp [requeue, ha]

/-- Every answer that was put is queued, set aside, or has left in one way only. -/
theorem answers_kept (actions : List (DeskAction α)) :
    (after actions).Kept ∧ ∀ wait action, (after actions).wait = some wait →
      ((after actions).step action).wait = none →
        ((after actions).step action).queue.items.filter (wait.promptGeneration < ·.1) =
          (after actions).queue.items.filter (wait.promptGeneration < ·.1) ++ wait.stashed := by
  have kept : (after actions).Kept := by
    induction actions using reverseRecOn with
    | nil => exact ⟨.refl _, nofun, nofun⟩
    | append_singleton actions action ih =>
      rw [after, foldl_append]
      exact ih.step action
  exact ⟨kept, fun wait action waiting ended => kept.ends waiting ended⟩

theorem newer_answers_swapped :
    (after [.put "a" (some 2), .put "x" (some 1), .put "b" (some 2), .nextAnswer (some 1), .take,
      .take]).queue.items = [(2, "b"), (2, "a")] := rfl

end Desk

end Desk

open Apme.Lib

inductive OperationStatus
  | queued | cloning | scanning | assessed | awaitingAiTriage | awaitingApproval | applying
  | completed | submittingPr | prSubmitted | failed | expired | cancelled
  deriving DecidableEq

def OperationStatus.value : OperationStatus → String
  | .queued => "queued"
  | .cloning => "cloning"
  | .scanning => "scanning"
  | .assessed => "assessed"
  | .awaitingAiTriage => "awaiting_ai_triage"
  | .awaitingApproval => "awaiting_approval"
  | .applying => "applying"
  | .completed => "completed"
  | .submittingPr => "submitting_pr"
  | .prSubmitted => "pr_submitted"
  | .failed => "failed"
  | .expired => "expired"
  | .cancelled => "cancelled"

def terminalStatuses : List OperationStatus :=
  [.completed, .prSubmitted, .failed, .expired, .cancelled]

inductive Decision
  | approved
  | declined
  deriving DecidableEq

/-- `(prop.engine_proposal_id or "").strip()`. -/
def engineId (row : Option String) : String := String.ofList (Text.strip (row.getD "").toList)

/-- The statuses `commit_gate_decisions` gives to the rows of the scan. -/
def commitGateDecisions (approved : List String) (offered : Option (List String))
    (rows : List (Option String)) : List (String × Decision) :=
  rows.filterMap fun row =>
    let id := engineId row
    if id = "" then none
    else if offered.any fun ids => id ∉ ids then none
    else some (id, if id ∈ approved then .approved else .declined)

/-- The body of `POST /approve`. -/
structure ApproveRequest where
  approvedIds : List String
  approvalGateId : Option String := none
  deriving DecidableEq

/-- Why `POST /approve` answers 409. -/
inductive Conflict
  | notAwaiting (status : OperationStatus)
  | alreadySubmitted
  | superseded
  deriving DecidableEq

def Conflict.detail : Conflict → String
  | .notAwaiting status => "Operation is in '" ++ status.value ++ "', not 'awaiting_approval'"
  | .alreadySubmitted => "Approval already submitted"
  | .superseded => "Approval superseded by newer proposals"

/-- The answer to a request; a success is kept with the gate it resolved and the
ids it approved. -/
inductive Reply
  | refused (conflict : Conflict)
  | approved (gate : Nat) (ids : List String)
  deriving DecidableEq

/-- An `ApprovalRequest` on the command queue, with the prompt it ends. -/
structure ApprovalRequest where
  generation : Nat
  approvedIds : List String
  deriving DecidableEq

structure ApprovalGate where
  future : Option (List String) := none
  promptGeneration : Nat
  gateId : String

/-- A task in the queue of `approval_gate_lock`, with what it goes on with. -/
inductive Waiter
  | approve (gate : Nat) (request : ApproveRequest)
  | setProposals (proposals : List String) (promptGeneration : Nat) (gateId : String)
  | retire (gate : Nat) (generation : Nat)

inductive Committer
  | approve
  | timeout (generation : Nat)
  deriving DecidableEq

/-- How far the call of `commit_gate_decisions` is: the rows are not yet read,
the statuses are not yet committed, or the task has not yet gone on. -/
inductive CommitStage
  | begun
  | read (decisions : List (String × Decision))
  | written
  deriving DecidableEq

/-- The task that holds the lock across its database session. -/
structure GateCommit where
  committer : Committer
  gate : Nat
  approved : List String
  offered : List String
  stage : CommitStage := .begun

/-- Where `run_project_operation` is. -/
inductive Driver
  | listening
  | offering (generation : Nat)
  | recording (generation : Nat)
  | waiting (wait : Wait (List String))
  | retiring (generation : Nat)
  | finished
  deriving DecidableEq

inductive Bridge
  | polling
  | awaiting (gate : Nat)
  | ended

/-- The statuses a commit has written for a gate. -/
structure GateWrite where
  gate : Nat
  decisions : List (String × Decision)

structure OperationRun where
  status : OperationStatus
  proposals : List String := []
  gates : List ApprovalGate := []
  approvalGate : Option Nat := none
  holder : Option GateCommit := none
  waiters : List Waiter := []
  queue : OperatorAnswerQueue (List String) := {}
  driver : Driver := .listening
  bridge : Bridge := .polling
  written : List GateWrite := []
  replies : List Reply := []
  sent : List ApprovalRequest := []

namespace OperationRun

def future (s : OperationRun) (gate : Nat) : Option (List String) :=
  (s.gates[gate]?).bind ApprovalGate.future

variable (s : OperationRun)

/-- The gate of the operation, unless it is resolved. -/
def openGate : Option Nat := s.approvalGate.filter fun gate => (s.future gate).isNone

/-- `gate.future.set_result(ids)`, on a future that is not done. -/
def setResult (gate : Nat) (ids : List String) : OperationRun :=
  { s with gates := s.gates.modify gate fun g => { g with future := g.future <|> some ids } }

def reply (answer : Reply) : OperationRun := { s with replies := s.replies ++ [answer] }

/-- The driver puts the request on the command queue and waits for the next event. -/
def send (generation : Nat) (approvedIds : List String) : OperationRun :=
  { s with sent := s.sent ++ [⟨generation, approvedIds⟩], driver := .listening }

/-- `approve_proposals` once it has the lock. -/
def enterApprove (gate : Nat) (request : ApproveRequest) : OperationRun :=
  if (s.future gate).isSome then s.reply (.refused .alreadySubmitted)
  else if s.approvalGate ≠ some gate then s.reply (.refused .superseded)
  else if request.approvalGateId.any fun id => (s.gates[gate]?).any fun g => id ≠ g.gateId then
    s.reply (.refused .superseded)
  else
    { s with
      holder := some
        { committer := .approve, gate
          approved := s.proposals.filter fun id => id ∈ request.approvedIds
          offered := s.proposals } }

/-- `set_proposals` once it has the lock. -/
def enterSetProposals (proposals : List String) (promptGeneration : Nat)
    (gateId : String) : OperationRun :=
  let s := match s.approvalGate with
    | some old => s.setResult old []
    | none => s
  { s with
    proposals, gates := s.gates ++ [{ promptGeneration := promptGeneration, gateId }]
    approvalGate := some s.gates.length, status := .awaitingApproval
    driver := .recording promptGeneration }

/-- `_on_approve_timeout` once it has the lock. -/
def enterRetire (gate generation : Nat) : OperationRun :=
  if (s.future gate).isSome ∨ s.approvalGate ≠ some gate then s.send generation []
  else
    { s with
      holder := some
        { committer := .timeout generation, gate, approved := [], offered := s.proposals } }

def enter : Waiter → OperationRun
  | .approve gate request => s.enterApprove gate request
  | .setProposals proposals promptGeneration gateId =>
    s.enterSetProposals proposals promptGeneration gateId
  | .retire gate generation => s.enterRetire gate generation

/-- The lock is taken at once when nobody holds it and nobody waits for it;
otherwise the task queues up. -/
def acquire (waiter : Waiter) : OperationRun :=
  if s.holder = none ∧ s.waiters = [] then s.enter waiter
  else { s with waiters := s.waiters ++ [waiter] }

/-- `POST /approve`, until it waits. -/
def approveProposals (request : ApproveRequest) : OperationRun :=
  if s.status ≠ .awaitingApproval then s.reply (.refused (.notAwaiting s.status))
  else
    match s.openGate with
    | none => s.reply (.refused .alreadySubmitted)
    | some gate => s.acquire (.approve gate request)

/-- The driver when the wait for an answer has timed out. -/
def onApproveTimeout (generation : Nat) : OperationRun :=
  if s.status ≠ .awaitingApproval then s.send generation []
  else
    match s.openGate with
    | none => s.send generation []
    | some gate => { s with driver := .retiring generation }.acquire (.retire gate generation)

/-- The holder of the lock after its commit: it resolves the gate, leaves the
lock and returns. -/
def leave (commit : GateCommit) : OperationRun :=
  let s := { s with holder := none }.setResult commit.gate commit.approved
  match commit.committer with
  | .approve => s.reply (.approved commit.gate commit.approved)
  | .timeout generation => s.send generation []

/-- `_forward_approval_gate_result` once the gate is resolved. -/
def forward (gate : ApprovalGate) (index : Nat) (ids : List String) : OperationRun :=
  { s with
    queue := s.queue.put ids (some gate.promptGeneration)
    approvalGate := if s.approvalGate = some index then none else s.approvalGate
    bridge := .polling }

/-- A turn of `_approval_bridge`; the other futures it serves are not modelled. -/
def bridgeTurn : Option OperationRun :=
  match s.bridge with
  | .polling =>
    some
      (if s.status ∈ terminalStatuses then { s with bridge := .ended }
      else
        match s.approvalGate with
        | some gate =>
          if s.status = .awaitingApproval then { s with bridge := .awaiting gate } else s
        | none => s)
  | .awaiting index =>
    match s.gates[index]? with
    | some gate => gate.future.map (s.forward gate index)
    | none => none
  | .ended => none

end OperationRun

/-- What can happen next. -/
inductive Label
  | approve (request : ApproveRequest)
  | grant
  | readRows (rows : List (Option String))
  | commit
  | resume
  | proposalsReady (proposals : List String) (gateId : String)
  | stubsRecorded
  | event (status : OperationStatus)
  | take
  | expire
  | bridge

open OperationRun in
def step (s : OperationRun) : Label → Option OperationRun
  | .approve request => some (s.approveProposals request)
  | .grant =>
    match s.holder, s.waiters with
    | none, waiter :: rest => some ({ s with waiters := rest }.enter waiter)
    | _, _ => none
  | .readRows rows =>
    match s.holder with
    | some commit =>
      if commit.stage = .begun then
        let decisions := commitGateDecisions commit.approved (some commit.offered) rows
        some { s with holder := some { commit with stage := .read decisions } }
      else none
    | none => none
  | .commit =>
    match s.holder with
    | some commit =>
      match commit.stage with
      | .read decisions =>
        some { s with
          holder := some { commit with stage := .written }
          written := s.written ++ [⟨commit.gate, decisions⟩] }
      | _ => none
    | none => none
  | .resume =>
    match s.holder with
    | some commit => if commit.stage = .written then some (s.leave commit) else none
    | none => none
  | .proposalsReady proposals gateId =>
    if s.driver = .listening then
      let queue := s.queue.beginPrompt
      some ({ s with queue, driver := .offering queue.generation }.acquire
        (.setProposals proposals queue.generation gateId))
    else none
  | .stubsRecorded =>
    match s.driver with
    | .recording generation => some { s with driver := .waiting { promptGeneration := generation } }
    | _ => none
  | .event status =>
    if s.driver = .listening then
      some { s with
        status, driver := if status ∈ terminalStatuses then .finished else .listening }
    else none
  | .take =>
    match s.driver with
    | .waiting wait =>
      (s.queue.take wait).map fun
        | .answered ids queue => { s with queue }.send wait.promptGeneration ids
        | .again wait queue => { s with queue, driver := .waiting wait }
    | _ => none
  | .expire =>
    match s.driver with
    | .waiting wait =>
      some ({ s with queue := s.queue.expire wait }.onApproveTimeout wait.promptGeneration)
    | _ => none
  | .bridge => s.bridgeTurn

end Apme.Gateway
