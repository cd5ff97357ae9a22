import Apme.Gateway.Triage

/-!
# The operation registry

`OperationRegistry` holds the state of one operation, tells every change to the
queues of its SSE subscribers, and stamps the time of a terminal status for the
reaper.  A `Registry` is the registry's view of one operation: the operation,
whether it is still registered, and each subscriber with its queue and with how
far its `_event_stream` has come.
-/

set_option autoImplicit false

namespace Apme.Gateway

/-- A JSON row that the registry passes on as it is. -/
abbrev Row : Type := List (String × String)

structure ProgressEntry where
  phase : String
  message : String
  timestamp : String
  progress : Option Rat := none
  level : Option Int := none
  budgetSeconds : Option Int := none
  aiCompleted : Option Int := none
  aiTotal : Option Int := none
  deriving DecidableEq

structure Proposal where
  id : String
  ruleId : String
  file : String
  tier : Int := 0
  confidence : Rat := 0
  explanation : String := ""
  diffHunk : String := ""
  status : String := "proposed"
  source : String := ""
  path : String := ""
  nodeType : String := ""
  suggestion : String := ""
  lineStart : Int := 0
  lineEnd : Int := 0
  beforeText : String := ""
  afterText : String := ""
  deriving DecidableEq

structure OperationResult where
  totalViolations : Int := 0
  fixable : Int := 0
  aiProposed : Int := 0
  aiDeclined : Int := 0
  aiAccepted : Int := 0
  manualReview : Int := 0
  remediatedCount : Int := 0
  fixedViolations : List Row := []
  patches : List Row := []
  deriving DecidableEq

/-- A row of `PATCH /proposals`, as far as the registry and the client read it. -/
structure DraftRow where
  id : Nat
  engineProposalId : Option String
  status : String
  path : String
  source : String
  deriving DecidableEq

/-- The JSON object of a snapshot, which is also what the web client holds.  A
key that is left out is `none`. -/
structure ProjectOperationState where
  status : OperationStatus
  scanType : String
  progress : List ProgressEntry
  proposals : Option (List Proposal)
  findings : Option (List Row)
  aiTriageCandidates : Option (List Row)
  result : Option OperationResult
  prUrl : Option String
  error : Option String
  errorCode : Option String
  operationBudgetSeconds : Option Int
  cloneCommit : Option String
  approvalGateId : Option String
  deriving DecidableEq

inductive Message
  | snapshot (state : ProjectOperationState)
  | statusChanged (status previous : OperationStatus) (error errorCode : Option String)
      (operationBudgetSeconds : Option Int)
  | progress (entry : ProgressEntry)
  | proposals (proposals : List Proposal) (approvalGateId : Option String)
  | findings (findings : List Row)
  | aiTriage (candidates : List Row)
  | proposalUpdated (proposals : List DraftRow)
  | result (result : OperationResult)
  | approvalAck (appliedCount : Int)
  | prCreated (prUrl : String)
  | errorEvent (error : String)
  | close
  deriving DecidableEq

/-- The `status` key of the payload. -/
def Message.status : Message → Option OperationStatus
  | .snapshot state => some state.status
  | .statusChanged status _ _ _ _ => some status
  | _ => none

def Message.isMustDeliver : Message → Bool
  | .result _ => true
  | .prCreated _ => true
  | msg => msg.status.any (· ∈ terminalStatuses)

def Message.isTerminal : Message → Bool
  | .prCreated _ => true
  | msg => msg.status.any (· ∈ terminalStatuses)

structure OperationState where
  status : OperationStatus := .queued
  scanType : String
  progress : List ProgressEntry := []
  proposals : Option (List Proposal) := none
  findings : Option (List Row) := none
  aiTriageCandidates : Option (List Row) := none
  result : Option OperationResult := none
  prUrl : Option String := none
  error : Option String := none
  errorCode : Option String := none
  operationBudgetSeconds : Option Int := none
  cloneCommit : String := ""
  approvalGateId : Option String := none
  -- of a future the registry only asks whether it is done
  beginRemediateFuture : Option Bool := none
  escalateAiFuture : Option Bool := none
  deriving DecidableEq

def OperationState.toSnapshot (op : OperationState) : ProjectOperationState :=
  { status := op.status
    scanType := op.scanType
    progress := op.progress
    proposals := op.proposals
    findings := op.findings
    aiTriageCandidates := op.aiTriageCandidates
    result := op.result
    prUrl := op.prUrl
    error := op.error
    errorCode := op.errorCode
    operationBudgetSeconds := op.operationBudgetSeconds
    cloneCommit := if op.cloneCommit = "" then none else some op.cloneCommit
    approvalGateId := op.approvalGateId }

/-- Where `_event_stream` of a subscriber is. -/
inductive Stream
  | subscribed
  | snapshotSent
  | live
  | trailing
  | closed
  deriving DecidableEq

/-- A queue that `subscribe` made, with the stream that reads it.  It is
attached while it is in `sse_subscribers`; `delivered` is what the stream has
taken and sent on, with the close message when it has taken that. -/
structure Subscriber where
  attached : Bool := true
  queue : List Message := []
  stream : Stream := .subscribed
  delivered : List Message := []
  deriving DecidableEq

/-- The size of a subscriber's queue. -/
def maxsize : Nat := 256

variable (buffered : List Message)

/-- One turn of the loop that makes room: the oldest message that may be lost
is deleted, and the oldest of all when there is none. -/
def dropOldest : List Message :=
  if buffered.any fun msg => !msg.isMustDeliver then
    buffered.eraseP fun msg => !msg.isMustDeliver
  else buffered.tail

/-- The loop runs until the messages and one more fit; each turn deletes one. -/
def makeRoom : List Message := dropOldest^[buffered.length + 1 - maxsize] buffered

namespace Subscriber

variable (sub : Subscriber)

/-- What `_broadcast` does with one queue. -/
def offer (msg : Message) : Subscriber :=
  if ¬ sub.attached then sub
  else if sub.queue.length < maxsize then { sub with queue := sub.queue ++ [msg] }
  else if msg.isMustDeliver then { sub with queue := makeRoom sub.queue ++ [msg] }
  else { sub with attached := false }

/-- The messages of one call. -/
def offerAll (msgs : List Message) : Subscriber := msgs.foldl Subscriber.offer sub

/-- What `_remove` does with one queue: a full one gets no close message. -/
def shut : Subscriber :=
  if ¬ sub.attached then sub
  else
    { sub with
      attached := false
      queue := if sub.queue.length < maxsize then sub.queue ++ [.close] else sub.queue }

def unsubscribe : Subscriber := { sub with attached := false, stream := .closed }

/-- The generator starts: the snapshot is sent. -/
def takeSnapshot (op : OperationState) : Option Subscriber :=
  match sub.stream with
  | .subscribed =>
    some { sub with delivered := sub.delivered ++ [.snapshot op.toSnapshot], stream := .snapshotSent }
  | _ => none

/-- The generator goes on after the snapshot.  In a terminal status what is
queued before a close message is gone through at once. -/
def resume (op : OperationState) : Option Subscriber :=
  match sub.stream with
  | .snapshotSent =>
    if op.status ∈ terminalStatuses then
      let pending := sub.queue.takeWhile fun msg => msg ≠ .close
      let closing := (sub.queue.dropWhile fun msg => msg ≠ .close).take 1
      some
        { sub.unsubscribe with
          queue := sub.queue.drop (pending.length + closing.length)
          delivered := sub.delivered ++ pending.filter Message.isMustDeliver ++ closing }
    else some { sub with stream := .live }
  | _ => none

/-- The live loop takes one message. -/
def read : Option Subscriber :=
  match sub.stream, sub.queue with
  | .live, .close :: rest =>
    some { sub.unsubscribe with queue := rest, delivered := sub.delivered ++ [.close] }
  | .live, msg :: rest =>
    some
      { sub with
        queue := rest
        delivered := sub.delivered ++ [msg]
        stream := if msg.isTerminal then .trailing else .live }
  | _, _ => none

/-- After a terminal message: one message that is still queued, or the end. -/
def trail : Option Subscriber :=
  match sub.stream, sub.queue with
  | .trailing, [] => some sub.unsubscribe
  | .trailing, .close :: rest =>
    some { sub.unsubscribe with queue := rest, delivered := sub.delivered ++ [.close] }
  | .trailing, msg :: rest =>
    if msg.isMustDeliver then some { sub with queue := rest, delivered := sub.delivered ++ [msg] }
    else some { sub with queue := rest }
  | _, _ => none

/-- The client is gone: the generator is left, wherever it is. -/
def disconnect : Option Subscriber :=
  match sub.stream with
  | .closed => none
  | _ => some sub.unsubscribe

end Subscriber

/-- `_FINDINGS_ALLOWED_STATUSES`. -/
def findingsAllowedStatuses : List OperationStatus := [.queued, .cloning, .scanning, .assessed]

/-- `moves` holds the old and the new status of every transition, as
`transition` logs them. -/
structure Registry where
  op : OperationState
  registered : Bool := true
  clock : Nat := 0
  terminalTime : Option Nat := none
  moves : List (OperationStatus × OperationStatus) := []
  subscribers : List Subscriber := []

/-- `by_engine[eng].status = ...`, where the dictionary holds the last proposal
of every id. -/
def mirrorStatus (row : DraftRow) : List Proposal → List Proposal
  | [] => []
  | proposal :: rest =>
    if some proposal.id = row.engineProposalId ∧ ∀ other ∈ rest, other.id ≠ proposal.id then
      { proposal with status := if row.status = "" then proposal.status else row.status } :: rest
    else proposal :: mirrorStatus row rest

/-- The rows of a draft update mirrored onto the proposals in memory. -/
def mirrorDrafts (rows : List DraftRow) (proposals : List Proposal) : List Proposal :=
  (rows.filter fun row => row.engineProposalId.any (· ≠ "")).foldl
    (fun proposals row => mirrorStatus row proposals) proposals

namespace Registry

variable (r : Registry)

def broadcast (msg : Message) : Registry :=
  { r with subscribers := r.subscribers.map (·.offer msg) }

/-- `_remove`. -/
def remove : Registry :=
  if r.registered then
    { r with registered := false, terminalTime := none, subscribers := r.subscribers.map (·.shut) }
  else r

def transition (status : OperationStatus) (error errorCode : Option String) : Registry :=
  if r.registered then
    broadcast
      { r with
        op := { r.op with
          status, error := error <|> r.op.error, errorCode := errorCode <|> r.op.errorCode }
        terminalTime := if status ∈ terminalStatuses then some r.clock else r.terminalTime
        moves := r.moves ++ [(r.op.status, status)] }
      (.statusChanged status r.op.status error errorCode none)
  else r

def setOperationBudget (budgetSeconds : Int) : Registry :=
  if ¬ r.registered ∨ budgetSeconds ≤ 0 then r
  else
    broadcast { r with op := { r.op with operationBudgetSeconds := some budgetSeconds } }
      (.statusChanged r.op.status r.op.status none none (some budgetSeconds))

def addProgress (entry : ProgressEntry) : Registry :=
  if r.registered then
    broadcast { r with op := { r.op with progress := r.op.progress ++ [entry] } } (.progress entry)
  else r

def setFindings (findings : List Row) : Registry :=
  if ¬ r.registered ∨ r.op.status ∉ findingsAllowedStatuses then r
  else
    let op := { r.op with
      findings := some findings
      beginRemediateFuture := r.op.beginRemediateFuture <|> some false }
    (transition { r with op } .assessed none none).broadcast (.findings findings)

def setAiTriage (candidates : List Row) : Registry :=
  if ¬ r.registered ∨ r.op.status ∉ aiTriageAllowedStatuses then r
  -- a replayed event while the choice is on its way or forwarded
  else if r.op.status = .applying ∧ r.op.aiTriageCandidates.isSome ∧
      r.op.escalateAiFuture.all id then r
  else
    let op := { r.op with
      beginRemediateFuture := r.op.beginRemediateFuture.map fun _ => true
      aiTriageCandidates := some candidates
      escalateAiFuture := r.op.escalateAiFuture <|> some false }
    (transition { r with op } .awaitingAiTriage none none).broadcast (.aiTriage candidates)

/-- The part of `set_proposals` under the gate's lock and what follows it. -/
def setProposals (proposals : List Proposal) (gateId : String) : Registry :=
  if r.registered then
    let op := { r.op with
      beginRemediateFuture := r.op.beginRemediateFuture.map fun _ => true
      escalateAiFuture := r.op.escalateAiFuture.map fun _ => true
      proposals := some proposals
      approvalGateId := some gateId }
    (transition { r with op } .awaitingApproval none none).broadcast
      (.proposals proposals (some gateId))
  else r

def setResult (result : OperationResult) : Registry :=
  if r.registered then
    broadcast { r with op := { r.op with result := some result } } (.result result)
  else r

def setPrUrl (prUrl : String) : Registry :=
  if r.registered then
    (transition { r with op := { r.op with prUrl := some prUrl } } .prSubmitted none none).broadcast
      (.prCreated prUrl)
  else r

/-- The end of `PATCH /proposals`: the rows are mirrored and broadcast. -/
def patchDraft (rows : List DraftRow) : Registry :=
  if r.registered then
    broadcast { r with op := { r.op with proposals := r.op.proposals.map (mirrorDrafts rows) } }
      (.proposalUpdated rows)
  else r

def subscribe : Option Registry :=
  if r.registered then some { r with subscribers := r.subscribers ++ [{}] } else none

end Registry

/-- A call that changes the operation and tells the subscribers. -/
inductive Call
  | transition (status : OperationStatus) (error errorCode : Option String)
  | setOperationBudget (budgetSeconds : Int)
  | addProgress (entry : ProgressEntry)
  | setFindings (findings : List Row)
  | setAiTriage (candidates : List Row)
  | setProposals (proposals : List Proposal) (gateId : String)
  | setResult (result : OperationResult)
  | setPrUrl (prUrl : String)
  | patchDraft (rows : List DraftRow)

def Registry.call (r : Registry) : Call → Registry
  | .transition status error errorCode => r.transition status error errorCode
  | .setOperationBudget budgetSeconds => r.setOperationBudget budgetSeconds
  | .addProgress entry => r.addProgress entry
  | .setFindings findings => r.setFindings findings
  | .setAiTriage candidates => r.setAiTriage candidates
  | .setProposals proposals gateId => r.setProposals proposals gateId
  | .setResult result => r.setResult result
  | .setPrUrl prUrl => r.setPrUrl prUrl
  | .patchDraft rows => r.patchDraft rows

/-- A turn of a subscriber's stream. -/
inductive StreamTurn
  | snapshot
  | resume
  | read
  | trail
  | disconnect

def Subscriber.turn (sub : Subscriber) (op : OperationState) : StreamTurn → Option Subscriber
  | .snapshot => sub.takeSnapshot op
  | .resume => sub.resume op
  | .read => sub.read
  | .trail => sub.trail
  | .disconnect => sub.disconnect

/-- What handlers and the bridge write to the operation on their own. -/
structure Assignment where
  scanType : String
  cloneCommit : String
  approvalGateId : Option String
  beginRemediateFuture : Option Bool
  escalateAiFuture : Option Bool

inductive RegistryLabel
  | call (call : Call)
  | assign (values : Assignment)
  | subscribe
  | stream (index : Nat) (turn : StreamTurn)
  | remove

def Registry.step (r : Registry) : RegistryLabel → Option Registry
  | .call call => some (r.call call)
  | .assign values =>
    some
      { r with
        op := { r.op with
          scanType := values.scanType
          cloneCommit := values.cloneCommit
          approvalGateId := values.approvalGateId
          beginRemediateFuture := values.beginRemediateFuture
          escalateAiFuture := values.escalateAiFuture } }
  | .subscribe => r.subscribe
  | .stream index turn =>
    (r.subscribers[index]?).bind fun sub =>
      (sub.turn r.op turn).map fun sub' => { r with subscribers := r.subscribers.set index sub' }
  | .remove => some r.remove

namespace Subscriber

variable {sub : Subscriber}

theorem offerAll_of_room {msgs : List Message} (ha : sub.attached)
    (hr : sub.queue.length + msgs.length ≤ maxsize) :
    sub.offerAll msgs = { sub with queue := sub.queue ++ msgs } := by
  induction msgs generalizing sub with
  | nil => simp [offerAll]
  | cons msg rest ih =>
    simp only [List.length_cons] at hr
    have had : sub.offer msg = { sub with queue := sub.queue ++ [msg] } := by
      simp [offer, ha, show sub.queue.length < maxsize by omega]
    simp only [offerAll, List.foldl_cons, had]
    have hr' : (sub.queue ++ [msg]).length + rest.length ≤ maxsize := by
      simp only [List.length_append, List.length_singleton]
      omega
    have ho : offerAll { sub with queue := sub.queue ++ [msg] } rest = _ := ih ha hr'
    simpa [offerAll] using ho

end Subscriber

namespace Registry

variable (r : Registry)

/-- The status a call moves the operation to, if it moves it. -/
def target : Call → Option OperationStatus
  | .transition status _ _ => if r.registered then some status else none
  | .setFindings _ =>
    if ¬ r.registered ∨ r.op.status ∉ findingsAllowedStatuses then none else some .assessed
  | .setAiTriage _ =>
    if ¬ r.registered ∨ r.op.status ∉ aiTriageAllowedStatuses then none
    else if r.op.status = .applying ∧ r.op.aiTriageCandidates.isSome ∧
        r.op.escalateAiFuture.all id then none
    else some .awaitingAiTriage
  | .setProposals _ _ => if r.registered then some .awaitingApproval else none
  | .setPrUrl _ => if r.registered then some .prSubmitted else none
  | _ => none

/-- Everything a call does apart from the payload it stores: the status it
leaves, the move it logs and the time it stamps. -/
structure Effect (call : Call) (r' : Registry) : Prop where
  registered : r'.registered = r.registered
  clock : r'.clock = r.clock
  status : r'.op.status = (r.target call).getD r.op.status
  moves : r'.moves = r.moves ++ (r.target call).toList.map fun status => (r.op.status, status)
  terminalTime : r'.terminalTime =
    if (r.target call).any (· ∈ terminalStatuses) then some r.clock else r.terminalTime

theorem call_effect (call : Call) : r.Effect call (r.call call) := by
  cases call with
  | transition st error errorCode =>
    simp only [Registry.call, transition]
    split <;> constructor <;> simp_all [broadcast, target]
  | setOperationBudget budgetSeconds =>
    simp only [Registry.call, setOperationBudget]
    split <;> constructor <;> simp_all [broadcast, target]
  | addProgress e =>
    simp only [Registry.call, addProgress]
    split <;> constructor <;> simp_all [broadcast, target]
  | setFindings findings =>
    simp only [Registry.call, setFindings]
    split <;> constructor <;> simp_all [broadcast, transition, target, terminalStatuses]
  | setAiTriage cands =>
    simp only [Registry.call, setAiTriage]
    split
    next hu =>
      have none : r.target (.setAiTriage cands) = none := if_pos hu
      constructor <;> simp [none]
    next hw =>
      have here : r.registered := by simp_all
      split
      next hr =>
        have none : r.target (.setAiTriage cands) = none := (if_neg hw).trans (if_pos hr)
        constructor <;> simp [none]
      next hf =>
        have hm : r.target (.setAiTriage cands) = some .awaitingAiTriage :=
          (if_neg hw).trans (if_neg hf)
        constructor <;> simp [hm, broadcast, transition, here, terminalStatuses]
  | setProposals ps gateId =>
    simp only [Registry.call, setProposals]
    split <;> constructor <;> simp_all [broadcast, transition, target, terminalStatuses]
  | setResult res =>
    simp only [Registry.call, setResult]
    split <;> constructor <;> simp_all [broadcast, target]
  | setPrUrl prUrl =>
    simp only [Registry.call, setPrUrl]
    split <;> constructor <;> simp_all [broadcast, transition, target, terminalStatuses]
  | patchDraft rows =>
    simp only [Registry.call, patchDraft]
    split <;> constructor <;> simp_all [broadcast, target]

/-- The messages a call broadcasts, in order. -/
def messages : Call → List Message
  | .transition status error errorCode =>
    if r.registered then [.statusChanged status r.op.status error errorCode none] else []
  | .setOperationBudget budgetSeconds =>
    if ¬ r.registered ∨ budgetSeconds ≤ 0 then []
    else [.statusChanged r.op.status r.op.status none none (some budgetSeconds)]
  | .addProgress entry => if r.registered then [.progress entry] else []
  | .setFindings findings =>
    if ¬ r.registered ∨ r.op.status ∉ findingsAllowedStatuses then []
    else [.statusChanged .assessed r.op.status none none none, .findings findings]
  | .setAiTriage candidates =>
    if ¬ r.registered ∨ r.op.status ∉ aiTriageAllowedStatuses then []
    else if r.op.status = .applying ∧ r.op.aiTriageCandidates.isSome ∧
        r.op.escalateAiFuture.all id then []
    else [.statusChanged .awaitingAiTriage r.op.status none none none, .aiTriage candidates]
  | .setProposals proposals gateId =>
    if r.registered then
      [.statusChanged .awaitingApproval r.op.status none none none, .proposals proposals (some gateId)]
    else []
  | .setResult result => if r.registered then [.result result] else []
  | .setPrUrl prUrl =>
    if r.registered then [.statusChanged .prSubmitted r.op.status none none none, .prCreated prUrl]
    else []
  | .patchDraft rows => if r.registered then [.proposalUpdated rows] else []

theorem call_subscribers (call : Call) :
    (r.call call).subscribers = r.subscribers.map (·.offerAll (r.messages call)) := by
  cases call <;> simp only [Registry.call, transition, setOperationBudget, addProgress, setFindings,
    setAiTriage, setProposals, setResult, setPrUrl, patchDraft, messages, broadcast,
    Subscriber.offerAll]
  case setAiTriage cands =>
    split
    · simp
    · split <;> simp_all [Function.comp_def]
  all_goals split <;> simp_all [Function.comp_def]

theorem status_mem_messages {call : Call} {status : OperationStatus}
    (ha : r.target call = some status) : ∃ msg ∈ r.messages call, msg.status = some status := by
  cases call <;> simp only [target] at ha
  case setAiTriage cands =>
    split at ha
    · cases ha
    · split at ha
      · cases ha
      · cases ha
        simp_all [messages, Message.status]
  all_goals try split at ha
  all_goals cases ha
  all_goals simp_all [messages, Message.status]

theorem target_of_removed (hg : r.registered = false) (call : Call) : r.target call = none := by
  cases call <;> simp [target, hg]

end Registry

end Apme.Gateway
