import Apme.Graph.Basic

/-!
# The violation ledger

Every node keeps one record per normalized rule id.  Scans register violations
(a resolved one that reappears is opened again, a declined or abstained one
keeps its status), rescans resolve open records whose rule is no longer
reported, and reviews move records between statuses.  No operation removes a
record.
-/

set_option autoImplicit false

namespace Apme.Graph

open Apme.Lib ContentNode

namespace ViolationRecord

/-- A scan reports the violation of an existing record again. -/
def reconfirm (v : Violation) (record : ViolationRecord) : ViolationRecord :=
  match record.status with
  | .aiAbstained => { record with violation := v }
  | .declined => { record with violation := v }
  | .fixed | .pendingReview | .proposed =>
    { record with status := .opened, violation := v, fixedBy := none, fixedInPass := none }
  | .opened => { record with violation := v }

/-- A rescan of the node leaves the rule out of what it reports. -/
def resolve (fixedBy : FixedBy) (passNumber : Nat) (status : Status)
    (record : ViolationRecord) : ViolationRecord :=
  { record with status, fixedBy := some fixedBy, fixedInPass := some passNumber }

def abstain (reason : Option (String × String)) (record : ViolationRecord) : ViolationRecord :=
  match reason with
  | none => { record with status := .aiAbstained }
  | some pair =>
    { record with status := .aiAbstained, aiReason := some pair.1, aiSuggestion := some pair.2 }

def moveTo (status : Status) (clearAttribution : Bool) (record : ViolationRecord) :
    ViolationRecord :=
  if clearAttribution then { record with status, fixedBy := none, fixedInPass := none }
  else { record with status }

/-- The violation as a query returns it, with the AI's reason when there is one. -/
def report (record : ViolationRecord) : Violation :=
  let reason := record.aiReason.getD ""
  let suggestion := record.aiSuggestion.getD ""
  { record.violation with
    aiReason := if reason = "" then record.violation.aiReason else reason
    aiSuggestion := if suggestion = "" then record.violation.aiSuggestion else suggestion }

end ViolationRecord

namespace ContentNode

def register (v : Violation) (passNumber : Nat) (node : ContentNode) : ContentNode :=
  let key := violationKey v
  let record : ViolationRecord :=
    match node.violationLedger.get? key with
    | none => { violation := v, status := .opened, discoveredInPass := passNumber }
    | some existing => existing.reconfirm v
  { node with violationLedger := node.violationLedger.insert key record }

def updateLedger (f : ViolationKey → ViolationRecord → ViolationRecord) (node : ContentNode) :
    ContentNode :=
  { node with violationLedger := node.violationLedger.update f }

end ContentNode

namespace ContentGraph

def registerViolation (passNumber : Nat) (g : ContentGraph) (v : Violation) : ContentGraph :=
  g.modifyNode v.path (register v passNumber)

variable (g : ContentGraph) (violations : List Violation)

def registerViolations (passNumber : Nat) : ContentGraph :=
  violations.foldl (registerViolation passNumber) g

variable (nodeId : String)

def resolveViolations (remaining : List String)
    (fixedBy : FixedBy) (passNumber : Nat) (status : Status) : ContentGraph :=
  g.modifyNode nodeId <| updateLedger fun key record =>
    if record.status = .opened ∧ key.2 ∉ remaining then record.resolve fixedBy passNumber status
    else record

/-- `reasons` maps normalized rule ids to a reason and a suggestion. -/
def abstainViolations (ruleIds : List String) (reasons : Dict String (String × String)) : ContentGraph :=
  g.modifyNode nodeId <| updateLedger fun key record =>
    if record.status = .opened ∧ key.2 ∈ ruleIds then record.abstain (reasons.get? key.2)
    else record

def transitionViolations (fromStatus toStatus : Status) (clearAttribution : Bool) : ContentGraph :=
  g.modifyNode nodeId <| updateLedger fun _ record =>
    if record.status = fromStatus then record.moveTo toStatus clearAttribution else record

def approvePendingReview : ContentGraph := g.transitionViolations nodeId .pendingReview .fixed false

def declinePendingReview : ContentGraph :=
  g.transitionViolations nodeId .pendingReview .declined true

def approveProposed : ContentGraph := g.transitionViolations nodeId .proposed .fixed false

def declineProposed : ContentGraph := g.transitionViolations nodeId .proposed .declined true

def declineOpenViolation (v : Violation) : ContentGraph :=
  g.modifyNode v.path <| updateLedger fun key record =>
    if key = violationKey v ∧ record.status = .opened then record.moveTo .declined true else record

def declineOpenViolations : ContentGraph := violations.foldl declineOpenViolation g

def queryRecords (status : Status) : List ViolationRecord :=
  g.nodes.values.flatMap fun node =>
    node.violationLedger.values.filter fun record => record.status = status

/-- `query_violations(status=...)`. -/
def queryViolations (status : Status) : List Violation :=
  (g.queryRecords status).map ViolationRecord.report

def collectViolations : List Violation := g.queryViolations .opened

end ContentGraph

end Apme.Graph
