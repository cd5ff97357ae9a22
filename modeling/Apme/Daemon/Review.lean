import Apme.Graph.Frame
import Apme.Lib.Verdicts
import Apme.Remediation.Loop
import Apme.Remediation.Splice

/-!
# Applying the reviewer's decisions

The proposals of a session are gone through in the order of their ids.  An
approved one approves everything pending on its node, any other one rejects
everything pending on its node.  Then nodes without an approved proposal lose
what is still pending, and the ledger entries of AI proposals are promoted on
the nodes with an approved proposal and declined on all others.
-/

set_option autoImplicit false

namespace Apme.Daemon

open Apme.Lib Apme.Graph Apme.Remediation

structure Proposal where
  id : String
  file : String := ""
  ruleId : String := ""
  lineStart : Nat := 0
  lineEnd : Nat := 0
  beforeText : Text := []
  afterText : Text := []
  explanation : String := ""
  tier : Nat := 2
  source : Source := .ai
  path : String := ""
  nodeType : Option NodeType := none
  deriving DecidableEq

/-- The part of a session that reviews read and write. -/
structure Session where
  proposals : Dict String Proposal := Dict.empty
  aiProposals : List AINodeProposal := []
  tier1Proposals : List Tier1NodeProposal := []
  approvedIds : List String := []
  approvedProposals : List (String × Proposal) := []
  rejectedProposals : Dict String Proposal := Dict.empty

/-- A number with at least four digits. -/
def fourDigits (number : Nat) : String :=
  let digits := (toString number).toList
  String.ofList (List.replicate (4 - digits.length) '0' ++ digits)

variable (session : Session)

/-- Node ids of proposals that have no path, by the ids that are given out. -/
def proposalNodeMap : Dict String String :=
  Dict.ofList
    ((session.aiProposals.zipIdx.map fun entry => ("ai-" ++ fourDigits entry.2, entry.1.nodeId)) ++
      session.tier1Proposals.zipIdx.flatMap fun entry =>
        [("t1-" ++ fourDigits entry.2, entry.1.nodeId),
          ("g2-t1-" ++ fourDigits entry.2, entry.1.nodeId)])

variable (proposalId : String) (proposal : Proposal)

def proposalNode : Option String :=
  let path := stripString proposal.path
  if path ≠ "" then some path
  else ((proposalNodeMap session).get? proposalId).filter fun nodeId => nodeId ≠ ""

/-- The state of the review loop. -/
structure Reviewing where
  graph : ContentGraph
  session : Session
  applied : Nat := 0
  approvedNodeIds : List String := []
  rejectedNodeIds : List String := []

def Session.drop : Dict String Proposal := session.proposals.filterKeys fun key => key ≠ proposalId

def recordApproved : Session :=
  { session with
    approvedProposals := session.approvedProposals ++ [(proposalId, proposal)]
    approvedIds := session.approvedIds.insert proposalId
    proposals := session.drop proposalId }

def recordRejected : Session :=
  { session with
    rejectedProposals :=
      if (session.rejectedProposals.get? proposalId).isSome then session.rejectedProposals
      else session.rejectedProposals.insert proposalId proposal
    proposals := session.drop proposalId }

/-- One proposal; `nodeOf` is fixed before the loop. -/
def reviewProposal (nodeOf : String → Proposal → Option String) (approvedIds : List String)
    (state : Reviewing) (entry : String × Proposal) : Reviewing :=
  match nodeOf entry.1 entry.2 with
  | none => state
  | some nodeId =>
    if entry.1 ∈ approvedIds then
      { graph := state.graph.approveNode nodeId
        session := recordApproved state.session entry.1 entry.2
        applied := state.applied + 1
        approvedNodeIds := state.approvedNodeIds.insert nodeId
        rejectedNodeIds := state.rejectedNodeIds }
    else
      { graph := state.graph.rejectNode nodeId
        session := recordRejected state.session entry.1 entry.2
        applied := state.applied
        approvedNodeIds := state.approvedNodeIds
        rejectedNodeIds := state.rejectedNodeIds.insert nodeId }

/-- Transforms of the AI or of Tier 1 that nobody approved. -/
def hasUnapproved (node : ContentNode) : Bool :=
  node.progression.any fun entry =>
    !entry.approved && (entry.source = .ai || entry.source = .deterministic)

def revertNode (state : Reviewing) (nodeId : String) : Reviewing :=
  match state.graph.getNode nodeId with
  | none => state
  | some node =>
    if nodeId ∉ state.approvedNodeIds ∧ hasUnapproved node then
      { state with
        graph := state.graph.rejectNode nodeId
        rejectedNodeIds := state.rejectedNodeIds.insert nodeId }
    else state

variable (g : ContentGraph) (approvedIds : List String)

/-- `_apply_graph_approvals`, up to the splice of the resulting graph. -/
def applyGraphApprovals : Reviewing :=
  let reviewed := session.proposals.entries.foldl
    (reviewProposal (proposalNode session) approvedIds) { graph := g, session }
  reviewed.graph.nodes.keys.foldl revertNode reviewed

variable (approvedNodeIds : List String)

def reconcileNode (g : ContentGraph) (nodeId : String) : ContentGraph :=
  if nodeId ∈ approvedNodeIds then g.approveProposed nodeId else g.declineProposed nodeId

/-- The ledger part of `_reconcile_after_approval`. -/
def reconcileAfterApproval : ContentGraph := g.nodes.keys.foldl (reconcileNode approvedNodeIds) g

/-- Both steps of the review of a session's proposals. -/
def reviewSession : ContentGraph :=
  let reviewed := applyGraphApprovals session g approvedIds
  reconcileAfterApproval reviewed.graph reviewed.approvedNodeIds

end Apme.Daemon
