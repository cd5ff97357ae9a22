import Apme.Daemon.Review
import Apme.Graph.Settling

/-!
# Do content and ledger agree after a review?

A review acts on every node by itself, through the verdicts on its proposals.
The laws of `Settling` hold of approving and rejecting a node, so only a node
with verdicts of both kinds can depend on their order; the theorem of this file
says exactly when it does.
-/

set_option autoImplicit false

namespace Apme.Daemon

open Apme.Lib Apme.Graph Apme.Remediation List Option ContentNode ViolationRecord

/-- The verdicts on the proposals of a node, in the order of the proposals. -/
def verdicts (nodeOf : String → Proposal → Option String) (approvedIds : List String)
    (proposals : List (String × Proposal)) (nodeId : String) : List Bool :=
  proposals.filterMap fun entry =>
    if nodeOf entry.1 entry.2 = some nodeId then some (decide (entry.1 ∈ approvedIds)) else none

variable (session : Session) (approvedIds : List String)

def verdictsOn (nodeId : String) : List Bool :=
  verdicts (proposalNode session) approvedIds session.proposals.entries nodeId

/-- A pending transform on a node without an approved proposal is rejected. -/
def revertAct (approved : Bool) (node : ContentNode) : ContentNode :=
  if !approved ∧ hasUnapproved node then node.reject else node

def reconcileAct (approved : Bool) (node : ContentNode) : ContentNode :=
  if approved then node.promote else node.transition .proposed .declined true

/-- What a review does to a node with the given verdicts on its proposals. -/
def reviewedNode (verdicts : List Bool) (node : ContentNode) : ContentNode :=
  reconcileAct (true ∈ verdicts) (revertAct (true ∈ verdicts) (settle approve reject verdicts node))

theorem proposalNode_ne_empty {ses : Session} {proposalId id : String} {prop : Proposal}
    (hn : proposalNode ses proposalId prop = some id) : id ≠ "" := by
  unfold proposalNode at hn
  dsimp only at hn
  split at hn
  next here => rwa [some.inj hn] at here
  next =>
    have hk := (filter_eq_some_iff.mp hn).2
    simpa using hk

variable (nodeOf : String → Proposal → Option String)

theorem verdicts_cons (ids : List String)
    (e : String × Proposal) (rest : List (String × Proposal)) (id : String) :
    verdicts nodeOf ids (e :: rest) id =
      if nodeOf e.1 e.2 = some id then
        decide (e.1 ∈ ids) :: verdicts nodeOf ids rest id
      else verdicts nodeOf ids rest id := by
  rw [verdicts, filterMap_cons]
  by_cases here : nodeOf e.1 e.2 = some id
  · rw [if_pos here, if_pos here]
    rfl
  · rw [if_neg here, if_neg here]
    rfl

/-- The review loop settles the verdicts on every node and collects the nodes
with a positive one. -/
theorem reviewProposals (hn : ∀ proposalId prop id, nodeOf proposalId prop = some id → id ≠ "")
    (approvedIds : List String) (ps : List (String × Proposal)) (st : Reviewing) (id : String) :
    (ps.foldl (reviewProposal nodeOf approvedIds) st).graph.getNode id =
        (st.graph.getNode id).map (settle approve reject (verdicts nodeOf approvedIds ps id)) ∧
      (id ∈ (ps.foldl (reviewProposal nodeOf approvedIds) st).approvedNodeIds ↔
        id ∈ st.approvedNodeIds ∨ true ∈ verdicts nodeOf approvedIds ps id) := by
  induction ps generalizing st with
  | nil =>
    refine ⟨?_, by simp [verdicts]⟩
    exact (congrFun Option.map_id (st.graph.getNode id)).symm
  | cons e rest ih =>
    obtain ⟨hg, ids⟩ := ih (reviewProposal nodeOf approvedIds st e)
    rw [foldl_cons, hg, ids, verdicts_cons]
    cases ht : nodeOf e.1 e.2 with
    | none => simp [reviewProposal, ht]
    | some o =>
      by_cases here : id = o
      · subst here
        rw [if_pos rfl]
        by_cases ha : e.1 ∈ approvedIds
        · have acts := actsOn_approveNode id (hn _ _ _ ht) st.graph id
          rw [if_pos rfl] at acts
          simp only [reviewProposal, ht, ha, if_true, acts, Option.map_map]
          exact ⟨rfl, by simp⟩
        · have acts := actsOn_rejectNode id st.graph id
          rw [if_pos rfl] at acts
          simp only [reviewProposal, ht, ha, if_false, acts, Option.map_map]
          exact ⟨rfl, by simp⟩
      · have away : ¬ some o = some id := fun hs => here (Option.some.inj hs).symm
        rw [if_neg away]
        by_cases ha : e.1 ∈ approvedIds
        · have acts := actsOn_approveNode o (hn _ _ _ ht) st.graph id
          rw [if_neg here] at acts
          simp only [reviewProposal, ht, ha, if_true, acts]
          exact ⟨trivial, by simp [here]⟩
        · have acts := actsOn_rejectNode o st.graph id
          rw [if_neg here] at acts
          simp only [reviewProposal, ht, ha, if_false, acts]
          exact ⟨trivial, trivial⟩

theorem revertNode_approvedNodeIds (st : Reviewing) (id : String) :
    (revertNode st id).approvedNodeIds = st.approvedNodeIds := by
  unfold revertNode
  split
  · rfl
  · split <;> rfl

theorem revertNode_getNode (st : Reviewing) (id other : String) :
    (revertNode st id).graph.getNode other =
      if other = id then
        (st.graph.getNode id).map (revertAct (id ∈ st.approvedNodeIds))
      else st.graph.getNode other := by
  unfold revertNode
  cases hf : st.graph.getNode id with
  | none =>
    by_cases here : other = id
    · rw [if_pos here, here]
      exact hf
    · rw [if_neg here]
  | some node =>
    by_cases hr : id ∉ st.approvedNodeIds ∧ hasUnapproved node
    · have ha := actsOn_rejectNode id st.graph other
      simp only [if_pos hr]
      rw [ha, hf]
      simp [revertAct, hr]
    · simp only [if_neg hr]
      have hs : revertAct (decide (id ∈ st.approvedNodeIds)) node = node := by
        unfold revertAct
        rw [if_neg (by simpa using hr)]
      split
      next he => rw [he, hf, map_some, hs]
      next => rfl

theorem revertNodes {keys : List String} (hn : keys.Nodup) (st : Reviewing) (id : String) :
    (keys.foldl revertNode st).approvedNodeIds = st.approvedNodeIds ∧
      (keys.foldl revertNode st).graph.getNode id =
        if id ∈ keys then
          (st.graph.getNode id).map (revertAct (id ∈ st.approvedNodeIds))
        else st.graph.getNode id := by
  induction keys generalizing st with
  | nil => exact ⟨rfl, rfl⟩
  | cons first rest ih =>
    obtain ⟨ha, hd⟩ := nodup_cons.mp hn
    obtain ⟨ids, hg⟩ := ih hd (revertNode st first)
    rw [foldl_cons, ids, hg, revertNode_approvedNodeIds, revertNode_getNode]
    refine ⟨rfl, ?_⟩
    by_cases here : id = first
    · subst here
      simp [ha]
    · simp [here]

theorem reconcileNode_actsOn (approvedNodeIds : List String) (id : String) :
    ActsOn id (reconcileAct (id ∈ approvedNodeIds)) fun g =>
      reconcileNode approvedNodeIds g id := by
  intro g o
  unfold reconcileNode reconcileAct
  by_cases ha : id ∈ approvedNodeIds
  · simp only [ha, if_true, decide_true]
    exact actsOn_transition id .proposed .fixed false g o
  · simp only [ha, if_false, decide_false, Bool.false_eq_true]
    exact actsOn_transition id .proposed .declined true g o

theorem reconcileNodes (g : ContentGraph) (approvedNodeIds : List String) (id : String) :
    (reconcileAfterApproval g approvedNodeIds).getNode id =
      (g.getNode id).map (reconcileAct (id ∈ approvedNodeIds)) := by
  rw [reconcileAfterApproval, getNode_foldl_actsOn (reconcileNode_actsOn approvedNodeIds)]
  cases hf : g.getNode id with
  | none => rfl
  | some n =>
    have here : id ∈ g.nodes.keys := (Dict.mem_keys_iff _ _).mpr ⟨n, hf⟩
    have ho : (g.nodes.keys.filter fun k => k = id) = [id] := by
      rw [filter_eq, count_eq_one_of_mem g.nodes.nodup_keys here]
      rfl
    rw [ho]
    rfl

theorem reviewSession_getNode (g : ContentGraph) (approvedIds : List String) (id : String) :
    (reviewSession session g approvedIds).getNode id =
      (g.getNode id).map (reviewedNode (verdictsOn session approvedIds id)) := by
  obtain ⟨hg, ids⟩ := reviewProposals (proposalNode session)
    (fun _ _ _ => proposalNode_ne_empty) approvedIds session.proposals.entries
    { graph := g, session } id
  have hap : id ∈ (session.proposals.entries.foldl
      (reviewProposal (proposalNode session) approvedIds) { graph := g, session }).approvedNodeIds ↔
      true ∈ verdictsOn session approvedIds id := by
    rw [ids]
    exact or_iff_right not_mem_nil
  set reviewed := session.proposals.entries.foldl
    (reviewProposal (proposalNode session) approvedIds) { graph := g, session }
  obtain ⟨hi, hr⟩ := revertNodes
    reviewed.graph.nodes.nodup_keys reviewed id
  have hk : (applyGraphApprovals session g approvedIds).approvedNodeIds =
      reviewed.approvedNodeIds := hi
  have hc : (applyGraphApprovals session g approvedIds).graph.getNode id =
      (reviewed.graph.getNode id).map (revertAct (true ∈ verdictsOn session approvedIds id)) := by
    refine hr.trans ?_
    rw [decide_eq_decide.mpr hap]
    split
    · rfl
    next ha =>
      have none : reviewed.graph.getNode id = none := (Dict.get?_eq_none_iff _ _).mpr ha
      rw [none]
      rfl
  rw [reviewSession, reconcileNodes, hk, hc, hg, decide_eq_decide.mpr hap,
    Option.map_map, Option.map_map]
  rfl

/-- The ledger entry was an AI proposal before the review and is fixed after it. -/
def WentFixed (before after : ContentNode) (key : ViolationKey) : Prop :=
  (before.violationLedger.get? key).map status = some .proposed ∧
    (after.violationLedger.get? key).map status = some .fixed

/-- The snapshot is in the progression, approved or not. -/
def InProgression (entry : NodeState) (node : ContentNode) : Prop :=
  ∃ kept ∈ node.progression, { kept with approved := entry.approved } = entry

/-- Content and ledger tell the same about the AI snapshots of a node. -/
structure Agrees (before after : ContentNode) : Prop where
  promoted : ∀ key, WentFixed before after key → ∀ entry ∈ before.progression,
    entry.source = .ai → { entry with approved := true } ∈ after.progression
  rolledBack : (∃ entry ∈ before.progression, entry.source = .ai ∧ ¬ InProgression entry after) →
    ∀ key, ¬ WentFixed before after key

theorem mem_verdicts {nodeOf : String → Proposal → Option String} {ids : List String}
    {ps : List (String × Proposal)} {id : String} {vd : Bool} :
    vd ∈ verdicts nodeOf ids ps id ↔
      ∃ e ∈ ps, nodeOf e.1 e.2 = some id ∧ decide (e.1 ∈ ids) = vd := by
  rw [verdicts, mem_filterMap]
  refine exists_congr fun e => and_congr_right fun _ => ?_
  split
  next here => simp [here]
  next ha => simp [ha]

theorem agrees_approve (before : ContentNode) : Agrees before before.approve.promote := by
  have hk : ∀ e ∈ before.progression,
      { e with approved := true } ∈ before.approve.promote.progression :=
    fun e hm => mem_map_of_mem (f := NodeState.approveIf none) hm
  constructor
  · intro k _ e hm _
    exact hk e hm
  · rintro ⟨e, hm, -, hg⟩
    exact absurd ⟨_, hk e hm, rfl⟩ hg

theorem reject_keeps_proposed {n : ContentNode} {k : ViolationKey}
    (hp : (n.violationLedger.get? k).map status = some .proposed) :
    (n.reject.violationLedger.get? k).map status = some .proposed := by
  obtain ⟨r, hf, st⟩ := map_eq_some_iff.mp hp
  rw [reject, violationLedger_rollback, get?_transition, hf]
  simp [st]

theorem settle_keeps_proposed {verdicts : List Bool} (hn : true ∉ verdicts)
    {n : ContentNode} {k : ViolationKey}
    (hp : (n.violationLedger.get? k).map status = some .proposed) :
    ((settle approve reject verdicts n).violationLedger.get? k).map status = some .proposed := by
  cases verdicts with
  | nil => exact hp
  | cons vd rest =>
    cases vd with
    | true => exact absurd mem_cons_self hn
    | false =>
      rw [settling.settle_of_first_negative,
        if_neg fun hl => hn (mem_cons_of_mem false hl)]
      exact reject_keeps_proposed hp

theorem agrees_of_negative (verdicts : List Bool) (hn : true ∉ verdicts)
    (before : ContentNode) : Agrees before (reviewedNode verdicts before) := by
  have hne : ∀ key, ¬ WentFixed before (reviewedNode verdicts before) key := by
    rintro key ⟨hp, hfi⟩
    have hs := settle_keeps_proposed hn hp
    have hr : ((revertAct (decide (true ∈ verdicts)) (settle approve
        reject verdicts before)).violationLedger.get? key).map status =
        some .proposed := by
      unfold revertAct
      split
      · exact reject_keeps_proposed hs
      · exact hs
    obtain ⟨r, hf, st⟩ := map_eq_some_iff.mp hr
    rw [reviewedNode, reconcileAct, if_neg (by simp [hn]), get?_transition,
      hf] at hfi
    simp [st, moveTo] at hfi
  exact ⟨fun key hwf => absurd hwf (hne key), fun _ => hne⟩

section

variable {verdicts : List Bool} (positive : true ∈ verdicts) (before : ContentNode)

include positive

theorem reviewedNode_of_positive :
    reviewedNode verdicts before = (settle approve reject verdicts before).promote := by
  simp [reviewedNode, reconcileAct, revertAct, positive]

/-- With a positive verdict, and a negative one only on an undisturbed node,
the node is simply approved. -/
theorem reviewedNode_eq_approve (hu : false ∈ verdicts → before.Undisturbed) :
    reviewedNode verdicts before = before.approve.promote := by
  rw [reviewedNode_of_positive positive]
  by_cases hm : false ∈ verdicts
  · exact settling.settle_of_mem
      ((promote_approve_eq_iff before).mpr (hu hm)) positive
  · cases verdicts with
    | nil => cases positive
    | cons vd rest =>
      cases vd with
      | true => rw [settling.settle_of_first]
      | false => exact absurd mem_cons_self hm

end

/-- The session with its proposals in another order. -/
def Session.reorder (proposals : Dict String Proposal) : Session := { session with proposals }

/-- One proposal of the node is approved, another one is not. -/
def Contested (nodeId : String) : Prop :=
  (∃ entry ∈ session.proposals.entries, proposalNode session entry.1 entry.2 = some nodeId ∧
      entry.1 ∈ approvedIds) ∧
    ∃ entry ∈ session.proposals.entries, proposalNode session entry.1 entry.2 = some nodeId ∧
      entry.1 ∉ approvedIds

variable (ses : Session)

theorem contested_iff (ids : List String) (id : String) : Contested ses ids id ↔
      true ∈ verdictsOn ses ids id ∧ false ∈ verdictsOn ses ids id := by
  simp only [verdictsOn, mem_verdicts, decide_eq_true_eq, decide_eq_false_iff_not]
  exact Iff.rfl

theorem exists_first {d : Dict String Proposal} {e : String × Proposal}
    (mem : e ∈ d.entries) :
    ∃ moved : Dict String Proposal, moved.entries = e :: d.entries.erase e ∧
      moved.entries.Perm d.entries := by
  have hp := (perm_cons_erase mem).symm
  exact ⟨⟨e :: d.entries.erase e, (hp.map Prod.fst).nodup_iff.mpr d.nodup⟩, rfl, hp⟩

theorem verdictsOn_perm (ids : List String) (id : String)
    {reordered : Dict String Proposal} (hp : reordered.entries.Perm ses.proposals.entries) :
    (verdictsOn (ses.reorder reordered) ids id).Perm (verdictsOn ses ids id) :=
  hp.filterMap _

theorem eq_of_perm_of_negative {verdicts o : List Bool} (hn : true ∉ verdicts)
    (hp : o.Perm verdicts) : o = verdicts := by
  have hu : verdicts = List.replicate verdicts.length false :=
    eq_replicate_of_mem fun vd mem => by
      cases vd with
      | true => exact absurd mem hn
      | false => rfl
  rw [hu] at hp
  rw [perm_replicate.mp hp, ← hu]

theorem undisturbed_of_orderFree (g : ContentGraph)
    {ids : List String} {id : String} {before : ContentNode}
    (hf : g.getNode id = some before)
    (hof : ∀ reordered : Dict String Proposal,
      reordered.entries.Perm ses.proposals.entries →
        (reviewSession (ses.reorder reordered) g ids).getNode id =
          (reviewSession ses g ids).getNode id)
    (hc : Contested ses ids id) : before.Undisturbed := by
  obtain ⟨⟨yes, hi, hh, ha⟩, no, hni, hnh, hd⟩ := hc
  have hs : ∀ entry ∈ ses.proposals.entries,
      proposalNode ses entry.1 entry.2 = some id →
        (reviewSession ses g ids).getNode id =
          some (reviewedNode (decide (entry.1 ∈ ids) :: verdicts (proposalNode ses)
            ids (ses.proposals.entries.erase entry) id) before) := by
    intro entry mem here
    obtain ⟨moved, he, hp⟩ := exists_first mem
    rw [← hof moved hp, reviewSession_getNode, hf, map_some, verdictsOn]
    have first : verdicts (proposalNode (ses.reorder moved)) ids
        (ses.reorder moved).proposals.entries id =
        decide (entry.1 ∈ ids) :: verdicts (proposalNode ses) ids
          (ses.proposals.entries.erase entry) id := by
      have reordered : (ses.reorder moved).proposals.entries =
          entry :: ses.proposals.entries.erase entry := he
      rw [reordered, verdicts_cons]
      exact if_pos here
    rw [first]
  have hy := hs yes hi hh
  have hn := hs no hni hnh
  have hl : true ∈ verdicts (proposalNode ses) ids (ses.proposals.entries.erase no) id := by
    refine mem_verdicts.mpr ⟨yes, ?_, hh, decide_eq_true ha⟩
    refine (mem_erase_of_ne ?_).mpr hi
    rintro rfl
    exact hd ha
  rw [hy, decide_eq_true ha, decide_eq_false hd, some.injEq,
    reviewedNode_of_positive mem_cons_self,
    reviewedNode_of_positive (mem_cons_of_mem false hl),
    settling.settle_of_first, settling.settle_of_first_negative,
    if_pos hl] at hn
  exact (promote_approve_eq_iff before).mp hn

/-- For every session, graph and set of approved ids: content and ledger agree
on every node, whatever the order of the proposals, exactly when nothing is
pending on a node of which one proposal is approved and another is not. -/
theorem review_agrees_iff (session : Session) (g : ContentGraph) (approvedIds : List String) :
    (∀ nodeId before, g.getNode nodeId = some before →
      (∃ after, (reviewSession session g approvedIds).getNode nodeId = some after ∧
        Agrees before after) ∧
      ∀ reordered : Dict String Proposal, reordered.entries.Perm session.proposals.entries →
        (reviewSession (session.reorder reordered) g approvedIds).getNode nodeId =
          (reviewSession session g approvedIds).getNode nodeId) ↔
      ∀ nodeId before, g.getNode nodeId = some before → Contested session approvedIds nodeId →
        before.Undisturbed := by
  constructor
  · intro holds nodeId before found contested
    exact undisturbed_of_orderFree session g found (holds nodeId before found).2 contested
  · intro undisturbed nodeId before found
    have quiet : true ∈ verdictsOn session approvedIds nodeId →
        false ∈ verdictsOn session approvedIds nodeId → before.Undisturbed :=
      fun positive negative => undisturbed nodeId before found
        ((contested_iff session approvedIds nodeId).mpr ⟨positive, negative⟩)
    by_cases positive : true ∈ verdictsOn session approvedIds nodeId
    · have approved := reviewedNode_eq_approve positive before (quiet positive)
      refine ⟨⟨before.approve.promote, ?_, agrees_approve before⟩, fun reordered perm => ?_⟩
      · rw [reviewSession_getNode, found, map_some, approved]
      · have samePerm := verdictsOn_perm session approvedIds nodeId perm
        rw [reviewSession_getNode, reviewSession_getNode, found, map_some, map_some,
          approved, reviewedNode_eq_approve (samePerm.mem_iff.mpr positive) before fun negative =>
            quiet positive (samePerm.mem_iff.mp negative)]
    · refine ⟨⟨_, ?_, agrees_of_negative _ positive before⟩, fun reordered perm => ?_⟩
      · rw [reviewSession_getNode, found, map_some]
      · rw [reviewSession_getNode, reviewSession_getNode, eq_of_perm_of_negative positive
          (verdictsOn_perm session approvedIds nodeId perm)]

def aiSnapshot (id text : String) : NodeState :=
  { id, passNumber := 1, phase := .transformed, yamlLines := text.toList, source := .ai }

/-- Two AI attempts on one task are pending, with one finding proposed as solved. -/
def twiceAttempted : ContentNode :=
  { nodeType := .task, filePath := "site.yml", lineStart := 1, lineEnd := 1
    yamlLines := "- command: ls -l\n".toList
    progression :=
      [{ id := "task@0", passNumber := 0, phase := .scanned, yamlLines := "- shell: ls\n".toList
         approved := true },
       aiSnapshot "task@1" "- command: ls\n", aiSnapshot "task@2" "- command: ls -l\n"]
    violationLedger := Dict.ofList
      [(("task", "L030"),
        { violation := { ruleId := "L030", path := "task" }, status := .proposed
          fixedBy := some .ai, fixedInPass := some 1 })] }

def twiceAttemptedGraph : ContentGraph := { nodes := Dict.ofList [("task", twiceAttempted)] }

def firstAttempt : String × Proposal :=
  ("ai-0000", { id := "ai-0000", ruleId := "L030", path := "task" })

def secondAttempt : String × Proposal :=
  ("ai-0001", { id := "ai-0001", ruleId := "L030", path := "task" })

def twoAttempts : Session := { proposals := Dict.ofList [firstAttempt, secondAttempt] }

/-- The first proposal is declined and the second approved: the node is back at
its old text while its finding counts as fixed.  With the proposals in the other
order the node keeps the AI's text. -/
theorem twoAttempts_disagree :
    ∃ after,
      (reviewSession twoAttempts twiceAttemptedGraph ["ai-0001"]).getNode "task" = some after ∧
      after.yamlLines = "- shell: ls\n".toList ∧
      (after.violationLedger.get? ("task", "L030")).map status = some .fixed ∧
      ¬ Agrees twiceAttempted after ∧
      ((reviewSession (twoAttempts.reorder (Dict.ofList [secondAttempt, firstAttempt]))
        twiceAttemptedGraph ["ai-0001"]).getNode "task").map yamlLines =
          some "- command: ls -l\n".toList := by
  refine ⟨_, rfl, rfl, rfl, fun agrees => ?_, rfl⟩
  have kept := agrees.promoted ("task", "L030") ⟨rfl, rfl⟩ (aiSnapshot "task@1" "- command: ls\n")
    (by decide) rfl
  exact absurd kept (by decide)

end Apme.Daemon
