import Apme.Daemon.Agreement
import Apme.Graph.Lifecycle

/-!
# Accounting after a review

`_session_apply_approved` applies the reviewer's decisions and rebuilds the
report of the session from the ledger.  Rows of the report say which ledger
entry they are made from.  Of the session this is the part that proposals, the
ledger and the report need; its status flags are left out.
-/

set_option autoImplicit false

namespace Apme.Daemon

open Apme.Lib Apme.Graph Apme.Remediation List ContentNode ViolationRecord Dict

/-- Findings about dependencies have no ledger entry. -/
structure ReportRow where
  entry : Option (String × ViolationKey)
  violation : Violation
  deriving DecidableEq

structure ReviewReport where
  fixedViolations : List ReportRow := []
  remainingViolations : List ReportRow := []

/-- `query_violations(status=...)`, with the entries. -/
def ledgerRows (g : ContentGraph) (status : Status) : List ReportRow :=
  g.nodes.entries.flatMap fun node =>
    (node.2.violationLedger.entries.filter fun row => row.2.status = status).map fun row =>
      { entry := some (node.1, row.1), violation := row.2.report }

variable (aiCandidate : Violation → Bool)

/-- The report that `_reconcile_after_approval` makes.  Everything left in the
ledger is for manual review; of the findings about dependencies those for the AI
come first. -/
def reconciledReport (depHealth : List Violation) (g : ContentGraph) : ReviewReport :=
  let row := fun v => ({ entry := none, violation := v } : ReportRow)
  { fixedViolations := ledgerRows g .fixed
    remainingViolations :=
      (depHealth.filter aiCandidate).map row ++
        (ledgerRows g .opened ++ ledgerRows g .declined ++ ledgerRows g .aiAbstained) ++
        (depHealth.filter fun v => !aiCandidate v).map row }

def Lists (rows : List ReportRow) (nodeId : String) (key : ViolationKey) : Prop :=
  ∃ row ∈ rows, row.entry = some (nodeId, key)

theorem lists_ledgerRows (g : ContentGraph) (st : Status) (id : String) (k : ViolationKey) :
    Lists (ledgerRows g st) id k ↔ ∃ r, recordAt g id k = some r ∧ r.status = st := by
  unfold Lists ledgerRows recordAt
  constructor
  · intro hli
    obtain ⟨row, hm, hen⟩ := hli
    obtain ⟨⟨otherId, n⟩, hg, hn⟩ := mem_flatMap.mp hm
    obtain ⟨⟨otherKey, r⟩, hl, rfl⟩ := mem_map.mp hn
    obtain ⟨he, hs⟩ := mem_filter.mp hl
    obtain ⟨rfl, rfl⟩ := Prod.mk.inj (Option.some.inj hen)
    refine ⟨r, ?_, of_decide_eq_true hs⟩
    rw [ContentGraph.getNode, (get?_eq_some_iff _ _ _).mpr hg, Option.bind_some]
    exact (get?_eq_some_iff _ _ _).mpr he
  · intro hk
    obtain ⟨r, hf, hs⟩ := hk
    obtain ⟨n, hg, hl⟩ := Option.bind_eq_some_iff.mp hf
    refine ⟨{ entry := some (id, k), violation := r.report }, ?_, rfl⟩
    apply mem_flatMap.mpr
    refine ⟨(id, n), (get?_eq_some_iff _ _ _).mp hg, ?_⟩
    apply mem_map.mpr
    refine ⟨(k, r), ?_, rfl⟩
    apply mem_filter.mpr
    exact ⟨(get?_eq_some_iff _ _ _).mp hl, decide_eq_true hs⟩

theorem lists_append (first second : List ReportRow) (id : String) (key : ViolationKey) :
    Lists (first ++ second) id key ↔ Lists first id key ∨ Lists second id key := by
  simp only [Lists, mem_append, or_and_right, exists_or]

theorem not_lists_depHealth (vs : List Violation) (id : String) (key : ViolationKey) :
    ¬ Lists (vs.map fun v => { entry := none, violation := v }) id key := by
  intro hl
  obtain ⟨r, hm, he⟩ := hl
  obtain ⟨v, -, rfl⟩ := mem_map.mp hm
  cases he

theorem lists_reconciledReport (depHealth : List Violation)
    {g : ContentGraph} {id : String} {k : ViolationKey} {r : ViolationRecord}
    (hf : recordAt g id k = some r) :
    (Lists (reconciledReport aiCandidate depHealth g).fixedViolations id k ↔
        r.status = .fixed) ∧
      (Lists (reconciledReport aiCandidate depHealth g).remainingViolations id k ↔
        r.status = .opened ∨ r.status = .declined ∨ r.status = .aiAbstained) := by
  have hl : ∀ st, Lists (ledgerRows g st) id k ↔ r.status = st := by
    intro st
    rw [lists_ledgerRows]
    constructor
    · intro o
      obtain ⟨again, ha, hS⟩ := o
      rw [hf] at ha
      cases Option.some.inj ha
      exact hS
    · intro hS
      exact ⟨r, hf, hS⟩
  refine ⟨hl .fixed, ?_⟩
  unfold reconciledReport
  simp only [lists_append, hl, not_lists_depHealth, false_or, or_false, or_assoc]

def statusOf (node : ContentNode) (key : ViolationKey) : Option Status :=
  (node.violationLedger.get? key).map status

theorem statusOf_transition (fromStatus dst : Status) (clear : Bool) (n : ContentNode)
    (k : ViolationKey) :
    statusOf (n.transition fromStatus dst clear) k =
      (statusOf n k).map fun st => if st = fromStatus then dst else st := by
  unfold statusOf
  rw [get?_transition, Option.map_map, Option.map_map]
  congr 1
  funext record
  simp only [Function.comp_apply]
  split
  · exact moveTo_status dst clear record
  · rfl

theorem statusOf_approve (n : ContentNode) (k : ViolationKey) :
    statusOf n.approve k =
      (statusOf n k).map fun st => if st = .pendingReview then .fixed else st :=
  statusOf_transition .pendingReview .fixed false (n.approvePending none) k

theorem statusOf_reject (n : ContentNode) (k : ViolationKey) :
    statusOf n.reject k =
      (statusOf n k).map fun st =>
        if st = .pendingReview then .declined else st := by
  rw [← statusOf_transition .pendingReview .declined true n k, statusOf, statusOf,
    reject, violationLedger_rollback]

variable (verdicts : List Bool)

/-- The first verdict on a node decides what awaits review. -/
def settledStatus (status : Status) : Status :=
  if status = .pendingReview then
    match verdicts with
    | [] => .pendingReview
    | true :: _ => .fixed
    | false :: _ => .declined
  else status

variable (vds : List Bool)

theorem statusOf_settle (n : ContentNode) (k : ViolationKey) :
    statusOf (settle approve reject vds n) k = (statusOf n k).map (settledStatus vds) := by
  induction vds generalizing n with
  | nil =>
    have hs : settledStatus [] = id := by
      funext st
      cases st <;> rfl
    rw [hs, Option.map_id]
    rfl
  | cons vd rest ih =>
    rw [settle, foldl_cons, ← settle, ih]
    cases vd with
    | true =>
      rw [if_pos rfl, statusOf_approve, Option.map_map]
      congr 1
      funext st
      cases st <;> rfl
    | false =>
      rw [if_neg Bool.false_ne_true, statusOf_reject, Option.map_map]
      congr 1
      funext st
      cases st <;> rfl

/-- What a review makes of a status, on a node with the given verdicts. -/
def reviewedStatus (unapproved : Bool) : Status → Status
  | .pendingReview =>
    match verdicts with
    | [] => if unapproved then .declined else .pendingReview
    | true :: _ => .fixed
    | false :: _ => .declined
  | .proposed => if true ∈ verdicts then .fixed else .declined
  | status => status

theorem statusOf_reviewedNode (node : ContentNode) (k : ViolationKey) :
    statusOf (reviewedNode vds node) k =
      (statusOf node k).map (reviewedStatus vds (hasUnapproved node)) := by
  have hre : ∀ approved settled, statusOf (reconcileAct approved settled) k =
      (statusOf settled k).map fun st =>
        if st = .proposed then (if approved then .fixed else .declined) else st := by
    intro approved settled
    cases approved with
    | true => exact statusOf_transition .proposed .fixed false settled k
    | false => exact statusOf_transition .proposed .declined true settled k
  rw [reviewedNode, hre, revertAct]
  by_cases hr : (!decide (true ∈ vds)) ∧ hasUnapproved (settle approve reject vds node)
  · rw [if_pos hr, statusOf_reject, statusOf_settle, Option.map_map, Option.map_map]
    congr 1
    funext st
    cases vds with
    | nil =>
      have hu : hasUnapproved node := hr.2
      cases st <;> simp [settledStatus, reviewedStatus, hu]
    | cons vd rest =>
      cases vd <;> cases st <;> simp [settledStatus, reviewedStatus]
  · rw [if_neg hr, statusOf_settle, Option.map_map]
    congr 1
    funext st
    cases vds with
    | nil =>
      have approved : hasUnapproved node = false := by
        simpa [settle] using hr
      cases st <;> simp [settledStatus, reviewedStatus, approved]
    | cons vd rest =>
      cases vd <;> cases st <;> simp [settledStatus, reviewedStatus]

theorem recordAt_review (ses : Session) {g : ContentGraph} (ids : List String) {id : String}
    {n : ContentNode} (hf : g.getNode id = some n) (k : ViolationKey) :
    (recordAt (reviewSession ses g ids) id k).map status =
      (statusOf n k).map (reviewedStatus (verdictsOn ses ids id) (hasUnapproved n)) := by
  rw [← statusOf_reviewedNode, recordAt, reviewSession_getNode, hf]
  rfl

structure SessionState where
  session : Session
  graph : ContentGraph
  originals : Option (Dict String Text) := none
  workingFiles : Dict String Text := empty
  depHealthViolations : List Violation := []
  report : Option ReviewReport := none

/-- `text.replace(before, after, 1)`, if the text has an occurrence. -/
def replaceFirst (before after : Text) : Text → Option Text
  | [] => if before = [] then some after else none
  | c :: rest =>
    if before.isPrefixOf (c :: rest) then some (after ++ (c :: rest).drop before.length)
    else (replaceFirst before after rest).map (c :: ·)

def applyTextApproval (s : SessionState) (proposalId : String) : SessionState :=
  match s.session.proposals.get? proposalId with
  | none => s
  | some proposal =>
    match replaceFirst proposal.beforeText proposal.afterText
        ((s.workingFiles.get? proposal.file).getD []) with
    | none => s
    | some text =>
      { s with
        workingFiles := s.workingFiles.insert proposal.file text
        session := recordApproved s.session proposalId proposal }

variable (approvedIds : List String)

/-- `_apply_text_approvals`, for proposals that are not about nodes. -/
def applyTextApprovals (s : SessionState) : SessionState :=
  let applied := approvedIds.foldl applyTextApproval s
  { applied with
    session := applied.session.proposals.entries.foldl
      (fun session entry => recordRejected session entry.1 entry.2) applied.session }

def graphProposalPrefixes : List Text := ["ai-".toList, "t1-".toList, "g2-t1-".toList]

def hasGraphProposals (session : Session) : Bool :=
  session.proposals.keys.any fun proposalId =>
    graphProposalPrefixes.any fun start => start.isPrefixOf proposalId.toList

/-- The decisions go to the graph. -/
def SessionState.reviewsGraph (s : SessionState) : Bool :=
  hasGraphProposals s.session && s.originals.isSome

/-- `_session_apply_approved`, but for the splice into the working files. -/
def sessionApplyApproved (approvedIds : List String) (s : SessionState) : SessionState :=
  if approvedIds = [] ∧ s.session.proposals.entries = [] then s
  else if s.reviewsGraph then
    let reviewed := applyGraphApprovals s.session s.graph approvedIds
    let graph := reconcileAfterApproval reviewed.graph reviewed.approvedNodeIds
    { s with
      session := reviewed.session, graph
      report := some (reconciledReport aiCandidate s.depHealthViolations graph) }
  else applyTextApprovals approvedIds s

theorem applyTextApprovals_keeps (s : SessionState) :
    (applyTextApprovals approvedIds s).graph = s.graph ∧
      (applyTextApprovals approvedIds s).report = s.report := by
  unfold applyTextApprovals
  refine foldl_invariant
    (I := fun st : SessionState => st.graph = s.graph ∧ st.report = s.report) ?_ s ⟨rfl, rfl⟩
  intro st proposalId _ hs
  unfold applyTextApproval
  split
  · exact hs
  · split
    · exact hs
    · exact hs

section

variable (aiCandidate : Violation → Bool) (approvedIds : List String) (s : SessionState)

theorem apply_reviewed (hr : s.reviewsGraph) :
    (sessionApplyApproved aiCandidate approvedIds s).graph =
        reviewSession s.session s.graph approvedIds ∧
      (sessionApplyApproved aiCandidate approvedIds s).report =
        some (reconciledReport aiCandidate s.depHealthViolations
          (reviewSession s.session s.graph approvedIds)) := by
  have hp : s.session.proposals.entries ≠ [] := by
    intro he
    simp [SessionState.reviewsGraph, hasGraphProposals, Dict.keys, he] at hr
  unfold sessionApplyApproved
  rw [if_neg (fun hb => hp hb.2), if_pos hr]
  exact ⟨rfl, rfl⟩

theorem apply_unreviewed (hr : s.reviewsGraph = false) :
    (sessionApplyApproved aiCandidate approvedIds s).graph = s.graph ∧
      (sessionApplyApproved aiCandidate approvedIds s).report = s.report := by
  unfold sessionApplyApproved
  split
  · exact ⟨rfl, rfl⟩
  · rw [hr, if_neg Bool.false_ne_true]
    exact applyTextApprovals_keeps approvedIds s

end

section Accounting

def awaitsReview (status : Status) : Prop := status = .pendingReview ∨ status = .proposed

def SessionState.Reported (s : SessionState) (nodeId : String) (key : ViolationKey) : Prop :=
  ∃ report, s.report = some report ∧
    (Lists report.fixedViolations nodeId key ∨ Lists report.remainingViolations nodeId key)

/-- Nothing awaits review, and the report has every entry in one of its lists. -/
def SessionState.Accounted (s : SessionState) : Prop :=
  ∀ nodeId key record, recordAt s.graph nodeId key = some record →
    ¬ awaitsReview record.status ∧
      ∃ report, s.report = some report ∧
        Xor (Lists report.fixedViolations nodeId key) (Lists report.remainingViolations nodeId key)

variable (before after : SessionState)

/-- With all proposals approved, what awaited review is neither declined nor lost. -/
def ApprovalKept : Prop :=
  (∀ proposalId ∈ before.session.proposals.keys, proposalId ∈ approvedIds) →
    ∀ nodeId key old record, recordAt before.graph nodeId key = some old → awaitsReview old.status →
      recordAt after.graph nodeId key = some record →
        record.status ≠ .declined ∧ after.Reported nodeId key

/-- With no proposal approved, what awaited review is not fixed. -/
def DeclineKept : Prop :=
  (∀ proposalId ∈ before.session.proposals.keys, proposalId ∉ approvedIds) →
    ∀ nodeId key old record, recordAt before.graph nodeId key = some old → awaitsReview old.status →
      recordAt after.graph nodeId key = some record → record.status ≠ .fixed

/-- Whatever awaits review is on a node that the review gets to: one with a
proposal or, for what a deterministic fix resolved, with an unapproved edit.  If
everything is approved the edit is not enough. -/
structure ReviewReaches (approvedIds : List String) (s : SessionState) : Prop where
  pending : ∀ nodeId node key record, s.graph.getNode nodeId = some node →
    node.violationLedger.get? key = some record → record.status = .pendingReview →
      verdictsOn s.session approvedIds nodeId ≠ [] ∨ hasUnapproved node
  approved : (∀ proposalId ∈ s.session.proposals.keys, proposalId ∈ approvedIds) →
    ∀ nodeId node key record, s.graph.getNode nodeId = some node →
      node.violationLedger.get? key = some record → awaitsReview record.status →
        verdictsOn s.session approvedIds nodeId ≠ []

variable (aiCandidate : Violation → Bool) (approvedIds : List String) (s : SessionState)

theorem verdict_of_all (vd : Bool) (id : String)
    (all : ∀ proposalId ∈ s.session.proposals.keys, decide (proposalId ∈ approvedIds) = vd) :
    ∀ o ∈ verdictsOn s.session approvedIds id, o = vd := by
  intro o mem
  obtain ⟨e, hl, -, hs⟩ := mem_verdicts.mp mem
  rw [← hs]
  exact all e.1 (mem_map_of_mem hl)

theorem xor_lists (depHealth : List Violation) (g : ContentGraph) {id : String}
    {k : ViolationKey} {r : ViolationRecord} (hf : recordAt g id k = some r)
    (hs : ¬ awaitsReview r.status) :
    Xor (Lists (reconciledReport aiCandidate depHealth g).fixedViolations id k)
      (Lists (reconciledReport aiCandidate depHealth g).remainingViolations id k) := by
  obtain ⟨hif, hr⟩ :=
    lists_reconciledReport aiCandidate depHealth hf
  rw [hif, hr]
  unfold awaitsReview at hs
  cases st : r.status <;> simp_all [Xor]

theorem record_of_review (id : String) (k : ViolationKey) (r : ViolationRecord)
    (hf : recordAt (reviewSession s.session s.graph approvedIds) id k = some r) :
    ∃ n old, s.graph.getNode id = some n ∧
      n.violationLedger.get? k = some old ∧
      r.status = reviewedStatus (verdictsOn s.session approvedIds id)
        (hasUnapproved n) old.status := by
  cases hg : s.graph.getNode id with
  | none =>
    rw [recordAt, reviewSession_getNode, hg] at hf
    cases hf
  | some n =>
    have hst := recordAt_review s.session approvedIds hg k
    rw [hf, statusOf, Option.map_some, Option.map_map] at hst
    obtain ⟨old, hl, hs⟩ := Option.map_eq_some_iff.mp hst.symm
    exact ⟨n, old, rfl, hl, hs.symm⟩

theorem review_of_record {id : String} {n : ContentNode} {k : ViolationKey}
    {old : ViolationRecord} (hg : s.graph.getNode id = some n)
    (hl : n.violationLedger.get? k = some old) :
    ∃ r, recordAt (reviewSession s.session s.graph approvedIds) id k = some r ∧
      r.status = reviewedStatus (verdictsOn s.session approvedIds id)
        (hasUnapproved n) old.status := by
  have hs := recordAt_review s.session approvedIds hg k
  rw [statusOf, hl, Option.map_some, Option.map_some] at hs
  exact Option.map_eq_some_iff.mp hs

theorem recordAt_eq {g : ContentGraph} {id : String} {n : ContentNode}
    (hg : g.getNode id = some n) (key : ViolationKey) :
    recordAt g id key = n.violationLedger.get? key := by
  rw [recordAt, hg, Option.bind_some]

theorem reviewedStatus_settled (unapp : Bool) {st : Status}
    (hh : st = .pendingReview → vds ≠ [] ∨ unapp) :
    ¬ awaitsReview (reviewedStatus vds unapp st) := by
  cases st with
  | pendingReview =>
    cases vds with
    | nil =>
      have hr := (hh rfl).resolve_left (fun some => some rfl)
      simp [reviewedStatus, hr, awaitsReview]
    | cons vd rest => cases vd <;> simp [reviewedStatus, awaitsReview]
  | proposed => by_cases ha : true ∈ vds <;> simp [reviewedStatus, ha, awaitsReview]
  | opened => simp [reviewedStatus, awaitsReview]
  | fixed => simp [reviewedStatus, awaitsReview]
  | declined => simp [reviewedStatus, awaitsReview]
  | aiAbstained => simp [reviewedStatus, awaitsReview]

theorem accounted_review_iff (hrv : s.reviewsGraph) :
    (sessionApplyApproved aiCandidate approvedIds s).Accounted ↔
      ∀ id node k r, s.graph.getNode id = some node →
        node.violationLedger.get? k = some r → r.status = .pendingReview →
          verdictsOn s.session approvedIds id ≠ [] ∨ hasUnapproved node := by
  obtain ⟨hgr, hr⟩ := apply_reviewed aiCandidate approvedIds s hrv
  unfold SessionState.Accounted
  rw [hgr, hr]
  constructor
  · intro ha id node k old hg hl hp
    by_contra hm
    obtain ⟨hu, hap⟩ := not_or.mp hm
    obtain ⟨r, hf, st⟩ := review_of_record approvedIds s hg hl
    rw [not_not.mp hu, hp, Bool.eq_false_iff.mpr hap] at st
    exact (ha id k r hf).1 (.inl st)
  · intro hre id k r hf
    obtain ⟨node, old, hg, hl, st⟩ := record_of_review approvedIds s id k r hf
    have hs : ¬ awaitsReview r.status := by
      rw [st]
      exact reviewedStatus_settled _ _ (hre id node k old hg hl)
    exact ⟨hs, _, rfl, xor_lists aiCandidate s.depHealthViolations _ hf hs⟩

theorem fixed_of_approved (all : ∀ proposalId ∈ s.session.proposals.keys, proposalId ∈ approvedIds)
    (id : String) (hl : verdictsOn s.session approvedIds id ≠ []) (unapp : Bool)
    (st : Status) (ha : awaitsReview st) :
    reviewedStatus (verdictsOn s.session approvedIds id) unapp st = .fixed := by
  have hp := verdict_of_all approvedIds s true id
    (fun proposalId mem => decide_eq_true (all proposalId mem))
  cases vds : verdictsOn s.session approvedIds id with
  | nil => exact absurd vds hl
  | cons vd rest =>
    rw [vds] at hp
    cases hp vd mem_cons_self
    rcases ha with hpe | hpr
    · rw [hpe]
      rfl
    · rw [hpr]
      simp [reviewedStatus]

theorem approvalKept_review (hre : s.reviewsGraph)
    (hli : (∀ proposalId ∈ s.session.proposals.keys, proposalId ∈ approvedIds) →
      ∀ id n k r, s.graph.getNode id = some n →
        n.violationLedger.get? k = some r → awaitsReview r.status →
          verdictsOn s.session approvedIds id ≠ []) :
    ApprovalKept approvedIds s (sessionApplyApproved aiCandidate approvedIds s) := by
  obtain ⟨hgr, hr⟩ := apply_reviewed aiCandidate approvedIds s hre
  intro all id k old r ho ha hf
  rw [hgr] at hf
  obtain ⟨n, o, hg, hl, st⟩ := record_of_review approvedIds s id k r hf
  rw [recordAt_eq hg, hl] at ho
  cases Option.some.inj ho
  rw [fixed_of_approved approvedIds s all id (hli all id n k old hg hl
    ha) (hasUnapproved n) old.status ha] at st
  refine ⟨by rw [st]; decide, _, hr, .inl ?_⟩
  exact (lists_reconciledReport aiCandidate _ hf).1.mpr st

theorem declineKept_review (hr : s.reviewsGraph) :
    DeclineKept approvedIds s (sessionApplyApproved aiCandidate approvedIds s) := by
  obtain ⟨hgr, -⟩ := apply_reviewed aiCandidate approvedIds s hr
  intro none id k old r ho haw hf
  rw [hgr] at hf
  obtain ⟨n, o, hg, hl, st⟩ := record_of_review approvedIds s id k r hf
  rw [recordAt_eq hg, hl] at ho
  cases Option.some.inj ho
  have hn := verdict_of_all approvedIds s false id
    (fun proposalId mem => decide_eq_false (none proposalId mem))
  rw [st]
  rcases haw with hpe | hp
  · rw [hpe]
    cases vds : verdictsOn s.session approvedIds id with
    | nil => cases hasUnapproved n <;> simp [reviewedStatus]
    | cons vd rest =>
      rw [vds] at hn
      cases hn vd mem_cons_self
      simp [reviewedStatus]
  · have ha : true ∉ verdictsOn s.session approvedIds id := by
      intro mem
      cases hn true mem
    rw [hp, reviewedStatus, if_neg ha]
    decide

/-- The accounting after a review is complete exactly if the review gets to all
that awaits it; a session without proposals about nodes has to be accounted for
before. -/
theorem post_review_accounting_iff :
    ((sessionApplyApproved aiCandidate approvedIds s).Accounted ∧
        ApprovalKept approvedIds s (sessionApplyApproved aiCandidate approvedIds s) ∧
        DeclineKept approvedIds s (sessionApplyApproved aiCandidate approvedIds s)) ↔
      if s.reviewsGraph then ReviewReaches approvedIds s else s.Accounted := by
  cases reviews : s.reviewsGraph with
  | true =>
    rw [if_pos rfl]
    constructor
    · intro complete
      obtain ⟨accounted, kept, -⟩ := complete
      have reached := (accounted_review_iff aiCandidate approvedIds s reviews).mp accounted
      refine ⟨reached, ?_⟩
      intro all nodeId node key old inGraph inLedger awaits unlisted
      obtain ⟨graph, -⟩ := apply_reviewed aiCandidate approvedIds s reviews
      obtain ⟨record, found, status⟩ :=
        review_of_record approvedIds s inGraph inLedger
      have foundOld : recordAt s.graph nodeId key = some old := by
        rw [recordAt_eq inGraph, inLedger]
      rw [← graph] at found
      apply (kept all nodeId key old record foundOld awaits found).1
      rw [status, unlisted]
      rcases awaits with pending | proposed
      · have unapproved := (reached nodeId node key old inGraph inLedger pending).resolve_left
          (fun some => some unlisted)
        rw [pending, unapproved]
        rfl
      · rw [proposed]
        rfl
    · intro reaches
      exact ⟨(accounted_review_iff aiCandidate approvedIds s reviews).mpr reaches.pending,
        approvalKept_review aiCandidate approvedIds s reviews reaches.approved,
        declineKept_review aiCandidate approvedIds s reviews⟩
  | false =>
    rw [if_neg Bool.false_ne_true]
    obtain ⟨graph, report⟩ := apply_unreviewed aiCandidate approvedIds s reviews
    unfold SessionState.Accounted
    rw [graph, report]
    constructor
    · intro complete
      exact complete.1
    · intro accounted
      refine ⟨accounted, ?_, ?_⟩
      · intro _ nodeId key old record foundOld awaits _
        exact absurd awaits (accounted nodeId key old foundOld).1
      · intro _ nodeId key old record foundOld awaits _
        exact absurd awaits (accounted nodeId key old foundOld).1

end Accounting

def reviewFindings : List Violation :=
  [{ ruleId := "L041", path := "task" }, { ruleId := "L080", path := "play" }]

/-- A fix of the task has also resolved the finding on its play, and the rescan
of both has given the two entries the same status. -/
def fixedTaskGraph (fixedBy : FixedBy) (source : Source) (status : Status) : ContentGraph :=
  let start : ContentGraph :=
    { nodes := ofList
        [("play", { nodeType := .play, yamlLines := "- hosts: all\n".toList }),
          ("task", { nodeType := .task, yamlLines := "- shell: ls\n".toList })] }
  let scanned := (start.recordState "task" 0 .scanned .unset).recordState "play" 0 .scanned .unset
  let edited := (scanned.registerViolations reviewFindings 0).rewrite "task" "- command: ls\n".toList
  let recorded := edited.recordState "task" 1 .transformed source
  (recorded.resolveViolations "task" [] fixedBy 1 status).resolveViolations "play" [] fixedBy 1 status

/-- The only proposal is the one for the task. -/
def fixedTaskSession (proposalId : String) (g : ContentGraph) : SessionState :=
  { session := { proposals := ofList [(proposalId, { id := proposalId, path := "task" })] }
    graph := g, originals := some empty }

def approveEverything (proposalId : String) (g : ContentGraph) : SessionState :=
  sessionApplyApproved (fun _ => false) [proposalId] (fixedTaskSession proposalId g)

/-- With everything approved, the finding on the play still awaits review and is
in neither list of the report, or, after a fix of the AI, it is declined. -/
theorem play_entry_unaccounted :
    (recordAt (approveEverything "t1-0000"
        (fixedTaskGraph .deterministic .deterministic .pendingReview)).graph "play"
          ("play", "L080")).map status = some .pendingReview ∧
      ((approveEverything "t1-0000"
        (fixedTaskGraph .deterministic .deterministic .pendingReview)).report.map fun report =>
          (report.fixedViolations ++ report.remainingViolations).map ReportRow.entry) =
        some [some ("task", ("task", "L041"))] ∧
      (recordAt (approveEverything "ai-0000" (fixedTaskGraph .ai .ai .proposed)).graph "play"
        ("play", "L080")).map status = some .declined := by
  decide

end Apme.Daemon
