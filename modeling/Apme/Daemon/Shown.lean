import Apme.Daemon.Agreement
import Apme.Daemon.Gate2
import Apme.Remediation.EditHistory

/-!
# Is what the reviewer sees what is applied?

A row of the second gate shows the last AI proposal for its node, with the
text after a cleanup in place of the AI's.  Approving and rejecting act on the
node's whole progression.  The theorem of this file compares the two for every
run of the second gate.
-/

set_option autoImplicit false

namespace Apme.Daemon

open Apme.Lib Apme.Graph Apme.Remediation List Proposal Dict

variable (g : ContentGraph)

/-- The text `splice_modifications` takes for a node. -/
def splicedText (nodeId : String) : Option Text :=
  (g.getNode nodeId).bind fun node =>
    (effectiveState false node.progression).map NodeState.yamlLines

def nodeText (nodeId : String) : Option Text := (g.getNode nodeId).map ContentNode.yamlLines

/-- The row shows what approving and what rejecting its node leads to. -/
structure Shows (normalize : Text → Text) (g : ContentGraph) (row : Proposal) : Prop where
  after : (splicedText (g.approveNode (stripString row.path)) (stripString row.path)).map normalize =
    some row.afterText
  before : (nodeText (g.rejectNode (stripString row.path)) (stripString row.path)).map normalize =
    some row.beforeText

instance (normalize : Text → Text) (g : ContentGraph) (row : Proposal) :
    Decidable (Shows normalize g row) :=
  decidable_of_iff (_ ∧ _) ⟨fun both => ⟨both.1, both.2⟩, fun shows => ⟨shows.after, shows.before⟩⟩

/-- The row names the rules of all rows it stands for. -/
def NamesRules (proposals : List Proposal) (row : Proposal) : Prop :=
  ∀ name, name ∈ ruleNames row.ruleId ↔
    ∃ p ∈ proposals, proposalKey p = proposalKey row ∧ name ∈ ruleNames p.ruleId

/-- One row for a node, which shows its outcome and names its rules. -/
structure RowsFaithful (normalize : Text → Text) (g : ContentGraph)
    (aiProposals tier1Proposals : List Proposal) : Prop where
  single : (consolidateGate2Proposals aiProposals tier1Proposals).Pairwise fun row other =>
    stripString row.path = stripString other.path → stripString row.path = ""
  rows : ∀ row ∈ consolidateGate2Proposals aiProposals tier1Proposals,
    Shows normalize g row ∧ NamesRules (aiProposals ++ tier1Proposals) row

/-- The graph at the start of the second gate. -/
structure GateReady (g : ContentGraph) : Prop extends Settled g where
  stripped : ∀ nodeId node, g.getNode nodeId = some node → stripString nodeId = nodeId

def gate2Options : RemediateOptions := { interactive := true, skipTier1 := true }

section Rows

def Proposal.withoutId (p : Proposal) : Proposal := { p with id := "" }

/-- A row of a cleanup proposal, up to its id. -/
def cleanupRow (normalize : Text → Text) (item : Tier1NodeProposal) : Proposal :=
  { tier1Row normalize "" item with tier := 2 }

variable (normalize : Text → Text)

theorem zipIdx_map_fst {α β : Type} (f : α → β) (xs : List α) :
    (xs.zipIdx.map fun e => f e.1) = xs.map f := by
  have hc := map_map (f := Prod.fst) (g := f) (l := xs.zipIdx)
  rw [List.zipIdx_map_fst] at hc
  exact hc.symm

theorem buildGraphProposals_withoutId (xs : List AINodeProposal) :
    (buildGraphProposals normalize xs).map withoutId = xs.map (aiRow normalize "") := by
  rw [buildGraphProposals, map_map]
  exact zipIdx_map_fst (aiRow normalize "") xs

theorem gate2Tier1Proposals_withoutId (xs : List Tier1NodeProposal) :
    (gate2Tier1Proposals normalize xs).map withoutId = xs.map (cleanupRow normalize) := by
  have ho : (gate2Tier1Proposals normalize xs).map withoutId =
      (buildTier1Proposals normalize xs).map fun p => { p.withoutId with tier := 2 } := by
    rw [gate2Tier1Proposals, map_map]
    exact zipIdx_map_fst (fun p : Proposal => { p.withoutId with tier := 2 }) _
  rw [ho, buildTier1Proposals, map_map]
  exact zipIdx_map_fst (cleanupRow normalize) xs

theorem proposalKey_eq_path {p : Proposal} (hn : p.path ≠ "")
    (hs : stripString p.path = p.path) : proposalKey p = p.path := by
  rw [proposalKey, hs]
  exact if_pos hn

section

variable {α : Type} (rows : List Proposal) (items : List α) (make : α → Proposal)
  (made : rows.map withoutId = items.map make)
  (named : ∀ item ∈ items, (make item).path ≠ "" ∧ stripString (make item).path = (make item).path)
  (nodeId : String)

include made named

theorem rows_at :
    (rows.filter fun r => proposalKey r = nodeId).map withoutId =
      (items.filter fun x => (make x).path = nodeId).map make := by
  have hp : (rows.filter fun r => proposalKey r = nodeId) =
      rows.filter ((fun r : Proposal => decide (r.path = nodeId)) ∘ withoutId) := by
    refine filter_congr fun r mem => ?_
    have hu : r.withoutId ∈ items.map make := made ▸ mem_map_of_mem mem
    obtain ⟨x, hi, hs⟩ := mem_map.mp hu
    have path : (make x).path = r.path := by rw [hs]; rfl
    have key := proposalKey_eq_path (path ▸ (named x hi).1) (path ▸ (named x hi).2)
    rw [key]
    rfl
  rw [hp, ← filter_map, made, filter_map]
  rfl

theorem rules_at (name : Text) :
    (∃ p ∈ rows, proposalKey p = nodeId ∧ name ∈ ruleNames p.ruleId) ↔
      ∃ x ∈ items, (make x).path = nodeId ∧ name ∈ ruleNames (make x).ruleId := by
  have hs := rows_at rows items make made named nodeId
  constructor
  · rintro ⟨p, hm, key, hr⟩
    have hu : p.withoutId ∈ (items.filter fun x => (make x).path = nodeId).map make := by
      rw [← hs]
      exact mem_map_of_mem (mem_filter.mpr ⟨hm, decide_eq_true key⟩)
    obtain ⟨x, hi, he⟩ := mem_map.mp hu
    obtain ⟨hi, hp⟩ := mem_filter.mp hi
    exact ⟨x, hi, of_decide_eq_true hp, by rw [he]; exact hr⟩
  · rintro ⟨x, hm, hp, hr⟩
    have hu : make x ∈ (rows.filter fun r => proposalKey r = nodeId).map
        withoutId := by
      rw [hs]
      exact mem_map_of_mem (mem_filter.mpr ⟨hm, decide_eq_true hp⟩)
    obtain ⟨p, hir, he⟩ := mem_map.mp hu
    obtain ⟨hir, key⟩ := mem_filter.mp hir
    refine ⟨p, hir, of_decide_eq_true key, ?_⟩
    rw [← he] at hr
    exact hr

end

/-- The row of a node with the given proposals, up to its id. -/
def shownRow (last : Option AINodeProposal) (cleanup : Option Tier1NodeProposal) :
    Option Proposal :=
  match cleanup with
  | none => last.map (aiRow normalize "")
  | some item => some (addTier1 (last.map (aiRow normalize "")) (cleanupRow normalize item))

theorem addTier1_withoutId (existing : Option Proposal) (tier1 : Proposal) :
    (addTier1 existing tier1).withoutId = addTier1 (existing.map withoutId) tier1.withoutId := by
  cases existing <;> rfl

theorem row_at (aiItems : List AINodeProposal) (cleanups : List Tier1NodeProposal)
    (han : ∀ p ∈ aiItems, p.nodeId ≠ "" ∧ stripString p.nodeId = p.nodeId)
    (hn : ∀ p ∈ cleanups, p.nodeId ≠ "" ∧ stripString p.nodeId = p.nodeId)
    {id : String} (cleanup : Option Tier1NodeProposal)
    (one : (cleanups.filter fun p => p.nodeId = id) = cleanup.toList) :
    ((proposalsByNode (buildGraphProposals normalize aiItems)
        (gate2Tier1Proposals normalize cleanups)).get? id).map withoutId =
      shownRow normalize (lastProposal aiItems id) cleanup := by
  have har := rows_at _ aiItems (aiRow normalize "")
    (buildGraphProposals_withoutId normalize aiItems) han id
  have hr := rows_at _ cleanups (cleanupRow normalize)
    (gate2Tier1Proposals_withoutId normalize cleanups) hn id
  have hl : ((buildGraphProposals normalize aiItems).filter
      fun r => proposalKey r = id).getLast?.map withoutId =
        (lastProposal aiItems id).map (aiRow normalize "") := by
    rw [← List.getLast?_map, har, List.getLast?_map]
    rfl
  have ho : (cleanups.filter fun x => (cleanupRow normalize x).path = id) = cleanup.toList := one
  rw [ho] at hr
  rw [get?_proposalsByNode]
  cases cleanup with
  | none =>
    rw [Option.toList_none, map_nil, map_eq_nil_iff] at hr
    rw [hr]
    exact hl
  | some x =>
    rw [Option.toList_some, map_singleton] at hr
    obtain ⟨r, hf, hs⟩ := map_eq_singleton_iff.mp hr
    rw [hf, foldl_cons, foldl_nil, Option.map_some, addTier1_withoutId, hl, hs]
    rfl

end Rows

section Cleanup

variable {nodeId : String} {node : ContentNode}

theorem tier1Proposal_eq_some {x : Tier1NodeProposal}
    (hp : tier1Proposal nodeId node = some x) :
    x.nodeId = nodeId ∧ ∃ first last, node.progression.head? = some first ∧
      node.progression.getLast? = some last ∧
        x.beforeYaml = ((lastApproved node.progression).getD first).yamlLines ∧
          x.afterYaml = last.yamlLines ∧ x.beforeYaml ≠ x.afterYaml := by
  unfold tier1Proposal at hp
  split at hp
  next first last ho hl =>
    simp only at hp
    split at hp
    · cases hp
    · split at hp
      · cases hp
      · split at hp
        · cases hp
        next hd =>
          cases Option.some.inj hp
          exact ⟨rfl, first, last, ho, hl, rfl, rfl, hd⟩
  next => cases hp

theorem tier1Proposal_eq_none (hg : tier1Proposal nodeId node = none)
    (long : 2 ≤ node.progression.length) (hp : PendingCleanup node) {first last : NodeState}
    (ho : node.progression.head? = some first) (hl : node.progression.getLast? = some last)
    : ((lastApproved node.progression).getD first).yamlLines = last.yamlLines := by
  obtain ⟨e, hm, hu, hc⟩ := hp
  have some : (node.progression.any fun e =>
      !e.approved && decide (e.source = .deterministic)) :=
    any_eq_true.mpr ⟨e, hm, by simp [hu, hc]⟩
  unfold tier1Proposal at hg
  rw [ho, hl] at hg
  simp only [some, Bool.not_true, Bool.false_eq_true, if_false] at hg
  rw [if_neg (by omega)] at hg
  split at hg
  next hs => exact hs
  next => cases hg

theorem collectTier1Proposals_at (id : String) :
    ((collectTier1Proposals g).filter fun x => x.nodeId = id) =
      ((g.getNode id).bind (tier1Proposal id)).toList := by
  have ho : ((collectTier1Proposals g).filter fun x => x.nodeId = id) =
      (g.nodes.entries.filter fun e => e.1 = id).filterMap fun e => tier1Proposal e.1 e.2 := by
    rw [collectTier1Proposals, filter_filterMap, filterMap_filter]
    refine filterMap_congr fun e _ => ?_
    cases hp : tier1Proposal e.1 e.2 with
    | none => simp
    | some x =>
      have tgt := (tier1Proposal_eq_some hp).1
      by_cases here : e.1 = id
      · simp [tgt, here]
      · simp [tgt, here]
  rw [ho, filter_key]
  cases hf : g.nodes.get? id with
  | none =>
    have hg : g.getNode id = none := hf
    rw [hg]
    rfl
  | some node =>
    have hpr : g.getNode id = some node := hf
    rw [hpr]
    cases hp : tier1Proposal id node <;> simp [hp]

end Cleanup

section Named

variable {g : ContentGraph} {s : Engine} (ready : GateReady g) (trace : RunTrace g s)
  (normalize : Text → Text)

/-- The rows of the AI edits of a run. -/
def aiRows (s : Engine) : List Proposal := buildGraphProposals normalize s.aiProposals

/-- The rows of its cleanups. -/
def cleanupRows (s : Engine) : List Proposal :=
  gate2Tier1Proposals normalize (collectTier1Proposals s.graph)

include ready trace

theorem node_named {nodeId : String} {n : ContentNode}
    (hf : s.graph.getNode nodeId = some n) : nodeId ≠ "" ∧ stripString nodeId = nodeId := by
  obtain ⟨start, hh, -⟩ := trace.traces.nodes nodeId n hf
  refine ⟨fun hb => ?_, ready.stripped nodeId start hh⟩
  rw [hb, ready.named] at hh
  cases hh

theorem ai_named (p : AINodeProposal) (mem : p ∈ s.aiProposals) :
    p.nodeId ≠ "" ∧ stripString p.nodeId = p.nodeId := by
  obtain ⟨n, hf⟩ := Option.isSome_iff_exists.mp (trace.traces.present p mem)
  exact node_named ready trace hf

theorem cleanup_named (x : Tier1NodeProposal) (mem : x ∈ collectTier1Proposals s.graph) :
    x.nodeId ≠ "" ∧ stripString x.nodeId = x.nodeId := by
  obtain ⟨⟨id, n⟩, hg, hp⟩ := mem_filterMap.mp mem
  rw [(tier1Proposal_eq_some hp).1]
  exact node_named ready trace ((get?_eq_some_iff _ _ _).mpr hg)

variable (normalize : Text → Text)

theorem gate2_row_at (id : String) :
    ((proposalsByNode (aiRows normalize s) (cleanupRows normalize s)).get? id).map
        withoutId =
      shownRow normalize (lastProposal s.aiProposals id)
        ((s.graph.getNode id).bind (tier1Proposal id)) :=
  row_at normalize _ _ (ai_named ready trace) (cleanup_named ready trace) _
    (collectTier1Proposals_at s.graph id)

theorem gate2_rules_at (nodeId : String) (name : Text) :
    (∃ p ∈ aiRows normalize s ++ cleanupRows normalize s,
      proposalKey p = nodeId ∧ name ∈ ruleNames p.ruleId) ↔
    (∃ p ∈ s.aiProposals, p.nodeId = nodeId ∧ name ∈ ruleNames (aiRuleId p)) ∨
      ∃ item, (s.graph.getNode nodeId).bind (tier1Proposal nodeId) = some item ∧
        name ∈ ruleNames (tier1RuleId item) := by
  have har := rules_at _ s.aiProposals (aiRow normalize "")
    (buildGraphProposals_withoutId normalize _) (ai_named ready trace) nodeId name
  have hr := rules_at _ (collectTier1Proposals s.graph) (cleanupRow normalize)
    (gate2Tier1Proposals_withoutId normalize _) (cleanup_named ready trace) nodeId name
  have only : ∀ item, (item ∈ collectTier1Proposals s.graph ∧ item.nodeId = nodeId) ↔
      (s.graph.getNode nodeId).bind (tier1Proposal nodeId) = some item := by
    intro item
    rw [← Option.mem_toList, ← collectTier1Proposals_at, mem_filter, decide_eq_true_iff]
  simp only [aiRows, cleanupRows, mem_append, or_and_right, exists_or, har, hr]
  refine or_congr Iff.rfl (exists_congr fun item => ?_)
  rw [← only item, and_assoc]
  exact Iff.rfl

end Named

section Node

variable {g : ContentGraph} {s : Engine} {nodeId : String} {start node : ContentNode}

theorem node_trace (trace : RunTrace g s) (hs : g.getNode nodeId = some start)
    (hf : s.graph.getNode nodeId = some node) :
    NodeTrace nodeId True start (lastProposal s.aiProposals nodeId) node := by
  obtain ⟨other, ho, ht⟩ := trace.traces.nodes nodeId node hf
  cases Option.some.inj (hs.symm.trans ho)
  exact ht

variable {last : Option AINodeProposal}

theorem splicedText_approveNode {h : ContentGraph} (hf : h.getNode nodeId = some node)
    (hn : nodeId ≠ "")
    (ht : NodeTrace nodeId True start last node) (hs : node.progression ≠ []) :
    splicedText (h.approveNode nodeId) nodeId = some node.yamlLines := by
  have ha := actsOn_approveNode nodeId hn h nodeId
  rw [if_pos rfl, hf, Option.map_some] at ha
  rw [splicedText, ha]
  exact approved_text ht hs

theorem nodeText_rejectNode {h : ContentGraph} (hf : h.getNode nodeId = some node) :
    nodeText (h.rejectNode nodeId) nodeId = some node.rollback.yamlLines := by
  have ha := actsOn_rejectNode nodeId h nodeId
  rw [if_pos rfl, hf, Option.map_some, ContentNode.reject,
    ContentNode.rollback_transition] at ha
  rw [nodeText, ha, Option.map_some]
  rfl

/-- Without a cleanup proposal the AI's last proposal shows the text of the
node, unless a cleanup has brought back the text of the start. -/
theorem no_cleanup_proposal {last : AINodeProposal} (hs : SettledNode nodeId start)
    (ht : NodeTrace nodeId True start (some last) node)
    (hr : node.progression.length < maxProgression) (hg : tier1Proposal nodeId node = none) :
    last.afterYaml = node.yamlLines ∨ node.yamlLines = start.yamlLines := by
  have long := ht.proposed (Option.some_ne_none last)
  rcases ht.shown trivial hr last rfl with same | hp
  · exact .inl same
  · have ne : node.progression ≠ [] := by
      intro he
      rw [he] at long
      exact absurd long (by decide)
    have ho := List.head?_eq_some_head ne
    have hl := List.getLast?_eq_some_getLast ne
    have hc := tier1Proposal_eq_none hg long hp ho hl
    rw [baseline_text hs ht hr ho, ht.inSync trivial _ hl] at hc
    exact .inr hc.symm

/-- What the row of a node shows. -/
structure RowFacts (normalize : Text → Text) (nodeId : String) (node : ContentNode)
    (last : Option AINodeProposal) (row : Proposal) : Prop where
  path : row.path = nodeId
  beforeAi : ∀ p, last = some p → row.beforeText = normalize p.beforeYaml
  beforeCleanup : last = none → ∀ item, tier1Proposal nodeId node = some item →
    row.beforeText = normalize item.beforeYaml
  afterCleanup : ∀ item, tier1Proposal nodeId node = some item →
    row.afterText = normalize node.yamlLines
  afterAi : tier1Proposal nodeId node = none →
    ∃ p, last = some p ∧ row.afterText = normalize p.afterYaml
  rules : ∀ name, name ∈ ruleNames row.ruleId ↔
    (∃ p, last = some p ∧ name ∈ ruleNames (aiRuleId p)) ∨
      ∃ item, tier1Proposal nodeId node = some item ∧ name ∈ ruleNames (tier1RuleId item)

theorem row_facts {normalize : Text → Text} (tgt : ∀ p, last = some p → p.nodeId = nodeId)
    (ht : NodeTrace nodeId True start last node) {row : Proposal}
    (hs : shownRow normalize last (tier1Proposal nodeId node) = some row) :
    RowFacts normalize nodeId node last row := by
  cases hc : tier1Proposal nodeId node with
  | none =>
    rw [hc, shownRow] at hs
    obtain ⟨p, hL, rfl⟩ := Option.map_eq_some_iff.mp hs
    subst hL
    exact
      { path := tgt p rfl
        beforeAi := fun _ same => by cases same; rfl
        beforeCleanup := fun none => by cases none
        afterCleanup := fun _ some => by rw [hc] at some; cases some
        afterAi := fun _ => ⟨p, rfl, rfl⟩
        rules := fun name => by simp [hc, aiRow] }
  | some x =>
    obtain ⟨here, _, l, -, hn, -, haf, -⟩ := tier1Proposal_eq_some hc
    rw [hc, shownRow] at hs
    have ha : (cleanupRow normalize x).afterText = normalize node.yamlLines :=
      congrArg normalize (haf.trans (ht.inSync trivial l hn))
    cases last with
    | none =>
      cases Option.some.inj hs
      exact
        { path := here
          beforeAi := fun _ none => by cases none
          beforeCleanup := fun _ item isItem => by
            cases Option.some.inj (hc.symm.trans isItem)
            rfl
          afterCleanup := fun _ _ => ha
          afterAi := fun none => by rw [hc] at none; cases none
          rules := fun name => by simp [hc, addTier1, cleanupRow, tier1Row] }
    | some p =>
      cases Option.some.inj hs
      refine
        { path := tgt p rfl
          beforeAi := fun _ same => by cases same; rfl
          beforeCleanup := fun none => by cases none
          afterCleanup := fun _ _ => ha
          afterAi := fun none => by rw [hc] at none; cases none
          rules := fun name => ?_ }
      refine (mem_ruleNames_mergeProposals _ _ name).trans ?_
      simp [hc, aiRow, cleanupRow, tier1Row]

end Node

/-- The text before the gate.  It can be brought back unless snapshots were
evicted from a full progression that did not begin as approved, or all of those
were; then the node goes back to the last snapshot before a pending one. -/
def restoredText (start node : ContentNode) : Text :=
  if node.progression.length < maxProgression ∨
      (firstUnapproved start.progression = none ∧ node.progression.any NodeState.approved) then
    start.yamlLines
  else node.rollback.yamlLines

/-- The row of a node: the last AI edit, or else the cleanup, started from the
text that can be brought back; the text of the last AI edit stands where no
cleanup is shown; and no rule of an earlier edit is forgotten.  While the
progression is not full, the text can only be lost by going back to the start. -/
structure RowShown (normalize : Text → Text) (proposals : List AINodeProposal) (nodeId : String)
    (start node : ContentNode) : Prop where
  before : ∀ last, lastProposal proposals nodeId = some last →
    normalize last.beforeYaml = normalize (restoredText start node)
  cleanup : lastProposal proposals nodeId = none → ∀ item, tier1Proposal nodeId node = some item →
    normalize item.beforeYaml = normalize (restoredText start node)
  after : (node.progression.length < maxProgression → node.yamlLines = start.yamlLines) →
    tier1Proposal nodeId node = none → ∀ last, lastProposal proposals nodeId = some last →
      normalize last.afterYaml = normalize node.yamlLines
  rules : ∀ last, lastProposal proposals nodeId = some last →
    ∀ p ∈ proposals, p.nodeId = nodeId → ∀ name ∈ ruleNames (aiRuleId p),
      name ∈ ruleNames (aiRuleId last) ∨
        ∃ item, tier1Proposal nodeId node = some item ∧ name ∈ ruleNames (tier1RuleId item)

section Faithful

variable {g : ContentGraph} {s : Engine}

variable {proposals : List AINodeProposal} {nodeId : String} {p : AINodeProposal}

theorem lastProposal_target (hL : lastProposal proposals nodeId = some p) :
    p ∈ proposals ∧ p.nodeId = nodeId := by
  have mem := mem_of_getLast? hL
  rw [mem_filter, decide_eq_true_iff] at mem
  exact mem

variable {row : Proposal} (normalize : Text → Text) {start node : ContentNode}

theorem lastProposal_isSome (mem : p ∈ proposals) (tgt : p.nodeId = nodeId) :
    lastProposal proposals nodeId ≠ none := by
  intro none
  have he := List.getLast?_eq_none_iff.mp none
  have hf : p ∈ proposals.filter fun p => p.nodeId = nodeId :=
    mem_filter.mpr ⟨mem, decide_eq_true tgt⟩
  rw [he] at hf
  exact absurd hf not_mem_nil

theorem restoredText_eq {last : Option AINodeProposal} (hse : SettledNode nodeId start)
    (ht : NodeTrace nodeId True start last node) :
    restoredText start node = node.rollback.yamlLines := by
  unfold restoredText
  split
  next hk =>
    rcases hk with hr | ⟨ha, hk⟩
    · exact (rollback_text hse ht hr).symm
    · exact (rollback_text_of_kept hse ht ha hk).symm
  next => rfl

section Row

variable (hse : SettledNode nodeId start)
  (htr : NodeTrace nodeId True start (lastProposal proposals nodeId) node)
  (hf : RowFacts normalize nodeId node (lastProposal proposals nodeId) row)

include hf in
theorem before_iff (hrow : lastProposal proposals nodeId ≠ none ∨ tier1Proposal nodeId node ≠ none)
    (old : Text) :
    row.beforeText = normalize old ↔
      (∀ last, lastProposal proposals nodeId = some last →
        normalize last.beforeYaml = normalize old) ∧
      (lastProposal proposals nodeId = none → ∀ item, tier1Proposal nodeId node = some item →
        normalize item.beforeYaml = normalize old) := by
  cases hL : lastProposal proposals nodeId with
  | some last => simp [hf.beforeAi last hL]
  | none =>
    obtain ⟨item, hi⟩ := Option.ne_none_iff_exists'.mp (hrow.resolve_left (absurd hL))
    simp [hf.beforeCleanup hL item hi, hi]

include hse htr hf in
theorem after_iff :
    row.afterText = normalize node.yamlLines ↔
      ((node.progression.length < maxProgression → node.yamlLines = start.yamlLines) →
        tier1Proposal nodeId node = none → ∀ last, lastProposal proposals nodeId = some last →
          normalize last.afterYaml = normalize node.yamlLines) := by
  cases hc : tier1Proposal nodeId node with
  | some item => simp [hf.afterCleanup item hc]
  | none =>
    obtain ⟨last, hL, ha⟩ := hf.afterAi hc
    rw [hL] at htr
    simp only [hL, Option.some.injEq, forall_eq', forall_const, ha]
    refine ⟨fun same _ => same, fun same => ?_⟩
    by_cases hr : node.progression.length < maxProgression
    · rcases no_cleanup_proposal hse htr hr hc with hs | hu
      · rw [hs]
      · exact same fun _ => hu
    · exact same fun room => absurd room hr

include hf in
theorem rules_iff :
    (∀ name, name ∈ ruleNames row.ruleId ↔
      (∃ p ∈ proposals, p.nodeId = nodeId ∧ name ∈ ruleNames (aiRuleId p)) ∨
        ∃ x, tier1Proposal nodeId node = some x ∧ name ∈ ruleNames (tier1RuleId x)) ↔
    ∀ last, lastProposal proposals nodeId = some last →
      ∀ p ∈ proposals, p.nodeId = nodeId → ∀ name ∈ ruleNames (aiRuleId p),
        name ∈ ruleNames (aiRuleId last) ∨
          ∃ item, tier1Proposal nodeId node = some item ∧ name ∈ ruleNames (tier1RuleId item) := by
  constructor
  · intro hru last hL p hm ht name hir
    rcases (hf.rules name).mp ((hru name).mpr (.inl ⟨p, hm, ht, hir⟩)) with ⟨q, isQ, hl⟩ | hic
    · cases Option.some.inj (hL.symm.trans isQ)
      exact .inl hl
    · exact .inr hic
  · intro hsh name
    rw [hf.rules name]
    constructor
    · rintro (⟨last, hL, hir⟩ | hic)
      · exact .inl ⟨last, (lastProposal_target hL).1, (lastProposal_target hL).2, hir⟩
      · exact .inr hic
    · rintro (⟨p, hm, ht, hir⟩ | hic)
      · obtain ⟨last, hL⟩ := Option.ne_none_iff_exists'.mp (lastProposal_isSome hm ht)
        exact (hsh last hL p hm ht name hir).imp_left fun hl => ⟨last, hL, hl⟩
      · exact .inr hic

include hse htr hf in
theorem row_faithful_iff :
    ((row.afterText = normalize node.yamlLines ∧
        row.beforeText = normalize node.rollback.yamlLines) ∧
      ∀ name, name ∈ ruleNames row.ruleId ↔
        (∃ p ∈ proposals, p.nodeId = nodeId ∧ name ∈ ruleNames (aiRuleId p)) ∨
          ∃ x, tier1Proposal nodeId node = some x ∧ name ∈ ruleNames (tier1RuleId x)) ↔
      RowShown normalize proposals nodeId start node := by
  have hrow : lastProposal proposals nodeId ≠ none ∨ tier1Proposal nodeId node ≠ none := by
    by_contra hn
    rw [not_or, not_not, not_not] at hn
    obtain ⟨p, isP, -⟩ := hf.afterAi hn.2
    rw [hn.1] at isP
    cases isP
  rw [after_iff normalize hse htr hf, ← restoredText_eq hse htr, before_iff normalize hf hrow,
    rules_iff normalize hf]
  constructor
  · rintro ⟨⟨after, before, cleanup⟩, rules⟩
    exact ⟨before, cleanup, after, rules⟩
  · intro shown
    exact ⟨⟨shown.after, shown.before, shown.cleanup⟩, shown.rules⟩

end Row

variable (ready : GateReady g) (trace : RunTrace g s)

include ready trace

theorem row_of_node
    (hr : (proposalsByNode (aiRows normalize s) (cleanupRows normalize s)).get? nodeId = some row) :
    ∃ start node, g.getNode nodeId = some start ∧ s.graph.getNode nodeId = some node ∧
      RowFacts normalize nodeId node (lastProposal s.aiProposals nodeId) row.withoutId := by
  have hsh := gate2_row_at ready trace normalize nodeId
  rw [hr, Option.map_some] at hsh
  have here : ∃ node, s.graph.getNode nodeId = some node := by
    cases hf : s.graph.getNode nodeId with
    | some node => exact ⟨node, rfl⟩
    | none =>
      rw [hf, Option.bind_none, shownRow] at hsh
      obtain ⟨p, hL, -⟩ := Option.map_eq_some_iff.mp hsh.symm
      obtain ⟨mem, tgt⟩ := lastProposal_target hL
      have some := trace.traces.present p mem
      rw [tgt, hf] at some
      cases some
  obtain ⟨node, hf⟩ := here
  obtain ⟨start, hs, ht⟩ := trace.traces.nodes nodeId node hf
  rw [hf, Option.bind_some] at hsh
  exact ⟨start, node, hs, hf, row_facts (fun p hL => (lastProposal_target hL).2) ht hsh.symm⟩

theorem shows_iff (hs : g.getNode nodeId = some start)
    (hf : s.graph.getNode nodeId = some node)
    (hfa : RowFacts normalize nodeId node (lastProposal s.aiProposals nodeId) row.withoutId) :
    Shows normalize s.graph row ↔ row.afterText = normalize node.yamlLines ∧
      row.beforeText = normalize node.rollback.yamlLines := by
  obtain ⟨named, hst⟩ := node_named ready trace hf
  have ht := node_trace trace hs hf
  have snap : node.progression ≠ [] := by
    cases hc : tier1Proposal nodeId node with
    | none =>
      obtain ⟨p, hL, -⟩ := hfa.afterAi hc
      have hl := ht.proposed (by rw [hL]; exact Option.some_ne_none p)
      intro he
      rw [he] at hl
      exact absurd hl (by decide)
    | some item =>
      obtain ⟨-, first, -, ho, -⟩ := tier1Proposal_eq_some hc
      intro he
      rw [he] at ho
      cases ho
  have tgt : stripString row.path = nodeId := by
    have hp : row.path = nodeId := hfa.path
    rw [hp, hst]
  have ha := splicedText_approveNode hf named ht snap
  have hr := nodeText_rejectNode hf
  constructor
  · rintro ⟨haf, old⟩
    rw [tgt, ha, Option.map_some] at haf
    rw [tgt, hr, Option.map_some] at old
    exact ⟨(Option.some.inj haf).symm, (Option.some.inj old).symm⟩
  · rintro ⟨haf, old⟩
    constructor
    · rw [tgt, ha, Option.map_some, haf]
    · rw [tgt, hr, Option.map_some, old]

theorem rows_single : (consolidateGate2Proposals (aiRows normalize s) (cleanupRows normalize s)).Pairwise
      fun row other => stripString row.path = stripString other.path → stripString row.path = "" := by
  have hd := (proposalsByNode (aiRows normalize s) (cleanupRows normalize s)).nodup
  rw [List.Nodup, pairwise_map] at hd
  rw [consolidateGate2Proposals, values, pairwise_map]
  refine hd.imp_of_mem fun {entry other} he hi hdi hs => ?_
  have key : ∀ entry ∈ (proposalsByNode (aiRows normalize s) (cleanupRows normalize s)).entries,
      stripString entry.2.path = entry.1 := by
    intro entry mem
    obtain ⟨start, n, -, hf, hfa⟩ := row_of_node normalize ready trace
      ((get?_eq_some_iff _ _ _).mpr mem)
    have hp : entry.2.path = entry.1 := hfa.path
    rw [hp]
    exact (node_named ready trace hf).2
  rw [key entry he, key other hi] at hs
  exact absurd hs hdi

theorem consolidated_faithful_iff (hs : g.getNode nodeId = some start)
    (hf : s.graph.getNode nodeId = some node)
    (hfa : RowFacts normalize nodeId node (lastProposal s.aiProposals nodeId) row.withoutId) :
    Shows normalize s.graph row ∧ NamesRules (aiRows normalize s ++ cleanupRows normalize s) row ↔
      RowShown normalize s.aiProposals nodeId start node := by
  obtain ⟨hn, hst⟩ := node_named ready trace hf
  have hp : row.path = nodeId := hfa.path
  have key : proposalKey row = nodeId := by
    rw [proposalKey_eq_path (hp ▸ hn) (hp ▸ hst), hp]
  rw [shows_iff normalize ready trace hs hf hfa, NamesRules, key,
    ← row_faithful_iff normalize (ready.nodes nodeId start hs) (node_trace trace hs hf) hfa]
  refine and_congr Iff.rfl (forall_congr' fun name => ?_)
  rw [gate2_rules_at ready trace normalize nodeId name, hf]
  exact Iff.rfl

theorem rowsFaithful_iff :
    RowsFaithful normalize s.graph (aiRows normalize s) (cleanupRows normalize s) ↔
      ∀ nodeId start node, g.getNode nodeId = some start → s.graph.getNode nodeId = some node →
        RowShown normalize s.aiProposals nodeId start node := by
  constructor
  · intro hfi nodeId start node hs hf
    have hsh := gate2_row_at ready trace normalize nodeId
    rw [hf, Option.bind_some] at hsh
    cases hr : (proposalsByNode (aiRows normalize s) (cleanupRows normalize s)).get? nodeId with
    | some row =>
      obtain ⟨_, _, _, hf', hfa⟩ := row_of_node normalize ready trace hr
      cases Option.some.inj (hf.symm.trans hf')
      exact (consolidated_faithful_iff normalize ready trace hs hf hfa).mp
        (hfi.rows row ((mem_values_iff _ _).mpr ⟨nodeId, hr⟩))
    | none =>
      -- a node without a row has no proposal of either kind
      rw [hr, Option.map_none] at hsh
      cases hc : tier1Proposal nodeId node with
      | some item => simp [hc, shownRow] at hsh
      | none =>
        have none : lastProposal s.aiProposals nodeId = none := by
          simpa [hc, shownRow] using hsh.symm
        constructor <;> simp [none, hc]
  · intro hsh
    refine ⟨rows_single normalize ready trace, fun row hm => ?_⟩
    obtain ⟨nodeId, hr⟩ := (mem_values_iff _ _).mp hm
    obtain ⟨start, node, hs, hf, hfa⟩ := row_of_node normalize ready trace hr
    exact (consolidated_faithful_iff normalize ready trace hs hf hfa).mpr
      (hsh nodeId start node hs hf)

end Faithful

/-- In every run of the second gate the rows are faithful exactly if, on every
node, the last edit shown started from the text that rejecting brings back, is
the last to change the node, and forgets no rule of an earlier edit. -/
theorem gate2_rows_faithful_iff (normalize : Text → Text) (cfg : EngineConfig)
    (g : ContentGraph) (initial : Option (List Violation)) (s : Engine)
    (fixReport : GraphFixReport) (ready : GateReady g)
    (run : remediate cfg gate2Options g initial = .ok (s, fixReport)) :
    RowsFaithful normalize s.graph (buildGraphProposals normalize fixReport.aiProposals)
        (gate2Tier1Proposals normalize fixReport.tier1Proposals) ↔
      ∀ nodeId start node, g.getNode nodeId = some start → s.graph.getNode nodeId = some node →
        RowShown normalize fixReport.aiProposals nodeId start node := by
  have outcome := (runTrace_invariant cfg gate2Options ready.named).remediate_good
    (startRun_trace cfg ready.toSettled initial)
  rw [run] at outcome
  obtain ⟨final, l, trace, same⟩ := outcome
  cases same
  exact rowsFaithful_iff normalize ready trace

/-- A task whose text was approved at the first gate, with one finding left. -/
def gateTask (snapshots : Nat) : ContentNode :=
  { nodeType := .task, filePath := "site.yml", lineStart := 2, lineEnd := 2
    yamlLines := "- shell: ls\n".toList
    progression := replicate snapshots
      { id := "task@0", passNumber := 0, phase := .scanned, yamlLines := "- shell: ls\n".toList
        approved := true } }

def gateTaskGraph (snapshots : Nat) : ContentGraph :=
  { nodes := ofList [("task", gateTask snapshots)] }

def gateFinding : Violation := { ruleId := "L030", path := "task", file := "site.yml" }

/-- The AI answers with `answers`, attempt by attempt, and each of the rescans
`reports` brings one new finding. -/
def attempts (answers : List AINodeFix) (reports : List (List Violation)) : EngineConfig :=
  { registry := fun _ => none
    rescanFn := some fun count _ _ => some (reports.getD count [])
    aiProvider := some fun attempt _ => (answers[attempt]?).elim .noFix .fix }

def commandFix : AINodeFix := { fixedSnippet := "- command: ls\n".toList, ruleIds := ["L030"] }

def namedFix : AINodeFix :=
  { fixedSnippet := "- name: list\n  command: ls\n".toList, ruleIds := ["L040"] }

theorem gateTaskGraph_nodes {snapshots : Nat} {id : String} {n : ContentNode}
    (hf : (gateTaskGraph snapshots).getNode id = some n) : id = "task" ∧ n = gateTask snapshots :=
  Prod.mk.inj (mem_singleton.mp ((get?_eq_some_iff _ _ _).mp hf))

theorem gateTaskGraph_ready : GateReady (gateTaskGraph 19) := by
  refine ⟨⟨by decide, fun id n hf => ?_⟩, fun id n hf => ?_⟩
  · obtain ⟨rfl, rfl⟩ := gateTaskGraph_nodes hf
    exact
      { inSync := fun last hl => by cases Option.some.inj hl; rfl
        baseline := fun first ho => by cases Option.some.inj ho; rfl
        restored := rfl
        records := fun k r hf => by cases hf }
  · obtain ⟨rfl, rfl⟩ := gateTaskGraph_nodes hf
    decide

def commandProposal : AINodeProposal :=
  { nodeId := "task", filePath := "site.yml", beforeYaml := (gateTask 19).yamlLines
    afterYaml := commandFix.fixedSnippet, ruleIds := ["L030"], explanation := ""
    lineStart := 2, lineEnd := 2, nodeType := .task }

/-- One attempt on a task that has 19 snapshots, so that old ones are evicted: the
row shows what is applied.  The texts have no carriage returns and no escapes, so
they are shown as they are. -/
theorem oneAttempt_rows_faithful :
    Holds
      (fun ended => ended.2.aiProposals = [commandProposal] ∧
        RowsFaithful id ended.1.graph (buildGraphProposals id ended.2.aiProposals)
          (gate2Tier1Proposals id ended.2.tier1Proposals))
      (fun _ => False)
      (remediate (attempts [commandFix] []) gate2Options (gateTaskGraph 19) (some [gateFinding])) := by
  have facts : Holds
      (fun ended => ended.2.aiProposals = [commandProposal] ∧
        ∀ entry ∈ ended.1.graph.nodes.entries, entry.2.progression.length = maxProgression ∧
          entry.2.progression.any NodeState.approved ∧
            entry.2.yamlLines = commandFix.fixedSnippet)
      (fun _ => False)
      (remediate (attempts [commandFix] []) gate2Options (gateTaskGraph 19) (some [gateFinding])) := by
    decide +kernel
  cases run : remediate (attempts [commandFix] []) gate2Options (gateTaskGraph 19)
      (some [gateFinding]) with
  | error failed => rwa [run] at facts
  | ok ended =>
    rw [run] at facts
    obtain ⟨proposals, nodes⟩ := facts
    refine ⟨proposals, (gate2_rows_faithful_iff id (attempts [commandFix] []) (gateTaskGraph 19)
      (some [gateFinding]) ended.1 ended.2 gateTaskGraph_ready run).mpr
        fun nodeId start node foundStart found => ?_⟩
    obtain ⟨rfl, rfl⟩ := gateTaskGraph_nodes foundStart
    obtain ⟨-, kept, edited⟩ := nodes ("task", node) ((get?_eq_some_iff _ _ _).mp found)
    have restored : restoredText (gateTask 19) node = commandProposal.beforeYaml :=
      if_pos (.inr ⟨by decide, kept⟩)
    have isLast : lastProposal ended.2.aiProposals "task" = some commandProposal := by
      rw [proposals]
      rfl
    constructor
    · intro last same
      cases Option.some.inj (isLast.symm.trans same)
      rw [restored]
    · intro none
      rw [isLast] at none
      cases none
    · intro _ _ last same
      cases Option.some.inj (isLast.symm.trans same)
      rw [edited]
      rfl
    · intro last same p member _ name inRules
      cases Option.some.inj (isLast.symm.trans same)
      rw [proposals] at member
      rw [mem_singleton.mp member] at inRules
      exact .inl inRules

/-- Two attempts: the row shows the step from the first fix to the second, under
the rules of the second alone, but rejecting it brings back the text before
both. -/
theorem twoAttempts_row_unfaithful :
    Holds
      (fun ended =>
        consolidateGate2Proposals (buildGraphProposals id ended.2.aiProposals)
            (gate2Tier1Proposals id ended.2.tier1Proposals) =
          [{ id := "ai-0001", file := "site.yml", ruleId := "L040", lineStart := 2, lineEnd := 2
             beforeText := commandFix.fixedSnippet, afterText := namedFix.fixedSnippet
             path := "task", nodeType := some .task }] ∧
        nodeText (ended.1.graph.rejectNode "task") "task" = some "- shell: ls\n".toList ∧
        (∀ row ∈ consolidateGate2Proposals (buildGraphProposals id ended.2.aiProposals)
            (gate2Tier1Proposals id ended.2.tier1Proposals), ¬ Shows id ended.1.graph row) ∧
        ∃ p ∈ buildGraphProposals id ended.2.aiProposals, p.path = "task" ∧ p.ruleId = "L030")
      (fun _ => False)
      (remediate (attempts [commandFix, namedFix] [[{ gateFinding with ruleId := "L040" }]])
        gate2Options (gateTaskGraph 1) (some [gateFinding])) := by
  decide

end Apme.Daemon
