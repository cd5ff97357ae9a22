import Apme.Graph.Frame
import Apme.Remediation.Invariant

/-!
# The texts of a run

A run only adds unapproved snapshots to the progressions it finds.  Between its
rounds every node has the text of its last snapshot, and the last AI proposal
for a node shows that text as long as no cleanup transform has followed.
-/

set_option autoImplicit false

namespace Apme.Remediation

open Apme.Lib Apme.Graph List Option ContentNode Engine NodeState

variable (proposals : List AINodeProposal)

/-- The latest of the AI's proposals for a node. -/
def lastProposal (nodeId : String) : Option AINodeProposal :=
  (proposals.filter fun p => p.nodeId = nodeId).getLast?

theorem lastProposal_append (p : AINodeProposal) (nodeId : String) :
    lastProposal (proposals ++ [p]) nodeId =
      if p.nodeId = nodeId then some p else lastProposal proposals nodeId := by
  unfold lastProposal
  rw [filter_append]
  split
  next here => simp [here]
  next ha => simp [ha]

/-- What a run finds: no change is pending on any node, so that rejecting the
node would leave its text alone, and findings are on nodes with a snapshot. -/
structure SettledNode (nodeId : String) (node : ContentNode) : Prop where
  inSync : ∀ last, node.progression.getLast? = some last → last.yamlLines = node.yamlLines
  baseline : ∀ first, node.progression.head? = some first →
    ((lastApproved node.progression).getD first).yamlLines = node.yamlLines
  restored : node.rollback.yamlLines = node.yamlLines
  records : ∀ key record, node.violationLedger.get? key = some record →
    record.violation.path = nodeId ∧ node.progression ≠ []

/-- The snapshot that recording the state of a node adds. -/
def newSnapshot (nodeId : String) (passNumber : Nat) (phase : Phase) (source : Source)
    (node : ContentNode) : NodeState :=
  { id := nodeId ++ "@" ++ toString node.progression.length
    passNumber, phase, source, yamlLines := node.yamlLines }

/-- Unapproved snapshots were added, and the oldest ones are gone once the
progression was full; the first snapshot of all shows the text at the start. -/
def Grown (start node : ContentNode) : Prop :=
  ∃ entries gone, node.progression = (start.progression ++ entries).drop gone ∧
    (node.progression.length < maxProgression → gone = 0) ∧
      (∀ entry ∈ entries, entry.approved = false) ∧
        (start.progression = [] → ∀ first, entries.head? = some first →
          first.yamlLines = start.yamlLines)

/-- A cleanup transform is pending on the node. -/
def PendingCleanup (node : ContentNode) : Prop :=
  ∃ entry ∈ node.progression, entry.approved = false ∧ entry.source = .deterministic

/-- How a node of a run relates to the node at its start.  The node may be ahead
of its snapshots unless it is `settled`. -/
structure NodeTrace (nodeId : String) (settled : Prop) (start : ContentNode)
    (last : Option AINodeProposal) (node : ContentNode) : Prop where
  grown : Grown start node
  inSync : settled → ∀ entry, node.progression.getLast? = some entry →
    entry.yamlLines = node.yamlLines
  untouched : node.progression = [] → node.yamlLines = start.yamlLines
  shown : settled → node.progression.length < maxProgression →
    ∀ p, last = some p → p.afterYaml = node.yamlLines ∨ PendingCleanup node
  records : ∀ key record, node.violationLedger.get? key = some record →
    record.violation.path = nodeId ∧ node.progression ≠ []
  proposed : last ≠ none → 2 ≤ node.progression.length

section

variable (nodeId : String) (pass : Nat) (phase : Phase) (source : Source) (node : ContentNode)

theorem length_recordState :
    (recordState nodeId pass phase source node).progression.length =
      if maxProgression ≤ node.progression.length then node.progression.length
      else node.progression.length + 1 :=
  length_pushBounded maxProgression (by decide) node.progression
    (newSnapshot nodeId pass phase source node)

theorem inSync_recordState (e : NodeState)
    (hl : (recordState nodeId pass phase source node).progression.getLast? = some e) :
    e.yamlLines = (recordState nodeId pass phase source node).yamlLines := by
  have hs := (getLast?_pushBounded maxProgression node.progression
    (newSnapshot nodeId pass phase source node)).symm.trans hl
  cases Option.some.inj hs
  rfl

end

namespace NodeTrace

variable {nodeId : String} {settled : Prop} {start node : ContentNode}
  {last : Option AINodeProposal}

theorem start_trace (hn : SettledNode nodeId node) :
    NodeTrace nodeId True node none node where
  grown := ⟨[], 0, (append_nil _).symm, fun _ => rfl, fun _ mem => absurd mem not_mem_nil,
    fun _ _ first => by cases first⟩
  inSync _ := hn.inSync
  untouched _ := rfl
  shown _ _ _ none := by cases none
  records := hn.records
  proposed some := absurd rfl some

theorem weaken {o : Prop} (trace : NodeTrace nodeId settled start last node)
    (hi : o → settled) : NodeTrace nodeId o start last node :=
  { trace with
    inSync := fun holds => trace.inSync (hi holds)
    shown := fun holds => trace.shown (hi holds) }

section

variable (trace : NodeTrace nodeId settled start last node)

include trace

theorem grown_push
    (snap : node.progression = [] → node.yamlLines = start.yamlLines) (pass : Nat)
    (phase : Phase) (src : Source) : Grown start (recordState nodeId pass phase src node) := by
  obtain ⟨es, gone, hs, hz, hu, hr⟩ := trace.grown
  have hp : ∃ more, (recordState nodeId pass phase src node).progression =
      (start.progression ++ (es ++ [newSnapshot nodeId pass phase src node])).drop more ∧
        (more = 0 ∨ maxProgression ≤ (recordState nodeId pass phase src node).progression.length) := by
    by_cases full : maxProgression ≤ node.progression.length
    · have hl := length_recordState nodeId pass phase src node
      rw [if_pos full] at hl
      have le : gone + 1 ≤ (start.progression ++ es).length := by
        rw [hs, length_drop, maxProgression] at full
        omega
      refine ⟨gone + 1, ?_, .inr (hl ▸ full)⟩
      rw [← append_assoc, drop_append_of_le_length le, ← tail_drop, ← hs]
      exact congrArg (· ++ [_]) (if_pos full)
    · cases hz (Nat.lt_of_not_le full)
      refine ⟨0, ?_, .inl rfl⟩
      rw [drop_zero, ← append_assoc, ← drop_zero (l := _ ++ es), ← hs]
      exact congrArg (· ++ [_]) (if_neg full)
  obtain ⟨more, hm, hf⟩ := hp
  refine ⟨_, more, hm, fun room => hf.resolve_right (Nat.not_le_of_lt room),
    fun e mem => ?_, fun hf first head => ?_⟩
  · rcases mem_append.mp mem with he | new
    · exact hu e he
    · rw [mem_singleton.mp new]
      rfl
  · cases es with
    | nil =>
      rw [hf, nil_append, drop_nil] at hs
      cases Option.some.inj head
      exact snap hs
    | cons oldest later => exact hr hf first head

theorem record (pass : Nat) (phase : Phase) (src : Source) :
    NodeTrace nodeId (settled ∨ src = .deterministic) start last
      (recordState nodeId pass phase src node) where
  grown := trace.grown_push trace.untouched pass phase src
  inSync _ := inSync_recordState nodeId pass phase src node
  untouched empty := absurd empty (pushBounded_ne_nil _ _ _)
  shown hr room p latest := by
    obtain ⟨hpu, hrb⟩ := pushBounded_of_room _ _ _ room
    have mem : ∀ e, e ∈ (recordState nodeId pass phase src
        node).progression ↔ e ∈ node.progression ∨ e ∈ [newSnapshot nodeId pass phase src node] :=
      fun e => (Iff.of_eq (congrArg (e ∈ ·) hpu)).trans mem_append
    rcases hr with hs | hc
    · rcases trace.shown hs hrb p latest with same | ⟨e, old, hp⟩
      · exact .inl same
      · exact .inr ⟨e, (mem e).mpr (.inl old), hp⟩
    · exact .inr ⟨_, (mem _).mpr (.inr mem_cons_self), rfl, hc⟩
  records key record found := ⟨(trace.records key record found).1, pushBounded_ne_nil _ _ _⟩
  proposed some := by
    have hb := trace.proposed some
    rw [length_recordState]
    split <;> omega

theorem rewrite (t : Text) (hs : node.progression ≠ []) :
    NodeTrace nodeId False start last (node.updateFromYaml t) where
  grown := trace.grown
  inSync impossible := impossible.elim
  untouched empty := absurd empty hs
  shown impossible := impossible.elim
  records := trace.records
  proposed := trace.proposed

theorem aiEdit {t : Text} (hs : node.progression ≠ []) (pass : Nat) (phase : Phase)
    (p : AINodeProposal) (ha : p.afterYaml = t) :
    NodeTrace nodeId True start (some p)
      (recordState nodeId pass phase .ai (node.updateFromYaml t)) :=
  { (trace.rewrite t hs).record pass phase .ai with
    inSync := fun _ => inSync_recordState nodeId pass phase .ai _
    shown := fun _ _ q hl => .inl (by rw [← Option.some.inj hl, ha]; rfl)
    proposed := fun _ => by
      have ne : 0 < (node.updateFromYaml t).progression.length := length_pos_iff.mpr hs
      rw [length_recordState, maxProgression]
      split <;> omega }

theorem register (v : Violation) (pass : Nat) (here : v.path = nodeId)
    (hs : node.progression ≠ []) : NodeTrace nodeId settled start last (node.register v pass) :=
  { trace with
    records := by
      intro k r hf
      refine ⟨?_, hs⟩
      rw [ContentNode.register, Dict.get?_insert] at hf
      split at hf
      · have hp : r.violation = v := by
          rw [← Option.some.inj hf]
          split
          · rfl
          · unfold ViolationRecord.reconfirm
            split <;> rfl
        rw [hp, here]
      · exact (trace.records k r hf).1 }

theorem updateLedger (f : ViolationKey → ViolationRecord → ViolationRecord)
    (hp : ∀ k r, (f k r).violation = r.violation) :
    NodeTrace nodeId settled start last (node.updateLedger f) :=
  { trace with
    records := by
      intro k r hf
      rw [ContentNode.updateLedger, Dict.get?_update] at hf
      obtain ⟨old, hb, rfl⟩ := map_eq_some_iff.mp hf
      rw [hp]
      exact trace.records k old hb }

end

end NodeTrace

/-- Every snapshot-less node is left alone by what edits the node. -/
def Snapshotted (g : ContentGraph) (nodeId : String) : Prop :=
  ∀ node, g.getNode nodeId = some node → node.progression ≠ []

theorem Snapshotted.modifyNode {g : ContentGraph} {nodeId : String}
    (snap : Snapshotted g nodeId) (o : String) {m : ContentNode → ContentNode}
    (hk : ∀ n : ContentNode, n.progression ≠ [] → (m n).progression ≠ []) :
    Snapshotted (g.modifyNode o m) nodeId := by
  intro n hf
  rw [ContentGraph.getNode_modifyNode] at hf
  split at hf
  next hs =>
    subst hs
    obtain ⟨old, hb, rfl⟩ := map_eq_some_iff.mp hf
    exact hk old (snap old hb)
  next => exact snap n hf

/-- The nodes of a run and its proposals, as far as they go. -/
structure Traces (g : ContentGraph) (settled : String → Prop) (proposals : List AINodeProposal)
    (h : ContentGraph) : Prop where
  nodes : ∀ nodeId node, h.getNode nodeId = some node → ∃ start, g.getNode nodeId = some start ∧
    NodeTrace nodeId (settled nodeId) start (lastProposal proposals nodeId) node
  present : ∀ p ∈ proposals, (h.getNode p.nodeId).isSome

namespace Traces

variable {g h : ContentGraph} {settled other : String → Prop} {proposals : List AINodeProposal}

theorem weaken (traces : Traces g settled proposals h)
    (hi : ∀ id, other id → settled id) : Traces g other proposals h where
  nodes id n found := by
    obtain ⟨start, hh, trace⟩ := traces.nodes id n found
    exact ⟨start, hh, trace.weaken (hi id)⟩
  present := traces.present

theorem congr {k : ContentGraph} (traces : Traces g settled proposals h)
    (hs : ∀ id, k.getNode id = h.getNode id) : Traces g settled proposals k where
  nodes id node found := traces.nodes id node ((hs id).symm.trans found)
  present p member := by
    rw [hs]
    exact traces.present p member

section

variable (traces : Traces g settled proposals h) (nodeId : String)

include traces

theorem modifyNode
    {m : ContentNode → ContentNode}
    (here : ∀ start n, h.getNode nodeId = some n →
      NodeTrace nodeId (settled nodeId) start (lastProposal proposals nodeId) n →
        NodeTrace nodeId (other nodeId) start (lastProposal proposals nodeId) (m n))
    (he : ∀ away, away ≠ nodeId → other away → settled away) :
    Traces g other proposals (h.modifyNode nodeId m) where
  nodes away n found := by
    rw [ContentGraph.getNode_modifyNode] at found
    split at found
    next hs =>
      subst hs
      obtain ⟨old, hb, rfl⟩ := map_eq_some_iff.mp found
      obtain ⟨start, hh, trace⟩ := traces.nodes away old hb
      exact ⟨start, hh, here start old hb trace⟩
    next hd =>
      obtain ⟨start, hh, trace⟩ := traces.nodes away n found
      exact ⟨start, hh, trace.weaken (he away hd)⟩
  present p member := by
    rw [ContentGraph.getNode_modifyNode]
    have old := traces.present p member
    split
    next hs =>
      rw [hs] at old
      rwa [isSome_map]
    next => exact old

theorem updateLedger {f : ViolationKey → ViolationRecord → ViolationRecord}
    (hp : ∀ k r, (f k r).violation = r.violation) :
    Traces g settled proposals (h.modifyNode nodeId (updateLedger f)) :=
  traces.modifyNode nodeId (fun _ _ _ trace => trace.updateLedger f hp) fun _ _ holds => holds

theorem resolve (remaining : List String) (fixedBy : FixedBy) (pass : Nat) (st : Status) :
    Traces g settled proposals (h.resolveViolations nodeId remaining fixedBy pass st) :=
  traces.updateLedger nodeId fun _ r => by split <;> rfl

theorem abstain (ruleIds : List String) (reasons : Dict String (String × String)) :
    Traces g settled proposals (h.abstainViolations nodeId ruleIds reasons) := by
  refine traces.updateLedger nodeId fun _ r => ?_
  split
  · unfold ViolationRecord.abstain
    split <;> rfl
  · rfl

theorem rewrite (t : Text) (hs : Snapshotted h nodeId) :
    Traces g (fun away => settled away ∧ away ≠ nodeId) proposals (h.rewrite nodeId t) :=
  have hr : Traces g (fun away => settled away ∧ away ≠ nodeId) proposals
      (h.modifyNode nodeId (updateFromYaml t)) :=
    traces.modifyNode nodeId
      (fun _ n hf trace => (trace.rewrite t (hs n hf)).weaken fun hb => hb.2 rfl)
      fun _ _ hb => hb.1
  hr.congr fun _ => rfl

theorem aiEdit {t : Text}
    (snap : Snapshotted h nodeId) (here : (h.getNode nodeId).isSome) (pass : Nat)
    (phase : Phase) {p : AINodeProposal} (tgt : p.nodeId = nodeId) (ha : p.afterYaml = t) :
    Traces g settled (proposals ++ [p])
      ((h.rewrite nodeId t).recordState nodeId pass phase .ai) := by
  have acts : ∀ away, ((h.rewrite nodeId t).recordState nodeId pass phase .ai).getNode away =
      if away = nodeId then (h.getNode nodeId).map (recordState nodeId pass phase
        .ai ∘ updateFromYaml t) else h.getNode away :=
    ((ActsOn.modifyNode nodeId (updateFromYaml t)).comp
      (ActsOn.modifyNode nodeId (recordState nodeId pass phase .ai))) h
  constructor
  · intro away n hf
    rw [acts] at hf
    rw [lastProposal_append, tgt]
    split at hf
    next hs =>
      subst hs
      obtain ⟨old, hb, rfl⟩ := map_eq_some_iff.mp hf
      obtain ⟨start, hh, trace⟩ := traces.nodes away old hb
      rw [if_pos rfl]
      exact ⟨start, hh, (trace.aiEdit (snap old hb) pass phase p ha).weaken fun _ => trivial⟩
    next hd =>
      rw [if_neg fun hs => hd hs.symm]
      exact traces.nodes away n hf
  · intro q mem
    rw [acts]
    split
    · rwa [isSome_map]
    next hd =>
      rcases mem_append.mp mem with he | new
      · exact traces.present q he
      · rw [mem_singleton.mp new] at hd
        exact absurd tgt hd

end

theorem register (traces : Traces g settled proposals h) (v : Violation) (pass : Nat)
    (hs : Snapshotted h v.path) :
    Traces g settled proposals (ContentGraph.registerViolation pass h v) :=
  traces.modifyNode v.path
    (fun _ n hf trace => trace.register v pass rfl (hs n hf))
    fun _ _ holds => holds

end Traces

section Recording

variable {g : ContentGraph} {settled : String → Prop} (nodeId : String) (ids : List String)
  (pass : Nat) (phase : Phase) (source : Source)

section

variable (s : Engine)

theorem record_aiProposals : (s.record nodeId pass phase source).aiProposals = s.aiProposals := by
  unfold record
  split <;> rfl

theorem recordAll_aiProposals : (s.recordAll ids pass phase source).aiProposals = s.aiProposals :=
  foldl_invariant (I := fun t : Engine => t.aiProposals = s.aiProposals)
    (fun t id _ hs => (record_aiProposals id pass phase source t).trans hs) s rfl

variable (other : String)

theorem record_graph_getNode : (s.record nodeId pass phase source).graph.getNode other =
      (s.graph.recordState nodeId pass phase source).getNode other := by
  unfold record
  split
  next hm =>
    rw [ContentGraph.recordState, ContentGraph.getNode_modifyNode]
    split
    next hs => rw [hs, hm, map_none]
    next => rfl
  next => rfl

theorem record_snapshotted (snap : Snapshotted s.graph other ∨ other = nodeId) :
    Snapshotted (s.record nodeId pass phase source).graph other := by
  intro n hf
  rw [record_graph_getNode, ContentGraph.recordState, ContentGraph.getNode_modifyNode] at hf
  split at hf
  next =>
    obtain ⟨before, -, rfl⟩ := map_eq_some_iff.mp hf
    exact pushBounded_ne_nil _ _ _
  next hd =>
    rcases snap with before | hs
    · exact before n hf
    · exact absurd hs hd

theorem recordAll_snapshotted (hs : Snapshotted s.graph other ∨ other ∈ ids) :
    Snapshotted (s.recordAll ids pass phase source).graph other := by
  induction ids generalizing s with
  | nil =>
    rcases hs with hb | none
    · exact hb
    · exact absurd none not_mem_nil
  | cons first rest ih =>
    refine ih (s.record first pass phase source) ?_
    rcases hs with hb | mem
    · exact .inl (record_snapshotted first pass phase source s other (.inl hb))
    · rcases mem_cons.mp mem with same | hl
      · exact .inl (record_snapshotted first pass phase source s other (.inr same))
      · exact .inr hl

theorem record_traces (traces : Traces g settled s.aiProposals s.graph) :
    Traces g (fun away => settled away ∨ (away = nodeId ∧ source = .deterministic)) s.aiProposals
      (s.record nodeId pass phase source).graph := by
  have hk : Traces g
      (fun away => settled away ∨ (away = nodeId ∧ source = .deterministic)) s.aiProposals
      (s.graph.recordState nodeId pass phase source) := by
    refine traces.modifyNode nodeId (fun _ _ _ trace => ?_) fun away hd hh => ?_
    · exact (trace.record pass phase source).weaken fun hh =>
        hh.imp_right And.right
    · exact hh.resolve_right fun hb => hd hb.1
  exact hk.congr (record_graph_getNode nodeId pass phase source s)

theorem recordAll_traces (traces : Traces g settled s.aiProposals s.graph) :
    Traces g (fun away => settled away ∨ (away ∈ ids ∧ source = .deterministic)) s.aiProposals
      (s.recordAll ids pass phase source).graph := by
  induction ids generalizing s settled with
  | nil => exact traces.weaken fun away hh => hh.resolve_right fun hb =>
      absurd hb.1 not_mem_nil
  | cons first rest ih =>
    have hs := record_traces first pass phase source s traces
    rw [← record_aiProposals first pass phase source s] at hs ⊢
    refine (ih (s.record first pass phase source) hs).weaken fun away hh => ?_
    rcases hh with hbe | ⟨mem, hc⟩
    · exact .inl (.inl hbe)
    · rcases mem_cons.mp mem with same | hl
      · exact .inl (.inr ⟨same, hc⟩)
      · exact .inr ⟨hl, hc⟩

end

end Recording

/-- The invariant of a run that starts from `g`. -/
structure RunTrace (g : ContentGraph) (s : Engine) : Prop where
  traces : Traces g (fun _ => True) s.aiProposals s.graph
  listed : ∀ v ∈ s.violations, Snapshotted s.graph v.path

/-- The nodes of a graph have names, and nothing is pending on them. -/
structure Settled (g : ContentGraph) : Prop where
  named : g.getNode "" = none
  nodes : ∀ nodeId node, g.getNode nodeId = some node → SettledNode nodeId node

section Rounds

variable {g : ContentGraph}

theorem recordViolations_aiProposals (s : Engine) (vs : List Violation) (pass : Nat) (phase : Phase)
    (dirty : List String) : (recordViolations s vs pass phase dirty).aiProposals = s.aiProposals :=
  (recordAll_aiProposals _ _ _ _ _).trans (recordAll_aiProposals _ _ _ _ _)

theorem path_enrich {vs : List Violation} (v : Violation)
    (mem : v ∈ enrichFqcnTargets vs) : ∃ w ∈ vs, v.path = w.path := by
  obtain ⟨w, hl, rfl⟩ := mem_map.mp mem
  obtain ⟨tgt, hs⟩ := enrichViolation_eq vs w
  exact ⟨w, hl, by rw [hs]⟩

/-- The nodes of reported violations are snapshotted before the violations are
registered. -/
theorem recordViolations_traces {s : Engine} (hn : g.getNode "" = none)
    (vs : List Violation) (pass : Nat) (phase : Phase) (dirty : List String)
    (traces : Traces g (fun _ => True) s.aiProposals s.graph) :
    Traces g (fun _ => True) s.aiProposals
        (recordViolations s vs pass phase dirty).graph ∧
      ∀ v ∈ enrichFqcnTargets vs,
        Snapshotted (recordViolations s vs pass phase dirty).graph v.path := by
  have first := recordAll_traces (reportedNodes vs) pass phase .unset s traces
  rw [← recordAll_aiProposals (reportedNodes vs) pass phase .unset s] at first
  have hs := recordAll_traces (dirty.filter fun id => id ∉ reportedNodes vs)
    pass phase .unset _ first
  rw [recordAll_aiProposals] at hs
  have hr : Traces g (fun _ => True) s.aiProposals _ := hs.weaken fun _ _ => .inl (.inl trivial)
  have snap : ∀ v ∈ enrichFqcnTargets vs, Snapshotted
      ((s.recordAll (reportedNodes vs) pass phase .unset).recordAll
        (dirty.filter fun id => id ∉ reportedNodes vs) pass phase
        .unset).graph v.path := by
    intro v mem
    obtain ⟨w, hl, hp⟩ := path_enrich v mem
    by_cases hb : v.path = ""
    · intro n hf
      rw [hb] at hf
      obtain ⟨start, hh, -⟩ := hr.nodes "" n hf
      rw [hn] at hh
      cases hh
    · refine recordAll_snapshotted _ _ _ _ _ _ (.inl ?_)
      refine recordAll_snapshotted _ _ _ _ _ _ (.inr ?_)
      rw [reportedNodes, mem_dedup, mem_filter]
      exact ⟨mem_map.mpr ⟨w, hl, hp.symm⟩, decide_eq_true hb⟩
  refine foldl_invariant (I := fun h : ContentGraph => Traces g (fun _ => True) s.aiProposals h ∧
    ∀ v ∈ enrichFqcnTargets vs, Snapshotted h v.path) ?_ _ ⟨hr, snap⟩
  rintro h v mem ⟨hsf, all⟩
  exact ⟨hsf.register v pass (all v mem), fun o hl =>
    (all o hl).modifyNode v.path fun _ hk => hk⟩

theorem listed_collectViolations (h : ContentGraph) (ps : List AINodeProposal)
    (traces : Traces g (fun _ => True) ps h) :
    ∀ v ∈ h.collectViolations, Snapshotted h v.path := by
  intro v mem
  obtain ⟨r, hq, rfl⟩ := mem_map.mp mem
  obtain ⟨n, hg, hl⟩ := mem_flatMap.mp hq
  obtain ⟨nodeId, hf⟩ := (Dict.mem_values_iff _ _).mp hg
  obtain ⟨k, hk⟩ := (Dict.mem_values_iff _ _).mp (mem_filter.mp hl).1
  obtain ⟨start, -, trace⟩ := traces.nodes nodeId n hf
  obtain ⟨p, hs⟩ := trace.records k r hk
  intro o ho
  have hp : r.report.path = nodeId := p
  rw [hp] at ho
  cases Option.some.inj (hf.symm.trans ho)
  exact hs

variable (cfg : EngineConfig)

theorem rescanAndCollect_trace (hn : g.getNode "" = none) (pass : Nat)
    (fixedBy : FixedBy) (st : Status) (s : Engine) (trace : RunTrace g s) :
    Holds (RunTrace g) (fun _ => True) (rescanAndCollect cfg pass fixedBy st s) := by
  simp only [rescanAndCollect, rescanAndRecord]
  generalize s.graph.expandDirtyNodeIds cfg.rules s.graph.dirtyNodes = dirty
  cases rescanAnswer cfg s.rescans s.graph dirty with
  | none => trivial
  | some new =>
    obtain ⟨hk, -⟩ := recordViolations_traces hn new pass .scanned dirty trace.traces
    have hd : Traces g (fun _ => True) s.aiProposals (resolveDirtyViolations
        (recordViolations s new pass .scanned dirty).graph new dirty fixedBy pass st) :=
      foldl_invariant (fun h id _ hf => hf.resolve id _ _ _ _) _ hk
    have hl := listed_collectViolations _ _ hd
    rw [← recordViolations_aiProposals s new pass .scanned dirty] at hd
    exact ⟨⟨hd.nodes, hd.present⟩, hl⟩

theorem startRun_trace (settled : Settled g)
    (init : Option (List Violation)) : RunTrace g (startRun cfg g init) := by
  have hs : Traces g (fun _ => True) ({ graph := g } : Engine).aiProposals g :=
    ⟨fun id n hf =>
      ⟨n, hf, NodeTrace.start_trace (settled.nodes id n hf)⟩,
      fun _ mem => absurd mem not_mem_nil⟩
  obtain ⟨hk, snap⟩ := recordViolations_traces settled.named
    (initialViolations cfg g init) 0 .scanned [] hs
  rw [← recordViolations_aiProposals { graph := g } (initialViolations cfg g init) 0 .scanned []]
    at hk
  exact ⟨hk, snap⟩

/-- While a Tier 1 round goes on, nodes ahead of their snapshots are dirty. -/
structure Tier1Trace (g : ContentGraph) (s acc : Engine) : Prop where
  traces : Traces g (fun nodeId => nodeId ∉ acc.graph.dirtyNodes) s.aiProposals acc.graph
  proposals : acc.aiProposals = s.aiProposals
  violations : acc.violations = s.violations
  listed : ∀ v ∈ s.violations, Snapshotted acc.graph v.path

theorem tier1Step_trace (s : Engine) {acc : Engine × Nat} (v : Violation)
    (hk : v ∈ s.violations) (ht : Tier1Trace g s acc.1) :
    Holds (fun r => Tier1Trace g s r.1) (fun _ => True) (tier1Step cfg acc v) := by
  unfold tier1Step
  split
  · exact ht
  next transform _ =>
    rcases ContentGraph.applyTransform_cases acc.1.graph v.path transform v with
      hra | hs | ⟨text, hr⟩
    · simp only [log, hra]
      trivial
    · simp only [log, hs]
      exact ⟨ht.traces, ht.proposals, ht.violations, ht.listed⟩
    · simp only [log, hr]
      refine ⟨(ht.traces.rewrite v.path text (ht.listed v hk)).weaken ?_,
        ht.proposals, ht.violations, fun w mem => ?_⟩
      · intro id hc
        exact ⟨fun old => hc
            ((ContentGraph.mem_dirtyNodes_markDirty _ _ _).mpr (.inr old)),
          fun hs => hc ((ContentGraph.mem_dirtyNodes_markDirty _ _ _).mpr (.inl hs))⟩
      · exact (ht.listed w mem).modifyNode v.path fun _ kept => kept

theorem applyTier1_trace {tier1 : List Violation} (pass : Nat)
    (s : Engine) (hk : ∀ v ∈ tier1, v ∈ s.violations) (trace : RunTrace g s) :
    Holds (fun r => RunTrace g r.1) (fun _ => True) (applyTier1 cfg tier1 pass s) := by
  refine Holds.map (M := fun acc => Tier1Trace g s acc.1) ?_ fun acc hm => ?_
  · exact Holds.foldlM (fun acc v mem hf => tier1Step_trace cfg s v (hk v mem) hf)
      (s, 0) ⟨trace.traces.weaken fun _ _ => trivial, rfl, rfl, trace.listed⟩
  · have ht := hm.traces
    rw [← hm.proposals] at ht
    have kept : Traces g (fun _ => True) acc.1.aiProposals _ :=
      (recordAll_traces acc.1.graph.dirtyNodes pass .transformed .deterministic acc.1
        ht).weaken fun id _ => by
          by_cases hd : id ∈ acc.1.graph.dirtyNodes
          · exact .inr ⟨hd, rfl⟩
          · exact .inl hd
    rw [← recordAll_aiProposals acc.1.graph.dirtyNodes pass .transformed .deterministic
      acc.1] at kept
    refine ⟨kept, fun v mem => ?_⟩
    rw [violations_recordAll, hm.violations] at mem
    exact recordAll_snapshotted _ _ _ _ _ _ (.inl (hm.listed v mem))

section

variable (pass : Nat) (s : Engine) (nodeId : String) (node : ContentNode)

theorem acceptFix_violations (fix : AINodeFix) (beforeYaml : Text) :
    (acceptFix pass s nodeId node fix beforeYaml).violations = s.violations :=
  violations_recordAll s [nodeId] pass .transformed .ai

theorem acceptFix_trace
    (text : Text) (fix : AINodeFix) (beforeYaml : Text) (hf : s.graph.getNode nodeId = some node)
    (hs : Snapshotted s.graph nodeId) (trace : RunTrace g s) :
    RunTrace g (acceptFix pass { s with graph := s.graph.rewrite nodeId text } nodeId node fix
      beforeYaml) := by
  have ha : (aiProposal (s.graph.rewrite nodeId text) nodeId node fix beforeYaml).afterYaml =
      text := by
    have rewr : (s.graph.rewrite nodeId text).getNode nodeId = some (node.updateFromYaml text) :=
      (ContentGraph.getNode_modifyNode_self _ _ _).trans (by rw [hf]; rfl)
    rw [aiProposal, rewr]
    rfl
  have he := trace.traces.aiEdit nodeId hs (by rw [hf]; rfl) pass .transformed rfl ha
  have hr := he.congr (record_graph_getNode nodeId pass .transformed .ai
    { s with graph := s.graph.rewrite nodeId text })
  have hp := record_aiProposals nodeId pass .transformed .ai
    { s with graph := s.graph.rewrite nodeId text }
  constructor
  · rw [acceptFix, hp]
    exact hr.abstain nodeId _ _
  · intro v mem
    rw [acceptFix_violations] at mem
    have rewr : Snapshotted (s.graph.rewrite nodeId text) v.path :=
      (trace.listed v mem).modifyNode nodeId fun _ hk => hk
    exact (record_snapshotted nodeId pass .transformed .ai _ v.path (.inl rewr)).modifyNode
      nodeId fun _ hk => hk

end

theorem applyFix_trace (pass : Nat) {acc : Engine × List String} {res : String × ProposeResult}
    (hk : ∃ v ∈ acc.1.violations, v.path = res.1) (ht : RunTrace g acc.1) :
    RunTrace g (applyFix pass acc res).1 ∧
      (applyFix pass acc res).1.violations = acc.1.violations := by
  rcases applyFix_cases pass acc res with
    hu | ⟨fix, beforeYaml, node, text, -, hf, -, ha⟩
  · rw [hu]
    exact ⟨ht, rfl⟩
  · rw [ha]
    obtain ⟨v, hl, hp⟩ := hk
    have hs : Snapshotted acc.1.graph res.1 := hp ▸ ht.listed v hl
    exact ⟨acceptFix_trace pass acc.1 res.1 node text fix beforeYaml hf hs ht,
      acceptFix_violations pass _ res.1 node fix beforeYaml⟩

theorem aiResults_known (prov : AIProvider) (attempt : Nat) (h : ContentGraph)
    (fb : Dict String String) (tier2 : List Violation) {res : String × ProposeResult}
    (mem : res ∈ aiResults prov attempt h fb tier2) : ∃ v ∈ tier2, v.path = res.1 := by
  have key : res.1 ∈ (aiGroups tier2).map Prod.fst := (of_mem_zip mem).1
  obtain ⟨v, ht, p⟩ := (Dict.mem_keys_groupBy _ _ _).mp key
  exact ⟨v, (mem_filter.mp ht).1, p⟩

theorem applyResults_trace (pass : Nat) (tier2 : List Violation)
    (ress : List (String × ProposeResult)) {s : Engine}
    (hk : ∀ res ∈ ress, ∃ v ∈ s.violations, v.path = res.1) (trace : RunTrace g s) :
    RunTrace g (applyResults pass tier2 ress s) := by
  have ha : RunTrace g (ress.foldl (applyFix pass) (s, [])).1 ∧
      (ress.foldl (applyFix pass) (s, [])).1.violations = s.violations := by
    refine foldl_invariant (I := fun acc : Engine × List String =>
      RunTrace g acc.1 ∧ acc.1.violations = s.violations) ?_ (s, []) ⟨trace, rfl⟩
    rintro acc res mem ⟨hf, hs⟩
    obtain ⟨hn, hu⟩ := applyFix_trace pass
      (by rw [hs]; exact hk res mem) hf
    exact ⟨hn, hu.trans hs⟩
  refine ⟨?_, ?_⟩
  · refine foldl_invariant (fun h group _ hf => ?_) _ ha.1.traces
    unfold abstainStep
    split
    · exact hf
    · exact hf.abstain _ _ _
  · refine foldl_invariant (I := fun h : ContentGraph =>
      ∀ v ∈ (ress.foldl (applyFix pass) (s, [])).1.violations, Snapshotted h v.path)
      (fun h group _ hf => ?_) _ ha.1.listed
    unfold abstainStep
    split
    · exact hf
    · exact fun v mem => (hf v mem).modifyNode _ fun _ kept => kept

theorem applyAiTransforms_trace (prov : AIProvider) {tier2 : List Violation} (pass attempt : Nat)
    (fb : Dict String String) (s : Engine) (hk : ∀ v ∈ tier2, v ∈ s.violations)
    (trace : RunTrace g s) : RunTrace g (applyAiTransforms prov tier2 pass attempt fb s) := by
  unfold applyAiTransforms
  dsimp only
  split
  · exact ⟨trace.traces, trace.listed⟩
  · refine applyResults_trace pass tier2 _ ?_ ⟨trace.traces, trace.listed⟩
    intro res mem
    obtain ⟨v, ht, p⟩ := aiResults_known _ _ _ _ _ mem
    exact ⟨v, hk v ht, p⟩

theorem runTrace_invariant (opts : RemediateOptions)
    (hn : g.getNode "" = none) : RunInvariant cfg opts (RunTrace g) fun _ => True where
  tier1 _ pass s hk trace := applyTier1_trace cfg pass s hk trace
  rescan pass s trace := rescanAndCollect_trace cfg hn pass _ _ s trace
  ai provider _ pass l s _ hk trace := aiRound_good cfg
    (applyAiTransforms_trace provider pass l.aiAttempts l.aiFeedback s hk trace)
    (rescanAndCollect_trace cfg hn pass .ai .proposed)

end Rounds

section Outcome

variable {nodeId : String} {start node : ContentNode} {last : Option AINodeProposal}

theorem rollback_text_eq {first : Nat} (hp : firstUnapproved node.progression = some first)
    {kept : NodeState} (hl : (node.progression.take (max first 1)).getLast? = some kept) :
    node.rollback.yamlLines = kept.yamlLines := by
  unfold rollback
  rw [hp]
  simp only [hl]
  rfl

theorem rollback_text_of_approved (none : firstUnapproved node.progression = none) :
    node.rollback.yamlLines = node.yamlLines := by
  unfold rollback
  rw [none]

/-- Where nothing pending of the start is needed: the start was approved as a
whole, and some of it is still there. -/
theorem rollback_text_of_kept (settled : SettledNode nodeId start)
    (trace : NodeTrace nodeId True start last node)
    (approved : firstUnapproved start.progression = none)
    (kept : node.progression.any NodeState.approved) :
    node.rollback.yamlLines = start.yamlLines := by
  obtain ⟨es, gone, hs, -, hu, -⟩ := trace.grown
  have le : gone < start.progression.length := by
    obtain ⟨e, mem, ha⟩ := any_eq_true.mp kept
    by_contra hn
    rw [hs, drop_append, drop_eq_nil_of_le (Nat.le_of_not_lt hn), nil_append] at mem
    rw [hu e (mem_of_mem_drop mem)] at ha
    cases ha
  rw [drop_append_of_le_length (Nat.le_of_lt le)] at hs
  have hl : (start.progression.drop gone).getLast? = start.progression.getLast? := by
    rw [getLast?_drop, if_neg (Nat.not_le_of_lt le)]
  obtain ⟨e, he⟩ := Option.ne_none_iff_exists'.mp
    (mt List.getLast?_eq_none_iff.mp (length_pos_iff.mp (Nat.zero_lt_of_lt le)))
  have old : firstUnapproved (start.progression.drop gone) = none := by
    rw [firstUnapproved, List.findIdx?_eq_none_iff] at approved ⊢
    exact fun e mem => approved e (mem_of_mem_drop mem)
  have hp : firstUnapproved node.progression =
      (firstUnapproved es).map (· + (start.progression.drop gone).length) := by
    rw [hs, firstUnapproved, List.findIdx?_append, ← firstUnapproved, old, none_or]
    rfl
  cases es with
  | nil =>
    rw [append_nil] at hs
    rw [rollback_text_of_approved hp, ← settled.inSync e he]
    exact (trace.inSync trivial e (by rw [hs, hl, he])).symm
  | cons added later =>
    -- the first snapshot of the run is the first pending one
    have first : firstUnapproved (added :: later) = some 0 := by
      simp [firstUnapproved, List.findIdx?_cons, hu added mem_cons_self]
    have long : max (start.progression.drop gone).length 1 =
        (start.progression.drop gone).length := by
      rw [length_drop]
      omega
    rw [first, map_some, Nat.zero_add] at hp
    rw [rollback_text_eq hp (by rw [long, hs, take_left, hl]; exact he)]
    exact settled.inSync e he

theorem rollback_text (settled : SettledNode nodeId start)
    (trace : NodeTrace nodeId True start last node)
    (hr : node.progression.length < maxProgression) :
    node.rollback.yamlLines = start.yamlLines := by
  obtain ⟨es, gone, hs, hz, hu, hro⟩ := trace.grown
  rw [hz hr, drop_zero] at hs
  cases hb : firstUnapproved start.progression with
  | some first =>
    -- the cut lies inside the progression of the start
    have hp : firstUnapproved node.progression = some first := by
      rw [hs, firstUnapproved, List.findIdx?_append, ← firstUnapproved, hb, some_or]
    have hi : max first 1 ≤ start.progression.length := by
      have hbo := (List.findIdx?_eq_some_iff_getElem.mp hb).1
      omega
    have hc : node.progression.take (max first 1) = start.progression.take (max first 1) := by
      rw [hs, take_append_of_le_length hi]
    have hn : start.progression.take (max first 1) ≠ [] := by
      rw [ne_eq, take_eq_nil_iff, not_or, ← length_eq_zero_iff]
      omega
    have hl := List.getLast?_eq_some_getLast hn
    rw [rollback_text_eq hp (by rw [hc]; exact hl), ← rollback_text_eq hb hl]
    exact settled.restored
  | none =>
    cases hf : start.progression with
    | cons e later =>
      refine rollback_text_of_kept settled trace hb ?_
      rw [firstUnapproved, List.findIdx?_eq_none_iff] at hb
      have ha : e.approved := by simpa using hb e (by rw [hf]; exact mem_cons_self)
      rw [hs, hf, cons_append, any_cons, ha, Bool.true_or]
    | nil =>
      rw [hf, nil_append] at hs
      cases es with
      | nil =>
        rw [rollback_text_of_approved (by rw [hs]; rfl)]
        exact trace.untouched hs
      | cons added later =>
        have hp : firstUnapproved node.progression = some 0 := by
          simp [hs, firstUnapproved, List.findIdx?_cons, hu added mem_cons_self]
        rw [rollback_text_eq hp (by rw [hs]; rfl)]
        exact hro hf added rfl

theorem lastApproved_append (steps es : List NodeState)
    (hu : ∀ e ∈ es, e.approved = false) :
    lastApproved (steps ++ es) = lastApproved steps := by
  have none : es.filter approved = [] := by
    rw [filter_eq_nil_iff]
    intro e mem
    rw [hu e mem]
    exact Bool.false_ne_true
  rw [lastApproved, filter_append, none, append_nil, lastApproved]

theorem baseline_text (settled : SettledNode nodeId start)
    (trace : NodeTrace nodeId True start last node)
    (hr : node.progression.length < maxProgression) {first : NodeState}
    (ho : node.progression.head? = some first) :
    ((lastApproved node.progression).getD first).yamlLines = start.yamlLines := by
  obtain ⟨es, gone, hs, hz, hu, hro⟩ := trace.grown
  rw [hz hr, drop_zero] at hs
  rw [hs, lastApproved_append _ _ hu]
  rw [hs] at ho
  cases hf : start.progression with
  | nil =>
    rw [hf, nil_append] at ho
    exact hro hf first ho
  | cons baseline later =>
    rw [hf, cons_append, List.head?_cons] at ho
    have hk := settled.baseline first (by rw [hf]; exact ho)
    rwa [hf] at hk

theorem approved_text (trace : NodeTrace nodeId True start last node)
    (hs : node.progression ≠ []) :
    ((lastApproved (node.approvePending none).progression).or
      (node.approvePending none).progression.head?).map NodeState.yamlLines =
        some node.yamlLines := by
  have all : (node.approvePending none).progression.filter approved =
      (node.approvePending none).progression := by
    rw [filter_eq_self]
    intro e mem
    obtain ⟨old, -, rfl⟩ := mem_map.mp mem
    rfl
  have hl := List.getLast?_eq_some_getLast hs
  have approved : lastApproved (node.approvePending none).progression =
      some (approveIf none (node.progression.getLast hs)) := by
    rw [lastApproved, all, approvePending, List.getLast?_map, hl]
    rfl
  rw [approved, some_or, map_some, ← trace.inSync trivial _ hl]
  rfl

end Outcome

end Apme.Remediation
