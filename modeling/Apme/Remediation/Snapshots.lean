import Apme.Graph.Frame
import Apme.Remediation.Invariant

/-!
# The snapshots of a run

The events of a run determine the progressions at its end: every progression is
the one at the start with the snapshots of the run pushed to it, all of them
unapproved.  A rescan takes a snapshot of every node that is dirty.
-/

set_option autoImplicit false

namespace Apme.Remediation

open Apme.Lib Apme.Graph List Option Engine Keeps ContentGraph EngineEvent

def EngineEvent.snapshotOf (nodeId : String) : EngineEvent → Option Source
  | .snapshot other source => if other = nodeId then some source else none
  | .transformCall _ => none
  | .aiRequest _ => none
  | .rescan _ => none

/-- The sources of the snapshots taken of a node, oldest first. -/
def Engine.snapshots (s : Engine) (nodeId : String) : List Source :=
  s.events.filterMap (snapshotOf nodeId)

def Engine.lastSource (s : Engine) (nodeId : String) : Option Source :=
  (s.snapshots nodeId).getLast?

def marks (node : ContentNode) : List (Bool × Source) :=
  node.progression.map fun entry => (entry.approved, entry.source)

/-- The progressions are those of `g` with the snapshots of the run pushed. -/
def Tracked (g : ContentGraph) (s : Engine) : Prop :=
  ∀ nodeId, (s.graph.getNode nodeId).map marks =
    (g.getNode nodeId).map fun node =>
      ((s.snapshots nodeId).map fun source => (false, source)).foldl
        (pushBounded maxProgression) (marks node)

/-- No snapshot is taken from `s` to `t`. -/
structure Quiet (s t : Engine) : Prop where
  keeps : Keeps marks s.graph t.graph
  snapshots : ∀ nodeId, t.snapshots nodeId = s.snapshots nodeId

namespace Quiet

variable (s : Engine)

theorem trans {s t u : Engine} (first : Quiet s t) (hs : Quiet t u) : Quiet s u :=
  ⟨first.keeps.trans hs.keeps, fun id => (hs.snapshots id).trans (first.snapshots id)⟩

theorem tracked {g : ContentGraph} {s t : Engine} (hq : Quiet s t) (ht : Tracked g s) :
    Tracked g t := by
  intro id
  rw [hq.keeps id, hq.snapshots id]
  exact ht id

theorem lastSource {s t : Engine} (hq : Quiet s t) (id : String) :
    t.lastSource id = s.lastSource id := by
  rw [Engine.lastSource, hq.snapshots id]
  rfl

theorem graph {s : Engine} {h : ContentGraph} (hk : Keeps marks s.graph h) :
    Quiet s { s with graph := h } :=
  ⟨hk, fun _ => rfl⟩

theorem log (events : List EngineEvent)
    (ho : ∀ id, events.filterMap (snapshotOf id) = []) :
    Quiet s (s.log events) := by
  refine ⟨Keeps.refl _, fun id => ?_⟩
  rw [Engine.snapshots, Engine.log, filterMap_append, ho id, append_nil]
  rfl

theorem register (vs : List Violation) (pass : Nat) :
    Quiet s { s with graph := s.graph.registerViolations vs pass } :=
  graph (registerViolations (fun _ _ => rfl) vs pass)

end Quiet

section Record

variable (s : Engine) (id other : String) (pass : Nat) (phase : Phase) (source : Source)

theorem record_snapshots :
    (s.record id pass phase source).snapshots other =
      if other = id ∧ (s.graph.getNode id).isSome then s.snapshots other ++ [source]
      else s.snapshots other := by
  unfold record
  cases hf : s.graph.getNode id with
  | none => simp
  | some n =>
    simp only [snapshots, log, filterMap_append, isSome_some, and_true]
    by_cases hs : other = id
    · simp [hs, snapshotOf]
    · have hd : id ≠ other := fun he => hs he.symm
      simp [hs, hd, snapshotOf]

theorem record_isSome :
    ((s.record id pass phase source).graph.getNode other).isSome =
      (s.graph.getNode other).isSome := by
  unfold record
  cases hf : s.graph.getNode id with
  | none => rfl
  | some n =>
    simp only [log, recordState, getNode_modifyNode]
    split
    next hs => simp [hs]
    next => rfl

theorem record_dirtyNodes :
    (s.record id pass phase source).graph.dirtyNodes = s.graph.dirtyNodes := by
  unfold record
  split <;> rfl

theorem marks_recordState (n : ContentNode) :
    marks (ContentNode.recordState id pass phase source n) =
      pushBounded maxProgression (marks n) (false, source) :=
  map_pushBounded _ _ _ _

theorem record_tracked (g : ContentGraph) (ht : Tracked g s) :
    Tracked g (s.record id pass phase source) := by
  intro o
  have old := ht o
  rw [record_snapshots]
  unfold record
  cases hf : s.graph.getNode id with
  | none => simpa using old
  | some n =>
    simp only [log, recordState, getNode_modifyNode,
      isSome_some, and_true]
    split
    next hs =>
      subst hs
      rw [hf] at old
      obtain ⟨start, his, hh⟩ := map_eq_some_iff.mp old.symm
      rw [hf, his, map_some, map_some, map_some,
        marks_recordState, ← hh, map_append, foldl_append]
      rfl
    next => exact old

end Record

/-- The operations of a round take snapshots of one source. -/
theorem Runs.snapshots {may : EngineOp → Prop} {src : Source} {g : ContentGraph} {s t : Engine}
    (hr : Runs may s t)
    (hta : ∀ id pass phase o, may (.record id pass phase o) → o = src)
    (hc : ∀ event, may (.log event) → ∀ id, event.snapshotOf id = none) (ht : Tracked g s) :
    Tracked g t ∧ ∀ id, t.lastSource id = some src ∨ t.lastSource id = s.lastSource id := by
  induction hr with
  | refl => exact ⟨ht, fun _ => .inr rfl⟩
  | @tail t op _ ha ih =>
    have hs (hq : Quiet t (op.apply t)) : Tracked g (op.apply t) ∧ ∀ id,
        (op.apply t).lastSource id = some src ∨ (op.apply t).lastSource id = s.lastSource id :=
      ⟨hq.tracked ih.1, fun id => hq.lastSource id ▸ ih.2 id⟩
    cases op with
    | record id pass phase o =>
      cases hta id pass phase o ha
      refine ⟨record_tracked _ _ _ _ _ _ ih.1, fun o => ?_⟩
      rw [EngineOp.apply, lastSource, record_snapshots]
      split
      · exact .inl getLast?_concat
      · exact ih.2 o
    | rewrite id text => exact hs (.graph (rewrite id fun _ => rfl))
    | register v pass => exact hs (.register t [v] pass)
    | resolve id rem fixedBy pass status =>
      exact hs (.graph (resolveViolations (fun _ _ => rfl) id rem fixedBy pass status))
    | abstain id ruleIds reasons => exact hs (.graph (abstainViolations (fun _ _ => rfl) id ruleIds reasons))
    | clearDirty => exact hs (.graph clearDirty)
    | log event => exact hs (.log t _ fun id => by simp [hc event ha id])
    | note => exact hs ⟨Keeps.refl _, fun _ => rfl⟩

section RecordAll

variable (ids : List String) (pass : Nat) (phase : Phase) (source : Source)

theorem recordAll_isSome (s : Engine) (o : String) :
    ((s.recordAll ids pass phase source).graph.getNode o).isSome = (s.graph.getNode o).isSome :=
  foldl_invariant
    (I := fun t : Engine => (t.graph.getNode o).isSome = (s.graph.getNode o).isSome)
    (fun st id _ hf =>
      (record_isSome st id o pass phase source).trans hf) s rfl

theorem recordAll_lastSource (s : Engine) (id : String) :
    (s.recordAll ids pass phase source).lastSource id =
      if id ∈ ids ∧ (s.graph.getNode id).isSome then some source
      else s.lastSource id := by
  induction ids generalizing s with
  | nil => simp [recordAll]
  | cons first rest ih =>
    have step := ih (s.record first pass phase source)
    rw [record_isSome] at step
    rw [recordAll, foldl_cons, ← recordAll, step]
    simp only [mem_cons]
    by_cases hp : (s.graph.getNode id).isSome
    · by_cases hl : id ∈ rest
      · simp [hp, hl]
      · by_cases hs : id = first
        · subst hs
          simp [hl, hp, lastSource, record_snapshots]
        · simp [hl, hs, lastSource, record_snapshots]
    · by_cases hs : id = first
      · subst hs
        simp [hp, lastSource, record_snapshots]
      · simp [hp, hs, lastSource, record_snapshots]

end RecordAll

section Rounds

variable {cfg : EngineConfig} {g : ContentGraph}

section

variable (s : Engine) (violations : List Violation) (pass : Nat) (phase : Phase)
  (dirty : List String)

theorem recordViolations_lastSource (id : String) :
    (recordViolations s violations pass phase dirty).lastSource id =
      if (id ∈ reportedNodes violations ∨ id ∈ dirty) ∧ (s.graph.getNode id).isSome then
        some .unset
      else s.lastSource id := by
  rw [recordViolations, (Quiet.register _ _ _).lastSource, recordAll_lastSource,
    recordAll_isSome, recordAll_lastSource]
  by_cases here : (s.graph.getNode id).isSome
  · by_cases hr : id ∈ reportedNodes violations
    · simp [here, hr]
    · by_cases hD : id ∈ dirty
      · simp [here, hr, hD]
      · simp [hr, hD]
  · simp [here]

end

theorem resolveDirty_keeps (h : ContentGraph) (vs : List Violation) (dirty : List String)
    (fixedBy : FixedBy) (pass : Nat) (st : Status) :
    Keeps marks h (resolveDirtyViolations h vs dirty fixedBy pass st) :=
  foldl (fun _ _ => resolveViolations (fun _ _ => rfl) _ _ _ _ _) dirty h

variable (pass : Nat)

theorem rescanAndCollect_snapshots (fixedBy : FixedBy) (st : Status)
    (s : Engine) (ht : Tracked g s) :
    Holds (fun t => Tracked g t ∧
        ∀ id, t.lastSource id = some .unset ∨
          (t.lastSource id = s.lastSource id ∧
            ¬ (id ∈ s.graph.dirtyNodes ∧ (s.graph.getNode id).isSome)))
      (fun _ => True) (rescanAndCollect cfg pass fixedBy st s) := by
  simp only [rescanAndCollect, rescanAndRecord]
  generalize hD : s.graph.expandDirtyNodeIds cfg.rules s.graph.dirtyNodes = dirty
  cases rescanAnswer cfg s.rescans s.graph dirty with
  | none => trivial
  | some new =>
    have hk := ((recordViolations_runs s new pass .scanned dirty).snapshots (fun _ _ _ _ => id) (fun _ => False.elim) ht).1
    have hd := (Quiet.graph ((resolveDirty_keeps (recordViolations s new pass .scanned dirty).graph new dirty
      fixedBy pass st).trans clearDirty)).trans (Quiet.log _ [.rescan new] fun _ => rfl)
    refine ⟨hd.tracked hk, fun id => ?_⟩
    have last := (hd.lastSource id).trans (recordViolations_lastSource s new pass .scanned dirty id)
    split at last
    next => exact .inl last
    next hu =>
      refine .inr ⟨last, fun he => hu ⟨.inr (hD ▸ ?_), he.2⟩⟩
      exact mem_expandDirtyNodeIds _ _ he.1

/-- While AI answers are applied, a node whose last snapshot is the AI's is dirty. -/
def AiNodesDirty (s : Engine) : Prop :=
  ∀ nodeId, s.lastSource nodeId = some .ai →
    nodeId ∈ s.graph.dirtyNodes ∧ (s.graph.getNode nodeId).isSome

section

variable (pass : Nat) (s : Engine) (id : String) (node : ContentNode) (fix : AINodeFix)
  (beforeYaml : Text)

theorem acceptFix_snapshots :
    Quiet (s.record id pass .transformed .ai) (acceptFix pass s id node fix beforeYaml) :=
  ⟨abstainViolations (fun _ _ => rfl) _ _ _, fun _ => rfl⟩

theorem acceptFix_dirtyNodes :
    (acceptFix pass s id node fix beforeYaml).graph.dirtyNodes = s.graph.dirtyNodes :=
  record_dirtyNodes s id pass .transformed .ai

end

theorem applyFix_snapshots {acc : Engine × List String}
    (res : String × ProposeResult) (hd : AiNodesDirty acc.1) : AiNodesDirty
    (applyFix pass acc res).1 := by
  rcases applyFix_cases pass acc res with
    hs | ⟨fix, y, n, text, -, hf, -, hap⟩
  · rw [hs]
    exact hd
  · rw [hap]
    have hr : Quiet acc.1 { acc.1 with graph := acc.1.graph.rewrite res.1 text } :=
      Quiet.graph (rewrite res.1 fun _ => rfl)
    have ht := acceptFix_snapshots pass
      { acc.1 with graph := acc.1.graph.rewrite res.1 text } res.1 n fix y
    intro id ha
    rw [ht.lastSource, lastSource, record_snapshots] at ha
    rw [acceptFix_dirtyNodes, ht.keeps.isSome_iff, record_isSome,
      hr.keeps.isSome_iff, ContentGraph.rewrite, ContentGraph.mem_dirtyNodes_markDirty]
    by_cases hs : id = res.1
    · subst hs
      exact ⟨.inl rfl, by rw [hf]; rfl⟩
    · rw [if_neg (fun hb => hs hb.1), hr.snapshots] at ha
      obtain ⟨hdi, here⟩ := hd id ha
      exact ⟨.inr hdi, here⟩

theorem sendRequests_quiet (s : Engine) (fb : Dict String String)
    (tier2 : List Violation) : Quiet s (sendRequests s fb tier2) := by
  refine Quiet.log s _ fun id => ?_
  rw [filterMap_map]
  exact filterMap_eq_nil_iff.mpr fun _ _ => rfl

section

variable (proposed : List String) (results : List (String × ProposeResult)) (h : ContentGraph)
  (group : String × List Violation)

theorem abstainStep_keeps : Keeps marks h (abstainStep proposed results h group) := by
  unfold abstainStep
  split
  · exact refl h
  · exact abstainViolations (fun _ _ => rfl) _ _ _

theorem abstainStep_dirtyNodes :
    (abstainStep proposed results h group).dirtyNodes = h.dirtyNodes := by
  unfold abstainStep
  split <;> rfl

end

theorem applyResults_snapshots (tier2 : List Violation)
    (results : List (String × ProposeResult)) (s : Engine) (dirty : AiNodesDirty s) :
    AiNodesDirty (applyResults pass tier2 results s) := by
  have ha : AiNodesDirty (results.foldl (applyFix pass) (s, [])).1 :=
    foldl_invariant (I := fun acc : Engine × List String => AiNodesDirty acc.1)
      (fun acc res _ hf => applyFix_snapshots pass res hf) (s, []) dirty
  simp only [applyResults]
  generalize results.foldl (applyFix pass) (s, []) = acc at ha
  have hk : Keeps marks acc.1.graph
      ((aiGroups tier2).foldl (abstainStep acc.2 results) acc.1.graph) :=
    foldl (abstainStep_keeps acc.2 results) _ _
  have hd : ((aiGroups tier2).foldl (abstainStep acc.2 results) acc.1.graph).dirtyNodes =
      acc.1.graph.dirtyNodes :=
    foldl_invariant (I := fun h : ContentGraph => h.dirtyNodes = acc.1.graph.dirtyNodes)
      (fun h group _ hf => (abstainStep_dirtyNodes acc.2 results h group).trans hf) _ rfl
  intro id hla
  obtain ⟨hD, here⟩ := ha id hla
  exact ⟨hd ▸ hD, by rw [hk.isSome_iff]; exact here⟩

theorem applyAiTransforms_snapshots (prov : AIProvider) (tier2 : List Violation)
    (pass attempt : Nat) (fb : Dict String String) (s : Engine) (dirty : AiNodesDirty s) :
    AiNodesDirty (applyAiTransforms prov tier2 pass attempt fb s) := by
  have hd : AiNodesDirty (sendRequests s fb tier2) := by
    intro id ha
    rw [(sendRequests_quiet s fb tier2).lastSource] at ha
    exact dirty id ha
  simp only [applyAiTransforms]
  split
  · exact hd
  · exact applyResults_snapshots pass tier2 _ _ hd

end Rounds

end Apme.Remediation
