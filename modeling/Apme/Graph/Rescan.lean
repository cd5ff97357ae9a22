import Apme.Graph.Queries

/-!
# Incremental rescans

A rescan evaluates the dirty nodes and those ancestors of theirs whose type an
enabled aggregate rule is about.  When every rule looks no further than its
scope says, the results of the rescan and the old results elsewhere are the
results of a scan of the whole edited graph.
-/

set_option autoImplicit false

namespace Apme.Graph

open Apme.Lib List Option GraphRule GraphNodeResult ContentNode

/-- A path of positional edges leads from the ancestor down to the node. -/
def HasAncestor (g : ContentGraph) (nodeId ancestor : String) : Prop :=
  Leads g.positionalParents nodeId ancestor

theorem ancestorLoop_eq (g : ContentGraph) (fuel : Nat) (stack seen : List String) :
    g.ancestorLoop fuel stack seen = worklist g.positionalParents fuel stack seen := by
  induction fuel generalizing stack seen with
  | zero => rfl
  | succ fuel ih =>
    cases stack with
    | nil => rfl
    | cons current stack => exact ih _ _

theorem positionalParents_subset (g : ContentGraph) (id : String) :
    g.positionalParents id ⊆ g.edges.map Edge.source := by
  intro par mem
  obtain ⟨e, hf, rfl⟩ := mem_map.mp mem
  exact mem_map_of_mem (mem_filter.mp hf).1

theorem mem_positionalAncestorIds_iff (g : ContentGraph) (id ancestor : String) :
    ancestor ∈ g.positionalAncestorIds id ↔ HasAncestor g id ancestor := by
  unfold ContentGraph.positionalAncestorIds
  rw [ancestorLoop_eq]
  refine mem_worklist_iff (positionalParents_subset g) id _ ?_ (nil_sublist _) not_mem_nil
  rw [length_map]
  omega

section Shape

/-- What an edit of contents leaves as it is: the nodes with their types and
owners, and the edges. -/
structure SameShape (g h : ContentGraph) : Prop where
  keys : h.nodes.keys = g.nodes.keys
  edges : h.edges = g.edges
  nodeType : Keeps nodeType g h
  scope : Keeps scope g h

/-- The contents of the dirty nodes are edited. -/
structure Edited (dirty : List String) (g h : ContentGraph) : Prop extends SameShape g h where
  outside : ∀ nodeId, nodeId ∉ dirty → h.getNode nodeId = g.getNode nodeId

variable {g h : ContentGraph}

theorem SameShape.isPositionalEdge (hs : SameShape g h) (edge : Edge) :
    h.isPositionalEdge edge = g.isPositionalEdge edge :=
  hs.nodeType.isPositionalEdge edge

theorem SameShape.positionalParents (hs : SameShape g h) :
    h.positionalParents = g.positionalParents := by
  funext id
  unfold ContentGraph.positionalParents
  simp only [hs.edges, hs.isPositionalEdge]

theorem SameShape.hasType (hsh : SameShape g h) (types : List NodeType) (id : String) :
    h.hasType types id = g.hasType types id := by
  have hs := hsh.nodeType id
  unfold ContentGraph.hasType
  cases inG : g.getNode id <;> cases inH : h.getNode id <;> simp_all

end Shape

section Locality

/-- The rule decides a node from the contents of the nodes it sees. -/
def GraphRule.DecidesFrom (rule : GraphRule) (sees : ContentGraph → String → String → Prop) :
    Prop :=
  ∀ g h nodeId, SameShape g h →
    (∀ other, sees g nodeId other → h.getNode other = g.getNode other) →
      rule.evaluate h nodeId = rule.evaluate g nodeId

def seesItself (_ : ContentGraph) (nodeId other : String) : Prop := other = nodeId

def seesBelow (g : ContentGraph) (nodeId other : String) : Prop :=
  other = nodeId ∨ HasAncestor g other nodeId

/-- A rule of aggregate scope matches nodes of the scope's types and sees what is
below them; any other rule sees the node alone. -/
def GraphRule.WithinScope (rule : GraphRule) : Prop :=
  if rule.scope.aggregateNodeTypes = [] then rule.DecidesFrom seesItself
  else
    (∀ g nodeId, g.hasType rule.scope.aggregateNodeTypes nodeId = false →
      rule.evaluate g nodeId = .notMatched) ∧ rule.DecidesFrom seesBelow

variable {g h : ContentGraph} {dirty : List String} {rules : List GraphRule} {id : String}

theorem hasType_mono {types more : List NodeType} (hs : types ⊆ more)
    (ht : g.hasType types id) : g.hasType more id := by
  unfold ContentGraph.hasType at ht ⊢
  split at ht
  · cases ht
  · exact decide_eq_true (hs (of_decide_eq_true ht))

theorem below_clean {id o : String} {rule : GraphRule} (he : rule ∈ rules)
    (ht : h.hasType rule.scope.aggregateNodeTypes id)
    (ho : id ∉ h.expandDirtyNodeIds rules dirty) (hb : HasAncestor h o id)
    (here : (h.getNode o).isSome) : o ∉ dirty := by
  intro hD
  apply ho
  refine mem_dedup.mpr (mem_append_right _ (mem_flatMap.mpr ⟨o, hD, ?_⟩))
  rw [if_pos here]
  refine mem_filter.mpr ⟨(mem_positionalAncestorIds_iff h o id).mpr hb, ?_⟩
  refine hasType_mono ?_ ht
  intro ty mem
  exact mem_flatMap.mpr ⟨rule, he, mem⟩

theorem SameShape.isSome (hs : SameShape g h) (id : String) :
    (h.getNode id).isSome = (g.getNode id).isSome :=
  hs.nodeType.isSome_iff id

theorem Edited.symm_outside (he : Edited dirty g h)
    (hc : (h.getNode id).isSome → id ∉ dirty) : h.getNode id = g.getNode id := by
  by_cases here : (h.getNode id).isSome
  · exact he.outside id (hc here)
  · have ha : g.getNode id = none := by
      rw [he.isSome] at here
      simpa using here
    rw [ha]
    simpa using here

theorem evaluate_outside {rule : GraphRule} (hw : rule.WithinScope) (hen : rule ∈ rules)
    (he : Edited dirty g h) (ho : id ∉ h.expandDirtyNodeIds rules dirty) :
    rule.evaluate h id = rule.evaluate g id := by
  have hc : id ∉ dirty := fun hdi =>
    ho (h.mem_expandDirtyNodeIds rules hdi)
  have hs := he.outside id hc
  unfold WithinScope at hw
  split at hw
  · refine hw g h id he.toSameShape ?_
    rintro o rfl
    exact hs
  · obtain ⟨hm', hd⟩ := hw
    cases ht : h.hasType rule.scope.aggregateNodeTypes id with
    | false =>
      have hb := ht
      rw [he.toSameShape.hasType] at hb
      rw [hm' h id ht, hm' g id hb]
    | true =>
      refine hd g h id he.toSameShape ?_
      rintro o (rfl | hbe)
      · exact hs
      · have ha : HasAncestor h o id := by
          unfold HasAncestor at hbe ⊢
          rwa [he.toSameShape.positionalParents]
        exact he.symm_outside fun here =>
          below_clean hen ht ho ha here

end Locality

section Results

/-- The report keeps the nodes on which some rule has a result. -/
def nodeResults (results : List GraphNodeResult) : List GraphNodeResult :=
  results.filter fun result => !result.ruleResults.isEmpty

/-- What the evaluation of one node adds. -/
def resultOf (g : ContentGraph) (rules : List GraphRule) (nodeId : String) :
    Option GraphNodeResult :=
  (g.getNode nodeId).bind fun node =>
    if node.scannable then some (evaluateNode g nodeId node (rules.filter enabled))
    else none

variable {g h : ContentGraph} {dirty : List String} {rules : List GraphRule}

theorem evaluateIds_perm (g : ContentGraph) (rules : List GraphRule) (ids : List String) :
    (evaluateIds g rules ids).Perm (ids.filterMap (resultOf g rules)) :=
  (perm_insertionSort _ ids).filterMap _

variable {id : String}

theorem resultOf_nodeId {res : GraphNodeResult}
    (he : resultOf g rules id = some res) : res.nodeId = id := by
  obtain ⟨n, -, hc⟩ := bind_eq_some_iff.mp he
  split at hc
  · cases some.inj hc
    rfl
  · cases hc

theorem resultOf_absent (ha : id ∉ g.nodes.keys) : resultOf g rules id = none := by
  have hm : g.getNode id = none := (Dict.get?_eq_none_iff g.nodes id).mpr ha
  rw [resultOf, hm, bind_none]

theorem ruleResult_congr {rule : GraphRule} (hs : rule.evaluate h id = rule.evaluate g id) :
    ruleResult h id rule = ruleResult g id rule := by
  unfold ruleResult
  rw [hs]

theorem resultOf_outside (hw : ∀ rule ∈ rules, rule.enabled → rule.WithinScope)
    (hed : Edited dirty g h)
    (ho : id ∉ h.expandDirtyNodeIds (rules.filter enabled) dirty) :
    resultOf h rules id = resultOf g rules id := by
  have hc : id ∉ dirty := fun hd =>
    ho (h.mem_expandDirtyNodeIds _ hd)
  unfold resultOf
  rw [hed.outside id hc]
  congr 1
  funext node
  have hs : evaluateNode h id node (rules.filter enabled) =
      evaluateNode g id node (rules.filter enabled) := by
    unfold evaluateNode
    simp only [GraphNodeResult.mk.injEq, true_and]
    refine filterMap_congr fun rule mem => ?_
    have enabled := (mem_filter.mp mem).1
    obtain ⟨hr, he⟩ := mem_filter.mp enabled
    rw [ruleResult_congr (evaluate_outside (hw rule hr he) enabled hed ho)]
  rw [hs]

/-- Evaluating a part of the items and keeping the old values elsewhere evaluates
them all, as long as nothing outside the part changes its value. -/
theorem filterMap_part_perm {α β : Type} [DecidableEq α] {all part : List α}
    {old new : α → Option β} {item : β → α} (hno : all.Nodup) (hp : part.Nodup)
    (hn : ∀ a b, old a = some b → item b = a) (hg : ∀ a, a ∉ all → new a = none)
    (ho : ∀ a, a ∉ part → new a = old a) :
    (all.filterMap new).Perm
      (part.filterMap new ++ (all.filterMap old).filter fun b => item b ∉ part) := by
  have hsp : (all.filter (· ∈ part) ++ all.filter fun a => !decide (a ∈ part)).Perm all :=
    filter_append_perm _ all
  have hi : (part.filterMap new).Perm ((all.filter (· ∈ part)).filterMap new) := by
    have hs : part.filterMap new = (part.filter (· ∈ all)).filterMap new := by
      rw [filterMap_filter]
      refine filterMap_congr fun a _ => ?_
      by_cases hk : a ∈ all
      · simp [hk]
      · simp [hk, hg a hk]
    rw [hs]
    refine List.Perm.filterMap new ?_
    refine (perm_ext_iff_of_nodup (hp.filter _) (hno.filter _)).mpr fun a => ?_
    simp [and_comm]
  have he : (all.filter fun a => !decide (a ∈ part)).filterMap new =
      (all.filterMap old).filter fun b => item b ∉ part := by
    rw [filterMap_filter, filter_filterMap]
    refine filterMap_congr fun a _ => ?_
    by_cases mem : a ∈ part
    · cases hv : old a with
      | none => simp [mem]
      | some b => simp [mem, hn a b hv, Option.filter]
    · rw [ho a mem]
      cases hv : old a with
      | none => simp
      | some b => simp [mem, hn a b hv, Option.filter]
  refine (hsp.symm.filterMap new).trans ?_
  rw [filterMap_append, he]
  exact hi.symm.append_right _

/-- A rescan of the edited nodes, with the old results outside the nodes it
evaluates, has the results of a scan of the whole edited graph. -/
theorem rescanDirty_refines_scan (rules : List GraphRule) (dirty : List String) (g h : ContentGraph)
    (within : ∀ rule ∈ rules, rule.enabled → rule.WithinScope) (edited : Edited dirty g h) :
    (nodeResults (scan h rules)).Perm
      (nodeResults (rescanDirty h rules dirty) ++
        (nodeResults (scan g rules)).filter fun result =>
          result.nodeId ∉ h.expandDirtyNodeIds (rules.filter enabled) dirty) := by
  have merged := filterMap_part_perm h.nodes.nodup_keys
    (nodup_dedup _) (fun _ _ => resultOf_nodeId) (fun _ => resultOf_absent)
    fun _ => resultOf_outside within edited
  have rescanned := (evaluateIds_perm h rules
    (h.expandDirtyNodeIds (rules.filter enabled) dirty)).symm
  have before : (h.nodes.keys.filterMap (resultOf g rules)).Perm (scan g rules) := by
    rw [edited.keys]
    exact (evaluateIds_perm g rules g.nodes.keys).symm
  have whole := (evaluateIds_perm h rules h.nodes.keys).trans
    (merged.trans (rescanned.append (before.filter _)))
  have kept := whole.filter fun result => !result.ruleResults.isEmpty
  rw [filter_append, filter_comm] at kept
  exact kept

end Results

theorem SameShape.positionalAncestorIds {g h : ContentGraph} (hs : SameShape g h)
    (id : String) : h.positionalAncestorIds id = g.positionalAncestorIds id := by
  unfold ContentGraph.positionalAncestorIds
  rw [ancestorLoop_eq, ancestorLoop_eq, hs.positionalParents, hs.edges]

theorem Edited.rewrite (g : ContentGraph) (id : String) (t : Text) :
    Edited [id] g (g.modifyNode id (updateFromYaml t)) where
  keys := Dict.keys_modify _ _ _
  edges := rfl
  nodeType := Keeps.modifyNode id fun _ => rfl
  scope := Keeps.modifyNode id fun _ => rfl
  outside other clean := g.getNode_modifyNode_ne id other _ fun hs => clean (mem_singleton.mpr hs)

/-- Some node below this one has lost its text. -/
def emptyBelow (g : ContentGraph) (nodeId : String) : Bool :=
  g.nodes.keys.any fun other => nodeId ∈ g.positionalAncestorIds other &&
    (g.getNode other).any fun node => node.yamlLines.isEmpty

theorem emptyBelow_congr {g h : ContentGraph} {id : String} (hsh : SameShape g h)
    (hs : ∀ o, seesBelow g id o → h.getNode o = g.getNode o) :
    emptyBelow h id = emptyBelow g id := by
  unfold emptyBelow
  rw [hsh.keys]
  congr 1
  funext o
  rw [hsh.positionalAncestorIds]
  by_cases hb : id ∈ g.positionalAncestorIds o
  · rw [hs o (.inr ((mem_positionalAncestorIds_iff g o id).mp hb))]
  · simp [hb]

def emptyTaskRule : GraphRule where
  ruleId := "L900"
  scope := .play
  evaluate g nodeId :=
    if g.hasType [.play] nodeId then
      if emptyBelow g nodeId then .result { verdict := true, nodeId } else .noResult
    else .notMatched
  names_node g nodeId r found := by
    split at found
    · split at found
      · cases found
        rfl
      · cases found
    · cases found

theorem emptyTaskRule_within : emptyTaskRule.WithinScope := by
  refine ⟨?_, ?_⟩
  · intro g id o
    exact if_neg (by rw [show g.hasType [.play] id = false from o]; exact Bool.false_ne_true)
  · intro g h id hs same
    change (if h.hasType [.play] id then _ else _) = if g.hasType [.play] id then _ else _
    rw [hs.hasType, emptyBelow_congr hs same]

def onePlayGraph : ContentGraph :=
  { nodes := Dict.ofList
      [("play", { nodeType := .play, yamlLines := "- hosts: all".toList }),
        ("task", { nodeType := .task, yamlLines := "- ping:".toList })]
    edges := [{ source := "play", target := "task", edgeType := .contains }] }

def emptiedTaskGraph : ContentGraph := onePlayGraph.modifyNode "task" (updateFromYaml [])

/-- The edit of the task brings its play into the rescan, where the rule now has a result. -/
theorem emptiedTask_rescanned :
    (nodeResults (scan onePlayGraph [emptyTaskRule])).map nodeId = [] ∧
      (nodeResults (rescanDirty emptiedTaskGraph [emptyTaskRule] ["task"])).map nodeId = ["play"] ∧
      (nodeResults (scan emptiedTaskGraph [emptyTaskRule])).Perm
        (nodeResults (rescanDirty emptiedTaskGraph [emptyTaskRule] ["task"]) ++
          (nodeResults (scan onePlayGraph [emptyTaskRule])).filter fun result =>
            result.nodeId ∉ emptiedTaskGraph.expandDirtyNodeIds
              ([emptyTaskRule].filter enabled) ["task"]) :=
  ⟨by decide, by decide, rescanDirty_refines_scan [emptyTaskRule] ["task"] onePlayGraph
    emptiedTaskGraph
    (fun rule member _ => by rw [mem_singleton.mp member]; exact emptyTaskRule_within)
    (.rewrite onePlayGraph "task" [])⟩

end Apme.Graph
