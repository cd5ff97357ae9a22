import Apme.Graph.Queries
import Mathlib.Data.Prod.Lex
import Mathlib.Data.String.Basic

/-!
# Serialized graphs

`to_dict` writes the nodes sorted by id and the edges sorted by their ends,
together with the edges of the execution order; `from_dict` adds nodes and edges
in the order in which they are written.  What a query answers can depend on the
order in which edges were added: children at one position run in that order, and
the first parent is the parent.  The restored graph has the order of the ids in
its place.

Of the attributes of an edge its type and its position are modelled.
-/

set_option autoImplicit false

namespace Apme.Graph

open Apme.Lib List ContentGraph Edge Dict

namespace ContentGraph

variable (g : ContentGraph)

/-- The ends of the edge are joined by a rescue or always edge too. -/
def isBranch (edge : Edge) : Bool :=
  g.edges.any fun other =>
    other.source = edge.source && other.target = edge.target &&
      (other.edgeType = .rescue || other.edgeType = .always)

/-- The edges to the mainline children of a node. -/
def mainEdges (parent : String) : List Edge :=
  (g.outEdges parent).filter fun edge =>
    g.isPositionalEdge edge && !(edge.edgeType = .contains && g.isBranch edge)

/-- Children run by position; role dependencies come first. -/
def executionRank (edge : Edge) : Nat ×ₗ Nat :=
  toLex (edge.position, if edge.edgeType = .dependency then 0 else 1)

def executionChildren (parent : String) : List String :=
  (sortOn executionRank (g.mainEdges parent)).map target

/-- Every node but the last on the way is a new source of edges, which bounds the way. -/
def lastExit (children : String → List String) : Nat → List String → String → String
  | 0, _, nodeId => nodeId
  | fuel + 1, visited, nodeId =>
    if nodeId ∈ visited then nodeId
    else
      match (children nodeId).getLast? with
      | none => nodeId
      | some last => lastExit children fuel (nodeId :: visited) last

/-- The node runs into its first child, and the exit of each child into the next one. -/
def executionSegment (exit : String → String) (parent : String) :
    List String → List (String × String)
  | [] => []
  | first :: rest =>
    (parent, first) :: (first :: rest).zipWith (fun child next => (exit child, next)) rest

def executionParents : List String :=
  sortIds ((g.edges.map source).dedup.filter fun parent => g.mainEdges parent ≠ [])

def executionEdges : List (String × String) :=
  g.executionParents.flatMap fun parent =>
    executionSegment (lastExit g.executionChildren (g.edges.length + 1) []) parent
      (g.executionChildren parent)

end ContentGraph

/-- A serialized node; an empty progression or ledger stands for a missing entry. -/
structure NodeDict where
  nodeType : NodeType
  scope : NodeScope
  name : String
  roleFqcn : String
  notify : List String
  listen : List String
  filePath : String
  lineStart : Nat
  lineEnd : Nat
  yamlLines : Text
  indentDepth : Nat
  state : Option NodeState
  progression : List NodeState
  violationLedger : List (ViolationKey × ViolationRecord)
  deriving DecidableEq

structure GraphDict where
  version : Nat
  nodes : List (String × NodeDict)
  edges : List Edge
  executionEdges : List (String × String)
  deriving DecidableEq

def nodeToDict (node : ContentNode) : NodeDict where
  nodeType := node.nodeType
  scope := node.scope
  name := node.name
  roleFqcn := node.roleFqcn
  notify := node.notify
  listen := node.listen
  filePath := node.filePath
  lineStart := node.lineStart
  lineEnd := node.lineEnd
  yamlLines := node.yamlLines
  indentDepth := node.indentDepth
  state := node.state
  progression := node.progression
  violationLedger := node.violationLedger.entries

/-- Snapshots without an id get one from their place. -/
def fillIds (nodeId : String) (progression : List NodeState) : List NodeState :=
  progression.zipIdx.map fun entry =>
    if entry.1.id = "" then { entry.1 with id := nodeId ++ "@" ++ toString entry.2 } else entry.1

/-- The progression is the source of truth for the state. -/
def nodeFromDict (nodeId : String) (d : NodeDict) : ContentNode where
  nodeType := d.nodeType
  scope := d.scope
  name := d.name
  roleFqcn := d.roleFqcn
  notify := d.notify
  listen := d.listen
  filePath := d.filePath
  lineStart := d.lineStart
  lineEnd := d.lineEnd
  yamlLines := d.yamlLines
  indentDepth := d.indentDepth
  state :=
    match (fillIds nodeId d.progression).getLast? with
    | some last => some last
    | none => d.state
  progression := fillIds nodeId d.progression
  violationLedger := ofList d.violationLedger

namespace ContentGraph

variable (g : ContentGraph)

/-- All edges as the graph lists them, source by source. -/
def edgeList : List Edge := (firsts (g.edges.map source)).flatMap g.outEdges

def endsKey (edge : Edge) : String ×ₗ String := toLex (edge.source, edge.target)

def toDict : GraphDict where
  version := 1
  nodes := (sortIds g.nodes.keys).filterMap fun nodeId =>
    (g.getNode nodeId).map fun node => (nodeId, nodeToDict node)
  edges := sortOn endsKey g.edgeList
  executionEdges := g.executionEdges

/-- `from_dict`; `none` for a version it does not know. -/
def fromDict (d : GraphDict) : Option ContentGraph :=
  if d.version ≠ 1 then none
  else some
    { nodes := ofList (d.nodes.map fun entry => (entry.1, nodeFromDict entry.1 entry.2))
      edges := d.edges }

def lastSnapshot (nodeId : String) : Option NodeState :=
  (g.getNode nodeId).bind fun node => node.progression.getLast?

/-- The graph that `from_dict` makes of the written one. -/
def restored : ContentGraph where
  nodes := ofList (g.toDict.nodes.map fun entry => (entry.1, nodeFromDict entry.1 entry.2))
  edges := g.toDict.edges

theorem fromDict_toDict : fromDict g.toDict = some g.restored := rfl

/-- What a faithful serialization gives back. -/
structure RoundTrips (g h : ContentGraph) : Prop where
  dict : h.toDict = g.toDict
  ancestors : ∀ nodeId, h.ancestors nodeId = g.ancestors nodeId
  executionEdges : h.executionEdges = g.executionEdges
  lastSnapshot : ∀ nodeId, h.lastSnapshot nodeId = g.lastSnapshot nodeId

end ContentGraph

section RestoredEdges

open ContentGraph

variable (g : ContentGraph)

theorem mem_outEdges {id : String} {e : Edge} (mem : e ∈ g.outEdges id) :
    e ∈ g.edges ∧ e.source = id := by
  obtain ⟨tgt, -, hc⟩ := mem_flatMap.mp mem
  obtain ⟨hg, hs⟩ := mem_filter.mp (mem_filter.mp hc).1
  exact ⟨hg, of_decide_eq_true hs⟩

theorem filter_endsKey (edges : List Edge) (src tgt : String) :
    (edges.filter fun e => endsKey e = toLex (src, tgt)) =
      (edges.filter fun e => e.source = src).filter fun e => e.target = tgt := by
  rw [filter_filter]
  refine filter_congr ?_
  intro e _
  simp [endsKey, Bool.and_comm]

theorem filter_edgeList (key : String ×ₗ String) :
    (g.edgeList.filter fun e => endsKey e = key) = g.edges.filter fun e => endsKey e = key := by
  obtain ⟨src, tgt⟩ := key
  have split := filter_endsKey g.edgeList src tgt
  have hs := filter_flatMap_classes (fun k e hm => (mem_outEdges g hm).2)
    (nodup_firsts (g.edges.map source)) src
  rw [← edgeList] at hs
  refine split.trans ?_
  rw [hs]
  refine Eq.trans ?_ (filter_endsKey g.edges src tgt).symm
  split
  next => exact filter_groupOn target _ tgt
  next hu =>
    have none : (g.edges.filter fun e => e.source = src) = [] := by
      rw [filter_eq_nil_iff]
      intro e hm isSource
      exact hu (mem_firsts.mpr (mem_map.mpr ⟨e, hm, of_decide_eq_true isSource⟩))
    rw [none]

theorem restored_edges : g.restored.edges = sortOn endsKey g.edges := by
  refine (sortedOn_sortOn endsKey _).eq_of_classes (sortedOn_sortOn endsKey _) ?_
  intro k
  rw [filter_sortOn, filter_sortOn]
  exact filter_edgeList g k

theorem restored_edges_perm : g.restored.edges.Perm g.edges := by
  rw [restored_edges]
  exact sortOn_perm endsKey g.edges

theorem mem_restored_edges {e : Edge} : e ∈ g.restored.edges ↔ e ∈ g.edges :=
  (restored_edges_perm g).mem_iff

theorem sortedOn_source : SortedOn source g.restored.edges := by
  rw [restored_edges]
  refine (sortedOn_sortOn endsKey g.edges).imp ?_
  intro a b hb
  exact (Prod.Lex.toLex_le_toLex.mp hb).elim le_of_lt fun hs => hs.1.le

variable (src : String)

theorem sortedOn_target :
    SortedOn target (g.restored.edges.filter fun e => e.source = src) := by
  rw [restored_edges]
  unfold SortedOn
  rw [pairwise_filter]
  refine (sortedOn_sortOn endsKey g.edges).imp ?_
  intro a b hb isA isB
  rcases Prod.Lex.toLex_le_toLex.mp hb with hs | same
  · rw [of_decide_eq_true isA, of_decide_eq_true isB] at hs
    exact absurd hs (lt_irrefl src)
  · exact same.2

theorem restored_outEdges_eq_filter :
    g.restored.outEdges src = g.restored.edges.filter fun e => e.source = src :=
  (sortedOn_target g src).groupOn_eq

theorem restored_outEdges : g.restored.outEdges src = sortOn target (g.outEdges src) := by
  rw [restored_outEdges_eq_filter]
  refine (sortedOn_target g src).eq_of_classes (sortedOn_sortOn target _) ?_
  intro tgt
  rw [filter_sortOn, restored_edges, ← filter_endsKey, filter_sortOn, filter_endsKey]
  exact (filter_groupOn target _ tgt).symm

theorem restored_edgeList : g.restored.edgeList = g.restored.edges := by
  unfold edgeList
  rw [funext (restored_outEdges_eq_filter g)]
  exact (sortedOn_source g).groupOn_eq

theorem restored_toDict_edges : g.restored.toDict.edges = g.toDict.edges := by
  have hs : SortedOn endsKey g.restored.edges := by
    rw [restored_edges]
    exact sortedOn_sortOn endsKey g.edges
  have ha : sortOn endsKey g.restored.edgeList = g.restored.edges := by
    rw [restored_edgeList]
    exact hs.sortOn_eq
  exact ha

end RestoredEdges

section RestoredNodes

open ContentGraph

variable (g : ContentGraph)

theorem sortIds_perm (ids : List String) : (sortIds ids).Perm ids := perm_insertionSort _ ids

theorem sortIds_eq_of_perm {first second : List String} (hp : first.Perm second) :
    sortIds first = sortIds second := by
  refine (((sortIds_perm first).trans hp).trans (sortIds_perm second).symm).eq_of_pairwise
    (fun _ _ _ _ => le_antisymm) ?_ ?_
  · exact pairwise_insertionSort _ first
  · exact pairwise_insertionSort _ second

theorem toDict_nodes_keys : g.toDict.nodes.map Prod.fst = sortIds g.nodes.keys := by
  have here : ∀ id ∈ sortIds g.nodes.keys, ∃ node, g.getNode id = some node := by
    intro id mem
    exact (mem_keys_iff g.nodes id).mp ((sortIds_perm _).mem_iff.mp mem)
  show ((sortIds g.nodes.keys).filterMap fun id =>
    (g.getNode id).map fun node => (id, nodeToDict node)).map Prod.fst = _
  rw [map_filterMap]
  refine Eq.trans (filterMap_congr ?_) filterMap_some
  intro id mem
  obtain ⟨node, hf⟩ := here id mem
  simp [hf]

theorem restored_entries : g.restored.nodes.entries =
    g.toDict.nodes.map fun e => (e.1, nodeFromDict e.1 e.2) := by
  refine entries_ofList _ ?_
  rw [map_map]
  show (g.toDict.nodes.map Prod.fst).Nodup
  rw [toDict_nodes_keys]
  exact (sortIds_perm g.nodes.keys).nodup_iff.mpr g.nodes.nodup_keys

theorem restored_keys : g.restored.nodes.keys = sortIds g.nodes.keys := by
  rw [Dict.keys, restored_entries, map_map, ← toDict_nodes_keys]
  rfl

theorem restored_getNode (id : String) :
    g.restored.getNode id = (g.getNode id).map fun n => nodeFromDict id (nodeToDict n) := by
  cases hf : g.getNode id with
  | none =>
    have ha := (get?_eq_none_iff g.nodes id).mp hf
    refine (get?_eq_none_iff g.restored.nodes id).mpr ?_
    rw [restored_keys]
    intro mem
    exact ha ((sortIds_perm _).mem_iff.mp mem)
  | some n =>
    refine (get?_eq_some_iff g.restored.nodes id _).mpr ?_
    rw [restored_entries]
    refine mem_map.mpr ⟨(id, nodeToDict n), mem_filterMap.mpr ⟨id, ?_, ?_⟩, rfl⟩
    · exact (sortIds_perm _).mem_iff.mpr ((mem_keys_iff g.nodes id).mpr ⟨n, hf⟩)
    · rw [hf, Option.map_some]

theorem restored_present : g.restored.present = g.present := by
  funext id
  unfold present
  rw [restored_getNode, Option.isSome_map]

theorem restored_keeps_nodeType : Keeps ContentNode.nodeType g g.restored := by
  intro id
  rw [restored_getNode, Option.map_map]
  rfl

/-- What survives the way of a node through its dict. -/
def ContentNode.Reconciled (nodeId : String) (node : ContentNode) : Prop :=
  nodeToDict (nodeFromDict nodeId (nodeToDict node)) = nodeToDict node

theorem restored_toDict_nodes_iff :
    g.restored.toDict.nodes = g.toDict.nodes ↔ ∀ id n, g.getNode id = some n → n.Reconciled id := by
  have hi : sortIds g.restored.nodes.keys = sortIds g.nodes.keys := by
    rw [restored_keys]
    exact sortIds_eq_of_perm (sortIds_perm _)
  have hwr : g.restored.toDict.nodes = (sortIds g.nodes.keys).filterMap fun id =>
      (g.getNode id).map fun n =>
        (id, nodeToDict (nodeFromDict id (nodeToDict n))) := by
    show ((sortIds g.restored.nodes.keys).filterMap fun id =>
      (g.restored.getNode id).map fun n => (id, nodeToDict n)) = _
    rw [hi]
    refine filterMap_congr ?_
    intro id _
    rw [restored_getNode, Option.map_map]
    rfl
  rw [hwr]
  constructor
  · intro hs id n hf
    have hl : (id, nodeToDict (nodeFromDict id (nodeToDict n))) ∈ g.toDict.nodes := by
      rw [← hs]
      refine mem_filterMap.mpr ⟨id, ?_, by rw [hf, Option.map_some]⟩
      exact (sortIds_perm _).mem_iff.mpr ((mem_keys_iff g.nodes id).mpr ⟨n, hf⟩)
    obtain ⟨o, -, he⟩ := mem_filterMap.mp hl
    obtain ⟨otherNode, hof, hp⟩ := Option.map_eq_some_iff.mp he
    obtain ⟨rfl, hd⟩ := Prod.mk.inj hp
    rw [hf] at hof
    cases hof
    exact hd.symm
  · intro hr
    refine filterMap_congr ?_
    intro id _
    cases hf : g.getNode id with
    | none => rfl
    | some n =>
      rw [Option.map_some, Option.map_some, hr id n hf]

theorem fillIds_eq_self {nodeId : String} {steps : List NodeState}
    (hn : ∀ e ∈ steps, e.id ≠ "") : fillIds nodeId steps = steps := by
  have hs : ∀ e ∈ steps.zipIdx,
      (if e.1.id = "" then { e.1 with id := nodeId ++ "@" ++ toString e.2 }
        else e.1) = e.1 := by
    intro e mem
    rw [if_neg (hn e.1 (fst_mem_of_mem_zipIdx mem))]
  unfold fillIds
  rw [map_congr_left hs]
  exact zipIdx_map_fst 0 steps

theorem reconciled_iff {nodeId : String} {n : ContentNode}
    (hn : ∀ e ∈ n.progression, e.id ≠ "") :
    n.Reconciled nodeId ↔ (n.progression ≠ [] → n.state = n.progression.getLast?) := by
  have hfill : fillIds nodeId n.progression = n.progression := fillIds_eq_self hn
  have hs : n.Reconciled nodeId ↔
      (match n.progression.getLast? with
        | some last => some last
        | none => n.state) = n.state := by
    unfold ContentNode.Reconciled nodeFromDict nodeToDict
    simp only [hfill, ofList_entries, NodeDict.mk.injEq, and_true, true_and]
  rw [hs]
  cases last : n.progression.getLast? with
  | none => simp [List.getLast?_eq_none_iff.mp last]
  | some e =>
    have hk : n.progression ≠ [] := by
      intro he
      simp [he] at last
    simp only [hk, ne_eq, not_false_eq_true, true_imp_iff]
    exact eq_comm

def ContentGraph.SnapshotsNamed (g : ContentGraph) : Prop :=
  ∀ nodeId node, g.getNode nodeId = some node → ∀ entry ∈ node.progression, entry.id ≠ ""

theorem restored_lastSnapshot (hn : g.SnapshotsNamed) (id : String) :
    g.restored.lastSnapshot id = g.lastSnapshot id := by
  unfold lastSnapshot
  rw [restored_getNode]
  cases hf : g.getNode id with
  | none => rfl
  | some n =>
    show (fillIds id n.progression).getLast? = n.progression.getLast?
    rw [fillIds_eq_self (hn id n hf)]

theorem fillIds_named {nodeId : String} {steps : List NodeState} :
    ∀ e ∈ fillIds nodeId steps, e.id ≠ "" := by
  intro e mem
  obtain ⟨entry, -, rfl⟩ := mem_map.mp mem
  split
  next =>
    intro hn
    simpa using congrArg String.toList hn
  next hn => exact hn

theorem nodeFromDict_settled (id : String) (d : NodeDict) :
    nodeFromDict id (nodeToDict (nodeFromDict id d)) = nodeFromDict id d := by
  have hf : fillIds id (fillIds id d.progression) = _ := fillIds_eq_self fillIds_named
  simp only [nodeFromDict, nodeToDict, hf, ofList_entries, ContentNode.mk.injEq, true_and, and_true]
  split <;> rfl

theorem restored_toDict_nodes : (g.restored.toDict.nodes.map fun e => (e.1, nodeFromDict e.1 e.2)) =
    g.toDict.nodes.map fun e => (e.1, nodeFromDict e.1 e.2) := by
  show map _ (filterMap _ (sortIds g.restored.nodes.keys)) = map _ (filterMap _ _)
  rw [restored_keys, sortIds_eq_of_perm (sortIds_perm _), map_filterMap, map_filterMap]
  refine filterMap_congr ?_
  intro id _
  rw [restored_getNode]
  cases g.getNode id <;> simp [nodeFromDict_settled]

/-- The first round trip can change the order of edges, the ids of snapshots and the
state; a second one changes nothing. -/
theorem second_round_trip :
    ((fromDict g.toDict).bind fun h => fromDict h.toDict) = fromDict g.toDict := by
  rw [fromDict_toDict, Option.bind_some, fromDict_toDict]
  exact congrArg₂ (fun nodes edges => some (ContentGraph.mk nodes edges []))
    (congrArg ofList (restored_toDict_nodes g)) (restored_toDict_edges g)

end RestoredNodes

section RestoredOrder

open ContentGraph

variable (g : ContentGraph)

theorem restored_isBranch (edge : Edge) : g.restored.isBranch edge = g.isBranch edge :=
  (restored_edges_perm g).any_eq

theorem restored_mainEdges (par : String) :
    g.restored.mainEdges par = sortOn target (g.mainEdges par) := by
  unfold mainEdges
  rw [restored_outEdges, sortOn_filter]
  simp only [restored_isBranch, (restored_keeps_nodeType g).isPositionalEdge]

theorem restored_executionParents : g.restored.executionParents = g.executionParents := by
  have hc : ∀ par, (decide (g.restored.mainEdges par ≠ [])) =
      decide (g.mainEdges par ≠ []) := by
    intro par
    have hp : (g.restored.mainEdges par).Perm (g.mainEdges par) := by
      rw [restored_mainEdges]
      exact sortOn_perm _ _
    have he : g.restored.mainEdges par = [] ↔ g.mainEdges par = [] := by
      rw [← length_eq_zero_iff, hp.length_eq, length_eq_zero_iff]
    simp only [ne_eq, he]
  unfold executionParents
  refine sortIds_eq_of_perm ?_
  simp only [hc]
  exact (((restored_edges_perm g).map source).dedup).filter _

theorem restored_executionChildren_iff (par : String) :
    g.restored.executionChildren par = g.executionChildren par ↔
      (g.mainEdges par).Pairwise fun a b =>
        executionRank a = executionRank b → a.target ≤ b.target := by
  unfold executionChildren
  rw [restored_mainEdges]
  exact map_sortOn_sortOn_iff (g.mainEdges par)

theorem targets_executionSegment (exit : String → String) (par : String) (children : List String)
    : (executionSegment exit par children).map Prod.snd = children := by
  have hn : ∀ (rest longer : List String), rest.length ≤ longer.length →
      (longer.zipWith (fun child next => (exit child, next)) rest).map Prod.snd = rest := by
    intro rest
    induction rest with
    | nil => simp
    | cons next rest ih =>
      intro longer he
      cases longer with
      | nil => simp at he
      | cons child longer =>
        rw [zipWith_cons_cons, map_cons, ih longer (by simpa using he)]
  cases children with
  | nil => rfl
  | cons first rest =>
    rw [executionSegment, map_cons, hn rest (first :: rest) (by simp)]

theorem eq_of_flatMap_eq {α β : Type} {f h : α → List β} {xs : List α}
    (hl : ∀ item, (f item).length = (h item).length)
    (hs : xs.flatMap f = xs.flatMap h) : ∀ item ∈ xs, f item = h item := by
  induction xs with
  | nil => simp
  | cons first rest ih =>
    rw [flatMap_cons, flatMap_cons] at hs
    obtain ⟨here, hla⟩ := append_inj hs (hl first)
    intro item mem
    rcases mem_cons.mp mem with rfl | hr
    · exact here
    · exact ih hla item hr

theorem executionChildren_of_notMem {par : String} (ho : par ∉ g.executionParents) :
    g.executionChildren par = [] := by
  have none : g.mainEdges par = [] := by
    by_contra some
    apply ho
    refine (sortIds_perm _).mem_iff.mpr (mem_filter.mpr ⟨?_, by simpa using some⟩)
    obtain ⟨e, mem⟩ := exists_mem_of_ne_nil _ some
    obtain ⟨hg, hs⟩ := mem_outEdges g (mem_filter.mp mem).1
    exact mem_dedup.mpr (mem_map.mpr ⟨e, hg, hs⟩)
  rw [executionChildren, none]
  rfl

/-- The execution order comes back just when no two children of a node with the
same rank are in another order than their ids. -/
theorem restored_executionEdges_iff :
    g.restored.executionEdges = g.executionEdges ↔
      ∀ par, (g.mainEdges par).Pairwise fun a b =>
        executionRank a = executionRank b → a.target ≤ b.target := by
  rw [← forall_congr' (restored_executionChildren_iff g)]
  constructor
  · intro hs par
    by_cases hP : par ∈ g.executionParents
    · have ht := congrArg (List.map Prod.snd) hs
      simp only [executionEdges, map_flatMap, targets_executionSegment,
        restored_executionParents] at ht
      refine eq_of_flatMap_eq ?_ ht par hP
      intro o
      simp only [executionChildren, length_map, restored_mainEdges]
      exact ((sortOn_perm _ _).length_eq.trans (sortOn_perm _ _).length_eq).trans
        (sortOn_perm _ _).length_eq.symm
    · rw [executionChildren_of_notMem g hP]
      rw [← restored_executionParents] at hP
      exact executionChildren_of_notMem g.restored hP
  · intro hs
    have hc : g.restored.executionChildren = g.executionChildren := funext hs
    unfold executionEdges
    rw [restored_executionParents, hc, (restored_edges_perm g).length_eq]

end RestoredOrder

section RestoredParents

open ContentGraph

variable (g : ContentGraph)

/-- The node is contained in another one. -/
def ContentGraph.Contains (parent nodeId : String) : Prop :=
  ∃ edge ∈ g.edges, edge.source = parent ∧ edge.target = nodeId ∧ edge.edgeType = .contains

theorem any_contains_iff (par id : String) :
    (g.edges.any fun e =>
      e.source = par && e.target = id && e.edgeType = .contains) ↔ g.Contains par id := by
  simp [Contains, and_assoc]

theorem mem_predecessors_of_contains {par id : String}
    (hc : g.Contains par id) : par ∈ g.predecessors id := by
  obtain ⟨e, hg, rfl, hT, -⟩ := hc
  refine mem_firsts.mpr (mem_map_of_mem (mem_filter.mpr ⟨hg, ?_⟩))
  exact decide_eq_true hT

variable {g}

theorem contains_of_containsParent {id par : String}
    (hf : g.containsParent id = some par) : g.Contains par id := by
  have hj := List.find?_some hf
  exact (any_contains_iff g par id).mp hj

theorem exists_containsParent {id par : String} (hc : g.Contains par id) :
    ∃ first, g.containsParent id = some first := by
  rw [← Option.isSome_iff_exists, containsParent, List.find?_isSome]
  exact ⟨par, mem_predecessors_of_contains g hc, (any_contains_iff g par id).mpr hc⟩

theorem restored_contains (par id : String) :
    g.restored.Contains par id ↔ g.Contains par id := by
  simp only [Contains, mem_restored_edges]

theorem restored_containsParent_le {id least : String}
    (hf : g.restored.containsParent id = some least) {parent : String}
    (hco : g.Contains parent id) : least ≤ parent := by
  have hs : (g.restored.predecessors id).Pairwise fun a b => a ≤ b := by
    refine List.Pairwise.sublist (firsts_sublist _) (pairwise_map.mpr ?_)
    exact (sortedOn_source g).of_sublist filter_sublist
  have hc := (restored_contains parent id).mpr hco
  have hl := mem_predecessors_of_contains g.restored hc
  obtain ⟨-, b₁, a₁, hsp, hsk⟩ := List.find?_eq_some_iff_append.mp hf
  rw [hsp] at hs hl
  rcases mem_append.mp hl with he | late
  · have hnc := hsk parent he
    rw [(any_contains_iff g.restored parent id).mpr hc] at hnc
    cases hnc
  · rcases mem_cons.mp late with rfl | hia
    · exact le_rfl
    · exact (pairwise_cons.mp (pairwise_append.mp hs).2.1).1 parent hia

theorem restored_containsParent_iff :
    (∀ id, g.restored.containsParent id = g.containsParent id) ↔
      ∀ id first, g.containsParent id = some first →
        ∀ parent, g.Contains parent id → first ≤ parent := by
  constructor
  · intro hs id first hf parent hc
    rw [← hs] at hf
    exact restored_containsParent_le hf hc
  · intro hl id
    cases hf : g.containsParent id with
    | none =>
      cases hrf : g.restored.containsParent id with
      | none => rfl
      | some parent =>
        have hc := (restored_contains parent id).mp (contains_of_containsParent hrf)
        obtain ⟨first, hF⟩ := exists_containsParent hc
        rw [hf] at hF
        cases hF
    | some first =>
      have hc := contains_of_containsParent hf
      obtain ⟨o, hrf⟩ :=
        exists_containsParent ((restored_contains first id).mpr hc)
      have hrc := (restored_contains o id).mp (contains_of_containsParent hrf)
      rw [hrf, le_antisymm (restored_containsParent_le hrf hc)
        (hl id first hf o hrc)]

/-- Nothing is contained in a node that is not there. -/
def ContentGraph.ParentsPresent (g : ContentGraph) : Prop :=
  ∀ parent nodeId, g.Contains parent nodeId → g.present parent

theorem head?_ancestors (here : g.ParentsPresent) (id : String) :
    (g.ancestors id).head? = g.containsParent id := by
  unfold ancestors
  rw [ancestorsLoop]
  cases hf : g.containsParent id with
  | none => rfl
  | some par =>
    have hP := here par id (contains_of_containsParent hf)
    simp [hP]

theorem ancestorsLoop_congr {h : ContentGraph}
    (hs : ∀ id, h.containsParent id = g.containsParent id) (fuel : Nat) (visited : List String)
    (id : String) : h.ancestorsLoop fuel visited id = g.ancestorsLoop fuel visited id := by
  induction fuel generalizing visited id with
  | zero => rfl
  | succ fuel ih =>
    rw [ancestorsLoop, ancestorsLoop, hs]
    simp only [ih]

theorem restored_ancestors_iff (here : g.ParentsPresent) :
    (∀ id, g.restored.ancestors id = g.ancestors id) ↔
      ∀ id first, g.containsParent id = some first →
        ∀ parent, g.Contains parent id → first ≤ parent := by
  rw [← restored_containsParent_iff]
  constructor
  · intro hs id
    have hp : g.restored.ParentsPresent := by
      intro parent child hc
      rw [restored_present]
      exact here parent child ((restored_contains parent child).mp hc)
    rw [← head?_ancestors hp, ← head?_ancestors here, hs]
  · intro hs id
    unfold ancestors
    rw [ancestorsLoop_congr hs, (restored_edges_perm g).length_eq, restored_present]

end RestoredParents

/-- What the order of the ids has to agree with. -/
structure ContentGraph.Restorable (g : ContentGraph) : Prop where
  states : ∀ nodeId node, g.getNode nodeId = some node → node.progression ≠ [] →
    node.state = node.progression.getLast?
  children : ∀ parent, (g.mainEdges parent).Pairwise fun a b =>
    executionRank a = executionRank b → a.target ≤ b.target
  parents : ∀ nodeId first, g.containsParent nodeId = some first →
    ∀ parent, g.Contains parent nodeId → first ≤ parent

/-- A graph comes back just when the states are the last snapshots and the ids
are in the order in which the edges were added. -/
theorem roundTrips_iff {g : ContentGraph} (hna : g.SnapshotsNamed) (here : g.ParentsPresent) :
    g.RoundTrips g.restored ↔ g.Restorable := by
  have hno : g.restored.toDict.nodes = g.toDict.nodes ↔
      ∀ id n, g.getNode id = some n → n.progression ≠ [] → n.state = n.progression.getLast? := by
    rw [restored_toDict_nodes_iff]
    refine forall₃_congr ?_
    intro id n hf
    exact reconciled_iff (hna id n hf)
  constructor
  · intro ht
    exact
      { states := hno.mp (congrArg GraphDict.nodes ht.dict)
        children := (restored_executionEdges_iff g).mp ht.executionEdges
        parents := (restored_ancestors_iff here).mp ht.ancestors }
  · intro hr
    have ho := (restored_executionEdges_iff g).mpr hr.children
    have hn := hno.mpr hr.states
    have he := restored_toDict_edges g
    refine ⟨?_, (restored_ancestors_iff here).mpr hr.parents, ho, restored_lastSnapshot g hna⟩
    have hs : ∀ h : ContentGraph,
        h.toDict = ⟨1, h.toDict.nodes, h.toDict.edges, h.executionEdges⟩ := fun _ => rfl
    rw [hs g.restored, hs g, hn, he, ho]

end Apme.Graph
