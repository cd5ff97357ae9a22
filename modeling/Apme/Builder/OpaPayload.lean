import Apme.Builder.Build
import Apme.Graph.Queries

/-!
# The hierarchy payload for OPA

One tree is built for every playbook and role that nothing contains or depends
on.  Its nodes are those that edges of any type lead to from the root.  So the
payload has a node exactly when walking edges backwards from it comes to such a
root, which from the tasks of a file that nothing includes it never does.
-/

set_option autoImplicit false

namespace Apme.Builder

open Apme.Lib Apme.Graph List

/-- What is taken from networkx: the nodes that edges of any type lead to, and an
order of the nodes of a subgraph (an arbitrary one if it has a cycle). -/
structure Networkx where
  descendants : ContentGraph → String → List String
  topologicalOrder : List String → List Edge → List String
  mem_descendants : ∀ g nodeId target,
    target ∈ descendants g nodeId ↔ target ≠ nodeId ∧ Leads g.successors nodeId target
  mem_topologicalOrder : ∀ ids edges nodeId,
    nodeId ∈ topologicalOrder ids edges ↔ nodeId ∈ ids

def opaType : NodeType → Option String
  | .playbook => some "playbookcall"
  | .play => some "playcall"
  | .role => some "rolecall"
  | .taskfile => some "taskfilecall"
  | .task => some "taskcall"
  | .handler => some "taskcall"
  | .block => some "blockcall"
  | _ => none

/-- The fields of a node's dict that the graph has data for. -/
structure OpaNode where
  type : String
  key : String
  file : String
  line : Option (Nat × Nat)
  definedIn : String

/-- The index that the options of a play give, if it has options and they give a
number (0 if they give nothing). -/
abbrev PlayIndex := String → Option Int

variable (nx : Networkx) (playIndex : PlayIndex)

def contentNodeToOpaDict (nodeId : String) (node : ContentNode) : Option OpaNode :=
  (opaType node.nodeType).map fun type =>
    { type, key := nodeId, file := node.filePath
      line :=
        if node.lineStart ≠ 0 then some (node.lineStart, node.lineEnd)
        else if type = "playcall" then
          (playIndex nodeId).map fun index => (max 1 (index + 1).toNat, max 1 (index + 1).toNat)
        else none
      definedIn := node.filePath }

structure OpaTree where
  rootKey : String
  rootType : NodeType
  rootPath : String
  nodes : List OpaNode

variable (g : ContentGraph)

/-- A playbook or role that nothing contains or depends on. -/
def isTreeRoot (nodeId : String) (node : ContentNode) : Bool :=
  (node.nodeType = .playbook || node.nodeType = .role) &&
    (g.edgesTo nodeId .contains).isEmpty && (g.edgesTo nodeId .dependency).isEmpty

/-- The ids of `subgraph`; nodes that only edges name are among them. -/
def subgraphIds (rootId : String) : List String := rootId :: nx.descendants g rootId

def subgraphEdges (rootId : String) : List Edge :=
  g.edges.filter fun edge =>
    edge.source ∈ subgraphIds nx g rootId && edge.target ∈ subgraphIds nx g rootId

def treeNodes (rootId : String) : List OpaNode :=
  (nx.topologicalOrder (subgraphIds nx g rootId) (subgraphEdges nx g rootId)).filterMap
    fun nodeId => (g.getNode nodeId).bind (contentNodeToOpaDict playIndex nodeId)

def buildTrees : List OpaTree :=
  (g.nodes.entries.filter fun entry => isTreeRoot g entry.1 entry.2).map fun entry =>
    { rootKey := entry.1, rootType := entry.2.nodeType, rootPath := entry.2.filePath
      nodes := treeNodes nx playIndex g entry.1 }

/-- The node is in the node list of a tree. -/
def InPayload (nodeId : String) : Prop :=
  ∃ tree ∈ buildTrees nx playIndex g, ∃ entry ∈ tree.nodes, entry.key = nodeId

/-- The nodes the payload is meant to cover. -/
def isCoverable (node : ContentNode) : Bool :=
  node.scope = .owned &&
    (node.nodeType = .play || node.nodeType = .block || node.nodeType = .task ||
      node.nodeType = .handler)

section Coverage

variable {g : ContentGraph}

/-- Walking edges backwards from the node comes to a root. -/
inductive Anchored (g : ContentGraph) : String → Prop
  | root (nodeId : String) (node : ContentNode) (found : g.getNode nodeId = some node)
      (isRoot : isTreeRoot g nodeId node) : Anchored g nodeId
  | target (edge : Edge) (inGraph : edge ∈ g.edges) (source : Anchored g edge.source) :
      Anchored g edge.target

variable {nx playIndex}

theorem mem_subgraphIds (rootId id : String) :
    id ∈ subgraphIds nx g rootId ↔ id = rootId ∨ Leads g.successors rootId id := by
  unfold subgraphIds
  rw [mem_cons, nx.mem_descendants]
  by_cases hR : id = rootId
  · simp [hR]
  · simp [hR]

theorem mem_treeNodes_iff (rootId id : String) :
    (∃ e ∈ treeNodes nx playIndex g rootId, e.key = id) ↔
      id ∈ subgraphIds nx g rootId ∧
        ∃ node, g.getNode id = some node ∧ (opaType node.nodeType).isSome := by
  constructor
  · rintro ⟨e, hl, rfl⟩
    obtain ⟨id, ho, hm⟩ := mem_filterMap.mp hl
    obtain ⟨node, hf, hm⟩ := Option.bind_eq_some_iff.mp hm
    obtain ⟨type, ht, rfl⟩ := Option.map_eq_some_iff.mp hm
    exact ⟨(nx.mem_topologicalOrder _ _ id).mp ho, node, hf, by simp [ht]⟩
  · rintro ⟨hit, node, hf, ht⟩
    obtain ⟨type, hT⟩ := Option.isSome_iff_exists.mp ht
    have hm : ∃ e, contentNodeToOpaDict playIndex id node = some e ∧ e.key = id := by
      unfold contentNodeToOpaDict
      rw [hT]
      exact ⟨_, rfl, rfl⟩
    obtain ⟨e, hm, k⟩ := hm
    refine ⟨e, mem_filterMap.mpr ⟨id, (nx.mem_topologicalOrder _ _ id).mpr hit, ?_⟩, k⟩
    rw [hf, Option.bind_some, hm]

theorem mem_buildTrees_iff (tree : OpaTree) :
    tree ∈ buildTrees nx playIndex g ↔ ∃ id node, g.getNode id = some node ∧
      isTreeRoot g id node ∧
        tree = { rootKey := id, rootType := node.nodeType, rootPath := node.filePath
                 nodes := treeNodes nx playIndex g id } := by
  unfold buildTrees
  rw [mem_map]
  constructor
  · rintro ⟨⟨id, node⟩, hl, rfl⟩
    obtain ⟨hg, hR⟩ := mem_filter.mp hl
    exact ⟨id, node, (Dict.get?_eq_some_iff _ _ _).mpr hg, hR, rfl⟩
  · rintro ⟨id, node, hf, hR, rfl⟩
    exact ⟨(id, node), mem_filter.mpr ⟨(Dict.get?_eq_some_iff _ _ _).mp hf, hR⟩, rfl⟩

theorem anchored_of_leads {rootId id : String} (hr : Anchored g rootId)
    (hl : Leads g.successors rootId id) : Anchored g id := by
  induction hl with
  | single first =>
    obtain ⟨e, hg, rfl, rfl⟩ := (mem_successors_iff _ _).mp first
    exact .target e hg hr
  | tail _ last ih =>
    obtain ⟨e, hg, rfl, rfl⟩ := (mem_successors_iff _ _).mp last
    exact .target e hg ih

theorem anchored_iff (nx : Networkx) (id : String) :
    Anchored g id ↔ ∃ rootId node, g.getNode rootId = some node ∧
      isTreeRoot g rootId node ∧ id ∈ subgraphIds nx g rootId := by
  constructor
  · intro ha
    induction ha with
    | root id node hf hr =>
      exact ⟨id, node, hf, hr, (mem_subgraphIds id id).mpr (.inl rfl)⟩
    | target e hg _ ih =>
      obtain ⟨rootId, node, hf, hr, mem⟩ := ih
      have last : e.target ∈ g.successors e.source := (mem_successors_iff _ _).mpr ⟨e, hg, rfl, rfl⟩
      refine ⟨rootId, node, hf, hr, (mem_subgraphIds _ _).mpr (.inr ?_)⟩
      rcases (mem_subgraphIds _ _).mp mem with hs | hl
      · rw [hs] at last
        exact Relation.TransGen.single last
      · exact hl.tail last
  · rintro ⟨rootId, node, hf, hr, mem⟩
    have root := Anchored.root rootId node hf hr
    rcases (mem_subgraphIds _ _).mp mem with rfl | hl
    · exact root
    · exact anchored_of_leads root hl

theorem isSome_opaType_of_coverable {n : ContentNode} (hc : isCoverable n) :
    (opaType n.nodeType).isSome := by
  unfold isCoverable at hc
  cases hk : n.nodeType <;> simp_all [opaType]

theorem inPayload_iff {id : String} {n : ContentNode} (hf : g.getNode id = some n)
    (hc : isCoverable n) : InPayload nx playIndex g id ↔ Anchored g id := by
  rw [anchored_iff nx]
  constructor
  · rintro ⟨tree, hb, hl⟩
    obtain ⟨rootId, root, hr, hR, rfl⟩ := (mem_buildTrees_iff tree).mp hb
    exact ⟨rootId, root, hr, hR, ((mem_treeNodes_iff rootId id).mp hl).1⟩
  · rintro ⟨rootId, root, hr, hR, mem⟩
    refine ⟨_, (mem_buildTrees_iff _).mpr ⟨rootId, root, hr, hR, rfl⟩, ?_⟩
    exact (mem_treeNodes_iff rootId id).mpr ⟨mem, n, hf, isSome_opaType_of_coverable hc⟩

/-- The payload covers the owned plays, blocks, tasks and handlers of a graph
exactly when each of them is anchored. -/
theorem payload_covers_iff_anchored (nx : Networkx) (playIndex : PlayIndex) (g : ContentGraph) :
    (∀ nodeId node, g.getNode nodeId = some node → isCoverable node →
      InPayload nx playIndex g nodeId) ↔
      ∀ nodeId node, g.getNode nodeId = some node → isCoverable node → Anchored g nodeId := by
  constructor
  · intro covered nodeId node found coverable
    exact (inPayload_iff found coverable).mp (covered nodeId node found coverable)
  · intro anchored nodeId node found coverable
    exact (inPayload_iff found coverable).mpr (anchored nodeId node found coverable)

end Coverage

/-- A task file that no playbook and no role includes. -/
def looseFileProject : Project :=
  { heap :=
      [.task { key := "task taskfile:tasks/loose.yml#task:[0]", module := "ansible.builtin.shell" },
        .taskfile { key := "taskfile taskfile:tasks/loose.yml", definedIn := "tasks/loose.yml"
                    tasks := [.object 0] }]
    root := { taskfiles := [1], tasks := [0] } }

def looseTaskId : String := "tasks/loose.yml/tasks[0]"

/-- A search along the edges, and the order in which it meets the nodes. -/
def searching : Networkx where
  descendants := ContentGraph.descendants
  topologicalOrder ids _ := ids
  mem_descendants _ nodeId target := mem_descendants_iff nodeId target
  mem_topologicalOrder _ _ _ := Iff.rfl

/-- The graph has the task of the file, and the payload has no tree at all. -/
theorem looseFile_uncovered :
    ∃ built, build 10 looseFileProject = .ok built ∧
      (∃ node, built.graph.getNode looseTaskId = some node ∧ isCoverable node) ∧
        ¬InPayload searching (fun _ => none) built.graph looseTaskId := by
  refine ⟨_, rfl, ⟨_, rfl, by decide⟩, ?_⟩
  rintro ⟨tree, listed, -⟩
  exact not_mem_nil (show tree ∈ [] from listed)

end Apme.Builder
