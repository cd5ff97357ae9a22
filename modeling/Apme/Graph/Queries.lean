import Apme.Graph.Scanner
import Apme.Graph.Frame
import Apme.Lib.StableSort
import Apme.Lib.Worklist

/-!
# Queries on the edges of a graph

Descendants along all edges, ancestors along containment and along positional
edges, and what is in the scope of a play.  Where the source returns nodes the
ids of the nodes that exist are returned.
-/

set_option autoImplicit false

namespace Apme.Graph

open Apme.Lib List ContentGraph Relation.TransGen

namespace ContentGraph

variable (g : ContentGraph) (nodeId : String)

def edgesTo (edgeType : EdgeType) : List Edge :=
  g.edges.filter fun edge => edge.target = nodeId ∧ edge.edgeType = edgeType

/-- Edges from the node, those to one target together, as the adjacency lists have them. -/
def outEdges : List Edge := groupOn Edge.target (g.edges.filter fun edge => edge.source = nodeId)

def edgesFrom (edgeType : EdgeType) : List Edge :=
  (g.outEdges nodeId).filter fun edge => edge.edgeType = edgeType

def successors : List String := (g.edges.filter fun edge => edge.source = nodeId).map Edge.target

/-- The nodes that edges of any type lead to, but the node itself. -/
def descendants : List String :=
  (worklist g.successors (g.edges.length + 2) [nodeId] []).filter (· ≠ nodeId)

def isAcyclic : Bool :=
  g.edges.all fun edge => edge.source ≠ edge.target && edge.source ∉ g.descendants edge.target

/-- The sources of edges to the node, in the order of their first edges. -/
def predecessors : List String :=
  firsts ((g.edges.filter fun edge => edge.target = nodeId).map Edge.source)

def containsParent : Option String :=
  (g.predecessors nodeId).find? fun source =>
    g.edges.any fun edge =>
      edge.source = source && edge.target = nodeId && edge.edgeType = .contains

/-- The loop of `ancestors`: every round visits a source not visited before. -/
def ancestorsLoop (g : ContentGraph) : Nat → List String → String → List String
  | 0, _, _ => []
  | fuel + 1, visited, current =>
    match g.containsParent current with
    | none => []
    | some parent =>
      if parent ∈ visited then []
      else parent :: ancestorsLoop g fuel (parent :: visited) parent

def present : Bool := (g.getNode nodeId).isSome

def ancestors : List String := (g.ancestorsLoop (g.edges.length + 1) [] nodeId).filter g.present

/-- Where `play_scoped_node_ids` goes on from a node. -/
def scopedChildren : List String :=
  (g.edges.filter fun edge => edge.source = nodeId && g.isPositionalEdge edge).map Edge.target

/-- The play and what is below it, as a set. -/
def playScopedNodeIds (playId : String) : List String :=
  playId :: worklist g.scopedChildren (g.edges.length + 2) [playId] []

def scopedParents (scope : List String) (nodeId : String) : List String :=
  (g.positionalParents nodeId).filter (· ∈ scope)

/-- One level of parents: those seen after it, and the parents of the new ones. -/
def climb (g : ContentGraph) (scope : List String) :
    List String → List String → List String × List String
  | [], seen => (seen, [])
  | parent :: level, seen =>
    if parent ∈ seen then climb g scope level seen
    else
      let rest := climb g scope level (seen ++ [parent])
      (rest.1, (g.scopedParents scope parent).filter (· ∉ seen ++ [parent]) ++ rest.2)

def climbLevels (g : ContentGraph) (scope : List String) :
    Nat → List String → List String → List String
  | 0, _, seen => seen
  | fuel + 1, level, seen =>
    if level = [] then seen
    else
      let above := climb g scope level seen
      climbLevels g scope fuel (sortIds above.2.dedup) above.1

/-- Every level but the last sees a new source of an edge. -/
def playScopedPositionalAncestors (scope : List String) : List String :=
  (g.climbLevels scope (g.edges.length + 2) (sortIds (g.scopedParents scope nodeId)) []).filter
    g.present

end ContentGraph

theorem Keeps.isPositionalEdge {g h : ContentGraph} (hk : Keeps ContentNode.nodeType g h)
    (edge : Edge) : h.isPositionalEdge edge = g.isPositionalEdge edge := by
  have src := hk edge.source
  have tgt := hk edge.target
  unfold ContentGraph.isPositionalEdge
  cases edge.edgeType with
  | dependency =>
    simp only
    cases hg : g.getNode edge.source <;> cases hh : h.getNode edge.source <;>
      cases toG : g.getNode edge.target <;> cases toH : h.getNode edge.target <;>
        simp_all
  | _ => rfl

section Reaching

variable {g : ContentGraph}

theorem mem_successors_iff (src tgt : String) :
    tgt ∈ g.successors src ↔ ∃ e ∈ g.edges, e.source = src ∧ e.target = tgt := by
  simp [successors, and_assoc]

theorem outEdges_perm (par : String) : (g.outEdges par).Perm
    (g.edges.filter fun e => e.source = par) := by
  refine perm_iff_count.mpr fun e => ?_
  rw [← count_filter (p := fun o => o.target = e.target) (by simp), ContentGraph.outEdges,
    filter_groupOn, count_filter (by simp)]

variable (rootId nodeId : String)

theorem mem_worklist_successors_iff : nodeId ∈ worklist g.successors (g.edges.length + 2) [rootId] [] ↔
      Leads g.successors rootId nodeId := by
  have hb : ∀ x, g.successors x ⊆ g.edges.map Edge.target := by
    intro x tgt mem
    obtain ⟨e, hg, -, rfl⟩ := (mem_successors_iff x tgt).mp mem
    exact mem_map_of_mem hg
  exact mem_worklist_iff hb rootId (g.edges.length + 2) (by rw [length_map]; omega)
    (nil_sublist _) not_mem_nil

theorem mem_descendants_iff :
    nodeId ∈ g.descendants rootId ↔ nodeId ≠ rootId ∧ Leads g.successors rootId nodeId := by
  unfold descendants
  rw [mem_filter, mem_worklist_successors_iff]
  by_cases hR : nodeId = rootId
  · simp [hR]
  · simp [hR]

theorem not_leads_self (ha : g.isAcyclic) (nodeId : String) :
    ¬Leads g.successors nodeId nodeId := by
  intro hc
  obtain ⟨next, first, rest⟩ := head'_iff.mp hc
  obtain ⟨e, hg, rfl, rfl⟩ := (mem_successors_iff _ _).mp first
  have hf := all_eq_true.mp ha e hg
  simp only [ne_eq, decide_not, Bool.and_eq_true, Bool.not_eq_true', decide_eq_false_iff_not]
    at hf
  obtain ⟨hl, hr⟩ := hf
  rcases Relation.reflTransGen_iff_eq_or_transGen.mp rest with hs | hle
  · exact hl hs
  · apply hr
    refine mem_filter.mpr ⟨(mem_worklist_successors_iff _ _).mpr hle, ?_⟩
    simpa using hl

variable {nodeId : String}

theorem leads_of_edge {e : Edge} (hg : e ∈ g.edges)
    (ho : e.target = nodeId ∨ Leads g.successors e.target nodeId) :
    Leads g.successors e.source nodeId := by
  have first : e.target ∈ g.successors e.source := (mem_successors_iff _ _).mpr ⟨e, hg, rfl, rfl⟩
  rcases ho with rfl | hl
  · exact single first
  · exact head first hl

variable {current parent : String}

theorem leads_of_containsParent (hf : g.containsParent current = some parent)
    (ho : current = nodeId ∨ Leads g.successors current nodeId) :
    Leads g.successors parent nodeId := by
  have hj := List.find?_some hf
  obtain ⟨e, hg, he⟩ := any_eq_true.mp hj
  simp only [Bool.and_eq_true, decide_eq_true_eq] at he
  obtain ⟨⟨rfl, rfl⟩, -⟩ := he
  exact leads_of_edge hg ho

variable {ancestor : String}

theorem leads_of_mem_ancestorsLoop (fuel : Nat) (visited : List String)
    (current : String) (ho : current = nodeId ∨ Leads g.successors current nodeId)
    (mem : ancestor ∈ g.ancestorsLoop fuel visited current) :
    Leads g.successors ancestor nodeId := by
  induction fuel generalizing visited current with
  | zero => cases mem
  | succ fuel ih =>
    rw [ancestorsLoop] at mem
    split at mem
    · cases mem
    next par hf =>
      have hl := leads_of_containsParent hf ho
      split at mem
      · cases mem
      · rcases mem_cons.mp mem with rfl | hla
        · exact hl
        · exact ih (par :: visited) par (.inr hl) hla

theorem leads_of_mem_ancestors (mem : ancestor ∈ g.ancestors nodeId) :
    Leads g.successors ancestor nodeId :=
  leads_of_mem_ancestorsLoop _ _ nodeId (.inl rfl) (mem_filter.mp mem).1

variable {scope : List String}

theorem leads_of_mem_scopedParents (ho : current = nodeId ∨ Leads g.successors current nodeId)
    (mem : parent ∈ g.scopedParents scope current) : Leads g.successors parent nodeId := by
  obtain ⟨e, hl, rfl⟩ := mem_map.mp (mem_filter.mp mem).1
  obtain ⟨hg, he⟩ := mem_filter.mp hl
  simp only [Bool.and_eq_true, decide_eq_true_eq] at he
  obtain ⟨rfl, -⟩ := he
  exact leads_of_edge hg ho

theorem climb_above (scope : List String) (level seen : List String)
    (hla : ∀ id ∈ level, Leads g.successors id nodeId)
    (ha : ∀ id ∈ seen, Leads g.successors id nodeId) :
    (∀ id ∈ (g.climb scope level seen).1, Leads g.successors id nodeId) ∧
      ∀ id ∈ (g.climb scope level seen).2, Leads g.successors id nodeId := by
  induction level generalizing seen with
  | nil => exact ⟨ha, by simp [climb]⟩
  | cons parent level ih =>
    have hpa := hla parent mem_cons_self
    have hra := fun id mem => hla id (mem_cons_of_mem parent mem)
    rw [climb]
    split
    · exact ih seen hra ha
    · have hg : ∀ id ∈ seen ++ [parent], Leads g.successors id nodeId := by
        intro id mem
        rcases mem_append.mp mem with hb | last
        · exact ha id hb
        · rw [mem_singleton.mp last]
          exact hpa
      obtain ⟨first, hs⟩ := ih (seen ++ [parent]) hra hg
      refine ⟨first, ?_⟩
      intro id mem
      rcases mem_append.mp mem with new | hl
      · exact leads_of_mem_scopedParents (.inr hpa) (mem_filter.mp new).1
      · exact hs id hl

theorem climbLevels_above (fuel : Nat)
    (level seen : List String) (hla : ∀ id ∈ level, Leads g.successors id nodeId)
    (ha : ∀ id ∈ seen, Leads g.successors id nodeId) :
    ∀ id ∈ g.climbLevels scope fuel level seen, Leads g.successors id nodeId := by
  induction fuel generalizing level seen with
  | zero => exact ha
  | succ fuel ih =>
    rw [climbLevels]
    split
    · exact ha
    · obtain ⟨first, hs⟩ := climb_above scope level seen hla ha
      refine ih _ _ ?_ first
      intro id mem
      exact hs id (mem_dedup.mp ((mem_insertionSort _).mp mem))

theorem leads_of_mem_scopedAncestors (mem : ancestor ∈ g.playScopedPositionalAncestors nodeId scope)
    : Leads g.successors ancestor nodeId := by
  refine climbLevels_above (g.edges.length + 2) _ [] ?_ (by simp) ancestor (mem_filter.mp mem).1
  intro id hl
  exact leads_of_mem_scopedParents (.inl rfl) ((mem_insertionSort _).mp hl)

end Reaching

end Apme.Graph
