import Apme.Graph.Serialization
import Apme.Lib.Worklist

/-!
# Execution edges as a pre-order walk

If the mainline edges of a graph are a forest, its execution edges join the
neighbours in the pre-order walks from the roots.
-/

set_option autoImplicit false

namespace Apme.Graph

open Apme.Lib List Relation ContentGraph Edge

namespace ContentGraph

/-- The edge leads to a mainline child. -/
def isMainline (g : ContentGraph) (edge : Edge) : Bool :=
  g.isPositionalEdge edge && !(edge.edgeType = .contains && g.isBranch edge)

/-- The exit of a node in the execution edges. -/
def exit (g : ContentGraph) : String → String := lastExit g.executionChildren (g.edges.length + 1) []

def IsRoot (children : String → List String) (node : String) : Prop := ∀ parent, node ∉ children parent

structure MainForest (g : ContentGraph) : Prop where
  oneParent : ((g.edges.filter g.isMainline).map target).Nodup
  acyclic : ∀ node, ¬ Leads g.executionChildren node node

end ContentGraph

section Walk

variable {g : ContentGraph}

theorem executionChildren_perm (par : String) : (g.executionChildren par).Perm
    (((g.edges.filter g.isMainline).filter fun e => e.source = par).map target) := by
  refine ((sortOn_perm _ _).map _).trans (.map _ ?_)
  rw [filter_comm]
  exact (outEdges_perm par).filter _

variable {parent child : String}

theorem mem_executionChildren :
    child ∈ g.executionChildren parent ↔ ∃ e ∈ g.edges.filter g.isMainline,
      e.source = parent ∧ e.target = child := by
  simp [(executionChildren_perm parent).mem_iff, and_assoc, and_left_comm]

theorem ends_of_child (hC : child ∈ g.executionChildren parent) :
    parent ∈ g.edges.map source ∧ child ∈ g.edges.map target := by
  obtain ⟨e, hg, rfl, rfl⟩ := mem_executionChildren.mp hC
  exact ⟨mem_map_of_mem (mem_of_mem_filter hg), mem_map_of_mem (mem_of_mem_filter hg)⟩

theorem executionSegment_cons (exit : String → String) (before n : String) (rest : List String) :
    executionSegment exit before (n :: rest) = (before, n) :: executionSegment exit (exit n) rest := by
  cases rest <;> rfl

variable (forest : g.MainForest)
include forest

variable {nodes walk : List String}

/-- The last exit of a node is the end of its walk: what is visited leads to the
node and is the source of an edge, so the search neither stops early nor runs
out of fuel. -/
theorem lastExit_walk (hw : Walks g.executionChildren nodes walk)
    {last : String} (hL : nodes.getLast? = some last) (fuel : Nat) (visited : List String)
    (hn : visited.Nodup)
    (hl : ∀ n ∈ visited, n ∈ g.edges.map source ∧ Leads g.executionChildren n last)
    (hen : g.edges.length + 1 ≤ visited.length + fuel) :
    walk.getLast? = some (lastExit g.executionChildren fuel visited last) := by
  induction hw generalizing last fuel visited with
  | nil => cases hL
  | @cons n rest below later hbe hla ihBelow ihLater =>
    cases rest with
    | cons next rest =>
      rw [getLast?_cons_cons] at hL
      rw [getLast?_append, ihLater hL fuel visited hn hl hen, Option.some_or]
    | nil =>
      cases hla
      obtain rfl : n = last := by simpa using hL
      have new : n ∉ visited := fun old => forest.acyclic n (hl n old).2
      have hb := (hn.subperm fun n old => (hl n old).1).length_le
      rw [length_map] at hb
      obtain ⟨fuel, rfl⟩ : ∃ less, fuel = less + 1 := ⟨fuel - 1, by omega⟩
      rw [lastExit, if_neg new, append_nil]
      cases he : (g.executionChildren n).getLast? with
      | none =>
        rw [getLast?_eq_none_iff.mp he] at hbe
        cases hbe
        rfl
      | some child =>
        have hC := mem_of_getLast? he
        have ho := ihBelow he fuel (n :: visited) (nodup_cons.mpr ⟨new, hn⟩)
          (forall_mem_cons.mpr ⟨⟨(ends_of_child hC).1, .single hC⟩,
            fun old mem => ⟨(hl old mem).1, (hl old mem).2.tail hC⟩⟩)
          (by rw [length_cons]; omega)
        rw [getLast?_cons, ho, Option.getD_some]

theorem consecutive_walk (hwa : Walks g.executionChildren nodes walk)
    (before : String) (pair : String × String) :
    pair ∈ consecutive (before :: walk) ↔ pair ∈ executionSegment g.exit before nodes ∨
      ∃ n ∈ walk, pair ∈ executionSegment g.exit n (g.executionChildren n) := by
  induction hwa generalizing before with
  | nil => simp [consecutive, executionSegment]
  | @cons n rest below later hb hl ihBelow ihLater =>
    have he : (n :: below).getLast? = some (g.exit n) := by
      have hw := lastExit_walk forest (.cons hb .nil) rfl (g.edges.length + 1) [] nodup_nil (by simp) (by simp)
      rwa [append_nil] at hw
    obtain ⟨front, hF⟩ := getLast?_eq_some_iff.mp he
    have cut : consecutive (before :: (n :: below ++ later)) =
        (before, n) :: (consecutive (n :: below) ++ consecutive (g.exit n :: later)) := by
      refine congrArg (cons (before, n)) (?_ : consecutive (n :: below ++ later) = _)
      rw [hF, append_assoc, singleton_append, consecutive_append]
    rw [cut, executionSegment_cons, mem_cons, mem_append, ihBelow n, ihLater (g.exit n)]
    simp only [mem_cons, cons_append, mem_append, or_and_right, exists_or, exists_eq_left]
    rw [or_assoc, or_assoc, or_left_comm (b := pair ∈ executionSegment _ _ rest)]
    exact or_congr_right or_left_comm

/-- Every node has one pre-order walk, the execution edges are the neighbours in
the walks of the roots, and a node that is not a root has one edge to it. -/
theorem executionEdges_preorder :
    (∀ node, ∃! walk, Walks g.executionChildren [node] walk) ∧
      (∀ pair, pair ∈ g.executionEdges ↔ ∃ root walk, IsRoot g.executionChildren root ∧
        Walks g.executionChildren [root] walk ∧ pair ∈ consecutive walk) ∧
      ∀ node, ¬ IsRoot g.executionChildren node → (g.executionEdges.map Prod.snd).count node = 1 := by
  have walked := exists_walk forest.acyclic ((g.edges.map target).finite_toSet.subset
    fun _ ⟨_, isChild⟩ => (ends_of_child isChild).2)
  have rooted := exists_root forest.acyclic ((g.edges.map source).finite_toSet.subset
    fun _ ⟨_, isChild⟩ => (ends_of_child isChild).1)
  refine ⟨fun node => ?_, fun pair => ?_, fun node child => ?_⟩
  · obtain ⟨walk, walks⟩ := walked [node]
    exact ⟨walk, walks, fun other again => walks.unique again⟩
  · have joins : ∀ {root walk}, Walks g.executionChildren [root] walk → (pair ∈ consecutive walk ↔
        ∃ node ∈ walk, pair ∈ executionSegment g.exit node (g.executionChildren node)) := by
      rintro root _ (_ | ⟨below, ⟨⟩⟩)
      rw [append_nil, consecutive_walk forest below root pair, exists_mem_cons_iff]
    constructor
    · intro mem
      obtain ⟨parent, -, inSegment⟩ := mem_flatMap.mp mem
      obtain ⟨root, isRoot, leads⟩ := rooted parent
      obtain ⟨walk, walks⟩ := walked [root]
      exact ⟨root, walk, isRoot, walks, (joins walks).mpr ⟨parent, walks.mem leads mem_cons_self, inSegment⟩⟩
    · rintro ⟨root, walk, -, walks, mem⟩
      obtain ⟨node, -, inSegment⟩ := (joins walks).mp mem
      refine mem_flatMap.mpr ⟨node, ?_, inSegment⟩
      by_contra other
      rw [executionChildren_of_notMem g other] at inSegment
      cases inSegment
  · obtain ⟨parent, isChild⟩ := not_forall_not.mp child
    have all : g.executionEdges.map Prod.snd = g.executionParents.flatMap g.executionChildren := by
      simp only [executionEdges, map_flatMap, targets_executionSegment]
    have nodup : (g.executionParents.flatMap g.executionChildren).Nodup := by
      refine nodup_flatMap.mpr ⟨fun parent _ => ?_, ?_⟩
      · exact (executionChildren_perm parent).nodup_iff.mpr (forest.oneParent.sublist (filter_sublist.map _))
      · have distinct : g.executionParents.Nodup := (sortIds_perm _).nodup_iff.mpr ((nodup_dedup _).filter _)
        refine distinct.pairwise_of_forall_ne fun one _ two _ differ node inOne inTwo => ?_
        obtain ⟨first, firstIn, rfl, isTarget⟩ := mem_executionChildren.mp inOne
        obtain ⟨second, secondIn, rfl, again⟩ := mem_executionChildren.mp inTwo
        exact differ (congrArg _ (inj_on_of_nodup_map forest.oneParent firstIn secondIn (isTarget.trans again.symm)))
    rw [all]
    refine count_eq_one_of_mem nodup (mem_flatMap.mpr ⟨parent, ?_, isChild⟩)
    by_contra other
    rw [executionChildren_of_notMem g other] at isChild
    cases isChild

end Walk

/-- The children in the order in which the mainline edges were added. -/
def insertionChildren (g : ContentGraph) (parent : String) : List String :=
  (sortOn executionRank ((g.edges.filter g.isMainline).filter fun edge => edge.source = parent)).map target

/-- A child that another edge had led to before the first child was added. -/
def notifiedFirst : ContentGraph where
  nodes := .empty
  edges := [⟨"play", "b", .notify, 0⟩, ⟨"play", "a", .contains, 0⟩, ⟨"play", "b", .contains, 0⟩]

theorem notifiedFirst_forest : notifiedFirst.MainForest := by
  refine ⟨by decide, fun n hl => ?_⟩
  have he : ∀ e ∈ notifiedFirst.edges.filter notifiedFirst.isMainline,
      e.source = "play" ∧ e.target ≠ "play" := by
    decide
  obtain ⟨_, hC, _⟩ := TransGen.head'_iff.mp hl
  obtain ⟨_, _, ht⟩ := TransGen.tail'_iff.mp hl
  obtain ⟨first, hfi, rfl, -⟩ := mem_executionChildren.mp hC
  obtain ⟨second, hi, -, hT⟩ := mem_executionChildren.mp ht
  exact (he second hi).2 (hT.trans (he first hfi).1)

theorem notifiedFirst_joined : ∃ root walk, IsRoot notifiedFirst.executionChildren root ∧
    Walks notifiedFirst.executionChildren [root] walk ∧ ("play", "b") ∈ consecutive walk :=
  ((executionEdges_preorder notifiedFirst_forest).2.1 _).mp (by decide)

theorem notifiedFirst_otherwise : notifiedFirst.MainForest ∧ ∃ walk,
    IsRoot (insertionChildren notifiedFirst) "play" ∧ Walks (insertionChildren notifiedFirst) ["play"] walk ∧
      ("play", "a") ∈ consecutive walk ∧ ("play", "a") ∉ notifiedFirst.executionEdges := by
  refine ⟨notifiedFirst_forest, ["play", "a", "b"], fun parent mem => ?_, ?_, by decide, by decide⟩
  · obtain ⟨edge, inGraph, isTarget⟩ := mem_map.mp mem
    have others : ∀ edge ∈ notifiedFirst.edges, edge.target ≠ "play" := by decide
    exact others edge (mem_of_mem_filter (mem_of_mem_filter ((sortOn_perm _ _).mem_iff.mp inGraph))) isTarget
  · exact @Walks.cons _ _ _ _ ["a", "b"] [] (@Walks.cons _ _ _ _ [] ["b"] .nil (@Walks.cons _ _ _ _ [] [] .nil .nil)) .nil

end Apme.Graph
