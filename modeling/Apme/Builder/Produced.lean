import Apme.Builder.Invariant
import Apme.Graph.Lifecycle
import Apme.Graph.Rejection
import Apme.Graph.Serialization

/-!
# Serializing the graphs of the engine

A graph is built and then changed by snapshots, new texts, approvals and ledger
operations.  The builder adds edges only from nodes it has added, and snapshots
are named when they are recorded, so a graph of the engine comes back from its
dict just when its states are its last snapshots and the order of the ids is the
order in which edges were added.
-/

set_option autoImplicit false

namespace Apme.Builder

open Apme.Lib Apme.Graph List Option ContentGraph ContentNode

section Produced

/-- The graphs of the engine: built, with data-flow edges between their nodes, and
then changed by any sequence of operations. -/
inductive Produced : ContentGraph → Prop
  | built {limit : Nat} {p : Project} {b : GraphBuilder} (ended : build limit p = .ok b) :
      Produced b.graph
  | dataFlow {g : ContentGraph} (producer consumer : String) (so : Produced g)
      (present : g.present producer) :
      Produced { g with edges := g.edges ++ [⟨producer, consumer, .dataFlow, 0⟩] }
  | snapshot {g : ContentGraph} (nodeId : String) (op : SnapshotOp) (so : Produced g) :
      Produced (op.apply nodeId g)
  | rewrite {g : ContentGraph} (nodeId : String) (text : Text) (so : Produced g) :
      Produced (g.rewrite nodeId text)
  | ledger {g : ContentGraph} (op : LedgerOp) (so : Produced g) : Produced (op.apply g)
  | clearDirty {g : ContentGraph} (so : Produced g) : Produced g.clearDirty

/-- What the operations keep. -/
structure Sound (g : ContentGraph) : Prop where
  named : g.SnapshotsNamed
  sourced : ∀ edge ∈ g.edges, g.present edge.source

variable {g : ContentGraph}

theorem Sound.parentsPresent (sound : Sound g) : g.ParentsPresent := by
  rintro par id ⟨e, hg, rfl, -⟩
  exact sound.sourced e hg

/-- An operation on single nodes that keeps their snapshots named. -/
def KeepsNamed (act : ContentNode → ContentNode) : Prop :=
  ∀ node : ContentNode, (∀ entry ∈ node.progression, entry.id ≠ "") →
    ∀ entry ∈ (act node).progression, entry.id ≠ ""

variable {act : ContentNode → ContentNode}

theorem Sound.modifyNode (sound : Sound g) (id : String) (hk : KeepsNamed act) : Sound
    (g.modifyNode id act) where
  named := by
    intro o n hf
    rw [getNode_modifyNode] at hf
    split at hf
    · obtain ⟨old, hO, rfl⟩ := map_eq_some_iff.mp hf
      exact hk old (sound.named id old hO)
    · exact sound.named o n hf
  sourced := by
    intro e mem
    have here := sound.sourced e mem
    unfold present at here ⊢
    rw [getNode_modifyNode]
    split
    next hs => rwa [isSome_map, ← hs]
    next => exact here

theorem Sound.mapNodes (sound : Sound g)
    (hk : KeepsNamed act) : Sound (g.mapNodes act) where
  named := by
    intro o n hf
    rw [getNode_mapNodes] at hf
    obtain ⟨old, hO, rfl⟩ := map_eq_some_iff.mp hf
    exact hk old (sound.named o old hO)
  sourced := by
    intro e mem
    have here := sound.sourced e mem
    unfold present at here ⊢
    rwa [getNode_mapNodes, isSome_map]

theorem keepsNamed_of_progression
    (hs : ∀ n, (act n).progression = n.progression) : KeepsNamed act := by
  intro n hn
  rw [hs]
  exact hn

theorem keepsNamed_recordState (id : String) (pass : Nat) (phase : Phase)
    (src : Source) : KeepsNamed (recordState id pass phase src) := by
  intro n hn e mem
  rcases mem_append.mp mem with old | new
  · split at old
    · exact hn e (mem_of_mem_tail old)
    · exact hn e old
  · rw [mem_singleton.mp new]
    intro he
    have hc := congrArg String.toList he
    simp at hc

theorem keepsNamed_approvePending (sf : Option Source) :
    KeepsNamed (approvePending sf) := by
  intro n hn e mem
  obtain ⟨old, hp, rfl⟩ := mem_map.mp mem
  unfold NodeState.approveIf
  split
  · exact hn old hp
  · exact hn old hp

theorem keepsNamed_rollback : KeepsNamed rollback := by
  intro n hn e mem
  unfold rollback at mem
  split at mem
  · exact hn e mem
  · dsimp only at mem
    split at mem
    · exact hn e mem
    · exact hn e (mem_of_mem_take mem)

section

variable (sound : Sound g) (nodeId : String)

include sound

theorem Sound.transitionViolations (fromStatus dst : Status) (clear : Bool) :
    Sound (g.transitionViolations nodeId fromStatus dst clear) :=
  sound.modifyNode nodeId (keepsNamed_of_progression fun _ => rfl)

theorem Sound.approvePending
    (sf : Option Source) : Sound (g.approvePending nodeId sf) := by
  unfold ContentGraph.approvePending
  split
  · exact sound.mapNodes (keepsNamed_approvePending sf)
  · exact sound.modifyNode nodeId (keepsNamed_approvePending sf)

theorem Sound.snapshot (op : SnapshotOp) : Sound (op.apply nodeId g) := by
  cases op with
  | update t => exact sound.modifyNode nodeId (keepsNamed_of_progression fun _ => rfl)
  | record pass phase src =>
    exact sound.modifyNode nodeId (keepsNamed_recordState nodeId pass phase src)
  | approvePending wholeGraph sf => exact sound.approvePending _ sf
  | approve => exact (sound.approvePending nodeId none).transitionViolations nodeId _ _ _
  | reject =>
    exact (sound.transitionViolations nodeId _ _ _).modifyNode nodeId keepsNamed_rollback

end

theorem Sound.ledger (hs : Sound g) (op : LedgerOp) : Sound (op.apply g) := by
  cases op with
  | register vs pass =>
    exact foldl_invariant (fun _ v _ hs =>
      hs.modifyNode v.path (keepsNamed_of_progression fun _ => rfl)) g hs
  | resolve id rem fixedBy pass resolution =>
    exact hs.modifyNode id (keepsNamed_of_progression fun _ => rfl)
  | abstain id ruleIds reasons =>
    exact hs.modifyNode id (keepsNamed_of_progression fun _ => rfl)
  | approvePendingReview id => exact hs.transitionViolations id _ _ _
  | declinePendingReview id => exact hs.transitionViolations id _ _ _
  | approveProposed id => exact hs.transitionViolations id _ _ _
  | declineProposed id => exact hs.transitionViolations id _ _ _
  | declineOpen vs =>
    exact foldl_invariant (fun _ v _ hs =>
      hs.modifyNode v.path (keepsNamed_of_progression fun _ => rfl)) g hs

variable {limit : Nat} {p : Project} {b : GraphBuilder}

theorem fresh_of_builds (hbu : Builds p {} b) : (∀ e ∈ b.graph.edges, b.has e.source) ∧
    ∀ id n, b.graph.getNode id = some n → n.progression = [] := by
  have ha : ∀ (b : GraphBuilder) (id : String) (n : ContentNode) (origin : Origin),
      n.progression = [] → (∀ o old, b.graph.getNode o = some old → old.progression = []) →
        ∀ o new, (b.addNode id n origin).graph.getNode o = some new → new.progression = [] := by
    intro b id n origin hb ih o new hf
    have hl : (b.graph.nodes.insert id n).get? o = some new := hf
    rw [Dict.get?_insert] at hl
    split at hl
    · cases hl
      exact hb
    · exact ih o new hl
  induction hbu with
  | refl => constructor <;> simp [getNode, Dict.get?_empty]
  | tail _ ht ih =>
    have hs := fun e mem => (Builds.single ht).has (ih.1 e mem)
    cases ht with
    | addEdge src tgt kind pos has =>
      refine ⟨fun e mem => ?_, ih.2⟩
      rcases mem_append.mp mem with old | new
      · exact ih.1 e old
      · rw [mem_singleton.mp new]
        exact has
    | visit => exact ih
    | addBare id n _ hb => exact ⟨hs, ha _ id n .none hb ih.2⟩
    | _ => exact ⟨hs, ha _ _ _ _ rfl ih.2⟩

theorem blank_of_build (he : build limit p = .ok b) {id : String} {n : ContentNode}
    (hf : b.graph.getNode id = some n) : n.progression = [] := by
  have hb := builds_build limit p
  rw [he] at hb
  exact (fresh_of_builds hb).2 id n hf

theorem sound_of_build (he : build limit p = .ok b) : Sound b.graph := by
  have hb := builds_build limit p
  rw [he] at hb
  refine ⟨fun id n hf e mem => ?_, (fresh_of_builds hb).1⟩
  rw [blank_of_build he hf] at mem
  cases mem

theorem Produced.sound (hp : Produced g) : Sound g := by
  induction hp with
  | built he => exact sound_of_build he
  | dataFlow producer consumer so here ih =>
    refine ⟨ih.named, ?_⟩
    intro e mem
    rcases mem_append.mp mem with old | new
    · exact ih.sourced e old
    · rw [mem_singleton.mp new]
      exact here
  | snapshot id op so ih => exact ih.snapshot id op
  | rewrite id t so ih =>
    have hr := ih.snapshot id (.update t)
    exact ⟨hr.named, hr.sourced⟩
  | ledger op so ih => exact ih.ledger op
  | clearDirty so ih => exact ⟨ih.named, ih.sourced⟩

/-- A graph of the engine comes back from its dict just when its states are its
last snapshots and the order of the ids is the order of the edges. -/
theorem serialization_faithful_iff {g : ContentGraph} (produced : Produced g) :
    (∃ restored, fromDict g.toDict = some restored ∧ g.RoundTrips restored) ↔ g.Restorable := by
  have sound := produced.sound
  rw [← roundTrips_iff sound.named sound.parentsPresent, fromDict_toDict]
  simp

/-- A task file with one task. -/
def oneTaskProject : Project where
  heap := [.taskfile { definedIn := "tasks/main.yml", tasks := [.object 1] }, .task {}]
  root := { taskfiles := [0] }

theorem oneTask_comes_back :
    ∃ b, build 1 oneTaskProject = .ok b ∧
      ∃ restored, fromDict b.graph.toDict = some restored ∧ b.graph.RoundTrips restored := by
  obtain ⟨b, ended, edges⟩ : ∃ b, build 1 oneTaskProject = .ok b ∧
      b.graph.edges = [⟨"tasks/main.yml", "tasks/main.yml/tasks[0]", .contains, 0⟩] :=
    ⟨_, rfl, by decide⟩
  refine ⟨b, ended, (serialization_faithful_iff (Produced.built ended)).mpr ⟨?_, ?_, ?_⟩⟩
  · intro nodeId node found recorded
    exact absurd (blank_of_build ended found) recorded
  · intro parent
    refine pairwise_of_forall_mem_list ?_
    intro a inA b inB _
    have isA := (mem_outEdges _ (mem_filter.mp inA).1).1
    have isB := (mem_outEdges _ (mem_filter.mp inB).1).1
    rw [edges, mem_singleton] at isA isB
    rw [isA, isB]
  · intro nodeId first found parent contains
    obtain ⟨a, inA, rfl, -⟩ := contains_of_containsParent found
    obtain ⟨b, inB, rfl, -⟩ := contains
    rw [edges, mem_singleton] at inA inB
    rw [inA, inB]

/-- A task is scanned, changed by the AI, and what is deterministic is approved. -/
def approvedBelow (g : ContentGraph) : ContentGraph :=
  [SnapshotOp.record 0 .scanned .unset, .update "- command: ls\n".toList,
    .record 1 .aiTransformed .ai, .approvePending true (some .deterministic)].foldl
      (SnapshotOp.apply "tasks/main.yml/tasks[0]") g

theorem Produced.approvedBelow (produced : Produced g) : Produced (approvedBelow g) :=
  foldl_invariant (fun _ op _ so => so.snapshot _ op) g produced

/-- The state of the task is the approved snapshot, and the pending one after it
in the restored graph. -/
theorem approvedState_replaced :
    ∃ b restored, build 1 oneTaskProject = .ok b ∧ Produced (approvedBelow b.graph) ∧
      fromDict (approvedBelow b.graph).toDict = some restored ∧
      restored.toDict ≠ (approvedBelow b.graph).toDict ∧
      ((approvedBelow b.graph).getNode "tasks/main.yml/tasks[0]").bind (·.state.map (·.source)) =
        some .unset ∧
      (restored.getNode "tasks/main.yml/tasks[0]").bind (·.state.map (·.source)) = some .ai := by
  refine ⟨_, _, rfl, ?_, rfl, by decide, by decide, by decide⟩
  exact (Produced.built (rfl : build 1 oneTaskProject = .ok _)).approvedBelow

end Produced

end Apme.Builder
