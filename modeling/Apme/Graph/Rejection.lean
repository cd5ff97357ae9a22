import Apme.Graph.Settling
import Mathlib

/-!
# Snapshots and what a rejection restores

The operations that read or write the progression of one node, in any order and
number.  As long as no snapshot is dropped, the approved ones come first, the
first text is recorded before it is changed and nothing unrecorded is rejected,
a rejection goes back to the last approved snapshot, or else to the first one.
-/

set_option autoImplicit false

namespace Apme.Graph

open Apme.Lib List ContentNode

inductive SnapshotOp
  | update (text : Text)
  | record (passNumber : Nat) (phase : Phase) (source : Source)
  | approvePending (wholeGraph : Bool) (sourceFilter : Option Source)
  | approve
  | reject

namespace SnapshotOp

/-- The operation on a graph, for one of its nodes. -/
def apply (nodeId : String) (g : ContentGraph) : SnapshotOp → ContentGraph
  | .update text => g.modifyNode nodeId (updateFromYaml text)
  | .record passNumber phase source => g.recordState nodeId passNumber phase source
  | .approvePending wholeGraph sourceFilter =>
    g.approvePending (if wholeGraph then "" else nodeId) sourceFilter
  | .approve => g.approveNode nodeId
  | .reject => g.rejectNode nodeId

/-- What it does to the node. -/
def act (nodeId : String) : SnapshotOp → ContentNode → ContentNode
  | .update text => updateFromYaml text
  | .record passNumber phase source => recordState nodeId passNumber phase source
  | .approvePending _ sourceFilter => ContentNode.approvePending sourceFilter
  | .approve => ContentNode.approve
  | .reject => ContentNode.reject

end SnapshotOp

theorem getNode_approvePending (g : ContentGraph) (id scope : String)
    (hs : scope = "" ∨ scope = id) (sf : Option Source) :
    (g.approvePending scope sf).getNode id = (g.getNode id).map (approvePending sf) := by
  unfold ContentGraph.approvePending
  split
  next => rw [ContentGraph.getNode_mapNodes]
  next hn =>
    rw [hs.resolve_left hn, ContentGraph.getNode_modifyNode_self]

variable (nodeId : String)

theorem getNode_apply (g : ContentGraph) (op : SnapshotOp) :
    (op.apply nodeId g).getNode nodeId = (g.getNode nodeId).map (op.act nodeId) := by
  cases op with
  | update t => exact ContentGraph.getNode_modifyNode_self g nodeId _
  | record pass phase src => exact ContentGraph.getNode_modifyNode_self g nodeId _
  | approvePending wholeGraph sf =>
    apply getNode_approvePending
    cases wholeGraph with
    | true => exact .inl rfl
    | false => exact .inr rfl
  | approve =>
    have ha := getNode_approvePending g nodeId nodeId (.inr rfl) none
    have hp := actsOn_transition nodeId .pendingReview .fixed false
      (g.approvePending nodeId none) nodeId
    rw [if_pos rfl, ha, Option.map_map] at hp
    exact hp
  | reject =>
    have hr := actsOn_rejectNode nodeId g nodeId
    rw [if_pos rfl] at hr
    exact hr

def runSnapshots (nodeId : String) (g : ContentGraph) (ops : List SnapshotOp) : ContentGraph :=
  ops.foldl (SnapshotOp.apply nodeId) g

theorem getNode_runSnapshots (g : ContentGraph) (ops : List SnapshotOp) :
    (runSnapshots nodeId g ops).getNode nodeId =
      (g.getNode nodeId).map fun node => ops.foldl (fun node op => op.act nodeId node) node := by
  induction ops generalizing g with
  | nil => simp [runSnapshots]
  | cons op rest ih =>
    rw [runSnapshots, foldl_cons, ← runSnapshots, ih, getNode_apply, Option.map_map]
    rfl

/-- The text of the node when its first snapshot is taken. -/
def firstRecorded (nodeId : String) : List SnapshotOp → ContentNode → Option Text
  | [], _ => none
  | .record _ _ _ :: _, node => some node.yamlLines
  | op :: rest, node => firstRecorded nodeId rest (op.act nodeId node)

/-- The entry is neither approved nor approved by the filter. -/
def staysPending (sourceFilter : Option Source) (entry : NodeState) : Bool :=
  !entry.approved && !entry.passesFilter sourceFilter

/-- What the state before an operation has to be like. -/
def SnapshotOp.Allowed (node : ContentNode) : SnapshotOp → Prop
  | .update text => node.progression = [] → text = node.yamlLines
  | .record _ _ _ => node.progression.length < maxProgression
  | .approvePending _ sourceFilter =>
    node.progression.Pairwise fun earlier later =>
      staysPending sourceFilter earlier → staysPending sourceFilter later
  | .approve => True
  | .reject => ∀ last, node.progression.getLast? = some last →
      (∀ entry ∈ node.progression, entry.approved) → node.yamlLines = last.yamlLines

instance decidableAllowed (node : ContentNode) : (op : SnapshotOp) → Decidable (op.Allowed node)
  | .update text => inferInstanceAs (Decidable (node.progression = [] → text = node.yamlLines))
  | .record _ _ _ => inferInstanceAs (Decidable (node.progression.length < maxProgression))
  | .approvePending _ sourceFilter =>
    inferInstanceAs (Decidable (node.progression.Pairwise fun earlier later =>
      staysPending sourceFilter earlier → staysPending sourceFilter later))
  | .approve => isTrue trivial
  | .reject =>
    inferInstanceAs (Decidable (∀ last, node.progression.getLast? = some last →
      (∀ entry ∈ node.progression, entry.approved) → node.yamlLines = last.yamlLines))

/-- Every operation of a run is allowed in the state it finds. -/
def AllowedRun (nodeId : String) : List SnapshotOp → ContentNode → Prop
  | [], _ => True
  | op :: rest, node => op.Allowed node ∧ AllowedRun nodeId rest (op.act nodeId node)

instance decidableAllowedRun (nodeId : String) :
    (ops : List SnapshotOp) → (node : ContentNode) → Decidable (AllowedRun nodeId ops node)
  | [], _ => isTrue trivial
  | op :: rest, node =>
    have := decidableAllowedRun nodeId rest (op.act nodeId node)
    inferInstanceAs (Decidable (op.Allowed node ∧ AllowedRun nodeId rest (op.act nodeId node)))

theorem allowedRun_append (old after : List SnapshotOp) (n : ContentNode) :
    AllowedRun nodeId (old ++ after) n ↔
      AllowedRun nodeId old n ∧
        AllowedRun nodeId after (old.foldl (fun n op => op.act nodeId n) n) := by
  induction old generalizing n with
  | nil => simp [AllowedRun]
  | cons op rest ih => simp [AllowedRun, ih, and_assoc]

section Order

variable {nodeId : String} {original : Text} {node : ContentNode}

def snapshotId (nodeId : String) (seq : Nat) : String := nodeId ++ "@" ++ toString seq

/-- The snapshots are numbered, start with the original text and are approved
from the first on. -/
structure Orderly (nodeId : String) (original : Text) (node : ContentNode) : Prop where
  ids : node.progression.map NodeState.id =
    (List.range node.progression.length).map (snapshotId nodeId)
  baseline : ∀ first, node.progression.head? = some first → first.yamlLines = original
  unrecorded : node.progression = [] → node.yamlLines = original
  approvedFirst : node.progression.Pairwise fun earlier later =>
    earlier.approved = false → later.approved = false

theorem Orderly.nodup_ids (orderly : Orderly nodeId original node) :
    (node.progression.map NodeState.id).Nodup := by
  rw [orderly.ids]
  apply List.Nodup.map ?_ nodup_range
  intro a b hs
  have hn := (String.append_right_inj (nodeId ++ "@")).mp hs
  exact Nat.repr_inj.mp hn

theorem approved_approveIf (sf : Option Source) (entry : NodeState) :
    (entry.approveIf sf).approved = false ↔ staysPending sf entry := by
  unfold NodeState.approveIf staysPending
  cases entry.passesFilter sf <;> simp

theorem approveIf_keeps (sf : Option Source) (e : NodeState) :
    (e.approveIf sf).id = e.id ∧ (e.approveIf sf).yamlLines = e.yamlLines := by
  unfold NodeState.approveIf
  split <;> exact ⟨rfl, rfl⟩

section

variable (orderly : Orderly nodeId original node)

include orderly

theorem Orderly.update {t : Text} (ha : node.progression = [] → t = node.yamlLines) :
    Orderly nodeId original (node.updateFromYaml t) where
  ids := orderly.ids
  baseline := orderly.baseline
  unrecorded := by
    intro he
    exact (ha he).trans (orderly.unrecorded he)
  approvedFirst := orderly.approvedFirst

theorem Orderly.record (passNumber : Nat) (phase : Phase)
    (source : Source) (hr : node.progression.length < maxProgression) :
    Orderly nodeId original (node.recordState nodeId passNumber phase source) := by
  let entry : NodeState :=
    { id := snapshotId nodeId node.progression.length
      passNumber, phase, source, yamlLines := node.yamlLines }
  have hp : (node.recordState nodeId passNumber phase source).progression =
      node.progression ++ [entry] := by
    simp only [recordState, pushBounded, if_neg (Nat.not_le.mpr hr)]
    rfl
  constructor
  · rw [hp, map_append, orderly.ids, length_append, length_singleton, range_succ, map_append]
    rfl
  · intro first head
    rw [hp, List.head?_append] at head
    cases he : node.progression with
    | nil =>
      rw [he] at head
      cases Option.some.inj head
      exact orderly.unrecorded he
    | cons oldest rest =>
      rw [he] at head
      apply orderly.baseline first
      rw [he]
      exact head
  · intro he
    rw [hp] at he
    simp at he
  · rw [hp, pairwise_append]
    refine ⟨orderly.approvedFirst, pairwise_singleton _ _, ?_⟩
    intro earlier _ later hen _
    rw [mem_singleton.mp hen]

theorem Orderly.approvePending
    (sf : Option Source)
    (ha : node.progression.Pairwise fun earlier later =>
      staysPending sf earlier → staysPending sf later) :
    Orderly nodeId original (node.approvePending sf) := by
  have hs : (node.approvePending sf).progression =
      node.progression.map (NodeState.approveIf sf) := rfl
  constructor
  · rw [hs, length_map, map_map, ← orderly.ids]
    apply map_congr_left
    intro e _
    exact (approveIf_keeps sf e).1
  · intro first head
    rw [hs, List.head?_map] at head
    obtain ⟨oldest, hO, rfl⟩ := Option.map_eq_some_iff.mp head
    rw [(approveIf_keeps sf oldest).2]
    exact orderly.baseline oldest hO
  · intro he
    rw [hs, map_eq_nil_iff] at he
    exact orderly.unrecorded he
  · rw [hs, pairwise_map]
    apply ha.imp
    intro earlier later hk hp
    rw [approved_approveIf] at hp ⊢
    exact hk hp

theorem Orderly.approve : Orderly nodeId original node.approve := by
  have ha := orderly.approvePending none (by
    apply pairwise_of_forall
    intro earlier later hp
    simp [staysPending, NodeState.passesFilter] at hp)
  exact ⟨ha.ids, ha.baseline, ha.unrecorded, ha.approvedFirst⟩

end

/-- With the approved snapshots first, those before the first pending one are
the approved ones. -/
theorem filter_approved {steps : List NodeState} {first : Nat}
    (haf : steps.Pairwise fun earlier later =>
      earlier.approved = false → later.approved = false)
    (hp : firstUnapproved steps = some first) :
    steps.filter NodeState.approved = steps.take first := by
  induction steps generalizing first with
  | nil => cases hp
  | cons e rest ih =>
    rw [pairwise_cons] at haf
    rw [firstUnapproved, List.findIdx?_cons] at hp
    cases ha : e.approved with
    | true =>
      rw [ha] at hp
      obtain ⟨i, hf, rfl⟩ := Option.map_eq_some_iff.mp hp
      rw [filter_cons_of_pos ha, take_succ_cons, ih haf.2 hf]
    | false =>
      rw [ha] at hp
      cases Option.some.inj hp
      rw [take_zero]
      apply filter_eq_nil_iff.mpr
      intro o mem
      rcases mem_cons.mp mem with hs | later
      · rw [hs, ha]
        exact Bool.false_ne_true
      · rw [haf.1 o later ha]
        exact Bool.false_ne_true

theorem progression_reject (n : ContentNode) :
    n.reject.progression = n.rollback.progression ∧ n.reject.yamlLines = n.rollback.yamlLines := by
  rw [reject, rollback_transition]
  exact ⟨rfl, rfl⟩

section

variable (orderly : Orderly nodeId original node)
include orderly

theorem Orderly.reject : Orderly nodeId original node.reject := by
  obtain ⟨hs, ht⟩ := progression_reject node
  cases hp : firstUnapproved node.progression with
  | none =>
    rw [rollback_of_none hp] at hs ht
    constructor
    · rw [hs]
      exact orderly.ids
    · rw [hs]
      exact orderly.baseline
    · rw [hs, ht]
      exact orderly.unrecorded
    · rw [hs]
      exact orderly.approvedFirst
  | some first =>
    obtain ⟨restored, last, hr⟩ := rollback_of_some hp
    have hs : node.reject.progression = node.progression.take (max first 1) := by
      rw [hs, hr]
    have some : 0 < max first 1 := by omega
    constructor
    · rw [hs, map_take, orderly.ids, ← map_take, take_range, length_take]
    · rw [hs]
      intro oldest head
      apply orderly.baseline oldest
      rw [← head, List.head?_take, if_neg (Nat.ne_of_gt some)]
    · intro he
      rw [hs] at he
      rw [he] at last
      cases last
    · rw [hs]
      exact orderly.approvedFirst.sublist (take_sublist _ _)

theorem Orderly.act {op : SnapshotOp}
    (ha : op.Allowed node) : Orderly nodeId original (op.act nodeId node) := by
  cases op with
  | update t => exact orderly.update ha
  | record pass phase src => exact orderly.record pass phase src ha
  | approvePending wholeGraph sf => exact orderly.approvePending sf ha
  | approve => exact orderly.approve
  | reject => exact orderly.reject

omit orderly in
theorem Orderly.run {ops : List SnapshotOp} (ho : Orderly nodeId original node)
    (ha : AllowedRun nodeId ops node) :
    Orderly nodeId original (ops.foldl (fun node op => op.act nodeId node) node) := by
  induction ops generalizing node with
  | nil => exact ho
  | cons op rest ih => exact ih (ho.act ha.1) ha.2

theorem Orderly.yamlLines_reject
    (hk : node.progression ≠ []) (hal : SnapshotOp.Allowed node .reject) :
    node.reject.yamlLines =
      ((lastApproved node.progression).map NodeState.yamlLines).getD original := by
  rw [(progression_reject node).2]
  cases hp : firstUnapproved node.progression with
  | none =>
    rw [rollback_of_none hp]
    have ha : ∀ e ∈ node.progression, e.approved := by
      intro e mem
      have none := List.findIdx?_eq_none_iff.mp hp e mem
      simpa using none
    cases hL : node.progression.getLast? with
    | none => exact absurd (List.getLast?_eq_none_iff.mp hL) hk
    | some last =>
      rw [lastApproved, filter_eq_self.mpr ha, hL]
      exact hal last hL ha
  | some first =>
    obtain ⟨restored, last, hr⟩ := rollback_of_some hp
    rw [hr, lastApproved, filter_approved orderly.approvedFirst hp]
    cases first with
    | zero =>
      cases hst : node.progression with
      | nil => exact absurd hst hk
      | cons oldest rest =>
        rw [hst] at last
        have hs : oldest = restored := Option.some.inj last
        rw [← hs]
        exact orderly.baseline oldest (by rw [hst]; rfl)
    | succ i =>
      rw [Nat.max_eq_left (Nat.succ_le_succ (Nat.zero_le i))] at last
      rw [last]
      rfl

end

theorem firstRecorded_eq {ops : List SnapshotOp} (orderly : Orderly nodeId original node)
    (hf : node.progression = []) (ha : AllowedRun nodeId ops node)
    (hk : (ops.foldl (fun node op => op.act nodeId node) node).progression ≠ []) :
    firstRecorded nodeId ops node = some original := by
  induction ops generalizing node with
  | nil => exact absurd hf hk
  | cons op rest ih =>
    have hn := orderly.act ha.1
    cases op with
    | record pass phase src => exact congrArg some (orderly.unrecorded hf)
    | update t => exact ih hn hf ha.2 hk
    | approvePending wholeGraph sf =>
      refine ih hn ?_ ha.2 hk
      exact map_eq_nil_iff.mpr hf
    | approve =>
      refine ih hn ?_ ha.2 hk
      exact map_eq_nil_iff.mpr hf
    | reject =>
      refine ih hn ?_ ha.2 hk
      change node.reject.progression = []
      rw [(progression_reject node).1, ContentNode.rollback_of_none (by rw [hf]; rfl)]
      exact hf

end Order

/-- In every run whose operations are all allowed, snapshot ids are different,
the first snapshot has the original text, and a rejection restores the last
approved snapshot, or the first one recorded. -/
theorem allowed_run_restores (nodeId : String) (g : ContentGraph) (node : ContentNode)
    (ops : List SnapshotOp) (found : g.getNode nodeId = some node) (fresh : node.progression = [])
    (allowed : AllowedRun nodeId ops node) :
    (∀ before after, ops = before ++ after →
      ∃ current, (runSnapshots nodeId g before).getNode nodeId = some current ∧
        (current.progression.map NodeState.id).Nodup ∧
        ∀ first, current.progression.head? = some first → first.yamlLines = node.yamlLines) ∧
    ∀ before after, ops = before ++ .reject :: after →
      ∃ current rejected, (runSnapshots nodeId g before).getNode nodeId = some current ∧
        (runSnapshots nodeId g (before ++ [.reject])).getNode nodeId = some rejected ∧
        (current.progression ≠ [] →
          some rejected.yamlLines =
            ((lastApproved current.progression).map NodeState.yamlLines).or
              (firstRecorded nodeId before node)) := by
  have start : Orderly nodeId node.yamlLines node := by
    refine ⟨?_, ?_, fun _ => rfl, ?_⟩
    · rw [fresh]
      rfl
    · intro first head
      rw [fresh] at head
      cases head
    · rw [fresh]
      exact List.Pairwise.nil
  constructor
  · intro before after split
    rw [split, allowedRun_append] at allowed
    have orderly := start.run allowed.1
    refine ⟨_, ?_, orderly.nodup_ids, orderly.baseline⟩
    rw [getNode_runSnapshots, found, Option.map_some]
  · intro before after split
    rw [split, allowedRun_append] at allowed
    obtain ⟨allowedBefore, allowedReject, -⟩ := allowed
    have orderly := start.run allowedBefore
    refine ⟨_, _, by rw [getNode_runSnapshots, found, Option.map_some], by
      rw [getNode_runSnapshots, found, Option.map_some], ?_⟩
    intro recorded
    rw [firstRecorded_eq start fresh allowedBefore recorded, foldl_append]
    have restored := orderly.yamlLines_reject recorded allowedReject
    refine (congrArg some restored).trans ?_
    cases lastApproved (before.foldl (fun node op => op.act nodeId node) node).progression with
    | none => rfl
    | some last => rfl

def shortTask : ContentNode := { nodeType := .task, yamlLines := "- a:\n".toList }

def shortGraph : ContentGraph := { nodes := Dict.ofList [("n", shortTask)] }

def nodeAfter (ops : List SnapshotOp) : Option ContentNode :=
  (runSnapshots "n" shortGraph ops).getNode "n"

def editedText : Text := "- b:\n".toList

/-- A scan, an approval, an edit that is recorded and a rejection. -/
def reviewedEdit : List SnapshotOp :=
  [.record 0 .scanned .unset, .approve, .update editedText, .record 1 .transformed .ai]

theorem reviewedEdit_restores :
    (nodeAfter (reviewedEdit ++ [.reject])).map ContentNode.yamlLines =
      some shortTask.yamlLines := by
  have allowed : AllowedRun "n" (reviewedEdit ++ [.reject]) shortTask := by
    decide
  have run := (allowed_run_restores "n" shortGraph shortTask _ rfl rfl allowed).2 reviewedEdit []
    rfl
  obtain ⟨current, rejected, isCurrent, isRejected, restored⟩ := run
  have isBefore : nodeAfter reviewedEdit = some current := isCurrent
  have facts : (nodeAfter reviewedEdit).map (fun node =>
      (decide (node.progression = []), (lastApproved node.progression).map NodeState.yamlLines)) =
        some (false, some shortTask.yamlLines) := by
    decide
  rw [isBefore, Option.map_some, Option.some.injEq, Prod.mk.injEq, decide_eq_false_iff_not] at facts
  rw [nodeAfter, isRejected, Option.map_some, restored facts.1, facts.2]
  rfl

/-- An edit of the AI and a scan after it; only the scans are approved. -/
def approvedPastEdit : List SnapshotOp :=
  [.record 0 .scanned .unset, .update editedText, .record 1 .transformed .ai,
    .record 1 .scanned .unset, .approvePending true (some .deterministic)]

def longHistory : List SnapshotOp :=
  .record 0 .scanned .unset :: .update editedText :: List.replicate 21 (.record 1 .scanned .unset)

/-- A rejection goes back past an approved snapshot when an edit before it is
pending, and it restores nothing when everything recorded is approved; after
more than twenty snapshots the first text is lost and ids occur twice; and a
text that is edited before it is recorded is never recorded. -/
theorem rejection_misses :
    ((nodeAfter approvedPastEdit).bind fun node =>
        (lastApproved node.progression).map NodeState.yamlLines) = some editedText ∧
      (nodeAfter (approvedPastEdit ++ [.reject])).map yamlLines = some shortTask.yamlLines ∧
      (nodeAfter [.record 0 .scanned .unset, .approve, .update editedText, .reject]).map
        yamlLines = some editedText ∧
      (nodeAfter longHistory).map (fun node => node.progression.head?.map NodeState.yamlLines) =
        some (some editedText) ∧
      (∀ node, nodeAfter longHistory = some node → ¬ (node.progression.map NodeState.id).Nodup) ∧
      (nodeAfter [.update editedText, .record 0 .scanned .unset]).map
        (fun node => node.progression.head?.map NodeState.yamlLines) = some (some editedText) := by
  decide

end Apme.Graph
