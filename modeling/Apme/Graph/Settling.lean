import Apme.Graph.Frame
import Apme.Lib.Verdicts

/-!
# Approving and rejecting a node

What `approve_node` and `reject_node` do to the node they are given.  They obey
the laws of `Settling`: what is approved cannot be rejected any more, and a
second rejection finds nothing to reject.
-/

set_option autoImplicit false

namespace Apme.Graph

open Apme.Lib List ContentNode ViolationRecord

namespace ContentNode

def transition (fromStatus toStatus : Status) (clearAttribution : Bool) (node : ContentNode) :
    ContentNode :=
  node.updateLedger fun _ record =>
    if record.status = fromStatus then record.moveTo toStatus clearAttribution else record

/-- `approve_node`, on the node. -/
def approve (node : ContentNode) : ContentNode :=
  (node.approvePending none).transition .pendingReview .fixed false

/-- `reject_node`, on the node. -/
def reject (node : ContentNode) : ContentNode :=
  (node.transition .pendingReview .declined true).rollback

end ContentNode

variable (id : String)

theorem actsOn_transition (fromStatus toStatus : Status) (clear : Bool) :
    ActsOn id (transition fromStatus toStatus clear) fun g =>
      g.transitionViolations id fromStatus toStatus clear :=
  ActsOn.modifyNode id _

theorem actsOn_approveNode (hn : id ≠ "") :
    ActsOn id approve fun g => g.approveNode id := by
  have hp : ActsOn id (approvePending none) fun g =>
      g.approvePending id none := by
    intro g o
    have hs : g.approvePending id none = g.modifyNode id (approvePending none) := if_neg hn
    exact (congrArg (fun h => h.getNode o) hs).trans (ContentGraph.getNode_modifyNode g id o _)
  exact hp.comp (actsOn_transition id .pendingReview .fixed false)

theorem actsOn_rejectNode : ActsOn id reject fun g => g.rejectNode id :=
  (actsOn_transition id .pendingReview .declined true).comp (ActsOn.modifyNode id _)

namespace ContentNode

theorem updateLedger_eq_self (f : ViolationKey → ViolationRecord → ViolationRecord)
    {node : ContentNode}
    (hs : ∀ k r, node.violationLedger.get? k = some r → f k r = r) :
    node.updateLedger f = node := by
  have hu : node.violationLedger.update f = node.violationLedger := by
    have hi : node.violationLedger.update (fun _ r => r) =
        node.violationLedger := by
      simp [Dict.update]
    rw [← hi, Dict.update_update, Dict.update_eq_update_iff]
    exact hs
  rw [updateLedger, hu]

theorem moveTo_status (st : Status) (clear : Bool) (r : ViolationRecord) :
    (r.moveTo st clear).status = st := by
  unfold moveTo
  split <;> rfl

variable {node : ContentNode} {fromStatus toStatus : Status} {record : ViolationRecord}

theorem status_transition (hd : toStatus ≠ fromStatus)
    {clear : Bool} {k : ViolationKey}
    (hf : (node.transition fromStatus toStatus clear).violationLedger.get? k = some record) :
    record.status ≠ fromStatus := by
  rw [transition, updateLedger, Dict.get?_update] at hf
  obtain ⟨old, -, rfl⟩ := Option.map_eq_some_iff.mp hf
  split
  · rw [moveTo_status]
    exact hd
  next ho => exact ho

theorem transition_eq_self {clear : Bool}
    (none : ∀ k r, node.violationLedger.get? k = some r → r.status ≠ fromStatus)
    : node.transition fromStatus toStatus clear = node :=
  updateLedger_eq_self _ fun k r hf => if_neg (none k r hf)

theorem approvePending_approvePending (n : ContentNode) :
    (n.approvePending none).approvePending none = n.approvePending none := by
  have ht : (n.progression.map (NodeState.approveIf none)).map (NodeState.approveIf none) =
      n.progression.map (NodeState.approveIf none) := by
    rw [map_map]
    rfl
  simp only [approvePending, ht]
  split <;> rfl

theorem firstUnapproved_approvePending (n : ContentNode) :
    firstUnapproved (n.approvePending none).progression = none := by
  simp [firstUnapproved, approvePending, NodeState.approveIf, NodeState.passesFilter]

theorem rollback_of_none (ha : firstUnapproved node.progression = none) :
    node.rollback = node := by
  rw [rollback, ha]

/-- With something pending, a rollback keeps the entries before the first
pending one, and the baseline in any case. -/
theorem rollback_of_some {first : Nat} (hp : firstUnapproved node.progression = some first) :
    ∃ restored, (node.progression.take (max first 1)).getLast? = some restored ∧
      node.rollback =
        { node with
          progression := node.progression.take (max first 1), state := some restored
          yamlLines := restored.yamlLines } := by
  have hi : first < node.progression.length := (List.findIdx?_eq_some_iff_getElem.mp hp).1
  cases last : (node.progression.take (max first 1)).getLast? with
  | none =>
    have he := congrArg List.length (List.getLast?_eq_none_iff.mp last)
    rw [length_take, length_nil] at he
    omega
  | some restored =>
    refine ⟨restored, rfl, ?_⟩
    simp only [rollback, hp, last, updateFromYaml]

theorem firstUnapproved_take {steps : List NodeState} {first : Nat}
    (hp : firstUnapproved steps = some first) :
    firstUnapproved (steps.take (max first 1)) = none ∨
      first = 0 ∧ firstUnapproved (steps.take 1) = some 0 := by
  obtain ⟨hi, here, old⟩ := List.findIdx?_eq_some_iff_getElem.mp hp
  cases first with
  | zero =>
    refine .inr ⟨rfl, ?_⟩
    cases steps with
    | nil => simp at hi
    | cons baseline rest =>
      have ho' : baseline.approved = false := by simpa using here
      simp [firstUnapproved, ho']
  | succ first =>
    refine .inl ?_
    rw [Nat.max_eq_left (by omega), firstUnapproved, List.findIdx?_eq_none_iff]
    intro e mem
    obtain ⟨i, hb, rfl⟩ := mem_iff_getElem.mp mem
    rw [length_take] at hb
    rw [getElem_take]
    simpa using old i (by omega)

theorem rollback_rollback (n : ContentNode) : n.rollback.rollback = n.rollback := by
  cases hp : firstUnapproved n.progression with
  | none => rw [rollback_of_none hp, rollback_of_none hp]
  | some first =>
    obtain ⟨restored, last, hr⟩ := rollback_of_some hp
    rw [hr]
    rcases firstUnapproved_take hp with clear | ⟨rfl, hb⟩
    · exact rollback_of_none clear
    · obtain ⟨again, ha, hra⟩ := rollback_of_some
        (show firstUnapproved
          ({ n with
            progression := n.progression.take (max 0 1), state := some restored
            yamlLines := restored.yamlLines } : ContentNode).progression = some 0 from hb)
      rw [hra]
      simp only [take_take] at ha ⊢
      have hs : restored = again := by
        have he := last.symm.trans ha
        simpa using he
      rw [hs]
      rfl

section

variable (fromStatus toStatus : Status) (clear : Bool) (node : ContentNode)

theorem transition_approvePending :
    (node.transition fromStatus toStatus clear).approvePending none =
      (node.approvePending none).transition fromStatus toStatus clear := rfl

theorem progression_transition :
    (node.transition fromStatus toStatus clear).progression = node.progression := rfl

end

theorem violationLedger_rollback (n : ContentNode) :
    n.rollback.violationLedger = n.violationLedger := by
  cases hp : firstUnapproved n.progression with
  | none => rw [rollback_of_none hp]
  | some first =>
    obtain ⟨restored, -, hr⟩ := rollback_of_some hp
    rw [hr]

variable (fromStatus toStatus : Status)

theorem rollback_transition (clear : Bool) (n : ContentNode) :
    (n.transition fromStatus toStatus clear).rollback =
      n.rollback.transition fromStatus toStatus clear := by
  cases hp : firstUnapproved n.progression with
  | none =>
    rw [rollback_of_none hp, rollback_of_none (show firstUnapproved
        (n.transition fromStatus toStatus clear).progression = none from hp)]
  | some first =>
    obtain ⟨restored, last, hr⟩ := rollback_of_some hp
    obtain ⟨o, ho, hro⟩ := rollback_of_some
      (show firstUnapproved (n.transition fromStatus toStatus clear).progression =
        some first from hp)
    rw [progression_transition, last] at ho
    cases Option.some.inj ho
    rw [hr, hro]
    rfl

theorem transition_again (fromStatus toStatus next : Status) (clear o : Bool)
    (n : ContentNode) (hd : toStatus ≠ fromStatus) :
    (n.transition fromStatus toStatus clear).transition fromStatus next o =
      n.transition fromStatus toStatus clear :=
  transition_eq_self fun _ _ hf => status_transition hd hf

/-- Approving and rejecting a node are an acceptance and a rejection of what is
pending on it. -/
theorem settling : Settling approve reject where
  accept_accept node := by
    unfold approve
    rw [transition_approvePending, approvePending_approvePending,
      transition_again _ _ _ _ _ _ (by decide)]
  reject_accept node := by
    unfold approve reject
    rw [transition_again _ _ _ _ _ _ (by decide)]
    exact rollback_of_none (firstUnapproved_approvePending node)
  reject_reject node := by
    unfold reject
    rw [rollback_transition, rollback_rollback, rollback_transition,
      transition_again _ _ _ _ _ _ (by decide)]

/-- `approve_proposed`, on the node. -/
def promote (node : ContentNode) : ContentNode := node.transition .proposed .fixed false

/-- Nothing on the node is pending, but perhaps a lone baseline with its text. -/
def Undisturbed (node : ContentNode) : Prop :=
  (∀ key record, node.violationLedger.get? key = some record → record.status ≠ .pendingReview) ∧
    (firstUnapproved node.progression = none ∨
      ∃ baseline, node.progression = [baseline] ∧ node.yamlLines = baseline.yamlLines)

theorem get?_transition (clear : Bool) (n : ContentNode) (k : ViolationKey) :
    (n.transition fromStatus toStatus clear).violationLedger.get? k =
      (n.violationLedger.get? k).map fun record =>
        if record.status = fromStatus then record.moveTo toStatus clear else record :=
  Dict.get?_update _ _ _

theorem pendingReview_ends {k : ViolationKey} (hf : node.violationLedger.get? k = some record)
    (hr : record.status = .pendingReview) :
    (node.approve.promote.violationLedger.get? k).map status = some .fixed ∧
      (node.reject.approve.promote.violationLedger.get? k).map status = some .declined := by
  constructor
  · rw [promote, get?_transition, approve, get?_transition]
    change Option.map _ (Option.map _ (Option.map _ (node.violationLedger.get? k))) = _
    simp [hf, hr, moveTo]
  · rw [promote, get?_transition, approve, get?_transition]
    change Option.map _ (Option.map _ (Option.map _ (node.reject.violationLedger.get? k))) = _
    rw [reject, violationLedger_rollback, get?_transition]
    simp [hf, hr, moveTo]

/-- A rejection before the approval makes no difference exactly when it finds
nothing to reject. -/
theorem promote_approve_eq_iff (node : ContentNode) :
    node.approve.promote = node.reject.approve.promote ↔ node.Undisturbed := by
  constructor
  · intro hs
    refine ⟨fun k r hf hrv => ?_, ?_⟩
    · have he := pendingReview_ends hf hrv
      rw [hs, he.2] at he
      cases he.1
    · cases hp : firstUnapproved node.progression with
      | none => exact .inl rfl
      | some first =>
        refine .inr ?_
        obtain ⟨restored, last, hr⟩ := rollback_of_some hp
        have hre : node.reject = (node.rollback).transition .pendingReview .declined true :=
          rollback_transition _ _ _ node
        have hpr := congrArg progression hs
        have ht := congrArg yamlLines hs
        rw [hre, hr] at hpr ht
        have hl := congrArg List.length hpr
        change (node.progression.map _).length =
          ((node.progression.take (max first 1)).map _).length at hl
        rw [length_map, length_map, length_take] at hl
        have hi : first < node.progression.length := (List.findIdx?_eq_some_iff_getElem.mp hp).1
        obtain ⟨b, ha⟩ := length_eq_one_iff.mp (show node.progression.length = 1 by omega)
        refine ⟨b, ha, ?_⟩
        have hw : node.progression.take (max first 1) = [b] := by
          rw [ha]
          exact take_of_length_le (Nat.le_max_right first 1)
        rw [hw, List.getLast?_singleton] at last
        rw [Option.some.inj last]
        exact ht
  · rintro ⟨hnr, hap | ⟨b, ha, text⟩⟩
    · have hu : node.reject = node := by
        rw [reject, transition_eq_self hnr, rollback_of_none hap]
      rw [hu]
    · have hu : node.reject.approvePending none = node.approvePending none := by
        rw [reject, transition_eq_self hnr]
        cases hp : firstUnapproved node.progression with
        | none => rw [rollback_of_none hp]
        | some first =>
          obtain ⟨restored, last, hr⟩ := rollback_of_some hp
          have hw : node.progression.take (max first 1) = [b] := by
            rw [ha]
            exact take_of_length_le (Nat.le_max_right first 1)
          rw [hw, List.getLast?_singleton] at last
          rw [hr, hw, ← Option.some.inj last, ← text]
          simp only [approvePending, ha]
          rfl
      rw [approve, approve, hu]

end ContentNode

end Apme.Graph
