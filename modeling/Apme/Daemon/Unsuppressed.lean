import Apme.Daemon.Pipeline

/-!
# What comments hide

The rule logic without suppression comments, and what the comments take away
from it: the native validator skips the rules that a comment of the node lists,
and the pipeline drops from the merged answers what a comment lists.
-/

set_option autoImplicit false

namespace Apme.Daemon

open Apme.Lib Apme.Graph List

section Scan

variable (g : ContentGraph) (rules : List GraphRule)

/-- What one rule reports on one node, whatever the comments say. -/
def ruleViolations (nodeId : String) (node : ContentNode) (rule : GraphRule) : List Violation :=
  match ruleResult g nodeId rule with
  | none => []
  | some r => resultViolations node rule r

def nodeViolations (nodeId : String) : List Violation :=
  match g.getNode nodeId with
  | none => []
  | some node =>
    if node.scannable then (rules.filter GraphRule.enabled).flatMap (ruleViolations g nodeId node)
    else []

/-- All that the native rules have to report. -/
def unsuppressedScan : List Violation := (sortIds g.nodes.keys).flatMap (nodeViolations g rules)

/-- The native validator has skipped the rule of the violation on its node. -/
def hiddenAtMatch (v : Violation) : Bool :=
  match g.getNode v.path with
  | none => false
  | some node => upper v.ruleId.toList ∈ parseNoqa node.yamlLines

section

variable (nodeId : String) (node : ContentNode)

theorem flatMap_filterMap_pair (applied : List GraphRule) :
    ((applied.filterMap fun rule => (ruleResult g nodeId rule).map (rule, ·)).flatMap fun e =>
      resultViolations node e.1 e.2) = applied.flatMap (ruleViolations g nodeId node) := by
  induction applied with
  | nil => rfl
  | cons rule rest ih =>
    rw [flatMap_cons, ← ih, filterMap_cons]
    unfold ruleViolations
    cases ruleResult g nodeId rule <;> simp

theorem filter_ruleViolations (hf : g.getNode nodeId = some node) (rule : GraphRule) :
    (ruleViolations g nodeId node rule).filter (fun v => !hiddenAtMatch g v) =
      if upper rule.ruleId.toList ∈ parseNoqa node.yamlLines then []
      else ruleViolations g nodeId node rule := by
  have hh : ∀ v ∈ ruleViolations g nodeId node rule,
      hiddenAtMatch g v = decide (upper rule.ruleId.toList ∈ parseNoqa node.yamlLines) := by
    intro v mem
    unfold ruleViolations at mem
    split at mem
    · exact absurd mem not_mem_nil
    next r outcome =>
      obtain ⟨hp, hi, -⟩ := mem_resultViolations outcome mem
      simp only [hiddenAtMatch, hp, hf, hi]
  split
  next hl =>
    apply filter_eq_nil_iff.mpr
    intro v mem
    simp [hh v mem, hl]
  next hu =>
    apply filter_eq_self.mpr
    intro v mem
    simp [hh v mem, hu]

theorem flatMap_unlisted (hf : g.getNode nodeId = some node) (applied : List GraphRule) :
    (applied.filter fun rule => upper rule.ruleId.toList ∉ parseNoqa node.yamlLines).flatMap
        (ruleViolations g nodeId node) =
      (applied.flatMap (ruleViolations g nodeId node)).filter fun v => !hiddenAtMatch g v := by
  induction applied with
  | nil => rfl
  | cons rule rest ih =>
    rw [flatMap_cons, filter_append, ← ih, filter_ruleViolations g nodeId node hf, filter_cons]
    by_cases hl : upper rule.ruleId.toList ∈ parseNoqa node.yamlLines
    · simp [hl]
    · simp [hl]

end

theorem scan_eq_filter :
    graphReportToViolations (scan g rules) =
      (unsuppressedScan g rules).filter fun v => !hiddenAtMatch g v := by
  unfold scan evaluateIds unsuppressedScan graphReportToViolations
  induction sortIds g.nodes.keys with
  | nil => rfl
  | cons id rest ih =>
    rw [flatMap_cons, filter_append, ← ih, filterMap_cons]
    cases hf : g.getNode id with
    | none => simp [nodeViolations, hf]
    | some n =>
      by_cases hs : n.scannable
      · simp only [Option.bind_some, hs, if_true, flatMap_cons, evaluateNode,
          flatMap_filterMap_pair, flatMap_unlisted g id n hf, nodeViolations, hf]
      · simp [nodeViolations, hf, hs]

end Scan

section Answers

variable (rules : List GraphRule) (f : FanOut) (g : ContentGraph)

def unsuppressedReply : Validator → Reply (List Violation)
  | .native => f.native.map fun _ => unsuppressedScan g rules
  | validator => f.others validator

/-- All that the validators have to report. -/
def unsuppressedAnswers : Option (List Violation) :=
  gather ((validatorTargets f).map fun validator => (validator, unsuppressedReply rules f g validator))

def visibleReply : Validator → Reply (List Violation)
  | .native =>
    f.native.map fun _ => (unsuppressedScan g rules).filter fun v => !hiddenAtMatch g v
  | validator => f.others validator

/-- What comments leave of it. -/
def visibleAnswers : List Violation :=
  g.filterNoqaViolations ((gather ((validatorTargets f).map fun validator =>
    (validator, visibleReply rules f g validator))).getD [])

theorem fanOutReply_eq (validator : Validator) :
    fanOutReply rules f g validator = visibleReply rules f g validator := by
  cases validator with
  | native => rw [fanOutReply, visibleReply, scan_eq_filter]
  | opa => rfl
  | ansible => rfl
  | gitleaks => rfl
  | collectionHealth => rfl
  | depAudit => rfl

theorem filterNoqa_gathered {ans : List Violation}
    (hg : gather (fanOutCalls rules f g) = some ans) :
    g.filterNoqaViolations ans = visibleAnswers rules f g := by
  have hs : fanOutCalls rules f g =
      (validatorTargets f).map fun validator => (validator, visibleReply rules f g validator) := by
    unfold fanOutCalls
    apply map_congr_left
    intro validator _
    rw [fanOutReply_eq]
  rw [visibleAnswers, ← hs, hg, Option.getD_some]

end Answers

section Output

variable (rules : List GraphRule) (f : FanOut) (g : ContentGraph) (configs : List RuleConfig) (v : Violation)

/-- The violation with the severity and the mark that the configurations give it. -/
def adjusted : Violation :=
  match configFor configs v with
  | none => v
  | some rc => markEnforced rc (overrideSeverity rc v)

/-- The rule of the violation is not switched off. -/
def SwitchedOn : Prop := ∀ rc, configFor configs v = some rc → rc.enabled

theorem adjusted_place : configFor configs (adjusted configs v) = configFor configs v ∧
      dedupKey (adjusted configs v) = dedupKey v ∧
        g.noqaDrops (adjusted configs v) = g.noqaDrops v := by
  have hs : (adjusted configs v).ruleId = v.ruleId ∧ (adjusted configs v).file = v.file ∧
      (adjusted configs v).line = v.line ∧ (adjusted configs v).path = v.path := by
    unfold adjusted markEnforced overrideSeverity
    split
    · exact ⟨rfl, rfl, rfl, rfl⟩
    · split <;> split <;> exact ⟨rfl, rfl, rfl, rfl⟩
  obtain ⟨hi, hf, hl, hp⟩ := hs
  refine ⟨?_, ?_, ?_⟩
  · rw [configFor, hi, configFor]
  · rw [dedupKey, hi, hf, hl, dedupKey]
  · unfold ContentGraph.noqaDrops
    rw [hi, hp]

theorem configure_eq_some_iff (v w : Violation) :
    configure configs v = some w ↔ SwitchedOn configs v ∧ adjusted configs v = w := by
  unfold configure SwitchedOn adjusted
  cases configFor configs v with
  | none => simp
  | some rc =>
    cases he : rc.enabled with
    | true => simp [he]
    | false => simp [he]

/-- A violation is in the output of a scan exactly if its rule is not switched
off and, of all violations with its rule, file and line that comments leave, it
is the first. -/
theorem mem_output_iff {complete : Bool} {knownRuleIds : List String} {output : List Violation}
    (hscan : executeScanPipeline rules f g configs complete knownRuleIds = .ok output)
    (v : Violation) :
    adjusted configs v ∈ output ↔
      SwitchedOn configs v ∧
        ∃ u, (visibleAnswers rules f g).find? (fun o => dedupKey o = dedupKey v) = some u ∧
          adjusted configs u = adjusted configs v := by
  obtain ⟨ans, hg, rfl⟩ :=
    executeScanPipeline_ok rules f g configs complete knownRuleIds output hscan
  rw [mem_filterMap]
  have hpl := adjusted_place g configs v
  constructor
  · intro mem
    obtain ⟨u, hk, hc⟩ := mem
    obtain ⟨he, hs⟩ := (configure_eq_some_iff configs u _).mp hc
    have hp := adjusted_place g configs u
    rw [hs] at hp
    rw [mergeAnswers, filterNoqa_gathered rules f g hg, mem_deduplicate_sort,
      ← hp.2.1, hpl.2.1] at hk
    refine ⟨?_, u, hk, hs⟩
    intro rc hf
    apply he rc
    rw [← hp.1, hpl.1]
    exact hf
  · intro hco
    obtain ⟨he, u, first, hs⟩ := hco
    have hp := adjusted_place g configs u
    rw [hs] at hp
    refine ⟨u, ?_, ?_⟩
    · rw [mergeAnswers, filterNoqa_gathered rules f g hg, mem_deduplicate_sort,
        ← hp.2.1, hpl.2.1]
      exact first
    · apply (configure_eq_some_iff configs u _).mpr
      refine ⟨?_, hs⟩
      intro rc hf
      apply he rc
      rw [← hpl.1, hp.1]
      exact hf

end Output

end Apme.Daemon
