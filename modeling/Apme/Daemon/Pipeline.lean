import Apme.Graph.Scanner
import Apme.Lib.Outcome
import Apme.Lib.StableSort

/-!
# The scan pipeline

All validators are asked about the whole project.  Their answers are merged,
rid of the violations that comments suppress, sorted, deduplicated and at last
adjusted to the rule configurations.  The snippets that are attached at the end
are left out.

Validators answer over gRPC.  An answer is a list of violations in the form that
the wire leaves of them; a servicer that fails answers with a violation of its
own, and a call that fails is an error of the caller only for the validators a
scan cannot do without.
-/

set_option autoImplicit false

namespace Apme.Daemon

open Apme.Lib Apme.Graph Option

section

inductive Severity
  | unspecified | info | low | medium | high | error | critical

def severityLabels : List (Severity × String) :=
  [(.unspecified, "unspecified"), (.info, "info"), (.low, "low"), (.medium, "medium"),
    (.high, "high"), (.error, "error"), (.critical, "critical")]

def severityToLabel : Severity → String
  | .unspecified => "unspecified"
  | .info => "info"
  | .low => "low"
  | .medium => "medium"
  | .high => "high"
  | .error => "error"
  | .critical => "critical"

/-- Lower case letter by letter; beyond ASCII no letter has one of the letters
of the labels as its lower case. -/
def severityFromLabel (label : String) : Severity :=
  match severityLabels.find? fun entry => entry.2 = String.ofList (label.toList.map Char.toLower) with
  | some entry => entry.1
  | none => .medium

def severityFromProto : Int → Severity
  | 0 => .unspecified
  | 1 => .info
  | 2 => .low
  | 3 => .medium
  | 4 => .high
  | 5 => .error
  | 6 => .critical
  | _ => .medium

def wireLine : LineRef → LineRef
  | .missing => .missing
  | .one line => .one line
  | .range (first :: last :: _) => .range [first, last]
  | .range _ => .missing

def scopeLabels : List String :=
  ["task", "block", "play", "playbook", "role", "inventory", "collection"]

/-- `violation_proto_to_dict` of `violation_dict_to_proto`. -/
def overWire (v : Violation) : Violation :=
  { v with
    severity := severityToLabel (severityFromLabel v.severity)
    line := wireLine v.line
    scope := if v.scope ∈ scopeLabels then v.scope else "task"
    resolvedFqcn := v.resolvedFqcn.filter fun fqcn => fqcn ≠ ""
    fqcn := v.fqcn.filter fun fqcn => fqcn ≠ ""
    -- these keys are not part of the message
    aiProposable := true
    moduleName := ""
    enforced := false }

inductive Validator
  | native | opa | ansible | gitleaks | collectionHealth | depAudit
  deriving DecidableEq

def requiredValidators : List Validator := [.native, .opa, .ansible]

/-- How a call ends: `_call_validator` raises, it returns an RPC error, the
servicer has failed, or the servicer has done its work. -/
inductive Reply (α : Type)
  | raised
  | rpcError
  | faulted (source : String)
  | completed (result : α)

def Reply.map {α β : Type} (f : α → β) : Reply α → Reply β
  | .raised => .raised
  | .rpcError => .rpcError
  | .faulted source => .faulted source
  | .completed result => .completed (f result)

def ruleValidatorFailure : String := "R902"

def publicValidatorError : String := "Validator infrastructure error; see server logs for details"

/-- The Ansible servicer puts its name into the ones it answers with itself. -/
def infraViolation (source : String) : Violation :=
  { ruleId := ruleValidatorFailure, severity := "error", message := publicValidatorError
    line := .one 1, source }

/-- The violations a call contributes; `none` is an error of the caller. -/
def callViolations (call : Validator × Reply (List Violation)) : Option (List Violation) :=
  match call.2 with
  | .raised | .rpcError => if call.1 ∈ requiredValidators then none else some []
  | .faulted source => some [overWire (infraViolation source)]
  | .completed violations => some (violations.map overWire)

variable (calls : List (Validator × Reply (List Violation)))

/-- The answers of all calls, in the order of the calls. -/
def gather : Option (List Violation) := (calls.mapM callViolations).map List.flatten

theorem mem_gather {ans : List Violation}
    (hg : gather calls = some ans) (v : Violation) (mem : v ∈ ans) :
    (∃ src, v = overWire (infraViolation src)) ∨
      ∃ validator violations, (validator, .completed violations) ∈ calls ∧
        ∃ reported ∈ violations, v = overWire reported := by
  obtain ⟨lists, hm, rfl⟩ := map_eq_some_iff.mp hg
  obtain ⟨list, hil, hl⟩ := List.mem_flatten.mp mem
  obtain ⟨⟨validator, reply⟩, hc, ht⟩ :=
    (mem_mapM_iff callViolations calls lists hm list).mp hil
  cases reply with
  | raised =>
    simp only [callViolations] at ht
    split at ht <;> cases ht
    exact absurd hl List.not_mem_nil
  | rpcError =>
    simp only [callViolations] at ht
    split at ht <;> cases ht
    exact absurd hl List.not_mem_nil
  | faulted src =>
    cases some.inj ht
    exact .inl ⟨src, List.mem_singleton.mp hl⟩
  | completed violations =>
    cases some.inj ht
    obtain ⟨reported, hr, rfl⟩ := List.mem_map.mp hl
    exact .inr ⟨validator, violations, hc, reported, hr, rfl⟩

end

/-- `severity` is the number of the enumeration on the wire; 0 is no override. -/
structure RuleConfig where
  ruleId : String
  severity : Int := 0
  enabled : Bool := false
  enforced : Bool := false

/-- Of several rows for one rule the last counts. -/
def configMap (configs : List RuleConfig) : Dict String RuleConfig :=
  Dict.ofList (configs.map fun rc => (normalizeRuleId rc.ruleId, rc))

def configFor (configs : List RuleConfig) (v : Violation) : Option RuleConfig :=
  (configMap configs).get? (normalizeRuleId v.ruleId)

variable (rc : RuleConfig)

def overrideSeverity (v : Violation) : Violation :=
  if rc.severity = 0 then v
  else { v with severity := severityToLabel (severityFromProto rc.severity) }

def markEnforced (v : Violation) : Violation :=
  if rc.enforced then { v with enforced := true } else v

/-- What `_apply_rule_configs` makes of one violation. -/
def configure (configs : List RuleConfig) (v : Violation) : Option Violation :=
  match configFor configs v with
  | none => some v
  | some rc => if rc.enabled then some (markEnforced rc (overrideSeverity rc v)) else none

def applyRuleConfigs (configs : List RuleConfig) (violations : List Violation) : List Violation :=
  if configs = [] then violations else violations.filterMap (configure configs)

variable (configs : List RuleConfig)

theorem applyRuleConfigs_eq (vs : List Violation) :
    applyRuleConfigs configs vs = vs.filterMap (configure configs) := by
  unfold applyRuleConfigs
  split
  next none =>
    subst none
    have hu : configure [] = some := rfl
    rw [hu, List.filterMap_some]
  next => rfl

/-- The violation is one that the configurations allow: its rule is not disabled,
and an override of its severity is in place. -/
def Configured (configs : List RuleConfig) (v : Violation) : Prop :=
  ∀ rc, configFor configs v = some rc →
    rc.enabled ∧ (rc.severity ≠ 0 → v.severity = severityToLabel (severityFromProto rc.severity))

instance (configs : List RuleConfig) (v : Violation) : Decidable (Configured configs v) :=
  match found : configFor configs v with
  | none => isTrue fun rc same => by rw [found] at same; cases same
  | some rc =>
    decidable_of_iff
      (rc.enabled ∧
        (rc.severity ≠ 0 → v.severity = severityToLabel (severityFromProto rc.severity)))
      ⟨fun allowed other same => by
        cases some.inj (found.symm.trans same)
        exact allowed, fun allowed => allowed rc found⟩

theorem Configured.congr {configs : List RuleConfig} {v w : Violation}
    (ha : Configured configs v) (hi : w.ruleId = v.ruleId)
    (hs : w.severity = v.severity) : Configured configs w := by
  intro rc hf
  rw [configFor, hi] at hf
  rw [hs]
  exact ha rc hf

theorem ruleId_adjusted (v : Violation) :
    (markEnforced rc (overrideSeverity rc v)).ruleId = v.ruleId := by
  unfold markEnforced overrideSeverity
  split <;> split <;> rfl

theorem severity_adjusted (v : Violation) (ho : rc.severity ≠ 0) :
    (markEnforced rc (overrideSeverity rc v)).severity =
      severityToLabel (severityFromProto rc.severity) := by
  rw [overrideSeverity, if_neg ho, markEnforced]
  split <;> rfl

variable (v w : Violation)

theorem configured_configure (hk : configure configs v = some w) : Configured configs w := by
  unfold configure at hk
  split at hk
  next hu =>
    cases some.inj hk
    intro rc hf
    rw [hu] at hf
    cases hf
  next rc hf =>
    split at hk
    next he =>
      cases some.inj hk
      intro o hs
      rw [configFor, ruleId_adjusted] at hs
      cases some.inj (hf.symm.trans hs)
      exact ⟨he, severity_adjusted rc v⟩
    next => cases hk

structure CatalogAudit where
  unknown : List String := []
  missing : List String := []
  divergent : List String := []

def configFlags : Int × Bool × Bool := (rc.severity, rc.enabled, rc.enforced)

/-- One row of `_validate_rule_configs`; the map has the flags seen last. -/
def auditStep (known : List String) (acc : Dict String (Int × Bool × Bool) × CatalogAudit)
    (rc : RuleConfig) : Dict String (Int × Bool × Bool) × CatalogAudit :=
  let norm := normalizeRuleId rc.ruleId
  let conflicts := acc.1.get? norm ≠ none ∧ acc.1.get? norm ≠ some (configFlags rc) ∧
    norm ∉ acc.2.divergent
  (acc.1.insert norm (configFlags rc),
    { acc.2 with
      divergent := if conflicts then acc.2.divergent ++ [norm] else acc.2.divergent
      unknown := if norm ∈ known then acc.2.unknown else acc.2.unknown ++ [rc.ruleId] })

def validateRuleConfigs (knownRuleIds : List String) (configs : List RuleConfig)
    (complete : Bool) : CatalogAudit :=
  let known := (knownRuleIds.map normalizeRuleId).dedup
  if known = [] then
    if complete then { missing := ["<engine-rule-catalog-empty>"] } else {}
  else if configs = [] then
    if complete then { missing := sortIds known } else {}
  else
    let seen := configs.foldl (auditStep known) (Dict.empty, {})
    { seen.2 with
      missing :=
        if complete then sortIds (known.filter fun ruleId => ruleId ∉ seen.1.keys) else [] }

def CatalogAudit.inSync (audit : CatalogAudit) : Bool :=
  audit.unknown = [] && audit.missing = [] && audit.divergent = []

/-- The first line of a violation, as `_sort_violations` compares it. -/
def sortLine (v : Violation) : Int :=
  match v.line with
  | .missing => 0
  | .one line => line
  | .range [] => 0
  | .range (first :: _) => first

def sortsBefore : Prop := v.file < w.file ∨ (v.file = w.file ∧ sortLine v ≤ sortLine w)

instance : DecidableRel sortsBefore :=
  fun v w => inferInstanceAs (Decidable (v.file < w.file ∨ (v.file = w.file ∧ sortLine v ≤ sortLine w)))

variable (violations : List Violation)

def sortViolations : List Violation := violations.insertionSort sortsBefore

def dedupKey (v : Violation) : String × String × LineRef := (v.ruleId, v.file, v.line)

def deduplicateViolations : List Violation := firstBy dedupKey [] violations

theorem sortsBefore_of_dedupKey (hs : dedupKey v = dedupKey w) : sortsBefore v w := by
  obtain ⟨-, rest⟩ := Prod.mk.inj hs
  obtain ⟨f, hl⟩ := Prod.mk.inj rest
  right
  refine ⟨f, ?_⟩
  rw [sortLine, sortLine, hl]

theorem mem_deduplicate_sort (vs : List Violation) (v : Violation) :
    v ∈ deduplicateViolations (sortViolations vs) ↔
      vs.find? (fun o => dedupKey o = dedupKey v) = some v := by
  apply mem_firstBy_insertionSort
  intro a b hs
  exact sortsBefore_of_dedupKey a b hs

section Pipeline

def validatorOrder : List Validator :=
  [.native, .opa, .ansible, .gitleaks, .collectionHealth, .depAudit]

/-- Configuration and answers of the validators at a full scan. -/
structure FanOut where
  skipped : List Validator := []
  address : Validator → Bool
  native : Reply Unit
  others : Validator → Reply (List Violation)

inductive ScanError
  | requiredUnset (missing : List Validator)
  | requiredFailed
  | catalogMismatch (audit : CatalogAudit)

variable (rules : List GraphRule) (f : FanOut) (g : ContentGraph)

def missingRequired : List Validator :=
  validatorOrder.filter fun validator =>
    validator ∉ f.skipped ∧ !f.address validator ∧ validator ∈ requiredValidators

def validatorTargets : List Validator :=
  validatorOrder.filter fun validator => validator ∉ f.skipped ∧ f.address validator

/-- The native validator scans the whole graph with its rules. -/
def fanOutReply : Validator → Reply (List Violation)
  | .native => f.native.map fun _ => graphReportToViolations (scan g rules)
  | validator => f.others validator

def fanOutCalls : List (Validator × Reply (List Violation)) :=
  (validatorTargets f).map fun validator => (validator, fanOutReply rules f g validator)

/-- The violations before rule configurations are applied. -/
def mergeAnswers (answers : List Violation) : List Violation :=
  deduplicateViolations (sortViolations (g.filterNoqaViolations answers))

/-- `_execute_scan_pipeline`. -/
def executeScanPipeline (configs : List RuleConfig) (complete : Bool)
    (knownRuleIds : List String) : Except ScanError (List Violation) :=
  if missingRequired f ≠ [] then .error (.requiredUnset (missingRequired f))
  else
    match gather (fanOutCalls rules f g) with
    | none => .error .requiredFailed
    | some answers =>
      if configs = [] ∧ !complete then .ok (mergeAnswers g answers)
      else
        let audit := validateRuleConfigs knownRuleIds configs complete
        if complete ∧ !audit.inSync then .error (.catalogMismatch audit)
        else .ok (applyRuleConfigs configs (mergeAnswers g answers))

section

variable (configs : List RuleConfig) (complete : Bool) (knownRuleIds : List String)
  (output : List Violation)
  (scanned : executeScanPipeline rules f g configs complete knownRuleIds = .ok output)

include complete knownRuleIds scanned

theorem executeScanPipeline_ok :
    ∃ ans, gather (fanOutCalls rules f g) = some ans ∧
      output = (mergeAnswers g ans).filterMap (configure configs) := by
  unfold executeScanPipeline at scanned
  split at scanned
  · cases scanned
  · cases hg : gather (fanOutCalls rules f g) with
    | none =>
      rw [hg] at scanned
      cases scanned
    | some ans =>
      rw [hg] at scanned
      refine ⟨ans, rfl, ?_⟩
      rw [← applyRuleConfigs_eq]
      dsimp only at scanned
      split at scanned
      next hu =>
        cases scanned
        rw [hu.1, applyRuleConfigs, if_pos rfl]
      next =>
        split at scanned
        · cases scanned
        · cases scanned
          rfl

theorem configured_pipeline (v : Violation) (mem : v ∈ output) : Configured configs v := by
  obtain ⟨ans, -, hs⟩ :=
    executeScanPipeline_ok rules f g configs complete knownRuleIds output scanned
  rw [hs] at mem
  obtain ⟨original, -, hk⟩ := List.mem_filterMap.mp mem
  exact configured_configure configs original v hk

end

end Pipeline

end Apme.Daemon
