import Apme.Daemon.RuleConfigs
import Apme.Daemon.Unsuppressed

/-!
# The check command

The command shows what the session leaves over.  It sorts and deduplicates the
list again and hides the findings whose fingerprints are in the suppression
file, unless their rules are enforced.  The hash and the normal form of YAML in
a fingerprint are parameters.
-/

set_option autoImplicit false

namespace Apme.Cli

open Apme.Lib Apme.Graph Apme.Daemon List

section Fingerprints

def legacyPrefixes : List Text :=
  ["native:".toList, "opa:".toList, "ansible:".toList, "gitleaks:".toList]

/-- Of several prefixes only the first goes. -/
def canonicalizeRuleId (rawId : String) : String :=
  let id := Text.strip rawId.toList
  match legacyPrefixes.find? fun legacy => legacy.isPrefixOf id with
  | some legacy => String.ofList (id.drop legacy.length)
  | none => String.ofList id

inductive SuppressionMode
  | full | ruleModule | ruleOnly
  deriving DecidableEq

structure Suppression where
  fingerprint : String
  ruleId : String
  mode : SuppressionMode := .full

/-- A violation of the session's result, with the YAML of its node. -/
structure SessionFinding where
  violation : Violation
  originalYaml : Text := []
  deriving DecidableEq

/-- The message has no `module_fqcn`, so its other names are tried. -/
def moduleFqcn (v : Violation) : String :=
  if v.resolvedFqcn.getD "" ≠ "" then v.resolvedFqcn.getD ""
  else if v.originalModule ≠ "" then v.originalModule
  else v.fqcn.getD ""

variable (digest : Text → String) (normalizeYaml : Text → Text)

/-- `compute_fingerprint`; in the module mode the callers have a module. -/
def computeFingerprint (ruleId : String) (originalYaml : Text) (mode : SuppressionMode)
    (moduleName : String) : String :=
  let body : Text :=
    match mode with
    | .full => normalizeYaml originalYaml
    | .ruleModule => moduleName.toList
    | .ruleOnly => []
  digest ((canonicalizeRuleId ruleId).toList ++ Char.ofNat 0 :: body)

variable (suppressions : List Suppression)

def listed (mode : SuppressionMode) (fingerprint : String) : Bool :=
  suppressions.any fun s => s.mode = mode && s.fingerprint = fingerprint

/-- Some suppression has a fingerprint of the finding. -/
def isSuppressed (x : SessionFinding) : Bool :=
  let fingerprint := fun mode =>
    computeFingerprint digest normalizeYaml x.violation.ruleId x.originalYaml mode
      (moduleFqcn x.violation)
  listed suppressions .ruleOnly (fingerprint .ruleOnly) ||
    (moduleFqcn x.violation ≠ "" && listed suppressions .ruleModule (fingerprint .ruleModule)) ||
    listed suppressions .full (fingerprint .full)

/-- The finding bypasses suppression. -/
def exempt (enforcedRules : List String) (x : SessionFinding) : Bool :=
  canonicalizeRuleId x.violation.ruleId ∈ enforcedRules || x.violation.ruleId ∈ enforcedRules

structure SuppressionResult where
  active : List SessionFinding
  suppressed : List SessionFinding

def applySuppressions (violations : List SessionFinding) (suppressions : List Suppression)
    (enforcedRules : List String) : SuppressionResult :=
  if suppressions = [] then { active := violations, suppressed := [] }
  else
    let hidden := fun x =>
      !exempt enforcedRules x && isSuppressed digest normalizeYaml suppressions x
    { active := violations.filter fun x => !hidden x, suppressed := violations.filter hidden }

theorem mem_active_iff (vs : List SessionFinding) (suppressions : List Suppression)
    (enforcedRules : List String) (x : SessionFinding) :
    x ∈ (applySuppressions digest normalizeYaml vs suppressions enforcedRules).active ↔
      x ∈ vs ∧
        (exempt enforcedRules x ∨ isSuppressed digest normalizeYaml suppressions x = false) := by
  unfold applySuppressions
  split
  next none =>
    have hu : isSuppressed digest normalizeYaml suppressions x = false := by
      simp [isSuppressed, listed, none]
    simp [hu]
  next => simp

end Fingerprints

section Check

variable (digest : Text → String) (normalizeYaml : Text → Text) (configs : List RuleConfig)

/-- The ids of the enforced rows, as they are written in the file. -/
def enforcedRules : List String := (configs.filter RuleConfig.enforced).map RuleConfig.ruleId

def sortFindings (session : List SessionFinding) : List SessionFinding :=
  session.insertionSort fun x y => sortsBefore x.violation y.violation

def deduplicateFindings (session : List SessionFinding) : List SessionFinding :=
  firstBy (fun x => dedupKey x.violation) [] session

variable (suppressions : List Suppression) (showSuppressed : Bool)

/-- What `run_check` shows of the result of the session. -/
def checkOutput (session : List SessionFinding) : List SessionFinding :=
  let violations := deduplicateFindings (sortFindings session)
  if showSuppressed then violations
  else
    (applySuppressions digest normalizeYaml violations suppressions (enforcedRules configs)).active

/-- The finding comes first of those with its rule, file and line, and no
fingerprint hides it. -/
def ShownByCheck (session : List SessionFinding) (x : SessionFinding) : Prop :=
  session.find? (fun y => dedupKey y.violation = dedupKey x.violation) = some x ∧
    (showSuppressed ∨ exempt (enforcedRules configs) x ∨
      isSuppressed digest normalizeYaml suppressions x = false)

theorem mem_checkOutput_iff (ses : List SessionFinding) (x : SessionFinding) :
    x ∈ checkOutput digest normalizeYaml configs suppressions showSuppressed ses ↔
      ShownByCheck digest normalizeYaml configs suppressions showSuppressed ses x := by
  have hk : x ∈ deduplicateFindings (sortFindings ses) ↔
      ses.find? (fun y => dedupKey y.violation = dedupKey x.violation) = some x := by
    apply mem_firstBy_insertionSort
    intro a b hs
    exact sortsBefore_of_dedupKey a.violation b.violation hs
  unfold checkOutput ShownByCheck
  cases showSuppressed with
  | true => simp [hk]
  | false => simp [mem_active_iff, hk]

end Check

section Enforced

variable (rules : List GraphRule) (f : FanOut) (g : ContentGraph) (configs : List RuleConfig) (v : Violation)

/-- The last row for the rule of the violation, under whatever spelling, enforces it. -/
def Enforced : Prop := ∃ rc, configFor configs v = some rc ∧ rc.enforced

/-- The rule logic reports the violation on a node, comments aside. -/
def ReportedOnNode : Prop :=
  (∃ answers, unsuppressedAnswers rules f g = some answers ∧ v ∈ answers) ∧
    (g.getNode v.path).isSome

/-- The violation is switched on and, of those with its rule, file and line that
comments leave, it comes first. -/
def ShownByScan : Prop :=
  SwitchedOn configs v ∧
    ∃ u, (visibleAnswers rules f g).find? (fun other => dedupKey other = dedupKey v) = some u ∧
      adjusted configs u = adjusted configs v

theorem enforced_not_silenced_iff (complete : Bool) (knownRuleIds : List String)
    (output : List Violation)
    (scanned : executeScanPipeline rules f g configs complete knownRuleIds = .ok output)
    (digest : Text → String) (normalizeYaml : Text → Text) (suppressions : List Suppression)
    (showSuppressed : Bool) (session : List SessionFinding) :
    ((∀ v, ReportedOnNode rules f g v → Enforced configs v → adjusted configs v ∈ output) ∧
        ∀ x ∈ session, Enforced configs x.violation →
          x ∈ checkOutput digest normalizeYaml configs suppressions showSuppressed session) ↔
      (∀ v, ReportedOnNode rules f g v → Enforced configs v → ShownByScan rules f g configs v) ∧
        ∀ x ∈ session, Enforced configs x.violation →
          ShownByCheck digest normalizeYaml configs suppressions showSuppressed session x := by
  have inScan : ∀ v, adjusted configs v ∈ output ↔ ShownByScan rules f g configs v :=
    mem_output_iff rules f g configs scanned
  simp only [inScan, mem_checkOutput_iff]

end Enforced

def enforcing (ruleId : String) : List RuleConfig := [{ ruleId, enabled := true, enforced := true }]

def oneTask (yamlLines : Text) : ContentGraph :=
  { nodes := Dict.ofList
      [("task", { nodeType := .task, filePath := "site.yml", lineStart := 2, lineEnd := 2
                  yamlLines })] }

def shellRule : GraphRule := everyNodeRule "L030" "low"

def shellReport : Violation :=
  { ruleId := "L030", path := "task", file := "site.yml", line := .one 2, severity := "low"
    scope := "task", source := "native" }

def shellEntry : SessionFinding := { violation := shellReport, originalYaml := "- shell: ls\n".toList }

def commentedTask : ContentGraph := oneTask "- shell: ls  # noqa: L030\n".toList

/-- The suppression of a whole rule. -/
def ruleSuppression (digest : Text → String) (ruleId : String) : Suppression :=
  { fingerprint := computeFingerprint digest id ruleId [] .ruleOnly "", ruleId, mode := .ruleOnly }

/-- A secret with the same name in two tasks, on their first lines. -/
def secretReport (path : String) : Violation :=
  { ruleId := "SEC:generic-api-key", path, line := .one 1, severity := "critical", scope := "task"
    source := "gitleaks" }

def secretFindings : FanOut :=
  { address := fun _ => true, native := .completed ()
    others := fun validator =>
      .completed (if validator = .gitleaks then [secretReport "a", secretReport "b"] else []) }

def twoTasks : ContentGraph :=
  { nodes := Dict.ofList
      [("a", { nodeType := .task, yamlLines := "- key: x\n".toList }),
        ("b", { nodeType := .task, yamlLines := "- key: y\n".toList })] }

theorem plain_scan :
    executeScanPipeline [shellRule] nativeFindings (oneTask "- shell: ls\n".toList)
      (enforcing "L030") false [] = .ok [{ shellReport with enforced := true }] := by
  rfl

theorem plain_answers :
    unsuppressedAnswers [shellRule] nativeFindings (oneTask "- shell: ls\n".toList) =
      some [shellReport] := by
  rfl

/-- Without comments and with the plain spelling of the rule nothing is lost,
although a suppression has the fingerprint. -/
theorem plainTask_not_silenced :
    Holds (fun output => adjusted (enforcing "L030") shellReport ∈ output) (fun _ => False)
        (executeScanPipeline [shellRule] nativeFindings (oneTask "- shell: ls\n".toList)
          (enforcing "L030") false []) ∧
      shellEntry ∈ checkOutput String.ofList id (enforcing "L030")
        [ruleSuppression String.ofList "L030"] false [shellEntry] := by
  have shown := (enforced_not_silenced_iff [shellRule] nativeFindings
    (oneTask "- shell: ls\n".toList) (enforcing "L030") false [] _ plain_scan String.ofList id
    [ruleSuppression String.ofList "L030"] false [shellEntry]).mpr
  have enforced : Enforced (enforcing "L030") shellReport := ⟨_, rfl, rfl⟩
  have reported : ReportedOnNode [shellRule] nativeFindings (oneTask "- shell: ls\n".toList)
      shellReport := ⟨⟨_, plain_answers, mem_singleton_self _⟩, rfl⟩
  have visible : visibleAnswers [shellRule] nativeFindings (oneTask "- shell: ls\n".toList) =
      [shellReport] := by
    rfl
  have both := shown ⟨by
    intro v known _
    obtain ⟨⟨answers, same, member⟩, -⟩ := known
    rw [plain_answers] at same
    cases Option.some.inj same
    rw [mem_singleton.mp member]
    refine ⟨?_, shellReport, ?_, rfl⟩
    · intro rc found
      cases Option.some.inj found
      rfl
    · rw [visible]
      rfl, by
    intro x member _
    rw [mem_singleton.mp member]
    exact ⟨by decide, .inr (.inl (by decide))⟩⟩
  rw [plain_scan]
  exact ⟨both.1 shellReport reported enforced, both.2 shellEntry (mem_singleton_self _) enforced⟩

/-- A comment hides an enforced rule from the scan; a suppression hides it from
the command when the row has the other spelling of its id; and of two secrets
with the same relative line the scan keeps one. -/
theorem enforced_silenced :
    (ReportedOnNode [shellRule] nativeFindings commentedTask shellReport ∧
      Enforced (enforcing "L030") shellReport ∧
      executeScanPipeline [shellRule] nativeFindings commentedTask (enforcing "L030") false [] =
        .ok []) ∧
    (Enforced (enforcing "native:L030") shellEntry.violation ∧
      ∀ digest, checkOutput digest id (enforcing "native:L030") [ruleSuppression digest "L030"]
        false [shellEntry] = []) ∧
    (ReportedOnNode [] secretFindings twoTasks (secretReport "b") ∧
      Enforced (enforcing "SEC:generic-api-key") (secretReport "b") ∧
      executeScanPipeline [] secretFindings twoTasks (enforcing "SEC:generic-api-key") false [] =
        .ok [{ secretReport "a" with enforced := true }]) := by
  refine ⟨⟨?_, ⟨_, rfl, rfl⟩, rfl⟩, ⟨⟨_, rfl, rfl⟩, ?_⟩, ?_, ⟨_, rfl, rfl⟩, rfl⟩
  · exact ⟨⟨[shellReport], rfl, mem_singleton_self _⟩, rfl⟩
  · intro digest
    have hidden : isSuppressed digest id [ruleSuppression digest "L030"] shellEntry := by
      simp [isSuppressed, listed, ruleSuppression, computeFingerprint, shellEntry, shellReport]
    apply eq_nil_iff_forall_not_mem.mpr
    intro x member
    rw [mem_checkOutput_iff] at member
    obtain ⟨first, shown⟩ := member
    rw [mem_singleton.mp (mem_of_find?_eq_some first)] at shown
    rw [hidden] at shown
    revert shown
    decide
  · exact ⟨⟨[secretReport "a", secretReport "b"], rfl, by simp⟩, rfl⟩

end Apme.Cli
