import Apme.Daemon.Pipeline
import Apme.Daemon.Rescan
import Apme.Remediation.Provenance

/-!
# Rule configurations over a whole remediation

Configurations are applied to the output of the scan pipeline, once.  A run
keeps to them as long as its rescans do; the rescan bridge does not apply them
to what the validators report.
-/

set_option autoImplicit false

namespace Apme.Daemon

open Apme.Lib Apme.Graph Apme.Remediation

section Run

variable {configs : List RuleConfig}

theorem Configured.filled {v w : Violation} (ha : Configured configs v) (hf : Filled v w) :
    Configured configs w := by
  obtain ⟨_, _, _, rfl⟩ := hf
  exact ha.congr rfl rfl

theorem configured_of_origin {g : ContentGraph} {init told : List Violation}
    (hl : ∀ v ∈ init, Configured configs v) (hle : LedgerKnown (Configured configs) g)
    (hre : ∀ v ∈ told, Configured configs v) (v : Violation)
    (ho : Origin g init told v) : Configured configs v := by
  obtain ⟨w, hs, hfi⟩ := ho
  have ha : Configured configs w := by
    rcases hs with hi | hil | hia
    · exact hl w hi
    · obtain ⟨id, n, key, record, hf, hr, rfl⟩ := hil
      exact hle id n key record hf hr
    · exact hre w hia
  exact ha.filled hfi

/-- The violations the engine starts a run with: of the scan, or of the graph
when a second run goes on from the first. -/
def GivenByEngine (scanned : List Violation) (g : ContentGraph) (initial : List Violation) : Prop :=
  ∀ v ∈ initial, v ∈ scanned ∨ ∃ status, v ∈ g.queryViolations status

/-- A run all of whose rescans answer with allowed violations gives away and
reports allowed violations only, and leaves a graph for the next run. -/
theorem remediate_configured (rules : List GraphRule) (f : FanOut) (scanGraph : ContentGraph)
    (configs : List RuleConfig) (complete : Bool) (knownRuleIds : List String)
    (scanned : List Violation)
    (scan : executeScanPipeline rules f scanGraph configs complete knownRuleIds = .ok scanned)
    (cfg : EngineConfig) (opts : RemediateOptions) (g : ContentGraph) (initial : List Violation)
    (given : GivenByEngine scanned g initial) (ledger : LedgerKnown (Configured configs) g) :
    Holds
      (fun r => (∀ v ∈ r.1.answered, Configured configs v) →
        (∀ v ∈ r.1.handled, Configured configs v) ∧
          (∀ v ∈ r.2.remainingViolations ++ r.2.fixedViolations, Configured configs v) ∧
            LedgerKnown (Configured configs) r.1.graph)
      (fun s => (∀ v ∈ s.answered, Configured configs v) → ∀ v ∈ s.handled, Configured configs v)
      (remediate cfg opts g (some initial)) := by
  have listed : ∀ v ∈ initial, Configured configs v := by
    intro v member
    rcases given v member with inScan | ⟨status, inGraph⟩
    · exact configured_pipeline rules f scanGraph configs complete knownRuleIds scanned scan v inScan
    · obtain ⟨w, allowed, filled⟩ := ledger.query inGraph
      exact allowed.filled filled
  refine (remediate_provenance cfg opts g initial).mono ?_ ?_
  · intro r origins rescans
    obtain ⟨handled, reported, recorded⟩ := origins
    have allowed := configured_of_origin listed ledger rescans
    exact ⟨fun v member => allowed v (handled v member),
      fun v member => allowed v (reported v member), recorded.mono allowed⟩
  · intro s handled rescans v member
    exact configured_of_origin listed ledger rescans v (handled v member)

end Run

variable (ruleId severity : String)

/-- A rule that reports the node as long as it has the text. -/
def textRule (text : Text) : GraphRule :=
  { ruleId, severity
    evaluate := fun g nodeId =>
      if (g.getNode nodeId).map ContentNode.yamlLines = some text then
        .result { verdict := true, nodeId }
      else .notMatched
    names_node := by
      intro g nodeId r found
      split at found
      · cases found
        rfl
      · cases found }

/-- A rule that reports every node. -/
def everyNodeRule : GraphRule :=
  { ruleId, severity
    evaluate := fun _ nodeId => .result { verdict := true, nodeId }
    names_node := by
      intro g nodeId r found
      cases found
      rfl }

def uglyTask : ContentGraph :=
  { nodes := Dict.ofList
      [("task", { nodeType := .task, filePath := "site.yml", lineStart := 2, lineEnd := 2
                  yamlLines := "- shell: ls\n".toList })] }

/-- Every validator is there; only the native one finds something. -/
def nativeFindings : FanOut :=
  { address := fun _ => true, native := .completed (), others := fun _ => .completed [] }

/-- `L030` is switched off and `L050` is critical. -/
def strictConfigs : List RuleConfig :=
  [{ ruleId := "L030", enabled := false }, { ruleId := "L050", enabled := true, severity := 6 }]

/-- One transform, for `L041`; rescans go through the bridge. -/
def tidyConfig (rules : List GraphRule) : EngineConfig :=
  { registry := fun ruleId =>
      if ruleId = "L041" then some fun _ _ => .dumped "- command: ls\n".toList else none
    rules
    rescanFn := some fun count g dirty => rescanBridge rules g dirty (fun _ => answeringWorld) count
    aiProvider := some fun _ _ => .noFix }

def tidyRule : GraphRule := textRule "L041" "low" "- shell: ls\n".toList

theorem uglyTask_ledger (k₁ : Violation → Prop) : LedgerKnown k₁ uglyTask := by
  intro id n k r hf kept
  obtain ⟨rfl, rfl⟩ := Prod.mk.inj (List.mem_singleton.mp ((Dict.get?_eq_some_iff _ _ _).mp hf))
  cases kept

def tidyFinding : Violation :=
  { ruleId := "L041", path := "task", file := "site.yml", line := .one 2, severity := "low"
    scope := "task", source := "native" }

/-- The second rule always reports, with the severity that is configured for it. -/
def steadyRules : List GraphRule := [tidyRule, everyNodeRule "L050" "critical"]

def steadyFinding : Violation := { tidyFinding with ruleId := "L050", severity := "critical" }

theorem steadyRules_scan :
    executeScanPipeline steadyRules nativeFindings uglyTask strictConfigs false [] =
      .ok [tidyFinding, steadyFinding] := by
  rfl

/-- After the first finding is fixed the rescan reports the other one. -/
theorem steadyRules_configured :
    Holds
      (fun r => r.1.answered = [steadyFinding] ∧ r.2.fixedViolations ≠ [] ∧
        ∀ v ∈ r.2.remainingViolations ++ r.2.fixedViolations, Configured strictConfigs v)
      (fun _ => False)
      (remediate (tidyConfig steadyRules) {} uglyTask (some [tidyFinding, steadyFinding])) := by
  have facts : Holds (fun r => r.1.answered = [steadyFinding] ∧ r.2.fixedViolations ≠ [])
      (fun _ => False)
      (remediate (tidyConfig steadyRules) {} uglyTask (some [tidyFinding, steadyFinding])) := by
    decide
  have configured := remediate_configured steadyRules nativeFindings uglyTask strictConfigs false []
    [tidyFinding, steadyFinding] steadyRules_scan (tidyConfig steadyRules) {} uglyTask
    [tidyFinding, steadyFinding] (fun _ member => .inl member) (uglyTask_ledger _)
  have allowed := configured_pipeline steadyRules nativeFindings uglyTask strictConfigs false []
    [tidyFinding, steadyFinding] steadyRules_scan steadyFinding (by simp)
  cases run : remediate (tidyConfig steadyRules) {} uglyTask (some [tidyFinding, steadyFinding]) with
  | error failed => rwa [run] at facts
  | ok ended =>
    rw [run] at facts configured
    refine ⟨facts.1, facts.2, (configured ?_).2.1⟩
    intro v reported
    rw [facts.1, List.mem_singleton] at reported
    rwa [reported]

def uglyRules : List GraphRule := [tidyRule, everyNodeRule "L030" "low", everyNodeRule "L050" "low"]

/-- The scan keeps to the configurations, but after the first fix the rescan
brings the disabled rule back, which then goes to the AI provider and into the
report, and puts the severity of the other one back to its default. -/
theorem uglyRules_unconfigured :
    Holds
      (fun scanned =>
        (∀ v ∈ scanned, Configured strictConfigs v) ∧
        Holds
          (fun r =>
            (∃ v ∈ r.1.handled, v.ruleId = "L030") ∧
            (∃ v ∈ r.2.remainingViolations, v.ruleId = "L030") ∧
            ∃ v ∈ r.2.remainingViolations, v.ruleId = "L050" ∧ v.severity = "low")
          (fun _ => False) (remediate (tidyConfig uglyRules) {} uglyTask (some scanned)))
      (fun _ => False)
      (executeScanPipeline uglyRules nativeFindings uglyTask strictConfigs false []) := by
  decide

end Apme.Daemon
