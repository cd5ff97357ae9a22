import Apme.Daemon.Pipeline
import Apme.Remediation.Evidence

/-!
# Rescans through the validators

`_rescan_bridge` asks the validators about the dirty nodes.  What a validator
has really evaluated is part of its answer here, though the engine does not get
to see it: a check that fails inside its servicer has evaluated nothing and
reports nothing.
-/

set_option autoImplicit false

namespace Apme.Daemon

open Apme.Lib Apme.Graph Apme.Remediation List Option

section Payloads

variable (g : ContentGraph) (dirty : List String)

def dirtyNodeIds : List String := (sortIds dirty).filter fun nodeId => (g.getNode nodeId).isSome

def hasYaml (nodeId : String) : Bool :=
  match g.getNode nodeId with
  | none => false
  | some node => node.yamlLines ≠ []

/-- The node types of `_OPA_TYPE_MAP`. -/
def opaTypes : List NodeType := [.playbook, .play, .role, .taskfile, .task, .handler, .block]

/-- The node types that become a `taskcall`. -/
def taskcallTypes : List NodeType := [.task, .handler]

def parentPlays (nodeId : String) : List String :=
  ((g.edges.filter fun edge => edge.target = nodeId && edge.edgeType = .contains).map
    Edge.source).filter (g.hasType [.play])

def gitleaksPayload : List String := (dirtyNodeIds g dirty).filter (hasYaml g)

def opaPayload : List String :=
  (sortIds (dirtyNodeIds g dirty ++ (dirtyNodeIds g dirty).flatMap (parentPlays g)).dedup).filter
    (g.hasType opaTypes)

def ansiblePayload : List String := (dirtyNodeIds g dirty).filter (g.hasType taskcallTypes)

end Payloads

/-- A check over the nodes of a payload.  It can leave out nodes and rules; it
reports only what it has evaluated. -/
structure CheckRun (owned : String → Bool) (payload : List String) where
  evaluated : String → String → Bool
  violations : List Violation
  within : ∀ nodeId ruleId, evaluated nodeId ruleId → nodeId ∈ payload ∧ owned ruleId
  honest : ∀ v ∈ violations, evaluated v.path (normalizeRuleId v.ruleId)

variable (owned : String → Bool) (payload : List String)

/-- A check that fails and says nothing. -/
def CheckRun.silent : CheckRun owned payload :=
  { evaluated := fun _ _ => false
    violations := []
    within := fun _ _ ran => by cases ran
    honest := fun _ member => absurd member not_mem_nil }

/-- A check of one rule that goes through the whole payload and finds nothing. -/
def CheckRun.clean : CheckRun owned payload :=
  { evaluated := fun nodeId ruleId => nodeId ∈ payload && owned ruleId
    violations := []
    within := fun _ _ ran => by simpa using ran
    honest := fun _ member => absurd member not_mem_nil }

def secretPrefix : List Char := "SEC:".toList

variable (ruleId : String)

def secretRule : Bool := secretPrefix.isPrefixOf ruleId.toList

def opaRule : Bool :=
  ruleId ∈ ["L003", "L004", "L005", "L006", "L007", "L008", "L009", "L010", "L011", "L012", "L013",
    "L014", "L015", "L016", "L017", "L018", "L019", "L020", "L021", "L022", "L023", "L024", "L025",
    "L061", "L062", "L063", "L064", "L065", "L066", "L067", "L068", "L069", "L070", "L071", "L072",
    "L106", "M006", "M008", "M009", "M011", "M016", "M017", "M018", "M021", "M023", "M024", "M025",
    "M028", "R118"]

def introspectionRule : Bool := ruleId ∈ ["L037", "M001", "M002", "M003", "M004", "M048"]

/-- The checks of the Ansible validator on the tasks of a payload.  The syntax
check (`L057`) is not among them: a request with dirty nodes turns it off. -/
structure AnsibleRun (payload : List String) where
  introspection : CheckRun introspectionRule payload
  argspecDoc : CheckRun (fun ruleId => ruleId = "L058") payload
  argspecMock : CheckRun (fun ruleId => ruleId = "L059") payload

namespace AnsibleRun

variable {payload : List String} (run : AnsibleRun payload)

def violations : List Violation :=
  run.introspection.violations ++ run.argspecDoc.violations ++ run.argspecMock.violations

def evaluated (nodeId ruleId : String) : Bool :=
  run.introspection.evaluated nodeId ruleId || run.argspecDoc.evaluated nodeId ruleId ||
    run.argspecMock.evaluated nodeId ruleId

theorem honest (v : Violation) (mem : v ∈ run.violations) :
    run.evaluated v.path (normalizeRuleId v.ruleId) := by
  simp only [violations, mem_append] at mem
  simp only [evaluated, Bool.or_eq_true]
  rcases mem with (hf | hf) | hf
  · exact .inl (.inl (run.introspection.honest v hf))
  · exact .inl (.inr (run.argspecDoc.honest v hf))
  · exact .inr (run.argspecMock.honest v hf)

end AnsibleRun

section Bridge

/-- Configuration and validator answers at one rescan. -/
structure RescanWorld where
  nativeAddress : Bool := true
  opaAddress : Bool := true
  ansibleAddress : Bool := true
  gitleaksAddress : Bool := true
  venvPath : String
  native : Reply Unit
  opa : ∀ payload, Reply (CheckRun opaRule payload)
  ansible : ∀ payload, Reply (AnsibleRun payload)
  gitleaks : ∀ payload, Reply (CheckRun secretRule payload)

variable (rules : List GraphRule) (w : RescanWorld) (g : ContentGraph) (dirty : List String)

/-- The native validator rescans the whole graph. -/
def nativeReply : Reply (List Violation) :=
  w.native.map fun _ => graphReportToViolations (rescanDirty g rules dirty)

def withSource (source : String) (v : Violation) : Violation :=
  { v with source := if v.source = "" then source else v.source }

/-- The calls of one rescan.  `rules` are the rules of the native validator. -/
def rescanCalls : List (Validator × Reply (List Violation)) :=
  [(.native, nativeReply rules w g dirty)] ++
  (if w.gitleaksAddress ∧ gitleaksPayload g dirty ≠ [] then
    [(.gitleaks, (w.gitleaks (gitleaksPayload g dirty)).map CheckRun.violations)]
  else []) ++
  (if opaPayload g dirty ≠ [] then
    [(.opa, (w.opa (opaPayload g dirty)).map fun run => run.violations.map (withSource "opa"))]
  else []) ++
  (if w.venvPath ≠ "" ∧ ansiblePayload g dirty ≠ [] then
    [(.ansible, (w.ansible (ansiblePayload g dirty)).map fun run =>
      run.violations.map (withSource "ansible"))]
  else [])

/-- What the validators report, before suppressions. -/
def mergedAnswers : Option (List Violation) :=
  if dirtyNodeIds g dirty = [] then some []
  else if w.nativeAddress && w.opaAddress && w.ansibleAddress then gather (rescanCalls rules w g dirty)
  else none

/-- `_rescan_bridge`; `world count` is the state of affairs at a rescan. -/
def rescanBridge (world : Nat → RescanWorld) (count : Nat) : Option (List Violation) :=
  (mergedAnswers rules (world count) g dirty).map g.filterNoqaViolations

end Bridge

section Evidence

variable (rules : List GraphRule) (w : RescanWorld) (g : ContentGraph) (dirty : List String)

/-- The validator was called and has evaluated the rule on the node. -/
def Validator.Evaluated (nodeId ruleId : String) : Validator → Prop
  | .native =>
    w.native = .completed () ∧
      nodeId ∈ g.expandDirtyNodeIds (rules.filter GraphRule.enabled) dirty ∧
        EvaluatedOn rules g nodeId ruleId
  | .gitleaks =>
    w.gitleaksAddress ∧ ∃ run, w.gitleaks (gitleaksPayload g dirty) = .completed run ∧
      run.evaluated nodeId ruleId
  | .opa =>
    ∃ run, w.opa (opaPayload g dirty) = .completed run ∧ run.evaluated nodeId ruleId
  | .ansible =>
    w.venvPath ≠ "" ∧ ∃ run, w.ansible (ansiblePayload g dirty) = .completed run ∧
      run.evaluated nodeId ruleId
  | .collectionHealth | .depAudit => False

/-- Some validator reports the violation. -/
def Reported (v : Violation) :
    Prop := ∃ answers, mergedAnswers rules w g dirty = some answers ∧ v ∈ answers

theorem Reply.map_eq_completed {α β : Type} {f : α → β} {reply : Reply α} {res : β}
    (completed : reply.map f = .completed res) :
    ∃ value, reply = .completed value ∧ res = f value := by
  cases reply with
  | completed value =>
    cases completed
    exact ⟨value, rfl, rfl⟩
  | raised => cases completed
  | rpcError => cases completed
  | faulted src => cases completed

theorem evaluated_of_call (validator : Validator) (vs : List Violation)
    (hc : (validator, .completed vs) ∈ rescanCalls rules w g dirty) (v : Violation)
    (mem : v ∈ vs) : validator.Evaluated rules w g dirty v.path (normalizeRuleId v.ruleId) := by
  simp only [rescanCalls, mem_append] at hc
  rcases hc with ((hc | hc) | hc) | hc
  · obtain ⟨rfl, ht⟩ := Prod.mk.inj (mem_singleton.mp hc)
    obtain ⟨_, hco, rfl⟩ := Reply.map_eq_completed ht.symm
    exact ⟨hco, evaluatedOn_of_reported rules mem⟩
  · split at hc
    next ha =>
      obtain ⟨rfl, ht⟩ := Prod.mk.inj (mem_singleton.mp hc)
      obtain ⟨run, hco, rfl⟩ := Reply.map_eq_completed ht.symm
      exact ⟨ha.1, run, hco, run.honest v mem⟩
    next => exact absurd hc not_mem_nil
  · split at hc
    next =>
      obtain ⟨rfl, ht⟩ := Prod.mk.inj (mem_singleton.mp hc)
      obtain ⟨run, hco, rfl⟩ := Reply.map_eq_completed ht.symm
      obtain ⟨reported, hr, rfl⟩ := mem_map.mp mem
      exact ⟨run, hco, run.honest reported hr⟩
    next => exact absurd hc not_mem_nil
  · split at hc
    next ha =>
      obtain ⟨rfl, ht⟩ := Prod.mk.inj (mem_singleton.mp hc)
      obtain ⟨run, hco, rfl⟩ := Reply.map_eq_completed ht.symm
      obtain ⟨reported, hr, rfl⟩ := mem_map.mp mem
      exact ⟨ha.1, run, hco, run.honest reported hr⟩
    next => exact absurd hc not_mem_nil

theorem evaluated_of_reported (v : Violation) (reported : Reported rules w g dirty v)
    (hn : v.path ≠ "") :
    ∃ validator : Validator,
      validator.Evaluated rules w g dirty v.path (normalizeRuleId v.ruleId) := by
  obtain ⟨ans, hm, mem⟩ := reported
  unfold mergedAnswers at hm
  split at hm
  · cases some.inj hm
    exact absurd mem not_mem_nil
  · split at hm
    · rcases mem_gather _ hm v mem with
        ⟨source, rfl⟩ | ⟨validator, violations, hc, original, hic, rfl⟩
      · exact absurd rfl hn
      · exact ⟨validator, evaluated_of_call rules w g dirty validator violations hc original
          hic⟩
    · cases hm

theorem mem_filterNoqa_iff {merged : List Violation}
    (hM : mergedAnswers rules w g dirty = some merged) (v : Violation) :
    v ∈ g.filterNoqaViolations merged ↔ Reported rules w g dirty v ∧ g.noqaDrops v = false := by
  rw [ContentGraph.filterNoqaViolations, mem_filter, Bool.not_eq_true']
  refine and_congr_left fun _ => ⟨fun mem => ⟨merged, hM, mem⟩, ?_⟩
  rintro ⟨ans, hA, mem⟩
  cases some.inj (hM.symm.trans hA)
  exact mem

theorem merged_of_run {world : Nat → RescanWorld} {cfg : EngineConfig}
    (hb : cfg.rescanFn = some fun count g dirty => rescanBridge rules g dirty world count)
    {pass : Nat} {fixedBy : FixedBy} {st : Status} {s t : Engine}
    (run : rescanAndRecord cfg pass fixedBy st s = .ok t) :
    ∃ merged, mergedAnswers rules (world s.rescans) s.graph
        (s.graph.expandDirtyNodeIds cfg.rules s.graph.dirtyNodes) = some merged ∧
      rescanAnswer cfg s.rescans s.graph
        (s.graph.expandDirtyNodeIds cfg.rules s.graph.dirtyNodes) =
          some (s.graph.filterNoqaViolations merged) := by
  unfold rescanAndRecord at run
  simp only [rescanAnswer, hb, rescanBridge] at run ⊢
  cases hM : mergedAnswers rules (world s.rescans) s.graph
      (s.graph.expandDirtyNodeIds cfg.rules s.graph.dirtyNodes) with
  | none =>
    rw [hM] at run
    cases run
  | some merged => exact ⟨merged, rfl, rfl⟩

/-- With the bridge as rescan function entries are closed on evidence alone
exactly if, for every open entry of the nodes in question, some validator has
evaluated the rule on the node, and what was reported is heard: the node has a
name, and a comment does not hide it all. -/
theorem bridge_rescan_evidence_iff (world : Nat → RescanWorld) (cfg : EngineConfig)
    (bridged : cfg.rescanFn = some fun count g dirty => rescanBridge rules g dirty world count)
    (passNumber : Nat) (fixedBy : FixedBy) (status : Status) (closing : status ∈ closedStatuses)
    (s t : Engine) (run : rescanAndRecord cfg passNumber fixedBy status s = .ok t) :
    (∀ nodeId key, Closes s.graph t.graph nodeId key →
      (∃ validator : Validator, validator.Evaluated rules (world s.rescans) s.graph
        (s.graph.expandDirtyNodeIds cfg.rules s.graph.dirtyNodes) nodeId key.2) ∧
      ∀ v, Reported rules (world s.rescans) s.graph
        (s.graph.expandDirtyNodeIds cfg.rules s.graph.dirtyNodes) v →
          violationKey v ≠ (nodeId, key.2)) ↔
      ∀ nodeId ∈ s.graph.expandDirtyNodeIds cfg.rules s.graph.dirtyNodes, ∀ key,
        statusAt s.graph nodeId key = some .opened →
          (∃ validator : Validator, validator.Evaluated rules (world s.rescans) s.graph
            (s.graph.expandDirtyNodeIds cfg.rules s.graph.dirtyNodes) nodeId key.2) ∧
          ((∃ v, Reported rules (world s.rescans) s.graph
              (s.graph.expandDirtyNodeIds cfg.rules s.graph.dirtyNodes) v ∧
                violationKey v = (nodeId, key.2)) →
            nodeId ≠ "" ∧ ∃ v, Reported rules (world s.rescans) s.graph
              (s.graph.expandDirtyNodeIds cfg.rules s.graph.dirtyNodes) v ∧
                violationKey v = (nodeId, key.2) ∧ s.graph.noqaDrops v = false) := by
  obtain ⟨merged, isMerged, answered⟩ :=
    merged_of_run rules bridged run
  have closes := closes_rescan_iff closing answered run
  constructor
  · intro evidence nodeId dirty key isOpen
    by_cases heard : nodeId ≠ "" ∧ ∃ v ∈ s.graph.filterNoqaViolations merged,
        violationKey v = (nodeId, key.2)
    · obtain ⟨hasName, v, member, same⟩ := heard
      obtain ⟨reported, visible⟩ := (mem_filterNoqa_iff rules _ _ _ isMerged v).mp member
      obtain ⟨path, ruleId⟩ := Prod.mk.inj same
      obtain ⟨validator, ran⟩ := evaluated_of_reported rules _ _ _ v reported
        (by rw [path]; exact hasName)
      rw [path, ruleId] at ran
      exact ⟨⟨validator, ran⟩, fun _ => ⟨hasName, v, reported, same, visible⟩⟩
    · obtain ⟨evaluated, unreported⟩ :=
        evidence nodeId key ((closes nodeId key).mpr ⟨isOpen, dirty, heard⟩)
      exact ⟨evaluated, fun ⟨v, reported, same⟩ => absurd same (unreported v reported)⟩
  · intro condition nodeId key closed
    obtain ⟨isOpen, dirty, unheard⟩ := (closes nodeId key).mp closed
    obtain ⟨evaluated, visible⟩ := condition nodeId dirty key isOpen
    refine ⟨evaluated, ?_⟩
    intro v reported same
    obtain ⟨hasName, other, otherReported, otherSame, otherVisible⟩ := visible ⟨v, reported, same⟩
    exact unheard ⟨hasName, other, (mem_filterNoqa_iff rules _ _ _ isMerged other).mpr
      ⟨otherReported, otherVisible⟩, otherSame⟩

end Evidence

/-- All validators answer, and find nothing. -/
def answeringWorld : RescanWorld :=
  { venvPath := "/venv"
    native := .completed ()
    opa := fun payload => .completed (.clean _ payload)
    ansible := fun payload => .completed
      { introspection := .clean _ payload, argspecDoc := .clean _ payload
        argspecMock := .clean _ payload }
    gitleaks := fun payload => .completed (.clean _ payload) }

/-- The native servicer fails, the call to the gitleaks validator fails, and the
Ansible validator cannot look up modules. -/
def failingWorld : RescanWorld :=
  { answeringWorld with
    native := .faulted ""
    gitleaks := fun _ => .rpcError
    ansible := fun payload => .completed
      { introspection := .silent _ payload, argspecDoc := .clean _ payload
        argspecMock := .clean _ payload } }

def bridgeConfig (w : RescanWorld) : EngineConfig :=
  { registry := fun _ => none, rules := [satisfiedRule]
    rescanFn := some fun count g dirty => rescanBridge [satisfiedRule] g dirty (fun _ => w) count }

theorem answeringWorld_reports_nothing :
    mergedAnswers [satisfiedRule] answeringWorld (editedTask [openFinding]).graph ["task"] =
      some [] := by
  decide

/-- The entry of a rule that the native validator has run is closed. -/
theorem answeringWorld_closes_on_evidence :
    Holds
      (fun t => Closes (editedTask [openFinding]).graph t.graph "task" ("task", "L030") ∧
        ∀ nodeId key, Closes (editedTask [openFinding]).graph t.graph nodeId key →
          (∃ validator : Validator, validator.Evaluated [satisfiedRule] answeringWorld
            (editedTask [openFinding]).graph ["task"] nodeId key.2) ∧
          ∀ v, Reported [satisfiedRule] answeringWorld (editedTask [openFinding]).graph ["task"] v →
            violationKey v ≠ (nodeId, key.2))
      (fun _ => False)
      (rescanAndRecord (bridgeConfig answeringWorld) 1 .deterministic .fixed
        (editedTask [openFinding])) := by
  have facts : Holds
      (fun t => statusAt t.graph "task" ("task", "L030") = some .fixed) (fun _ => False)
      (rescanAndRecord (bridgeConfig answeringWorld) 1 .deterministic .fixed
        (editedTask [openFinding])) := by
    decide
  cases run : rescanAndRecord (bridgeConfig answeringWorld) 1 .deterministic .fixed
      (editedTask [openFinding]) with
  | error failed => rwa [run] at facts
  | ok t =>
    rw [run] at facts
    refine ⟨⟨by decide, .fixed, by decide, facts⟩, ?_⟩
    refine (bridge_rescan_evidence_iff [satisfiedRule] (fun _ => answeringWorld)
      (bridgeConfig answeringWorld) rfl 1 .deterministic .fixed (by decide)
      (editedTask [openFinding]) t run).mpr fun nodeId _ key isOpen => ?_
    obtain ⟨rfl, rfl⟩ := editedTask_open isOpen
    refine ⟨⟨.native, rfl, by decide, satisfiedRule_evaluated⟩, ?_⟩
    intro reported
    obtain ⟨v, ⟨answers, isAnswers, member⟩, -⟩ := reported
    cases some.inj (answeringWorld_reports_nothing.symm.trans isAnswers)
    exact absurd member not_mem_nil

/-- A rule of the native validator, one of the module lookup, the syntax check
and a secret rule. -/
def unheardRules : List String := ["L030", "M001", "L057", "SEC:aws-access-token"]

theorem failingWorld_unevaluated (g : ContentGraph) (dirty : List String) (nodeId ruleId : String)
    (hu : ruleId ∈ unheardRules) (validator : Validator) :
    ¬ validator.Evaluated [satisfiedRule] failingWorld g dirty nodeId ruleId := by
  have hf : opaRule ruleId = false ∧ ruleId ≠ "L058" ∧ ruleId ≠ "L059" := by
    revert ruleId
    decide
  obtain ⟨ho, hd, hm⟩ := hf
  cases validator with
  | native =>
    rintro ⟨hc, -⟩
    cases hc
  | gitleaks =>
    rintro ⟨-, run, hc, -⟩
    cases hc
  | opa =>
    rintro ⟨run, -, ran⟩
    rw [(run.within nodeId ruleId ran).2] at ho
    cases ho
  | ansible =>
    rintro ⟨-, run, hc, ran⟩
    cases hc
    simp [AnsibleRun.evaluated, CheckRun.silent, CheckRun.clean, hd, hm] at ran
  | collectionHealth => exact id
  | depAudit => exact id

/-- With failing validators the entries of their rules are marked fixed, and so
is the entry of the syntax check, which rescans never run. -/
theorem failingWorld_closes_without_evidence :
    (∀ ruleId ∈ unheardRules, ∀ validator : Validator,
      ¬ validator.Evaluated [satisfiedRule] failingWorld
        (editedTask (unheardRules.map fun ruleId => { ruleId, path := "task" })).graph ["task"]
          "task" ruleId) ∧
    Holds
      (fun t => ∀ ruleId ∈ unheardRules,
        statusAt (editedTask (unheardRules.map fun ruleId => { ruleId, path := "task" })).graph
          "task" ("task", ruleId) = some .opened ∧
        statusAt t.graph "task" ("task", ruleId) = some .fixed)
      (fun _ => False)
      (rescanAndRecord (bridgeConfig failingWorld) 1 .deterministic .fixed
        (editedTask (unheardRules.map fun ruleId => { ruleId, path := "task" }))) :=
  ⟨fun ruleId unheard => failingWorld_unevaluated _ _ _ ruleId unheard, by decide⟩

end Apme.Daemon
