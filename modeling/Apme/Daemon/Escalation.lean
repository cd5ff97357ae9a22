import Apme.Daemon.Shown
import Apme.Remediation.Provenance
import Apme.Remediation.Steps

/-!
# Escalation to the AI

After the first gate the operator chooses nodes and rules to escalate.  The
other open AI candidates are declined and the AI gate starts with what is
chosen, but after a rescan the loop goes on with whatever is open.
-/

set_option autoImplicit false

namespace Apme.Daemon

open Apme.Lib Apme.Graph Apme.Remediation List

/-- Without rule ids the whole node is chosen. -/
structure EscalateTarget where
  path : String
  ruleIds : List String := []

def EscalateTarget.covers (target : EscalateTarget) (v : Violation) : Bool :=
  v.path = target.path &&
    (target.ruleIds = [] || normalizeRuleId v.ruleId ∈ target.ruleIds.map normalizeRuleId)

variable (targets : List EscalateTarget)

def isChosen (v : Violation) : Bool := targets.any fun target => target.covers v

/-- Without a list everything passes, with an empty one nothing does. -/
def filterViolationsByEscalateTargets (violations : List Violation) :
    Option (List EscalateTarget) → List Violation
  | none => violations
  | some targets => violations.filter (isChosen targets)

def declineSkippedAiEscalation (g : ContentGraph) : ContentGraph :=
  let openViolations := g.queryViolations .opened
  let allowedKeys :=
    (filterViolationsByEscalateTargets openViolations (some targets)).map violationKey
  g.declineOpenViolations <| openViolations.filter fun v =>
    classifyViolation v = .aiCandidate ∧ violationKey v ∉ allowedKeys

/-- The AI run of the gate; `none` when nothing is left to escalate. -/
def sessionRunAiGate (cfg : EngineConfig) (targets : Option (List EscalateTarget))
    (g : ContentGraph) : Option (Except Engine (Engine × GraphFixReport)) :=
  let openViolations := filterViolationsByEscalateTargets (g.queryViolations .opened) targets
  if targets.isSome ∧ openViolations = [] then none
  else some (remediate cfg gate2Options g (some openViolations))

def sessionHandleAiEscalate (cfg : EngineConfig) (targets : List EscalateTarget)
    (g : ContentGraph) : Option (Except Engine (Engine × GraphFixReport)) :=
  let declined := declineSkippedAiEscalation targets g
  if targets = [] then none else sessionRunAiGate cfg (some targets) declined

variable {w v : Violation} (targets : List EscalateTarget)

theorem isChosen_of_key (hs : violationKey v = violationKey w) :
    isChosen targets v = isChosen targets w := by
  obtain ⟨hp, hr⟩ := Prod.mk.inj hs
  unfold isChosen EscalateTarget.covers
  rw [hp, hr]

section Confinement

variable (cfg : EngineConfig) (targets : List EscalateTarget) (g : ContentGraph)

/-- Routed to the AI, but not chosen. -/
def Stray (v : Violation) : Prop := tierOf cfg.registry v = .ai ∧ isChosen targets v = false

/-- The operator or the AI had refused the violation when the gate began. -/
def RefusedBefore (v : Violation) : Prop :=
  ∃ record, recordAt g v.path (violationKey v) = some record ∧ record.status.isSticky

/-- No open entry of the ledger is routed to the AI without being chosen. -/
def OpenChosen : Prop :=
  ∀ nodeId key record, recordAt g nodeId key = some record → record.status = .opened →
    ¬Stray cfg targets record.violation

/-- Violations outside the targets come back from a rescan only where refused. -/
def Expected (v : Violation) : Prop := Stray cfg targets v → RefusedBefore g v

/-- Nothing but chosen violations is sent to the AI. -/
def Confined (s : Engine) : Prop :=
  ∀ context, EngineEvent.aiRequest context ∈ s.events → ∀ v ∈ context.violations, isChosen targets v

variable {cfg targets g}

theorem stray_filled (hf : Filled w v) : Stray cfg targets v ↔ Stray cfg targets w := by
  unfold Stray
  rw [tierOf_ai_filled cfg.registry hf, isChosen_of_key targets (filled_key hf)]

theorem expected_filled (hf : Filled w v)
    (he : Expected cfg targets g w) : Expected cfg targets g v := by
  intro hs
  unfold RefusedBefore
  rw [filled_path hf, filled_key hf]
  exact he ((stray_filled hf).mp hs)

theorem expected_enriched {answer : List Violation}
    (he : ∀ v ∈ answer, Expected cfg targets g v) :
    ∀ v ∈ enrichFqcnTargets answer, Expected cfg targets g v := by
  intro v mem
  obtain ⟨plain, ha, rfl⟩ := mem_map.mp mem
  exact expected_filled (filled_enriched answer plain) (he plain ha)

variable (cfg targets g)

/-- A stray record is closed, and what was refused stays refused. -/
def Enclosed (nodeId : String) (key : ViolationKey) (found : Option ViolationRecord) : Prop :=
  (∀ record, found = some record → Stray cfg targets record.violation →
    record.status ≠ .opened) ∧
    ∀ before, recordAt g nodeId key = some before → before.status.isSticky →
      ∃ record, found = some record ∧ record.status.isSticky

theorem sticky_reconfirm (v : Violation) {r : ViolationRecord}
    (hs : r.status.isSticky) : (r.reconfirm v).status.isSticky := by
  rw [(lawful_reconfirm v r).sticky hs]
  exact hs

theorem enclosed_invariant :
    CellInvariant (Expected cfg targets g) (Enclosed cfg targets g) where
  register v pass old he before := by
    have hr : ∀ first, recordAt g v.path (violationKey v) = some first →
        first.status.isSticky → (registered v pass old).status.isSticky := by
      intro first hf hsi
      obtain ⟨r, rfl, hss⟩ := before.2 first hf hsi
      exact sticky_reconfirm v hss
    constructor
    · intro r hs hst
      cases Option.some.inj hs
      rw [violation_registered] at hst
      obtain ⟨first, hf, hsi⟩ := he hst
      exact sticky_ne_opened (hr first hf hsi)
    · intro first hf hsi
      exact ⟨_, rfl, hr first hf hsi⟩
  resolve nodeId key r fixedBy pass status ho before := by
    constructor
    · intro o hs hst
      cases Option.some.inj hs
      exact absurd ho (before.1 r rfl hst)
    · intro first hf hsi
      obtain ⟨o, hs, hss⟩ := before.2 first hf hsi
      cases Option.some.inj hs
      exact absurd ho (sticky_ne_opened hss)
  abstain nodeId key r reason ho before := by
    constructor
    · intro o hs hst
      cases Option.some.inj hs
      rw [violation_abstain] at hst
      exact absurd ho (before.1 r rfl hst)
    · intro first hf hsi
      obtain ⟨o, hs, hss⟩ := before.2 first hf hsi
      cases Option.some.inj hs
      exact absurd ho (sticky_ne_opened hss)

variable {cfg targets g}

theorem collected_chosen (h : ContentGraph) (he : Cells (Enclosed cfg targets g) h) :
    ∀ v ∈ h.collectViolations, ¬Stray cfg targets v := by
  intro v mem hs
  obtain ⟨id, key, r, hf, ho, rfl⟩ := (mem_queryViolations_iff _ v).mp mem
  exact (he id key).1 r hf ((stray_filled (filled_report r)).mp hs) ho

theorem enclosed_start (chosen : OpenChosen cfg targets g) : Cells (Enclosed cfg targets g) g := by
  intro id k
  constructor
  · intro r hf hst ho
    exact chosen id k r hf ho hst
  · intro r hf hs
    exact ⟨r, hf, hs⟩

theorem escalation_invariant (cfg : EngineConfig) (opts : RemediateOptions)
    (targets : List EscalateTarget) (g : ContentGraph) :
    RunInvariant cfg opts (WhileAnswered [] (Expected cfg targets g)
      (Cells (Enclosed cfg targets g)) fun v => ¬Stray cfg targets v) fun _ => True :=
  whileAnswered_invariant (enclosed_invariant cfg targets g).graph
    (fun _ he => expected_enriched he) collected_chosen cfg opts

section

variable (chosen : OpenChosen cfg targets g) (initial : List Violation)
  (allowed : ∀ v ∈ initial, isChosen targets v)

include chosen allowed

theorem startRun_enclosed :
    WhileAnswered [] (Expected cfg targets g) (Cells (Enclosed cfg targets g))
      (fun v => ¬Stray cfg targets v) (startRun cfg g (some initial)) := by
  have hl : ∀ v ∈ enrichFqcnTargets initial, ¬Stray cfg targets v := by
    intro v mem hs
    obtain ⟨plain, hi, rfl⟩ := mem_map.mp mem
    have ho := ((stray_filled (filled_enriched initial plain)).mp hs).2
    rw [allowed plain hi] at ho
    cases ho
  refine ⟨_, rfl, fun _ => ⟨?_, hl⟩⟩
  exact (enclosed_invariant cfg targets g).graph.recordViolations 0 .scanned
    [] (fun v mem hs => absurd hs (hl v mem)) (enclosed_start chosen)

/-- What is sent at a point of the gate is chosen, if the rescans so far have
answered as expected. -/
theorem sent_chosen {p : LoopPoint}
    (reaches : Reaches cfg gate2Options (startPoint cfg g (some initial)) p)
    (he : ∀ v ∈ p.state.answered, Expected cfg targets g v) {context : AINodeContext}
    (sends : p.Sends context) : ∀ v ∈ context.violations, isChosen targets v := by
  have hg := (escalation_invariant cfg gate2Options targets g).reaches_good reaches
    (startRun_enclosed chosen initial allowed)
  cases p with
  | top pass s l => cases sends
  | answered pass s l batch changed => cases sends
  | asking pass s l batch =>
    obtain ⟨⟨late, hL, holds⟩, -, known⟩ := hg
    have ha : ∀ event ∈ late, ∀ v ∈ event.answered, Expected cfg targets g v := by
      intro event hl v answered
      exact he v (mem_flatMap.mpr ⟨event, hL ▸ hl, answered⟩)
    intro v mem
    have ht := Extends.aiContexts_violations sends mem
    have hr : tierOf cfg.registry v = .ai := by
      rcases reaches.askable v ht with ai | ⟨applies, -⟩
      · exact ai
      · cases applies
    have hh := (holds ha).2 v (known v ht)
    unfold Stray at hh
    simpa [hr] using hh

theorem remediate_confined :
    Holds
      (fun r => (∀ v ∈ r.1.answered, Expected cfg targets g v) → Confined targets r.1)
      (fun s => (∀ v ∈ s.answered, Expected cfg targets g v) → Confined targets s)
      (remediate cfg gate2Options g (some initial)) := by
  have hc : ∀ t : Engine, (∀ ctx, EngineEvent.aiRequest ctx ∈ t.events →
      SentBefore cfg gate2Options (startPoint cfg g (some initial)) t ctx) →
        (∀ v ∈ t.answered, Expected cfg targets g v) → Confined targets t := by
    intro t sent he ctx mem
    obtain ⟨p, hr, hs, old⟩ := sent ctx mem
    exact sent_chosen chosen initial allowed hr (fun v ht => he v (answered_of_isPrefix old ht)) hs
  exact (remediate_requests g (some initial)).mono (fun r => hc r.1) hc

end

theorem runAiGate_eq {run : Except Engine (Engine × GraphFixReport)}
    (hs : sessionRunAiGate cfg (some targets) g = some run) :
    run = remediate cfg gate2Options g
      (some ((g.queryViolations .opened).filter (isChosen targets))) := by
  unfold sessionRunAiGate at hs
  dsimp only at hs
  split at hs
  · cases hs
  · exact (Option.some.inj hs).symm

/-- Every request of the AI gate is confined to the targets if no open entry
outside them is routed to the AI when the gate begins and every rescan reports
such findings only where they had been refused. -/
theorem ai_gate_confined (cfg : EngineConfig) (targets : List EscalateTarget) (g : ContentGraph)
    (chosen : OpenChosen cfg targets g) (run : Except Engine (Engine × GraphFixReport))
    (started : sessionRunAiGate cfg (some targets) g = some run) :
    Holds
      (fun r => (∀ v ∈ r.1.answered, Expected cfg targets g v) → Confined targets r.1)
      (fun s => (∀ v ∈ s.answered, Expected cfg targets g v) → Confined targets s) run := by
  rw [runAiGate_eq started]
  exact remediate_confined chosen _ fun v member => (mem_filter.mp member).2

end Confinement

instance (cfg : EngineConfig) (targets : List EscalateTarget) (v : Violation) :
    Decidable (Stray cfg targets v) :=
  inferInstanceAs (Decidable (_ ∧ _))

theorem openChosen_iff (cfg : EngineConfig) (targets : List EscalateTarget) (g : ContentGraph) :
    OpenChosen cfg targets g ↔ ∀ v ∈ g.queryViolations .opened, ¬Stray cfg targets v := by
  constructor
  · intro chosen v mem hs
    obtain ⟨id, key, r, hf, ho, rfl⟩ := (mem_queryViolations_iff _ v).mp mem
    exact chosen id key r hf ho ((stray_filled (filled_report r)).mp hs)
  · intro none id key r hf ho hs
    exact none r.report
      ((mem_queryViolations_iff _ _).mpr ⟨id, key, r, hf, ho, rfl⟩)
      ((stray_filled (filled_report r)).mpr hs)

instance (cfg : EngineConfig) (targets : List EscalateTarget) (g : ContentGraph) :
    Decidable (OpenChosen cfg targets g) :=
  decidable_of_iff _ (openChosen_iff cfg targets g).symm

def requestsChosen : EngineEvent → Bool
  | .aiRequest context => context.violations.all (isChosen targets)
  | _ => true

theorem confined_iff (s : Engine) :
    Confined targets s ↔ s.events.all (requestsChosen targets) := by
  rw [all_eq_true]
  constructor
  · intro hc event mem
    cases event with
    | aiRequest ctx => exact all_eq_true.mpr (hc ctx mem)
    | snapshot id src => rfl
    | transformCall v => rfl
    | rescan answer => rfl
  · intro all ctx mem
    exact all_eq_true.mp (all _ mem)

instance (targets : List EscalateTarget) (s : Engine) : Decidable (Confined targets s) :=
  decidable_of_iff _ (confined_iff targets s).symm

/-- One task with one finding, L030, and the operator escalates just that. -/
def escalatedGraph : ContentGraph := (gateTaskGraph 1).registerViolations [gateFinding] 0

def escalatedTargets : List EscalateTarget := [{ path := "task", ruleIds := ["L030"] }]

/-- The first fix leaves the finding, the second one clears it. -/
def secondTry : EngineConfig := attempts [commandFix, namedFix] [[gateFinding]]

theorem secondTry_confined :
    OpenChosen secondTry escalatedTargets escalatedGraph ∧
      ∀ run ∈ sessionRunAiGate secondTry (some escalatedTargets) escalatedGraph,
        Holds (fun r => r.1.answered = [gateFinding] ∧ Confined escalatedTargets r.1)
          (fun _ => False) run := by
  have chosen : OpenChosen secondTry escalatedTargets escalatedGraph := by decide
  have answers : ∀ run ∈ sessionRunAiGate secondTry (some escalatedTargets) escalatedGraph,
      Holds (fun r => r.1.answered = [gateFinding]) (fun _ => False) run := by
    decide
  refine ⟨chosen, ?_⟩
  intro run started
  have confined := ai_gate_confined secondTry escalatedTargets escalatedGraph chosen run started
  have told := answers run started
  cases run with
  | error failed => exact told
  | ok result =>
    refine ⟨told, confined ?_⟩
    intro v reported
    rw [show result.1.answered = [gateFinding] from told, mem_singleton] at reported
    rw [reported]
    intro stray
    exact absurd stray (by decide)

/-- The first fix brings L040, and the second request is about it. -/
theorem newFinding_escalated :
    (sessionHandleAiEscalate (attempts [commandFix, namedFix] [[{ gateFinding with ruleId := "L040" }]])
        escalatedTargets escalatedGraph).isSome ∧
      ∀ run ∈ sessionHandleAiEscalate
          (attempts [commandFix, namedFix] [[{ gateFinding with ruleId := "L040" }]])
          escalatedTargets escalatedGraph,
        Holds (fun r => ¬Confined escalatedTargets r.1) (fun _ => False) run := by
  decide

end Apme.Daemon
