import Apme.Graph.Lifecycle
import Apme.Remediation.Operations

/-!
# Invariants of a run

A run is made of Tier 1 rounds, AI rounds and rescans.  What these keep holds
at the end of every run; `RunInvariant` says so once for all invariants.

A run changes its graph by snapshots, new texts and ledger operations only.  A
property of graphs that each of these keeps holds at the end of every run.  The
violations that can be registered are the initial ones and those of rescans.
-/

set_option autoImplicit false

namespace Apme.Remediation

open Apme.Lib Apme.Graph Holds

def PassEnd.state : PassEnd → Engine
  | .again s _ => s
  | .stop s _ => s

/-- A pass in the middle: the AI candidates are among the violations at hand. -/
def PhaseAEnd.Good (good : Engine → Prop) : PhaseAEnd → Prop
  | .pass fin => good fin.state
  | .proceed s _ _ tier2 _ => good s ∧ ∀ v ∈ tier2, v ∈ s.violations

/-- `good` is kept by Tier 1 rounds and the rescans after them; a round that
raises leaves a state with `aborted`. -/
structure Tier1Invariant (cfg : EngineConfig) (opts : RemediateOptions)
    (good aborted : Engine → Prop) : Prop where
  tier1 : ∀ tier1 passNumber s, (∀ v ∈ tier1, v ∈ s.violations) → good s →
    Holds (fun r => good r.1) aborted (applyTier1 cfg tier1 passNumber s)
  rescan : ∀ passNumber s, good s →
    Holds good aborted (rescanAndCollect cfg passNumber .deterministic (resolveStatus opts) s)

namespace Tier1Invariant

variable {cfg : EngineConfig} {opts : RemediateOptions} {good aborted : Engine → Prop}

theorem afterTier1Rescan_good {s : Engine} (l : LoopVars) (hh : good s) :
    PhaseAEnd.Good good (afterTier1Rescan cfg s l) := by
  simp only [afterTier1Rescan]
  split
  · exact hh
  · split
    · exact hh
    · exact ⟨hh, fun v mem => mem_of_mem_tier2 mem⟩

section

variable (inv : Tier1Invariant cfg opts good aborted)

include inv

theorem tier1_frame (tier1 : List Violation)
    (pass : Nat) (s : Engine) (hk : ∀ v ∈ tier1, v ∈ s.violations) (holds : good s) :
    Holds (fun r => good r.1 ∧ r.1.violations = s.violations) aborted
      (applyTier1 cfg tier1 pass s) := by
  have kept := inv.tier1 tier1 pass s hk holds
  have hr := applyTier1_runs cfg tier1 pass s
  cases run : applyTier1 cfg tier1 pass s with
  | error failed => rw [run] at kept; exact kept
  | ok res =>
    rw [run] at kept hr
    exact ⟨kept, hr.violations⟩

theorem phaseA_good (pass : Nat) (s : Engine) (l : LoopVars) (hh : good s) :
    Holds (PhaseAEnd.Good good) aborted (phaseA cfg opts pass s l) := by
  simp only [phaseA]
  split
  · exact ⟨hh, fun v mem => mem_of_mem_tier2 mem⟩
  · split
    · split
      · exact hh
      · exact ⟨hh, fun v mem => mem_of_mem_tier2 mem⟩
    · have ht := inv.tier1_frame (partitionViolations s.violations cfg.registry).tier1
        pass s (fun v mem => mem_of_mem_tier1 mem) hh
      refine bind ht fun res hm => ?_
      obtain ⟨hk, hs⟩ := hm
      split
      · split
        · exact hk
        · refine ⟨hk, fun v mem => ?_⟩
          rw [hs]
          rcases List.mem_append.mp mem with hit | he
          · exact mem_of_mem_tier2 hit
          · exact mem_of_mem_tier1 (List.mem_filter.mp he).1
      · refine bind (inv.rescan pass res.1 hk) fun again good => ?_
        exact afterTier1Rescan_good l good

theorem phaseC_good (pass : Nat) {s : Engine}
    (hh : good s) : Holds good aborted (phaseC cfg opts pass s) := by
  simp only [phaseC]
  split
  · exact hh
  · refine bind (inv.tier1 _ pass s (fun v mem => mem_of_mem_tier1 mem) hh)
      fun res hk => ?_
    exact inv.rescan pass res.1 hk

end

end Tier1Invariant

/-- `good` is kept by the three kinds of rounds; a round that raises leaves a
state with `aborted`. -/
structure RunInvariant (cfg : EngineConfig) (opts : RemediateOptions)
    (good aborted : Engine → Prop) : Prop extends Tier1Invariant cfg opts good aborted where
  ai : ∀ provider tier2 passNumber l s, runAi cfg opts = some provider →
    (∀ v ∈ tier2, v ∈ s.violations) → good s →
      Holds (fun r => good r.1) aborted (aiRound cfg provider tier2 passNumber l s)

namespace RunInvariant

variable {cfg : EngineConfig} {opts : RemediateOptions} {good aborted : Engine → Prop}

theorem phaseB_good (inv : RunInvariant cfg opts good aborted) {prov : AIProvider}
    (run : runAi cfg opts = some prov) {tier2 : List Violation} (pass : Nat)
    (s : Engine) (l : LoopVars) (hk : ∀ v ∈ tier2, v ∈ s.violations) (holds : good s) :
    Holds (fun r => good r.1) aborted (phaseB cfg opts prov tier2 pass s l) := by
  simp only [phaseB]
  refine bind (inv.ai prov tier2 pass l s run hk holds) fun res kept => ?_
  split
  · refine bind (inv.toTier1Invariant.phaseC_good pass kept) fun cleaned good => ?_
    split
    · exact good
    · exact good
  · exact kept

theorem passVerdict_state (tier1 tier2 : List Violation) (stalled : Bool) (s : Engine)
    (l : LoopVars) : (passVerdict cfg opts tier1 tier2 stalled s l).state = s := by
  simp only [passVerdict]
  split
  · rfl
  · split <;> rfl

section

variable (inv : RunInvariant cfg opts good aborted)

include inv

theorem finishPass_good (passNumber : Nat) {middle : PhaseAEnd} (hh : PhaseAEnd.Good good middle)
    : Holds (fun fin => good fin.state) aborted (finishPass cfg opts passNumber middle) := by
  cases middle with
  | pass fin => exact hh
  | proceed s l tier1 tier2 stalled =>
    obtain ⟨hk, known⟩ := hh
    have vd : good (passVerdict cfg opts tier1 tier2 stalled s l).state := by
      rw [passVerdict_state]
      exact hk
    simp only [finishPass]
    split
    next prov run =>
      split
      · refine bind (inv.phaseB_good run passNumber s l known hk)
          fun res good => ?_
        split
        · exact good
        · rw [pure_iff, passVerdict_state]
          exact good
      · exact vd
    next => exact vd

theorem runPasses_good (rem pass : Nat) (s : Engine) (l : LoopVars) (hh : good s) :
    Holds (fun r => good r.1) aborted (runPasses cfg opts rem pass s l) := by
  induction rem generalizing pass s l with
  | zero => exact hh
  | succ rem ih =>
    rw [runPasses]
    have hs : Holds (fun fin => good fin.state) aborted
        (passStep cfg opts pass s l) :=
      bind (inv.toTier1Invariant.phaseA_good pass s _ hh) fun middle good =>
        inv.finishPass_good pass good
    refine bind hs fun fin good => ?_
    cases fin with
    | again s l => exact ih (pass + 1) s l good
    | stop s l => exact good

/-- The state and the report of a run that returns come from a state with the
invariant. -/
theorem remediate_good {g : ContentGraph}
    {init : Option (List Violation)} (hs : good (startRun cfg g init)) :
    Holds (fun r => ∃ s l, good s ∧ r = (autoApprove opts s, report opts (autoApprove opts s) l))
      aborted (remediate cfg opts g init) := by
  refine bind (inv.runPasses_good cfg.maxPasses 1 _ {} hs) fun res good => ?_
  exact ⟨res.1, res.2, good, rfl⟩

end

end RunInvariant

open Option

/-- `good` is kept by everything a run does to its graph, as long as only
violations with `known` are registered. -/
structure GraphInvariant (known : Violation → Prop) (good : ContentGraph → Prop) : Prop where
  record : ∀ g nodeId passNumber phase source, good g →
    good (g.recordState nodeId passNumber phase source)
  rewrite : ∀ g nodeId text, good g → good (g.rewrite nodeId text)
  register : ∀ g v passNumber, known v → good g → good (ContentGraph.registerViolation passNumber g v)
  resolve : ∀ g nodeId remaining fixedBy passNumber status, good g →
    good (g.resolveViolations nodeId remaining fixedBy passNumber status)
  abstain : ∀ g nodeId ruleIds reasons, good g → good (g.abstainViolations nodeId ruleIds reasons)
  clearDirty : ∀ g, good g → good g.clearDirty

/-- Every rescan answers with violations that are known after enrichment. -/
def AnswersKnown (cfg : EngineConfig) (known : Violation → Prop) : Prop :=
  ∀ count g dirty answer, rescanAnswer cfg count g dirty = some answer →
    ∀ v ∈ enrichFqcnTargets answer, known v

namespace GraphInvariant

variable {known : Violation → Prop} {good : ContentGraph → Prop}
  (inv : GraphInvariant known good)

include inv

theorem runs {may : EngineOp → Prop} {s t : Engine} (hr : Runs may s t)
    (hk : ∀ v pass, may (.register v pass) → known v) (hh : good s.graph) : good t.graph := by
  induction hr with
  | refl => exact hh
  | tail op _ hp ih =>
    cases op with
    | record id pass phase src =>
      rw [EngineOp.apply, Engine.record]
      split
      · exact ih
      · exact inv.record _ _ _ _ _ ih
    | rewrite id text => exact inv.rewrite _ _ _ ih
    | register v pass => exact inv.register _ v pass (hk v pass hp) ih
    | resolve => exact inv.resolve _ _ _ _ _ _ ih
    | abstain => exact inv.abstain _ _ _ _ ih
    | clearDirty => exact inv.clearDirty _ ih
    | log | note => exact ih

theorem recordViolations {s : Engine} {vs : List Violation} (pass : Nat) (phase : Phase)
    (dirty : List String) (hk : ∀ v ∈ enrichFqcnTargets vs, known v) (holds : good s.graph) :
    good (recordViolations s vs pass phase dirty).graph :=
  inv.runs (recordViolations_runs s vs pass phase dirty) (fun v _ => hk v) holds

theorem applyAiTransforms (prov : AIProvider) (tier2 : List Violation) (pass attempt : Nat)
    (fb : Dict String String) {s : Engine} (holds : good s.graph) :
    good (applyAiTransforms prov tier2 pass attempt fb s).graph :=
  inv.runs (applyAiTransforms_runs prov tier2 pass attempt fb s) (fun _ _ => False.elim) holds

variable (cfg : EngineConfig)

theorem applyTier1 (tier1 : List Violation) (pass : Nat) (s : Engine) (holds : good s.graph) :
    Holds (fun r => good r.1.graph) (fun _ => True) (applyTier1 cfg tier1 pass s) :=
  (applyTier1_runs cfg tier1 pass s).mono (fun _ hr => inv.runs hr (fun _ _ => False.elim) holds)
    fun _ _ => trivial

theorem rescanAndCollect (ha : AnswersKnown cfg known) (pass : Nat)
    (fixedBy : FixedBy) (status : Status) (s : Engine) (holds : good s.graph) :
    Holds (fun s => good s.graph) (fun _ => True) (rescanAndCollect cfg pass fixedBy status s) := by
  refine rescanAndCollect_runs cfg pass fixedBy status s trivial fun _ answer _ ht hr => ?_
  have hk := inv.runs hr (fun v _ => ha _ _ _ answer ht v) holds
  exact hk

theorem runInvariant (opts : RemediateOptions) (ha : AnswersKnown cfg known) :
    RunInvariant cfg opts (fun s => good s.graph) fun _ => True where
  tier1 tier1 pass s _ holds := inv.applyTier1 cfg tier1 pass s holds
  rescan pass s holds := inv.rescanAndCollect cfg ha pass _ _ s holds
  ai provider tier2 pass l _ _ _ holds := aiRound_good cfg
    (inv.applyAiTransforms provider tier2 pass l.aiAttempts l.aiFeedback holds)
    (inv.rescanAndCollect cfg ha pass .ai .proposed)

end GraphInvariant

section Cells

/-- A property of the places of the ledger, filled or not, that holds
everywhere. -/
def Cells (cell : String → ViolationKey → Option ViolationRecord → Prop) (g : ContentGraph) :
    Prop :=
  ∀ nodeId key, cell nodeId key (recordAt g nodeId key)

/-- What a run does to one place of the ledger keeps `cell`. -/
structure CellInvariant (known : Violation → Prop)
    (cell : String → ViolationKey → Option ViolationRecord → Prop) : Prop where
  register : ∀ v passNumber old, known v → cell v.path (violationKey v) old →
    cell v.path (violationKey v) (some (registered v passNumber old))
  resolve : ∀ nodeId key record fixedBy passNumber status, record.status = .opened →
    cell nodeId key (some record) →
      cell nodeId key (some (record.resolve fixedBy passNumber status))
  abstain : ∀ nodeId key record reason, record.status = .opened →
    cell nodeId key (some record) → cell nodeId key (some (record.abstain reason))

variable {cell : String → ViolationKey → Option ViolationRecord → Prop} {g : ContentGraph}

theorem Cells.keeps {h : ContentGraph} (hc : Cells cell g)
    (hk : Keeps ContentNode.violationLedger g h) : Cells cell h := by
  intro id k
  rw [recordAt_keeps hk]
  exact hc id k

theorem Cells.updateLedger (hc : Cells cell g) (id : String)
    {f : ViolationKey → ViolationRecord → ViolationRecord}
    (hk : ∀ o k r, cell o k (some r) → cell o k (some (f k r)))
    : Cells cell (g.modifyNode id (ContentNode.updateLedger f)) := by
  intro o k
  have old := hc o k
  rw [recordAt_updateLedger]
  split
  next here =>
    subst here
    cases hf : recordAt g o k with
    | none => rwa [hf] at old
    | some r =>
      rw [hf] at old
      exact hk o k r old
  next => exact old

theorem CellInvariant.graph {k : Violation → Prop}
    (inv : CellInvariant k cell) : GraphInvariant k (Cells cell) where
  record _ id _ _ _ cells := cells.keeps (Keeps.modifyNode id fun _ => rfl)
  rewrite _ id text cells := cells.keeps (Keeps.rewrite id fun _ => rfl)
  register g v pass hkn cells := by
    intro id key
    rw [recordAt_register]
    split
    next here =>
      obtain ⟨rfl, rfl, -⟩ := here
      exact inv.register v pass _ hkn (cells _ _)
    next => exact cells id key
  resolve _ id _ fixedBy pass status cells := by
    refine cells.updateLedger id fun other key record old => ?_
    split
    next ho => exact inv.resolve other key record fixedBy pass status ho.1 old
    next => exact old
  abstain _ id _ _ cells := by
    refine cells.updateLedger id fun other key record old => ?_
    split
    next ho => exact inv.abstain other key record _ ho.1 old
    next => exact old
  clearDirty _ cells := cells.keeps Keeps.clearDirty

theorem keyed_invariant (k₁ : Violation → Prop) : GraphInvariant k₁ Keyed := by
  have hc : GraphInvariant k₁ (Cells fun id k found => ∀ r, found = some r →
      id = r.violation.path ∧ k = violationKey r.violation) :=
    CellInvariant.graph
      { register := by
          intro v pass old _ _ r hs
          cases some.inj hs
          rw [violation_registered]
          exact ⟨rfl, rfl⟩
        resolve := by
          intro id k r fixedBy pass status _ hb o hs
          cases some.inj hs
          exact hb r rfl
        abstain := by
          intro id k r reason _ hb o hs
          cases some.inj hs
          rw [violation_abstain]
          exact hb r rfl }
  exact hc

end Cells

end Apme.Remediation
