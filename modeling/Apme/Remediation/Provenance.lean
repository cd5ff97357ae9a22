import Apme.Remediation.Invariant

/-!
# Where the violations of a run come from

A run invents no violation.  Whatever it gives to a transform or to the AI
provider and whatever it reports was in the initial list, in the ledger of the
start graph or in the answer of one of its rescans; on the way only the target
FQCN and the words of the AI are filled in.
-/

set_option autoImplicit false

namespace Apme.Remediation

open Apme.Lib Apme.Graph List Option Engine

section Filled

/-- `v` is `w` with what a run fills in. -/
def Filled (w v : Violation) : Prop :=
  ∃ target reason suggestion,
    v = { w with resolvedFqcn := target, aiReason := reason, aiSuggestion := suggestion }

theorem Filled.refl (v : Violation) : Filled v v := ⟨_, _, _, rfl⟩

variable {v w : Violation}

theorem Filled.trans {u : Violation} (first : Filled u v) (hse : Filled v w) : Filled u w := by
  obtain ⟨_, _, _, rfl⟩ := first
  obtain ⟨tgt, r, s₁, rfl⟩ := hse
  exact ⟨tgt, r, s₁, rfl⟩

theorem filled_enriched (vs : List Violation) (v : Violation) :
    Filled v (enrichViolation vs v) := by
  obtain ⟨tgt, hs⟩ := enrichViolation_eq vs v
  exact ⟨tgt, _, _, hs⟩

theorem filled_report (r : ViolationRecord) : Filled r.violation r.report := ⟨_, _, _, rfl⟩

theorem filled_key (hf : Filled w v) : violationKey v = violationKey w := by
  obtain ⟨_, _, _, rfl⟩ := hf
  rfl

theorem filled_path (hf : Filled w v) : v.path = w.path := by
  obtain ⟨_, _, _, rfl⟩ := hf
  rfl

theorem tierOf_ai_filled (registry : TransformRegistry) (hf : Filled w v) :
    tierOf registry v = .ai ↔ tierOf registry w = .ai := by
  obtain ⟨_, _, _, rfl⟩ := hf
  rw [tierOf_eq_ai_iff, tierOf_eq_ai_iff]
  rfl

end Filled

/-- The violations an event gives away. -/
def EngineEvent.handled : EngineEvent → List Violation
  | .snapshot _ _ => []
  | .transformCall v => [v]
  | .aiRequest context => context.violations
  | .rescan _ => []

/-- The violations an event brings in. -/
def EngineEvent.answered : EngineEvent → List Violation
  | .snapshot _ _ => []
  | .transformCall _ => []
  | .aiRequest _ => []
  | .rescan answer => answer

def Engine.handled (s : Engine) : List Violation := s.events.flatMap EngineEvent.handled

def Engine.answered (s : Engine) : List Violation := s.events.flatMap EngineEvent.answered

/-- From `s` to `t` events are added, and they give away only violations of `may`. -/
def Extends (may : List Violation) (s t : Engine) : Prop :=
  ∃ more, t.events = s.events ++ more ∧ ∀ event ∈ more, ∀ v ∈ event.handled, v ∈ may

namespace Extends

variable {may : List Violation} {s t : Engine}

theorem of_runs {ops : EngineOp → Prop} (hr : Runs ops s t)
    (hg : ∀ event, ops (.log event) → ∀ v ∈ event.handled, v ∈ may) : Extends may s t :=
  hr.adds (by simp [EngineEvent.handled]) hg

theorem aiContexts_violations {g : ContentGraph} {fb : Dict String String} {tier2 : List Violation}
    {ctx : AINodeContext} (hs : some ctx ∈ aiContexts g fb tier2) {v : Violation}
    (mem : v ∈ ctx.violations) : v ∈ tier2 := by
  obtain ⟨group, hg, ha⟩ := mem_map.mp hs
  obtain ⟨n, -, ha⟩ := bind_eq_some_iff.mp ha
  split at ha
  next => cases ha
  next =>
    cases some.inj ha
    have hG := Dict.mem_groupBy_entries hg
    rw [hG] at mem
    exact (mem_filter.mp (mem_filter.mp mem).1).1

end Extends

section Answers

theorem answered_of_isPrefix {s t : Engine} (old : s.events <+: t.events) :
    s.answered ⊆ t.answered := by
  obtain ⟨more, hs⟩ := old
  intro v mem
  rw [answered, ← hs, flatMap_append]
  exact mem_append_left _ mem

/-- What holds of a graph and of the violations at hand as long as the rescans
since the events `early` have answered with `plain` violations. -/
def WhileAnswered (early : List EngineEvent) (plain : Violation → Prop)
    (good : ContentGraph → Prop) (ok : Violation → Prop) (s : Engine) : Prop :=
  ∃ late, s.events = early ++ late ∧
    ((∀ event ∈ late, ∀ v ∈ event.answered, plain v) → good s.graph ∧ ∀ v ∈ s.violations, ok v)

variable {early : List EngineEvent} {known plain ok : Violation → Prop}
  {good : ContentGraph → Prop}

theorem WhileAnswered.runs {s t : Engine} {ops : EngineOp → Prop} (inv : GraphInvariant known good)
    (old : WhileAnswered early plain good ok s) (hr : Runs ops s t)
    (hq : ∀ v pass, ¬ ops (.register v pass)) : WhileAnswered early plain good ok t := by
  obtain ⟨late, hL, holds⟩ := old
  obtain ⟨more, hM, -⟩ := hr.adds (fun _ _ => trivial) fun _ _ => trivial
  refine ⟨late ++ more, by rw [hM, hL, append_assoc], fun ans => ?_⟩
  obtain ⟨hg, hp⟩ := holds fun event mem => ans event (mem_append_left more mem)
  refine ⟨inv.runs hr (fun v pass ha => absurd ha (hq v pass)) hg, ?_⟩
  rwa [hr.violations]

section

variable (inv : GraphInvariant known good)
  (enriched : ∀ answer, (∀ v ∈ answer, plain v) → ∀ v ∈ enrichFqcnTargets answer, known v)
  (collected : ∀ g, good g → ∀ v ∈ g.collectViolations, ok v) (cfg : EngineConfig)

include inv enriched collected

theorem WhileAnswered.rescan (pass : Nat) (fixedBy : FixedBy) (st : Status) (s : Engine)
    (old : WhileAnswered early plain good ok s) :
    Holds (WhileAnswered early plain good ok) (fun _ => True)
      (rescanAndCollect cfg pass fixedBy st s) := by
  obtain ⟨late, hL, holds⟩ := old
  refine rescanAndCollect_runs cfg pass fixedBy st s trivial fun _ new t _ runs => ?_
  obtain ⟨more, hM, -⟩ := runs.adds (fun _ _ => trivial) fun _ _ => trivial
  refine ⟨late ++ more ++ [.rescan new], ?_, fun ans => ?_⟩
  · simp only [log]
    rw [hM, hL]
    simp only [append_assoc]
  · have hs := (holds fun event mem => ans event (by simp [mem])).1
    have hr : ∀ v ∈ new, plain v := ans (.rescan new) (by simp)
    have hk := inv.runs runs (fun v _ => enriched new hr v) hs
    exact ⟨hk, collected _ hk⟩

theorem whileAnswered_invariant (opts : RemediateOptions) :
    RunInvariant cfg opts (WhileAnswered early plain good ok) fun _ => True where
  tier1 tier1 pass s _ before :=
    (applyTier1_runs cfg tier1 pass s).mono (fun _ hr => before.runs inv hr fun _ _ => not_false)
      fun _ _ => trivial
  rescan pass s before := WhileAnswered.rescan inv enriched collected cfg pass _ _ s before
  ai provider tier2 pass l s _ _ before := aiRound_good cfg
    (before.runs inv (applyAiTransforms_runs provider tier2 pass l.aiAttempts l.aiFeedback s)
      fun _ _ => not_false)
    (WhileAnswered.rescan inv enriched collected cfg pass .ai .proposed)

end

end Answers

section Ledger

/-- Every violation in the ledger is known. -/
def LedgerKnown (known : Violation → Prop) (g : ContentGraph) : Prop :=
  ∀ nodeId node key record, g.getNode nodeId = some node →
    node.violationLedger.get? key = some record → known record.violation

variable {known : Violation → Prop} {g : ContentGraph}

section

variable (ledger : LedgerKnown known g)
include ledger

theorem LedgerKnown.mono {m : Violation → Prop} (hw : ∀ v, known v → m v) :
    LedgerKnown m g :=
  fun id n k r hf hk =>
    hw _ (ledger id n k r hf hk)

theorem LedgerKnown.modifyNode (id : String) {m : ContentNode → ContentNode}
    (hk : ∀ n k r, (m n).violationLedger.get? k = some r →
      known r.violation ∨
        ∃ old, n.violationLedger.get? k = some old ∧ r.violation = old.violation) :
    LedgerKnown known (g.modifyNode id m) := by
  intro o n k r hf hr
  rw [ContentGraph.getNode_modifyNode] at hf
  split at hf
  next here =>
    obtain ⟨before, hb, rfl⟩ := map_eq_some_iff.mp hf
    rcases hk before k r hr with known | ⟨old, ho, hs⟩
    · exact known
    · rw [hs]
      exact ledger id before k old hb ho
  next => exact ledger o n k r hf hr

theorem LedgerKnown.updateLedger (id : String) {f : ViolationKey → ViolationRecord → ViolationRecord}
    (hp : ∀ k r, (f k r).violation = r.violation) :
    LedgerKnown known (g.modifyNode id (ContentNode.updateLedger f)) := by
  refine ledger.modifyNode id ?_
  intro n k r hk
  rw [ContentNode.updateLedger, Dict.get?_update] at hk
  obtain ⟨old, ho, rfl⟩ := map_eq_some_iff.mp hk
  exact .inr ⟨old, ho, hp k old⟩

theorem LedgerKnown.register (v : Violation) (pass : Nat)
    (hk : known v) : LedgerKnown known (ContentGraph.registerViolation pass g v) := by
  refine ledger.modifyNode v.path ?_
  intro n k r hr
  unfold ContentNode.register at hr
  rw [Dict.get?_insert] at hr
  split at hr
  next =>
    cases some.inj hr
    left
    split
    · exact hk
    · unfold ViolationRecord.reconfirm
      split <;> exact hk
  next => exact .inr ⟨r, hr, rfl⟩

omit ledger in
theorem ledgerKnown_invariant (known : Violation → Prop) :
    GraphInvariant known (LedgerKnown known) where
  record _ id _ _ _ ledger := ledger.modifyNode id fun _ _ record hr => .inr ⟨record, hr, rfl⟩
  rewrite _ id _ ledger := ledger.modifyNode id fun _ _ record hr => .inr ⟨record, hr, rfl⟩
  register _ v pass hk ledger := ledger.register v pass hk
  resolve _ id _ _ _ _ ledger := ledger.updateLedger id fun _ record => by split <;> rfl
  abstain _ id _ _ ledger := by
    refine ledger.updateLedger id fun _ record => ?_
    split
    · unfold ViolationRecord.abstain
      split <;> rfl
    · rfl
  clearDirty _ ledger := ledger

theorem LedgerKnown.query {st : Status} {v : Violation}
    (mem : v ∈ g.queryViolations st) : ∃ w, known w ∧ Filled w v := by
  obtain ⟨r, hq, rfl⟩ := mem_map.mp mem
  obtain ⟨n, hg, hl⟩ := mem_flatMap.mp hq
  obtain ⟨id, hf⟩ := (Dict.mem_values_iff _ _).mp hg
  obtain ⟨k, hk⟩ := (Dict.mem_values_iff _ _).mp (mem_filter.mp hl).1
  exact ⟨r.violation, ledger id n k r hf hk, filled_report r⟩

end

theorem LedgerKnown.autoApprove (opts : RemediateOptions) {s : Engine}
    (hl : LedgerKnown known s.graph) : LedgerKnown known (autoApprove opts s).graph := by
  unfold Remediation.autoApprove
  split
  · exact hl
  · intro id n k r hf hk
    obtain ⟨old, hb, rfl⟩ :=
      map_eq_some_iff.mp ((ContentGraph.getNode_mapNodes _ _ _).symm.trans hf)
    exact hl id old k r hb hk

end Ledger

section Provenance

variable (g : ContentGraph) (initial : List Violation)

/-- The ledger of the graph has a record of the violation. -/
def InLedger (v : Violation) : Prop :=
  ∃ nodeId node key record, g.getNode nodeId = some node ∧
    node.violationLedger.get? key = some record ∧ record.violation = v

/-- The violation comes from the initial list, from the ledger of the start
graph or from a rescan. -/
def Origin (answered : List Violation) (v : Violation) : Prop :=
  ∃ w, (w ∈ initial ∨ InLedger g w ∨ w ∈ answered) ∧ Filled w v

structure Provenance (s : Engine) : Prop where
  ledger : LedgerKnown (Origin g initial s.answered) s.graph
  pending : ∀ v ∈ s.violations, Origin g initial s.answered v
  handled : ∀ v ∈ s.handled, Origin g initial s.answered v

variable {g initial}

variable {answered : List Violation} {v : Violation}

theorem Origin.mono {more : List Violation} (hs : answered ⊆ more)
    (ho : Origin g initial answered v) : Origin g initial more v := by
  obtain ⟨w, hf' | hf' | hf', hf⟩ := ho
  · exact ⟨w, .inl hf', hf⟩
  · exact ⟨w, .inr (.inl hf'), hf⟩
  · exact ⟨w, .inr (.inr (hs hf')), hf⟩

theorem Origin.fill {w : Violation} (ho : Origin g initial answered v) (hf : Filled v w) :
    Origin g initial answered w := by
  obtain ⟨u, hf', first⟩ := ho
  exact ⟨u, hf', first.trans hf⟩

theorem origin_query {h : ContentGraph}
    (ledger : LedgerKnown (Origin g initial answered) h) (st : Status) (v : Violation)
    (mem : v ∈ h.queryViolations st) : Origin g initial answered v := by
  obtain ⟨w, ho, hf⟩ := ledger.query mem
  exact ho.fill hf

variable {may : List Violation} {s t : Engine}

section

variable (extended : Extends may s t)
include extended

theorem Extends.answered_subset : s.answered ⊆ t.answered := by
  obtain ⟨more, hs, -⟩ := extended
  intro v mem
  rw [answered, hs, flatMap_append]
  exact mem_append_left _ mem

theorem Extends.mem_handled (mem : v ∈ t.handled) : v ∈ s.handled ∨ v ∈ may := by
  obtain ⟨more, hs, hg⟩ := extended
  rw [handled, hs, flatMap_append] at mem
  rcases mem_append.mp mem with hb | ha
  · exact .inl hb
  · obtain ⟨event, hm, he⟩ := mem_flatMap.mp ha
    exact .inr (hg event hm v he)

theorem Extends.handled_origin (hk : ∀ v ∈ may, v ∈ s.violations)
    (old : Provenance g initial s) : ∀ v ∈ t.handled, Origin g initial t.answered v := by
  intro v mem
  have ho : Origin g initial s.answered v := by
    rcases extended.mem_handled mem with early | hl
    · exact old.handled v early
    · exact old.pending v (hk v hl)
  exact ho.mono extended.answered_subset

end

theorem Provenance.runs {ops : EngineOp → Prop} (old : Provenance g initial s) (hr : Runs ops s t)
    (hg : ∀ event, ops (.log event) → ∀ v ∈ event.handled, v ∈ s.violations)
    (hq : ∀ v pass, ¬ ops (.register v pass)) : Provenance g initial t where
  ledger := (ledgerKnown_invariant _).runs hr (fun v pass ha => absurd ha (hq v pass))
    (old.ledger.mono fun _ ho => ho.mono (Extends.of_runs hr hg).answered_subset)
  pending := by
    intro v mem
    rw [hr.violations] at mem
    exact (old.pending v mem).mono (Extends.of_runs hr hg).answered_subset
  handled := (Extends.of_runs hr hg).handled_origin (fun _ mem => mem) old

section

variable (cfg : EngineConfig)

theorem Provenance.rescan (pass : Nat) (fixedBy : FixedBy)
    (status : Status) (s : Engine) (hb : Provenance g initial s) :
    Holds (Provenance g initial) (fun t => ∀ v ∈ t.handled, Origin g initial t.answered v)
      (rescanAndCollect cfg pass fixedBy status s) := by
  refine rescanAndCollect_runs cfg pass fixedBy status s hb.handled fun _ new t _ hr => ?_
  let after := t.log [.rescan new]
  have he : Extends [] s after :=
    Adds.log (Extends.of_runs hr fun _ => False.elim) (by simp [EngineEvent.handled])
  have han : ∀ v ∈ new, v ∈ after.answered := by
    intro v hm
    simp [after, answered, log, EngineEvent.answered, hm]
  have hl : LedgerKnown (Origin g initial after.answered) t.graph := by
    refine (ledgerKnown_invariant _).runs hr (fun v _ hm => ?_)
      (hb.ledger.mono fun _ ho => ho.mono he.answered_subset)
    obtain ⟨plain, ha, rfl⟩ := mem_map.mp hm
    exact ⟨plain, .inr (.inr (han plain ha)), filled_enriched new plain⟩
  exact ⟨hl, origin_query hl .opened, he.handled_origin (by simp) hb⟩

theorem Provenance.tier1 {tier1 : List Violation} (pass : Nat)
    (s : Engine) (hk : ∀ v ∈ tier1, v ∈ s.violations) (old : Provenance g initial s) :
    Holds (fun r => Provenance g initial r.1)
      (fun t => ∀ v ∈ t.handled, Origin g initial t.answered v)
      (applyTier1 cfg tier1 pass s) := by
  have kept : ∀ t, Runs (Tier1Op tier1) s t → Provenance g initial t := by
    intro t hr
    refine old.runs hr (fun event hp v mem => ?_) fun _ _ => not_false
    cases event with
    | transformCall call =>
      rw [mem_singleton.mp mem]
      exact hk call hp
    | _ => cases hp
  exact (applyTier1_runs cfg tier1 pass s).mono (fun r hr => kept r.1 hr)
    fun t hr => (kept t hr).handled

theorem Provenance.ai (prov : AIProvider) {tier2 : List Violation} (pass : Nat) (l : LoopVars)
    (s : Engine) (hk : ∀ v ∈ tier2, v ∈ s.violations) (old : Provenance g initial s) :
    Holds (fun r => Provenance g initial r.1)
      (fun t => ∀ v ∈ t.handled, Origin g initial t.answered v)
      (aiRound cfg prov tier2 pass l s) := by
  refine aiRound_good cfg (old.runs (applyAiTransforms_runs prov tier2 pass
    l.aiAttempts l.aiFeedback s) (fun event hp v mem => ?_) fun _ _ => not_false)
    (Provenance.rescan cfg pass .ai .proposed)
  cases event with
  | aiRequest ctx => exact hk v (Extends.aiContexts_violations hp mem)
  | _ => cases hp

variable (opts : RemediateOptions) (g : ContentGraph) (initial : List Violation)

theorem provenance_invariant : RunInvariant cfg opts (Provenance g initial)
      fun t => ∀ v ∈ t.handled, Origin g initial t.answered v where
  tier1 _ pass s known before := Provenance.tier1 cfg pass s known before
  rescan pass s before := Provenance.rescan cfg pass _ _ s before
  ai provider _ pass l s _ known before := Provenance.ai cfg provider pass l s known before

theorem startRun_provenance : Provenance g initial (startRun cfg g (some initial)) := by
  have hl : ∀ answered, ∀ v ∈ enrichFqcnTargets initial, Origin g initial answered v := by
    intro answered v mem
    obtain ⟨plain, hi, rfl⟩ := mem_map.mp mem
    exact ⟨plain, .inl hi, filled_enriched initial plain⟩
  have he : Extends [] _ (recordViolations { graph := g } initial 0 .scanned []) :=
    Extends.of_runs (recordViolations_runs { graph := g } initial 0 .scanned []) fun _ => False.elim
  refine ⟨?_, hl _, ?_⟩
  · refine (ledgerKnown_invariant _).recordViolations 0 .scanned []
      (hl _) ?_
    intro id n key r hf hr
    exact ⟨r.violation, .inr (.inl ⟨id, n, key, r, hf, hr, rfl⟩), Filled.refl _⟩
  · intro v mem
    rcases he.mem_handled mem with hb | hg
    · cases hb
    · cases hg

theorem autoApprove_events (s : Engine) : (autoApprove opts s).events = s.events := by
  unfold autoApprove
  split <;> rfl

theorem remediate_provenance : Holds (fun r => (∀ v ∈ r.1.handled, Origin g initial r.1.answered v) ∧
        (∀ v ∈ r.2.remainingViolations ++ r.2.fixedViolations, Origin g initial r.1.answered v) ∧
        LedgerKnown (Origin g initial r.1.answered) r.1.graph)
      (fun s => ∀ v ∈ s.handled, Origin g initial s.answered v)
      (remediate cfg opts g (some initial)) := by
  refine ((provenance_invariant cfg opts g initial).remediate_good
    (startRun_provenance cfg g initial)).mono ?_ fun _ hao => hao
  intro r hen
  obtain ⟨s, l, good, rfl⟩ := hen
  have he := autoApprove_events opts s
  have ha : (autoApprove opts s).answered = s.answered := by
    rw [answered, he, answered]
  have ledger := good.ledger.autoApprove opts
  rw [ha]
  refine ⟨?_, ?_, ledger⟩
  · intro v mem
    rw [handled, he] at mem
    exact good.handled v mem
  · intro v mem
    simp only [report, mem_append, mem_flatMap] at mem
    rcases mem with (ho | hab) | ⟨status, -, hf⟩
    · exact origin_query ledger .opened v ho
    · exact origin_query ledger .aiAbstained v hab
    · exact origin_query ledger status v hf

end

end Provenance

end Apme.Remediation
