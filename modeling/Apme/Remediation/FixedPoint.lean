import Apme.Remediation.Invariant
import Apme.Remediation.Oscillation

/-!
# Where deterministic remediation stops

A run without an AI provider that ends neither as oscillating nor with its last
pass has reached a fixed point: the transforms of the Tier 1 findings that are
still open were called in the last pass, and none of them applied.
-/

set_option autoImplicit false

namespace Apme.Remediation

open Apme.Lib Apme.Graph List ContentNode Keeps Engine

section Round

variable (cfg : EngineConfig)

/-- The violation has a transform, which does nothing to its node. -/
def Declines (g : ContentGraph) (v : Violation) : Prop :=
  ∃ transform, cfg.registry (normalizeRuleId v.ruleId) = some transform ∧
    g.applyTransform v.path transform v = some (g, false)

variable {cfg}

variable {acc result : Engine × Nat} {v : Violation}

theorem tier1Step_cases (hs : tier1Step cfg acc v = .ok result) :
    (cfg.registry (normalizeRuleId v.ruleId) = none ∧ result = acc) ∨
      (Declines cfg acc.1.graph v ∧ result = (acc.1.log [.transformCall v], acc.2)) ∨
        result.2 = acc.2 + 1 := by
  unfold tier1Step at hs
  split at hs
  next none =>
    cases hs
    exact .inl ⟨none, rfl⟩
  next transform hf =>
    right
    rcases ContentGraph.applyTransform_cases acc.1.graph v.path transform v with
      hra | same | ⟨text, hr⟩
    · simp only [log, hra] at hs
      cases hs
    · simp only [log, same] at hs
      cases hs
      exact .inl ⟨⟨transform, hf, same⟩, rfl⟩
    · simp only [log, hr] at hs
      cases hs
      exact .inr rfl

variable {items : List Violation}

theorem tier1Round_count
    (run : items.foldlM (tier1Step cfg) acc = .ok result) : acc.2 ≤ result.2 := by
  induction items generalizing acc with
  | nil =>
    cases run
    exact Nat.le_refl _
  | cons v rest ih =>
    rw [foldlM_cons] at run
    obtain ⟨next, hs, run⟩ := bind_eq_ok.mp run
    have hl := ih run
    rcases tier1Step_cases hs with ⟨-, rfl⟩ | ⟨-, rfl⟩ | hm
    · exact hl
    · exact hl
    · omega

variable {s t : Engine}

theorem tier1Round_idle {count : Nat}
    (reg : ∀ v ∈ items, cfg.registry (normalizeRuleId v.ruleId) ≠ none)
    (run : items.foldlM (tier1Step cfg) (s, count) = .ok (t, count)) :
    t = s.log (items.map .transformCall) ∧ ∀ v ∈ items, Declines cfg s.graph v := by
  induction items generalizing s with
  | nil =>
    cases run
    exact ⟨by simp [log], by simp⟩
  | cons v rest ih =>
    rw [foldlM_cons] at run
    obtain ⟨next, step, run⟩ := bind_eq_ok.mp run
    have hl := tier1Round_count run
    rcases tier1Step_cases step with ⟨none, -⟩ | ⟨hd, rfl⟩ | hm
    · exact absurd none (reg v mem_cons_self)
    · obtain ⟨hs, ho⟩ := ih (fun w mem => reg w (mem_cons_of_mem v mem)) run
      refine ⟨by simp [hs, log], ?_⟩
      intro w mem
      rcases mem_cons.mp mem with rfl | hr
      · exact hd
      · exact ho w hr
    · dsimp only at hm hl
      omega

theorem tierOf_fixable_registered {registry : TransformRegistry}
    (hf : tierOf registry v = .fixable) : registry (normalizeRuleId v.ruleId) ≠ none := by
  have hr : isFindingResolvable registry v := by
    by_contra hu
    rw [Bool.not_eq_true] at hu
    unfold tierOf at hf
    simp only [hu, Bool.false_eq_true, if_false] at hf
    revert hf
    split_ifs <;> simp
  intro none
  unfold isFindingResolvable at hr
  simp [none] at hr

theorem tier1_registered (s : Engine) :
    ∀ v ∈ s.tier1 cfg, cfg.registry (normalizeRuleId v.ruleId) ≠ none := by
  intro v mem
  exact tierOf_fixable_registered (by simpa using (mem_filter.mp mem).2)

/-- What taking snapshots leaves as it is. -/
structure SnapshotsOnly (s t : Engine) : Prop where
  events : s.events <+: t.events
  rescans : t.rescans = s.rescans
  ledger : Keeps violationLedger s.graph t.graph
  texts : Keeps yamlLines s.graph t.graph

theorem SnapshotsOnly.recordAll (s : Engine) (ids : List String) (pass : Nat) (phase : Phase)
    (src : Source) : SnapshotsOnly s (s.recordAll ids pass phase src) := by
  refine foldl_invariant (I := SnapshotsOnly s) ?_ s ⟨prefix_refl _, rfl, refl _, refl _⟩
  intro t id _ hf
  unfold record
  split
  · exact hf
  · exact ⟨hf.events.trans (prefix_append _ _), hf.rescans,
      hf.ledger.trans (modifyNode id fun _ => rfl),
      hf.texts.trans (modifyNode id fun _ => rfl)⟩

/-- A Tier 1 phase that applies nothing calls the transforms of all its findings
and takes snapshots. -/
theorem applyTier1_idle {pass : Nat} (ha : applyTier1 cfg (s.tier1 cfg) pass s = .ok (t, 0)) :
    SnapshotsOnly (s.log ((s.tier1 cfg).map .transformCall)) t ∧
      ∀ v ∈ s.tier1 cfg, Declines cfg s.graph v := by
  unfold applyTier1 at ha
  cases run : (s.tier1 cfg).foldlM (tier1Step cfg) (s, 0) with
  | error failed =>
    rw [run] at ha
    cases ha
  | ok acc =>
    obtain ⟨u, count⟩ := acc
    rw [run] at ha
    obtain ⟨hk, hz⟩ := Prod.mk.inj (Except.ok.inj ha)
    dsimp only at hk hz
    subst hz
    obtain ⟨hs, hd⟩ := tier1Round_idle (tier1_registered s) run
    rw [← hk, hs]
    exact ⟨.recordAll _ _ _ _ _, hd⟩

end Round

section Tracking

variable {cfg : EngineConfig} {opts : RemediateOptions}

/-- Every open record of the ledger is in the list the loop goes on with. -/
def ListsOpen (s : Engine) : Prop := ∀ v ∈ s.graph.collectViolations, v ∈ s.violations

variable {g : ContentGraph}

theorem collectViolations_keeps {h : ContentGraph} (hk : Keeps violationLedger g h)
    (v : Violation) : v ∈ h.collectViolations ↔ v ∈ g.collectViolations := by
  unfold ContentGraph.collectViolations
  rw [mem_queryViolations_iff, mem_queryViolations_iff]
  simp only [recordAt_keeps hk]

/-- No record has a word of the AI, and each is about one of the violations. -/
def Bare (violations : List Violation) (g : ContentGraph) : Prop :=
  Cells (fun _ _ found => ∀ record, found = some record →
    record.violation ∈ violations ∧ record.aiReason = none ∧ record.aiSuggestion = none) g

variable {violations : List Violation}

section

variable (bare : Bare violations g)
include bare

theorem Bare.register (pass : Nat) (v : Violation)
    (hl : v ∈ violations) : Bare violations (ContentGraph.registerViolation pass g v) := by
  intro id k r hf
  rw [recordAt_register] at hf
  split at hf
  · cases Option.some.inj hf
    rw [violation_registered]
    cases old : recordAt g id k with
    | none => exact ⟨hl, rfl, rfl⟩
    | some existing =>
      have hb := (bare id k existing old).2
      rw [registered, ViolationRecord.reconfirm]
      split <;> exact ⟨hl, hb⟩
  · exact bare id k r hf

theorem Bare.registerViolations (pass : Nat) : Bare violations (g.registerViolations violations pass) :=
  foldl_invariant (I := Bare violations) (fun _ v hl hf => hf.register pass v hl) g bare

theorem Bare.listsOpen : ∀ v ∈ g.collectViolations, v ∈ violations := by
  intro v hc
  obtain ⟨id, key, r, hf, -, rfl⟩ := (mem_queryViolations_iff _ _).mp hc
  obtain ⟨hl, hnr, hns⟩ := bare id key r hf
  have hs : r.report = r.violation := by
    simp [ViolationRecord.report, hnr, hns]
  rwa [hs]

end

/-- No node has a record yet. -/
def FreshLedger (g : ContentGraph) : Prop :=
  ∀ nodeId node, g.getNode nodeId = some node → node.violationLedger = Dict.empty

theorem FreshLedger.bare (hfr : FreshLedger g) (vs : List Violation) :
    Bare vs g := by
  intro id k r hf
  obtain ⟨n, hg, hk⟩ := Option.bind_eq_some_iff.mp hf
  rw [hfr id n hg] at hk
  cases hk

theorem startRun_listsOpen (cfg : EngineConfig) (g : ContentGraph) (hf : FreshLedger g)
    (init : Option (List Violation)) : ListsOpen (startRun cfg g init) := by
  have hb : Bare (enrichFqcnTargets (initialViolations cfg g init)) (startRun cfg g init).graph :=
    Bare.registerViolations ((hf.bare _).keeps
      ((SnapshotsOnly.recordAll { graph := g } _ _ _ _).ledger.trans
        (SnapshotsOnly.recordAll _ _ _ _ _).ledger)) 0
  exact hb.listsOpen

variable {pass : Nat} {s : Engine}

theorem rescanAndCollect_listsOpen {fixedBy : FixedBy} {st : Status} {t : Engine}
    (run : rescanAndCollect cfg pass fixedBy st s = .ok t) : ListsOpen t := by
  intro v hc
  rw [rescanAndCollect_collected run]
  exact hc

theorem ListsOpen.tier1 (ho : ListsOpen s) {v : Violation}
    (mem : v ∈ openTier1 cfg s.graph) : v ∈ s.tier1 cfg := by
  obtain ⟨hc, hf⟩ := mem_filter.mp mem
  exact mem_filter.mpr ⟨ho v hc, hf⟩

variable {l : LoopVars}

theorem finishPass_deterministic (hd : runAi cfg opts = none)
    {tier1 tier2 : List Violation} {stalled : Bool} {fin : PassEnd}
    (rest : finishPass cfg opts pass (.proceed s l tier1 tier2 stalled) = .ok fin) :
    fin.state = s ∧ fin.vars = l := by
  simp only [finishPass, hd, Except.ok.injEq] at rest
  subst rest
  exact ⟨RunInvariant.passVerdict_state tier1 tier2 stalled s l,
    passVerdict_vars cfg opts tier1 tier2 stalled s l⟩

theorem PassStart.listsOpen {start : Engine} {n : Nat} (hd : runAi cfg opts = none)
    (hf : ListsOpen start) (hst : PassStart cfg opts start n s l) : ListsOpen s := by
  induction hst with
  | first => exact hf
  | next n s t l m hea hw run ih =>
    rcases passStep_cases run with hp | ⟨u, k, tier1, t₁, stalled, hp, rest⟩
    · cases hp with
      | repeated _ _ count ha hag => exact rescanAndCollect_listsOpen hag
    · obtain ⟨hs, -⟩ := finishPass_deterministic hd rest
      change t = u at hs
      subst hs
      cases hp with
      | nothing _ he => exact ih
      | skipped skip _ _ => exact ih
      | stalled _ ha _ _ =>
        have hr := applyTier1_runs cfg (s.tier1 cfg) n s
        rw [ha] at hr
        intro v hc
        rw [hr.violations]
        exact ih v ((collectViolations_keeps (applyTier1_idle ha).1.ledger v).mp hc)
      | cleared _ _ count _ ha hag he => exact rescanAndCollect_listsOpen hag

end Tracking

section FixedPoint

variable (cfg : EngineConfig) (opts : RemediateOptions)

/-- The transform of the violation was called between the two states. -/
def OfferedBetween (s t : Engine) (v : Violation) : Prop :=
  .transformCall v ∈ t.events.drop s.events.length

/-- `u` is the state after the last rescan of the pass from `s` to `t`, which
follows the pass's Tier 1 phase, or `s` itself when the pass made none. -/
def LastRescan (passNumber : Nat) (s u t : Engine) : Prop :=
  t.rescans = u.rescans ∧
    (u = s ∨ ∃ w count, applyTier1 cfg (s.tier1 cfg) passNumber s = .ok (w, count) ∧
      rescanAndCollect cfg passNumber .deterministic (resolveStatus opts) w = .ok u)

structure PassSettled (passNumber : Nat) (s t : Engine) : Prop where
  declined : ∀ v ∈ openTier1 cfg t.graph, OfferedBetween s t v ∧ Declines cfg s.graph v
  unchanged : ∃ u, LastRescan cfg opts passNumber s u t ∧ Keeps yamlLines u.graph t.graph

variable {cfg opts}

variable {pass : Nat} {s : Engine}

theorem PassSettled.nothing (ho : ListsOpen s)
    (he : s.tier1 cfg = []) : PassSettled cfg opts pass s s where
  declined v member := by
    have hl := ho.tier1 member
    rw [he] at hl
    cases hl
  unchanged := ⟨s, ⟨rfl, .inl rfl⟩, refl _⟩

variable {t : Engine}

theorem PassSettled.stalled (ho : ListsOpen s)
    (ha : applyTier1 cfg (s.tier1 cfg) pass s = .ok (t, 0)) :
    PassSettled cfg opts pass s t := by
  obtain ⟨hs, hd⟩ := applyTier1_idle ha
  constructor
  · intro v mem
    obtain ⟨hc, hf⟩ := mem_filter.mp mem
    have hl : v ∈ s.tier1 cfg := mem_filter.mpr
      ⟨ho v ((collectViolations_keeps hs.ledger v).mp hc), hf⟩
    refine ⟨?_, hd v hl⟩
    obtain ⟨later, hsp⟩ := hs.events
    unfold OfferedBetween
    rw [← hsp]
    change _ ∈ (s.events ++ (s.tier1 cfg).map EngineEvent.transformCall ++ later).drop _
    rw [append_assoc, drop_left]
    exact mem_append_left _ (mem_map_of_mem hl)
  · exact ⟨s, ⟨hs.rescans, .inl rfl⟩, hs.texts⟩

theorem PassSettled.cleared {u : Engine} {count : Nat}
    (hr : applyTier1 cfg (s.tier1 cfg) pass s = .ok (t, count))
    (ha : rescanAndCollect cfg pass .deterministic (resolveStatus opts) t = .ok u)
    (he : u.tier1 cfg = []) : PassSettled cfg opts pass s u where
  declined v member := by
    have hl := (rescanAndCollect_listsOpen ha).tier1 member
    rw [he] at hl
    cases hl
  unchanged := ⟨u, ⟨rfl, .inr ⟨t, count, hr, ha⟩⟩, refl _⟩

theorem passStep_settled {l m : LoopVars}
    (hd : runAi cfg opts = none) (ho : opts.skipTier1 = false)
    (hlo : ListsOpen s) (run : passStep cfg opts pass s l = .ok (.stop t m))
    (hst : m.oscillation = false) : PassSettled cfg opts pass s t := by
  rcases passStep_cases run with hp | ⟨u, k, tier1, t₁, stalled, hp, rest⟩
  · cases hp with
    | skippedStop skip =>
      rw [ho] at skip
      cases skip
    | stalledStop _ ha => exact .stalled hlo ha
    | oscillating _ _ count prev hf ha hag hk hnf => cases hst
  · obtain ⟨hs, -⟩ := finishPass_deterministic hd rest
    change t = u at hs
    subst hs
    cases hp with
    | nothing _ he => exact .nothing hlo he
    | skipped skip _ _ =>
      rw [ho] at skip
      cases skip
    | stalled _ ha _ _ => exact .stalled hlo ha
    | cleared _ _ count _ ha hag he => exact .cleared ha hag he

theorem PassSettled.autoApprove (hs : PassSettled cfg opts pass s t) :
    PassSettled cfg opts pass s (autoApprove opts t) := by
  unfold Remediation.autoApprove
  split
  · exact hs
  · have hk : ∀ {α : Type} (f : ContentNode → α),
        (∀ n, f (n.approvePending (some .deterministic)) = f n) →
          Keeps f t.graph (t.graph.approvePending "" (some .deterministic)) :=
      fun f same => mapNodes _ same
    constructor
    · intro v mem
      obtain ⟨hc, hf⟩ := mem_filter.mp mem
      refine hs.declined v (mem_filter.mpr ⟨?_, hf⟩)
      exact (collectViolations_keeps (hk _ fun _ => rfl) v).mp hc
    · obtain ⟨u, last, ht⟩ := hs.unchanged
      exact ⟨u, last, ht.trans (hk _ fun _ => rfl)⟩

/-- A run without an AI provider that returns before its last pass and without
the oscillation flag was stopped by a pass in which every Tier 1 finding that is
still open was offered to its transform and not applied, and in which no node
changed after the last rescan. -/
theorem remediate_fixed_point (cfg : EngineConfig) (opts : RemediateOptions) (g : ContentGraph)
    (initial : Option (List Violation)) (t : Engine) (fixReport : GraphFixReport)
    (fresh : FreshLedger g) (deterministic : runAi cfg opts = none)
    (offers : opts.skipTier1 = false) (run : remediate cfg opts g initial = .ok (t, fixReport))
    (steady : fixReport.oscillationDetected = false) (early : fixReport.passes < cfg.maxPasses) :
    ∃ s l u m, PassStart cfg opts (startRun cfg g initial) fixReport.passes s l ∧
      passStep cfg opts fixReport.passes s l = .ok (.stop u m) ∧ t = autoApprove opts u ∧
      PassSettled cfg opts fixReport.passes s t := by
  obtain ⟨⟨u, m⟩, passes, rest⟩ := bind_eq_ok.mp run
  cases rest
  rcases runPasses_last _ _ 1 _ u _ m (Nat.add_comm 1 _) .first rfl passes with
    all | ⟨s, l, started, step⟩
  · exact absurd all (Nat.ne_of_lt early)
  · have listsOpen := started.listsOpen deterministic (startRun_listsOpen cfg g fresh initial)
    exact ⟨s, l, u, m, started, step, rfl,
      (passStep_settled deterministic offers listsOpen step steady).autoApprove⟩

/-- A rule whose transform never finds anything to do. -/
def obstinateConfig : EngineConfig :=
  { registry := fun ruleId => if ruleId = "L040" then some fun _ _ => .notApplied else none
    rescanFn := some fun _ _ _ => some [tabFinding] }

theorem obstinate_settled :
    ∃ t fixReport,
      remediate obstinateConfig {} tabbedTaskGraph (some [tabFinding]) = .ok (t, fixReport) ∧
        openTier1 obstinateConfig t.graph = [tabFinding] ∧
        ∃ s l u m, PassStart obstinateConfig {}
            (startRun obstinateConfig tabbedTaskGraph (some [tabFinding])) fixReport.passes s l ∧
          passStep obstinateConfig {} fixReport.passes s l = .ok (.stop u m) ∧
          t = autoApprove {} u ∧ PassSettled obstinateConfig {} fixReport.passes s t := by
  have fresh : FreshLedger tabbedTaskGraph := by
    intro nodeId node found
    have entry := (Dict.get?_eq_some_iff _ _ _).mp found
    obtain ⟨rfl, rfl⟩ := Prod.mk.inj (mem_singleton.mp entry)
    rfl
  exact ⟨_, _, rfl, by decide, remediate_fixed_point obstinateConfig {} tabbedTaskGraph
    (some [tabFinding]) _ _ fresh rfl rfl rfl rfl (by decide)⟩

end FixedPoint

end Apme.Remediation
