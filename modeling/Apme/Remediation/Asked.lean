import Apme.Remediation.Evidence
import Apme.Remediation.Provenance
import Apme.Remediation.Snapshots
import Apme.Remediation.Steps

/-!
# What the AI is asked about

The candidates of an AI attempt come from a list beside the ledger.  The list is
taken from the ledger after every rescan, but an attempt that changes no node is
not rescanned: then the ledger has new abstentions and the list is as before.
-/

set_option autoImplicit false

namespace Apme.Remediation

open Apme.Lib Apme.Graph List ContentGraph Holds ViolationRecord

variable (g : ContentGraph)

theorem statusAt_eq (id : String) (k : ViolationKey) :
    statusAt g id k = (recordAt g id k).map status := by
  unfold statusAt recordAt
  cases g.getNode id <;> rfl

theorem Runs.keeps_ledger {tier1 : List Violation} {s t : Engine} (hr : Runs (Tier1Op tier1) s t) :
    Keeps ContentNode.violationLedger s.graph t.graph := by
  induction hr with
  | refl => exact Keeps.refl _
  | tail op _ hp ih =>
    cases op with
    | record id pass phase src => exact ih.trans (record_keeps_ledger _ id pass phase src)
    | rewrite id text => exact ih.trans (Keeps.rewrite id fun _ => rfl)
    | log event => exact ih
    | _ => cases hp

theorem statusAt_registerViolations (vs : List Violation) (pass : Nat)
    (g : ContentGraph) (v : Violation) (hm : v ∈ vs)
    (hp : (g.getNode v.path).isSome)
    (hfr : ∀ r, recordAt g v.path (violationKey v) = some r → r.status.isSticky = false) :
    statusAt (g.registerViolations vs pass) v.path (violationKey v) = some .opened := by
  induction vs generalizing g with
  | nil => cases hm
  | cons first rest ih =>
    have hop : ∀ r, r.status.isSticky = false →
        (reconfirm first r).status = .opened := by
      intro r hlo
      unfold reconfirm
      cases hst : r.status <;> simp_all [Status.isSticky]
    have hh : (registered first pass
        (recordAt g v.path (violationKey v))).status = .opened := by
      cases hf : recordAt g v.path (violationKey v) with
      | none => rfl
      | some r => exact hop r (hfr r hf)
    have hn : ((registerViolation pass g first).getNode v.path).isSome =
        true := by
      rw [registerViolation, getNode_modifyNode]
      split
      next hs =>
        rw [Option.isSome_map, ← hs]
        exact hp
      next => exact hp
    rcases mem_cons.mp hm with rfl | hl
    · have ho : statusAt (registerViolation pass g v) v.path
          (violationKey v) = some .opened := by
        rw [statusAt_eq, recordAt_register, if_pos ⟨rfl, rfl, hp⟩, Option.map_some,
          hh]
      exact foldl_invariant (I := fun h => statusAt h v.path (violationKey v) = some .opened)
        (fun h w _ hsf => statusAt_register v.path (violationKey v) w pass hsf)
        (registerViolation pass g v) ho
    · refine ih (registerViolation pass g first) hl hn ?_
      intro r hf
      rw [recordAt_register] at hf
      split at hf
      · cases Option.some.inj hf
        rw [hh]
        rfl
      · exact hfr r hf

section Fresh

variable (cfg : EngineConfig) (opts : RemediateOptions)

/-- Every candidate at hand is open in the ledger. -/
def Fresh (s : Engine) : Prop :=
  ∀ v ∈ s.violations, Askable cfg opts v → (s.graph.getNode v.path).isSome →
    statusAt s.graph v.path (violationKey v) = some .opened

variable {cfg opts}

theorem Fresh.keeps {s t : Engine} (hf : Fresh cfg opts s)
    (hk : Keeps ContentNode.violationLedger s.graph t.graph)
    (hs : t.violations = s.violations) : Fresh cfg opts t := by
  intro v mem ha here
  rw [hs] at mem
  rw [hk.isSome_iff] at here
  rw [statusAt_keeps v.path (violationKey v) hk]
  exact hf v mem ha here

theorem fresh_of_collected {s : Engine} (hk : Keyed s.graph)
    (hc : s.violations = s.graph.collectViolations) : Fresh cfg opts s := by
  intro v mem _ _
  rw [hc] at mem
  obtain ⟨id, key, record, hf, ho, rfl⟩ := (mem_queryViolations_iff _ v).mp mem
  obtain ⟨hP, hK⟩ := hk id key record hf
  have hs : recordAt s.graph record.report.path (violationKey record.report) = some record := by
    rw [← hf, hP, hK]
    rfl
  rw [statusAt_eq, hs, Option.map_some, ho]

theorem keyed_runInvariant : RunInvariant cfg opts (fun s => Keyed s.graph) fun _ => True :=
  (keyed_invariant fun _ => True).runInvariant cfg opts fun _ _ _ _ _ _ _ => trivial

theorem rescanAndCollect_fresh (opts : RemediateOptions) (pass : Nat) (fixedBy : FixedBy)
    (st : Status) {s : Engine} (hke : Keyed s.graph) :
    Holds (fun t => Keyed t.graph ∧ Fresh cfg opts t) (fun _ => True)
      (rescanAndCollect cfg pass fixedBy st s) := by
  refine rescanAndCollect_runs cfg pass fixedBy st s trivial fun _ _ t _ hr => ?_
  have hk := (keyed_invariant fun _ => True).runs hr (fun _ _ _ => trivial) hke
  exact ⟨hk, fresh_of_collected hk rfl⟩

theorem fresh_tier1Invariant :
    Tier1Invariant cfg opts (fun s => Keyed s.graph ∧ Fresh cfg opts s) fun _ => True where
  tier1 tier1 pass s _ before := by
    refine (applyTier1_runs cfg tier1 pass s).mono (fun _ hr => ?_) fun _ _ => trivial
    exact ⟨(keyed_invariant fun _ => True).runs hr (fun _ _ _ => trivial) before.1,
      before.2.keeps hr.keeps_ledger hr.violations⟩
  rescan pass s before := rescanAndCollect_fresh opts pass _ _ before.1

theorem askable_filled {w v : Violation} (hf : Filled w v) :
    Askable cfg opts v ↔ Askable cfg opts w := by
  unfold Askable
  rw [tierOf_ai_filled cfg.registry hf]
  obtain ⟨tgt, r, s, rfl⟩ := hf
  refine or_congr_right (and_congr_right fun _ => and_congr_left fun he => ?_)
  have ho : normalizeRuleId w.ruleId ∉ fqcnRules := by simpa [isAiEscalatable] using he
  unfold tierOf isFindingResolvable
  simp only [ho, false_and, if_false]
  rfl

theorem startRun_fresh {init : Option (List Violation)} (hke : Keyed g)
    (hu : ∀ v ∈ initialViolations cfg g init, Askable cfg opts v →
      ∀ r, recordAt g v.path (violationKey v) = some r → r.status.isSticky = false) :
    Keyed (startRun cfg g init).graph ∧ Fresh cfg opts (startRun cfg g init) := by
  let vs := initialViolations cfg g init
  let kept := (Engine.recordAll { graph := g } (reportedNodes vs) 0 .scanned .unset
    ).recordAll (([] : List String).filter fun id => id ∉ reportedNodes vs) 0 .scanned .unset
  have hk : Keeps ContentNode.violationLedger g kept.graph :=
    (recordAll_keeps_ledger _ _ _ _ _).trans (recordAll_keeps_ledger _ _ _ _ _)
  have hS : (startRun cfg g init).graph =
      kept.graph.registerViolations (enrichFqcnTargets vs) 0 := rfl
  refine ⟨(keyed_invariant fun _ => True).recordViolations 0 .scanned []
    (fun _ _ => trivial) hke, ?_⟩
  intro v mem ha here
  rw [hS] at here ⊢
  obtain ⟨plain, hi, rfl⟩ := mem_map.mp mem
  refine statusAt_registerViolations _ 0 kept.graph _ mem ?_ ?_
  · rwa [(Keeps.registerViolations (f := fun _ => ()) (fun _ _ => rfl) _ _).isSome_iff] at here
  · intro r hf
    rw [recordAt_keeps hk] at hf
    have hfill := filled_enriched vs plain
    refine hu plain hi ((askable_filled hfill).mp ha) r ?_
    rw [← hf, filled_path hfill, filled_key hfill]

end Fresh

section Attempts

/-- A fix that gives its node another text. -/
def Changes (result : String × ProposeResult) : Prop :=
  ∃ fix beforeYaml, result.2 = .accepted fix beforeYaml ∧ (g.applyYaml result.1 fix.fixedSnippet).2

section

variable (pass : Nat) (acc : Engine × List String) (result : String × ProposeResult)

theorem applyFix_dirty (hd : acc.1.graph.dirtyNodes ≠ []) :
    (applyFix pass acc result).1.graph.dirtyNodes ≠ [] := by
  rcases applyFix_cases pass acc result with
    hs | ⟨fix, beforeYaml, node, text, -, -, -, ha⟩
  · rw [hs]
    exact hd
  · rw [ha, acceptFix_dirtyNodes]
    exact ne_nil_of_mem ((mem_dirtyNodes_markDirty _ _ _).mpr (.inl rfl))

theorem applyFix_changes (hch : Changes acc.1.graph result) :
    (applyFix pass acc result).1.graph.dirtyNodes ≠ [] := by
  obtain ⟨fix, y, ha, hc⟩ := hch
  rcases applyYaml_cases acc.1.graph result.1 fix.fixedSnippet with
    hs | ⟨node, text, hf, -, hr⟩
  · rw [hs] at hc
    cases hc
  · unfold applyFix
    simp only [ha, hf, hr]
    rw [acceptFix_dirtyNodes]
    exact ne_nil_of_mem ((mem_dirtyNodes_markDirty _ _ _).mpr (.inl rfl))

end

variable (pass : Nat) (ress : List (String × ProposeResult)) (acc : Engine × List String)

theorem applyFixes_dirty
    (he : acc.1.graph.dirtyNodes ≠ [] ∨ ∃ result ∈ ress, Changes acc.1.graph result) :
    (ress.foldl (applyFix pass) acc).1.graph.dirtyNodes ≠ [] := by
  induction ress generalizing acc with
  | nil =>
    rcases he with hd | ⟨result, hm, -⟩
    · exact hd
    · cases hm
  | cons first rest ih =>
    rw [foldl_cons]
    refine ih (applyFix pass acc first) ?_
    rcases he with hd | ⟨result, hm, hc⟩
    · exact .inl (applyFix_dirty pass acc first hd)
    · rcases mem_cons.mp hm with rfl | hl
      · exact .inl (applyFix_changes pass acc result hc)
      · rcases applyFix_cases pass acc first with
          hs | ⟨fix, beforeYaml, node, text, -, -, -, ha⟩
        · rw [hs]
          exact .inr ⟨result, hl, hc⟩
        · rw [ha, acceptFix_dirtyNodes]
          exact .inl (ne_nil_of_mem ((mem_dirtyNodes_markDirty _ _ _).mpr (.inl rfl)))

theorem applyResults_dirtyNodes (tier2 : List Violation)
    (ress : List (String × ProposeResult)) (s : Engine) :
    (applyResults pass tier2 ress s).graph.dirtyNodes =
      (ress.foldl (applyFix pass) (s, [])).1.graph.dirtyNodes :=
  foldl_invariant (I := fun h : ContentGraph =>
      h.dirtyNodes = (ress.foldl (applyFix pass) (s, [])).1.graph.dirtyNodes)
    (fun h group _ hf => (abstainStep_dirtyNodes _ ress h group).trans hf) _ rfl

theorem applyFixes_idle
    (hi : ∀ res ∈ ress, res.2 = .failed ∨ acc.1.graph.getNode res.1 = none) :
    ress.foldl (applyFix pass) acc = acc := by
  refine foldl_invariant (I := fun o => o = acc) (fun o res mem hs => ?_) acc rfl
  subst hs
  rcases applyFix_cases pass o res with
    hs | ⟨fix, beforeYaml, node, text, ha, hfo, -, -⟩
  · exact hs
  · rcases hi res mem with hf | hm
    · rw [hf] at ha
      cases ha
    · rw [hm] at hfo
      cases hfo

theorem applyResults_idle (prov : AIProvider) (pass attempt : Nat)
    (fb : Dict String String) (tier2 : List Violation) (s : Engine) (h : ContentGraph)
    (hs : s.graph = h)
    (hi : ∀ res ∈ aiResults prov attempt h fb tier2,
      res.2 = .failed ∨ h.getNode res.1 = none) (id : String)
    (key : ViolationKey) (hp : (h.getNode id).isSome) :
    statusAt (applyResults pass tier2 (aiResults prov attempt h fb tier2) s).graph
      id key = statusAt h id key := by
  subst hs
  unfold applyResults
  rw [applyFixes_idle pass _ (s, []) hi]
  refine foldl_invariant (I := fun k => statusAt k id key = statusAt s.graph id key) ?_ _ rfl
  intro k group hm hf
  unfold abstainStep
  split
  · exact hf
  next ha =>
    rw [← hf, statusAt_eq, statusAt_eq, abstainViolations, recordAt_updateLedger]
    split
    next here =>
      exfalso
      subst here
      have ht : (group.1, proposeOne prov attempt (aiContext s.graph fb group)) ∈
          aiResults prov attempt s.graph fb tier2 := by
        unfold aiResults aiContexts
        rw [map_map, zip_map', mem_map]
        exact ⟨group, hm, rfl⟩
      rcases hi _ ht with hfa | hmi
      · rw [show proposeOne prov attempt (aiContext s.graph fb group) = .failed from
          hfa] at ht
        exact ha (.inr ht)
      · rw [show s.graph.getNode group.1 = none from hmi] at hp
        cases hp
    next => rfl

/-- The attempt changes a node, is given up, or is answered by nothing but
exceptions. -/
def Effective (s : Engine) (l : LoopVars) (batch : Batch) : Prop :=
  let results := aiResults batch.provider l.aiAttempts s.graph l.aiFeedback batch.tier2
  (s.graph.dirtyNodes ≠ [] ∨ ∃ result ∈ results, Changes s.graph result) ∨
    (∃ result ∈ results, result.2 = .providerError) ∨
    ∀ result ∈ results, result.2 = .failed ∨ s.graph.getNode result.1 = none

variable {cfg : EngineConfig} {opts : RemediateOptions}

theorem applyAiTransforms_fresh {batch : Batch} {pass : Nat} (l : LoopVars) (s : Engine)
    (hf : Fresh cfg opts s) (hef : Effective s l batch)
    (hi : (applyAiTransforms batch.provider batch.tier2 pass l.aiAttempts l.aiFeedback
      s).graph.dirtyNodes = []) :
    Fresh cfg opts (applyAiTransforms batch.provider batch.tier2 pass l.aiAttempts
      l.aiFeedback s) := by
  have hs := (applyAiTransforms_runs batch.provider batch.tier2 pass l.aiAttempts l.aiFeedback
    s).violations
  unfold applyAiTransforms at hi hs ⊢
  dsimp only at hi hs ⊢
  split
  next => exact hf.keeps (Keeps.refl _) rfl
  next he =>
    rw [if_neg he] at hi hs
    rcases hef with effect | ⟨res, hm, hfa⟩ | hsi
    · rw [applyResults_dirtyNodes] at hi
      exact absurd hi (applyFixes_dirty pass _ (_, []) effect)
    · exact absurd (any_eq_true.mpr ⟨res, hm, decide_eq_true hfa⟩) he
    · intro v hm ha here
      rw [hs] at hm
      have hk : Keeps marks s.graph (applyResults pass batch.tier2
          (aiResults batch.provider l.aiAttempts s.graph l.aiFeedback batch.tier2)
          (sendRequests s l.aiFeedback batch.tier2)).graph := by
        unfold applyResults
        rw [applyFixes_idle pass _ (sendRequests s l.aiFeedback batch.tier2, []) hsi]
        exact Keeps.foldl (abstainStep_keeps _ _) _ _
      rw [hk.isSome_iff] at here
      rw [applyResults_idle batch.provider pass l.aiAttempts l.aiFeedback batch.tier2
        (sendRequests s l.aiFeedback batch.tier2) s.graph rfl hsi v.path (violationKey v) here]
      exact hf v hm ha here

theorem aiRound_fresh (cfg : EngineConfig) (opts : RemediateOptions) (batch : Batch) (pass : Nat)
    (l : LoopVars) (s : Engine) (hke : Keyed s.graph) (hf : Fresh cfg opts s) :
    Holds (fun r => Keyed r.1.graph ∧ (Effective s l batch → Fresh cfg opts r.1)) (fun _ => True)
      (aiRound cfg batch.provider batch.tier2 pass l s) := by
  have ha := (keyed_invariant fun _ => True).applyAiTransforms batch.provider batch.tier2
    pass l.aiAttempts l.aiFeedback hke
  unfold aiRound
  dsimp only
  split
  next hi =>
    exact ⟨ha, fun he =>
      applyAiTransforms_fresh l s hf he hi⟩
  next =>
    refine map (rescanAndCollect_fresh opts pass .ai .proposed ha) fun t hk => ?_
    exact ⟨hk.1, fun _ => hk.2⟩

end Attempts

section Points

variable (cfg : EngineConfig) (opts : RemediateOptions)

/-- An attempt that another one can follow is effective. -/
def LoopPoint.Conclusive : LoopPoint → Prop
  | .asking passNumber s l batch =>
    passNumber < cfg.maxPasses → l.aiAttempts + 1 < cfg.maxAiAttempts → Effective s l batch
  | _ => True

/-- As long as the AI can be asked, the candidates at hand are open. -/
def LoopPoint.Fresh : LoopPoint → Prop
  | .top passNumber s l =>
    passNumber ≤ cfg.maxPasses → l.aiAttempts < cfg.maxAiAttempts → Remediation.Fresh cfg opts s
  | .asking _ s _ _ => Remediation.Fresh cfg opts s
  | .answered passNumber s l _ _ =>
    passNumber < cfg.maxPasses → l.aiAttempts < cfg.maxAiAttempts → Remediation.Fresh cfg opts s

variable {cfg opts}

def PhaseAEnd.attempts : PhaseAEnd → Nat
  | .pass (.again _ l) => l.aiAttempts
  | .pass (.stop _ l) => l.aiAttempts
  | .proceed _ l _ _ _ => l.aiAttempts

section

variable (cfg : EngineConfig) (opts : RemediateOptions) (pass : Nat)

theorem phaseA_attempts (s : Engine) (l : LoopVars) :
    Holds (fun fin => fin.attempts = l.aiAttempts) (fun _ => True) (phaseA cfg opts pass s l) := by
  simp only [phaseA]
  split
  · rfl
  · split
    · split <;> rfl
    · refine bind (any _) fun res _ => ?_
      split
      · split <;> rfl
      · refine bind (any _) fun collected _ => ?_
        rw [pure_iff]
        simp only [afterTier1Rescan]
        split
        · rfl
        · split <;> rfl

theorem afterAi_attempts (l : LoopVars) (s : Engine) (changed : Bool) :
    Holds (fun r => r.2.1.aiAttempts = l.aiAttempts) (fun _ => True)
      (afterAi cfg opts pass l s changed) := by
  unfold afterAi
  split
  · refine bind (any _) fun cleaned _ => ?_
    dsimp only
    split <;> rfl
  · rfl

end

theorem LoopStep.fresh {p q : LoopPoint} (step : LoopStep cfg opts p q)
    (conclusive : p.Conclusive cfg) (keyed : Keyed p.state.graph) (fresh : p.Fresh cfg opts) :
    q.Fresh cfg opts := by
  cases step with
  | repeated pass s t l m within run =>
    intro _ hr
    have ha := phaseA_attempts cfg opts pass s { l with passes := pass }
    rw [run] at ha
    have hk := fresh_tier1Invariant.phaseA_good pass s { l with passes := pass }
      ⟨keyed, fresh within (ha ▸ hr)⟩
    rw [run] at hk
    exact hk.2
  | ask pass s t l m batch within run asks =>
    have ha := phaseA_attempts cfg opts pass s { l with passes := pass }
    rw [run] at ha
    have hk := fresh_tier1Invariant.phaseA_good pass s { l with passes := pass }
      ⟨keyed, fresh within (ha ▸ asks.2.2.2.2)⟩
    rw [run] at hk
    exact hk.1.2
  | skip pass s t u l m n tier1 tier2 stalled within run silent next =>
    intro _ hr
    obtain ⟨rfl, rfl⟩ := passVerdict_again next
    have ha := phaseA_attempts cfg opts pass s { l with passes := pass }
    rw [run] at ha
    have hk := fresh_tier1Invariant.phaseA_good pass s { l with passes := pass }
      ⟨keyed, fresh within (ha ▸ hr)⟩
    rw [run] at hk
    exact hk.1.2
  | answer pass s t l batch changed run =>
    intro more hr
    have hk := aiRound_fresh cfg opts batch pass l s keyed fresh
    rw [run] at hk
    exact hk.2 (conclusive more hr)
  | next pass s u l n batch changed res run again =>
    intro more hr
    obtain ⟨rfl, rfl⟩ := askedEnd_again again
    have ha := afterAi_attempts cfg opts pass l s changed
    rw [run] at ha
    have hk := fresh_tier1Invariant.afterAi_good pass l s changed ⟨keyed, fresh more (ha ▸ hr)⟩
    rw [run] at hk
    exact hk.2

theorem Reaches.fresh {p q : LoopPoint} (hr : Reaches cfg opts p q)
    (hc : ∀ r, Reaches cfg opts p r → r.Conclusive cfg) (hs : p.Good cfg opts fun _ => True)
    (hk : Keyed p.state.graph) (hf : p.Fresh cfg opts) : q.Fresh cfg opts := by
  induction hr with
  | refl => exact hf
  | tail old step ih =>
    have hb := (keyed_runInvariant.reaches_good old (hs.of_state hk)).state
    exact step.fresh (hc _ old) hb ih

end Points

section History

variable {cfg : EngineConfig} {opts : RemediateOptions}

/-- One of the rescans among the events reports on this place of the ledger. -/
def Reported (events : List EngineEvent) (nodeId : String) (key : ViolationKey) : Prop :=
  ∃ event ∈ events, ∃ v ∈ event.answered, nodeId = v.path ∧ key = violationKey v

/-- A closed entry of `h` keeps its status if it is sticky or not reported. -/
def KeptClosed (h : ContentGraph) (late : List EngineEvent) (nodeId : String) (key : ViolationKey)
    (found : Option ViolationRecord) : Prop :=
  ∀ old, recordAt h nodeId key = some old → old.status ≠ .opened →
    (old.status.isSticky ∨ ¬Reported late nodeId key) →
      ∃ record, found = some record ∧ record.status = old.status

theorem keptClosed_invariant (h : ContentGraph) (late : List EngineEvent) :
    CellInvariant (fun v => Reported late v.path (violationKey v)) (KeptClosed h late) where
  register v pass found hk before := by
    intro old ho hc hq
    obtain ⟨r, rfl, hs⟩ := before old ho hc hq
    have hst : r.status.isSticky := by
      rw [hs]
      exact hq.resolve_right fun hu => hu hk
    exact ⟨_, rfl, ((lawful_reconfirm v r).sticky hst).trans hs⟩
  resolve id key r fixedBy pass status hop before := by
    intro old ho hc hq
    obtain ⟨o, hs, hss⟩ := before old ho hc hq
    cases Option.some.inj hs
    exact absurd (hss.symm.trans hop) hc
  abstain id key r reason hop before := by
    intro old ho hc hq
    obtain ⟨o, hs, hss⟩ := before old ho hc hq
    cases Option.some.inj hs
    exact absurd (hss.symm.trans hop) hc

/-- Between two points of a run a closed entry stays as it is, unless it is not
sticky and a rescan reports it again. -/
theorem Reaches.closed_kept {p q : LoopPoint} (hre : Reaches cfg opts p q)
    (hst : p.Good cfg opts fun _ => True) {late : List EngineEvent}
    (hL : q.state.events = p.state.events ++ late) :
    Cells (KeptClosed p.state.graph late) q.state.graph := by
  have inv : RunInvariant cfg opts (WhileAnswered p.state.events
      (fun v => Reported late v.path (violationKey v)) (Cells (KeptClosed p.state.graph late))
      fun _ => True) fun _ => True := by
    refine whileAnswered_invariant (keptClosed_invariant p.state.graph late).graph ?_
      (fun _ _ _ _ => trivial) cfg opts
    intro answer hr v hm
    obtain ⟨plain, ha, rfl⟩ := mem_map.mp hm
    have hfill := filled_enriched answer plain
    rw [filled_path hfill, filled_key hfill]
    exact hr plain ha
  have has : WhileAnswered p.state.events (fun v => Reported late v.path (violationKey v))
      (Cells (KeptClosed p.state.graph late)) (fun _ => True) p.state := by
    refine ⟨[], by simp, fun _ => ⟨?_, fun _ _ => trivial⟩⟩
    intro id k old hf _ _
    exact ⟨old, hf, rfl⟩
  obtain ⟨more, hM, holds⟩ := (inv.reaches_good hre (hst.of_state has)).state
  have hs : more = late := append_cancel_left (hM.symm.trans hL)
  subst hs
  exact (holds fun event hm v han => ⟨event, hm, v, han, rfl, rfl⟩).1

/-- No rescan of a run from `start` reports a finding that has a fix already. -/
def NoRegression (cfg : EngineConfig) (opts : RemediateOptions) (start : LoopPoint) : Prop :=
  ∀ p q late, Reaches cfg opts start p → Reaches cfg opts p q →
    q.state.events = p.state.events ++ late → ∀ nodeId key, Reported late nodeId key →
      ∀ status, statusAt p.state.graph nodeId key = some status → status.isResolved = false

end History

section Requests

variable (cfg : EngineConfig) (opts : RemediateOptions)

/-- The finding is open when it is sent, nobody has refused it before, and it
had no fix before unless rescans report fixed findings again. -/
structure AskedOpen (start p : LoopPoint) (v : Violation) : Prop where
  opened : statusAt p.state.graph v.path (violationKey v) = some .opened
  unrefused : ∀ earlier status, Reaches cfg opts start earlier → Reaches cfg opts earlier p →
    statusAt earlier.state.graph v.path (violationKey v) = some status → status.isSticky = false
  unfixed : NoRegression cfg opts start → ∀ earlier status, Reaches cfg opts start earlier →
    Reaches cfg opts earlier p →
      statusAt earlier.state.graph v.path (violationKey v) = some status → status = .opened

theorem true_invariant : RunInvariant cfg opts (fun _ => True) fun _ => True where
  tier1 _ _ _ _ _ := any _
  rescan _ _ _ := any _
  ai _ _ _ _ _ _ _ _ := any _

variable {cfg opts}

theorem sent_present {p : LoopPoint} {ctx : AINodeContext} (hs : p.Sends ctx) (v : Violation)
    (mem : v ∈ ctx.violations) : (p.state.graph.getNode v.path).isSome := by
  cases p with
  | top pass s l => cases hs
  | answered pass s l batch changed => cases hs
  | asking pass s l batch =>
    obtain ⟨group, hg, ha⟩ := mem_map.mp hs
    obtain ⟨n, hf, ha⟩ := Option.bind_eq_some_iff.mp ha
    split at ha
    · cases ha
    · cases Option.some.inj ha
      have hG := Dict.mem_groupBy_entries hg
      rw [hG] at mem
      have hp : v.path = group.1 := by simpa using (mem_filter.mp mem).2
      rw [hp]
      exact Option.isSome_iff_exists.mpr ⟨n, hf⟩

/-- If an entry is open at the end, it was never refused, and it was fixed
before only if a rescan has reported it again. -/
theorem Reaches.opened_before {start p q : LoopPoint} (he : Reaches cfg opts start p)
    (late : Reaches cfg opts p q) (hra : start.Good cfg opts fun _ => True) {id : String}
    {key : ViolationKey} (ho : statusAt q.state.graph id key = some .opened)
    {st : Status} (hb : statusAt p.state.graph id key = some st) :
    st.isSticky = false ∧ (NoRegression cfg opts start → st = .opened) := by
  obtain ⟨events, hL⟩ := late.isPrefix
  have hk := late.closed_kept ((true_invariant cfg opts).reaches_good he hra) hL.symm id key
  rw [statusAt_eq] at hb ho
  obtain ⟨old, hf, rfl⟩ := Option.map_eq_some_iff.mp hb
  have hr : old.status ≠ .opened →
      ¬(old.status.isSticky ∨ ¬Reported events id key) := by
    intro hc hq
    obtain ⟨r, hR, hs⟩ := hk old hf hc hq
    rw [hR, Option.map_some, hs] at ho
    exact hc (Option.some.inj ho)
  constructor
  · by_contra hst
    rw [Bool.not_eq_false] at hst
    exact hr (sticky_ne_opened hst) (.inl hst)
  · intro hse
    by_contra hc
    have hre : Reported events id key := by
      by_contra hun
      exact hr hc (.inr hun)
    have hu := hse p q events he late hL.symm id key hre old.status
      (by rw [statusAt_eq, hf, Option.map_some])
    have hl : old.status.isSticky = false := by
      by_contra hst
      rw [Bool.not_eq_false] at hst
      exact hr hc (.inl hst)
    cases st : old.status <;> simp_all [Status.isResolved, Status.isSticky]

/-- Along a run in which every attempt that can be followed by another one is
effective, the AI is asked about open findings only, if no finding given to the
run had been refused before. -/
theorem asks_open_findings (cfg : EngineConfig) (opts : RemediateOptions) (g : ContentGraph)
    (initial : Option (List Violation)) (keyed : Keyed g)
    (unrefused : ∀ v ∈ initialViolations cfg g initial, Askable cfg opts v →
      ∀ record, recordAt g v.path (violationKey v) = some record → record.status.isSticky = false)
    (conclusive : ∀ p, Reaches cfg opts (startPoint cfg g initial) p → p.Conclusive cfg) :
    (∀ p context, Reaches cfg opts (startPoint cfg g initial) p → p.Sends context →
        ∀ v ∈ context.violations, AskedOpen cfg opts (startPoint cfg g initial) p v) ∧
      Holds
        (fun r => ∀ context, .aiRequest context ∈ r.1.events →
          SentBefore cfg opts (startPoint cfg g initial) r.1 context)
        (fun t => ∀ context, .aiRequest context ∈ t.events →
          SentBefore cfg opts (startPoint cfg g initial) t context)
        (remediate cfg opts g initial) := by
  refine ⟨?_, remediate_requests g initial⟩
  intro p context reaches sends v member
  have start : (startPoint cfg g initial).Good cfg opts fun _ => True := trivial
  obtain ⟨keyedStart, freshStart⟩ := startRun_fresh g keyed unrefused
  have fresh := reaches.fresh conclusive start keyedStart fun _ _ => freshStart
  have present := sent_present sends v member
  have opened : statusAt p.state.graph v.path (violationKey v) = some .opened := by
    have atHand := ((true_invariant cfg opts).reaches_good reaches start)
    cases p with
    | top passNumber s l => cases sends
    | answered passNumber s l batch changed => cases sends
    | asking passNumber s l batch =>
      have inTier2 := Extends.aiContexts_violations sends member
      exact fresh v (atHand.2.2 v inTier2) (reaches.askable v inTier2) present
  refine ⟨opened, ?_, ?_⟩
  · intro earlier status early late before
    exact (early.opened_before late start opened before).1
  · intro steady earlier status early late before
    exact (early.opened_before late start opened before).2 steady

end Requests

def askedTask : ContentGraph :=
  { nodes := Dict.ofList [("task", { nodeType := .task, yamlLines := "- shell: ls\n".toList })] }

def askedFinding : Violation := { ruleId := "L030", path := "task" }

/-- The AI has no fix, whatever it is asked. -/
def silentAi (attempts : Nat) : EngineConfig :=
  { registry := fun _ => none, aiProvider := some fun _ _ => .noFix, maxAiAttempts := attempts }

def silentBatch : Batch :=
  { provider := fun _ _ => .noFix, tier1 := [], tier2 := [askedFinding], stalled := false }

/-- The state after the first attempt. -/
def silentState : Engine :=
  applyAiTransforms (fun _ _ => .noFix) [askedFinding] 1 0 Dict.empty
    (startRun (silentAi 2) askedTask (some [askedFinding]))

def askedContext : AINodeContext :=
  { nodeId := "task", nodeType := .task, yamlLines := "- shell: ls\n".toList
    violations := [askedFinding], filePath := "", feedback := "" }

/-- After the AI has abstained it is asked about the same finding again. -/
theorem abstained_asked_again :
    ∃ l, Reaches (silentAi 2) {} (startPoint (silentAi 2) askedTask (some [askedFinding]))
        (.asking 2 silentState l silentBatch) ∧
      (LoopPoint.asking 2 silentState l silentBatch).Sends askedContext ∧
      askedFinding ∈ askedContext.violations ∧
      statusAt silentState.graph "task" (violationKey askedFinding) = some .aiAbstained := by
  let start := startRun (silentAi 2) askedTask (some [askedFinding])
  have first : LoopStep (silentAi 2) {} (.top 1 start {}) (.asking 1 start { passes := 1 } silentBatch) :=
    .ask 1 start start {} { passes := 1 } silentBatch (by decide) rfl
      ⟨rfl, .inl rfl, by decide, rfl, by decide⟩
  have answer : LoopStep (silentAi 2) {} (.asking 1 start { passes := 1 } silentBatch)
      (.answered 1 silentState { passes := 1, aiAttempts := 1 } silentBatch false) :=
    .answer 1 start silentState { passes := 1 } silentBatch false rfl
  have next : LoopStep (silentAi 2) {}
      (.answered 1 silentState { passes := 1, aiAttempts := 1 } silentBatch false)
      (.top 2 silentState { passes := 1, aiAttempts := 1 }) :=
    .next 1 silentState silentState { passes := 1, aiAttempts := 1 } { passes := 1, aiAttempts := 1 }
      silentBatch false (silentState, { passes := 1, aiAttempts := 1 }, false) rfl rfl
  have second : LoopStep (silentAi 2) {} (.top 2 silentState { passes := 1, aiAttempts := 1 })
      (.asking 2 silentState { passes := 2, aiAttempts := 1 } silentBatch) :=
    .ask 2 silentState silentState { passes := 1, aiAttempts := 1 } { passes := 2, aiAttempts := 1 }
      silentBatch (by decide) rfl ⟨rfl, .inl rfl, by decide, rfl, by decide⟩
  refine ⟨{ passes := 2, aiAttempts := 1 }, ?_, ?_, by decide, by decide⟩
  · exact .head first (.head answer (.head next (.single second)))
  · change some askedContext ∈ aiContexts silentState.graph Dict.empty [askedFinding]
    decide

theorem askedTask_records (id : String) (k : ViolationKey) :
    recordAt askedTask id k = none := by
  unfold recordAt
  cases hf : askedTask.getNode id with
  | none => rfl
  | some n =>
    have ho := mem_singleton.mp ((Dict.get?_eq_some_iff _ _ _).mp hf)
    rw [(Prod.mk.inj ho).2]
    rfl

/-- The AI has one attempt, and the scan finds the same in what it writes. -/
def singleAttempt : EngineConfig :=
  { registry := fun _ => none
    aiProvider := some fun _ _ => .fix { fixedSnippet := "- command: ls\n".toList }
    rescanFn := some fun _ _ _ => some [askedFinding]
    maxAiAttempts := 1 }

/-- With a single attempt the AI is asked once, about the open finding. -/
theorem singleAttempt_asks_open :
    (∀ p context, Reaches singleAttempt {} (startPoint singleAttempt askedTask (some [askedFinding])) p →
        p.Sends context → ∀ v ∈ context.violations,
          AskedOpen singleAttempt {} (startPoint singleAttempt askedTask (some [askedFinding])) p v) ∧
      Holds
        (fun r => ∀ context, .aiRequest context ∈ r.1.events →
          SentBefore singleAttempt {} (startPoint singleAttempt askedTask (some [askedFinding])) r.1
            context)
        (fun t => ∀ context, .aiRequest context ∈ t.events →
          SentBefore singleAttempt {} (startPoint singleAttempt askedTask (some [askedFinding])) t
            context)
        (remediate singleAttempt {} askedTask (some [askedFinding])) ∧
      Holds (fun r => .aiRequest askedContext ∈ r.1.events ∧ r.1.answered = [askedFinding])
        (fun _ => False)
        (remediate singleAttempt {} askedTask (some [askedFinding])) := by
  have keyed : Keyed askedTask := by
    intro nodeId key record found
    rw [askedTask_records] at found
    cases found
  obtain ⟨asked, sent⟩ := asks_open_findings singleAttempt {} askedTask (some [askedFinding]) keyed
    (fun v _ _ record found => by rw [askedTask_records] at found; cases found)
    (fun p _ => by
      cases p with
      | top passNumber s l => trivial
      | answered passNumber s l batch changed => trivial
      | asking passNumber s l batch =>
        intro _ remain
        change l.aiAttempts + 1 < 1 at remain
        omega)
  exact ⟨asked, sent, by decide⟩

end Apme.Remediation
