import Apme.Remediation.Invariant

/-!
# The loop step by step

`runPasses` says where a run ends; the states on the way are the points of the
loop: the top of a pass, the moment the requests of an AI attempt are sent, and
the state after the attempt and its rescan.  Every request of a run is sent at
a point the run reaches, and what all rounds keep holds at every such point.
-/

set_option autoImplicit false

namespace Apme.Remediation

open Apme.Lib Apme.Graph Relation.ReflTransGen Holds

/-- What Phase A leaves to the AI. -/
structure Batch where
  provider : AIProvider
  tier1 : List Violation
  tier2 : List Violation
  stalled : Bool

inductive LoopPoint
  | top (passNumber : Nat) (s : Engine) (l : LoopVars)
  | asking (passNumber : Nat) (s : Engine) (l : LoopVars) (batch : Batch)
  | answered (passNumber : Nat) (s : Engine) (l : LoopVars) (batch : Batch) (changed : Bool)

namespace LoopPoint

def state : LoopPoint → Engine
  | .top _ s _ => s
  | .asking _ s _ _ => s
  | .answered _ s _ _ _ => s

/-- The requests sent at this point. -/
def Sends (context : AINodeContext) : LoopPoint → Prop
  | .asking _ s l batch => some context ∈ aiContexts s.graph l.aiFeedback batch.tier2
  | _ => False

/-- An event that is no request, or one of the requests sent at this point. -/
def Allows (p : LoopPoint) (event : EngineEvent) : Prop :=
  ∀ context, event = .aiRequest context → p.Sends context

end LoopPoint

section Steps

variable (cfg : EngineConfig) (opts : RemediateOptions)

/-- The test before Phase B. -/
def Asks (s : Engine) (l : LoopVars) (batch : Batch) : Prop :=
  runAi cfg opts = some batch.provider ∧ (batch.tier1 = [] ∨ batch.stalled) ∧ batch.tier2 ≠ [] ∧
    s.aiError = none ∧ l.aiAttempts < cfg.maxAiAttempts

/-- What follows an AI attempt in Phases B and C. -/
def afterAi (passNumber : Nat) (l : LoopVars) (s : Engine) (changed : Bool) :
    Except Engine (Engine × LoopVars × Bool) :=
  if changed then do
    let s ← phaseC cfg opts passNumber s
    let newTier2 := (partitionViolations s.violations cfg.registry).tier2
    if newTier2 = [] then pure (s, l, false)
    else pure (s, { l with aiFeedback := buildAiFeedback newTier2 }, true)
  else pure (s, l, false)

/-- The end of a pass in which the AI was asked. -/
def askedEnd (batch : Batch) (result : Engine × LoopVars × Bool) : PassEnd :=
  if result.2.2 then .again result.1 result.2.1
  else passVerdict cfg opts batch.tier1 batch.tier2 batch.stalled result.1 result.2.1

inductive LoopStep : LoopPoint → LoopPoint → Prop
  | repeated (passNumber : Nat) (s t : Engine) (l m : LoopVars)
      (within : passNumber ≤ cfg.maxPasses)
      (run : phaseA cfg opts passNumber s { l with passes := passNumber } =
        .ok (.pass (.again t m))) :
      LoopStep (.top passNumber s l) (.top (passNumber + 1) t m)
  | ask (passNumber : Nat) (s t : Engine) (l m : LoopVars) (batch : Batch)
      (within : passNumber ≤ cfg.maxPasses)
      (run : phaseA cfg opts passNumber s { l with passes := passNumber } =
        .ok (.proceed t m batch.tier1 batch.tier2 batch.stalled))
      (asks : Asks cfg opts t m batch) :
      LoopStep (.top passNumber s l) (.asking passNumber t m batch)
  | skip (passNumber : Nat) (s t u : Engine) (l m n : LoopVars) (tier1 tier2 : List Violation)
      (stalled : Bool) (within : passNumber ≤ cfg.maxPasses)
      (run : phaseA cfg opts passNumber s { l with passes := passNumber } =
        .ok (.proceed t m tier1 tier2 stalled))
      (silent : ∀ provider, ¬Asks cfg opts t m { provider, tier1, tier2, stalled })
      (next : passVerdict cfg opts tier1 tier2 stalled t m = .again u n) :
      LoopStep (.top passNumber s l) (.top (passNumber + 1) u n)
  | answer (passNumber : Nat) (s t : Engine) (l : LoopVars) (batch : Batch) (changed : Bool)
      (run : aiRound cfg batch.provider batch.tier2 passNumber l s = .ok (t, changed)) :
      LoopStep (.asking passNumber s l batch)
        (.answered passNumber t { l with aiAttempts := l.aiAttempts + 1 } batch changed)
  | next (passNumber : Nat) (s u : Engine) (l n : LoopVars) (batch : Batch) (changed : Bool)
      (result : Engine × LoopVars × Bool)
      (run : afterAi cfg opts passNumber l s changed = .ok result)
      (again : askedEnd cfg opts batch result = .again u n) :
      LoopStep (.answered passNumber s l batch changed) (.top (passNumber + 1) u n)

def Reaches : LoopPoint → LoopPoint → Prop := Relation.ReflTransGen (LoopStep cfg opts)

def startPoint (g : ContentGraph) (initial : Option (List Violation)) : LoopPoint :=
  .top 1 (startRun cfg g initial) {}

end Steps

section Unfolding

variable {cfg : EngineConfig} {opts : RemediateOptions}

section

variable (batch : Batch) (pass : Nat) (s : Engine) (l : LoopVars)

theorem phaseB_eq :
    phaseB cfg opts batch.provider batch.tier2 pass s l =
      aiRound cfg batch.provider batch.tier2 pass l s >>= fun r =>
        afterAi cfg opts pass { l with aiAttempts := l.aiAttempts + 1 } r.1 r.2 := rfl

theorem finishPass_asks (ha : Asks cfg opts s l batch) :
    finishPass cfg opts pass (.proceed s l batch.tier1 batch.tier2 batch.stalled) =
      aiRound cfg batch.provider batch.tier2 pass l s >>= fun r =>
        afterAi cfg opts pass { l with aiAttempts := l.aiAttempts + 1 } r.1 r.2 >>= fun r =>
          pure (askedEnd cfg opts batch r) := by
  obtain ⟨hp, hg⟩ := ha
  simp only [finishPass, hp]
  rw [if_pos hg, phaseB_eq]
  cases aiRound cfg batch.provider batch.tier2 pass l s with
  | error failed => rfl
  | ok middle =>
    change (afterAi cfg opts pass { l with aiAttempts := l.aiAttempts + 1 } middle.1
      middle.2 >>= _) = (afterAi cfg opts pass { l with aiAttempts := l.aiAttempts + 1 }
      middle.1 middle.2 >>= _)
    congr 1
    funext result
    unfold askedEnd
    split <;> rfl

end

theorem finishPass_skips (pass : Nat) (s : Engine) (l : LoopVars) {tier1 tier2 : List Violation}
    {stalled : Bool} (hs : ∀ provider, ¬Asks cfg opts s l { provider, tier1, tier2, stalled }) :
    finishPass cfg opts pass (.proceed s l tier1 tier2 stalled) =
      .ok (passVerdict cfg opts tier1 tier2 stalled s l) := by
  simp only [finishPass]
  split
  next provider run => rw [if_neg fun hg => hs provider ⟨run, hg⟩]
  next => rfl

theorem passVerdict_again {tier1 tier2 : List Violation} {stalled : Bool} {s t : Engine}
    {l m : LoopVars} (hn : passVerdict cfg opts tier1 tier2 stalled s l = .again t m) :
    t = s ∧ m = l := by
  simp only [passVerdict] at hn
  split at hn
  · cases hn
  · split at hn
    · cases hn
    · cases hn
      exact ⟨rfl, rfl⟩

theorem askedEnd_again {batch : Batch} {res : Engine × LoopVars × Bool} {t : Engine} {m : LoopVars}
    (ha : askedEnd cfg opts batch res = .again t m) : t = res.1 ∧ m = res.2.1 := by
  unfold askedEnd at ha
  split at ha
  · cases ha
    exact ⟨rfl, rfl⟩
  · exact passVerdict_again ha

theorem askedEnd_state (cfg : EngineConfig) (opts : RemediateOptions) (batch : Batch)
    (res : Engine × LoopVars × Bool) : (askedEnd cfg opts batch res).state = res.1 := by
  unfold askedEnd
  split
  · rfl
  · exact RunInvariant.passVerdict_state _ _ _ _ _

theorem Tier1Invariant.afterAi_good {hg aborted : Engine → Prop}
    (inv : Tier1Invariant cfg opts hg aborted) (pass : Nat) (l : LoopVars) (s : Engine)
    (changed : Bool) (hh : hg s) :
    Holds (fun r => hg r.1) aborted (afterAi cfg opts pass l s changed) := by
  unfold afterAi
  split
  · refine bind (inv.phaseC_good pass hh) fun cleaned hg => ?_
    dsimp only
    split
    · exact hg
    · exact hg
  · exact hh

end Unfolding

section Requests

variable {cfg : EngineConfig} {opts : RemediateOptions}

section

variable {allowed : EngineEvent → Prop}
  (others : ∀ event, (∀ ctx, event ≠ .aiRequest ctx) → allowed event)

include others

theorem Adds.rescan {s t : Engine} (hf : Adds allowed s t) (pass : Nat) (fixedBy : FixedBy)
    (status : Status) :
    Holds (Adds allowed s) (Adds allowed s) (rescanAndCollect cfg pass fixedBy status t) := by
  refine rescanAndCollect_runs cfg pass fixedBy status t hf fun _ _ _ _ hr => ?_
  have ha := hr.adds (fun _ _ => others _ (by simp)) fun _ => False.elim
  exact (hf.trans ha).log (others _ (by simp))

theorem Adds.tier1Rounds (s : Engine) :
    Tier1Invariant cfg opts (Adds allowed s) (Adds allowed s) where
  tier1 tier1 pass t _ soFar := by
    have ha : ∀ u, Runs (Tier1Op tier1) t u → Adds allowed s u := by
      intro u runs
      refine soFar.trans (runs.adds (fun _ _ => others _ (by simp)) fun event hp => ?_)
      refine others event fun ctx hr => ?_
      rw [hr] at hp
      exact hp
    exact (applyTier1_runs cfg tier1 pass t).mono (fun r runs => ha r.1 runs) ha
  rescan pass _ soFar := soFar.rescan others pass .deterministic (resolveStatus opts)

end

theorem LoopPoint.allows_others (p : LoopPoint) (event : EngineEvent)
    (ho : ∀ ctx, event ≠ .aiRequest ctx) : p.Allows event :=
  fun ctx hs => absurd hs (ho ctx)

theorem phaseA_adds (cfg : EngineConfig) (opts : RemediateOptions) (p : LoopPoint)
    (pass : Nat) (s : Engine) (l : LoopVars) :
    Holds (PhaseAEnd.Good (Adds p.Allows s)) (Adds p.Allows s) (phaseA cfg opts pass s l) :=
  (Adds.tier1Rounds p.allows_others s).phaseA_good pass s l (Adds.refl s)

theorem aiRound_adds (cfg : EngineConfig) (pass : Nat) (s : Engine) (l : LoopVars) (batch : Batch) :
    Holds (fun r => Adds (LoopPoint.asking pass s l batch).Allows s r.1)
      (Adds (LoopPoint.asking pass s l batch).Allows s)
      (aiRound cfg batch.provider batch.tier2 pass l s) := by
  have ho := (LoopPoint.asking pass s l batch).allows_others
  refine aiRound_good cfg ?_ fun _ hf =>
    hf.rescan ho pass .ai .proposed
  refine (applyAiTransforms_runs ..).adds (fun _ _ => ho _ (by simp)) fun _ hs ctx hr => ?_
  rw [hr] at hs
  exact hs

theorem afterAi_adds (cfg : EngineConfig) (opts : RemediateOptions) (p : LoopPoint)
    (pass : Nat) (l : LoopVars) (s : Engine) (changed : Bool) :
    Holds (fun r => Adds p.Allows s r.1) (Adds p.Allows s) (afterAi cfg opts pass l s changed) :=
  (Adds.tier1Rounds p.allows_others s).afterAi_good pass l s changed (Adds.refl s)

variable {p q : LoopPoint}

theorem LoopStep.adds (step : LoopStep cfg opts p q) : Adds p.Allows p.state q.state := by
  cases step with
  | repeated pass s t l m within run =>
    have ha := phaseA_adds cfg opts (.top pass s l) pass s { l with passes := pass }
    rw [run] at ha
    exact ha
  | ask pass s t l m batch within run asks =>
    have ha := phaseA_adds cfg opts (.top pass s l) pass s { l with passes := pass }
    rw [run] at ha
    exact ha.1
  | skip pass s t u l m n tier1 tier2 stalled within run silent next =>
    have ha := phaseA_adds cfg opts (.top pass s l) pass s { l with passes := pass }
    rw [run] at ha
    rw [(passVerdict_again next).1]
    exact ha.1
  | answer pass s t l batch changed run =>
    have ha := aiRound_adds cfg pass s l batch
    rw [run] at ha
    exact ha
  | next pass s u l n batch changed res run again =>
    have ha := afterAi_adds cfg opts (.answered pass s l batch changed) pass l s changed
    rw [run] at ha
    rw [(askedEnd_again again).1]
    exact ha

section

variable (reaches : Reaches cfg opts p q)
include reaches

theorem Reaches.isPrefix : p.state.events <+: q.state.events := by
  induction reaches with
  | refl => exact List.prefix_refl _
  | tail _ hs ih => exact ih.trans hs.adds.isPrefix

theorem Reaches.requests {ctx : AINodeContext} (hm : .aiRequest ctx ∈ q.state.events) :
    .aiRequest ctx ∈ p.state.events ∨
      ∃ a, Reaches cfg opts p a ∧ Reaches cfg opts a q ∧ a.Sends ctx := by
  induction reaches with
  | refl => exact .inl hm
  | tail hb step ih =>
    rcases step.adds.mem hm with hea | sent
    · rcases ih hea with hs | ⟨a, he, hl, hse⟩
      · exact .inl hs
      · exact .inr ⟨a, he, hl.tail step, hse⟩
    · exact .inr ⟨_, hb, single step, sent ctx rfl⟩

/-- A run ends after a point it reaches, within the rounds that follow it. -/
def EndsAfter (cfg : EngineConfig) (opts : RemediateOptions) (p : LoopPoint) (t : Engine) : Prop :=
  ∃ q, Reaches cfg opts p q ∧ Adds q.Allows q.state t

theorem EndsAfter.of_reaches {t : Engine} (he : EndsAfter cfg opts q t) : EndsAfter cfg opts p t := by
  obtain ⟨last, hl, ha⟩ := he
  exact ⟨last, reaches.trans hl, ha⟩

end

/-- A pass leads to the top of the next one or ends the run. -/
def LandsAfter (cfg : EngineConfig) (opts : RemediateOptions) (p : LoopPoint) (passNumber : Nat) :
    PassEnd → Prop
  | .again t m => Reaches cfg opts p (.top (passNumber + 1) t m)
  | .stop t _ => EndsAfter cfg opts p t

theorem asking_lands (pass : Nat) (s : Engine) (l : LoopVars) (batch : Batch)
    (asks : Asks cfg opts s l batch) :
    Holds (LandsAfter cfg opts (.asking pass s l batch) pass)
      (EndsAfter cfg opts (.asking pass s l batch))
      (finishPass cfg opts pass (.proceed s l batch.tier1 batch.tier2 batch.stalled)) := by
  rw [finishPass_asks batch pass s l asks]
  have has := aiRound_adds cfg pass s l batch
  cases run : aiRound cfg batch.provider batch.tier2 pass l s with
  | error failed =>
    rw [run] at has
    exact ⟨_, refl, has⟩
  | ok middle =>
    obtain ⟨t, changed⟩ := middle
    let m : LoopVars := { l with aiAttempts := l.aiAttempts + 1 }
    have ha : LoopStep cfg opts (.asking pass s l batch)
        (.answered pass t m batch changed) := .answer pass s t l batch changed run
    have haf := afterAi_adds cfg opts (.answered pass t m batch changed) pass m t changed
    change Holds _ _ (afterAi cfg opts pass m t changed >>= fun r =>
      pure (askedEnd cfg opts batch r))
    cases rest : afterAi cfg opts pass m t changed with
    | error failed =>
      rw [rest] at haf
      exact ⟨_, single ha, haf⟩
    | ok res =>
      rw [rest] at haf
      change LandsAfter cfg opts _ pass (askedEnd cfg opts batch res)
      cases fin : askedEnd cfg opts batch res with
      | again u n =>
        have last := LoopStep.next pass t u m n batch changed res rest fin
        exact head ha (single last)
      | stop u n =>
        have hs := askedEnd_state cfg opts batch res
        rw [fin] at hs
        change u = res.1 at hs
        subst hs
        exact ⟨_, single ha, haf⟩

theorem passStep_lands (passNumber : Nat) (hw : passNumber ≤ cfg.maxPasses) (s : Engine)
    (l : LoopVars) :
    Holds (LandsAfter cfg opts (.top passNumber s l) passNumber)
      (EndsAfter cfg opts (.top passNumber s l)) (passStep cfg opts passNumber s l) := by
  have ha := phaseA_adds cfg opts (.top passNumber s l) passNumber s { l with passes := passNumber }
  unfold passStep
  cases run : phaseA cfg opts passNumber s { l with passes := passNumber } with
  | error failed =>
    rw [run] at ha
    exact ⟨_, refl, ha⟩
  | ok middle =>
    rw [run] at ha
    change Holds _ _ (finishPass cfg opts passNumber middle)
    cases middle with
    | pass fin =>
      cases fin with
      | again t m =>
        exact single (.repeated passNumber s t l m hw run)
      | stop t m => exact ⟨_, refl, ha⟩
    | proceed t m tier1 tier2 stalled =>
      by_cases has : ∃ provider, Asks cfg opts t m { provider, tier1, tier2, stalled }
      · obtain ⟨provider, asks⟩ := has
        have ask := LoopStep.ask passNumber s t l m { provider, tier1, tier2, stalled } hw run asks
        refine (asking_lands passNumber t m _ asks).mono ?_ fun _ he =>
          he.of_reaches (single ask)
        intro fin hl
        cases fin with
        | again u n => exact head ask hl
        | stop u n => exact EndsAfter.of_reaches (single ask) hl
      · have hsi := not_exists.mp has
        rw [finishPass_skips passNumber t m hsi]
        change LandsAfter cfg opts _ passNumber (passVerdict cfg opts tier1 tier2 stalled t m)
        have hs : (passVerdict cfg opts tier1 tier2 stalled t m).state = t :=
          RunInvariant.passVerdict_state tier1 tier2 stalled t m
        cases fin : passVerdict cfg opts tier1 tier2 stalled t m with
        | again u n =>
          exact single (.skip passNumber s t u l m n tier1 tier2 stalled hw run hsi fin)
        | stop u n =>
          rw [fin] at hs
          change u = t at hs
          subst hs
          exact ⟨_, refl, ha.1⟩

theorem runPasses_ends (rem pass : Nat)
    (ht : pass + rem = cfg.maxPasses + 1) (s : Engine) (l : LoopVars) :
    Holds (fun r => EndsAfter cfg opts (.top pass s l) r.1)
      (EndsAfter cfg opts (.top pass s l))
      (runPasses cfg opts rem pass s l) := by
  induction rem generalizing pass s l with
  | zero => exact ⟨_, refl, Adds.refl s⟩
  | succ rem ih =>
    rw [runPasses]
    refine bind (passStep_lands pass (by omega) s l) fun fin hl => ?_
    cases fin with
    | again t m =>
      exact (ih (pass + 1) (by omega) t m).mono (fun _ he => he.of_reaches hl)
        fun _ he => he.of_reaches hl
    | stop t m => exact hl

/-- A request of a run is sent at a point of the run. -/
def SentBefore (cfg : EngineConfig) (opts : RemediateOptions) (start : LoopPoint) (t : Engine)
    (context : AINodeContext) : Prop :=
  ∃ p, Reaches cfg opts start p ∧ p.Sends context ∧ p.state.events <+: t.events

theorem EndsAfter.requests {p : LoopPoint} {t : Engine} (ends : EndsAfter cfg opts p t)
    {ctx : AINodeContext} (hm : .aiRequest ctx ∈ t.events) :
    .aiRequest ctx ∈ p.state.events ∨ SentBefore cfg opts p t ctx := by
  obtain ⟨last, hr, ha⟩ := ends
  rcases ha.mem hm with hea | sent
  · rcases hr.requests hea with has | ⟨a, he, hl, hs⟩
    · exact .inl has
    · exact .inr ⟨a, he, hs, hl.isPrefix.trans ha.isPrefix⟩
  · exact .inr ⟨last, hr, sent ctx rfl, ha.isPrefix⟩

theorem events_autoApprove (opts : RemediateOptions) (s : Engine) :
    (autoApprove opts s).events = s.events := by
  unfold autoApprove
  split <;> rfl

theorem startRun_requests (g : ContentGraph) (init : Option (List Violation))
    (ctx : AINodeContext) : .aiRequest ctx ∉ (startRun cfg g init).events := by
  intro hm
  have hr := recordViolations_runs { graph := g } (initialViolations cfg g init) 0 .scanned []
  have ha : Adds (fun event => event ≠ .aiRequest ctx) _ _ := hr.adds (by simp) fun _ => False.elim
  rcases ha.mem hm with hs | o
  · cases hs
  · exact o rfl

theorem remediate_requests (g : ContentGraph) (init : Option (List Violation)) :
    Holds
      (fun r => ∀ ctx, .aiRequest ctx ∈ r.1.events →
        SentBefore cfg opts (startPoint cfg g init) r.1 ctx)
      (fun t => ∀ ctx, .aiRequest ctx ∈ t.events →
        SentBefore cfg opts (startPoint cfg g init) t ctx)
      (remediate cfg opts g init) := by
  have he : ∀ t, EndsAfter cfg opts (startPoint cfg g init) t → ∀ ctx,
      .aiRequest ctx ∈ t.events → SentBefore cfg opts (startPoint cfg g init) t ctx := by
    intro t ends ctx mem
    exact (ends.requests mem).resolve_left (startRun_requests g init ctx)
  refine bind ((runPasses_ends cfg.maxPasses 1 (by omega) _ {}).mono (fun r ends => ends)
    he) fun r ends => ?_
  intro ctx mem
  have hs := events_autoApprove opts r.1
  obtain ⟨p, hr, hse, hea⟩ := he r.1 ends ctx (hs ▸ mem)
  exact ⟨p, hr, hse, hs.symm ▸ hea⟩

end Requests

section Points

variable {cfg : EngineConfig} {opts : RemediateOptions} {good aborted : Engine → Prop}

/-- `good` at a point of the loop; when the AI is asked, its candidates are
among the violations at hand. -/
def LoopPoint.Good (cfg : EngineConfig) (opts : RemediateOptions) (good : Engine → Prop) :
    LoopPoint → Prop
  | .asking _ s l batch =>
    good s ∧ Asks cfg opts s l batch ∧ ∀ v ∈ batch.tier2, v ∈ s.violations
  | p => good p.state

theorem LoopPoint.Good.state {p : LoopPoint} (hh : p.Good cfg opts good) : good p.state := by
  cases p with
  | top pass s l => exact hh
  | asking pass s l batch => exact hh.1
  | answered pass s l batch changed => exact hh

theorem LoopPoint.Good.of_state {p : LoopPoint} (hr : p.Good cfg opts fun _ => True)
    (hh : good p.state) : p.Good cfg opts good := by
  cases p with
  | top pass s l => exact hh
  | asking pass s l batch => exact ⟨hh, hr.2⟩
  | answered pass s l batch changed => exact hh

theorem RunInvariant.step_good (inv : RunInvariant cfg opts good aborted) {p q : LoopPoint}
    (step : LoopStep cfg opts p q) (holds : p.Good cfg opts good) : q.Good cfg opts good := by
  cases step with
  | repeated pass s t l m within run =>
    have hk := inv.toTier1Invariant.phaseA_good pass s { l with passes := pass } holds
    rw [run] at hk
    exact hk
  | ask pass s t l m batch within run ha =>
    have hk := inv.toTier1Invariant.phaseA_good pass s { l with passes := pass } holds
    rw [run] at hk
    exact ⟨hk.1, ha, hk.2⟩
  | skip pass s t u l m n tier1 tier2 stalled within run silent next =>
    have hk := inv.toTier1Invariant.phaseA_good pass s { l with passes := pass } holds
    rw [run] at hk
    rw [(passVerdict_again next).1]
    exact hk.1
  | answer pass s t l batch changed run =>
    obtain ⟨old, ha, known⟩ := holds
    have hk := inv.ai batch.provider batch.tier2 pass l s ha.1 known old
    rw [run] at hk
    exact hk
  | next pass s u l n batch changed res run again =>
    have hk := inv.toTier1Invariant.afterAi_good pass l s changed holds
    rw [run] at hk
    rw [(askedEnd_again again).1]
    exact hk

theorem RunInvariant.reaches_good (inv : RunInvariant cfg opts good aborted) {p q : LoopPoint}
    (reaches : Reaches cfg opts p q) (hh : p.Good cfg opts good) : q.Good cfg opts good := by
  induction reaches with
  | refl => exact hh
  | tail _ hs ih => exact inv.step_good hs ih

/-- Who can be an AI candidate: besides Tier 2, the findings of a Tier 1 round
that came to nothing. -/
def Askable (cfg : EngineConfig) (opts : RemediateOptions) (v : Violation) : Prop :=
  tierOf cfg.registry v = .ai ∨
    opts.skipTier1 = false ∧ tierOf cfg.registry v = .fixable ∧ isAiEscalatable v

def PhaseAEnd.Routed (cfg : EngineConfig) (opts : RemediateOptions) : PhaseAEnd → Prop
  | .pass _ => True
  | .proceed _ _ _ tier2 _ => ∀ v ∈ tier2, Askable cfg opts v

theorem askable_tier2 {vs : List Violation} (v : Violation)
    (mem : v ∈ (partitionViolations vs cfg.registry).tier2) : Askable cfg opts v :=
  .inl (by simpa using (List.mem_filter.mp mem).2)

theorem phaseA_routed (cfg : EngineConfig) (opts : RemediateOptions) (pass : Nat)
    (s : Engine) (l : LoopVars) :
    Holds (PhaseAEnd.Routed cfg opts) (fun _ => True) (phaseA cfg opts pass s l) := by
  simp only [phaseA]
  split
  · exact askable_tier2
  · split
    · split
      · trivial
      · exact askable_tier2
    next ha =>
      refine bind (any _) fun res _ => ?_
      split
      · split
        · trivial
        · intro v mem
          rcases List.mem_append.mp mem with hit | he
          · exact askable_tier2 v hit
          · obtain ⟨ht, hes⟩ := List.mem_filter.mp he
            exact .inr ⟨by simpa using ha, by simpa using (List.mem_filter.mp ht).2, hes⟩
      · refine bind (any _) fun collected _ => ?_
        rw [pure_iff]
        simp only [afterTier1Rescan]
        split
        · trivial
        · split
          · trivial
          · exact askable_tier2

theorem Reaches.askable {pass n : Nat} {s t : Engine} {l m : LoopVars} {batch : Batch}
    (reaches : Reaches cfg opts (.top pass s l) (.asking n t m batch)) :
    ∀ v ∈ batch.tier2, Askable cfg opts v := by
  cases reaches with
  | tail _ hs =>
    cases hs with
    | ask _ s' _ l' _ _ hw run ha =>
      have hr := phaseA_routed cfg opts n s' { l' with passes := n }
      rw [run] at hr
      exact hr

end Points

end Apme.Remediation
