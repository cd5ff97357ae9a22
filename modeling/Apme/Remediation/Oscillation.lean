import Apme.Remediation.Passes

/-!
# Oscillation

A run stops with the oscillation flag when a Tier 1 round leaves no fewer
Tier 1 findings than the last one did.  The count it compares with is kept from
an earlier pass, and neither an AI edit nor the cleanup after it brings it up to
date.  As long as no pass starts with more Tier 1 findings than that count, the
flag means what it says.
-/

set_option autoImplicit false

namespace Apme.Remediation

open Apme.Lib Apme.Graph

section Flag

variable (cfg : EngineConfig)

/-- The Tier 1 findings open in the ledger. -/
def openTier1 (g : ContentGraph) : List Violation :=
  (partitionViolations g.collectViolations cfg.registry).tier1

/-- The count kept from the last Tier 1 rescan covers what the pass starts with. -/
def CountCovers (s : Engine) (l : LoopVars) : Prop :=
  ∀ prev, l.prevCount = some prev → (s.tier1 cfg).length ≤ prev

variable {cfg} {opts : RemediateOptions}

variable {passNumber : Nat} {fixedBy : FixedBy} {status : Status} {s t : Engine}

section

variable (run : rescanAndCollect cfg passNumber fixedBy status s = .ok t)
include run

theorem rescanAndCollect_collected : t.violations = t.graph.collectViolations := by
  unfold rescanAndCollect at run
  cases hk : rescanAndRecord cfg passNumber fixedBy status s with
  | error failed =>
    rw [hk] at run
    cases run
  | ok u =>
    rw [hk] at run
    cases run
    rfl

theorem rescanAndCollect_tier1 : t.tier1 cfg = openTier1 cfg t.graph := by
  unfold Engine.tier1 openTier1
  rw [rescanAndCollect_collected run]

end

variable {l m : LoopVars} {tier1 tier2 : List Violation} {stalled : Bool}

theorem PhaseACase.unflagged
    (hp : PhaseACase cfg opts passNumber s l (.proceed t m tier1 tier2 stalled)) :
    m.oscillation = l.oscillation := by
  cases hp <;> rfl

theorem PhaseACase.again_unflagged (hp : PhaseACase cfg opts passNumber s l (.pass (.again t m)))
    : m.oscillation = l.oscillation := by
  cases hp
  rfl

theorem finishPass_unflagged {fin : PassEnd}
    (rest : finishPass cfg opts passNumber (.proceed s l tier1 tier2 stalled) = .ok fin) :
    fin.vars.oscillation = l.oscillation := by
  have hs := finishPass_vars cfg opts passNumber s l tier1 tier2 stalled
  rw [rest] at hs
  exact hs.2.2

variable {start : Engine} {n : Nat}

theorem PassStart.unflagged (hst : PassStart cfg opts start n s l) : l.oscillation = false := by
  induction hst with
  | first => rfl
  | next n s t l m he hw run ih =>
    rcases passStep_cases run with hp | ⟨u, k, ti, t₁, s₁, hp, rest⟩
    · exact hp.again_unflagged.trans ih
    · exact (finishPass_unflagged rest).trans (hp.unflagged.trans ih)

/-- A pass that ends the run as oscillating has rescanned after its Tier 1 round
and found at least the count kept from before. -/
theorem PassStart.flagged (hst : PassStart cfg opts start n s l)
    (run : passStep cfg opts n s l = .ok (.stop t m)) (hf : m.oscillation) :
    s.tier1 cfg ≠ [] ∧ t.tier1 cfg = openTier1 cfg t.graph ∧
      ∃ prev, l.prevCount = some prev ∧ prev ≤ (t.tier1 cfg).length := by
  have hu := hst.unflagged
  rcases passStep_cases run with hp | ⟨u, k, ti, t₁, s₁, hp, rest⟩
  · cases hp with
    | skippedStop skip =>
      change l.oscillation at hf
      rw [hu] at hf
      cases hf
    | stalledStop _ ha =>
      change l.oscillation at hf
      rw [hu] at hf
      cases hf
    | oscillating u _ count prev hfi ha hag hk hnf =>
      exact ⟨hfi, rescanAndCollect_tier1 hag, prev, hk, hnf⟩
  · have kept := (finishPass_unflagged rest).trans (hp.unflagged.trans hu)
    change m.oscillation = false at kept
    rw [kept] at hf
    cases hf

end Flag

section Runs

variable {cfg : EngineConfig} {opts : RemediateOptions}

/-- A pass that starts with no more Tier 1 findings than the count kept from the
last Tier 1 rescan ends as oscillating only when its Tier 1 round left no fewer
open than it started with, and never when the round left none. -/
theorem oscillation_without_progress (cfg : EngineConfig) (opts : RemediateOptions)
    (g : ContentGraph) (initial : Option (List Violation)) (n : Nat) (s t : Engine) (l m : LoopVars)
    (started : PassStart cfg opts (startRun cfg g initial) n s l) (covers : CountCovers cfg s l)
    (run : passStep cfg opts n s l = .ok (.stop t m)) (flag : m.oscillation) :
    (s.tier1 cfg).length ≤ (openTier1 cfg t.graph).length ∧ openTier1 cfg t.graph ≠ [] := by
  obtain ⟨findings, collected, prev, known, notFewer⟩ := started.flagged run flag
  have covered := covers prev known
  rw [collected] at notFewer
  have some : 0 < (s.tier1 cfg).length := List.length_pos_iff.mpr findings
  exact ⟨covered.trans notFewer, List.length_pos_iff.mp (by omega)⟩

variable {passNumber : Nat} {s t : Engine} {l m : LoopVars}

theorem PhaseACase.covers
    {tier1 tier2 : List Violation} {stalled : Bool} (old : CountCovers cfg s l)
    (hp : PhaseACase cfg opts passNumber s l (.proceed t m tier1 tier2 stalled)) :
    CountCovers cfg t m := by
  have applied_covers : ∀ {u : Engine} {count : Nat},
      applyTier1 cfg (s.tier1 cfg) passNumber s = .ok (u, count) → CountCovers cfg u l := by
    intro u count ha prev hk
    have hr := applyTier1_runs cfg (s.tier1 cfg) passNumber s
    rw [ha] at hr
    unfold Engine.tier1
    rw [hr.violations]
    exact old prev hk
  cases hp with
  | nothing _ he => exact old
  | skipped hs _ _ => exact old
  | stalled _ ha _ _ => exact applied_covers ha
  | cleared u _ count _ ha hag he =>
    intro prev hk
    cases hk
    rw [he]
    exact Nat.le_refl 0

theorem PhaseACase.again_covers
    (hp : PhaseACase cfg opts passNumber s l (.pass (.again t m))) : CountCovers cfg t m := by
  cases hp
  intro prev hk
  cases hk
  exact Nat.le_refl _

/-- It is the AI's edits that outrun the count: without a provider every pass
starts covered. -/
theorem PassStart.covers_without_ai {start : Engine} {n : Nat}
    (hd : runAi cfg opts = none) (hsa : PassStart cfg opts start n s l) :
    CountCovers cfg s l := by
  induction hsa with
  | first =>
    intro prev hk
    cases hk
  | next n s t l m he hw run ih =>
    have hr : CountCovers cfg s { l with passes := n } := ih
    rcases passStep_cases run with hp | ⟨u, k, ti, t₁, s₁, hp, rest⟩
    · exact hp.again_covers
    · simp only [finishPass, hd, Except.ok.injEq] at rest
      have hst : (passVerdict cfg opts ti t₁ s₁ u k).state = u :=
        RunInvariant.passVerdict_state ti t₁ s₁ u k
      have hv := passVerdict_vars cfg opts ti t₁ s₁ u k
      rw [rest] at hst hv
      cases hst
      cases hv
      exact hp.covers hr

end Runs

def tabbedTaskId : String := "site.yml/plays[0]/tasks[0]"

def tabbedTaskGraph : ContentGraph :=
  { nodes := Dict.ofList
      [(tabbedTaskId,
        { nodeType := .task, filePath := "site.yml", lineStart := 2, lineEnd := 2
          yamlLines := "- shell: \"ls\\t-l\"\n".toList })] }

def tabFinding : Violation := { ruleId := "L040", path := tabbedTaskId, file := "site.yml" }

def shellUseFinding : Violation := { ruleId := "L030", path := tabbedTaskId, file := "site.yml" }

/-- The first tab of a double-quoted scalar, written as an escape, becomes a blank. -/
def blankForTab : Text → Option Text
  | '\\' :: 't' :: rest => some (' ' :: rest)
  | c :: rest => (blankForTab rest).map (c :: ·)
  | [] => none

def replaceTab : NodeTransform := fun text _ =>
  match blankForTab text with
  | none => .notApplied
  | some dumped => .dumped dumped

/-- A scan finds tabs in the task, and always the use of a shell. -/
def findTabs (g : ContentGraph) : List Violation :=
  match g.getNode tabbedTaskId with
  | none => []
  | some node =>
    if (blankForTab node.yamlLines).isSome then [tabFinding, shellUseFinding]
    else [shellUseFinding]

/-- The AI's rewriting of the task comes with two tabs. -/
def tabbingConfig : EngineConfig :=
  { registry := fun ruleId => if ruleId = "L040" then some replaceTab else none
    rescanFn := some fun _ g _ => some (findTabs g)
    aiProvider := some fun _ _ => .fix { fixedSnippet := "- shell: \"ls\\t-l\\t-a\"\n".toList } }

/-- The first pass clears its one tab and counts none.  The AI's text brings two,
of which the cleanup takes one, so the second pass starts with a finding.  It
fixes it, which leaves none, and none is not fewer than none: the run ends as
oscillating with one of its two AI attempts left. -/
theorem lastTab_oscillates :
    ∃ s t l m,
      PassStart tabbingConfig {} (startRun tabbingConfig tabbedTaskGraph
          (some [tabFinding, shellUseFinding])) 2 s l ∧
        passStep tabbingConfig {} 2 s l = .ok (.stop t m) ∧ m.oscillation ∧
        m.aiAttempts < tabbingConfig.maxAiAttempts ∧
        (s.tier1 tabbingConfig).length = 1 ∧ openTier1 tabbingConfig t.graph = [] :=
  ⟨_, _, _, _, .next 1 _ _ _ _ .first (by decide) rfl, rfl, rfl, by decide, by decide, by decide⟩

/-- The transform of a rule whose finding it does not clear. -/
def restlessConfig : EngineConfig :=
  { registry := fun ruleId =>
      if ruleId = "L040" then some fun text _ => .dumped (' ' :: text) else none
    rescanFn := some fun _ _ _ => some [tabFinding] }

theorem restless_oscillates :
    ∃ s t l m,
      CountCovers restlessConfig s l ∧ passStep restlessConfig {} 2 s l = .ok (.stop t m) ∧
        m.oscillation ∧
        (s.tier1 restlessConfig).length ≤ (openTier1 restlessConfig t.graph).length ∧
        openTier1 restlessConfig t.graph ≠ [] := by
  have second : PassStart restlessConfig {}
      (startRun restlessConfig tabbedTaskGraph (some [tabFinding])) 2 _ _ :=
    .next 1 _ _ _ _ .first (by decide) rfl
  have covers := second.covers_without_ai rfl
  exact ⟨_, _, _, _, covers, rfl, rfl, oscillation_without_progress restlessConfig {}
    tabbedTaskGraph (some [tabFinding]) 2 _ _ _ _ second covers rfl rfl⟩

end Apme.Remediation
