import Apme.Remediation.Invariant

/-!
# The passes of a run

The ways Phase A of a pass can end, the states in which the passes of a run
start, and the way a run ends: with the pass that stops it, or after the last
pass it may make.
-/

set_option autoImplicit false

namespace Apme.Remediation

open Apme.Lib Apme.Graph

/-- The Tier 1 findings a pass goes on with. -/
def Engine.tier1 (cfg : EngineConfig) (s : Engine) : List Violation :=
  (partitionViolations s.violations cfg.registry).tier1

section PhaseA

variable (cfg : EngineConfig) (opts : RemediateOptions) (passNumber : Nat) (s : Engine)
  (l : LoopVars)

/-- The ways Phase A can end. -/
inductive PhaseACase : PhaseAEnd → Prop
  | nothing (tier2 : List Violation) (empty : s.tier1 cfg = []) :
      PhaseACase (.proceed s l [] tier2 false)
  | skippedStop (skip : opts.skipTier1) : PhaseACase (.pass (.stop s l))
  | skipped (skip : opts.skipTier1) (tier1 tier2 : List Violation) :
      PhaseACase (.proceed s l tier1 tier2 true)
  | stalledStop (t : Engine) (applied : applyTier1 cfg (s.tier1 cfg) passNumber s = .ok (t, 0)) :
      PhaseACase (.pass (.stop t l))
  | stalled (t : Engine) (applied : applyTier1 cfg (s.tier1 cfg) passNumber s = .ok (t, 0))
      (tier1 tier2 : List Violation) : PhaseACase (.proceed t l tier1 tier2 true)
  | oscillating (t u : Engine) (count prev : Nat) (findings : s.tier1 cfg ≠ [])
      (applied : applyTier1 cfg (s.tier1 cfg) passNumber s = .ok (t, count))
      (rescanned : rescanAndCollect cfg passNumber .deterministic (resolveStatus opts) t = .ok u)
      (known : l.prevCount = some prev) (notFewer : prev ≤ (u.tier1 cfg).length) :
      PhaseACase (.pass (.stop u { l with oscillation := true }))
  | repeated (t u : Engine) (count : Nat)
      (applied : applyTier1 cfg (s.tier1 cfg) passNumber s = .ok (t, count))
      (rescanned : rescanAndCollect cfg passNumber .deterministic (resolveStatus opts) t = .ok u) :
      PhaseACase (.pass (.again u { l with prevCount := some (u.tier1 cfg).length }))
  | cleared (t u : Engine) (count : Nat) (tier2 : List Violation)
      (applied : applyTier1 cfg (s.tier1 cfg) passNumber s = .ok (t, count))
      (rescanned : rescanAndCollect cfg passNumber .deterministic (resolveStatus opts) t = .ok u)
      (empty : u.tier1 cfg = []) :
      PhaseACase (.proceed u { l with prevCount := some 0 } [] tier2 false)

variable {cfg opts passNumber s l}

theorem notFewer_iff (prevCount : Option Nat) (count : Nat) :
    notFewer prevCount count ↔ ∃ prev, prevCount = some prev ∧ prev ≤ count := by
  cases prevCount with
  | none => simp [notFewer]
  | some prev => simp [notFewer]

theorem phaseA_cases {fin : PhaseAEnd} (run : phaseA cfg opts passNumber s l = .ok fin) :
    PhaseACase cfg opts passNumber s l fin := by
  unfold phaseA at run
  dsimp only at run
  split at run
  next he =>
    cases run
    exact .nothing _ he
  next hf =>
    split at run
    next hs =>
      split at run
      · cases run
        exact .skippedStop hs
      · cases run
        exact .skipped hs _ _
    next =>
      obtain ⟨⟨t, count⟩, ha, run⟩ := bind_eq_ok.mp run
      dsimp only at run
      split at run
      next none =>
        subst none
        split at run
        · cases run
          exact .stalledStop t ha
        · cases run
          exact .stalled t ha _ _
      next =>
        obtain ⟨u, hr, run⟩ := bind_eq_ok.mp run
        cases run
        unfold afterTier1Rescan
        dsimp only
        split
        next hst =>
          obtain ⟨prev, hk, hl⟩ := (notFewer_iff _ _).mp hst
          exact .oscillating t u count prev hf ha hr hk hl
        next =>
          split
          · exact .repeated t u count ha hr
          next hz =>
            have he : u.tier1 cfg = [] := List.length_eq_zero_iff.mp (Nat.eq_zero_of_not_pos hz)
            change PhaseACase cfg opts passNumber s l (.proceed u
              { l with prevCount := some (u.tier1 cfg).length } (u.tier1 cfg) _ false)
            rw [he]
            exact .cleared t u count _ ha hr he

end PhaseA

/-- Pass `n` of the run from `start` begins in the state with the loop's variables. -/
inductive PassStart (cfg : EngineConfig) (opts : RemediateOptions) (start : Engine) :
    Nat → Engine → LoopVars → Prop
  | first : PassStart cfg opts start 1 start {}
  | next (n : Nat) (s t : Engine) (l m : LoopVars) (earlier : PassStart cfg opts start n s l)
      (within : n ≤ cfg.maxPasses) (run : passStep cfg opts n s l = .ok (.again t m)) :
      PassStart cfg opts start (n + 1) t m

section Passes

variable {cfg : EngineConfig} {opts : RemediateOptions}

def PassEnd.vars : PassEnd → LoopVars
  | .again _ l => l
  | .stop _ l => l

theorem passVerdict_vars (cfg : EngineConfig) (opts : RemediateOptions)
    (tier1 tier2 : List Violation) (stalled : Bool) (s : Engine) (l : LoopVars) :
    (passVerdict cfg opts tier1 tier2 stalled s l).vars = l := by
  unfold passVerdict
  dsimp only
  split
  · rfl
  · split <;> rfl

/-- Phases B and C leave what Phase A keeps of its rounds as it is. -/
def LoopVars.SameRounds (l m : LoopVars) : Prop :=
  m.passes = l.passes ∧ m.prevCount = l.prevCount ∧ m.oscillation = l.oscillation

theorem phaseB_vars (prov : AIProvider) (tier2 : List Violation) (pass : Nat)
    (s : Engine) (l : LoopVars) :
    Holds (fun r => l.SameRounds r.2.1) (fun _ => True) (phaseB cfg opts prov tier2 pass s l) := by
  unfold phaseB
  refine Holds.bind (Holds.any _) fun middle _ => ?_
  dsimp only
  split
  · refine Holds.bind (Holds.any _) fun cleaned _ => ?_
    split
    · exact ⟨rfl, rfl, rfl⟩
    · exact ⟨rfl, rfl, rfl⟩
  · exact ⟨rfl, rfl, rfl⟩

theorem finishPass_vars (cfg : EngineConfig) (opts : RemediateOptions) (pass : Nat)
    (s : Engine) (l : LoopVars) (tier1 tier2 : List Violation) (stalled : Bool) :
    Holds (fun fin => l.SameRounds fin.vars) (fun _ => True)
      (finishPass cfg opts pass (.proceed s l tier1 tier2 stalled)) := by
  have vd : ∀ t m, l.SameRounds m →
      l.SameRounds (passVerdict cfg opts tier1 tier2 stalled t m).vars := by
    intro t m hs
    rw [passVerdict_vars]
    exact hs
  unfold finishPass
  dsimp only
  split
  · split
    · refine Holds.bind (phaseB_vars _ tier2 pass s l) fun res hs => ?_
      split
      · exact hs
      · exact vd _ _ hs
    · exact vd s l ⟨rfl, rfl, rfl⟩
  · exact vd s l ⟨rfl, rfl, rfl⟩

variable {passNumber : Nat} {l : LoopVars} {s : Engine}

theorem passStep_cases {fin : PassEnd} (run : passStep cfg opts passNumber s l = .ok fin) :
    PhaseACase cfg opts passNumber s { l with passes := passNumber } (.pass fin) ∨
      ∃ t m tier1 tier2 stalled,
        PhaseACase cfg opts passNumber s { l with passes := passNumber }
            (.proceed t m tier1 tier2 stalled) ∧
          finishPass cfg opts passNumber (.proceed t m tier1 tier2 stalled) = .ok fin := by
  obtain ⟨middle, hp, rest⟩ := bind_eq_ok.mp run
  cases middle with
  | pass ended =>
    cases rest
    exact .inl (phaseA_cases hp)
  | proceed t m tier1 tier2 stalled =>
    exact .inr ⟨t, m, tier1, tier2, stalled, phaseA_cases hp, rest⟩

/-- Phase A leaves the number of the pass as it is. -/
def PhaseAEnd.vars : PhaseAEnd → LoopVars
  | .pass fin => fin.vars
  | .proceed _ l _ _ _ => l

theorem PhaseACase.passes {fin : PhaseAEnd}
    (hp : PhaseACase cfg opts passNumber s l fin) : fin.vars.passes = l.passes := by
  cases hp <;> rfl

theorem passStep_passes {fin : PassEnd}
    (run : passStep cfg opts passNumber s l = .ok fin) : fin.vars.passes = passNumber := by
  rcases passStep_cases run with hp | ⟨t, m, ti, t₁, st, hp, rest⟩
  · exact hp.passes
  · have hs := finishPass_vars cfg opts passNumber t m ti t₁ st
    rw [rest] at hs
    exact hs.1.trans hp.passes

theorem runPasses_last (start : Engine) (rem n : Nat) (s t : Engine) (l m : LoopVars)
    (ht : n + rem = cfg.maxPasses + 1) (hs : PassStart cfg opts start n s l)
    (hc : l.passes + 1 = n) (run : runPasses cfg opts rem n s l = .ok (t, m)) :
    m.passes = cfg.maxPasses ∨
      ∃ s l, PassStart cfg opts start m.passes s l ∧
        passStep cfg opts m.passes s l = .ok (.stop t m) := by
  induction rem generalizing n s l with
  | zero =>
    cases run
    exact .inl (by omega)
  | succ rem ih =>
    rw [runPasses] at run
    obtain ⟨fin, step, rest⟩ := bind_eq_ok.mp run
    have hn := passStep_passes step
    cases fin with
    | again u k =>
      refine ih (n + 1) u k (by omega) (.next n s u l k hs (by omega) step) ?_ rest
      exact congrArg Nat.succ hn
    | stop u k =>
      cases rest
      change m.passes = n at hn
      subst hn
      exact .inr ⟨s, l, hs, step⟩

end Passes

end Apme.Remediation
