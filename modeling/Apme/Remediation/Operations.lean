import Apme.Remediation.Loop

/-!
# The operations of a round

A round changes the engine by single operations: snapshots, new texts, changes
of the ledger, events and notes.  `Runs may s t` leads from `s` to `t` by
operations that `may` allows, and what each of these keeps is kept by the round.
-/

set_option autoImplicit false

namespace Apme.Remediation

open Apme.Lib Apme.Graph List Engine

inductive EngineOp
  | record (nodeId : String) (passNumber : Nat) (phase : Phase) (source : Source)
  | rewrite (nodeId : String) (text : Text)
  | register (v : Violation) (passNumber : Nat)
  | resolve (nodeId : String) (remaining : List String) (fixedBy : FixedBy) (passNumber : Nat)
      (status : Status)
  | abstain (nodeId : String) (ruleIds : List String) (reasons : Dict String (String × String))
  | clearDirty
  | log (event : EngineEvent)
  | note (aiProposals : List AINodeProposal) (aiError : Option String) (rescans : Nat)

def EngineOp.apply (s : Engine) : EngineOp → Engine
  | .record nodeId passNumber phase source => s.record nodeId passNumber phase source
  | .rewrite nodeId text => { s with graph := s.graph.rewrite nodeId text }
  | .register v passNumber => { s with graph := s.graph.registerViolation passNumber v }
  | .resolve nodeId remaining fixedBy passNumber status =>
    { s with graph := s.graph.resolveViolations nodeId remaining fixedBy passNumber status }
  | .abstain nodeId ruleIds reasons =>
    { s with graph := s.graph.abstainViolations nodeId ruleIds reasons }
  | .clearDirty => { s with graph := s.graph.clearDirty }
  | .log event => s.log [event]
  | .note aiProposals aiError rescans => { s with aiProposals, aiError, rescans }

inductive Runs (may : EngineOp → Prop) (s : Engine) : Engine → Prop
  | refl : Runs may s s
  | tail {t : Engine} (op : EngineOp) : Runs may s t → may op → Runs may s (op.apply t)

/-- A Tier 1 round takes snapshots of the texts that its transforms write. -/
def Tier1Op (tier1 : List Violation) : EngineOp → Prop
  | .record _ _ _ source => source = .deterministic
  | .rewrite _ _ => True
  | .log (.transformCall v) => v ∈ tier1
  | _ => False

/-- A rescan registers its answer and resolves what is not in it. -/
def RescanOp (answer : List Violation) : EngineOp → Prop
  | .record _ _ _ source => source = .unset
  | .register v _ => v ∈ enrichFqcnTargets answer
  | .rewrite _ _ | .abstain _ _ _ | .log _ => False
  | _ => True

/-- An AI round sends its requests, and takes the fixes or abstains. -/
def AiOp (sent : AINodeContext → Prop) : EngineOp → Prop
  | .record _ _ _ source => source = .ai
  | .log (.aiRequest context) => sent context
  | .log _ | .register _ _ | .resolve _ _ _ _ _ | .clearDirty => False
  | _ => True

variable {may : EngineOp → Prop} {s t : Engine}

theorem Runs.recordAll (hf : Runs may s t) (ids : List String) {pass : Nat} {phase : Phase}
    {src : Source} (allowed : ∀ id, may (.record id pass phase src)) :
    Runs may s (t.recordAll ids pass phase src) :=
  foldl_invariant (fun _ id _ hf => hf.tail (.record id pass phase src) (allowed id)) t hf

theorem Runs.edits {β : Type} (hf : Runs may s t) (xs : List β)
    (e : ContentGraph → β → ContentGraph) (each : ∀ t, ∀ x ∈ xs, Runs may s t →
      Runs may s { t with graph := e t.graph x }) :
    Runs may s { t with graph := xs.foldl e t.graph } :=
  foldl_invariant (I := fun graph => Runs may s { t with graph })
    (fun graph x mem hf => each { t with graph } x mem hf) t.graph hf

theorem Runs.logAll (hf : Runs may s t) (events : List EngineEvent)
    (ha : ∀ event ∈ events, may (.log event)) : Runs may s (t.log events) := by
  induction events generalizing t with
  | nil => simpa [log] using hf
  | cons event rest ih =>
    rw [forall_mem_cons] at ha
    simpa [EngineOp.apply, log] using ih (hf.tail (.log event) ha.1) ha.2

theorem recordViolations_runs (s : Engine) (vs : List Violation) (pass : Nat) (phase : Phase)
    (dirty : List String) : Runs (RescanOp vs) s (recordViolations s vs pass phase dirty) := by
  have hr : Runs (RescanOp vs) s (s.recordAll (reportedNodes vs) pass phase .unset) :=
    Runs.refl.recordAll _ fun _ => rfl
  refine (hr.recordAll _ fun _ => rfl).edits _ _ fun _ v mem hf => ?_
  exact hf.tail (.register v pass) mem

variable (cfg : EngineConfig) {good aborted : Engine → Prop}

/-- A rescan raises at once, or its operations follow the answer, which is then
logged. -/
theorem rescanAndCollect_runs (pass : Nat)
    (fixedBy : FixedBy) (status : Status) (s : Engine) (hra : aborted s)
    (hscan : ∀ dirty answer t, rescanAnswer cfg s.rescans s.graph dirty = some answer →
      Runs (RescanOp answer) s t →
        good { t.log [.rescan answer] with violations := t.graph.collectViolations }) :
    Holds good aborted (rescanAndCollect cfg pass fixedBy status s) := by
  unfold rescanAndCollect rescanAndRecord
  dsimp only
  split
  · exact hra
  next answer told =>
    let dirty := s.graph.expandDirtyNodeIds cfg.rules s.graph.dirtyNodes
    have hr := (recordViolations_runs s answer pass .scanned dirty).edits dirty
      (fun g id => g.resolveViolations id (remainingRuleIds answer id) fixedBy pass status)
      fun _ id _ hf => hf.tail (.resolve id _ fixedBy pass status) trivial
    exact hscan _ answer _ told ((hr.tail .clearDirty trivial).tail (.note _ _ (_ + 1)) trivial)

theorem applyTier1_runs (tier1 : List Violation) (pass : Nat) (s : Engine) :
    Holds (fun r => Runs (Tier1Op tier1) s r.1) (Runs (Tier1Op tier1) s)
      (applyTier1 cfg tier1 pass s) := by
  refine Holds.map (M := fun acc : Engine × Nat => Runs (Tier1Op tier1) s acc.1) ?_ fun _ hf =>
    hf.recordAll _ fun _ => rfl
  refine Holds.foldlM (fun acc v mem hf => ?_) (s, 0) .refl
  unfold tier1Step
  split
  · exact hf
  next transform _ =>
    have hc := hf.tail (.log (.transformCall v)) mem
    rcases ContentGraph.applyTransform_cases acc.1.graph v.path transform v with
      hra | hs | ⟨text, hr⟩
    · simp only [log, hra]
      exact hc
    · simp only [log, hs]
      exact hc
    · simp only [log, hr]
      exact hc.tail (.rewrite v.path text) trivial

theorem applyAiTransforms_runs (prov : AIProvider) (tier2 : List Violation) (pass attempt : Nat)
    (fb : Dict String String) (s : Engine) :
    Runs (AiOp fun ctx => some ctx ∈ aiContexts s.graph fb tier2) s
      (applyAiTransforms prov tier2 pass attempt fb s) := by
  have hs : Runs (AiOp fun ctx => some ctx ∈ aiContexts s.graph fb tier2) s
      (sendRequests s fb tier2) := by
    refine Runs.refl.logAll _ fun event mem => ?_
    obtain ⟨ctx, hc, rfl⟩ := mem_map.mp mem
    obtain ⟨asked, ha, rfl⟩ := mem_filterMap.mp hc
    exact ha
  unfold applyAiTransforms
  dsimp only
  split
  · exact hs.tail (.note _ _ _) trivial
  · refine Runs.edits (foldl_invariant (I := fun acc : Engine × List String => Runs _ s acc.1)
      (fun acc res _ hf => ?_) (_, []) hs) _ _ fun t group _ hf => ?_
    · rcases applyFix_cases pass acc res with
        same | ⟨fix, beforeYaml, node, text, -, -, -, hap⟩
      · rw [same]
        exact hf
      · rw [hap]
        have he := (hf.tail (.rewrite res.1 text) trivial).tail
          (.record res.1 pass .transformed .ai) rfl
        exact (he.tail (.abstain _ _ _) trivial).tail (.note _ _ _) trivial
    · unfold abstainStep
      split
      · exact hf
      · exact hf.tail (.abstain _ _ _) trivial

theorem Runs.violations (hr : Runs may s t) : t.violations = s.violations := by
  induction hr with
  | refl => rfl
  | tail op _ _ ih =>
    cases op with
    | record id pass phase src =>
      rw [EngineOp.apply, record]
      split <;> exact ih
    | _ => exact ih

theorem Engine.violations_recordAll (s : Engine) (ids : List String) (pass : Nat) (phase : Phase)
    (src : Source) : (s.recordAll ids pass phase src).violations = s.violations :=
  (Runs.refl.recordAll ids fun _ => trivial : Runs (fun _ => True) s _).violations

/-- What `t` has besides the events of `s` is `allowed`. -/
def Adds (allowed : EngineEvent → Prop) (s t : Engine) : Prop :=
  ∃ more, t.events = s.events ++ more ∧ ∀ event ∈ more, allowed event

section Adds

variable {allowed : EngineEvent → Prop}

namespace Adds

theorem refl (s : Engine) : Adds allowed s s := ⟨[], by simp, by simp⟩

theorem trans {u : Engine} (first : Adds allowed s t) (hs : Adds allowed t u) :
    Adds allowed s u := by
  obtain ⟨early, hE, he⟩ := first
  obtain ⟨late, hL, hl⟩ := hs
  refine ⟨early ++ late, by rw [hL, hE, append_assoc], ?_⟩
  intro event mem
  rcases mem_append.mp mem with hb | ha
  · exact he event hb
  · exact hl event ha

variable (added : Adds allowed s t)
include added

theorem isPrefix : s.events <+: t.events := by
  obtain ⟨events, hs, -⟩ := added
  exact ⟨events, hs.symm⟩

theorem mem {event : EngineEvent} (hm : event ∈ t.events) : event ∈ s.events ∨ allowed event := by
  obtain ⟨events, hs, he⟩ := added
  rw [hs] at hm
  exact (mem_append.mp hm).imp_right (he event)

theorem log {e : EngineEvent} (hg : allowed e) : Adds allowed s (t.log [e]) :=
  added.trans ⟨[e], rfl, by simpa using hg⟩

end Adds

theorem Runs.adds (hr : Runs may s t) (hs : ∀ id src, allowed (.snapshot id src))
    (hl : ∀ event, may (.log event) → allowed event) : Adds allowed s t := by
  induction hr with
  | refl => exact .refl s
  | tail op _ hp ih =>
    cases op with
    | record id pass phase src =>
      rw [EngineOp.apply, record]
      split
      · exact ih
      · exact ih.log (hs id src)
    | log event => exact ih.log (hl event hp)
    | _ => exact ih

end Adds

theorem aiRound_good {prov : AIProvider} {tier2 : List Violation} {pass : Nat} {l : LoopVars}
    (ha : good (applyAiTransforms prov tier2 pass l.aiAttempts l.aiFeedback s))
    (hr : ∀ t, good t → Holds good aborted (rescanAndCollect cfg pass .ai .proposed t)) :
    Holds (fun r => good r.1) aborted (aiRound cfg prov tier2 pass l s) := by
  unfold aiRound
  dsimp only
  split
  · exact ha
  · exact (hr _ ha).map fun _ hk => hk

end Apme.Remediation
