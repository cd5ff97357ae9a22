import Apme.Remediation.Engine

/-!
# `remediate`

The passes of the convergence loop, its end and its report.
-/

set_option autoImplicit false

namespace Apme.Remediation

open Apme.Lib Apme.Graph

def feedbackLine (v : Violation) : String := "- [" ++ v.ruleId ++ "]: " ++ v.message

variable (violations : List Violation)

def feedbackText : String :=
  "\n".intercalate
    ("Your previous fix introduced or did not resolve these violations:" ::
      violations.map feedbackLine)

/-- `_build_ai_feedback`. -/
def buildAiFeedback (tier2 : List Violation) : Dict String String :=
  Dict.ofList ((aiGroups tier2).map fun group => (group.1, feedbackText group.2))

structure Tier1NodeProposal where
  nodeId : String
  filePath : String
  beforeYaml : Text
  afterYaml : Text
  ruleIds : List String
  violationSummaries : List String
  lineStart : Nat
  lineEnd : Nat
  nodeType : NodeType
  deriving DecidableEq

def stripString (text : String) : String := String.ofList (Text.strip text.toList)

def violationSummary (v : Violation) : Option String :=
  let message := stripString v.message
  let severity := stripString v.severity
  if message = "" then none
  else if v.ruleId ≠ "" ∧ severity ≠ "" then
    some ("[" ++ v.ruleId ++ "|" ++ severity ++ "]: " ++ message)
  else if v.ruleId ≠ "" then some ("[" ++ v.ruleId ++ "]: " ++ message)
  else some message

/-- The records a Tier 1 proposal is about. -/
def pendingDeterministic (node : ContentNode) : List Violation :=
  (node.violationLedger.values.filter fun record =>
    record.status = .pendingReview ∧ record.fixedBy = some .deterministic).map
      ViolationRecord.violation

/-- The rule ids in order of first occurrence. -/
def proposalRuleIds : List String :=
  ((violations.map Violation.ruleId).filter fun ruleId => ruleId ≠ "").reverse.dedup.reverse

def tier1Proposal (nodeId : String) (node : ContentNode) : Option Tier1NodeProposal :=
  match node.progression.head?, node.progression.getLast? with
  | some first, some after =>
    let baseline := (lastApproved node.progression).getD first
    if node.progression.length < 2 then none
    else if !node.progression.any fun entry => !entry.approved && entry.source = .deterministic then
      none
    else if baseline.yamlLines = after.yamlLines then none
    else
      let violations := pendingDeterministic node
      some
        { nodeId, filePath := node.filePath
          beforeYaml := baseline.yamlLines, afterYaml := after.yamlLines
          ruleIds := proposalRuleIds violations
          violationSummaries := violations.filterMap violationSummary
          lineStart := node.lineStart, lineEnd := node.lineEnd, nodeType := node.nodeType }
  | _, _ => none

def collectTier1Proposals (g : ContentGraph) : List Tier1NodeProposal :=
  g.nodes.entries.filterMap fun entry => tier1Proposal entry.1 entry.2

/-- The local variables of the loop; `prevCount` starts infinite. -/
structure LoopVars where
  passes : Nat := 0
  prevCount : Option Nat := none
  oscillation : Bool := false
  aiAttempts : Nat := 0
  aiFeedback : Dict String String := Dict.empty

inductive PassEnd
  | again (s : Engine) (l : LoopVars)
  | stop (s : Engine) (l : LoopVars)

/-- The end of Phase A: the pass is over, or it goes on with what is left of
the tiers. -/
inductive PhaseAEnd
  | pass (fin : PassEnd)
  | proceed (s : Engine) (l : LoopVars) (tier1 tier2 : List Violation) (stalled : Bool)

def resolveStatus (opts : RemediateOptions) : Status :=
  if opts.interactive then .pendingReview else .fixed

/-- `new_fixable >= prev_count`. -/
def notFewer (prevCount : Option Nat) (count : Nat) : Bool :=
  match prevCount with
  | none => false
  | some prev => prev ≤ count

variable (cfg : EngineConfig)

/-- What follows a Tier 1 round that applied something and was rescanned. -/
def afterTier1Rescan (s : Engine) (l : LoopVars) : PhaseAEnd :=
  let tiers := partitionViolations s.violations cfg.registry
  let fixable := tiers.tier1.length
  if notFewer l.prevCount fixable then .pass (.stop s { l with oscillation := true })
  else
    let l := { l with prevCount := some fixable }
    if 0 < fixable then .pass (.again s l) else .proceed s l tiers.tier1 tiers.tier2 false

def phaseA (opts : RemediateOptions) (passNumber : Nat) (s : Engine)
    (l : LoopVars) : Except Engine PhaseAEnd :=
  let tiers := partitionViolations s.violations cfg.registry
  if tiers.tier1 = [] then .ok (.proceed s l [] tiers.tier2 false)
  else if opts.skipTier1 then
    if tiers.tier2 = [] then .ok (.pass (.stop s l))
    else .ok (.proceed s l tiers.tier1 tiers.tier2 true)
  else do
    let (s, applied) ← applyTier1 cfg tiers.tier1 passNumber s
    if applied = 0 then
      let tier2 := tiers.tier2 ++ tiers.tier1.filter isAiEscalatable
      if tier2 = [] then pure (.pass (.stop s l))
      else pure (.proceed s l tiers.tier1 tier2 true)
    else do
      let s ← rescanAndCollect cfg passNumber .deterministic (resolveStatus opts) s
      pure (afterTier1Rescan cfg s l)

/-- Post-AI Tier 1 cleanup. -/
def phaseC (opts : RemediateOptions) (passNumber : Nat) (s : Engine) : Run :=
  let tiers := partitionViolations s.violations cfg.registry
  if tiers.tier1 = [] then .ok s
  else do
    let (s, _) ← applyTier1 cfg tiers.tier1 passNumber s
    rescanAndCollect cfg passNumber .deterministic (resolveStatus opts) s

/-- One AI attempt with the rescan after it; the flag tells whether it changed
anything. -/
def aiRound (provider : AIProvider) (tier2 : List Violation)
    (passNumber : Nat) (l : LoopVars) (s : Engine) : Except Engine (Engine × Bool) :=
  let s := applyAiTransforms provider tier2 passNumber l.aiAttempts l.aiFeedback s
  if s.graph.dirtyNodes = [] then .ok (s, false)
  else (·, true) <$> rescanAndCollect cfg passNumber .ai .proposed s

/-- Phases B and C; the flag tells whether the AI candidates are resubmitted. -/
def phaseB (opts : RemediateOptions) (provider : AIProvider)
    (tier2 : List Violation) (passNumber : Nat) (s : Engine) (l : LoopVars) :
    Except Engine (Engine × LoopVars × Bool) := do
  let (s, changed) ← aiRound cfg provider tier2 passNumber l s
  let l := { l with aiAttempts := l.aiAttempts + 1 }
  if changed then do
    let s ← phaseC cfg opts passNumber s
    let newTier2 := (partitionViolations s.violations cfg.registry).tier2
    if newTier2 = [] then pure (s, l, false)
    else pure (s, { l with aiFeedback := buildAiFeedback newTier2 }, true)
  else pure (s, l, false)

def runAi (opts : RemediateOptions) : Option AIProvider :=
  if opts.skipAi then none else cfg.aiProvider

/-- The tests at the end of a pass. -/
def passVerdict (opts : RemediateOptions) (tier1 tier2 : List Violation)
    (stalled : Bool) (s : Engine) (l : LoopVars) : PassEnd :=
  let tier1Done := tier1 = [] ∨ stalled
  let aiExhausted := (runAi cfg opts).isNone ∨ s.aiError.isSome ∨ cfg.maxAiAttempts ≤ l.aiAttempts
  if tier1 = [] ∧ !stalled ∧ tier2 = [] then .stop s l
  else if tier1Done ∧ aiExhausted then .stop s l
  else .again s l

def finishPass (opts : RemediateOptions) (passNumber : Nat) : PhaseAEnd → Except Engine PassEnd
  | .pass fin => .ok fin
  | .proceed s l tier1 tier2 stalled =>
    match runAi cfg opts with
    | some provider =>
      if (tier1 = [] ∨ stalled) ∧ tier2 ≠ [] ∧ s.aiError = none ∧
          l.aiAttempts < cfg.maxAiAttempts then do
        let (s, l, resubmit) ← phaseB cfg opts provider tier2 passNumber s l
        if resubmit then pure (.again s l)
        else pure (passVerdict cfg opts tier1 tier2 stalled s l)
      else .ok (passVerdict cfg opts tier1 tier2 stalled s l)
    | none => .ok (passVerdict cfg opts tier1 tier2 stalled s l)

def passStep (opts : RemediateOptions) (passNumber : Nat) (s : Engine)
    (l : LoopVars) : Except Engine PassEnd := do
  finishPass cfg opts passNumber (← phaseA cfg opts passNumber s { l with passes := passNumber })

def runPasses (cfg : EngineConfig) (opts : RemediateOptions) :
    Nat → Nat → Engine → LoopVars → Except Engine (Engine × LoopVars)
  | 0, _, s, l => .ok (s, l)
  | remaining + 1, passNumber, s, l => do
      match ← passStep cfg opts passNumber s l with
      | .again s l => runPasses cfg opts remaining (passNumber + 1) s l
      | .stop s l => .ok (s, l)

structure GraphFixReport where
  passes : Nat
  fixed : Nat
  remainingViolations : List Violation
  fixedViolations : List Violation
  aiAbstainedViolations : List Violation
  oscillationDetected : Bool
  aiProposals : List AINodeProposal
  tier1Proposals : List Tier1NodeProposal
  aiError : Option String

def fixedStatuses (opts : RemediateOptions) : List Status :=
  if opts.interactive then [.fixed, .pendingReview] else [.fixed]

def report (opts : RemediateOptions) (s : Engine) (l : LoopVars) : GraphFixReport :=
  let abstained := s.graph.queryViolations .aiAbstained
  let fixedViolations := (fixedStatuses opts).flatMap s.graph.queryViolations
  { passes := l.passes, fixed := fixedViolations.length
    remainingViolations := s.graph.queryViolations .opened ++ abstained
    fixedViolations, aiAbstainedViolations := abstained
    oscillationDetected := l.oscillation
    aiProposals := s.aiProposals
    tier1Proposals := if opts.interactive then collectTier1Proposals s.graph else []
    aiError := s.aiError }

def initialViolations (g : ContentGraph) : Option (List Violation) → List Violation
  | some violations => violations
  | none => graphReportToViolations (scan g cfg.rules)

/-- The state before the first pass. -/
def startRun (g : ContentGraph) (initial : Option (List Violation)) : Engine :=
  let violations := initialViolations cfg g initial
  let s := recordViolations { graph := g } violations 0 .scanned []
  { s with violations := enrichFqcnTargets violations }

/-- Without review every snapshot that is not the AI's is approved at the end. -/
def autoApprove (opts : RemediateOptions) (s : Engine) : Engine :=
  if opts.interactive then s
  else { s with graph := s.graph.approvePending "" (some .deterministic) }

def remediate (opts : RemediateOptions) (g : ContentGraph)
    (initial : Option (List Violation)) : Except Engine (Engine × GraphFixReport) := do
  let (s, l) ← runPasses cfg opts cfg.maxPasses 1 (startRun cfg g initial) {}
  let s := autoApprove opts s
  pure (s, report opts s l)

end Apme.Remediation
