import Apme.Graph.Frame
import Apme.Graph.Scanner
import Apme.Lib.Outcome
import Apme.Remediation.Partition

/-!
# The convergence loop

`remediate` alternates deterministic transforms, AI transforms and rescans on
one graph.  Transforms, the rescan function and the AI provider are parameters;
the last two may answer differently at every call.  A run keeps, besides the
graph, the events of the run: the snapshots it takes, the violations it gives
to transforms, the requests it sends to the AI provider and the answers of its
rescans.  A raising rescan or transform ends the run with the state reached.
-/

set_option autoImplicit false

namespace Apme.Remediation

open Apme.Lib Apme.Graph

structure AISkipped where
  ruleId : String
  reason : String := ""
  suggestion : String := ""
  deriving DecidableEq

structure AINodeFix where
  fixedSnippet : Text
  ruleIds : List String := []
  explanation : String := ""
  skipped : List AISkipped := []
  deriving DecidableEq

structure AINodeContext where
  nodeId : String
  nodeType : NodeType
  yamlLines : Text
  violations : List Violation
  filePath : String
  feedback : String
  deriving DecidableEq

/-- `providerError` aborts the whole batch, any other exception only its node. -/
inductive AIAnswer
  | providerError
  | raised
  | noFix
  | fix (fix : AINodeFix)

/-- The first argument is the number of the AI attempt. -/
abbrev AIProvider := Nat → AINodeContext → AIAnswer

/-- The first argument counts the rescans of the run; `none` is an exception. -/
abbrev RescanFn := Nat → ContentGraph → List String → Option (List Violation)

structure EngineConfig where
  registry : TransformRegistry
  rules : List GraphRule := []
  maxPasses : Nat := 5
  maxAiAttempts : Nat := 2
  rescanFn : Option RescanFn := none
  aiProvider : Option AIProvider := none

structure RemediateOptions where
  interactive : Bool := false
  skipAi : Bool := false
  skipTier1 : Bool := false

structure AINodeProposal where
  nodeId : String
  filePath : String
  beforeYaml : Text
  afterYaml : Text
  ruleIds : List String
  explanation : String
  lineStart : Nat
  lineEnd : Nat
  nodeType : NodeType
  deriving DecidableEq

inductive EngineEvent
  | snapshot (nodeId : String) (source : Source)
  | transformCall (v : Violation)
  | aiRequest (context : AINodeContext)
  | rescan (answer : List Violation)
  deriving DecidableEq

structure Engine where
  graph : ContentGraph
  violations : List Violation := []
  aiProposals : List AINodeProposal := []
  aiError : Option String := none
  rescans : Nat := 0
  events : List EngineEvent := []

abbrev Run := Except Engine Engine

namespace Engine

variable (s : Engine)

def log (events : List EngineEvent) : Engine := { s with events := s.events ++ events }

def record (nodeId : String) (passNumber : Nat) (phase : Phase) (source : Source) : Engine :=
  match s.graph.getNode nodeId with
  | none => s
  | some _ =>
    { s with graph := s.graph.recordState nodeId passNumber phase source }.log
      [.snapshot nodeId source]

def recordAll (ids : List String) (passNumber : Nat) (phase : Phase) (source : Source) : Engine :=
  ids.foldl (fun s nodeId => s.record nodeId passNumber phase source) s

end Engine

/-- The nodes violations are reported on. -/
def reportedNodes (violations : List Violation) : List String :=
  ((violations.map Violation.path).filter fun path => path ≠ "").dedup

/-- `_record_violations`. -/
def recordViolations (s : Engine) (violations : List Violation) (passNumber : Nat) (phase : Phase)
    (dirty : List String) : Engine :=
  let reported := reportedNodes violations
  let s := s.recordAll reported passNumber phase .unset
  let s := s.recordAll (dirty.filter fun nodeId => nodeId ∉ reported) passNumber phase .unset
  { s with
    graph := s.graph.registerViolations (enrichFqcnTargets violations) passNumber }

/-- The normalized rule ids a rescan reports on a node. -/
def remainingRuleIds (violations : List Violation) (nodeId : String) : List String :=
  (violations.filter fun v => v.path ≠ "" ∧ v.path = nodeId).map fun v => normalizeRuleId v.ruleId

variable (g : ContentGraph)

def resolveDirtyViolations (violations : List Violation) (dirty : List String)
    (fixedBy : FixedBy) (passNumber : Nat) (status : Status) : ContentGraph :=
  dirty.foldl (fun g nodeId =>
    g.resolveViolations nodeId (remainingRuleIds violations nodeId) fixedBy passNumber status) g

variable (cfg : EngineConfig)

/-- The answer of the rescan function, or of the built-in rescan. -/
def rescanAnswer (count : Nat) (g : ContentGraph) (dirty : List String) : Option (List Violation) :=
  match cfg.rescanFn with
  | some rescan => rescan count g dirty
  | none => some (graphReportToViolations (rescanDirty g cfg.rules dirty))

variable (passNumber : Nat)

def rescanAndRecord (fixedBy : FixedBy) (status : Status) (s : Engine) : Run :=
  let effective := s.graph.expandDirtyNodeIds cfg.rules s.graph.dirtyNodes
  match rescanAnswer cfg s.rescans s.graph effective with
  | none => .error s
  | some new =>
    let s := recordViolations s new passNumber .scanned effective
    let resolved := resolveDirtyViolations s.graph new effective fixedBy passNumber status
    .ok ({ s with graph := resolved.clearDirty, rescans := s.rescans + 1 }.log [.rescan new])

/-- A rescan, after which the loop continues with the open violations. -/
def rescanAndCollect (fixedBy : FixedBy) (status : Status) (s : Engine) : Run :=
  (fun s => { s with violations := s.graph.collectViolations }) <$>
    rescanAndRecord cfg passNumber fixedBy status s

/-- One violation of `_apply_tier1`; the count is the number of transforms applied. -/
def tier1Step (acc : Engine × Nat) (v : Violation) : Except Engine (Engine × Nat) :=
  match cfg.registry (normalizeRuleId v.ruleId) with
  | none => .ok acc
  | some transform =>
    let s := acc.1.log [.transformCall v]
    match s.graph.applyTransform v.path transform v with
    | none => .error s
    | some (graph, true) => .ok ({ s with graph }, acc.2 + 1)
    | some (graph, false) => .ok ({ s with graph }, acc.2)

def applyTier1 (tier1 : List Violation) (passNumber : Nat) (s : Engine) :
    Except Engine (Engine × Nat) :=
  (fun acc => (acc.1.recordAll acc.1.graph.dirtyNodes passNumber .transformed .deterministic,
    acc.2)) <$> tier1.foldlM (tier1Step cfg) (s, 0)

/-- What comes of asking the provider about one node. -/
inductive ProposeResult
  | skipped
  | failed
  | providerError
  | accepted (fix : AINodeFix) (beforeYaml : Text)
  deriving DecidableEq

variable (feedback : Dict String String)

def aiContext (group : String × List Violation) : Option AINodeContext :=
  (g.getNode group.1).bind fun node =>
    if node.yamlLines = [] then none
    else
      some
        { nodeId := group.1, nodeType := node.nodeType, yamlLines := node.yamlLines
          violations := group.2, filePath := node.filePath
          feedback := (feedback.get? group.1).getD "" }

variable (provider : AIProvider)

def proposeOne (attempt : Nat) : Option AINodeContext → ProposeResult
  | none => .skipped
  | some context =>
    match provider attempt context with
    | .providerError => .providerError
    | .raised => .failed
    | .noFix => .skipped
    | .fix fix =>
      if fix.fixedSnippet = [] then .skipped
      else if Text.strip fix.fixedSnippet = Text.strip context.yamlLines then .skipped
      else .accepted fix context.yamlLines

def skippedReasons (fix : AINodeFix) : Dict String (String × String) :=
  Dict.ofList (fix.skipped.map fun s => (normalizeRuleId s.ruleId, (s.reason, s.suggestion)))

/-- The proposal for a node whose YAML the fix has just replaced in `g`. -/
def aiProposal (nodeId : String) (node : ContentNode) (fix : AINodeFix)
    (beforeYaml : Text) : AINodeProposal :=
  { nodeId, filePath := node.filePath, beforeYaml
    afterYaml := ((g.getNode nodeId).map ContentNode.yamlLines).getD []
    ruleIds := fix.ruleIds, explanation := fix.explanation
    lineStart := node.lineStart, lineEnd := node.lineEnd, nodeType := node.nodeType }

/-- Snapshot, proposal and abstentions after a fix has changed its node. -/
def acceptFix (s : Engine) (nodeId : String) (node : ContentNode)
    (fix : AINodeFix) (beforeYaml : Text) : Engine :=
  let recorded := s.record nodeId passNumber .transformed .ai
  let reasons := skippedReasons fix
  { recorded with
    graph := recorded.graph.abstainViolations nodeId reasons.keys reasons
    aiProposals := recorded.aiProposals ++ [aiProposal s.graph nodeId node fix beforeYaml] }

/-- One result of the batch; the list collects the nodes a proposal was made for. -/
def applyFix (acc : Engine × List String) (result : String × ProposeResult) :
    Engine × List String :=
  match result.2 with
  | .accepted fix beforeYaml =>
    match acc.1.graph.getNode result.1, acc.1.graph.applyYaml result.1 fix.fixedSnippet with
    | some node, (graph, true) =>
      (acceptFix passNumber { acc.1 with graph } result.1 node fix beforeYaml, acc.2 ++ [result.1])
    | _, _ => acc
  | _ => acc

theorem applyFix_cases (pass : Nat) (acc : Engine × List String) (res : String × ProposeResult) :
    applyFix pass acc res = acc ∨
      ∃ fix beforeYaml node text, res.2 = .accepted fix beforeYaml ∧
        acc.1.graph.getNode res.1 = some node ∧ text ≠ node.yamlLines ∧
        applyFix pass acc res =
          (acceptFix pass { acc.1 with graph := acc.1.graph.rewrite res.1 text } res.1
            node fix beforeYaml, acc.2 ++ [res.1]) := by
  unfold applyFix
  cases ha : res.2 with
  | accepted fix beforeYaml =>
    rcases ContentGraph.applyYaml_cases acc.1.graph res.1 fix.fixedSnippet with
      hs | ⟨node, text, hf, hd, hr⟩
    · simp only [hs]
      refine .inl ?_
      split
      next he => cases (Prod.mk.inj he).2
      next => rfl
    · simp only [hf, hr]
      exact .inr ⟨fix, beforeYaml, node, text, rfl, rfl, hd, rfl⟩
  | skipped => exact .inl rfl
  | failed => exact .inl rfl
  | providerError => exact .inl rfl

def abstainStep (proposed : List String) (results : List (String × ProposeResult)) (g : ContentGraph)
    (group : String × List Violation) : ContentGraph :=
  if group.1 ∈ proposed ∨ (group.1, ProposeResult.failed) ∈ results then g
  else g.abstainViolations group.1 (group.2.map fun v => normalizeRuleId v.ruleId) Dict.empty

variable (tier2 : List Violation)

def aiGroups : List (String × List Violation) :=
  (Dict.groupBy Violation.path (tier2.filter fun v => v.path ≠ "")).entries

def aiContexts (tier2 : List Violation) : List (Option AINodeContext) :=
  (aiGroups tier2).map (aiContext g feedback)

/-- The requests of one batch are sent. -/
def sendRequests (s : Engine) (feedback : Dict String String) (tier2 : List Violation) : Engine :=
  s.log (((aiContexts s.graph feedback tier2).filterMap id).map .aiRequest)

def aiResults (attempt : Nat) (g : ContentGraph)
    (feedback : Dict String String) (tier2 : List Violation) : List (String × ProposeResult) :=
  ((aiGroups tier2).map Prod.fst).zip
    ((aiContexts g feedback tier2).map (proposeOne provider attempt))

/-- The accepted fixes are applied one by one; then the AI abstains from the
nodes it made no proposal for. -/
def applyResults (results : List (String × ProposeResult)) (s : Engine) : Engine :=
  let applied := results.foldl (applyFix passNumber) (s, [])
  { applied.1 with
    graph := (aiGroups tier2).foldl (abstainStep applied.2 results) applied.1.graph }

/-- `_apply_ai_transforms`: all answers are fetched first, then applied. -/
def applyAiTransforms (passNumber attempt : Nat)
    (feedback : Dict String String) (s : Engine) : Engine :=
  let results := aiResults provider attempt s.graph feedback tier2
  let sent := sendRequests s feedback tier2
  if results.any fun result => result.2 = .providerError then
    { sent with aiError := some "AI provider unavailable; this AI batch was not applied." }
  else applyResults passNumber tier2 results sent

end Apme.Remediation
