import Apme.Graph.Basic
import Apme.Graph.Ledger
import Mathlib.Data.List.Dedup
import Mathlib.Data.List.Sort

/-!
# Scanning a graph with rules

A rule is evaluated on one node at a time.  One scan evaluates a rule at most
once on each node, so the outcomes of a scan are a function of the node even
for rules that keep state during the scan.  Rescans evaluate the dirty nodes
and the ancestors that aggregate rules need.  The rule ids of the `# noqa:`
comments of a node are collected line by line, after quoted scalars have been
taken out of the line.
-/

set_option autoImplicit false

namespace Apme.Graph

open Apme.Lib

/-- The text after the closing double quote; a backslash escapes the next
character. -/
def afterDoubleQuoted : Text → Option Text
  | [] => none
  | '"' :: rest => some rest
  | ['\\'] => none
  | '\\' :: c :: rest => if c = '\n' then none else afterDoubleQuoted rest
  | _ :: rest => afterDoubleQuoted rest

def afterSingleQuoted : Text → Option Text
  | [] => none
  | '\'' :: rest => some rest
  | _ :: rest => afterSingleQuoted rest

def afterQuoted : Text → Option Text
  | '"' :: rest => afterDoubleQuoted rest
  | '\'' :: rest => afterSingleQuoted rest
  | _ => none

/-- `_QUOTED_RE.sub("", line)`; the fuel is the length of the line. -/
def stripQuotedAux : Nat → Text → Text
  | 0, _ => []
  | _ + 1, [] => []
  | fuel + 1, c :: rest =>
    match afterQuoted (c :: rest) with
    | some after => stripQuotedAux fuel after
    | none => c :: stripQuotedAux fuel rest

def stripQuoted (line : Text) : Text := stripQuotedAux line.length line

def isNoqaChar (c : Char) : Bool := c.isAlphanum || c = '_' || c = ',' || c = '\t' || c = ' '

/-- `\s*([A-Za-z0-9_,\t ]+)`: the group and what follows it.  When the blanks
take everything, the last ones that the group may take are given back. -/
def matchIdList (text : Text) : Option (Text × Text) :=
  let blanks := text.takeWhile Text.isSpace
  (List.range (blanks.length + 1)).reverse.findSome? fun taken =>
    let rest := text.drop taken
    let group := rest.takeWhile isNoqaChar
    if group = [] then none else some (group, rest.drop group.length)

/-- `#\s*noqa:` and the id list. -/
def matchComment : Text → Option (Text × Text)
  | '#' :: rest =>
    let body := Text.lstrip rest
    if "noqa:".toList.isPrefixOf body then matchIdList (body.drop "noqa:".toList.length)
    else none
  | _ => none

/-- One match attempt: at the start of the line the comment needs no blank
before it. -/
def matchNoqa (atStart : Bool) : Text → Option (Text × Text)
  | [] => none
  | c :: rest =>
    (if atStart then matchComment (c :: rest) else none).or
      (if Text.isSpace c then matchComment rest else none)

/-- `_NOQA_RE.finditer(line)`: the groups of the matches from left to right. -/
def findNoqa : Nat → Bool → Text → List Text
  | 0, _, _ => []
  | _ + 1, _, [] => []
  | fuel + 1, atStart, c :: rest =>
    match matchNoqa atStart (c :: rest) with
    | some (group, after) => group :: findNoqa fuel false after
    | none => findNoqa fuel false rest

/-- Upper case, exact for every text whose upper case consists of ASCII
characters only. -/
def upperChar (c : Char) : Text :=
  match c.toNat with
  | 0x131 => ['I']
  | 0x17f => ['S']
  | 0xdf => ['S', 'S']
  | 0xfb00 => ['F', 'F']
  | 0xfb01 => ['F', 'I']
  | 0xfb02 => ['F', 'L']
  | 0xfb03 => ['F', 'F', 'I']
  | 0xfb04 => ['F', 'F', 'L']
  | 0xfb05 => ['S', 'T']
  | 0xfb06 => ['S', 'T']
  | _ => [c.toUpper]

def upper (text : Text) : Text := text.flatMap upperChar

def firstToken (part : Text) : Text := (Text.strip part).takeWhile fun c => !Text.isSpace c

def idsOfGroup (group : Text) : List Text :=
  ((group.splitOn ',').map fun part => upper (firstToken part)).filter fun id => id ≠ []

def parseNoqaLine (line : Text) : List Text :=
  let stripped := stripQuoted line
  (findNoqa (stripped.length + 1) true stripped).flatMap idsOfGroup

def parseNoqa (yamlLines : Text) : List Text := (Text.lines yamlLines).flatMap parseNoqaLine

namespace ContentGraph

variable (g : ContentGraph)

/-- Some `# noqa:` comment of the node lists the rule. -/
def noqaLists (nodeId ruleId : Text) : Bool :=
  match g.getNode (String.ofList nodeId) with
  | none => false
  | some node => upper ruleId ∈ parseNoqa node.yamlLines

/-- A violation `filter_noqa_violations` drops. -/
def noqaDrops (v : Violation) : Bool :=
  let path := Text.strip v.path.toList
  let ruleId := Text.strip v.ruleId.toList
  path ≠ [] && ruleId ≠ [] && g.noqaLists path ruleId

def filterNoqaViolations (violations : List Violation) : List Violation :=
  violations.filter fun v => !g.noqaDrops v

end ContentGraph

inductive RuleScope
  | task | block | play | playbook | role | inventory | collection

def RuleScope.label : RuleScope → String
  | .task => "task"
  | .block => "block"
  | .play => "play"
  | .playbook => "playbook"
  | .role => "role"
  | .inventory => "inventory"
  | .collection => "collection"

/-- The node types whose findings an aggregate rule derives from descendants. -/
def RuleScope.aggregateNodeTypes : RuleScope → List NodeType
  | .block => [.block]
  | .play => [.play]
  | .playbook => [.playbook]
  | .role => [.role]
  | .collection => [.collection]
  | .task | .inventory => []

def scannableTypes : List NodeType :=
  [.task, .handler, .block, .play, .role, .taskfile, .playbook, .collection, .module, .rulebook,
    .ruleset]

/-- An entry of `detail["violations"]`. -/
structure NestedFinding where
  message : Option String := none
  file : String := ""
  line : LineRef := .missing
  deriving DecidableEq

structure RuleDetail where
  message : String := ""
  scope : String := ""
  nested : List NestedFinding := []
  resolvedFqcn : Option String := none
  originalModule : Option String := none
  fqcn : Option String := none
  deriving DecidableEq

/-- `verdict` is true when the rule found a violation. -/
structure GraphRuleResult where
  verdict : Bool
  nodeId : String
  file : Option (String × Option Int) := none
  detail : RuleDetail := {}
  error : Option String := none
  deriving DecidableEq

inductive RuleOutcome
  | raised
  | notMatched
  | noResult
  | result (r : GraphRuleResult)
  deriving DecidableEq

/-- `severity` is the label of the rule's entry in the severity table.  A result
names the node it was evaluated on. -/
structure GraphRule where
  ruleId : String
  description : String := ""
  scope : RuleScope := .task
  severity : String := ""
  enabled : Bool := true
  evaluate : ContentGraph → String → RuleOutcome
  names_node : ∀ g nodeId r, evaluate g nodeId = .result r → r.nodeId = nodeId

structure GraphNodeResult where
  nodeId : String
  node : ContentNode
  ruleResults : List (GraphRule × GraphRuleResult)

namespace ContentGraph

variable (g : ContentGraph)

def isPositionalEdge (edge : Edge) : Bool :=
  match edge.edgeType with
  | .contains | .include | .import => true
  | .dependency =>
    match g.getNode edge.source, g.getNode edge.target with
    | some source, some target =>
      (source.nodeType = .play || source.nodeType = .role) && target.nodeType = .role
    | _, _ => false
  | _ => false

def positionalParents (nodeId : String) : List String :=
  (g.edges.filter fun edge => edge.target = nodeId && g.isPositionalEdge edge).map Edge.source

/-- The worklist of `positional_ancestor_ids`.  Every iteration but the last
pushes a source not seen before, so the number of edges bounds them. -/
def ancestorLoop (g : ContentGraph) : Nat → List String → List String → List String
  | 0, _, seen => seen
  | _ + 1, [], seen => seen
  | fuel + 1, current :: stack, seen =>
    let fresh := ((g.positionalParents current).filter fun source => source ∉ seen).dedup
    ancestorLoop g fuel (fresh.reverse ++ stack) (seen ++ fresh)

def positionalAncestorIds (nodeId : String) : List String :=
  g.ancestorLoop (g.edges.length + 2) [nodeId] []

variable (rules : List GraphRule)

def aggregateTypes : List NodeType := rules.flatMap fun rule => rule.scope.aggregateNodeTypes

def hasType (types : List NodeType) (nodeId : String) : Bool :=
  match g.getNode nodeId with
  | none => false
  | some node => node.nodeType ∈ types

def expandDirtyNodeIds (dirty : List String) : List String :=
  (dirty ++ dirty.flatMap fun nodeId =>
    if (g.getNode nodeId).isSome then
      (g.positionalAncestorIds nodeId).filter (g.hasType (aggregateTypes rules))
    else []).dedup

theorem mem_expandDirtyNodeIds {dirty : List String}
    {id : String} (mem : id ∈ dirty) : id ∈ g.expandDirtyNodeIds rules dirty :=
  List.mem_dedup.mpr (List.mem_append_left _ mem)

end ContentGraph

variable (g : ContentGraph)

/-- What `_evaluate_node` records for one rule that is not skipped. -/
def ruleResult (nodeId : String) (rule : GraphRule) : Option GraphRuleResult :=
  match rule.evaluate g nodeId with
  | .raised => some { verdict := false, nodeId, error := some "Rule execution failed" }
  | .notMatched => none
  | .noResult => none
  | .result r => some r

def evaluateNode (nodeId : String) (node : ContentNode)
    (enabledRules : List GraphRule) : GraphNodeResult :=
  let suppressed := parseNoqa node.yamlLines
  { nodeId, node
    ruleResults := (enabledRules.filter fun rule => upper rule.ruleId.toList ∉ suppressed).filterMap
      fun rule => (ruleResult g nodeId rule).map (rule, ·) }

variable (node : ContentNode)

def ContentNode.scannable : Bool := node.nodeType ∈ scannableTypes && node.scope = .owned

def sortIds (ids : List String) : List String := ids.insertionSort fun a b => a ≤ b

variable (rules : List GraphRule)

def evaluateIds (ids : List String) : List GraphNodeResult :=
  (sortIds ids).filterMap fun nodeId =>
    (g.getNode nodeId).bind fun node =>
      if node.scannable then
        some (evaluateNode g nodeId node (rules.filter GraphRule.enabled))
      else none

def scan : List GraphNodeResult := evaluateIds g rules g.nodes.keys

def rescanDirty (dirty : List String) : List GraphNodeResult :=
  evaluateIds g rules (g.expandDirtyNodeIds (rules.filter GraphRule.enabled) dirty)

variable (rule : GraphRule) (r : GraphRuleResult)

def nestedViolation (nested : NestedFinding) : Violation :=
  { ruleId := rule.ruleId, severity := rule.severity
    message := nested.message.getD rule.description
    file := nested.file, line := nested.line, path := r.nodeId, source := "native"
    scope := if r.detail.scope = "" then rule.scope.label else r.detail.scope }

def singleViolation : Violation :=
  { ruleId := rule.ruleId, severity := rule.severity
    message := if r.detail.message = "" then rule.description else r.detail.message
    file := match r.file with
      | some (file, _) => file
      | none => node.filePath
    line := match r.file with
      | some (_, some line) => .one line
      | some (_, none) => .missing
      | none => if node.lineStart = 0 then .missing else .one node.lineStart
    path := r.nodeId, source := "native"
    scope := if r.detail.scope = "" then rule.scope.label else r.detail.scope
    resolvedFqcn := r.detail.resolvedFqcn
    originalModule := r.detail.originalModule.getD ""
    fqcn := r.detail.fqcn }

def resultViolations : List Violation :=
  if !r.verdict then []
  else if r.detail.nested = [] then [singleViolation node rule r]
  else r.detail.nested.map (nestedViolation rule r)

def graphReportToViolations (report : List GraphNodeResult) : List Violation :=
  report.flatMap fun nodeResult =>
    nodeResult.ruleResults.flatMap fun entry => resultViolations nodeResult.node entry.1 entry.2

theorem mem_resultViolations {g : ContentGraph} {id : String} {n : ContentNode}
    {rule : GraphRule} {r : GraphRuleResult} {v : Violation}
    (ho : ruleResult g id rule = some r) (mem : v ∈ resultViolations n rule r) :
    v.path = id ∧ v.ruleId = rule.ruleId ∧ rule.evaluate g id = .result r := by
  have hfa : v.path = r.nodeId ∧ v.ruleId = rule.ruleId ∧ r.verdict := by
    unfold resultViolations at mem
    split at mem
    · exact absurd mem List.not_mem_nil
    next vd =>
      have hf : r.verdict := by simpa using vd
      split at mem
      · rw [List.mem_singleton.mp mem]
        exact ⟨rfl, rfl, hf⟩
      · obtain ⟨nested, -, rfl⟩ := List.mem_map.mp mem
        exact ⟨rfl, rfl, hf⟩
  obtain ⟨hp, hi, vd⟩ := hfa
  have res : rule.evaluate g id = .result r := by
    unfold ruleResult at ho
    split at ho
    · cases Option.some.inj ho
      cases vd
    · cases ho
    · cases ho
    next hs =>
      cases Option.some.inj ho
      exact hs
  exact ⟨hp.trans (rule.names_node g id r res), hi, res⟩

end Apme.Graph
