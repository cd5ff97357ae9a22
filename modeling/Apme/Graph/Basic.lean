import Apme.Lib.Dict
import Apme.Lib.History
import Apme.Lib.Text

/-!
# The content graph

Nodes carry their YAML text, the progression of its snapshots and the ledger of
their violations.  Graph operations are functions on the graph.  Of the fields
that are parsed out of the YAML a node has only those that wire it to other
nodes; whatever reads the rest (rules, transforms, the AI provider) is a
parameter.
-/

set_option autoImplicit false

namespace Apme.Graph

open Apme.Lib

inductive NodeType
  | playbook | play | role | taskfile | task | handler | block | module | moduleUtils
  | filterPlugin | actionPlugin | lookupPlugin | varsFile | collection | rulebook | ruleset
  deriving DecidableEq

inductive EdgeType
  | import | include | notify | listen | dependency | dataFlow | rescue | always | invokes
  | pyImports | varsInclude | contains
  deriving DecidableEq

inductive NodeScope
  | owned | referenced
  deriving DecidableEq

inductive Phase
  | original | scanned | transformed | aiTransformed
  deriving DecidableEq

/-- How a snapshot was produced; scans leave it `unset` (the empty string). -/
inductive Source
  | unset | deterministic | ai
  deriving DecidableEq

inductive FixedBy
  | deterministic | ai
  deriving DecidableEq

inductive Status
  | opened | fixed | pendingReview | proposed | declined | aiAbstained
  deriving DecidableEq

/-- The `line` entry of a violation: a number, a list of numbers, or none. -/
inductive LineRef
  | missing
  | one (line : Int)
  | range (lines : List Int)
  deriving DecidableEq

structure Violation where
  ruleId : String
  path : String := ""
  file : String := ""
  line : LineRef := .missing
  severity : String := ""
  message : String := ""
  scope : String := ""
  aiProposable : Bool := true
  originalModule : String := ""
  moduleName : String := ""
  resolvedFqcn : Option String := none
  fqcn : Option String := none
  source : String := ""
  aiReason : String := ""
  aiSuggestion : String := ""
  enforced : Bool := false
  deriving DecidableEq

def nativePrefix : List Char := "native:".toList

def normalizeRuleId (ruleId : String) : String :=
  if nativePrefix.isPrefixOf ruleId.toList then
    String.ofList (ruleId.toList.drop nativePrefix.length)
  else ruleId

/-- Ledger identity of a violation: node id and normalized rule id. -/
abbrev ViolationKey := String × String

def violationKey (v : Violation) : ViolationKey := (v.path, normalizeRuleId v.ruleId)

structure ViolationRecord where
  violation : Violation
  status : Status := .opened
  fixedBy : Option FixedBy := none
  fixedInPass : Option Nat := none
  discoveredInPass : Nat := 0
  aiReason : Option String := none
  aiSuggestion : Option String := none
  deriving DecidableEq

/-- A snapshot of a node's YAML.  Content hashes are compared through the texts
they are taken of. -/
structure NodeState where
  id : String
  passNumber : Nat
  phase : Phase
  yamlLines : Text
  approved : Bool := false
  source : Source := .unset
  deriving DecidableEq

@[ext]
structure ContentNode where
  nodeType : NodeType
  name : String := ""
  roleFqcn : String := ""
  notify : List String := []
  listen : List String := []
  filePath : String := ""
  lineStart : Nat := 0
  lineEnd : Nat := 0
  yamlLines : Text := []
  indentDepth : Nat := 0
  scope : NodeScope := .owned
  state : Option NodeState := none
  progression : List NodeState := []
  violationLedger : Dict ViolationKey ViolationRecord := Dict.empty
  deriving DecidableEq

def maxProgression : Nat := 20

namespace ContentNode

/-- `record_state`; `nodeId` is the key of the node in its graph. -/
def recordState (nodeId : String) (passNumber : Nat) (phase : Phase) (source : Source)
    (node : ContentNode) : ContentNode :=
  let entry : NodeState :=
    { id := nodeId ++ "@" ++ toString node.progression.length
      passNumber, phase, source, yamlLines := node.yamlLines }
  { node with progression := pushBounded maxProgression node.progression entry, state := some entry }

def updateFromYaml (text : Text) (node : ContentNode) : ContentNode :=
  { node with yamlLines := text }

end ContentNode

structure Edge where
  source : String
  target : String
  edgeType : EdgeType
  position : Nat := 0
  deriving DecidableEq

structure ContentGraph where
  nodes : Dict String ContentNode
  edges : List Edge := []
  dirtyNodes : List String := []

namespace ContentGraph

variable (g : ContentGraph) (nodeId : String)

def getNode : Option ContentNode := g.nodes.get? nodeId

variable (f : ContentNode → ContentNode)

def modifyNode : ContentGraph := { g with nodes := g.nodes.modify nodeId f }

def mapNodes : ContentGraph := { g with nodes := g.nodes.update fun _ node => f node }

def markDirty : ContentGraph := { g with dirtyNodes := g.dirtyNodes.insert nodeId }

def clearDirty : ContentGraph := { g with dirtyNodes := [] }

def recordState (g : ContentGraph) (nodeId : String) (passNumber : Nat) (phase : Phase)
    (source : Source) : ContentGraph :=
  g.modifyNode nodeId (ContentNode.recordState nodeId passNumber phase source)

section Frame

variable (g : ContentGraph) (id other : String) (f : ContentNode → ContentNode)

theorem getNode_modifyNode :
    (g.modifyNode id f).getNode other =
      if other = id then (g.getNode id).map f else g.getNode other :=
  Dict.get?_modify g.nodes id other f

@[simp]
theorem getNode_modifyNode_self : (g.modifyNode id f).getNode id = (g.getNode id).map f :=
  Dict.get?_modify_self g.nodes id f

theorem getNode_modifyNode_ne (hd : other ≠ id) :
    (g.modifyNode id f).getNode other = g.getNode other :=
  Dict.get?_modify_ne g.nodes id other f hd

@[simp]
theorem getNode_mapNodes : (g.mapNodes f).getNode id = (g.getNode id).map f :=
  Dict.get?_update g.nodes _ id

theorem mem_dirtyNodes_markDirty :
    other ∈ (g.markDirty id).dirtyNodes ↔ other = id ∨ other ∈ g.dirtyNodes :=
  List.mem_insert_iff

end Frame

end ContentGraph

end Apme.Graph
