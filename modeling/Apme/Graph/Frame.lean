import Apme.Graph.Ledger
import Apme.Lib.Outcome

/-!
# Operations on nodes, and what they leave alone

Approving marks snapshots, rejecting truncates the progression before the first
unapproved one and restores the YAML from what is left.  A node gets new YAML
from outside (`apply_yaml`) or by a transform of the parsed fragment
(`apply_transform`), a parameter; both mark it dirty when they change it.

`Keeps f g h` says that the graphs have the same nodes and that `f` has the
same value on corresponding nodes.  Every operation is listed with the parts
of a node it keeps.
-/

set_option autoImplicit false

namespace Apme.Graph

open Apme.Lib

def leadingBlanks (line : Text) : Nat := line.length - (Text.lstrip line).length

def detectIndent (text : Text) : Nat :=
  match (Text.lines text).find? fun line => !Text.isBlank line with
  | none => 0
  | some line => leadingBlanks line

def reindentLine (current target : Nat) (line : Text) : Text :=
  if Text.isBlank line then line
  else if current < target then List.replicate (target - current) ' ' ++ line
  else line.drop (min (current - target) (leadingBlanks line))

def reindent (text : Text) (target : Nat) : Text :=
  let current := detectIndent text
  if target = current then text
  else (Text.splitLines text).flatMap (reindentLine current target)

def fitIndent (depth : Nat) (text : Text) : Text :=
  if detectIndent text ≠ depth then reindent text depth else text

/-- What loading a fragment, transforming it and dumping it again can come to. -/
inductive TransformOutcome
  | raised
  | notApplied
  | dumped (text : Text)

abbrev NodeTransform := Text → Violation → TransformOutcome

namespace ContentGraph

variable (g : ContentGraph) (nodeId : String)

/-- Replace the YAML of a node and mark it dirty. -/
def rewrite (text : Text) : ContentGraph :=
  (g.modifyNode nodeId (ContentNode.updateFromYaml text)).markDirty nodeId

/-- `apply_yaml`; the flag tells whether the content changed. -/
def applyYaml (content : Text) : ContentGraph × Bool :=
  match g.getNode nodeId with
  | none => (g, false)
  | some node =>
    if fitIndent node.indentDepth content = node.yamlLines then (g, false)
    else (g.rewrite nodeId (fitIndent node.indentDepth content), true)

/-- `apply_transform`; `none` when loading aside something raised. -/
def applyTransform (transform : NodeTransform) (v : Violation) : Option (ContentGraph × Bool) :=
  match g.getNode nodeId with
  | none => some (g, false)
  | some node =>
    if node.yamlLines = [] then some (g, false)
    else
      match transform node.yamlLines v with
      | .raised => none
      | .notApplied => some (g, false)
      | .dumped newText =>
        let text := if node.indentDepth = 0 then newText else fitIndent node.indentDepth newText
        some (g.rewrite nodeId text, true)

theorem applyYaml_cases (id : String) (txt : Text) : g.applyYaml id txt = (g, false) ∨
      ∃ n t, g.getNode id = some n ∧ t ≠ n.yamlLines ∧
        g.applyYaml id txt = (g.rewrite id t, true) := by
  unfold applyYaml
  cases hf : g.getNode id with
  | none => exact .inl rfl
  | some n =>
    simp only
    split
    next => exact .inl rfl
    next hd => exact .inr ⟨n, _, rfl, hd, rfl⟩

theorem applyTransform_cases (id : String) (transform : NodeTransform) (v : Violation) :
    g.applyTransform id transform v = none ∨
      g.applyTransform id transform v = some (g, false) ∨
        ∃ t, g.applyTransform id transform v = some (g.rewrite id t, true) := by
  unfold applyTransform
  cases g.getNode id with
  | none => exact .inr (.inl rfl)
  | some n =>
    simp only
    split
    · exact .inr (.inl rfl)
    · cases transform n.yamlLines v with
      | raised => exact .inl rfl
      | notApplied => exact .inr (.inl rfl)
      | dumped newText => exact .inr (.inr ⟨_, rfl⟩)

end ContentGraph

section

variable (progression : List NodeState)

/-- `next((s for s in reversed(progression) if s.approved), None)`. -/
def lastApproved : Option NodeState := (progression.filter NodeState.approved).getLast?

def firstUnapproved : Option Nat := progression.findIdx? fun entry => !entry.approved

namespace NodeState

variable (sourceFilter : Option Source)

/-- With a filter, entries of another non-empty source stay pending. -/
def passesFilter (entry : NodeState) : Bool :=
  match sourceFilter with
  | none => true
  | some wanted => entry.source = .unset || entry.source = wanted

def approveIf (entry : NodeState) : NodeState :=
  if entry.passesFilter sourceFilter then { entry with approved := true } else entry

end NodeState

namespace ContentNode

def approvePending (sourceFilter : Option Source) (node : ContentNode) : ContentNode :=
  let progression := node.progression.map (NodeState.approveIf sourceFilter)
  { node with
    progression
    state := match progression.getLast? with
      | none => node.state
      | some last => some ((lastApproved progression).getD last) }

/-- The progression and YAML part of `reject_node`: cut before the first
unapproved entry, except that the baseline entry stays in any case. -/
def rollback (node : ContentNode) : ContentNode :=
  match firstUnapproved node.progression with
  | none => node
  | some first =>
    let kept := node.progression.take (max first 1)
    match kept.getLast? with
    | none => node
    | some restored =>
      { node with progression := kept, state := some restored }.updateFromYaml restored.yamlLines

end ContentNode

namespace ContentGraph

/-- `approve_pending`: an empty node id means the whole graph. -/
def approvePending (g : ContentGraph) (nodeId : String) (sourceFilter : Option Source) :
    ContentGraph :=
  if nodeId = "" then g.mapNodes (ContentNode.approvePending sourceFilter)
  else g.modifyNode nodeId (ContentNode.approvePending sourceFilter)

def approveNode (g : ContentGraph) (nodeId : String) : ContentGraph :=
  (g.approvePending nodeId none).approvePendingReview nodeId

def rejectNode (g : ContentGraph) (nodeId : String) : ContentGraph :=
  (g.declinePendingReview nodeId).modifyNode nodeId ContentNode.rollback

end ContentGraph

end

open Option

def Keeps {α : Type} (f : ContentNode → α) (g h : ContentGraph) : Prop :=
  ∀ nodeId, (h.getNode nodeId).map f = (g.getNode nodeId).map f

namespace Keeps

variable {α : Type} {f : ContentNode → α} {g h : ContentGraph}

theorem refl (g : ContentGraph) : Keeps f g g := fun _ => rfl

theorem trans {k : ContentGraph} (first : Keeps f g h) (hs : Keeps f h k) : Keeps f g k :=
  fun id => (hs id).trans (first id)

theorem isSome_iff (hk : Keeps f g h) (id : String) :
    (h.getNode id).isSome = (g.getNode id).isSome := by
  have hs := congrArg isSome (hk id)
  simpa using hs

theorem modifyNode (id : String) {m : ContentNode → ContentNode}
    (hk : ∀ n, f (m n) = f n) : Keeps f g (g.modifyNode id m) := by
  intro o
  rw [ContentGraph.getNode_modifyNode]
  split
  next hs =>
    subst hs
    rw [map_map]
    congr 1
    funext n
    exact hk n
  next => rfl

theorem mapNodes (m : ContentNode → ContentNode) (hk : ∀ n, f (m n) = f n) :
    Keeps f g (g.mapNodes m) := by
  intro o
  rw [ContentGraph.getNode_mapNodes, map_map]
  congr 1
  funext n
  exact hk n

theorem foldl {β : Type} {hs : ContentGraph → β → ContentGraph}
    (hk : ∀ h x, Keeps f h (hs h x)) (xs : List β) (g : ContentGraph) :
    Keeps f g (xs.foldl hs g) := by
  refine foldl_invariant (I := Keeps f g) ?_ g (refl g)
  intro st x _ hf
  exact hf.trans (hk st x)

theorem markDirty (id : String) : Keeps f g (g.markDirty id) := fun _ => rfl

theorem clearDirty : Keeps f g g.clearDirty := fun _ => rfl

section Operations

theorem rewrite (id : String) {t : Text}
    (hk : ∀ n, f (ContentNode.updateFromYaml t n) = f n) :
    Keeps f g (g.rewrite id t) :=
  (modifyNode id hk).trans (markDirty id)

variable (ledgerFree : ∀ (node : ContentNode) ledger,
  f { node with violationLedger := ledger } = f node)

include ledgerFree

theorem registerViolations (vs : List Violation) (pass : Nat) :
    Keeps f g (g.registerViolations vs pass) := by
  refine foldl (fun h v => ?_) vs g
  exact modifyNode v.path fun n => ledgerFree n _

theorem resolveViolations (id : String) (rem : List String) (fixedBy : FixedBy) (pass : Nat)
    (st : Status) : Keeps f g (g.resolveViolations id rem fixedBy pass st) :=
  modifyNode id fun n => ledgerFree n _

theorem abstainViolations (id : String) (ruleIds : List String)
    (reasons : Dict String (String × String)) :
    Keeps f g (g.abstainViolations id ruleIds reasons) :=
  modifyNode id fun n => ledgerFree n _

end Operations

end Keeps

/-- The step changes one node, by a function of that node alone. -/
def ActsOn (nodeId : String) (act : ContentNode → ContentNode)
    (step : ContentGraph → ContentGraph) : Prop :=
  ∀ g other, (step g).getNode other =
    if other = nodeId then (g.getNode nodeId).map act else g.getNode other

theorem ActsOn.modifyNode (id : String) (act : ContentNode → ContentNode) :
    ActsOn id act fun g => g.modifyNode id act :=
  fun g o => ContentGraph.getNode_modifyNode g id o act

theorem ActsOn.comp {id : String} {first second : ContentNode → ContentNode}
    {f h : ContentGraph → ContentGraph} (hf : ActsOn id first f)
    (hs : ActsOn id second h) : ActsOn id (second ∘ first) fun g => h (f g) := by
  intro g o
  rw [hs, hf, hf]
  split
  · rw [if_pos rfl, map_map]
  · rfl

theorem getNode_foldl_actsOn {ι : Type} {step : ContentGraph → ι → ContentGraph}
    {tgt : ι → String} {act : ι → ContentNode → ContentNode}
    (acts : ∀ item, ActsOn (tgt item) (act item) fun g => step g item) (xs : List ι)
    (g : ContentGraph) (id : String) :
    (xs.foldl step g).getNode id =
      (g.getNode id).map fun node =>
        (xs.filter fun item => tgt item = id).foldl (fun node item => act item node) node := by
  induction xs generalizing g with
  | nil => simp
  | cons item rest ih =>
    rw [List.foldl_cons, ih, acts item, List.filter_cons]
    by_cases here : tgt item = id
    · subst here
      simp [map_map, Function.comp_def]
    · have ha : id ≠ tgt item := fun hs => here hs.symm
      simp [here, ha]

end Apme.Graph
