import Apme.Graph.Queries
import Apme.Lib.Shadowing

/-!
# Which definition of a variable wins

`resolve_variables` walks the scopes of a task from the inside out and lets
definitions shadow each other, with another rule for each kind of node;
`resolve_all_definitions` lists every definition it meets.  Rule L034 ranks the
definitions of a name by where they come from.

The variables of a node are looked up by its id.  The tasks whose registered
results and facts are visible, in execution order, are a parameter: both
functions compute them in the same way from the node, the play and its scope.
-/

set_option autoImplicit false

namespace Apme.Graph

open Apme.Lib List Dict

inductive ProvenanceSource
  | external | roleDefault | inventoryFile | varsFile | playbook | play | block | roleVar
  | localVar | runtime
  deriving DecidableEq

/-- `_PRECEDENCE_ORDER` of rule L034. -/
def ProvenanceSource.precedence : ProvenanceSource → Nat
  | .external => 0
  | .roleDefault => 1
  | .inventoryFile => 2
  | .varsFile => 3
  | .playbook => 4
  | .play => 5
  | .block => 6
  | .roleVar => 7
  | .localVar => 8
  | .runtime => 9

def provenanceByNodeType : NodeType → ProvenanceSource
  | .task | .handler | .taskfile => .localVar
  | .block => .block
  | .play => .play
  | .playbook => .playbook
  | .role => .roleVar
  | .varsFile => .varsFile
  | _ => .external

variable {src : ProvenanceSource}

theorem precedence_le_local (hs : src ≠ .runtime) :
    src.precedence ≤ ProvenanceSource.localVar.precedence := by
  cases src <;> first | exact absurd rfl hs | decide

theorem precedence_le_roleVar_iff (hs : src ≠ .runtime) :
    src.precedence ≤ ProvenanceSource.roleVar.precedence ↔ src ≠ .localVar := by
  cases src <;> first | exact absurd rfl hs | decide

theorem precedence_le_runtime (src : ProvenanceSource) :
    src.precedence ≤ ProvenanceSource.runtime.precedence := by
  cases src <;> decide

theorem provenanceByNodeType_ne_runtime (ty : NodeType) : provenanceByNodeType ty ≠ .runtime := by
  cases ty <;> decide

theorem provenanceByNodeType_ne_roleVar {ty : NodeType} (ho : ty ≠ .role) :
    provenanceByNodeType ty ≠ .roleVar := by
  cases ty <;> first | exact absurd rfl ho | decide

section Model

variable {V : Type}

/-- The names of a loop's variables; a name that is not a text is `none`. -/
structure LoopControl where
  loopVar : Option String := some "item"
  indexVar : Option String := none

structure NodeVariables (V : Type) where
  ownVariables : Dict String V := empty
  defaultVariables : Dict String V := empty
  roleVariables : Dict String V := empty
  register : String := ""
  setFacts : Dict String V := empty
  loop : Option LoopControl := none

structure VariableProvenance (V : Type) where
  name : String
  value : Option V
  source : ProvenanceSource
  definingNodeId : String
  filePath : String
  line : Nat
  deriving DecidableEq

/-- A definition as the walk meets it, and whether it replaces an earlier one. -/
structure Binding (V : Type) where
  entry : VariableProvenance V
  overwrites : Bool
  deriving DecidableEq

def Binding.name (binding : Binding V) : String := binding.entry.name

def provenance (nodeId : String) (node : ContentNode) (source : ProvenanceSource) (name : String)
    (value : Option V) : VariableProvenance V where
  name := name
  value := value
  source := source
  definingNodeId := nodeId
  filePath := node.filePath
  line := node.lineStart

def tableDefinitions (nodeId : String) (node : ContentNode) (source : ProvenanceSource)
    (table : Dict String V) : List (VariableProvenance V) :=
  table.entries.map fun entry => provenance nodeId node source entry.1 (some entry.2)

variable (entry : VariableProvenance V)

def weakly : Binding V := ⟨entry, false⟩

def strongly : Binding V := ⟨entry, true⟩

variable (g : ContentGraph) (vars : String → NodeVariables V)

/-- The node and its scopes toward the root. -/
def buildScopeChain (nodeId : String) (playContextId : Option String)
    (playScope : Option (List String)) : List String :=
  let self := [nodeId].filter g.present
  match playContextId with
  | none => self ++ g.ancestors nodeId
  | some playId =>
    let scope := playScope.getD (g.playScopedNodeIds playId)
    let chain := self ++ g.playScopedPositionalAncestors nodeId scope
    -- The play's ancestors are pairwise different, so `seen` need not grow.
    chain ++ (g.ancestors playId).filter (· ∉ chain)

def varsFileDefinitions (scopeId : String) : List (VariableProvenance V) :=
  (g.edgesFrom scopeId .varsInclude).flatMap fun edge =>
    match g.getNode edge.target with
    | none => []
    | some file => tableDefinitions edge.target file .varsFile (vars edge.target).ownVariables

/-- What one scope adds: only a role's variables and those of the node itself
replace definitions met before. -/
def scopeBindings (nodeId scopeId : String) : List (Binding V) :=
  match g.getNode scopeId with
  | none => []
  | some scope =>
    (if scope.nodeType = .role then
      (tableDefinitions scopeId scope .roleDefault (vars scopeId).defaultVariables).map weakly ++
        (tableDefinitions scopeId scope .roleVar (vars scopeId).roleVariables).map strongly
    else
      (tableDefinitions scopeId scope (provenanceByNodeType scope.nodeType)
        (vars scopeId).ownVariables).map fun entry => ⟨entry, scopeId = nodeId⟩) ++
      (varsFileDefinitions g vars scopeId).map weakly

def chainBindings (nodeId : String) (playContextId : Option String)
    (playScope : Option (List String)) : List (Binding V) :=
  (buildScopeChain g nodeId playContextId playScope).flatMap (scopeBindings g vars nodeId)

def runtimeDefinitions (sources : List String) : List (VariableProvenance V) :=
  sources.flatMap fun sourceId =>
    match g.getNode sourceId with
    | none => []
    | some source =>
      (if (vars sourceId).register = "" then []
      else [provenance sourceId source .runtime (vars sourceId).register none]) ++
        tableDefinitions sourceId source .runtime (vars sourceId).setFacts

def loopDefinitions (nodeId : String) (node : ContentNode) : List (VariableProvenance V) :=
  match (vars nodeId).loop with
  | none => []
  | some control =>
    (control.loopVar.toList ++ control.indexVar.toList).map fun name =>
      provenance nodeId node .localVar name none

variable (sources : List String) (nodeId : String) (playContextId : Option String)
  (playScope : Option (List String))

def resolveVariables : Dict String (Binding V) :=
  match g.getNode nodeId with
  | none => empty
  | some node =>
    (chainBindings g vars nodeId playContextId playScope ++
      (runtimeDefinitions g vars sources).map strongly ++
      (loopDefinitions vars nodeId node).map strongly).foldl
      (shadow Binding.name Binding.overwrites) empty

/-- Definitions are appended in the order of the walk; loop variables go first. -/
def resolveAllDefinitions : Dict String (List (VariableProvenance V)) :=
  match g.getNode nodeId with
  | none => empty
  | some node =>
    (loopDefinitions vars nodeId node).foldl (fun d entry => d.pushFront entry.name entry)
      (groupBy VariableProvenance.name
        ((chainBindings g vars nodeId playContextId playScope).map Binding.entry ++
          runtimeDefinitions g vars sources))

end Model

section Specification

variable {V : Type}

/-- What the two results owe each other. -/
structure FollowsPrecedence (resolved : Dict String (Binding V))
    (all : Dict String (List (VariableProvenance V))) : Prop where
  sameNames : ∀ name, name ∈ resolved.keys ↔ name ∈ all.keys
  listed : ∀ name won, resolved.get? name = some won → won.entry ∈ (all.get? name).getD []
  highest : ∀ name won, resolved.get? name = some won → ∀ other ∈ (all.get? name).getD [],
    other.source.precedence ≤ won.entry.source.precedence

/-- When the definitions of a name are met in an order that suits their ranks:
a loop variable has no registered namesake, a role variable no local one, and
where nothing replaces the innermost definition none outranks it. -/
def PrecedenceKept (chain runtime loops : List (VariableProvenance V)) (name : String) : Prop :=
  if loops.any fun entry => entry.name = name then ∀ entry ∈ runtime, entry.name ≠ name
  else if runtime.any fun entry => entry.name = name then True
  else if chain.any fun entry => entry.name = name ∧ entry.source = .roleVar then
    ∀ entry ∈ chain, entry.name = name → entry.source ≠ .localVar
  else
    ∀ first, chain.find? (fun entry => entry.name = name) = some first →
      ∀ entry ∈ chain, entry.name = name → entry.source.precedence ≤ first.source.precedence

end Specification

section Chain

variable {V : Type} {g : ContentGraph} {vars : String → NodeVariables V}

variable {nodeId : String} {node : ContentNode} {entry : VariableProvenance V}

theorem tableDefinitions_source {table : Dict String V}
    (mem : entry ∈ tableDefinitions nodeId node src table) : entry.source = src := by
  obtain ⟨pair, -, rfl⟩ := mem_map.mp mem
  rfl

variable {scopeId : String}

theorem varsFileDefinitions_source
    (mem : entry ∈ varsFileDefinitions g vars scopeId) : entry.source = .varsFile := by
  obtain ⟨e, -, hf⟩ := mem_flatMap.mp mem
  split at hf
  · cases hf
  · exact tableDefinitions_source hf

theorem runtimeDefinitions_source {sources : List String}
    (mem : entry ∈ runtimeDefinitions g vars sources) : entry.source = .runtime := by
  obtain ⟨sourceId, -, hs⟩ := mem_flatMap.mp mem
  split at hs
  · cases hs
  · rcases mem_append.mp hs with hr | hf
    · split at hr
      · cases hr
      · rw [mem_singleton.mp hr]
        rfl
    · exact tableDefinitions_source hf

theorem loopDefinitions_source (mem : entry ∈ loopDefinitions vars nodeId node) :
    entry.source = .localVar := by
  unfold loopDefinitions at mem
  split at mem
  · cases mem
  · obtain ⟨name, -, rfl⟩ := mem_map.mp mem
    rfl

/-- A binding of a scope around the node: those of role variables replace, and only they. -/
structure OuterBinding (binding : Binding V) : Prop where
  overwrites_iff : binding.overwrites ↔ binding.entry.source = .roleVar
  static : binding.entry.source ≠ .runtime

theorem OuterBinding.weakly (hr : entry.source ≠ .roleVar)
    (static : entry.source ≠ .runtime) : OuterBinding (weakly entry) where
  overwrites_iff := by simp [Graph.weakly, hr]
  static := static

variable {binding : Binding V}

theorem OuterBinding.varsFile
    (mem : binding ∈ (varsFileDefinitions g vars scopeId).map Graph.weakly) :
    OuterBinding binding := by
  obtain ⟨e, hl, rfl⟩ := mem_map.mp mem
  have src := varsFileDefinitions_source hl
  exact OuterBinding.weakly (by rw [src]; decide) (by rw [src]; decide)

theorem scopeBindings_outer (hd : scopeId ≠ nodeId)
    (mem : binding ∈ scopeBindings g vars nodeId scopeId) : OuterBinding binding := by
  unfold scopeBindings at mem
  split at mem
  · cases mem
  next scope found =>
    rcases mem_append.mp mem with hn | hf
    · split at hn
      · rcases mem_append.mp hn with hde | hv
        · obtain ⟨entry, hl, rfl⟩ := mem_map.mp hde
          have src := tableDefinitions_source hl
          exact OuterBinding.weakly (by rw [src]; decide) (by rw [src]; decide)
        · obtain ⟨entry, hl, rfl⟩ := mem_map.mp hv
          have src : (strongly entry).entry.source = .roleVar := tableDefinitions_source hl
          exact ⟨⟨fun _ => src, fun _ => rfl⟩, by rw [src]; decide⟩
      next hr =>
        obtain ⟨entry, hl, rfl⟩ := mem_map.mp hn
        have src := tableDefinitions_source hl
        have hW : (⟨entry, scopeId = nodeId⟩ : Binding V) = weakly entry := by
          simp [weakly, hd]
        rw [hW]
        refine OuterBinding.weakly ?_ ?_
        · rw [src]
          exact provenanceByNodeType_ne_roleVar hr
        · rw [src]
          exact provenanceByNodeType_ne_runtime _
    · exact OuterBinding.varsFile hf

theorem buildScopeChain_eq (ha : g.isAcyclic) (here : g.present nodeId)
    (playContextId : Option String) (playScope : Option (List String)) :
    ∃ outer, buildScopeChain g nodeId playContextId playScope = nodeId :: outer ∧
      nodeId ∉ outer := by
  have hs : [nodeId].filter g.present = [nodeId] := by simp [here]
  unfold buildScopeChain
  rw [hs]
  cases playContextId with
  | none =>
    refine ⟨g.ancestors nodeId, rfl, ?_⟩
    intro mem
    exact not_leads_self ha nodeId (leads_of_mem_ancestors mem)
  | some playId =>
    refine ⟨_, rfl, ?_⟩
    intro mem
    rcases mem_append.mp mem with hp | hab
    · exact not_leads_self ha nodeId (leads_of_mem_scopedAncestors hp)
    · have hu := (mem_filter.mp hab).2
      simp at hu

/-- The definitions of a task's chain: its own variables, which all replace,
and then those around it. -/
structure Layers (own outer : List (Binding V)) : Prop where
  own : ∀ binding ∈ own, binding.overwrites ∧ binding.entry.source = .localVar
  outer : ∀ binding ∈ outer, OuterBinding binding

theorem chainBindings_layers (vars : String → NodeVariables V) (ha : g.isAcyclic)
    (hf : g.getNode nodeId = some node)
    (hT : node.nodeType = .task ∨ node.nodeType = .handler) (playContextId : Option String)
    (playScope : Option (List String)) :
    ∃ own outer, chainBindings g vars nodeId playContextId playScope = own ++ outer ∧
      Layers own outer := by
  have here : g.present nodeId := by simp [ContentGraph.present, hf]
  obtain ⟨scopes, hch, hab⟩ := buildScopeChain_eq ha here playContextId playScope
  have hr : node.nodeType ≠ .role := by
    rcases hT with hT | hT <;> rw [hT] <;> decide
  have hL : provenanceByNodeType node.nodeType = .localVar := by
    rcases hT with hT | hT <;> rw [hT] <;> rfl
  have hs : scopeBindings g vars nodeId nodeId =
      (tableDefinitions nodeId node .localVar (vars nodeId).ownVariables).map strongly ++
        (varsFileDefinitions g vars nodeId).map weakly := by
    unfold scopeBindings
    rw [hf]
    simp [hr, hL, strongly]
  refine ⟨(tableDefinitions nodeId node .localVar (vars nodeId).ownVariables).map strongly,
    (varsFileDefinitions g vars nodeId).map weakly ++ scopes.flatMap (scopeBindings g vars nodeId),
    ?_, ?_, ?_⟩
  · rw [chainBindings, hch, flatMap_cons, hs, append_assoc]
  · intro binding mem
    obtain ⟨entry, hl, rfl⟩ := mem_map.mp mem
    exact ⟨rfl, tableDefinitions_source hl⟩
  · intro binding mem
    rcases mem_append.mp mem with hff | hfs
    · exact OuterBinding.varsFile hff
    · obtain ⟨scopeId, hc, hn⟩ := mem_flatMap.mp hfs
      refine scopeBindings_outer ?_ hn
      rintro rfl
      exact hab hc

end Chain

section Winners

variable {V : Type}

def namedBindings (name : String) (bindings : List (Binding V)) : List (Binding V) :=
  bindings.filter fun binding => binding.name = name

variable {name : String} {bindings : List (Binding V)}

theorem mem_namedBindings {b : Binding V} :
    b ∈ namedBindings name bindings ↔ b ∈ bindings ∧ b.name = name := by
  simp [namedBindings]

theorem namedBindings_append (name : String) (front back : List (Binding V)) :
    namedBindings name (front ++ back) = namedBindings name front ++ namedBindings name back :=
  filter_append ..

variable {back : List (Binding V)} (front : List (Binding V))

theorem winner_named_of_strong
    (hd : ∃ bd ∈ back, bd.name = name ∧ bd.overwrites) :
    ∃ won ∈ back, won.name = name ∧ won.overwrites ∧
      winner Binding.overwrites (namedBindings name (front ++ back)) = some won := by
  obtain ⟨bd, hm, hna, hst⟩ := hd
  rw [namedBindings_append]
  obtain ⟨won, hb, hs, hw⟩ :=
    winner_append_of_strong (namedBindings name front) ⟨bd, mem_namedBindings.mpr ⟨hm, hna⟩, hst⟩
  obtain ⟨hl, hn⟩ := mem_namedBindings.mp hb
  exact ⟨won, hl, hn, hs, hw⟩

/-- No definition of the name outranks the one that wins. -/
def WinnerHighest (bindings : List (Binding V)) (name : String) : Prop :=
  ∀ won, winner Binding.overwrites (namedBindings name bindings) = some won →
    ∀ other ∈ bindings, other.name = name →
      other.entry.source.precedence ≤ won.entry.source.precedence

theorem winnerHighest_iff {won : Binding V}
    (hW : winner Binding.overwrites (namedBindings name bindings) = some won) :
    WinnerHighest bindings name ↔ ∀ o ∈ bindings, o.name = name →
      o.entry.source.precedence ≤ won.entry.source.precedence := by
  constructor
  · intro hh
    exact hh won hW
  · intro hh o hf
    rw [hW] at hf
    cases hf
    exact hh

variable {own outer : List (Binding V)} {runtime loops : List (VariableProvenance V)}
  {name : String}

section

variable (layers : Layers own outer)
include layers

theorem Layers.static : ∀ bd ∈ own ++ outer, bd.entry.source ≠ .runtime := by
  intro bd mem
  rcases mem_append.mp mem with how | ho
  · rw [(layers.own bd how).2]
    decide
  · exact (layers.outer bd ho).static

theorem Layers.highest_of_roleVar
    (hR : ∃ bd ∈ own ++ outer, bd.name = name ∧ bd.entry.source = .roleVar) :
    WinnerHighest (own ++ outer) name ↔
      ∀ bd ∈ own ++ outer, bd.name = name → bd.entry.source ≠ .localVar := by
  obtain ⟨bd, hm, hn, src⟩ := hR
  have ho : bd ∈ outer := by
    rcases mem_append.mp hm with how | hO
    · rw [(layers.own bd how).2] at src
      cases src
    · exact hO
  have hS := (layers.outer bd ho).overwrites_iff.mpr src
  obtain ⟨won, hwo, -, hs, hw⟩ :=
    winner_named_of_strong own ⟨bd, ho, hn, hS⟩
  rw [winnerHighest_iff hw, (layers.outer won hwo).overwrites_iff.mp hs]
  refine forall₃_congr ?_
  intro o hom _
  exact precedence_le_roleVar_iff (layers.static o hom)

theorem Layers.highest_of_first
    (hr : ∀ bd ∈ own ++ outer, bd.name = name → bd.entry.source ≠ .roleVar) :
    WinnerHighest (own ++ outer) name ↔
      ∀ first, (namedBindings name (own ++ outer)).head? = some first →
        ∀ bd ∈ own ++ outer, bd.name = name →
          bd.entry.source.precedence ≤ first.entry.source.precedence := by
  have hw : ∀ bd ∈ namedBindings name outer, bd.overwrites = false := by
    intro bd mem
    obtain ⟨ho, hna⟩ := mem_namedBindings.mp mem
    rw [← Bool.not_eq_true, (layers.outer bd ho).overwrites_iff]
    exact hr bd (mem_append_right own ho) hna
  cases hn : namedBindings name own with
  | nil =>
    have hao : namedBindings name (own ++ outer) = namedBindings name outer := by
      rw [namedBindings_append, hn, nil_append]
    have hH : winner Binding.overwrites (namedBindings name (own ++ outer)) =
        (namedBindings name (own ++ outer)).head? := by
      rw [hao]
      rcases winner_cases Binding.overwrites (namedBindings name outer) with
        ⟨early, item, late, hsp, hs, -⟩ | ⟨-, hH⟩
      · have ho : item ∈ namedBindings name outer := by
          rw [hsp]
          exact mem_append_right early mem_cons_self
        rw [hw item ho] at hs
        cases hs
      · exact hH
    unfold WinnerHighest
    rw [hH]
  | cons first rest =>
    -- The task's own definition wins, and is the first on the chain.
    have hf : first ∈ own := by
      have hl : first ∈ namedBindings name own := by
        rw [hn]
        exact mem_cons_self
      exact (mem_namedBindings.mp hl).1
    have hbl : ∀ bd ∈ own ++ outer, bd.entry.source.precedence ≤
        ProvenanceSource.localVar.precedence :=
      fun bd mem => precedence_le_local (layers.static bd mem)
    constructor
    · intro _ head hH bd mem _
      rw [namedBindings_append, hn] at hH
      cases hH
      rw [(layers.own first hf).2]
      exact hbl bd mem
    · intro _ won hW bd mem _
      have hwo : won ∈ own := by
        rcases winner_cases Binding.overwrites (namedBindings name (own ++ outer)) with
          ⟨early, item, late, hsp, hs, -, hi⟩ | ⟨haw, -⟩
        · rw [hi] at hW
          cases hW
          have hl : won ∈ namedBindings name own ++ namedBindings name outer := by
            rw [← namedBindings_append, hsp]
            exact mem_append_right early mem_cons_self
          rcases mem_append.mp hl with how | hou
          · exact (mem_namedBindings.mp how).1
          · rw [hw won hou] at hs
            cases hs
        · have hWe : first.overwrites = false := by
            apply haw
            rw [namedBindings_append, hn]
            exact mem_append_left _ mem_cons_self
          rw [(layers.own first hf).1] at hWe
          cases hWe
      rw [(layers.own won hwo).2]
      exact hbl bd mem

end

theorem winnerHighest_append {front : List (Binding V)} (hu : namedBindings name back = []) :
    WinnerHighest (front ++ back) name ↔ WinnerHighest front name := by
  have ha : ∀ bd ∈ back, bd.name ≠ name := by
    intro bd mem hn
    have hl := mem_namedBindings.mpr ⟨mem, hn⟩
    rw [hu] at hl
    cases hl
  unfold WinnerHighest
  rw [namedBindings_append, hu, append_nil]
  refine forall₂_congr ?_
  intro won _
  constructor
  · intro hh o mem hn
    exact hh o (mem_append_left back mem) hn
  · intro hh o mem hn
    rcases mem_append.mp mem with hf | hb
    · exact hh o hf hn
    · exact absurd hn (ha o hb)

variable {entries : List (VariableProvenance V)}

theorem namedBindings_strongly (ha : ¬(entries.any fun e => e.name = name)) :
    namedBindings name (entries.map strongly) = [] := by
  simp only [namedBindings, filter_eq_nil_iff, mem_map]
  rintro bd ⟨e, hl, rfl⟩ hn
  exact ha (any_eq_true.mpr ⟨e, hl, hn⟩)

theorem Layers.highest_of_loop (layers : Layers own outer)
    (hR : ∀ e ∈ runtime, e.source = .runtime)
    (hL : ∀ e ∈ loops, e.source = .localVar)
    (hbl : ∃ bd ∈ loops.map strongly, bd.name = name ∧ bd.overwrites) :
    WinnerHighest (own ++ outer ++ runtime.map strongly ++ loops.map strongly) name ↔
      ∀ e ∈ runtime, e.name ≠ name := by
  obtain ⟨won, hfl, -, -, hw⟩ :=
    winner_named_of_strong (own ++ outer ++ runtime.map strongly) hbl
  obtain ⟨wonEntry, hm, rfl⟩ := mem_map.mp hfl
  have hwl : (strongly wonEntry).entry.source = .localVar := hL wonEntry hm
  rw [winnerHighest_iff hw, hwl]
  constructor
  · intro hh o hr hN
    have hb := hh (strongly o) (mem_append_left _ (mem_append_right _ (mem_map_of_mem hr))) hN
    have src : (strongly o).entry.source = .runtime := hR o hr
    rw [src] at hb
    exact absurd hb (by decide)
  · intro hf o ha hN
    rcases mem_append.mp ha with he | hil
    · rcases mem_append.mp he with hc | hr
      · exact precedence_le_local (layers.static o hc)
      · obtain ⟨e, hl, rfl⟩ := mem_map.mp hr
        exact absurd hN (hf e hl)
    · obtain ⟨e, hl, rfl⟩ := mem_map.mp hil
      have src : (strongly e).entry.source = .localVar := hL e hl
      rw [src]

theorem highest_of_runtime (hR : ∀ e ∈ runtime, e.source = .runtime)
    (hbr : ∃ bd ∈ runtime.map strongly, bd.name = name ∧ bd.overwrites)
    : WinnerHighest (front ++ runtime.map strongly) name := by
  obtain ⟨won, hir, -, -, hw⟩ := winner_named_of_strong front hbr
  obtain ⟨wonEntry, hm, rfl⟩ := mem_map.mp hir
  have hr : (strongly wonEntry).entry.source = .runtime := hR wonEntry hm
  rw [winnerHighest_iff hw, hr]
  intro o _ _
  exact precedence_le_runtime _

theorem exists_strongly (hd : (entries.any fun e => e.name = name)) :
    ∃ bd ∈ entries.map strongly, bd.name = name ∧ bd.overwrites := by
  obtain ⟨e, hm, hn⟩ := any_eq_true.mp hd
  exact ⟨strongly e, mem_map_of_mem hm, of_decide_eq_true hn, rfl⟩

theorem find?_entries (bindings : List (Binding V)) :
    (bindings.map Binding.entry).find? (fun e => e.name = name) =
      (namedBindings name bindings).head?.map Binding.entry := by
  rw [List.find?_map, namedBindings, List.head?_filter]
  rfl

theorem Layers.highest_iff_kept (layers : Layers own outer)
    (hR : ∀ entry ∈ runtime, entry.source = .runtime)
    (hL : ∀ entry ∈ loops, entry.source = .localVar) :
    WinnerHighest (own ++ outer ++ runtime.map strongly ++ loops.map strongly) name ↔
      PrecedenceKept ((own ++ outer).map Binding.entry) runtime loops name := by
  unfold PrecedenceKept
  split
  next hbl => exact layers.highest_of_loop hR hL (exists_strongly hbl)
  next hl =>
  rw [winnerHighest_append (namedBindings_strongly hl)]
  split
  next hbr =>
    exact iff_of_true (highest_of_runtime _ hR (exists_strongly hbr)) trivial
  next hr =>
  rw [winnerHighest_append (namedBindings_strongly hr)]
  split
  next byRole =>
    obtain ⟨entry, hm, hro⟩ := any_eq_true.mp byRole
    obtain ⟨binding, hc, rfl⟩ := mem_map.mp hm
    rw [layers.highest_of_roleVar ⟨binding, hc, of_decide_eq_true hro⟩, forall_mem_map]
    rfl
  next hnr =>
    have noRole : ∀ binding ∈ own ++ outer, binding.name = name →
        binding.entry.source ≠ .roleVar := by
      intro binding hm hn src
      refine hnr (any_eq_true.mpr ⟨binding.entry, mem_map_of_mem hm, ?_⟩)
      exact decide_eq_true ⟨hn, src⟩
    rw [layers.highest_of_first noRole, find?_entries]
    simp only [forall_mem_map, Option.map_eq_some_iff, forall_exists_index, and_imp,
      forall_apply_eq_imp_iff₂]
    rfl

end Winners

section Resolution

variable {V : Type} {g : ContentGraph} {vars : String → NodeVariables V} {sources : List String}
  {nodeId : String} {node : ContentNode} {playContextId : Option String}
  {playScope : Option (List String)}

section

variable (found : g.getNode nodeId = some node) (name : String)

include found

theorem get?_resolveVariables :
    (resolveVariables g vars sources nodeId playContextId playScope).get? name =
      winner Binding.overwrites (namedBindings name
        (chainBindings g vars nodeId playContextId playScope ++
          (runtimeDefinitions g vars sources).map strongly ++
          (loopDefinitions vars nodeId node).map strongly)) := by
  unfold resolveVariables
  simp only [found]
  rw [get?_foldl_shadow, get?_empty]
  rfl

theorem mem_resolveAllDefinitions (entry : VariableProvenance V) :
    entry ∈ ((resolveAllDefinitions g vars sources nodeId playContextId playScope).get? name).getD
        [] ↔
      ∃ binding ∈ chainBindings g vars nodeId playContextId playScope ++
          (runtimeDefinitions g vars sources).map strongly ++
          (loopDefinitions vars nodeId node).map strongly,
        binding.name = name ∧ binding.entry = entry := by
  unfold resolveAllDefinitions
  simp only [found]
  rw [getD_foldl_pushFront, getD_groupBy]
  simp only [mem_append, mem_reverse, mem_filter, mem_map, decide_eq_true_eq]
  constructor
  · rintro (⟨hl, hn⟩ | ⟨⟨binding, hc, rfl⟩ | hr, hn⟩)
    · exact ⟨strongly entry, .inr ⟨entry, hl, rfl⟩, hn, rfl⟩
    · exact ⟨binding, .inl (.inl hc), hn, rfl⟩
    · exact ⟨strongly entry, .inl (.inr ⟨entry, hr, rfl⟩), hn, rfl⟩
  · rintro ⟨binding, (hc | ⟨other, hr, rfl⟩) | ⟨other, hl, rfl⟩, hn, rfl⟩
    · exact .inr ⟨.inl ⟨binding, hc, rfl⟩, hn⟩
    · exact .inr ⟨.inr hr, hn⟩
    · exact .inl ⟨hl, hn⟩

theorem mem_keys_resolveAllDefinitions :
    name ∈ (resolveAllDefinitions g vars sources nodeId playContextId playScope).keys ↔
      ∃ binding ∈ chainBindings g vars nodeId playContextId playScope ++
          (runtimeDefinitions g vars sources).map strongly ++
          (loopDefinitions vars nodeId node).map strongly, binding.name = name := by
  unfold resolveAllDefinitions
  simp only [found]
  rw [mem_keys_foldl_pushFront, mem_keys_groupBy]
  simp only [mem_append, mem_map]
  constructor
  · rintro (⟨entry, ⟨binding, hc, rfl⟩ | hr, hn⟩ | ⟨entry, hl, hn⟩)
    · exact ⟨binding, .inl (.inl hc), hn⟩
    · exact ⟨strongly entry, .inl (.inr ⟨entry, hr, rfl⟩), hn⟩
    · exact ⟨strongly entry, .inr ⟨entry, hl, rfl⟩, hn⟩
  · rintro ⟨binding, (hc | ⟨other, hr, rfl⟩) | ⟨other, hl, rfl⟩, hn⟩
    · exact .inl ⟨binding.entry, .inl ⟨binding, hc, rfl⟩, hn⟩
    · exact .inl ⟨other, .inr hr, hn⟩
    · exact .inr ⟨other, hl, hn⟩

theorem resolve_sameNames :
    name ∈ (resolveVariables g vars sources nodeId playContextId playScope).keys ↔
      name ∈ (resolveAllDefinitions g vars sources nodeId playContextId playScope).keys := by
  rw [mem_keys_resolveAllDefinitions found, mem_keys_iff, ← Option.isSome_iff_exists,
    get?_resolveVariables found, winner_isSome_iff]
  constructor
  · intro ne
    obtain ⟨binding, hl⟩ := exists_mem_of_ne_nil _ ne
    exact ⟨binding, mem_namedBindings.mp hl⟩
  · rintro ⟨binding, hm, hn⟩
    exact ne_nil_of_mem (mem_namedBindings.mpr ⟨hm, hn⟩)

end

theorem resolve_listed (hf : g.getNode nodeId = some node) {name : String} {won : Binding V}
    (hd : (resolveVariables g vars sources nodeId playContextId playScope).get? name = some won) :
    won.entry ∈
      ((resolveAllDefinitions g vars sources nodeId playContextId playScope).get? name).getD [] := by
  rw [get?_resolveVariables hf] at hd
  obtain ⟨hm, hn⟩ := mem_namedBindings.mp (winner_mem hd)
  exact (mem_resolveAllDefinitions hf name won.entry).mpr ⟨won, hm, hn, rfl⟩

/-- For a task or handler of an acyclic graph the winners follow the ranks of
rule L034 just when for every name the order of the walk suits the ranks. -/
theorem winners_follow_precedence_iff (acyclic : g.isAcyclic)
    (found : g.getNode nodeId = some node)
    (isTask : node.nodeType = .task ∨ node.nodeType = .handler) :
    FollowsPrecedence (resolveVariables g vars sources nodeId playContextId playScope)
        (resolveAllDefinitions g vars sources nodeId playContextId playScope) ↔
      ∀ name, PrecedenceKept
        ((chainBindings g vars nodeId playContextId playScope).map Binding.entry)
        (runtimeDefinitions g vars sources) (loopDefinitions vars nodeId node) name := by
  obtain ⟨own, outer, chain, layers⟩ :=
    chainBindings_layers vars acyclic found isTask playContextId playScope
  have highest : ∀ name,
      WinnerHighest (chainBindings g vars nodeId playContextId playScope ++
          (runtimeDefinitions g vars sources).map strongly ++
          (loopDefinitions vars nodeId node).map strongly) name ↔
        PrecedenceKept ((chainBindings g vars nodeId playContextId playScope).map Binding.entry)
          (runtimeDefinitions g vars sources) (loopDefinitions vars nodeId node) name := by
    intro name
    rw [chain]
    exact layers.highest_iff_kept (fun _ => runtimeDefinitions_source)
      (fun _ => loopDefinitions_source)
  constructor
  · intro follows name
    rw [← highest]
    intro won isWinner other member named
    refine follows.highest name won ?_ other.entry ?_
    · rw [get?_resolveVariables found]
      exact isWinner
    · exact (mem_resolveAllDefinitions found name other.entry).mpr ⟨other, member, named, rfl⟩
  · intro kept
    refine ⟨resolve_sameNames found, fun name won => resolve_listed found, ?_⟩
    intro name won resolved other listed
    rw [get?_resolveVariables found] at resolved
    obtain ⟨binding, member, named, rfl⟩ := (mem_resolveAllDefinitions found name other).mp listed
    exact (highest name).mpr (kept name) won resolved binding member named

end Resolution

/-- A play with a role, and the task of the role. -/
def roleGraph : ContentGraph where
  nodes := empty |>.insert "play" { nodeType := .play }
    |>.insert "role" { nodeType := .role }
    |>.insert "task" { nodeType := .task }
  edges := [⟨"play", "role", .dependency, 0⟩, ⟨"role", "task", .contains, 0⟩]

/-- The play sets the variable that the role has a default for. -/
def portVariables : String → NodeVariables Nat
  | "play" => { ownVariables := empty.insert "port" 8080 }
  | "role" => { defaultVariables := empty.insert "port" 80 }
  | _ => {}

/-- The task of the role sets it as well. -/
def taskPortVariables : String → NodeVariables Nat
  | "task" => { ownVariables := empty.insert "port" 8443 }
  | other => portVariables other

theorem taskPort_chain :
    (chainBindings roleGraph taskPortVariables "task" (some "play") none).map Binding.entry =
      [⟨"port", some 8443, .localVar, "task", "", 0⟩, ⟨"port", some 80, .roleDefault, "role", "", 0⟩,
        ⟨"port", some 8080, .play, "play", "", 0⟩] := by
  decide

theorem taskPort_follows :
    FollowsPrecedence (resolveVariables roleGraph taskPortVariables [] "task" (some "play") none)
      (resolveAllDefinitions roleGraph taskPortVariables [] "task" (some "play") none) := by
  rw [winners_follow_precedence_iff (by decide) rfl (.inl rfl)]
  intro name
  rw [taskPort_chain]
  by_cases isPort : "port" = name
  · subst isPort
    unfold PrecedenceKept
    decide
  · simp [PrecedenceKept, isPort, loopDefinitions, runtimeDefinitions, taskPortVariables]

/-- The role's default, of the lowest rank on the chain, hides the variable of the play. -/
theorem rolePort_hides_play :
    roleGraph.isAcyclic ∧
      ¬FollowsPrecedence (resolveVariables roleGraph portVariables [] "task" (some "play") none)
        (resolveAllDefinitions roleGraph portVariables [] "task" (some "play") none) := by
  refine ⟨by decide, ?_⟩
  intro follows
  have outranked := follows.highest "port"
    ⟨⟨"port", some 80, .roleDefault, "role", "", 0⟩, false⟩ (by decide)
    ⟨"port", some 8080, .play, "play", "", 0⟩ (by decide)
  exact absurd outranked (by decide)

end Apme.Graph
