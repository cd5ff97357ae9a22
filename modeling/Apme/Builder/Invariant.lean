import Apme.Builder.Build
import Apme.Graph.Queries

/-!
# Invariants of the graph builder

A build is a run of steps that add a node, add an edge from a node that is there
or note a visit.  A property of the builder state that the steps keep holds of
the state in which a build ends.
-/

set_option autoImplicit false

namespace Apme.Builder

open Apme.Lib Apme.Graph List Holds

def GraphBuilder.has (b : GraphBuilder) (nodeId : String) : Prop := b.graph.present nodeId

/-- One step of the builder. -/
inductive BuildStep (p : Project) (b : GraphBuilder) : GraphBuilder → Prop
  | addEdge (source target : String) (edgeType : EdgeType) (position : Nat) (has : b.has source) :
      BuildStep p b (b.addEdge source target edgeType position)
  | visit (nodeId : String) : BuildStep p b (b.visit nodeId)
  | addBare (nodeId : String) (node : ContentNode) (noText : node.yamlLines = [])
      (blank : node.progression = []) : BuildStep p b (b.addNode nodeId node)
  | addTask (nodeId : String) (nodeType : NodeType) (filePath : String) (scope : NodeScope) (task : TaskDef) :
      BuildStep p b (b.addNode nodeId (definitionNode nodeType filePath scope task) (.definition filePath task))
  | addHandler (nodeId filePath : String) (scope : NodeScope) (task : TaskDef) :
      BuildStep p b (buildHandler scope filePath nodeId task b)
  | setHeader (scope : NodeScope) (playbook : PlaybookDef) (playIndex : Nat) (play : PlayDef)
      (listed : .playbook playbook ∈ p.heap) (content : playbook.yamlLines ≠ [])
      (starts : 0 < (playLines playbook.yamlLines playIndex play).1) :
      BuildStep p b (setHeader (childId playbook.definedIn "plays" playIndex)
        (playNode scope playbook.definedIn (playLines playbook.yamlLines playIndex play) play)
        (playCut playbook.yamlLines (playLines playbook.yamlLines playIndex play)
          (childId playbook.definedIn "plays" playIndex) b.graph) b)

inductive Builds (p : Project) (b : GraphBuilder) : GraphBuilder → Prop
  | refl : Builds p b b
  | tail {next last : GraphBuilder} : Builds p b next → BuildStep p next last → Builds p b last

/-- The outcome of a part of the build that starts in `b`. -/
abbrev BuildsTo (p : Project) (b : GraphBuilder) (x : Except RecursionError GraphBuilder) : Prop :=
  Holds (Builds p b) (fun _ => True) x

/-- A loop that carries the next position. -/
abbrev BuildsOn (p : Project) (b : GraphBuilder) (x : Except RecursionError (GraphBuilder × Nat)) : Prop :=
  Holds (fun state : GraphBuilder × Nat => Builds p b state.1) (fun _ => True) x

namespace Builds

variable {p : Project} {b next : GraphBuilder}

theorem has_addNode (b : GraphBuilder) (id : String) (n : ContentNode) (origin : Origin)
    (other : String) : (b.addNode id n origin).has other ↔ other = id ∨ b.has other := by
  show ((b.graph.nodes.insert id n).get? other).isSome ↔ _
  rw [Dict.get?_insert]
  split
  next hs => simp [hs]
  next hd => simp [hd, GraphBuilder.has, ContentGraph.present, ContentGraph.getNode]

theorem single (ht : BuildStep p b next) : Builds p b next := .tail .refl ht

theorem trans {last : GraphBuilder} (first : Builds p b next) (hs : Builds p next last) :
    Builds p b last := by
  induction hs with
  | refl => exact first
  | tail _ ht ih => exact .tail ih ht

theorem has (built : Builds p b next) {nodeId : String} (has : b.has nodeId) : next.has nodeId := by
  induction built with
  | refl => exact has
  | tail _ ht ih =>
    cases ht with
    | addEdge | visit => exact ih
    | _ => exact (has_addNode _ _ _ _ _).mpr (.inr ih)

section

variable (b : GraphBuilder) (nodeId : String) (node : ContentNode) (noText : node.yamlLines = [])
  (blank : node.progression = [])
include noText blank

theorem bare : Builds p b (b.addNode nodeId node) ∧ (b.addNode nodeId node).has nodeId :=
  ⟨.single (.addBare nodeId node noText blank), (has_addNode _ _ _ _ _).mpr (.inl rfl)⟩

theorem enter : Builds p b ((b.visit nodeId).addNode nodeId node) ∧
    ((b.visit nodeId).addNode nodeId node).has nodeId := by
  obtain ⟨ha, has⟩ := bare (b.visit nodeId) nodeId node noText blank
  exact ⟨(single (.visit nodeId)).trans ha, has⟩

end

variable {source : String}

variable (built : Builds p b next)
include built

theorem then_addEdge (has : next.has source) (tgt : String) (kind : EdgeType)
    (pos : Nat) : Builds p b (next.addEdge source tgt kind pos) :=
  built.tail (.addEdge source tgt kind pos has)

theorem then_wired (has : next.has source) (tgt : String) (ty : NodeType)
    (scope : NodeScope) (kind : EdgeType) (pos : Nat) :
    Builds p b ((next.ensureNode tgt ty scope).addEdge source tgt kind pos) := by
  have he : Builds p next (next.ensureNode tgt ty scope) := by
    unfold GraphBuilder.ensureNode
    split
    · exact .refl
    · exact .single (.addBare tgt _ rfl rfl)
  exact (built.trans he).then_addEdge (he.has has) tgt kind pos

theorem then_to {x : Except RecursionError GraphBuilder} (hg : BuildsTo p next x) : BuildsTo p b x :=
  hg.mono (fun _ hl => built.trans hl) fun _ _ => trivial

end Builds

section Parts

variable {p : Project} (scope : NodeScope) {b : GraphBuilder}

theorem builds_wireExecutable (f : String) {id : String} (task : TaskDef)
    (has : b.has id) : Builds p b (wireExecutable scope f id task b) := by
  unfold wireExecutable
  split
  · exact .refl
  · split
    · exact Builds.refl.then_wired has _ _ scope _ _
    · split
      · exact .refl
      · exact .single (.addEdge _ _ _ _ has)
    · exact .refl

variable {build : String → TaskDef → GraphBuilder → Except RecursionError GraphBuilder} {blockId : String}

section

variable (built : ∀ nodeId task b, BuildsTo p b (build nodeId task b))
include built

theorem builds_wireSection
    (sectionName : String) (edgeTypes : List EdgeType) (refs : List Ref) (has : b.has blockId) :
    BuildsTo p b (wireSection p build blockId sectionName edgeTypes refs b) := by
  refine foldlM (fun st e _ hg => ?_) b .refl
  split
  · exact hg
  · refine (hg.then_to (built _ _ st)).bind fun next hg => ?_
    exact foldl_invariant (fun st kind _ hg => hg.then_addEdge (hg.has has) _ kind _) next hg

theorem builds_wireBlockChildren (task : TaskDef)
    (has : b.has blockId) : BuildsTo p b (wireBlockChildren p build blockId task b) := by
  refine (builds_wireSection built _ _ _ has).bind fun next hg => ?_
  refine (hg.then_to (builds_wireSection built _ _ _ (hg.has has))).bind fun next hg => ?_
  exact hg.then_to (builds_wireSection built _ _ _ (hg.has has))

end

theorem builds_buildTask (f : String) (limit : Nat) (id : String) (task : TaskDef)
    (b : GraphBuilder) : BuildsTo p b (buildTask p scope f limit id task b) := by
  induction limit generalizing id task b with
  | zero => trivial
  | succ limit ih =>
    have has := (Builds.has_addNode b id (definitionNode task.nodeType f scope task)
      (.definition f task) id).mpr (.inl rfl)
    unfold buildTask
    refine (Builds.single (.addTask id task.nodeType f scope task)).then_to ?_
    split
    · exact (builds_wireBlockChildren ih task has).bind fun next hg =>
        hg.trans (builds_wireExecutable scope f task (hg.has has))
    · exact builds_wireExecutable scope f task has

variable {state : GraphBuilder × Nat}

variable {playId : String} (limit : Nat)

theorem builds_buildTaskList (f : String) (refs : List Ref) (has : b.has playId)
    (hg : Builds p b state.1) : BuildsOn p b
    (buildTaskList p scope limit f playId refs state) := by
  refine foldlM (fun state ref _ hg => ?_) state hg
  split
  · exact hg
  · exact (hg.then_to (builds_buildTask scope f limit _ _ state.1)).bind
      fun next hg => hg.then_addEdge (hg.has has) _ _ _

theorem builds_wireVarsFiles (f : String) (varsFiles : List String) (has : b.has playId)
    (hg : Builds p b state.1) : Builds p b (wireVarsFiles scope f playId varsFiles state).1 :=
  foldl_invariant (I := fun state : GraphBuilder × Nat => Builds p b state.1)
    (fun _ _ _ hg => hg.then_wired (hg.has has) _ _ scope _ _) state hg

theorem builds_wireRoles (roles : List String) (has : b.has playId)
    (hg : Builds p b state.1) : Builds p b (wireRoles playId roles state).1 := by
  refine foldl_invariant (I := fun state : GraphBuilder × Nat => Builds p b state.1)
    (fun state name _ hg => ?_) state hg
  split
  · exact hg
  · exact hg.then_addEdge (hg.has has) _ _ _

theorem builds_buildHandler (f handlerId : String) (task : TaskDef) {par : String}
    (has : b.has par) (pos : Nat) {next : GraphBuilder} (hg : Builds p b next) :
    Builds p b ((buildHandler scope f handlerId task next).addEdge par handlerId .contains
      pos) := by
  have ha : Builds p next (buildHandler scope f handlerId task next) :=
    .single (.addHandler handlerId f scope task)
  exact (hg.trans ha).then_addEdge (ha.has (hg.has has)) _ _ _

theorem builds_buildHandlers (f : String) (refs : List Ref) (has : b.has playId)
    (hg : Builds p b state.1) : Builds p b (buildHandlers p scope f playId refs state).1 := by
  refine foldl_invariant (I := fun state : GraphBuilder × Nat => Builds p b state.1)
    (fun state e _ hg => ?_) state hg
  split
  · exact hg
  · exact builds_buildHandler scope f _ _ has _ hg

section

variable (limit : Nat) {playbook : PlaybookDef} (listed : .playbook playbook ∈ p.heap)
include listed

theorem builds_buildPlay (playIndex : Nat) (play : PlayDef) (b : GraphBuilder) :
    BuildsTo p b (buildPlay p scope limit playbook.definedIn playbook.yamlLines playIndex play b) := by
  obtain ⟨ha, has⟩ := Builds.bare (p := p) b (childId playbook.definedIn "plays" playIndex)
    (playNode scope playbook.definedIn (playLines playbook.yamlLines playIndex play) play) rfl rfl
  unfold buildPlay
  refine ha.then_to ?_
  refine (builds_buildTaskList scope limit _ play.preTasks has
    (builds_wireVarsFiles scope _ play.varsFiles has .refl)).bind fun state hg => ?_
  refine (builds_buildTaskList scope limit _ play.tasks has
    (builds_wireRoles play.roles has hg)).bind fun state hg => ?_
  refine (builds_buildTaskList scope limit _ play.postTasks has hg).bind fun state hg => ?_
  have hh := builds_buildHandlers scope playbook.definedIn play.handlers has hg
  dsimp only
  split
  next hc => exact hh.tail (.setHeader scope playbook playIndex play listed hc.1 hc.2)
  next => exact hh

theorem builds_buildPlaybook (b : GraphBuilder) : BuildsTo p b
    (buildPlaybook p scope limit playbook b) := by
  unfold buildPlaybook
  dsimp only
  split
  · exact .refl
  · obtain ⟨hc, has⟩ := Builds.enter b playbook.definedIn
      { nodeType := .playbook, filePath := playbook.definedIn, scope } rfl rfl
    refine hc.then_to ?_
    refine foldlM (fun state entry _ hg => ?_) _ .refl
    split
    · exact hg
    · split
      · exact hg.then_wired (hg.has has) _ _ scope _ _
      · exact (hg.then_to (builds_buildPlay scope limit listed _ _ state)).bind
          fun next hg => hg.then_addEdge (hg.has has) _ _ _

end

theorem builds_buildTaskfile (isHandlerFile : Bool) (taskfile : TaskFileDef)
    (b : GraphBuilder) : BuildsTo p b (buildTaskfile p scope limit isHandlerFile taskfile b) := by
  unfold buildTaskfile
  dsimp only
  split
  · exact .refl
  · obtain ⟨hc, has⟩ := Builds.enter b taskfile.definedIn
      { nodeType := .taskfile, filePath := taskfile.definedIn, scope } rfl rfl
    refine hc.then_to ?_
    refine foldlM (fun state entry _ hg => ?_) _ .refl
    split
    · exact hg
    · split
      · exact builds_buildHandler scope _ _ _ has _ hg
      · exact (hg.then_to (builds_buildTask scope _ limit _ _ state)).bind
          fun next hg => hg.then_addEdge (hg.has has) _ _ _

variable {roleId : String}

theorem builds_wireTaskfile {st : GraphBuilder × Nat} (taskfile : TaskFileDef)
    (has : b.has roleId) (hg : Builds p b st.1) : Builds p b
    (wireTaskfile roleId taskfile st).1 := by
  unfold wireTaskfile
  split
  · exact hg
  · exact hg.then_addEdge (hg.has has) _ _ _

theorem builds_wireRoleVariables (reference : String) (names : List String)
    (has : b.has roleId) (hg : Builds p b state.1) :
    Builds p b (wireRoleVariables scope roleId reference names state).1 := by
  unfold wireRoleVariables
  split
  · exact hg
  · exact hg.then_wired (hg.has has) _ _ scope _ _

theorem builds_buildRoleTaskfile (has : b.has roleId) (ref : Ref)
    (hg : Builds p b state.1) : BuildsOn p b (buildRoleTaskfile p scope limit roleId state ref) := by
  unfold buildRoleTaskfile
  split
  · exact hg
  · exact (hg.then_to (builds_buildTaskfile scope limit false _ state.1)).bind
      fun next hg => builds_wireTaskfile _ has hg

theorem builds_buildRoleHandler {role : RoleDef} (has : b.has role.rolePath)
    (e : Ref × Nat) (hg : Builds p b state.1) :
    BuildsOn p b (buildRoleHandler p scope limit role state e) := by
  unfold buildRoleHandler
  split
  · exact (hg.then_to (builds_buildTaskfile scope limit true _ state.1)).bind
      fun next hg => builds_wireTaskfile _ has hg
  · exact builds_buildHandler scope _ _ _ has _ hg
  · exact hg

theorem builds_buildRole (role : RoleDef) (b : GraphBuilder) :
    BuildsTo p b (buildRole p scope limit role b) := by
  unfold buildRole
  dsimp only
  split
  · exact .refl
  · obtain ⟨hc, has⟩ := Builds.enter b role.rolePath
      { nodeType := .role, filePath := role.definedIn, name := role.effectiveFqcn
        roleFqcn := role.effectiveFqcn, scope } rfl rfl
    refine hc.then_to ?_
    refine bind (M := fun state : GraphBuilder × Nat => Builds p _ state.1)
      (foldlM (fun state ref _ hg => builds_buildRoleTaskfile scope limit has ref hg) _
        .refl) fun state hg => ?_
    refine bind (M := fun state : GraphBuilder × Nat => Builds p _ state.1)
      (foldlM (fun state entry _ hg =>
        builds_buildRoleHandler scope limit has entry hg) state hg)
      fun state hg => ?_
    rw [wireDependencies_keys]
    exact builds_wireRoleVariables scope _ _ has (builds_wireRoleVariables scope _ _ has hg)

theorem builds_buildModule (module : ModuleDef) (b : GraphBuilder) :
    Builds p b (buildModule scope module b) := by
  unfold buildModule
  split
  · exact .refl
  · exact (Builds.enter b _ _ rfl rfl).1

theorem builds_buildCollection (collection : CollectionDef) (b : GraphBuilder) :
    Builds p b (buildCollection p scope collection b) := by
  unfold buildCollection
  dsimp only
  split
  · exact .refl
  · obtain ⟨hc, has⟩ := Builds.enter b collection.nodeId
      { nodeType := .collection, filePath := collection.nodeId, name := collection.name, scope } rfl rfl
    refine hc.trans (foldl_invariant (fun state ref _ hg => ?_) _ .refl)
    split
    · exact hg
    next module _ =>
      have hb : Builds p state _ := builds_buildModule scope module state
      exact (hg.trans hb).then_addEdge (hb.has (hg.has has)) _ _ _

theorem builds_buildFromLoaded (loaded : Loaded) (b : GraphBuilder) :
    BuildsTo p b (buildFromLoaded p scope limit loaded b) := by
  have hc : Builds p b (loaded.collections.foldl (buildCollectionAt p scope) b) := by
    refine foldl_invariant (fun st addr _ hg => ?_) b .refl
    unfold buildCollectionAt
    split
    · exact hg.trans (builds_buildCollection scope _ st)
    · exact hg
  unfold buildFromLoaded
  refine bind (M := Builds p b) (foldlM (fun st addr _ hg => ?_) _ hc) fun st hg => ?_
  · unfold buildRoleAt
    split
    · exact hg.then_to (builds_buildRole scope limit _ st)
    · exact hg
  · refine bind (M := Builds p b) (foldlM (fun st addr _ hg => ?_) st hg)
      fun st hg => foldlM (fun st addr _ hg => ?_) st hg
    · unfold buildPlaybookAt
      split
      next hf => exact hg.then_to (builds_buildPlaybook scope limit (mem_of_getElem? hf) st)
      next => exact hg
    · unfold buildTaskfileAt
      split
      · exact hg.then_to (builds_buildTaskfile scope limit false _ st)
      · exact hg

end Parts

theorem source_of_mem_notifyEdges {g : ContentGraph} {nodeId : String} {n : ContentNode}
    {e : Edge} (mem : e ∈ notifyEdges g nodeId n) : e.source = nodeId := by
  unfold notifyEdges at mem
  split at mem
  · obtain ⟨t, -, hw⟩ := mem_flatMap.mp mem
    rcases mem_append.mp hw with hn | hl
    · obtain ⟨tgt, -, rfl⟩ := mem_map.mp hn
      rfl
    · obtain ⟨tgt, -, rfl⟩ := mem_map.mp hl
      rfl
  · cases mem

theorem builds_wireNotifyListen (p : Project) (b : GraphBuilder) : Builds p b (wireNotifyListen b) := by
  refine foldl_invariant (fun st edge mem hg => ?_) b .refl
  obtain ⟨e, hn, hw⟩ := mem_flatMap.mp mem
  have has : b.has edge.source := by
    rw [source_of_mem_notifyEdges hw]
    have hf := (Dict.get?_eq_some_iff b.graph.nodes e.1 e.2).mpr hn
    show (b.graph.nodes.get? e.1).isSome
    rw [hf]
    rfl
  exact hg.then_addEdge (hg.has has) _ _ _

theorem builds_build (limit : Nat) (p : Project) : BuildsTo p {} (build limit p) := by
  refine (builds_buildFromLoaded .owned limit p.root {}).bind fun b hg => ?_
  refine (hg.then_to (builds_buildFromLoaded .referenced limit p.ext b)).bind fun b hg => ?_
  exact hg.trans (builds_wireNotifyListen p b)

/-- What the builder does to its state, step by step. -/
structure BuildInvariant (p : Project) (good : GraphBuilder → Prop) : Prop where
  addEdge : ∀ b source target edgeType position, good b →
    good (b.addEdge source target edgeType position)
  visit : ∀ b nodeId, good b → good (b.visit nodeId)
  addBare : ∀ b nodeId node, node.yamlLines = [] → good b → good (b.addNode nodeId node)
  addTask : ∀ b nodeId nodeType filePath scope task, good b →
    good (b.addNode nodeId (definitionNode nodeType filePath scope task)
      (.definition filePath task))
  addHandler : ∀ b nodeId filePath scope task, good b →
    good (buildHandler scope filePath nodeId task b)
  setHeader : ∀ b scope playbook playIndex play, .playbook playbook ∈ p.heap →
    playbook.yamlLines ≠ [] → 0 < (playLines playbook.yamlLines playIndex play).1 → good b →
    good (setHeader (childId playbook.definedIn "plays" playIndex)
      (playNode scope playbook.definedIn (playLines playbook.yamlLines playIndex play) play)
      (playCut playbook.yamlLines (playLines playbook.yamlLines playIndex play)
        (childId playbook.definedIn "plays" playIndex) b.graph) b)

theorem BuildInvariant.build {p : Project} {g : GraphBuilder → Prop} (hk : BuildInvariant p g)
    (limit : Nat) (hs : g {}) : Holds g (fun _ => True) (build limit p) := by
  refine (builds_build limit p).mono (fun b built => ?_) fun _ _ => trivial
  induction built with
  | refl => exact hs
  | tail _ ht ih =>
    cases ht with
    | addEdge => exact hk.addEdge _ _ _ _ _ ih
    | visit => exact hk.visit _ _ ih
    | addBare id n noText => exact hk.addBare _ id n noText ih
    | addTask => exact hk.addTask _ _ _ _ _ _ ih
    | addHandler => exact hk.addHandler _ _ _ _ _ ih
    | setHeader scope playbook playIndex play listed txt hst =>
      exact hk.setHeader _ scope playbook playIndex play listed txt hst ih

end Apme.Builder
