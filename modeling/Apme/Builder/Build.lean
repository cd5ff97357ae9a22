import Apme.Builder.Definitions
import Apme.Builder.PlayHeader
import Apme.Graph.Frame
import Mathlib.Data.List.Sort

/-!
# Building the content graph

`GraphBuilder.build` walks over the collections, roles, playbooks and task files
of a project and adds a node for everything it meets.  The walk over nested
blocks is as deep as the blocks are; the depth limit stands for the recursion
limit of the host language.  Besides the graph the builder state keeps the nodes
in the order in which they were handed to the graph, each with what it was made
from.  Data-flow edges are not part of the model.
-/

set_option autoImplicit false

namespace Apme.Graph.ContentGraph

/-- Direct children in order of their first lines. -/
def children (g : ContentGraph) (nodeId : String) : List ContentNode :=
  (g.edges.filterMap fun edge =>
    if edge.source = nodeId ∧ edge.edgeType = .contains then g.getNode edge.target
    else none).insertionSort fun a b => a.lineStart ≤ b.lineStart

end Apme.Graph.ContentGraph

namespace Apme.Builder

open Apme.Lib Apme.Graph

inductive RecursionError
  | exceeded

/-- Where the text and the lines of a node come from. -/
inductive Origin
  | none
  | definition (filePath : String) (task : TaskDef)
  | header (filePath : String) (cut : HeaderCut)
  deriving DecidableEq

structure Built where
  node : ContentNode
  origin : Origin

structure GraphBuilder where
  graph : ContentGraph := { nodes := Dict.empty }
  visited : List String := []
  built : List Built := []

namespace GraphBuilder

variable (b : GraphBuilder) (nodeId : String)

/-- `add_node`; adding a node under an id in use replaces the node. -/
def addNode (node : ContentNode) (origin : Origin := .none) : GraphBuilder :=
  { b with
    graph := { b.graph with nodes := b.graph.nodes.insert nodeId node }
    built := b.built ++ [{ node, origin }] }

def addEdge (source target : String) (edgeType : EdgeType) (position : Nat := 0) : GraphBuilder :=
  { b with
    graph := { b.graph with edges := b.graph.edges ++ [{ source, target, edgeType, position }] } }

def visit : GraphBuilder := { b with visited := nodeId :: b.visited }

/-- Add a node without text unless its id is in use. -/
def ensureNode (nodeType : NodeType) (scope : NodeScope) : GraphBuilder :=
  if (b.graph.getNode nodeId).isSome then b
  else b.addNode nodeId { nodeType, filePath := nodeId, scope }

def roleBasename (fqcn : String) : String := String.ofList (fqcn.toList.rtakeWhile (· ≠ '.'))

def resolveRoleNidByName (name : String) : Option String :=
  if name = "" then none
  else
    (b.graph.nodes.entries.find? fun entry =>
      entry.2.nodeType = .role &&
        (entry.2.roleFqcn = name || entry.2.name = name || roleBasename entry.2.roleFqcn = name)).map
      Prod.fst

end GraphBuilder

def extractLines : List Nat → Nat × Nat
  | start :: stop :: _ => (start, stop)
  | _ => (0, 0)

def childId (parentId sectionName : String) (index : Nat) : String :=
  parentId ++ "/" ++ sectionName ++ "[" ++ toString index ++ "]"

/-- The node of a task or handler definition. -/
def definitionNode (nodeType : NodeType) (filePath : String) (scope : NodeScope)
    (task : TaskDef) : ContentNode :=
  { nodeType, name := task.name, notify := task.notify, filePath
    lineStart := (extractLines task.lineNumInFile).1
    lineEnd := (extractLines task.lineNumInFile).2
    yamlLines := task.yamlLines, indentDepth := detectIndent task.yamlLines, scope }

namespace TaskDef

def hasBlockChildren (task : TaskDef) : Bool :=
  task.block.isSome || task.rescue.isSome || task.always.isSome

def nodeType (task : TaskDef) : NodeType :=
  if task.module = "" ∧ task.hasBlockChildren then .block else .task

end TaskDef

section Build

variable (p : Project) (scope : NodeScope)

/-- Edges of a task that runs a task file or a role. -/
def wireExecutable (filePath nodeId : String) (task : TaskDef) (b : GraphBuilder) : GraphBuilder :=
  if task.executable = "" then b
  else
    match task.executableType with
    | some .taskfile =>
      let target := resolvePath filePath task.executable
      let edgeType : EdgeType :=
        if task.module = "ansible.builtin.import_tasks" ∨ task.module = "import_tasks" then .import
        else .include
      (b.ensureNode target .taskfile scope).addEdge nodeId target edgeType
    | some .role =>
      match b.resolveRoleNidByName task.executable with
      | none => b
      | some target =>
        let edgeType : EdgeType :=
          if task.module = "ansible.builtin.import_role" ∨ task.module = "import_role" then
            .import
          else .include
        b.addEdge nodeId target edgeType
    | _ => b

variable (build : String → TaskDef → GraphBuilder → Except RecursionError GraphBuilder)

/-- Build the children of one section of a block with `build`. -/
def wireSection
    (blockId sectionName : String) (edgeTypes : List EdgeType) (refs : List Ref) (b : GraphBuilder) :
    Except RecursionError GraphBuilder :=
  refs.zipIdx.foldlM
    (fun b entry =>
      match p.resolveTask entry.1 with
      | none => pure b
      | some child => do
          let b ← build (childId blockId sectionName entry.2) child b
          pure (edgeTypes.foldl
            (fun b edgeType =>
              b.addEdge blockId (childId blockId sectionName entry.2) edgeType entry.2) b))
    b

def wireBlockChildren
    (blockId : String) (task : TaskDef) (b : GraphBuilder) : Except RecursionError GraphBuilder := do
  let b ← wireSection p build blockId "rescue" [.contains, .rescue] (task.rescue.getD []) b
  let b ← wireSection p build blockId "always" [.contains, .always] (task.always.getD []) b
  wireSection p build blockId "block" [.contains] (task.block.getD []) b

def buildTask (filePath : String) :
    Nat → String → TaskDef → GraphBuilder → Except RecursionError GraphBuilder
  | 0, _, _, _ => .error .exceeded
  | limit + 1, nodeId, task, b => do
      let b := b.addNode nodeId (definitionNode task.nodeType filePath scope task)
        (.definition filePath task)
      let b ←
        if task.nodeType = .block then
          wireBlockChildren p (buildTask filePath limit) nodeId task b
        else pure b
      pure (wireExecutable scope filePath nodeId task b)

def buildHandler (filePath nodeId : String) (task : TaskDef) (b : GraphBuilder) : GraphBuilder :=
  b.addNode nodeId
    { definitionNode .handler filePath scope task with listen := task.listen }
    (.definition filePath task)

variable (limit : Nat) (filePath playId : String)

/-- A play section: its tasks take the next positions of the play. -/
def buildTaskList (refs : List Ref)
    (state : GraphBuilder × Nat) : Except RecursionError (GraphBuilder × Nat) :=
  refs.foldlM
    (fun state ref =>
      match p.resolveTask ref with
      | none => pure state
      | some task => do
          let taskId := childId playId "tasks" state.2
          let b ← buildTask p scope filePath limit taskId task state.1
          pure (b.addEdge playId taskId .contains state.2, state.2 + 1))
    state

def wireVarsFiles (varsFiles : List String) (state : GraphBuilder × Nat) : GraphBuilder × Nat :=
  varsFiles.foldl
    (fun state varsFile =>
      let target := resolvePath filePath varsFile
      ((state.1.ensureNode target .varsFile scope).addEdge playId target .varsInclude state.2,
        state.2 + 1))
    state

def wireRoles (playId : String) (roles : List String) (state : GraphBuilder × Nat) :
    GraphBuilder × Nat :=
  roles.foldl
    (fun state name =>
      match state.1.resolveRoleNidByName name with
      | none => state
      | some target => (state.1.addEdge playId target .dependency state.2, state.2 + 1))
    state

def buildHandlers (refs : List Ref) (state : GraphBuilder × Nat) : GraphBuilder × Nat :=
  refs.zipIdx.foldl
    (fun state entry =>
      match p.resolveTask entry.1 with
      | none => state
      | some handler =>
        let handlerId := childId playId "handlers" entry.2
        ((buildHandler scope filePath handlerId handler state.1).addEdge playId handlerId
          .contains state.2, state.2 + 1))
    state

/-- The lines of a play: its own if it has any, else those of its list item. -/
def playLines (fileContent : Text) (playIndex : Nat) (play : PlayDef) : Nat × Nat :=
  if (extractLines play.lineNumInFile).1 = 0 ∧ fileContent ≠ [] then
    findPlayLines fileContent playIndex
  else extractLines play.lineNumInFile

def playNode (filePath : String) (lines : Nat × Nat) (play : PlayDef) : ContentNode :=
  { nodeType := .play, name := play.name, filePath, lineStart := lines.1, lineEnd := lines.2, scope }

def playCut (fileContent : Text) (lines : Nat × Nat) (playId : String) (g : ContentGraph) :
    HeaderCut :=
  { fileContent, lineStart := lines.1, lineEnd := lines.2
    children := (g.children playId).map fun child => (child.lineStart, child.lineEnd) }

/-- Give a play the header that is cut for it. -/
def setHeader (playId : String) (node : ContentNode) (cut : HeaderCut) (b : GraphBuilder) :
    GraphBuilder :=
  b.addNode playId
    { node with yamlLines := extractPlayHeader cut, indentDepth := detectIndent (extractPlayHeader cut) }
    (.header node.filePath cut)

def buildPlay (filePath : String) (fileContent : Text) (playIndex : Nat)
    (play : PlayDef) (b : GraphBuilder) : Except RecursionError GraphBuilder := do
  let playId := childId filePath "plays" playIndex
  let lines := playLines fileContent playIndex play
  let node := playNode scope filePath lines play
  let state := wireVarsFiles scope filePath playId play.varsFiles (b.addNode playId node, 0)
  let state ← buildTaskList p scope limit filePath playId play.preTasks state
  let state := wireRoles playId play.roles state
  let state ← buildTaskList p scope limit filePath playId play.tasks state
  let state ← buildTaskList p scope limit filePath playId play.postTasks state
  let b := (buildHandlers p scope filePath playId play.handlers state).1
  if fileContent ≠ [] ∧ 0 < lines.1 then
    pure (setHeader playId node (playCut fileContent lines playId b.graph) b)
  else pure b

def handleImportPlaybook (parentId : String) (position : Nat) (play : PlayDef)
    (b : GraphBuilder) : GraphBuilder :=
  let target := resolvePath parentId play.importPlaybook
  (b.ensureNode target .playbook scope).addEdge parentId target .import position

def buildPlaybook (playbook : PlaybookDef) (b : GraphBuilder) :
    Except RecursionError GraphBuilder :=
  let nodeId := playbook.definedIn
  if nodeId ∈ b.visited then pure b
  else
    playbook.plays.zipIdx.foldlM
      (fun b entry =>
        match p.resolvePlay entry.1 with
        | none => pure b
        | some play =>
          if play.importPlaybook ≠ "" then pure (handleImportPlaybook scope nodeId entry.2 play b)
          else do
            let b ← buildPlay p scope limit nodeId playbook.yamlLines entry.2 play b
            pure (b.addEdge nodeId (childId nodeId "plays" entry.2) .contains entry.2))
      ((b.visit nodeId).addNode nodeId { nodeType := .playbook, filePath := nodeId, scope })

def buildTaskfile (isHandlerFile : Bool) (taskfile : TaskFileDef)
    (b : GraphBuilder) : Except RecursionError GraphBuilder :=
  let nodeId := taskfile.definedIn
  if nodeId ∈ b.visited then pure b
  else
    taskfile.tasks.zipIdx.foldlM
      (fun b entry =>
        match p.resolveTask entry.1 with
        | none => pure b
        | some task =>
          if isHandlerFile then
            let handlerId := childId nodeId "handlers" entry.2
            pure ((buildHandler scope nodeId handlerId task b).addEdge nodeId handlerId .contains
              entry.2)
          else do
            let taskId := childId nodeId "tasks" entry.2
            let b ← buildTask p scope nodeId limit taskId task b
            pure (b.addEdge nodeId taskId .contains entry.2))
      ((b.visit nodeId).addNode nodeId { nodeType := .taskfile, filePath := nodeId, scope })

namespace RoleDef

def effectiveFqcn (role : RoleDef) : String := if role.fqcn ≠ "" then role.fqcn else role.name

def rolePath (role : RoleDef) : String :=
  if role.definedIn ≠ "" then role.definedIn else "roles/" ++ role.effectiveFqcn

end RoleDef

variable (roleId : String)

/-- Link a role to a task file it has built. -/
def wireTaskfile (taskfile : TaskFileDef) (state : GraphBuilder × Nat) : GraphBuilder × Nat :=
  if taskfile.definedIn = "" then state
  else (state.1.addEdge roleId taskfile.definedIn .contains state.2, state.2 + 1)

def buildRoleTaskfile (state : GraphBuilder × Nat) (ref : Ref) :
    Except RecursionError (GraphBuilder × Nat) :=
  match p.resolveTaskFile ref with
  | none => pure state
  | some taskfile => do
      let b ← buildTaskfile p scope limit false taskfile state.1
      pure (wireTaskfile roleId taskfile (b, state.2))

def buildRoleHandler (role : RoleDef) (state : GraphBuilder × Nat)
    (entry : Ref × Nat) : Except RecursionError (GraphBuilder × Nat) :=
  match p.resolve entry.1 with
  | some (.taskfile taskfile) => do
      let b ← buildTaskfile p scope limit true taskfile state.1
      pure (wireTaskfile role.rolePath taskfile (b, state.2))
  | some (.task handler) =>
    let handlerId := childId role.rolePath "handlers" entry.2
    pure ((buildHandler scope role.definedIn handlerId handler state.1).addEdge role.rolePath
      handlerId .contains state.2, state.2 + 1)
  | _ => pure state

def wireRoleVariables (roleId reference : String) (names : List String)
    (state : GraphBuilder × Nat) : GraphBuilder × Nat :=
  if names = [] then state
  else
    let target := joinPath roleId reference
    ((state.1.ensureNode target .varsFile scope).addEdge roleId target .varsInclude state.2,
      state.2 + 1)

/-- What a loop over a list of dependencies or over a dict can meet. -/
inductive DependencyItem
  | key (name : String)
  | mapping (role name : String)

/-- Only a mapping is looked into. -/
def wireDependency (b : GraphBuilder) : DependencyItem → GraphBuilder
  | .key _ => b
  | .mapping role name =>
    let depName := if role ≠ "" then role else name
    if depName = "" then b
    else
      match b.resolveRoleNidByName depName with
      | none => b
      | some target => b.addEdge roleId target .dependency

theorem wireDependencies_keys (names : List String) (b : GraphBuilder) :
    (names.map .key).foldl (wireDependency roleId) b = b := by
  rw [List.foldl_map]
  exact List.foldl_fixed' (fun _ => rfl) names

def buildRole (role : RoleDef) (b : GraphBuilder) : Except RecursionError GraphBuilder :=
  let roleId := role.rolePath
  if roleId ∈ b.visited then pure b
  else do
    let b := (b.visit roleId).addNode roleId
      { nodeType := .role, filePath := role.definedIn, name := role.effectiveFqcn
        roleFqcn := role.effectiveFqcn, scope }
    let state ← role.taskfiles.foldlM (buildRoleTaskfile p scope limit roleId) (b, 0)
    let state ← role.handlers.zipIdx.foldlM (buildRoleHandler p scope limit role) state
    let state := wireRoleVariables scope roleId "defaults/main.yml" role.defaultVariables state
    let state := wireRoleVariables scope roleId "vars/main.yml" role.roleVariables state
    -- Iterating over the dict gives its keys, so no edge is added.
    pure ((role.dependency.map .key).foldl (wireDependency roleId) state.1)

namespace ModuleDef

def moduleName (module : ModuleDef) : String :=
  if module.fqcn ≠ "" then module.fqcn else module.name

def nodeId (module : ModuleDef) : String :=
  if module.definedIn ≠ "" then module.definedIn else module.moduleName

end ModuleDef

def buildModule (module : ModuleDef) (b : GraphBuilder) : GraphBuilder :=
  if module.nodeId ∈ b.visited then b
  else
    (b.visit module.nodeId).addNode module.nodeId
      { nodeType := .module, filePath := module.definedIn, name := module.moduleName, scope }

variable (collection : CollectionDef)

def CollectionDef.nodeId : String :=
  if collection.path ≠ "" then collection.path else collection.name

def buildCollection (b : GraphBuilder) : GraphBuilder :=
  let nodeId := collection.nodeId
  if nodeId ∈ b.visited then b
  else
    collection.modules.foldl
      (fun b ref =>
        match p.resolveModule ref with
        | none => b
        | some module => (buildModule scope module b).addEdge nodeId module.nodeId .contains)
      ((b.visit nodeId).addNode nodeId
        { nodeType := .collection, filePath := nodeId, name := collection.name, scope })

variable (b : GraphBuilder) (address : Nat)

/-- Build the object at an address, if the list it stands in is of its kind. -/
def buildCollectionAt : GraphBuilder :=
  match p.heap[address]? with
  | some (.collection collection) => buildCollection p scope collection b
  | _ => b

def buildRoleAt : Except RecursionError GraphBuilder :=
  match p.heap[address]? with
  | some (.role role) => buildRole p scope limit role b
  | _ => pure b

def buildPlaybookAt : Except RecursionError GraphBuilder :=
  match p.heap[address]? with
  | some (.playbook playbook) => buildPlaybook p scope limit playbook b
  | _ => pure b

def buildTaskfileAt : Except RecursionError GraphBuilder :=
  match p.heap[address]? with
  | some (.taskfile taskfile) => buildTaskfile p scope limit false taskfile b
  | _ => pure b

def buildFromLoaded (loaded : Loaded) (b : GraphBuilder) : Except RecursionError GraphBuilder := do
  let b := loaded.collections.foldl (buildCollectionAt p scope) b
  let b ← loaded.roles.foldlM (buildRoleAt p scope limit) b
  let b ← loaded.playbooks.foldlM (buildPlaybookAt p scope limit) b
  loaded.taskfiles.foldlM (buildTaskfileAt p scope limit) b

end Build

/-- Handler ids by one of their texts: their names, or the topics they listen to. -/
def handlersBy (texts : ContentNode → List String) (g : ContentGraph) (text : String) :
    List String :=
  g.nodes.entries.flatMap fun entry =>
    if entry.2.nodeType = .handler then
      ((texts entry.2).filter (· = text)).map fun _ => entry.1
    else []

def handlerNames (node : ContentNode) : List String := if node.name = "" then [] else [node.name]

/-- The notify and listen edges of one node. -/
def notifyEdges (g : ContentGraph) (nodeId : String) (node : ContentNode) : List Edge :=
  if node.nodeType = .task ∨ node.nodeType = .handler then
    node.notify.flatMap fun text =>
      ((handlersBy handlerNames g text).map fun target =>
        { source := nodeId, target, edgeType := .notify }) ++
      (handlersBy ContentNode.listen g text).map fun target =>
        { source := nodeId, target, edgeType := .listen }
  else []

def wireNotifyListen (b : GraphBuilder) : GraphBuilder :=
  (b.graph.nodes.entries.flatMap fun entry => notifyEdges b.graph entry.1 entry.2).foldl
    (fun b edge => b.addEdge edge.source edge.target edge.edgeType) b

def build (limit : Nat) (p : Project) : Except RecursionError GraphBuilder := do
  let b ← buildFromLoaded p .owned limit p.root {}
  let b ← buildFromLoaded p .referenced limit p.ext b
  pure (wireNotifyListen b)

end Apme.Builder
