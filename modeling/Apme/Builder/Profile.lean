import Apme.Builder.Build
import Apme.Lib.Outcome

/-!
# Two builds side by side

The profile of a builder is what the wiring of handlers depends on: the files
visited, and of every task, handler and role its names.  Projects of the same
objects, whose tasks differ by a renaming, have builds whose profiles differ by
that renaming; the texts, lines and included files of the two may differ freely.
-/

set_option autoImplicit false

namespace Apme.Builder

open Apme.Lib Apme.Graph GraphBuilder

inductive View
  | task (nodeType : NodeType) (name : String) (notify listen : List String)
  | role (name fqcn : String)

def view (node : ContentNode) : Option View :=
  if node.nodeType = .task ∨ node.nodeType = .handler then
    some (.task node.nodeType node.name node.notify node.listen)
  else if node.nodeType = .role then some (.role node.name node.roleFqcn)
  else none

def isWiring (edgeType : EdgeType) : Bool := edgeType = .notify || edgeType = .listen

/-- The notify and listen edges of a graph. -/
def wiring (g : ContentGraph) : List Edge := g.edges.filter fun edge => isWiring edge.edgeType

@[ext]
structure Profile where
  visited : List String
  views : String → Option View
  wired : List Edge

def profile (b : GraphBuilder) : Profile where
  visited := b.visited
  views nodeId := (b.graph.getNode nodeId).bind view
  wired := wiring b.graph

section Steps

variable (b : GraphBuilder)

@[simp]
theorem profile_addEdge (src tgt : String) {kind : EdgeType} (pos : Nat)
    (ho : isWiring kind = false) : profile (b.addEdge src tgt kind pos) = profile b := by
  refine Profile.ext rfl rfl ?_
  simp [profile, wiring, addEdge, ho]

variable (id : String)

theorem profile_addNode (n : ContentNode) (origin : Origin) : profile (b.addNode id n origin) =
      { profile b with views := Function.update (profile b).views id (view n) } := by
  refine Profile.ext rfl (funext fun o => ?_) rfl
  simp only [profile, addNode, ContentGraph.getNode, Dict.get?_insert,
    Function.update_apply]
  split <;> rfl

theorem profile_visit : profile (b.visit id) = { profile b with visited := id :: b.visited } := rfl

theorem profile_ensureNode {nodeType : NodeType} (scope : NodeScope)
    (hf : nodeType = .taskfile ∨ nodeType = .playbook ∨ nodeType = .varsFile) :
    profile (b.ensureNode id nodeType scope) = profile b := by
  unfold ensureNode
  split
  · rfl
  next ha =>
    have hu : view { nodeType, filePath := id, scope } = none := by
      rcases hf with rfl | rfl | rfl <;> rfl
    have hs : (profile b).views id = none := by
      simp only [Option.not_isSome_iff_eq_none] at ha
      simp [profile, ha]
    rw [profile_addNode, hu, ← hs, Function.update_eq_self]

end Steps

theorem isSome_resolveRole (b : GraphBuilder) (name : String) :
    (b.resolveRoleNidByName name).isSome ↔
      name ≠ "" ∧ ∃ nodeId own fqcn, (profile b).views nodeId = some (.role own fqcn) ∧
        (fqcn = name ∨ own = name ∨ roleBasename fqcn = name) := by
  unfold resolveRoleNidByName
  split
  next he => simp [he]
  next hn =>
    simp only [Option.isSome_map, List.find?_isSome, Bool.and_eq_true, Bool.or_eq_true,
      decide_eq_true_eq]
    refine ⟨?_, ?_⟩
    · rintro ⟨⟨nodeId, node⟩, hm, hR, hc⟩
      have hf : b.graph.getNode nodeId = some node :=
        (Dict.get?_eq_some_iff b.graph.nodes nodeId node).mpr hm
      have hR : node.nodeType = .role := hR
      refine ⟨hn, nodeId, node.name, node.roleFqcn, ?_, by simpa [or_assoc] using hc⟩
      simp [profile, hf, view, hR]
    · rintro ⟨_, nodeId, own, fqcn, hs, hc⟩
      obtain ⟨node, hf, hl⟩ := Option.bind_eq_some_iff.mp hs
      have hm := (Dict.get?_eq_some_iff b.graph.nodes nodeId node).mp hf
      unfold view at hl
      split at hl
      · cases hl
      · split at hl
        next hR =>
          cases hl
          exact ⟨(nodeId, node), hm, hR, by simpa [or_assoc] using hc⟩
        next => cases hl

section Renaming

variable (f g : String → String)

/-- Rename by `f` and respell the notified names and topics by `g`. -/
def View.rename : View → View
  | .task nodeType name notify listen => .task nodeType (f name) (notify.map g) (listen.map g)
  | .role name fqcn => .role name fqcn

def Profile.rename (whole : Profile) : Profile :=
  { whole with views := fun nodeId => (whole.views nodeId).map (View.rename f g) }

def Alike (b b' : GraphBuilder) : Prop := profile b' = (profile b).rename f g

/-- Two builders with a position in each. -/
def AlikeAt (state state' : GraphBuilder × Nat) : Prop :=
  Alike f g state.1 state'.1 ∧ state'.2 = state.2

structure TaskAlike (t t' : TaskDef) : Prop where
  key : t'.key = t.key
  nodeType : t'.nodeType = t.nodeType
  name : t'.name = f t.name
  notify : t'.notify = t.notify.map g
  listen : t'.listen = t.listen.map g
  block : t'.block = t.block
  rescue : t'.rescue = t.rescue
  always : t'.always = t.always

structure PlayAlike (play play' : PlayDef) : Prop where
  key : play'.key = play.key
  imports : play'.importPlaybook = "" ↔ play.importPlaybook = ""
  varsFiles : play'.varsFiles.length = play.varsFiles.length
  preTasks : play'.preTasks = play.preTasks
  roles : play'.roles = play.roles
  tasks : play'.tasks = play.tasks
  postTasks : play'.postTasks = play.postTasks
  handlers : play'.handlers = play.handlers

structure RoleAlike (role role' : RoleDef) : Prop where
  key : role'.key = role.key
  name : role'.name = role.name
  fqcn : role'.fqcn = role.fqcn
  definedIn : role'.definedIn = role.definedIn
  taskfiles : role'.taskfiles = role.taskfiles
  handlers : role'.handlers = role.handlers

/-- The same object, read from another text; tasks are related by `tasks`. -/
inductive DefinitionAlike (tasks : TaskDef → TaskDef → Prop) : Definition → Definition → Prop
  | collection (collection : CollectionDef) :
      DefinitionAlike tasks (.collection collection) (.collection collection)
  | role (role role' : RoleDef) :
      RoleAlike role role' → DefinitionAlike tasks (.role role) (.role role')
  | taskfile (taskfile : TaskFileDef) :
      DefinitionAlike tasks (.taskfile taskfile) (.taskfile taskfile)
  | module (module : ModuleDef) : DefinitionAlike tasks (.module module) (.module module)
  | playbook (playbook : PlaybookDef) (yamlLines : Text) :
      DefinitionAlike tasks (.playbook playbook) (.playbook { playbook with yamlLines })
  | play (play play' : PlayDef) :
      PlayAlike play play' → DefinitionAlike tasks (.play play) (.play play')
  | task (task task' : TaskDef) :
      tasks task task' → DefinitionAlike tasks (.task task) (.task task')

structure ProjectAlike (tasks : TaskDef → TaskDef → Prop) (p p' : Project) : Prop where
  heap : List.Forall₂ (DefinitionAlike tasks) p.heap p'.heap
  root : p'.root = p.root
  ext : p'.ext = p.ext

theorem ProjectAlike.mono {tasks weaker : TaskDef → TaskDef → Prop} {p p' : Project}
    (alike : ProjectAlike tasks p p') (hi : ∀ t t', tasks t t' → weaker t t') :
    ProjectAlike weaker p p' := by
  refine ⟨alike.heap.imp fun defn definition' hl => ?_, alike.root, alike.ext⟩
  cases hl with
  | collection collection => exact .collection collection
  | role role role' hl => exact .role role role' hl
  | taskfile taskfile => exact .taskfile taskfile
  | module module => exact .module module
  | playbook playbook yamlLines => exact .playbook playbook yamlLines
  | play play play' hl => exact .play play play' hl
  | task t t' hl => exact .task t t' (hi t t' hl)

variable {f g}

namespace Alike

variable {b b' : GraphBuilder}

theorem of_profile {c c' : GraphBuilder} (ha : Alike f g b b') (hs : profile c = profile b)
    (hs' : profile c' = profile b') : Alike f g c c' := by
  rw [Alike, hs, hs']
  exact ha

section

variable (alike : Alike f g b b')

include alike

theorem visited : b'.visited = b.visited := congrArg Profile.visited alike

theorem visit (id : String) : Alike f g (b.visit id) (b'.visit id) := by
  rw [Alike, profile_visit, profile_visit, alike.visited, alike]
  rfl

theorem addEdge (src tgt : String) {kind : EdgeType} (pos : Nat) (ho : isWiring kind = false) :
    Alike f g (b.addEdge src tgt kind pos) (b'.addEdge src tgt kind pos) :=
  alike.of_profile (profile_addEdge b _ _ _ ho) (profile_addEdge b' _ _ _ ho)

theorem addNode (id : String) (n node' : ContentNode)
    (origin origin' : Origin) (hl : view node' = (view n).map (View.rename f g)) :
    Alike f g (b.addNode id n origin) (b'.addNode id node' origin') := by
  rw [Alike, profile_addNode, profile_addNode, alike]
  refine Profile.ext rfl (funext fun o => ?_) rfl
  by_cases hs : o = id
  · subst hs
    simp [Profile.rename, hl]
  · simp [Profile.rename, hs]

theorem resolveRole (name : String) :
    (b'.resolveRoleNidByName name).isSome = (b.resolveRoleNidByName name).isSome := by
  rw [Bool.eq_iff_iff, isSome_resolveRole, isSome_resolveRole, alike]
  refine and_congr_right fun _ => ?_
  constructor
  · rintro ⟨id, own, f₁, hs, hc⟩
    obtain ⟨old, hO, hr⟩ := Option.map_eq_some_iff.mp hs
    cases old with
    | task ty name notify listen => cases hr
    | role name f₁ =>
      cases hr
      exact ⟨id, _, _, hO, hc⟩
  · rintro ⟨id, own, f₁, hs, hc⟩
    exact ⟨id, own, f₁, by simp [Profile.rename, hs, View.rename], hc⟩

end

end Alike

/-- Both are missing, or both are there and related. -/
def FoundAlike {α : Type} (related : α → α → Prop) (x y : Option α) : Prop :=
  (x = none ∧ y = none) ∨ ∃ a b, x = some a ∧ y = some b ∧ related a b

namespace ProjectAlike

variable {p p' : Project} (alike : ProjectAlike (TaskAlike f g) p p')

include alike

theorem heapAt (addr : Nat) :
    FoundAlike (DefinitionAlike (TaskAlike f g)) p.heap[addr]? p'.heap[addr]? := by
  have hs := alike.heap.length_eq
  by_cases hi : addr < p.heap.length
  · have hi' : addr < p'.heap.length := hs ▸ hi
    exact .inr ⟨_, _, List.getElem?_eq_getElem hi, List.getElem?_eq_getElem hi',
      alike.heap.get hi hi'⟩
  · have ho : p.heap.length ≤ addr := Nat.not_lt.mp hi
    exact .inl ⟨List.getElem?_eq_none ho, List.getElem?_eq_none (hs ▸ ho)⟩

theorem register (keys : Dict String Nat) (addr : Nat) :
    p'.register keys addr = p.register keys addr := by
  rcases alike.heapAt addr with ⟨old, new⟩ | ⟨defn, d', old, new, hl⟩
  · simp only [Project.register, old, new]
  · have hk : d'.key = defn.key := by
      cases hl with
      | collection | taskfile | module | playbook => rfl
      | role _ _ hl => exact hl.key
      | play _ _ hl => exact hl.key
      | task _ _ hl => exact hl.key
    simp only [Project.register, old, new, hk]

theorem handlerObjects (addr : Nat) : p'.handlerObjects addr = p.handlerObjects addr := by
  rcases alike.heapAt addr with ⟨old, new⟩ | ⟨definition, d', old, new, hl⟩
  · simp only [Project.handlerObjects, old, new]
  · cases hl with
    | role role role' hl =>
      simp only [Project.handlerObjects, old, new, hl.handlers]
      congr 1
      funext ref
      cases ref with
      | key key => rfl
      | object handler =>
        rcases alike.heapAt handler with ⟨hm, hm'⟩ | ⟨_, _, ht, ht', hl⟩
        · simp only [hm, hm']
        · cases hl <;> simp only [ht, ht']
    | _ => simp only [Project.handlerObjects, old, new]

theorem objectByKey : p'.objectByKey = p.objectByKey := by
  have hr : p'.registered = p.registered := by
    have hh : p'.handlerObjects = p.handlerObjects := funext alike.handlerObjects
    simp only [Project.registered, alike.root, alike.ext, hh]
  have hs : p'.register = p.register := funext fun keys => funext (alike.register keys)
  rw [Project.objectByKey, Project.objectByKey, hr, hs]

variable (ref : Ref)

theorem resolve :
    FoundAlike (DefinitionAlike (TaskAlike f g)) (p.resolve ref) (p'.resolve ref) := by
  cases ref with
  | object addr => exact alike.heapAt addr
  | key key =>
    simp only [Project.resolve, alike.objectByKey]
    cases p.objectByKey.get? key with
    | none => exact .inl ⟨rfl, rfl⟩
    | some addr => exact alike.heapAt addr

theorem resolveTask : FoundAlike (TaskAlike f g) (p.resolveTask ref) (p'.resolveTask ref) := by
  rcases alike.resolve ref with ⟨old, new⟩ | ⟨defn, d', old, new, hl⟩
  · exact .inl (by simp only [Project.resolveTask, old, new, and_self])
  · cases hl with
    | task task t' hl =>
      exact .inr ⟨task, t', by simp only [Project.resolveTask, old],
        by simp only [Project.resolveTask, new], hl⟩
    | _ => exact .inl (by simp only [Project.resolveTask, old, new, and_self])

theorem resolvePlay : FoundAlike PlayAlike (p.resolvePlay ref) (p'.resolvePlay ref) := by
  rcases alike.resolve ref with ⟨old, new⟩ | ⟨defn, d', old, new, hl⟩
  · exact .inl (by simp only [Project.resolvePlay, old, new, and_self])
  · cases hl with
    | play play p₁ hl =>
      exact .inr ⟨play, p₁, by simp only [Project.resolvePlay, old],
        by simp only [Project.resolvePlay, new], hl⟩
    | _ => exact .inl (by simp only [Project.resolvePlay, old, new, and_self])

theorem resolveTaskFile : p'.resolveTaskFile ref = p.resolveTaskFile ref := by
  rcases alike.resolve ref with ⟨old, new⟩ | ⟨defn, d', old, new, hl⟩
  · simp only [Project.resolveTaskFile, old, new]
  · cases hl <;> simp only [Project.resolveTaskFile, old, new]

theorem resolveModule : p'.resolveModule ref = p.resolveModule ref := by
  rcases alike.resolve ref with ⟨old, new⟩ | ⟨defn, d', old, new, hl⟩
  · simp only [Project.resolveModule, old, new]
  · cases hl <;> simp only [Project.resolveModule, old, new]

end ProjectAlike

end Renaming

end Apme.Builder
