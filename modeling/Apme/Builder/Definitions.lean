import Apme.Lib.Dict
import Apme.Lib.Text

/-!
# Project definitions

What the project parser hands to the graph builder: objects of seven kinds and,
per origin, the lists of objects of each kind.  A child list holds objects or
keys; a key is looked up among the keys of the listed objects.  Objects live in
a heap and are named by their address, so that two lists can hold the same one.
-/

set_option autoImplicit false

namespace Apme.Builder

open Apme.Lib

inductive Ref
  | object (address : Nat)
  | key (key : String)
  deriving DecidableEq

inductive ExecutableType
  | module | role | taskfile
  deriving DecidableEq

/-- A task or handler.  `block`, `rescue` and `always` are the options of these
names where they are lists. -/
structure TaskDef where
  key : String := ""
  name : String := ""
  module : String := ""
  lineNumInFile : List Nat := []
  yamlLines : Text := []
  block : Option (List Ref) := none
  rescue : Option (List Ref) := none
  always : Option (List Ref) := none
  executable : String := ""
  executableType : Option ExecutableType := none
  notify : List String := []
  listen : List String := []
  deriving DecidableEq

/-- A play; `roles` has the names of its static roles. -/
structure PlayDef where
  key : String := ""
  name : String := ""
  lineNumInFile : List Nat := []
  importPlaybook : String := ""
  varsFiles : List String := []
  preTasks : List Ref := []
  roles : List String := []
  tasks : List Ref := []
  postTasks : List Ref := []
  handlers : List Ref := []
  deriving DecidableEq

structure TaskFileDef where
  key : String := ""
  definedIn : String := ""
  tasks : List Ref := []
  deriving DecidableEq

/-- A role; `defaultVariables` and `roleVariables` have the names of its variables,
`dependency` the keys of its dict (`roles` and `collections`, if there is a meta
file). -/
structure RoleDef where
  key : String := ""
  name : String := ""
  fqcn : String := ""
  definedIn : String := ""
  taskfiles : List Ref := []
  handlers : List Ref := []
  defaultVariables : List String := []
  roleVariables : List String := []
  dependency : List String := []
  deriving DecidableEq

structure PlaybookDef where
  key : String := ""
  definedIn : String := ""
  yamlLines : Text := []
  plays : List Ref := []
  deriving DecidableEq

structure ModuleDef where
  key : String := ""
  name : String := ""
  fqcn : String := ""
  definedIn : String := ""
  deriving DecidableEq

structure CollectionDef where
  key : String := ""
  name : String := ""
  path : String := ""
  modules : List Ref := []
  deriving DecidableEq

inductive Definition
  | collection (collection : CollectionDef)
  | role (role : RoleDef)
  | taskfile (taskfile : TaskFileDef)
  | module (module : ModuleDef)
  | playbook (playbook : PlaybookDef)
  | play (play : PlayDef)
  | task (task : TaskDef)

def Definition.key : Definition → String
  | .collection it => it.key
  | .role it => it.key
  | .taskfile it => it.key
  | .module it => it.key
  | .playbook it => it.key
  | .play it => it.key
  | .task it => it.key

/-- The loaded object lists of one origin. -/
structure Loaded where
  collections : List Nat := []
  roles : List Nat := []
  taskfiles : List Nat := []
  modules : List Nat := []
  playbooks : List Nat := []
  plays : List Nat := []
  tasks : List Nat := []

structure Project where
  heap : List Definition
  root : Loaded := {}
  ext : Loaded := {}

namespace Project

variable (p : Project)

/-- Register an object under its key; objects without a key are not registered. -/
def register (keys : Dict String Nat) (address : Nat) : Dict String Nat :=
  match p.heap[address]? with
  | none => keys
  | some definition =>
    if definition.key = "" then keys else keys.insert definition.key address

def handlerObjects (address : Nat) : List Nat :=
  match p.heap[address]? with
  | some (.role role) =>
    role.handlers.flatMap fun
      | .key _ => []
      | .object handler =>
        match p.heap[handler]? with
        | some (.taskfile taskfile) =>
          if taskfile.key = "" then []
          else handler :: taskfile.tasks.filterMap fun
            | .object task => some task
            | .key _ => none
        | _ => []
  | _ => []

/-- All registered objects in the order of registration: per kind the objects
of the project before the external ones, then the handler files of the
project's roles with their tasks. -/
def registered : List Nat :=
  p.root.collections ++ p.ext.collections ++ p.root.roles ++ p.ext.roles ++
    p.root.taskfiles ++ p.ext.taskfiles ++ p.root.modules ++ p.ext.modules ++
    p.root.playbooks ++ p.ext.playbooks ++ p.root.plays ++ p.ext.plays ++
    p.root.tasks ++ p.ext.tasks ++ p.root.roles.flatMap p.handlerObjects

def objectByKey : Dict String Nat := p.registered.foldl p.register Dict.empty

def resolve : Ref → Option Definition
  | .object address => p.heap[address]?
  | .key key => (p.objectByKey.get? key).bind fun address => p.heap[address]?

variable (ref : Ref)

def resolveTask : Option TaskDef :=
  match p.resolve ref with
  | some (.task task) => some task
  | _ => none

def resolvePlay : Option PlayDef :=
  match p.resolve ref with
  | some (.play play) => some play
  | _ => none

def resolveTaskFile : Option TaskFileDef :=
  match p.resolve ref with
  | some (.taskfile taskfile) => some taskfile
  | _ => none

def resolveModule : Option ModuleDef :=
  match p.resolve ref with
  | some (.module module) => some module
  | _ => none

end Project

/-! ## Paths, after `posixpath` -/

def joinPath (parent child : String) : String :=
  if child.toList.head? = some '/' then child
  else if parent = "" ∨ parent.toList.getLast? = some '/' then parent ++ child
  else parent ++ "/" ++ child

variable (path : String)

def dirname : String :=
  let head := path.toList.rdropWhile (· ≠ '/')
  if head.all (· = '/') then String.ofList head
  else String.ofList (head.rdropWhile (· = '/'))

/-- The components of a normalized path, the last one first. -/
def pushComponent (absolute : Bool) (done : List (List Char)) (component : List Char) :
    List (List Char) :=
  if component = [] ∨ component = ['.'] then done
  else if component ≠ ['.', '.'] ∨ (!absolute ∧ done = []) ∨ done.head? = some ['.', '.'] then
    component :: done
  else done.tail

def initialSlashes : Nat :=
  match path.toList.takeWhile (· = '/') with
  | [] => 0
  | [_, _] => 2
  | _ => 1

def normpath : String :=
  let slashes := initialSlashes path
  let components := (path.toList.splitOn '/').foldl (pushComponent (0 < slashes)) []
  let joined := List.intercalate ['/'] components.reverse
  match List.replicate slashes '/' ++ joined with
  | [] => "."
  | normal => String.ofList normal

/-- A reference relative to the directory of the file it stands in. -/
def resolvePath (fromFile reference : String) : String :=
  normpath (joinPath (dirname fromFile) reference)

example : resolvePath "plays/site.yml" "../tasks//main.yml" = "tasks/main.yml" := by decide

end Apme.Builder
