import Apme.Builder.Profile

/-!
# Alike projects are built alike

Function by function: from alike builders and alike definitions the builder goes
on to alike builders, or fails in both.
-/

set_option autoImplicit false

namespace Apme.Builder

open Apme.Lib Apme.Graph Pairs

variable {f g : String → String}

section Functions

variable {p p' : Project} (projects : ProjectAlike (TaskAlike f g) p p') (scope : NodeScope)
  {b b' : GraphBuilder}

theorem profile_wireExecutable (f id : String) (task : TaskDef) (b : GraphBuilder) :
    profile (wireExecutable scope f id task b) = profile b := by
  unfold wireExecutable
  split
  · rfl
  · split
    · dsimp only
      rw [profile_addEdge _ _ _ _ (by split <;> rfl), profile_ensureNode _ _ _ (.inl rfl)]
    · split
      · rfl
      · exact profile_addEdge _ _ _ _ (by split <;> rfl)
    · rfl

variable (file playId : String)

theorem wireVarsFiles_spec (varsFiles : List String) (st : GraphBuilder × Nat) :
    profile (wireVarsFiles scope file playId varsFiles st).1 = profile st.1 ∧
      (wireVarsFiles scope file playId varsFiles st).2 = st.2 + varsFiles.length := by
  induction varsFiles generalizing st with
  | nil => exact ⟨rfl, rfl⟩
  | cons first rest ih =>
    obtain ⟨hk, pos⟩ := ih
      ((st.1.ensureNode (resolvePath file first) .varsFile scope).addEdge playId
        (resolvePath file first) .varsInclude st.2, st.2 + 1)
    refine ⟨hk.trans ?_, pos.trans ?_⟩
    · rw [profile_addEdge _ _ _ _ rfl, profile_ensureNode _ _ _ (.inr (.inr rfl))]
    · simp only [List.length_cons]
      omega

theorem profile_wireRoleVariables (roleId reference : String) (names : List String)
    (st : GraphBuilder × Nat) :
    profile (wireRoleVariables scope roleId reference names st).1 = profile st.1 := by
  unfold wireRoleVariables
  split
  · rfl
  · dsimp only
    rw [profile_addEdge _ _ _ _ rfl, profile_ensureNode _ _ _ (.inr (.inr rfl))]

theorem view_definitionNode {t t' : TaskDef} (hl : TaskAlike f g t t') {ty : NodeType}
    (hr : ty ≠ .role) (file : String) :
    view (definitionNode ty file scope t') =
      (view (definitionNode ty file scope t)).map (View.rename f g) := by
  simp only [view, definitionNode, hr, if_false]
  split
  · simp [View.rename, hl.name, hl.notify]
  · rfl

section Far

/-! What is built under a node has a longer id than the node, so the node stays
what it is. -/

theorem length_childId (parentId sectionName : String) (i : Nat) :
    parentId.length < (childId parentId sectionName i).length := by
  have hs : ("/" : String).length = 1 := rfl
  simp only [childId, String.length_append]
  omega

variable (p) {id : String} {seen : Option View}

variable {c : GraphBuilder}

theorem views_addNode (holds : (profile c).views id = seen) {other : String}
    (hl : id.length < other.length) (n : ContentNode) (origin : Origin) :
    (profile (c.addNode other n origin)).views id = seen := by
  have hd : id ≠ other := by
    rintro rfl
    omega
  rw [profile_addNode]
  exact (Function.update_of_ne hd _ _).trans holds

theorem wireSection_far {build : String → TaskDef → GraphBuilder → Except RecursionError GraphBuilder}
    (hb : ∀ other t c, id.length < other.length → (profile c).views id = seen →
      Holds (fun c => (profile c).views id = seen) (fun _ => True) (build other t c))
    (blockId sectionName : String) (hl : id.length < blockId.length)
    {edgeTypes : List EdgeType} (ho : ∀ kind ∈ edgeTypes, isWiring kind = false)
    (refs : List Ref) (hh : (profile c).views id = seen) :
    Holds (fun c => (profile c).views id = seen) (fun _ => True)
      (wireSection p build blockId sectionName edgeTypes refs c) := by
  refine Holds.foldlM (fun c e _ hh => ?_) c hh
  split
  · exact hh
  · have hbe := hl.trans (length_childId blockId sectionName e.2)
    refine (hb _ _ c hbe hh).bind fun c hh => ?_
    exact foldl_invariant (I := fun c => (profile c).views id = seen)
      (fun c kind mem hh => by
        rwa [profile_addEdge _ _ _ _ (ho kind mem)]) c hh

theorem buildTask_far (f : String) (limit : Nat) (other : String) (t : TaskDef)
    (hl : id.length < other.length) (holds : (profile c).views id = seen) :
    Holds (fun c => (profile c).views id = seen) (fun _ => True)
      (buildTask p scope f limit other t c) := by
  induction limit generalizing other t c with
  | zero => trivial
  | succ limit ih =>
    have ha := views_addNode holds hl (definitionNode t.nodeType f scope t) (.definition f t)
    have he : ∀ c, (profile c).views id = seen →
        (profile (wireExecutable scope f other t c)).views id = seen := by
      intro c holds
      rwa [profile_wireExecutable]
    unfold buildTask
    split
    · have hc := fun other t c hl holds => ih other t hl (c := c) holds
      refine Holds.bind (M := fun c => (profile c).views id = seen) ?_ he
      unfold wireBlockChildren
      refine (wireSection_far p hc _ _ hl (by decide) _ ha).bind fun c holds => ?_
      refine (wireSection_far p hc _ _ hl (by decide) _ holds).bind fun c holds => ?_
      exact wireSection_far p hc _ _ hl (by decide) _ holds
    · exact he _ ha

variable {state : GraphBuilder × Nat}

theorem buildTaskList_far (limit : Nat) (f playId : String) (refs : List Ref)
    (hh : (profile state.1).views playId = seen) :
    Holds (fun state : GraphBuilder × Nat => (profile state.1).views playId = seen) (fun _ => True)
      (buildTaskList p scope limit f playId refs state) := by
  refine Holds.foldlM (fun state ref _ hh => ?_) state hh
  split
  · exact hh
  · refine (buildTask_far p scope f limit _ _ (length_childId _ _ _) hh).bind
      fun c hh => ?_
    rw [Holds.pure_iff, profile_addEdge _ _ _ _ rfl]
    exact hh

theorem profile_wireRoles (playId : String) (roles : List String) (st : GraphBuilder × Nat) :
    profile (wireRoles playId roles st).1 = profile st.1 := by
  refine foldl_invariant (I := fun now : GraphBuilder × Nat => profile now.1 = profile st.1)
    (fun now name _ hk => ?_) st rfl
  split
  · exact hk
  · rw [profile_addEdge _ _ _ _ rfl, hk]

theorem buildHandlers_far (refs : List Ref) (hh : (profile state.1).views playId = seen) :
    (profile (buildHandlers p scope file playId refs state).1).views playId = seen := by
  refine foldl_invariant (I := fun now : GraphBuilder × Nat => (profile now.1).views playId = seen)
    (fun now e _ hh => ?_) state hh
  split
  · exact hh
  · rw [profile_addEdge _ _ _ _ rfl]
    exact views_addNode hh (length_childId _ _ _) _ _

end Far

namespace Alike

variable {t t' : TaskDef}

theorem handler (ha : Alike f g b b') (hl : TaskAlike f g t t') (file id : String) :
    Alike f g (buildHandler scope file id t b) (buildHandler scope file id t' b') := by
  refine ha.addNode id _ _ _ _ ?_
  simp [view, definitionNode, View.rename, hl.name, hl.notify, hl.listen]

include projects

variable {build build' : String → TaskDef → GraphBuilder → Except RecursionError GraphBuilder}

section

variable
  (built : ∀ id t t' b b', TaskAlike f g t t' → Alike f g b b' → Pairs (Alike f g) (build id t b) (build' id t' b'))

include built

theorem wireSection (blockId sectionName : String) {edgeTypes : List EdgeType}
    (ho : ∀ kind ∈ edgeTypes, isWiring kind = false) (refs : List Ref)
    (ha : Alike f g b b') :
    Pairs (Alike f g) (wireSection p build blockId sectionName edgeTypes refs b)
      (wireSection p' build' blockId sectionName edgeTypes refs b') := by
  refine foldlM (fun b b' e _ ha => ?_) b b' ha
  rcases projects.resolveTask e.1 with ⟨old, new⟩ | ⟨t, t', old, new, hl⟩
  · simp only [old, new]
    exact ha
  · simp only [old, new]
    refine bind (built _ t t' b b' hl ha) fun c c' ha => ?_
    exact foldl_pairs (fun c c' kind mem ha =>
      ha.addEdge _ _ _ (ho kind mem)) c c' ha

theorem wireBlockChildren (blockId : String) (hl : TaskAlike f g t t') (ha : Alike f g b b') :
    Pairs (Alike f g) (wireBlockChildren p build blockId t b)
      (wireBlockChildren p' build' blockId t' b') := by
  unfold Builder.wireBlockChildren
  rw [hl.rescue, hl.always, hl.block]
  refine bind (wireSection projects built _ _ (by decide) _ ha) fun c c' ha => ?_
  refine bind (wireSection projects built _ _ (by decide) _ ha) fun c c' ha => ?_
  exact wireSection projects built _ _ (by decide) _ ha

end

theorem buildTask (file : String) (limit : Nat) (id : String)
    (hl : TaskAlike f g t t') (hal : Alike f g b b') :
    Pairs (Alike f g) (buildTask p scope file limit id t b)
      (buildTask p' scope file limit id t' b') := by
  induction limit generalizing id t t' b b' with
  | zero => rfl
  | succ limit ih =>
    have hr : t.nodeType ≠ .role := by
      unfold TaskDef.nodeType
      split <;> decide
    have ha : Alike f g
        (b.addNode id (definitionNode t.nodeType file scope t) (.definition file t))
        (b'.addNode id (definitionNode t'.nodeType file scope t') (.definition file t')) := by
      rw [hl.nodeType]
      exact hal.addNode id _ _ _ _ (view_definitionNode scope hl hr file)
    have he : ∀ c c', Alike f g c c' →
        Alike f g (wireExecutable scope file id t c)
          (wireExecutable scope file id t' c') := fun c c' hal =>
      hal.of_profile (profile_wireExecutable scope _ _ t c) (profile_wireExecutable scope _ _ t' c')
    simp only [Builder.buildTask]
    by_cases hB : t.nodeType = .block
    · have hb' : t'.nodeType = .block := hl.nodeType.trans hB
      rw [if_pos hB, if_pos hb']
      exact bind (wireBlockChildren projects (fun id t t' b b' hl hal => ih id hl hal) id hl ha) he
    · have hnb' : t'.nodeType ≠ .block := fun hs => hB (hl.nodeType ▸ hs)
      rw [if_neg hB, if_neg hnb']
      exact he _ _ ha

variable {state state' : GraphBuilder × Nat} (limit : Nat) (file playId : String)

theorem buildTaskList (refs : List Ref) (ha : AlikeAt f g state state') :
    Pairs (AlikeAt f g) (buildTaskList p scope limit file playId refs state)
      (buildTaskList p' scope limit file playId refs state') := by
  refine foldlM (fun state state' ref _ ha => ?_) state state' ha
  rcases projects.resolveTask ref with ⟨old, new⟩ | ⟨t, t', old, new, hl⟩
  · simp only [old, new]
    exact ha
  · simp only [old, new, ha.2]
    refine bind (buildTask projects scope file limit _ hl ha.1) fun c c' ha => ?_
    exact ⟨ha.addEdge _ _ _ rfl, rfl⟩

omit projects in
theorem wireRoles (playId : String) (roles : List String) (ha : AlikeAt f g state state') :
    AlikeAt f g (wireRoles playId roles state) (wireRoles playId roles state') := by
  refine foldl_pairs (fun state state' name _ ha => ?_) state state' ha
  have hf := ha.1.resolveRole name
  cases old : state.1.resolveRoleNidByName name with
  | none =>
    cases new : state'.1.resolveRoleNidByName name with
    | none => exact ha
    | some tgt' => simp [old, new] at hf
  | some tgt =>
    cases new : state'.1.resolveRoleNidByName name with
    | none => simp [old, new] at hf
    | some tgt' =>
      exact ⟨ha.1.of_profile (profile_addEdge _ _ _ _ rfl) (profile_addEdge _ _ _ _ rfl),
        congrArg (· + 1) ha.2⟩

theorem buildHandlers (refs : List Ref) (ha : AlikeAt f g state state') :
    AlikeAt f g (buildHandlers p scope file playId refs state)
      (buildHandlers p' scope file playId refs state') := by
  refine foldl_pairs (fun state state' e _ ha => ?_) state state' ha
  rcases projects.resolveTask e.1 with ⟨old, new⟩ | ⟨t, t', old, new, hl⟩
  · simp only [old, new]
    exact ha
  · simp only [old, new, ha.2]
    exact ⟨(ha.1.handler scope hl _ _).addEdge _ _ _ rfl, rfl⟩

variable {play : PlayDef}

omit projects in
theorem profile_header {c : GraphBuilder} {playId f : String} {lines : Nat × Nat}
    (hu : (profile c).views playId = none) (txt : Text) :
    profile (if txt ≠ [] ∧ 0 < lines.1 then
      setHeader playId (playNode scope f lines play) (playCut txt lines playId c.graph) c
      else c) = profile c := by
  split
  · have hv : ∀ t depth, view { playNode scope f lines play with
        yamlLines := t, indentDepth := depth } = none := fun _ _ => rfl
    rw [setHeader, profile_addNode, hv, ← hu, Function.update_eq_self]
  · rfl

theorem buildPlay (file : String) (text text' : Text) (playIndex : Nat)
    {play' : PlayDef} (hl : PlayAlike play play') (ha : Alike f g b b') :
    Pairs (Alike f g) (buildPlay p scope limit file text playIndex play b)
      (buildPlay p' scope limit file text' playIndex play' b') := by
  have had := ha.addNode (childId file "plays" playIndex)
    (playNode scope file (playLines text playIndex play) play)
    (playNode scope file (playLines text' playIndex play') play') .none .none rfl
  have hf := wireVarsFiles_spec scope file (childId file "plays" playIndex) play.varsFiles
    (b.addNode (childId file "plays" playIndex)
      (playNode scope file (playLines text playIndex play) play), 0)
  have hf' := wireVarsFiles_spec scope file (childId file "plays" playIndex)
    play'.varsFiles (b'.addNode (childId file "plays" playIndex)
      (playNode scope file (playLines text' playIndex play') play'), 0)
  have hu : (profile (wireVarsFiles scope file (childId file "plays" playIndex)
      play.varsFiles (b.addNode (childId file "plays" playIndex)
        (playNode scope file (playLines text playIndex play) play), 0)).1).views
      (childId file "plays" playIndex) = none := by
    rw [hf.1, profile_addNode]
    exact Function.update_self _ _ _
  unfold Builder.buildPlay
  dsimp only
  rw [hl.preTasks, hl.roles, hl.tasks, hl.postTasks, hl.handlers]
  refine bind ((buildTaskList projects scope limit _ _ _
    ⟨had.of_profile hf.1 hf'.1, by rw [hf.2, hf'.2, hl.varsFiles]⟩).and_left
    (buildTaskList_far p scope limit _ _ _ hu)) ?_
  rintro state state' ⟨ha, hu⟩
  rw [← profile_wireRoles (childId file "plays" playIndex) play.roles state] at hu
  refine bind ((buildTaskList projects scope limit _ _ _ (wireRoles _ _ ha)).and_left
    (buildTaskList_far p scope limit _ _ _ hu)) ?_
  rintro state state' ⟨ha, hu⟩
  refine bind ((buildTaskList projects scope limit _ _ _ ha).and_left
    (buildTaskList_far p scope limit _ _ _ hu)) ?_
  rintro state state' ⟨ha, hu⟩
  have hh := (buildHandlers projects scope file (childId file "plays" playIndex) play.handlers ha).1
  have hu := buildHandlers_far p scope file (childId file "plays" playIndex) play.handlers hu
  have hu' : (profile (Builder.buildHandlers p' scope file (childId file "plays" playIndex)
      play.handlers state').1).views (childId file "plays" playIndex) = none := by
    rw [hh]
    exact congrArg (Option.map (View.rename f g)) hu
  rw [← apply_ite pure, ← apply_ite pure]
  exact hh.of_profile (profile_header scope hu text) (profile_header scope hu' text')

theorem buildTaskfile (isHandlerFile : Bool) (taskfile : TaskFileDef) (ha : Alike f g b b') :
    Pairs (Alike f g) (buildTaskfile p scope limit isHandlerFile taskfile b)
      (buildTaskfile p' scope limit isHandlerFile taskfile b') := by
  unfold Builder.buildTaskfile
  dsimp only
  rw [ha.visited]
  split
  · exact ha
  · refine foldlM (fun c c' e _ ha => ?_) _ _
      ((ha.visit _).addNode _ _ _ .none .none rfl)
    rcases projects.resolveTask e.1 with ⟨old, new⟩ | ⟨t, t', old, new, hl⟩
    · simp only [old, new]
      exact ha
    · simp only [old, new]
      split
      · exact (ha.handler scope hl _ _).addEdge _ _ _ rfl
      · refine bind (buildTask projects scope _ limit _ hl ha) fun c c' ha => ?_
        exact ha.addEdge _ _ _ rfl

theorem buildPlaybook (pb : PlaybookDef) (yamlLines : Text) (ha : Alike f g b b') :
    Pairs (Alike f g) (buildPlaybook p scope limit pb b)
      (buildPlaybook p' scope limit { pb with yamlLines } b') := by
  unfold Builder.buildPlaybook
  dsimp only
  rw [ha.visited]
  split
  · exact ha
  · refine foldlM (fun c c' e _ ha => ?_) _ _
      ((ha.visit _).addNode _ _ _ .none .none rfl)
    rcases projects.resolvePlay e.1 with ⟨old, new⟩ | ⟨p₁, hp', old, new, hl⟩
    · simp only [old, new]
      exact ha
    · simp only [old, new]
      by_cases hi : p₁.importPlaybook = ""
      · rw [if_neg (not_not.mpr hi), if_neg (not_not.mpr (hl.imports.mpr hi))]
        refine bind (buildPlay projects scope limit _ _ _ _ hl ha) fun c c' ha => ?_
        exact ha.addEdge _ _ _ rfl
      · rw [if_pos hi, if_pos fun he => hi (hl.imports.mp he)]
        refine ha.of_profile ?_ ?_ <;>
          (unfold handleImportPlaybook
           dsimp only
           rw [profile_addEdge _ _ _ _ rfl, profile_ensureNode _ _ _ (.inr (.inl rfl))])

omit projects in
theorem wireTaskfile (roleId : String) (taskfile : TaskFileDef) (ha : AlikeAt f g state state') :
    AlikeAt f g (wireTaskfile roleId taskfile state) (wireTaskfile roleId taskfile state') := by
  unfold Builder.wireTaskfile
  split
  · exact ha
  · rw [ha.2]
    exact ⟨ha.1.addEdge _ _ _ rfl, rfl⟩

theorem buildRoleTaskfile (roleId : String) (ref : Ref) (ha : AlikeAt f g state state') :
    Pairs (AlikeAt f g) (buildRoleTaskfile p scope limit roleId state ref)
      (buildRoleTaskfile p' scope limit roleId state' ref) := by
  unfold Builder.buildRoleTaskfile
  rw [projects.resolveTaskFile]
  split
  · exact ha
  · refine bind (buildTaskfile projects scope limit false _ ha.1) fun c c' built => ?_
    exact wireTaskfile roleId _ ⟨built, ha.2⟩

variable {role role' : RoleDef}

theorem buildRoleHandler (hl : RoleAlike role role')
    (e : Ref × Nat) (ha : AlikeAt f g state state') :
    Pairs (AlikeAt f g) (buildRoleHandler p scope limit role state e)
      (buildRoleHandler p' scope limit role' state' e) := by
  have hp : role'.rolePath = role.rolePath := by
    simp only [RoleDef.rolePath, RoleDef.effectiveFqcn, hl.definedIn, hl.fqcn, hl.name]
  rcases projects.resolve e.1 with ⟨old, new⟩ | ⟨defn, d', old, new, hs⟩
  · simp only [Builder.buildRoleHandler, old, new]
    exact ha
  · cases hs with
    | taskfile taskfile =>
      simp only [Builder.buildRoleHandler, old, new, hp]
      refine bind (buildTaskfile projects scope limit true _ ha.1) fun c c' built => ?_
      exact wireTaskfile _ _ ⟨built, ha.2⟩
    | task t t' hs =>
      simp only [Builder.buildRoleHandler, old, new, hp, hl.definedIn, ha.2]
      exact ⟨(ha.1.handler scope hs _ _).addEdge _ _ _ rfl, rfl⟩
    | _ =>
      simp only [Builder.buildRoleHandler, old, new]
      exact ha

theorem buildRole (hl : RoleAlike role role') (ha : Alike f g b b') :
    Pairs (Alike f g) (buildRole p scope limit role b) (buildRole p' scope limit role' b') := by
  have hf : role'.effectiveFqcn = role.effectiveFqcn := by
    simp only [RoleDef.effectiveFqcn, hl.fqcn, hl.name]
  have hp : role'.rolePath = role.rolePath := by
    simp only [RoleDef.rolePath, hf, hl.definedIn]
  unfold Builder.buildRole
  dsimp only
  rw [ha.visited, hp, hl.taskfiles, hl.handlers, hl.definedIn, hf]
  split
  · exact ha
  · refine bind (foldlM
      (fun st state' ref _ ha => buildRoleTaskfile projects scope limit _ ref ha) _ _
      ⟨(ha.visit _).addNode _ _ _ .none .none rfl, rfl⟩) fun st state' ha => ?_
    refine bind (foldlM
      (fun st state' e _ ha => buildRoleHandler projects scope limit hl e ha) _ _
      ha) fun st state' ha => ?_
    refine ha.1.of_profile ?_ ?_ <;>
      rw [wireDependencies_keys, profile_wireRoleVariables, profile_wireRoleVariables]

theorem buildCollection (collection : CollectionDef) (ha : Alike f g b b') :
    Alike f g (buildCollection p scope collection b) (buildCollection p' scope collection b') := by
  unfold Builder.buildCollection
  dsimp only
  rw [ha.visited]
  split
  · exact ha
  · refine foldl_pairs (fun c c' ref _ ha => ?_) _ _
      ((ha.visit _).addNode _ _ _ .none .none rfl)
    rw [projects.resolveModule]
    split
    · exact ha
    · refine Alike.addEdge ?_ _ _ _ rfl
      unfold buildModule
      rw [ha.visited]
      split
      · exact ha
      · exact (ha.visit _).addNode _ _ _ .none .none rfl

theorem buildFromLoaded (loaded : Loaded) (ha : Alike f g b b') :
    Pairs (Alike f g) (buildFromLoaded p scope limit loaded b)
      (buildFromLoaded p' scope limit loaded b') := by
  unfold Builder.buildFromLoaded
  dsimp only
  refine bind (foldlM (fun c c' addr _ ha => ?_) _ _
    (foldl_pairs (fun c c' addr _ ha => ?_) b b' ha)) fun c c' ha => ?_
  · rcases projects.heapAt addr with ⟨old, new⟩ | ⟨defn, d', old, new, hl⟩
    · simp only [buildRoleAt, old, new]
      exact ha
    · cases hl with
      | role role role' hl =>
        simp only [buildRoleAt, old, new]
        exact buildRole projects scope limit hl ha
      | _ =>
        simp only [buildRoleAt, old, new]
        exact ha
  · rcases projects.heapAt addr with ⟨old, new⟩ | ⟨defn, d', old, new, hl⟩
    · simp only [buildCollectionAt, old, new]
      exact ha
    · cases hl <;> simp only [buildCollectionAt, old, new]
      · exact buildCollection projects scope _ ha
      all_goals exact ha
  · refine bind (foldlM (fun c c' addr _ ha => ?_) _ _ ha)
      fun c c' ha => foldlM (fun c c' addr _ ha => ?_) _ _ ha
    · rcases projects.heapAt addr with ⟨old, new⟩ | ⟨defn, d', old, new, hl⟩
      · simp only [buildPlaybookAt, old, new]
        exact ha
      · cases hl with
        | playbook playbook yamlLines =>
          simp only [buildPlaybookAt, old, new]
          exact buildPlaybook projects scope limit playbook yamlLines ha
        | _ =>
          simp only [buildPlaybookAt, old, new]
          exact ha
    · rcases projects.heapAt addr with ⟨old, new⟩ | ⟨defn, d', old, new, hl⟩
      · simp only [buildTaskfileAt, old, new]
        exact ha
      · cases hl with
        | taskfile taskfile =>
          simp only [buildTaskfileAt, old, new]
          exact buildTaskfile projects scope limit false taskfile ha
        | _ =>
          simp only [buildTaskfileAt, old, new]
          exact ha

end Alike

end Functions

/-- The builder before the handlers are wired. -/
def buildUnwired (limit : Nat) (p : Project) : Except RecursionError GraphBuilder := do
  let b ← buildFromLoaded p .owned limit p.root {}
  buildFromLoaded p .referenced limit p.ext b

theorem build_eq (limit : Nat) (p : Project) :
    build limit p = buildUnwired limit p >>= fun b => pure (wireNotifyListen b) := by
  simp only [build, buildUnwired, bind_assoc]

theorem ProjectAlike.buildUnwired {p p' : Project} (projects : ProjectAlike (TaskAlike f g) p p')
    (limit : Nat) : Pairs (Alike f g) (buildUnwired limit p) (buildUnwired limit p') := by
  have hs : Alike f g {} {} := rfl
  unfold Builder.buildUnwired
  rw [projects.root, projects.ext]
  refine bind (Alike.buildFromLoaded projects .owned limit p.root hs) fun b b' ha => ?_
  exact Alike.buildFromLoaded projects .referenced limit p.ext ha

end Apme.Builder
