import Apme.Builder.Wiring
import Apme.Formatter.Data

/-!
# Formatting and the wiring of handlers

A task or handler is read from its mapping: its name, the names it notifies and
the topics it listens to.  Formatting capitalises the name and leaves the other
two alone, wherever in a list of plays or tasks the mapping stands.  What the
passes over the text do to these texts afterwards is a parameter, one respelling
for all of them.
-/

set_option autoImplicit false

namespace Apme.Formatter

open Apme.Lib Apme.Graph Apme.Builder Scalar List DataTree Entries

variable (repr : Yaml → String)

/-- `str()` of a value; that of a list or mapping is a parameter. -/
def strOf : Yaml → String
  | .leaf scalar => String.ofList (scalarText scalar)
  | value => repr value

def asStrList : Option Yaml → List String
  | some (.leaf (.str text)) => [String.ofList text]
  | some (.seq items) => items.map (strOf repr)
  | _ => []

/-- The name of a task; none if it is something other than a text. -/
def readName : Option Yaml → Option String
  | none => some ""
  | some (.leaf .null) => some ""
  | some (.leaf (.str text)) => some (String.ofList text)
  | some _ => none

/-- The definition was read from the mapping after its texts were respelled. -/
structure ReadFrom (repr : Yaml → String) (respace : String → String) (task : TaskDef)
    (entries : Entries) : Prop where
  name : ∃ name, readName (entries.get? (word "name")) = some name ∧ task.name = respace name
  notify : task.notify = (asStrList repr (entries.get? (word "notify"))).map respace
  listen : task.listen = (asStrList repr (entries.get? (word "listen"))).map respace
  module : task.hasBlockChildren → task.module = ""

/-- The definition of a mapping in a list of plays or tasks, before the list is
formatted and after. -/
structure FormattedTask (letters : Letters) (repr : Yaml → String) (respace : String → String)
    (task task' : TaskDef) : Prop where
  document : ∃ items formatted path entries entries',
    WellFormed (.seq items) ∧ rewriteData letters (.seq items) = .ok formatted ∧
    Leads canon (isOneOf taskListKeys) path ∧
    subtree canon (.seq items) path = some (.map entries) ∧
    subtree canon formatted path = some (.map entries') ∧
    ReadFrom repr id task entries ∧ ReadFrom repr respace task' entries'
  key : task'.key = task.key
  block : task'.block = task.block
  rescue : task'.rescue = task.rescue
  always : task'.always = task.always

section Places

variable {letters : Letters}

theorem reorder_passes (es new : Entries) (k : Scalar) (value : Yaml)
    (hn : es.keys.Nodup) (hwr : total reorderSingleTask es = .ok new)
    (he : k.isOneOf (taskListKeys ++ ["roles"])) (mem : (k, value) ∈ es)
    (_inner : ∀ txt, value ≠ .leaf txt) :
    find canon new (canon k) = some value := by
  have hf : ∀ t ∈ taskListKeys ++ ["roles"], '{' ∉ t.toList := by decide
  cases hwr
  rw [find_reorder es hn]
  exact find_of_mem hn (fun o => alone hf k o he) mem

theorem rewriteData_place {xs : List Yaml} {formatted : Yaml} {path : List (Step Scalar)}
    {es : Entries} (hfo : WellFormed (.seq xs))
    (hrw : rewriteData letters (.seq xs) = .ok formatted)
    (hle : Leads canon (isOneOf taskListKeys) path)
    (hlo : subtree canon (.seq xs) path = some (.map es)) :
    ∃ part, rewriteItem letters (.map es) = .ok part ∧
      subtree canon formatted path = some part ∧ WellFormed (.map es) := by
  obtain ⟨ex, c, r, he, hc, hr, rfl⟩ :=
    rewriteData_ok.mp hrw
  have ho : Leads canon (isOneOf (taskListKeys ++ ["roles"])) path := by
    intro key hm
    obtain ⟨own, hen, looks⟩ := hle key hm
    obtain ⟨t, hl, rfl⟩ := (isOneOf_iff _ _).mp hen
    exact ⟨word t, isOneOf_word (mem_append_left _ hl), looks⟩
  have hf := walk_wellFormed expand_wellFormed _ ex hfo he
  have hcf := walk_wellFormed capitalize_wellFormed ex c hf hc
  have hin : ∀ scalar, map es ≠ .leaf scalar := fun _ => nofun
  obtain ⟨first, one, haf, hpf⟩ := subtree_walk expand_passes (alone taskListKeys_free)
    path hle _ ex _ hfo he hlo hin
  have hi := walk_ne_leaf hin one
  obtain ⟨s, two, hse, _⟩ := subtree_walk capitalize_passes (alone taskListKeys_free)
    path hle ex c first hf hc haf hi
  have hsi := walk_ne_leaf hi two
  obtain ⟨third, hth, ht, _⟩ := subtree_walk reorder_passes
    (alone (by decide)) path ho c r s hcf hr hse
    hsi
  refine ⟨third, rewriteItem_ok.mpr ⟨first, s, one, two, hth⟩, ?_, hpf⟩
  -- a list has no version to raise
  obtain ⟨_, _, rfl⟩ := walk_seq_ok.mp he
  obtain ⟨_, _, rfl⟩ := walk_seq_ok.mp hc
  obtain ⟨_, _, rfl⟩ := walk_seq_ok.mp hr
  exact ht

end Places

section Fields

variable {letters : Letters}

def capitalizeValue (letters : Letters) : Yaml → Yaml
  | .leaf (.str name) => .leaf (.str (capitalizeTaskName letters name))
  | value => value

theorem get?_entered_of_not {n : Scalar → Bool} {r : Entries → Except PyError Entries}
    {es came : Entries} (he : List.Forall₂ (Entered n r) es came)
    {key : Scalar} (ho : n key = false) : came.get? key = es.get? key := by
  induction he with
  | nil => rfl
  | @cons old new rest newRest first _ ih =>
    rw [get?, get?, lookup_cons, lookup_cons, first.1]
    by_cases hs : key = old.1
    · subst hs
      rw [beq_self_eq_true, first.2.2 ho]
    · rw [beq_false_of_ne hs]
      exact ih

theorem get?_set_of_ne (es : Entries) {k other : Scalar} (v : Yaml)
    (hd : other ≠ k) : (es.set k v).get? other = es.get? other := by
  induction es with
  | nil => rfl
  | cons e rest ih =>
    have hr : (rest.map fun e => if e.1 = k then (k, v) else e).lookup
        other = rest.lookup other := ih
    rw [Entries.get?, Entries.get?, Entries.set, map_cons, lookup_cons, lookup_cons, hr]
    by_cases hs : e.1 = k
    · rw [if_pos hs, hs]
      simp only [beq_false_of_ne hd]
    · rw [if_neg hs]

theorem get?_expand {es new : Entries} (hwr : expandSingleTaskKv letters es = .ok new)
    {t : String} (hke : t ∈ formatMetaKeys) :
    new.get? (word t) = es.get? (word t) := by
  rcases expand_cases hwr with rfl | ⟨k, v, a, hmod, _, rfl⟩
  · rfl
  · refine get?_set_of_ne es _ ?_
    rintro rfl
    have hk := List.find?_some (Option.filter_eq_some_iff.mp hmod).1
    simp [isOneOf_word hke] at hk

theorem get?_capitalize (es : Entries) (t : String) :
    (capitalizeHere letters es).get? (word t) =
      if t = "name" then (es.get? (word t)).map (capitalizeValue letters)
      else es.get? (word t) := by
  split
  next isName =>
    subst isName
    by_cases hl : LowerCaseName letters es
    · obtain ⟨name, hf, hc⟩ := hl
      rw [capitalize_of_lower hf hc,
        get?_set _ _ _ (mem_keys_of_get? hf), hf]
      rfl
    · rw [capitalize_of_not hl]
      cases hf : es.get? (word "name") with
      | none => rfl
      | some value =>
        have hs : capitalizeValue letters value = value := by
          unfold capitalizeValue
          split
          next name =>
            by_contra hc
            exact hl ⟨name, hf, fun he => hc (by rw [he])⟩
          next => rfl
        rw [Option.map_some, hs]
  next other =>
    rcases capitalize_cases letters es with hs | ⟨name, _, hr⟩
    · rw [hs]
    · rw [hr, get?_set_of_ne es _ fun he => other (word_injective he)]

theorem get?_reorder {es : Entries} (hn : es.keys.Nodup) {t : String}
    (hf : '{' ∉ t.toList) :
    (reorderSingleTask es).get? (word t) = es.get? (word t) := by
  rw [← find_word _ hf, ← find_word _ hf, find_reorder es hn]

theorem get?_rewritten {es : Entries} {part : Yaml} (hfo : WellFormed (.map es))
    (hr : rewriteItem letters (.map es) = .ok part) :
    ∃ new : Entries, part = .map new ∧
      ∀ t ∈ formatMetaKeys, t ∉ taskListKeys ++ ["roles"] →
        new.get? (word t) =
          if t = "name" then (es.get? (word t)).map (capitalizeValue letters)
          else es.get? (word t) := by
  obtain ⟨exp, capitalized, one, two, hth⟩ := rewriteItem_ok.mp hr
  have hef := walk_wellFormed expand_wellFormed _ exp hfo one
  have hf := walk_wellFormed capitalize_wellFormed exp capitalized hef two
  obtain ⟨first, expandedEntries, hfi, hwf, rfl⟩ := walk_map_ok.mp one
  obtain ⟨second, capitalizedEntries, hes, hws, rfl⟩ := walk_map_ok.mp two
  obtain ⟨third, new, ht, hwt, rfl⟩ := walk_map_ok.mp hth
  cases hws
  cases hwt
  refine ⟨_, rfl, fun t hk ho => ?_⟩
  have hn : ∀ words, t ∉ words → (word t).isOneOf words = false := by
    intro words ha
    by_contra hw
    obtain ⟨o, hl, hs⟩ := (isOneOf_iff _ _).mp (Bool.not_eq_false _ ▸ hw)
    exact ha (word_injective hs ▸ hl)
  have hol : t ∉ taskListKeys := fun hl => ho (mem_append_left _ hl)
  have free : '{' ∉ t.toList := known_free t (by simp [hk])
  have hno : (keys third).Nodup := by
    rw [Entries.keys, DataTree.Entered.keys ht]
    exact hf.distinct
  rw [get?_reorder hno free, get?_entered_of_not ht (hn _ ho),
    get?_capitalize, get?_entered_of_not hes (hn _ hol),
    get?_expand hwf hk, get?_entered_of_not hfi (hn _ hol)]

end Fields

section Wiring

variable {letters : Letters} {repr : Yaml → String} {respace : String → String}

def capitalizeString (letters : Letters) (name : String) : String :=
  String.ofList (capitalizeTaskName letters name.toList)

theorem capitalizeString_eq_empty (ls : Letters) (name : String) :
    capitalizeString ls name = "" ↔ name = "" := by
  have ht : capitalizeTaskName ls name.toList = [] ↔ name.toList = [] := by
    rcases capitalizeTaskName_cases ls name.toList with
      hs | ⟨before, c, after, hw, hc, hr⟩
    · rw [hs]
    · rw [hr, hw]
      simp [(ls.upper_plain c hc).2.1]
  rw [← String.toList_eq_nil_iff, ← String.toList_eq_nil_iff, capitalizeString,
    String.toList_ofList, ht]

theorem readName_capitalize {v : Option Yaml} {name : String} (hr : readName v = some name) :
    readName (v.map (capitalizeValue letters)) = some (capitalizeString letters name) := by
  unfold readName at hr
  split at hr
  · cases hr
    rfl
  · cases hr
    rfl
  next ht =>
    cases hr
    simp only [Option.map_some, capitalizeValue, readName, capitalizeString, String.toList_ofList]
  · cases hr

theorem nodeType_of_module {task : TaskDef}
    (hm : task.hasBlockChildren → task.module = "") :
    task.nodeType = if task.hasBlockChildren then .block else .task := by
  unfold TaskDef.nodeType
  by_cases hc : task.hasBlockChildren
  · simp [hc, hm hc]
  · simp [hc]

theorem FormattedTask.alike {task task' : TaskDef}
    (formatted : FormattedTask letters repr respace task task') :
    TaskAlike (fun name => respace (capitalizeString letters name)) respace task task' := by
  obtain ⟨xs, w, p, e, e', hf, hrw, hle, hl, hl', hr,
    hre'⟩ := formatted.document
  obtain ⟨part, hre, hP, hef⟩ := rewriteData_place hf hrw hle hl
  obtain ⟨new, rfl, hfi⟩ := get?_rewritten hef hre
  cases Option.some.inj (hP.symm.trans hl')
  have hc : task'.hasBlockChildren = task.hasBlockChildren := by
    simp only [TaskDef.hasBlockChildren, formatted.block, formatted.rescue, formatted.always]
  refine ⟨formatted.key, ?_, ?_, ?_, ?_, formatted.block, formatted.rescue, formatted.always⟩
  · rw [nodeType_of_module hr.module, nodeType_of_module hre'.module, hc]
  · obtain ⟨name, read, hN⟩ := hr.name
    obtain ⟨name', hr', hN'⟩ := hre'.name
    rw [hfi "name" (by decide) (by decide), if_pos rfl, readName_capitalize read] at hr'
    rw [hN', hN, ← Option.some.inj hr']
    rfl
  · rw [hre'.notify, hr.notify, hfi "notify" (by decide) (by decide), if_neg (by decide),
      map_id]
  · rw [hre'.listen, hr.listen, hfi "listen" (by decide) (by decide), if_neg (by decide),
      map_id]

variable (handlerName notified : String)

/-- A play whose task notifies a handler. -/
def sitePlay : Yaml :=
  .map [(word "name", .leaf (word "Web")), (word "hosts", .leaf (word "all")),
    (word "tasks", .seq [.map [(word "name", .leaf (word "Copy")), (word "copy", .map []),
      (word "notify", .leaf (word notified))]]),
    (word "handlers", .seq [.map [(word "name", .leaf (word handlerName)), (word "service", .map [])]])]

def siteTask (notified : String) : TaskDef :=
  { key := "task", name := "Copy", module := "copy", notify := [notified] }

def siteHandler (handlerName : String) : TaskDef :=
  { key := "handler", name := handlerName, module := "service" }

def site (handlerName notified : String) : Project where
  heap :=
    [.playbook { key := "playbook", definedIn := "site.yml", plays := [.object 1] },
      .play { key := "play", name := "Web", tasks := [.object 2], handlers := [.object 3] },
      .task (siteTask notified), .task (siteHandler handlerName)]
  root := { playbooks := [0] }

theorem site_wellFormed : WellFormed (.seq [sitePlay handlerName notified]) := by
  have hpk : [word "name", word "hosts", word "tasks", word "handlers"].Nodup := by decide
  have htk : [word "name", word "copy", word "notify"].Nodup := by decide
  have hk : [word "name", word "service"].Nodup := by decide
  simpa [sitePlay] using ⟨by simpa using hpk, by simpa using htk, by simpa using hk⟩

theorem site_formatted :
    ProjectAlike (FormattedTask asciiLetters (fun _ => "") id)
      (site "restart nginx" "restart nginx") (site "Restart nginx" "restart nginx") := by
  have hr : rewriteData asciiLetters (.seq [sitePlay "restart nginx" "restart nginx"]) =
      .ok (.seq [sitePlay "Restart nginx" "restart nginx"]) := by
    rfl
  have hl : ∀ t ∈ taskListKeys,
      Leads canon (isOneOf taskListKeys) [.item 0, .key (word t), .item 0] := by
    intro t hli k mem
    simp only [mem_cons, reduceCtorEq, DataTree.Step.key.injEq, not_mem_nil, or_false,
      false_or] at mem
    rw [mem]
    exact ⟨word t, isOneOf_word hli, canon_word (taskListKeys_free t hli)⟩
  have ht : FormattedTask asciiLetters (fun _ => "") id (siteTask "restart nginx")
      (siteTask "restart nginx") :=
    ⟨⟨_, _, [.item 0, .key (word "tasks"), .item 0], _, _, site_wellFormed _ _, hr,
      hl "tasks" (by decide), rfl, rfl, ⟨⟨_, rfl, rfl⟩, rfl, rfl, nofun⟩,
      ⟨⟨_, rfl, rfl⟩, rfl, rfl, nofun⟩⟩, rfl, rfl, rfl, rfl⟩
  have hh : FormattedTask asciiLetters (fun _ => "") id (siteHandler "restart nginx")
      (siteHandler "Restart nginx") :=
    ⟨⟨_, _, [.item 0, .key (word "handlers"), .item 0], _, _, site_wellFormed _ _, hr,
      hl "handlers" (by decide), rfl, rfl, ⟨⟨_, rfl, rfl⟩, rfl, rfl, nofun⟩,
      ⟨⟨_, rfl, rfl⟩, rfl, rfl, nofun⟩⟩, rfl, rfl, rfl, rfl⟩
  exact ⟨.cons (.playbook _ []) (.cons (.play _ _ ⟨rfl, Iff.rfl, rfl, rfl, rfl, rfl, rfl, rfl⟩)
    (.cons (.task _ _ ht) (.cons (.task _ _ hh) .nil))), rfl, rfl⟩

end Wiring

end Apme.Formatter
