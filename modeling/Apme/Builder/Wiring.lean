import Apme.Builder.Alike
import Mathlib.Algebra.GroupWithZero.Nat
import Mathlib.Algebra.Order.BigOperators.Group.List
import Mathlib.Algebra.Order.Group.Nat
import Mathlib.Data.List.Count

/-!
# How often two nodes are wired

A node is wired to a handler as often as one of its notified names occurs among
the names, or among the topics, of the handler.
-/

set_option autoImplicit false

namespace Apme.Builder

open Apme.Lib Apme.Graph List Profile

/-- The texts under which a handler is reached by edges of one type. -/
def wiredTexts (edgeType : EdgeType) (name : String) (listen : List String) : List String :=
  match edgeType with
  | .notify => if name = "" then [] else [name]
  | .listen => listen
  | _ => []

/-- How often `source` is wired to `target`. -/
def reaches (whole : Profile) (edgeType : EdgeType) (source target : String) : Nat :=
  match whole.views source, whole.views target with
  | some (.task _ _ notify _), some (.task .handler name _ listen) =>
    (notify.map fun text => (wiredTexts edgeType name listen).count text).sum
  | _, _ => 0

theorem sum_entries {ν : Type} {d : Dict String ν} {k : String} (f : String × ν → Nat)
    (ho : ∀ e ∈ d.entries, e.1 ≠ k → f e = 0) :
    (d.entries.map f).sum = match d.get? k with
      | some v => f (k, v)
      | none => 0 := by
  obtain ⟨es, hn⟩ := d
  simp only [Dict.get?] at ho ⊢
  induction es with
  | nil => rfl
  | cons e rest ih =>
    rw [map_cons, nodup_cons] at hn
    rw [forall_mem_cons] at ho
    rw [map_cons, sum_cons, ih hn.2 ho.2]
    by_cases hs : e.1 = k
    · subst hs
      have ha : rest.lookup e.1 = none := (Dict.get?_eq_none_iff ⟨rest, hn.2⟩ e.1).mpr hn.1
      rw [ha, lookup_cons, beq_self_eq_true]
      rfl
    · have hot : (k == e.1) = false := beq_false_of_ne (Ne.symm hs)
      rw [ho.1 hs, Nat.zero_add, lookup_cons, hot]

theorem count_handlersBy (t₁ : ContentNode → List String) (g : ContentGraph)
    (t tgt : String) :
    (handlersBy t₁ g t).count tgt = match g.getNode tgt with
      | some n => if n.nodeType = .handler then (t₁ n).count t else 0
      | none => 0 := by
  rw [handlersBy, count_flatMap, sum_entries]
  · rw [ContentGraph.getNode]
    cases g.nodes.get? tgt with
    | none => rfl
    | some n =>
      simp only [Function.comp_apply]
      split
      · rw [map_const', count_replicate_self, ← countP_eq_length_filter, List.count]
        congr 1
      · rfl
  · intro e _ o
    simp only [Function.comp_apply]
    split
    · rw [map_const', count_replicate, beq_false_of_ne o]
      rfl
    · rfl

theorem count_map_edge (id : String) (edgeType : EdgeType) (tgts : List String) (e : Edge) :
    (tgts.map fun target => ({ source := id, target, edgeType } : Edge)).count e =
      if e.source = id ∧ e.position = 0 ∧ e.edgeType = edgeType then
        tgts.count e.target
      else 0 := by
  split
  next own =>
    obtain ⟨source, target, ownType, pos⟩ := e
    obtain ⟨rfl, rfl, rfl⟩ := own
    exact count_map_of_injective tgts
      (fun target => ({ source, target, edgeType := ownType } : Edge))
      (fun _ _ hs => congrArg Edge.target hs) target
  next ho =>
    refine count_eq_zero.mpr fun mem => ho ?_
    obtain ⟨target, _, rfl⟩ := mem_map.mp mem
    exact ⟨rfl, rfl, rfl⟩

theorem count_notifyEdges (g : ContentGraph) (id : String) (n : ContentNode) (e : Edge) :
    (notifyEdges g id n).count e =
      if (n.nodeType = .task ∨ n.nodeType = .handler) ∧ e.source = id ∧
          e.position = 0 then
        (n.notify.map fun t =>
          match g.getNode e.target with
          | some handler =>
            if handler.nodeType = .handler then
              (wiredTexts e.edgeType handler.name handler.listen).count t
            else 0
          | none => 0).sum
      else 0 := by
  by_cases hw : n.nodeType = .task ∨ n.nodeType = .handler
  · rw [notifyEdges, if_pos hw, count_flatMap]
    simp only [Function.comp_def, count_append, count_map_edge, count_handlersBy, hw, true_and]
    by_cases own : e.source = id ∧ e.position = 0
    · rw [if_pos own]
      congr 1
      refine map_congr_left fun t _ => ?_
      cases g.getNode e.target with
      | none => simp
      | some handler =>
        by_cases hhand : handler.nodeType = .handler
        · cases hk : e.edgeType <;>
            simp [own.1, own.2, hhand, wiredTexts, handlerNames]
        · simp [hhand]
    · rw [if_neg own]
      have none : ∀ edgeType, ¬ (e.source = id ∧ e.position = 0 ∧
          e.edgeType = edgeType) := fun edgeType all => own ⟨all.1, all.2.1⟩
      simp [none]
  · rw [notifyEdges, if_neg hw, if_neg fun all => hw all.1]
    rfl

theorem count_wiring (b : GraphBuilder) (edge : Edge) :
    (b.graph.nodes.entries.flatMap fun e => notifyEdges b.graph e.1 e.2).count edge =
      if edge.position = 0 then reaches (profile b) edge.edgeType edge.source edge.target else 0 := by
  rw [count_flatMap, sum_entries]
  · have hs : (profile b).views edge.source = (b.graph.nodes.get? edge.source).bind view := rfl
    have hta : (profile b).views edge.target = (b.graph.getNode edge.target).bind view := rfl
    cases hf : b.graph.nodes.get? edge.source with
    | none => simp [reaches, hs, hf]
    | some n =>
      simp only [Function.comp_apply, count_notifyEdges, reaches, hs, hta, hf,
        Option.bind_some, true_and]
      by_cases hw : n.nodeType = .task ∨ n.nodeType = .handler
      · simp only [view, hw, if_true, true_and]
        cases b.graph.getNode edge.target with
        | none => simp
        | some handler =>
          by_cases hhand : handler.nodeType = .handler
          · simp [view, hhand]
          · by_cases ht : handler.nodeType = .task
            · simp [view, ht]
            · by_cases hR : handler.nodeType = .role <;>
                simp [view, hhand, ht, hR]
      · by_cases hR : n.nodeType = .role <;> simp [view, hw, hR]
  · intro e _ o
    rw [Function.comp_apply, count_notifyEdges, if_neg fun all => o all.2.1.symm]

theorem wiring_wireNotifyListen (b : GraphBuilder) :
    wiring (wireNotifyListen b).graph = (profile b).wired ++
      b.graph.nodes.entries.flatMap fun e => notifyEdges b.graph e.1 e.2 := by
  have hw : ∀ edges : List Edge, (∀ edge ∈ edges, isWiring edge.edgeType ∧ edge.position = 0) →
      ∀ c : GraphBuilder, wiring
        (edges.foldl (fun c edge => c.addEdge edge.source edge.target edge.edgeType) c).graph =
          wiring c.graph ++ edges := by
    intro edges
    induction edges with
    | nil => simp
    | cons edge rest ih =>
      intro all c
      rw [forall_mem_cons] at all
      rw [foldl_cons, ih all.2]
      obtain ⟨src, t₁, et, pos⟩ := edge
      obtain ⟨hW, hf⟩ := all.1
      cases hf
      simp [wiring, GraphBuilder.addEdge, hW]
  refine hw _ (fun edge mem => ?_) b
  obtain ⟨e, _, hg⟩ := mem_flatMap.mp mem
  unfold notifyEdges at hg
  split at hg
  · obtain ⟨t, _, hl⟩ := mem_flatMap.mp hg
    rcases mem_append.mp hl with hn | heard
    · obtain ⟨t₁, _, rfl⟩ := mem_map.mp hn
      exact ⟨rfl, rfl⟩
    · obtain ⟨t₁, _, rfl⟩ := mem_map.mp heard
      exact ⟨rfl, rfl⟩
  · cases hg

theorem eq_of_sum_eq {α : Type} {a b : α → Nat} {xs : List α}
    (hb : ∀ item ∈ xs, a item ≤ b item) (hs : (xs.map a).sum = (xs.map b).sum) :
    ∀ item ∈ xs, a item = b item := by
  induction xs with
  | nil => simp
  | cons first rest ih =>
    rw [forall_mem_cons] at hb ⊢
    have ho : (rest.map a).sum ≤ (rest.map b).sum := sum_le_sum hb.2
    simp only [map_cons, sum_cons] at hs
    exact ⟨by omega, ih hb.2 (by omega)⟩

theorem imp_of_countP_eq {α : Type} {before after : α → Bool} {xs : List α}
    (hk : ∀ item ∈ xs, before item → after item)
    (hs : xs.countP before = xs.countP after) :
    ∀ item ∈ xs, after item → before item := by
  induction xs with
  | nil => simp
  | cons first rest ih =>
    rw [forall_mem_cons] at hk ⊢
    have ho := countP_mono_left hk.2
    simp only [countP_cons] at hs
    cases old : before first with
    | true =>
      simp only [old, hk.1 old, if_true] at hs
      exact ⟨fun _ => rfl, ih hk.2 (by omega)⟩
    | false =>
      cases new : after first with
      | true =>
        simp only [old, new, if_true, Bool.false_eq_true, if_false] at hs
        omega
      | false =>
        simp only [old, new, Bool.false_eq_true, if_false] at hs
        exact ⟨fun ht => ht, ih hk.2 (by omega)⟩

section Renaming

variable {f g : String → String}

/-- How a text is spelled after the renaming. -/
def respell (f g : String → String) : EdgeType → String → String
  | .notify => f
  | _ => g

def IsNotifier (node : ContentNode) : Prop := node.nodeType = .task ∨ node.nodeType = .handler

/-- Notified texts that were a handler's name or topic are so in the other graph. -/
structure StringsKept (graph graph' : ContentGraph) : Prop where
  name : ∀ source target node handler node' handler',
    graph.getNode source = some node → graph.getNode target = some handler →
    graph'.getNode source = some node' → graph'.getNode target = some handler' →
    IsNotifier node → handler.nodeType = .handler → ∀ index : Nat,
    node.notify[index]? = some handler.name → node'.notify[index]? = some handler'.name
  topic : ∀ source target node handler node' handler',
    graph.getNode source = some node → graph.getNode target = some handler →
    graph'.getNode source = some node' → graph'.getNode target = some handler' →
    IsNotifier node → handler.nodeType = .handler → ∀ index place : Nat, ∀ text,
    node.notify[index]? = some text → handler.listen[place]? = some text →
    ∃ text', node'.notify[index]? = some text' ∧ handler'.listen[place]? = some text'

/-- A notified text is a handler's name or topic exactly if it is so in the new spelling. -/
def NamesKept (f g : String → String) (graph : ContentGraph) : Prop :=
  ∀ source target node handler, graph.getNode source = some node →
    graph.getNode target = some handler → IsNotifier node → handler.nodeType = .handler →
    ∀ text ∈ node.notify,
      (handler.name ≠ "" → (text = handler.name ↔ g text = f handler.name)) ∧
      ∀ topic ∈ handler.listen, text = topic ↔ g text = g topic

/-- The same in terms of the profile. -/
def Spelled (f g : String → String) (whole : Profile) (related : Prop → Prop → Prop) : Prop :=
  ∀ source target nodeType name notify listen handlerName handlerNotify handlerListen,
    whole.views source = some (.task nodeType name notify listen) →
    whole.views target = some (.task .handler handlerName handlerNotify handlerListen) →
    ∀ text ∈ notify, ∀ edgeType, ∀ other ∈ wiredTexts edgeType handlerName handlerListen,
      related (text = other) (g text = respell f g edgeType other)

variable (empty : ∀ text, f text = "" ↔ text = "")

include empty

theorem wiredTexts_rename (kind : EdgeType) (name : String) (listen : List String) :
    wiredTexts kind (f name) (listen.map g) =
      (wiredTexts kind name listen).map (respell f g kind) := by
  cases kind with
  | notify =>
    by_cases hu : name = ""
    · subst hu
      simp [wiredTexts, (empty "").mpr rfl]
    · have hn : f name ≠ "" := fun none => hu ((empty name).mp none)
      simp [wiredTexts, hu, hn, respell]
  | _ => rfl

variable {notify listen : List String} {ty : NodeType} {name : String}

theorem reaches_rename {whole : Profile} (kind : EdgeType) {src tgt : String}
    (hS : whole.views src = some (.task ty name notify listen))
    {handlerName : String} {handlerNotify handlerListen : List String}
    (hT : whole.views tgt = some (.task .handler handlerName handlerNotify handlerListen)) :
    reaches (whole.rename f g) kind src tgt =
      (notify.map fun t => (wiredTexts kind handlerName handlerListen).countP
        fun o => respell f g kind o = g t).sum := by
  simp only [reaches, rename, hS, hT, Option.map_some, View.rename,
    wiredTexts_rename empty, map_map, Function.comp_def]
  congr 1
  refine map_congr_left fun t _ => ?_
  rw [List.count, countP_map]
  congr 1

theorem reaches_eq_of_spelled {whole : Profile} (hsp : Spelled f g whole Iff) (kind : EdgeType)
    (src tgt : String) : reaches (whole.rename f g) kind src tgt = reaches whole kind src tgt := by
  cases hS : whole.views src with
  | none => simp [reaches, rename, hS]
  | some first =>
    cases first with
    | role name fqcn => simp [reaches, rename, hS, View.rename]
    | task ty name notify listen =>
      cases hT : whole.views tgt with
      | none => simp [reaches, rename, hS, hT]
      | some second =>
        cases second with
        | role name fqcn => simp [reaches, rename, hS, hT, View.rename]
        | task handlerType handlerName handlerNotify handlerListen =>
          by_cases hhand : handlerType = .handler
          · subst hhand
            rw [reaches_rename empty kind hS hT]
            simp only [reaches, hS, hT]
            congr 1
            refine map_congr_left fun t mem => ?_
            rw [List.count]
            refine countP_congr fun o hl => ?_
            have hs := hsp src tgt _ _ _ _ _ _ _ hS hT t mem kind o hl
            simp only [decide_eq_true_eq, beq_iff_eq]
            rw [eq_comm, ← hs, eq_comm]
          · cases handlerType <;>
              first
              | exact absurd rfl hhand
              | simp [reaches, rename, hS, hT, View.rename]

theorem spelled_of_reaches_eq {whole : Profile}
    (hk : Spelled f g whole fun old ha => old → ha)
    (same : ∀ kind src tgt, reaches (whole.rename f g) kind src tgt = reaches whole kind src tgt) :
    Spelled f g whole Iff := by
  intro src tgt ty name notify listen handlerName handlerNotify handlerListen hS
    ht t mem kind o hl
  refine ⟨hk src tgt _ _ _ _ _ _ _ hS ht t mem kind o hl, ?_⟩
  intro ha
  have sums := same kind src tgt
  rw [reaches_rename empty kind hS ht] at sums
  simp only [reaches, hS, ht, List.count] at sums
  have he : ∀ t ∈ notify, ∀ o ∈ wiredTexts kind handlerName handlerListen,
      (o == t) → decide (respell f g kind o = g t) := by
    intro t mem o hl heq
    have hs := hk src tgt _ _ _ _ _ _ _ hS ht t mem kind o hl (eq_of_beq heq).symm
    exact decide_eq_true hs.symm
  have hc := eq_of_sum_eq (fun t mem => countP_mono_left (he t mem)) sums.symm t mem
  have old := imp_of_countP_eq (he t mem) hc o hl (decide_eq_true ha.symm)
  exact (eq_of_beq old).symm

omit empty in
theorem view_eq_task {n : ContentNode} : view n = some (.task ty name notify listen) ↔
      IsNotifier n ∧ n.nodeType = ty ∧ n.name = name ∧ n.notify = notify ∧
        n.listen = listen := by
  unfold view
  by_cases hw : n.nodeType = .task ∨ n.nodeType = .handler
  · simp [hw, IsNotifier]
  · simp only [hw, if_false, IsNotifier, false_and, iff_false]
    split <;> simp

variable {id : String}

omit empty in
theorem views_task {b : GraphBuilder} {n : ContentNode}
    (hf : b.graph.getNode id = some n) (hn : IsNotifier n) :
    (profile b).views id = some (.task n.nodeType n.name n.notify n.listen) := by
  simp only [profile, hf, Option.bind_some]
  exact view_eq_task.mpr ⟨hn, rfl, rfl, rfl, rfl⟩

omit empty in
theorem node_of_views {b : GraphBuilder}
    (hs : (profile b).views id = some (.task ty name notify listen)) :
    ∃ n, b.graph.getNode id = some n ∧ IsNotifier n ∧ n.nodeType = ty ∧
      n.name = name ∧ n.notify = notify ∧ n.listen = listen := by
  obtain ⟨n, hf, hl⟩ := Option.bind_eq_some_iff.mp hs
  exact ⟨n, hf, view_eq_task.mp hl⟩

omit empty in
theorem namesKept_iff (b : GraphBuilder) : NamesKept f g b.graph ↔ Spelled f g (profile b) Iff := by
  constructor
  · intro hk src tgt ty name notify listen handlerName handlerNotify handlerListen
      hS hT t mem kind other hl
    obtain ⟨n, hf, hn, rfl, rfl, rfl, rfl⟩ := node_of_views hS
    obtain ⟨handler, hh, _, hhand, rfl, rfl, rfl⟩ := node_of_views hT
    obtain ⟨hbn, ht⟩ :=
      hk src tgt n handler hf hh hn hhand t mem
    cases kind with
    | notify =>
      simp only [wiredTexts] at hl
      split at hl
      · cases hl
      next hna =>
        rw [mem_singleton.mp hl]
        exact hbn hna
    | listen => exact ht other hl
    | _ => cases hl
  · intro hs src tgt n handler hf hh hn hhand t mem
    have hS := views_task hf hn
    have hT := views_task hh (.inr hhand)
    rw [hhand] at hT
    have all := hs src tgt _ _ _ _ _ _ _ hS hT t mem
    refine ⟨fun hna => ?_, fun topic hl => all .listen topic hl⟩
    exact all .notify handler.name (by simp [wiredTexts, hna])

section Kept

variable {b b' : GraphBuilder} (alike : Alike f g b b')

include alike

omit empty in
theorem Alike.node {n node' : ContentNode} (hf : b.graph.getNode id = some n)
    (hno : IsNotifier n) (hf' : b'.graph.getNode id = some node') :
    node'.name = f n.name ∧ node'.notify = n.notify.map g ∧ node'.listen = n.listen.map g := by
  have hs : (profile b').views id = some (.task n.nodeType (f n.name)
      (n.notify.map g) (n.listen.map g)) := by
    rw [alike]
    simp only [rename, views_task hf hno, Option.map_some, View.rename]
  obtain ⟨same, hS, _, _, name, hn, listen⟩ := node_of_views hs
  cases Option.some.inj (hS.symm.trans hf')
  exact ⟨name, hn, listen⟩

omit empty in
theorem Alike.exists_node {n : ContentNode}
    (hf : b.graph.getNode id = some n) (hn : IsNotifier n) :
    ∃ node', b'.graph.getNode id = some node' := by
  have hs : (profile b').views id = some (.task n.nodeType (f n.name)
      (n.notify.map g) (n.listen.map g)) := by
    rw [alike]
    simp only [rename, views_task hf hn, Option.map_some, View.rename]
  obtain ⟨node', hf', _⟩ := node_of_views hs
  exact ⟨node', hf'⟩

theorem stringsKept_iff (ht : g "" = "") :
    StringsKept b.graph b'.graph ↔ Spelled f g (profile b) fun old after => old → after := by
  constructor
  · intro hk src tgt ty name notify listen handlerName handlerNotify handlerListen
      hs hT text mem kind other hl he
    subst he
    obtain ⟨n, hf, hn, rfl, rfl, rfl, rfl⟩ := node_of_views hs
    obtain ⟨handler, hh, hN, hhand, rfl, rfl, rfl⟩ := node_of_views hT
    obtain ⟨node', hf'⟩ := alike.exists_node hf hn
    obtain ⟨handler', hh'⟩ := alike.exists_node hh hN
    obtain ⟨_, hno, _⟩ := alike.node hf hn hf'
    obtain ⟨hna, _, heard⟩ := alike.node hh hN hh'
    obtain ⟨i, hlo⟩ := mem_iff_getElem?.mp mem
    cases kind with
    | notify =>
      simp only [wiredTexts] at hl
      split at hl
      · cases hl
      · have hNa := mem_singleton.mp hl
        have after := hk.name src tgt n handler node' handler' hf hh hf'
          hh' hn hhand i (by rw [hlo, hNa])
        rw [hno, hna, List.getElem?_map, hlo] at after
        rw [← hNa] at after
        exact Option.some.inj after
    | listen =>
      obtain ⟨place, hp⟩ := mem_iff_getElem?.mp hl
      obtain ⟨text', after, hhe'⟩ := hk.topic src tgt n handler node' handler' hf
        hh hf' hh' hn hhand i place text hlo hp
      exact rfl
    | _ => cases hl
  · intro hsp
    refine ⟨?_, ?_⟩
    · intro src tgt n handler node' handler' hf hh hf' hh'
        hn hhand i hlo
      obtain ⟨_, hno, _⟩ := alike.node hf hn hf'
      obtain ⟨hna, _, _⟩ := alike.node hh (.inr hhand) hh'
      rw [hno, hna, List.getElem?_map, hlo, Option.map_some]
      by_cases hu : handler.name = ""
      · rw [hu, ht, (empty "").mpr rfl]
      · have hT := views_task hh (.inr hhand)
        rw [hhand] at hT
        exact congrArg some (hsp src tgt _ _ _ _ _ _ _ (views_task hf hn) hT
          handler.name (mem_of_getElem? hlo) .notify handler.name
          (by simp [wiredTexts, hu]) rfl)
    · intro src tgt n handler node' handler' hf hh hf' hh'
        hn hhand i place text hlo hp
      obtain ⟨_, hno, _⟩ := alike.node hf hn hf'
      obtain ⟨_, _, heard⟩ := alike.node hh (.inr hhand) hh'
      refine ⟨g text, ?_, ?_⟩
      · rw [hno, List.getElem?_map, hlo, Option.map_some]
      · rw [heard, List.getElem?_map, hp, Option.map_some]

omit empty alike in
theorem nodes_wireNotifyListen (b : GraphBuilder) (id : String) :
    (wireNotifyListen b).graph.getNode id = b.graph.getNode id := by
  refine foldl_invariant (I := fun c : GraphBuilder => c.graph.getNode id = b.graph.getNode id)
    (fun c e _ hs => ?_) b rfl
  exact hs

omit empty in
theorem wiring_perm_iff :
    (wiring (wireNotifyListen b').graph).Perm (wiring (wireNotifyListen b).graph) ↔
      ∀ edgeType source target, reaches (profile b') edgeType source target =
        reaches (profile b) edgeType source target := by
  have hw : (profile b').wired = (profile b).wired := by
    rw [alike]
    rfl
  rw [wiring_wireNotifyListen, wiring_wireNotifyListen, hw, perm_append_left_iff,
    perm_iff_count]
  simp only [count_wiring]
  constructor
  · intro hc edgeType source target
    simpa using hc { source, target, edgeType }
  · intro hs edge
    rw [hs]

/-- The wiring of alike builders is kept, with the matches behind it, exactly if the new
spelling matches where the old one does. -/
theorem Alike.wiring_kept_iff (het : g "" = "") :
    StringsKept (wireNotifyListen b).graph (wireNotifyListen b').graph ∧
        (wiring (wireNotifyListen b').graph).Perm (wiring (wireNotifyListen b).graph) ↔
      NamesKept f g (wireNotifyListen b).graph := by
  have hs : StringsKept (wireNotifyListen b).graph (wireNotifyListen b').graph ↔
      StringsKept b.graph b'.graph := by
    constructor
    · rintro ⟨hn, ht⟩
      simp only [nodes_wireNotifyListen] at hn ht
      exact ⟨hn, ht⟩
    · rintro ⟨hn, ht⟩
      refine ⟨?_, ?_⟩ <;> simp only [nodes_wireNotifyListen]
      · exact hn
      · exact ht
  have hna : NamesKept f g (wireNotifyListen b).graph ↔ NamesKept f g b.graph := by
    simp only [NamesKept, nodes_wireNotifyListen]
  rw [hs, hna, namesKept_iff, stringsKept_iff empty alike het,
    wiring_perm_iff alike, alike]
  constructor
  · rintro ⟨hk, same⟩
    exact spelled_of_reaches_eq empty hk same
  · intro hsp
    refine ⟨fun src tgt _ _ _ _ _ _ _ hso hta t mem kind o hl =>
      (hsp src tgt _ _ _ _ _ _ _ hso hta t mem kind o hl).mp,
      reaches_eq_of_spelled empty hsp⟩

end Kept

end Renaming

end Apme.Builder
