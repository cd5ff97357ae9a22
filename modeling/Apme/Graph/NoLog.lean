import Apme.Graph.Queries
import Apme.Graph.Rescan
import Apme.Lib.MemoSearch
import Mathlib.Data.List.Chain

/-!
# Inherited `no_log`

`no_log_true_in_scope` asks the positional parents of a node in a scope, any or
all of them, with a cache and a set of the nodes in progress.  The explicit
settings are looked up by the node's id.
-/

set_option autoImplicit false

namespace Apme.Graph

open Apme.Lib List

section Model

variable (g : ContentGraph) (noLog : String → Option Bool) (nodeId : String)

/-- The explicit setting; a node that does not exist counts as unprotected. -/
def noLogAt : Option Bool := if g.present nodeId then noLog nodeId else some false

def sortedScopedParents (scope : List String) (nodeId : String) : List String :=
  (sortIds (g.positionalParents nodeId)).filter (· ∈ scope)

def noLogPlayScopedPaths (scope : List String) (requireAll : Bool) : Option Bool :=
  let parents := sortedScopedParents g scope
  if parents nodeId = [] then some false
  else
    (quantify requireAll (evaluate parents (noLogAt g noLog) requireAll (g.edges.length + 1) [])
      (parents nodeId) Dict.empty).map Prod.fst

def noLogTrueInScope (playContextId : Option String)
    (playScope : Option (List String)) (requireAllPaths : Bool) : Option Bool :=
  if g.present nodeId then
    match noLog nodeId with
    | some explicit => some explicit
    | none =>
      let scope :=
        match playContextId with
        | some playId => playScope.getD (g.playScopedNodeIds playId)
        | none => g.positionalAncestorIds nodeId
      noLogPlayScopedPaths g noLog nodeId scope requireAllPaths
  else some false

end Model

section Climbs

variable {α : Type} (parents : α → List α) (verdict : α → Option Bool)

/-- A walk upwards from `start` to `last`, without a verdict on the way. -/
structure Climb (start : α) (before : List α) (last : α) : Prop where
  starts : (before ++ [last]).head? = some start
  climbs : (before ++ [last]).IsChain fun child parent => parent ∈ parents child
  silent : ∀ item ∈ before, verdict item = none

/-- Such a walk to an item with `Goal` that does not meet `away`. -/
inductive Finds (Goal : α → Prop) (away : List α) : α → Prop
  | here {item : α} (off : item ∉ away) (goal : Goal item) : Finds Goal away item
  | up {item parent : α} (off : item ∉ away) (silent : verdict item = none)
      (member : parent ∈ parents item) (above : Finds Goal away parent) : Finds Goal away item

variable {parents verdict} {Goal : α → Prop}

theorem finds_iff (start : α) : Finds parents verdict Goal [] start ↔
    ∃ old last, Climb parents verdict start old last ∧ Goal last := by
  constructor
  · intro hf
    induction hf with
    | @here i off hg => exact ⟨[], i, ⟨rfl, by simp, by simp⟩, hg⟩
    | @up i parent off hs mem ha ih =>
      obtain ⟨old, last, hc, hg⟩ := ih
      refine ⟨i :: old, last, ⟨rfl, ?_, forall_mem_cons.mpr ⟨hs, hc.silent⟩⟩, hg⟩
      rw [cons_append, isChain_cons, hc.starts]
      exact ⟨by simpa using mem, hc.climbs⟩
  · rintro ⟨old, last, hc, hg⟩
    induction old generalizing start with
    | nil =>
      obtain rfl : last = start := by simpa using hc.starts
      exact .here (by simp) hg
    | cons i rest ih =>
      obtain rfl : i = start := by simpa using hc.starts
      obtain ⟨hs, ho⟩ := forall_mem_cons.mp hc.silent
      have hcl := hc.climbs
      rw [cons_append, isChain_cons] at hcl
      obtain ⟨parent, hh⟩ : ∃ parent, (rest ++ [last]).head? = some parent := by
        cases rest <;> simp
      exact .up (by simp) hs (hcl.1 parent hh) (ih parent ⟨hh, hcl.2, ho⟩)

theorem Climb.nodup {start last : α} {old : List α} (ha : ∀ x, ¬ Leads parents x x)
    (hc : Climb parents verdict start old last) : (old ++ [last]).Nodup := by
  have hl := hc.climbs.imp fun child par mem => Relation.TransGen.single mem
  refine (isChain_iff_pairwise.mp hl).imp fun {child par} hab hs => ?_
  exact ha child (hs ▸ hab)

theorem Finds.away {item : α} {away more : List α} (hfi : Finds parents verdict Goal away item)
    (hf : more ⊆ away) : Finds parents verdict Goal more item := by
  induction hfi with
  | here off hg => exact .here (fun hi => off (hf hi)) hg
  | up off hs mem ha ih => exact .up (fun hi => off (hf hi)) hs mem ih

/-- A walk can be cut at its last visit of an item. -/
theorem Finds.cut {item o : α} {away : List α} (hsi : verdict item = none)
    (hg : ¬ Goal item) (hf : Finds parents verdict Goal away o) :
    Finds parents verdict Goal (item :: away) o ∨
      ∃ parent ∈ parents item, Finds parents verdict Goal (item :: away) parent := by
  induction hf with
  | @here o off goal =>
    have hd : o ≠ item := by
      rintro rfl
      exact hg goal
    exact .inl (.here (by simp [hd, off]) goal)
  | @up o parent off hs' mem ha ih =>
    obtain left | right := ih
    · by_cases hs : o = item
      · exact .inr ⟨parent, hs ▸ mem, left⟩
      · exact .inl (.up (by simp [hs, off]) hs' mem left)
    · exact .inr right

theorem reads_any : Reads parents verdict false
    (fun p x => ¬ Finds parents verdict (verdict · = some true) p x)
    (Finds parents verdict (verdict · = some true) []) where
  kept p x own := by
    intro finds
    cases finds with
    | here off hg => simp [own] at hg
    | up off hs hm above => simp [own] at hs
  found x own := .here (by simp) own
  stopped p x hr stop := by
    intro finds
    cases finds with
    | here off hg => exact stop.elim off fun he => by simp [he.1] at hg
    | up off hs hm above => exact stop.elim off fun he => by simp [he.2] at hm
  spreads x hs par hm above := .up (by simp) hs hm above
  closes p x hs hf each := by
    have hb : ∀ other, Finds parents verdict (verdict · = some true) p other →
        Finds parents verdict (verdict · = some true) (x :: p) other := fun other finds =>
      (finds.cut hs (by simp [hs])).resolve_right fun ⟨par, hm, above⟩ =>
        each par hm above
    refine ⟨fun finds => ?_, fun other none finds => none (hb other finds)⟩
    cases hb x finds with
    | here off hg => simp at off
    | up off hs hm above => simp at off
  weakens p x other none finds := none (finds.away (subset_cons_self x p))

/-- An unprotected end of a walk. -/
def Unprotected (parents : α → List α) (verdict : α → Option Bool) (item : α) : Prop :=
  verdict item = some false ∨ verdict item = none ∧ parents item = []

theorem not_finds_of_kept {item : α} (hs : verdict item = none) (hfill : parents item ≠ [])
    (he : ∀ par ∈ parents item, ¬ Finds parents verdict (Unprotected parents verdict) [] par) :
    ¬ Finds parents verdict (Unprotected parents verdict) [] item := by
  intro hf
  cases hf with
  | here off hg => simp [Unprotected, hs, hfill] at hg
  | up off hs mem ha => exact he _ mem ha

theorem reads_all (Found : α → Prop) (found : ∀ x, Unprotected parents verdict x → Found x)
    (cyclic : ∀ x, Leads parents x x → Found x)
    (spreads : ∀ x, verdict x = none → ∀ par ∈ parents x, Found par → Found x) :
    Reads parents verdict true
      (fun _ x => ¬ Finds parents verdict (Unprotected parents verdict) [] x) Found where
  kept path x own := by
    intro finds
    cases finds with
    | here off goal => simp [Unprotected, own] at goal
    | up off silent mem above => simp [own] at silent
  found x own := found x (.inl own)
  stopped path x rising stop := stop.elim (fun inPath => cyclic x (rising x inPath))
    fun empty => found x (.inr empty)
  spreads := spreads
  closes path x silent filled each := ⟨not_finds_of_kept silent filled each, fun _ none => none⟩
  weakens _ _ _ none := none

end Climbs

section Results

variable (g : ContentGraph) (noLog : String → Option Bool) (scope : List String)

/-- A walk upwards in the scope, through nodes without a setting of their own. -/
abbrev Ascends : String → List String → String → Prop :=
  Climb (sortedScopedParents g scope) (noLogAt g noLog)

/-- The node has a false setting, or a walk ends at it without one. -/
abbrev Exposed : String → Prop := Unprotected (sortedScopedParents g scope) (noLogAt g noLog)

theorem noLogPlayScopedPaths_meant {all : Bool} {Kept : List String → String → Prop}
    {Found : String → Prop}
    (hr : Reads (sortedScopedParents g scope) (noLogAt g noLog) all Kept Found) {id : String}
    (hfill : sortedScopedParents g scope id ≠ []) :
    ∃ answer, noLogPlayScopedPaths g noLog id scope all = some answer ∧
      (answer = all → ∀ par ∈ sortedScopedParents g scope id, Kept [] par) ∧
      (answer ≠ all → ∃ par ∈ sortedScopedParents g scope id, Found par) := by
  have hw : ∀ x, sortedScopedParents g scope x ⊆ g.edges.map Edge.source :=
    fun x par mem => positionalParents_subset g x ((mem_insertionSort _).mp (mem_of_mem_filter mem))
  obtain ⟨done, run, hk, hf⟩ := quantify_meant Found (sortedScopedParents g scope id)
    (fun par mem => evaluate_meant hr hw (g.edges.length + 1) [] par (by simp)
      (hw id mem) (by simp)) Dict.empty (by simp [Cached, Dict.get?_empty])
  exact ⟨done.1, by simp [noLogPlayScopedPaths, hfill, run], fun hs => (hk hs).1, hf⟩

/-- With any path the answer is whether a walk meets a true setting before a
false one.  With all paths it is true only if no walk ends or meets a false
setting before a true one, and in an acyclic scope exactly then. -/
theorem noLog_by_paths (nodeId : String) (present : g.present nodeId)
    (unset : noLog nodeId = none) (playId : String) :
    ∃ any all, noLogTrueInScope g noLog nodeId (some playId) (some scope) false = some any ∧
      noLogTrueInScope g noLog nodeId (some playId) (some scope) true = some all ∧
      (any ↔ ∃ before last, Ascends g noLog scope nodeId before last ∧
        noLogAt g noLog last = some true) ∧
      (all → ¬ ∃ before last, Ascends g noLog scope nodeId before last ∧
        Exposed g noLog scope last) ∧
      ((∀ item, ¬ Leads (sortedScopedParents g scope) item item) →
        (all ↔ ¬ ∃ before last, Ascends g noLog scope nodeId before last ∧
          Exposed g noLog scope last ∧ (before ++ [last]).Nodup)) := by
  have silent : noLogAt g noLog nodeId = none := by simp [noLogAt, present, unset]
  have asks : ∀ all, noLogTrueInScope g noLog nodeId (some playId) (some scope) all =
      noLogPlayScopedPaths g noLog nodeId scope all := by simp [noLogTrueInScope, present, unset]
  rw [asks, asks, ← finds_iff, ← finds_iff]
  by_cases filled : sortedScopedParents g scope nodeId = []
  · have alone : ∀ all, noLogPlayScopedPaths g noLog nodeId scope all = some false := by
      simp [noLogPlayScopedPaths, filled]
    refine ⟨false, false, alone _, alone _, ⟨by simp, fun finds => ?_⟩, by simp, fun _ =>
      ⟨by simp, fun none => absurd ⟨[], nodeId, ⟨rfl, by simp, by simp⟩, ?_, by simp⟩ none⟩⟩
    · cases finds with
      | here off goal => simp [silent] at goal
      | up off silent member above => simp [filled] at member
    · exact .inr ⟨silent, filled⟩
  · obtain ⟨any, runAny, keptAny, foundAny⟩ :=
      noLogPlayScopedPaths_meant g noLog scope reads_any filled
    obtain ⟨all, runAll, keptAll, -⟩ := noLogPlayScopedPaths_meant g noLog scope
      (reads_all (fun _ => True) (by simp) (by simp) (by simp)) filled
    have sound := fun isTrue => not_finds_of_kept silent filled (keptAll isTrue)
    refine ⟨any, all, runAny, runAll, ⟨fun isTrue => ?_, fun finds => ?_⟩, sound, fun acyclic => ?_⟩
    · obtain ⟨parent, member, finds⟩ := foundAny (by simp [isTrue])
      exact .up (by simp) silent member finds
    · by_contra isFalse
      cases finds with
      | here off goal => simp [silent] at goal
      | up off silent member above => exact keptAny (by simpa using isFalse) _ member above
    · obtain ⟨again, runAgain, -, foundAgain⟩ := noLogPlayScopedPaths_meant g noLog scope
        (reads_all (Finds _ _ (Exposed g noLog scope) []) (fun item goal => .here (by simp) goal)
          (fun item cycle => absurd cycle (acyclic item))
          (fun item silent parent member above => .up (by simp) silent member above)) filled
      obtain rfl := Option.some.inj (runAll.symm.trans runAgain)
      constructor
      · rintro isTrue ⟨before, last, climb, goal, -⟩
        exact sound isTrue ((finds_iff _).mpr ⟨before, last, climb, goal⟩)
      · intro none
        by_contra isFalse
        obtain ⟨parent, member, finds⟩ := foundAgain isFalse
        obtain ⟨before, last, climb, goal⟩ := (finds_iff nodeId).mp (.up (by simp) silent member finds)
        exact none ⟨before, last, climb, goal, climb.nodup acyclic⟩

/-- A task file that a role with the setting and one without it include. -/
def sharedFile : ContentGraph :=
  { nodes := Dict.ofList
      [("quiet", { nodeType := .role }), ("loud", { nodeType := .role }),
        ("file", { nodeType := .taskfile }), ("task", { nodeType := .task })]
    edges := [⟨"quiet", "file", .contains, 0⟩, ⟨"loud", "file", .contains, 0⟩,
      ⟨"file", "task", .contains, 0⟩] }

def quietSetting (nodeId : String) : Option Bool := if nodeId = "quiet" then some true else none

def sharedScope : List String := ["quiet", "loud", "file"]

/-- One path up from the task is protected, the other is not. -/
theorem sharedFile_decided :
    noLogTrueInScope sharedFile quietSetting "task" (some "play") (some sharedScope) false =
        some true ∧
      noLogTrueInScope sharedFile quietSetting "task" (some "play") (some sharedScope) true =
        some false ∧
      (∃ before last, Ascends sharedFile quietSetting sharedScope "task" before last ∧
        noLogAt sharedFile quietSetting last = some true) ∧
      ∃ before last, Ascends sharedFile quietSetting sharedScope "task" before last ∧
        Exposed sharedFile quietSetting sharedScope last ∧ (before ++ [last]).Nodup := by
  obtain ⟨any, all, runAny, runAll, isAny, -, isAll⟩ :=
    noLog_by_paths sharedFile quietSetting sharedScope "task" (by decide) (by decide) "play"
  have someQuiet : noLogTrueInScope sharedFile quietSetting "task" (some "play")
      (some sharedScope) false = some true := by decide
  have notAll : noLogTrueInScope sharedFile quietSetting "task" (some "play")
      (some sharedScope) true = some false := by decide
  cases Option.some.inj (runAny.symm.trans someQuiet)
  cases Option.some.inj (runAll.symm.trans notAll)
  have ranked : ∀ edge ∈ sharedFile.edges,
      ["task", "file"].idxOf edge.target < ["task", "file"].idxOf edge.source := by
    decide
  have acyclic : ∀ item, ¬ Leads (sortedScopedParents sharedFile sharedScope) item item := by
    refine not_leads_of_rank (["task", "file"].idxOf ·) ?_
    intro item parent isParent
    have listed := (mem_insertionSort _).mp (mem_of_mem_filter isParent)
    obtain ⟨edge, isEdge, rfl⟩ := mem_map.mp listed
    obtain ⟨inGraph, leads⟩ := mem_filter.mp isEdge
    rw [← of_decide_eq_true (Bool.and_eq_true_iff.mp leads).1]
    exact ranked edge inGraph
  refine ⟨someQuiet, notAll, isAny.mp rfl, ?_⟩
  by_contra none
  exact absurd ((isAll acyclic).mpr none) (by decide)

end Results

end Apme.Graph
