import Apme.Galaxy.Naming
import Apme.Lib.Coinduction
import Apme.Lib.Dict

/-!
# Whether the cache holds a collection with all it requires

`_cache_satisfies_spec` looks for a wheel of a matching version whose collection
requirements are satisfied in turn.  A spec that is being checked already counts
as satisfied, and the answers of completed top-level checks are kept for the
phase.
-/

set_option autoImplicit false

namespace Apme.Galaxy.Closure

open Apme.Lib List

/-- A `Requires-Dist` entry: one that cannot be parsed or named as a collection,
one for another package, or one for a collection. -/
inductive Requirement where
  | invalid
  | foreign
  | collection (spec : Text)

/-- A wheel file; its requirements are missing if it or its metadata cannot be
read. -/
structure CachedWheel where
  filename : Text
  requirements : Option (List Requirement)

/-- The wheels on disk and those handed off in memory, with the matching of
versions: none for a constraint that is not valid, and false of a file name that
is not a wheel's. -/
structure Cache where
  disk : List CachedWheel
  handoffs : List CachedWheel
  specifier : Text → Option (Text → Bool)
  newer : CachedWheel → CachedWheel → Bool

/-- Namespace, name and requested version of a spec. -/
def specParts (spec : Text) : Option (Text × Text × Text) :=
  match Text.splitOnce '.' (spec.takeWhile (· ≠ ':')) with
  | none => none
  | some (ns, name) =>
    if ns = [] ∨ name = [] then none else some (ns, name, (spec.dropWhile (· ≠ ':')).drop 1)

variable (cache : Cache)

/-- A wheel in memory stands for the file of the same name. -/
def Cache.wheels : List CachedWheel :=
  cache.handoffs ++
    cache.disk.filter fun wheel => wheel.filename ∉ cache.handoffs.map CachedWheel.filename

/-- The glob of the directory is a test of the first characters; names with a
star, a question mark or a bracket, which it reads as patterns, are left out. -/
def candidates (spec : Text) : List CachedWheel :=
  match specParts spec with
  | none => []
  | some (ns, name, requested) =>
    match cache.specifier requested with
    | none => []
    | some contains =>
      (cache.wheels.filter fun wheel =>
        (distName ns name ++ ['-']).isPrefixOf wheel.filename &&
          contains wheel.filename).mergeSort cache.newer

/-- `all` and `any` with a check that may not come to an end. -/
def allOf {α : Type} (check : α → Option Bool) : List α → Option Bool
  | [] => some true
  | item :: rest => (check item).bind fun holds => if holds then allOf check rest else some false

def anyOf {α : Type} (check : α → Option Bool) : List α → Option Bool
  | [] => some false
  | item :: rest => (check item).bind fun holds => if holds then some true else anyOf check rest

variable (check : Text → Option Bool)

def requirementSatisfied : Requirement → Option Bool
  | .invalid => some false
  | .foreign => some true
  | .collection spec => check spec

variable (wheel : CachedWheel)

def wheelSatisfied : Option Bool :=
  match wheel.requirements with
  | none => some false
  | some requirements => allOf (requirementSatisfied check) requirements

/-- One call, with the nesting depth that is left. -/
def satisfies (cache : Cache) (memo : Dict Text Bool) (depth : Nat) (visiting : List Text)
    (spec : Text) : Option Bool :=
  match memo.get? spec with
  | some known => some known
  | none =>
    if specParts spec = none then some false
    else if spec ∈ visiting then some true
    else
      match depth with
      | 0 => none
      | depth + 1 =>
        anyOf (wheelSatisfied (satisfies cache memo depth (spec :: visiting)))
          (candidates cache spec)

/-- A top-level check, which keeps its answer. -/
def cacheSatisfiesSpec (depth : Nat) (memo : Dict Text Bool) (spec : Text) :
    Option (Bool × Dict Text Bool) :=
  (satisfies cache memo depth [] spec).map fun answer => (answer, memo.insert spec answer)

/-- The checks of one phase. -/
def checkSpecs (cache : Cache) (depth : Nat) :
    Dict Text Bool → List Text → Option (List (Text × Bool))
  | _, [] => some []
  | memo, spec :: rest =>
    (cacheSatisfiesSpec cache depth memo spec).bind fun result =>
      (checkSpecs cache depth result.2 rest).map ((spec, result.1) :: ·)

/-- All collections that wheels of the cache require. -/
def Cache.required : List Text :=
  cache.wheels.flatMap fun wheel => (wheel.requirements.getD []).filterMap fun
    | .collection spec => some spec
    | _ => none

variable (held : Set Text)

def Requirement.Met : Requirement → Prop
  | .invalid => False
  | .foreign => True
  | .collection spec => spec ∈ held

def CachedWheel.Closed : Prop :=
  ∃ requirements, wheel.requirements = some requirements ∧
    ∀ requirement ∈ requirements, requirement.Met held

/-- A wheel of a matching version has all it requires among the held specs. -/
def Held (spec : Text) : Prop := ∃ wheel ∈ candidates cache spec, wheel.Closed held

theorem Held.mono ⦃held more : Set Text⦄ (sub : held ⊆ more) (spec : Text)
    (hh : Held cache held spec) : Held cache more spec := by
  obtain ⟨wheel, hc, r, hk, hcl⟩ := hh
  refine ⟨wheel, hc, r, hk, fun requirement mem => ?_⟩
  have met := hcl requirement mem
  cases requirement with
  | invalid => exact met
  | foreign => trivial
  | collection dep => exact sub met

section Search

/-- The check comes to an end with the right answer. -/
def Decides {α : Type} (check : α → Option Bool) (holds : α → Prop) (item : α) : Prop :=
  ∃ answer, check item = some answer ∧ (answer ↔ holds item)

variable {α : Type} {check : α → Option Bool} {holds : α → Prop}

section

variable (items : List α) (decides : ∀ item ∈ items, Decides check holds item)

include decides

theorem allOf_decides : Decides (allOf check) (fun items => ∀ x ∈ items, holds x) items := by
  induction items with
  | nil => exact ⟨true, rfl, by simp⟩
  | cons x rest ih =>
    obtain ⟨answer, hc, right⟩ := decides x mem_cons_self
    obtain ⟨others, run, all⟩ := ih fun o mem => decides o (mem_cons_of_mem x mem)
    refine ⟨answer && others, ?_, by simp [right, all]⟩
    cases answer <;> simp [allOf, hc, run]

theorem anyOf_decides : Decides (anyOf check) (fun items => ∃ x ∈ items, holds x) items := by
  induction items with
  | nil => exact ⟨false, rfl, by simp⟩
  | cons x rest ih =>
    obtain ⟨answer, hc, right⟩ := decides x mem_cons_self
    obtain ⟨others, run, any⟩ := ih fun o mem => decides o (mem_cons_of_mem x mem)
    refine ⟨answer || others, ?_, by simp [right, any]⟩
    cases answer <;> simp [anyOf, hc, run]

end

end Search

theorem wheelSatisfied_decides {check : Text → Option Bool} {held : Set Text}
    (hd : ∀ reqs, wheel.requirements = some reqs →
      ∀ spec, Requirement.collection spec ∈ reqs → Decides check (· ∈ held) spec) :
    Decides (wheelSatisfied check) (·.Closed held) wheel := by
  unfold Decides wheelSatisfied CachedWheel.Closed
  cases hk : wheel.requirements with
  | none => exact ⟨false, rfl, by simp [hk]⟩
  | some reqs =>
    have he : ∀ requirement ∈ reqs,
        Decides (requirementSatisfied check) (·.Met held) requirement := by
      intro requirement mem
      cases requirement with
      | invalid => exact ⟨false, rfl, by simp [Requirement.Met]⟩
      | foreign => exact ⟨true, rfl, by simp [Requirement.Met]⟩
      | collection spec => exact hd reqs hk spec mem
    obtain ⟨answer, run, right⟩ := allOf_decides reqs he
    exact ⟨answer, run, by simp [hk, right]⟩

theorem required_of_candidate {cache : Cache} {spec dep : Text} {wheel : CachedWheel}
    {reqs : List Requirement} (hc : wheel ∈ candidates cache spec)
    (hk : wheel.requirements = some reqs)
    (mem : Requirement.collection dep ∈ reqs) : dep ∈ cache.required := by
  have hca : wheel ∈ cache.wheels := by
    unfold candidates at hc
    split at hc
    · cases hc
    · split at hc
      · cases hc
      · exact mem_of_mem_filter (mem_mergeSort.mp hc)
  exact mem_flatMap.mpr ⟨wheel, hca, mem_filterMap.mpr ⟨_, by simpa [hk], rfl⟩⟩

section Check

variable (cache : Cache) (memo : Dict Text Bool) (visiting : List Text)

/-- The specs on a path were neither known nor malformed. -/
def OnPath : Prop := ∀ spec ∈ visiting, memo.get? spec = none ∧ specParts spec ≠ none

/-- What a call on a path answers. -/
def Found (spec : Text) : Prop :=
  Supported (override (Held cache) memo.get?) {path | path ∈ visiting} spec

/-- One call, given what the calls for the requirements answer. -/
theorem satisfies_step {depth : Nat} {visiting : List Text} {spec : Text}
    (p : OnPath memo visiting)
    (hd : memo.get? spec = none → specParts spec ≠ none → spec ∉ visiting →
      ∃ less, depth = less + 1 ∧ ∀ dep ∈ cache.required,
        Decides (satisfies cache memo less (spec :: visiting)) (Found cache memo (spec :: visiting))
          dep) :
    Decides (satisfies cache memo depth visiting) (Found cache memo visiting) spec := by
  have hu := supported_iff (override_mono (Held.mono cache) memo.get?) {p | p ∈ visiting} spec
  rw [← setOfPred_mem_cons] at hu
  unfold Decides satisfies
  cases hk : memo.get? spec with
  | some answer =>
    have ha : spec ∉ visiting := fun mem => by simp [(p spec mem).1] at hk
    rw [override_of_some hk] at hu
    exact ⟨answer, rfl, by rw [Found, hu]; simp [ha]⟩
  | none =>
    rw [override_of_none hk] at hu
    dsimp only
    split
    next hm =>
      have ha : spec ∉ visiting := fun mem => (p spec mem).2 hm
      refine ⟨false, rfl, ?_⟩
      rw [Found, hu]
      simp [ha, Held, candidates, hm]
    next hf =>
      split
      next mem => exact ⟨true, rfl, by rw [Found, hu]; simp [mem]⟩
      next ha =>
        obtain ⟨less, rfl, decides⟩ := hd hk hf ha
        obtain ⟨answer, run, right⟩ := anyOf_decides (candidates cache spec)
          fun wheel hc => wheelSatisfied_decides wheel fun
            reqs hr dep mem =>
              decides dep (required_of_candidate hc hr mem)
        refine ⟨answer, run, right.trans ?_⟩
        rw [Found, hu]
        exact (or_iff_right ha).symm

theorem satisfies_decides {depth : Nat} : ∀ (visiting : List Text), OnPath memo visiting →
    ((cache.required.filter (· ∉ visiting)).length ≤ depth) → ∀ dep ∈ cache.required,
    Decides (satisfies cache memo depth visiting) (Found cache memo visiting) dep := by
  induction depth with
  | zero =>
    intro visiting p hr dep hre
    refine satisfies_step cache memo p fun _ _ ha => ?_
    have here : dep ∈ cache.required.filter (· ∉ visiting) := by simp [hre, ha]
    have hr' := length_pos_of_mem here
    omega
  | succ depth ih =>
    intro visiting p hr dep hre
    refine satisfies_step cache memo p fun hu hfo ha => ⟨depth, rfl, ?_⟩
    refine ih (dep :: visiting) (forall_mem_cons.mpr ⟨⟨hu, hfo⟩, p⟩) ?_
    have hf : (cache.required.filter (· ∉ dep :: visiting)).length <
        (cache.required.filter (· ∉ visiting)).length := by
      have hs : cache.required.filter (· ∉ dep :: visiting) =
          (cache.required.filter (· ∉ visiting)).filter (· ≠ dep) := by
        simp [filter_filter]
      rw [hs]
      exact length_filter_lt_length_iff_exists.mpr ⟨dep, by simp [hre, ha], by simp⟩
    omega

/-- The answers that are kept are those of the greatest set. -/
def Right : Prop :=
  ∀ spec answer, memo.get? spec = some answer → (answer ↔ Supported (Held cache) ∅ spec)

theorem cacheSatisfiesSpec_right {depth : Nat} (he : cache.required.length < depth)
    (right : Right cache memo) (spec : Text) :
    ∃ answer, cacheSatisfiesSpec cache depth memo spec = some (answer, memo.insert spec answer) ∧
      (answer ↔ Supported (Held cache) ∅ spec) ∧ Right cache (memo.insert spec answer) := by
  obtain ⟨less, rfl⟩ : ∃ less, depth = less + 1 := ⟨depth - 1, by omega⟩
  obtain ⟨answer, run, hf⟩ := satisfies_step cache memo
    (forall_mem_nil _) fun hu hfo _ => ⟨less, rfl, by
      refine satisfies_decides cache memo [spec] (by simp [OnPath, hu, hfo]) ?_
      have hfe := length_filter_le (fun dep => decide (dep ∉ [spec])) cache.required
      omega⟩
  have ha : answer ↔ Supported (Held cache) ∅ spec := by
    rw [hf, Found]
    rw [show {path | path ∈ ([] : List Text)} = ∅ by simp]
    exact supported_override_iff (Held.mono cache) memo.get? right spec
  refine ⟨answer, by simp [cacheSatisfiesSpec, run], ha, ?_⟩
  intro o kept here
  rw [Dict.get?_insert] at here
  split at here
  next hs => cases here; exact hs ▸ ha
  next => exact right o kept here

end Check

theorem checkSpecs_right {depth : Nat} (he : cache.required.length < depth)
    (specs : List Text) : ∀ memo, Right cache memo →
    ∃ ans, checkSpecs cache depth memo specs = some ans ∧ ans.map Prod.fst = specs ∧
      ∀ e ∈ ans, (e.2 ↔ Supported (Held cache) ∅ e.1) := by
  induction specs with
  | nil => exact fun _ _ => ⟨[], rfl, rfl, by simp⟩
  | cons spec rest ih =>
    intro memo right
    obtain ⟨answer, run, hf, hr'⟩ := cacheSatisfiesSpec_right cache memo he right spec
    obtain ⟨ans, ho, hn, all⟩ := ih _ hr'
    exact ⟨(spec, answer) :: ans, by simp [checkSpecs, run, ho], by simp [hn],
      forall_mem_cons.mpr ⟨hf, all⟩⟩

/-- Every check of a phase answers whether its spec is in the greatest set of
specs that are each held with all they require in the set. -/
theorem checkSpecs_greatest (cache : Cache) (specs : List Text) (depth : Nat)
    (enough : cache.required.length < depth) :
    ∃ closure, IsGreatest {held : Set Text | ∀ spec ∈ held, Held cache held spec} closure ∧
      ∃ answers, checkSpecs cache depth Dict.empty specs = some answers ∧
        answers.map Prod.fst = specs ∧ ∀ entry ∈ answers, (entry.2 ↔ entry.1 ∈ closure) := by
  refine ⟨_, isGreatest_supported (Held.mono cache), ?_⟩
  exact checkSpecs_right cache enough specs Dict.empty fun spec answer known => by
    simp [Dict.get?_empty] at known

/-- Two collections that require each other. -/
def mutualCache : Cache where
  disk :=
    [⟨"ansible_collection_acme_tools-1.0-py3-none-any.whl".toList,
        some [.collection "acme.base".toList]⟩,
      ⟨"ansible_collection_acme_base-1.0-py3-none-any.whl".toList,
        some [.foreign, .collection "acme.tools".toList]⟩]
  handoffs := []
  specifier _ := some fun _ => true
  newer _ _ := true

theorem mutualCache_greatest :
    ∃ closure, IsGreatest {held : Set Text | ∀ spec ∈ held, Held mutualCache held spec} closure ∧
      ∃ answers, checkSpecs mutualCache 3 Dict.empty ["acme.tools".toList, "acme.base".toList] =
          some answers ∧
        answers.map Prod.fst = ["acme.tools".toList, "acme.base".toList] ∧
        ∀ entry ∈ answers, (entry.2 ↔ entry.1 ∈ closure) :=
  checkSpecs_greatest mutualCache ["acme.tools".toList, "acme.base".toList] 3 (by decide)

end Apme.Galaxy.Closure
