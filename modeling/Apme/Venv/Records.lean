import Apme.Lib.Text
import Mathlib.Data.List.Dedup
import Mathlib.Data.List.Sort
import Mathlib.Data.String.Basic

/-!
# What a session venv is recorded to hold

`acquire` installs the requested collections that its record does not satisfy,
and then records everything that was requested and did not fail.  Where every
request names a collection once and no single install is cut off, a recorded pin
is the version in the venv.  A request that names a collection twice is recorded
twice, and a timeout leaves the record of the versions before it.
-/

set_option autoImplicit false

namespace Apme.Venv

open Apme.Lib List Option

variable (spec : Text)

/-- `spec.split(":")[0]`. -/
def beforeColon : Text := spec.takeWhile (· ≠ ':')

def specBareFqcn : Text := Text.strip (beforeColon spec)

def specVersionPin : Option Text :=
  if ':' ∈ spec then
    let pin := Text.strip ((spec.dropWhile (· ≠ ':')).drop 1)
    if pin = [] then none else some pin
  else none

def installedSatisfiesSpec (installed : List Text) (spec : Text) : Bool :=
  if spec ∈ installed then true
  else if (installed.filter fun other => specBareFqcn other = specBareFqcn spec) = [] then false
  else specVersionPin spec = none

def mergeInstalledCollections (installed succeeded : List Text) : List Text :=
  (installed.filter fun spec => specBareFqcn spec ∉ succeeded.map specBareFqcn) ++ succeeded

/-- One turn of a loop of `merge_collection_specs`. -/
def addUnlessNamed (name : Text → Text) (state : List Text × List Text) (spec : Text) :
    List Text × List Text :=
  if name spec ∈ state.2 then state else (state.1 ++ [spec], name spec :: state.2)

def mergeCollectionSpecs (request discovered hierarchy : List Text) : List Text :=
  (hierarchy.foldl (addUnlessNamed id)
    (discovered.foldl (addUnlessNamed beforeColon) (request, request.map beforeColon))).1

/-- The version of each collection that is installed. -/
abbrev Versions := Text → Option Text

/-- How a run of the installer ends; it can also raise, on a timeout. -/
inductive Outcome where
  | installed
  | failed
  | raised
  deriving DecidableEq

/-- What happens in a call: the run for all specs, the runs for single specs,
and the newest versions. -/
structure Installer where
  bulk : Outcome
  each : Text → Outcome
  latest : Text → Text

variable (run : Installer)

def Installer.install (venv : Versions) (spec : Text) : Versions := fun name =>
  if name = specBareFqcn spec then
    some ((specVersionPin spec).getD ((venv name).getD (run.latest name)))
  else venv name

/-- Specs one by one: the venv, and the failed specs unless a run raised. -/
def Installer.installEach (run : Installer) (outcome : Text → Outcome) :
    List Text → Versions → Versions × Option (List Text)
  | [], venv => (venv, some [])
  | spec :: rest, venv =>
    match outcome spec with
    | .installed => installEach run outcome rest (run.install venv spec)
    | .failed =>
      let done := installEach run outcome rest venv
      (done.1, done.2.map (spec :: ·))
    | .raised => (venv, none)

def installCollectionsIncremental (specs : List Text) (venv : Versions) :
    Versions × Option (List Text) :=
  if specs = [] then (venv, some [])
  else
    match run.bulk with
    | .installed => run.installEach (fun _ => .installed) specs venv
    | .failed => run.installEach run.each specs venv
    | .raised => (venv, none)

/-- A venv with its `installed_collections`, a set. -/
structure Session where
  installed : List Text
  venv : Versions

def Session.fresh : Session := ⟨[], fun _ => none⟩

/-- The record after a reconciliation in which `failed` could not be installed. -/
def Session.reconciled (session : Session) (specs failed : List Text) (venv : Versions) : Session :=
  ⟨mergeInstalledCollections session.installed (specs.dedup.filter (· ∉ failed)), venv⟩

def acquire (state : Option Session) (specs : List Text) : Option Session :=
  match state with
  | some session =>
    let missing := specs.dedup.filter fun spec => !installedSatisfiesSpec session.installed spec
    if missing = [] then some session
    else
      match installCollectionsIncremental run (missing.insertionSort (· ≤ ·)) session.venv with
      | (venv, none) => some { session with venv }
      | (venv, some failed) => some (session.reconciled specs failed venv)
  | none =>
    match installCollectionsIncremental run specs Session.fresh.venv with
    | (_, none) => none
    | (venv, some failed) => some (Session.fresh.reconciled specs failed venv)

/-- A call of `acquire`, with the sources of its specs. -/
structure Call where
  request : List Text
  discovered : List Text
  hierarchy : List Text
  run : Installer

def Call.specs (call : Call) : List Text :=
  mergeCollectionSpecs call.request call.discovered call.hierarchy

def acquires (calls : List Call) : Option Session :=
  calls.foldl (fun state call => acquire call.run state call.specs) none

def NamedOnce (specs : List Text) : Prop :=
  ∀ spec ∈ specs, ∀ other ∈ specs, specBareFqcn spec = specBareFqcn other → spec = other

/-- Each collection is recorded once, and a recorded pin is the version in the
venv. -/
structure Session.Truthful (session : Session) : Prop where
  once : NamedOnce session.installed
  pinned : ∀ spec ∈ session.installed, ∀ pin, specVersionPin spec = some pin →
    session.venv (specBareFqcn spec) = some pin

theorem mem_installed_of_satisfies {installed : List Text} {spec pin : Text}
    (hs : installedSatisfiesSpec installed spec)
    (hP : specVersionPin spec = some pin) : spec ∈ installed := by
  by_contra ha
  simp [installedSatisfiesSpec, ha, hP] at hs

theorem mem_mergeInstalledCollections {installed succeeded : List Text} {spec : Text} :
    spec ∈ mergeInstalledCollections installed succeeded ↔
      (spec ∈ installed ∧ ∀ o ∈ succeeded, specBareFqcn o ≠ specBareFqcn spec) ∨
        spec ∈ succeeded := by
  simp [mergeInstalledCollections]

section Install

variable (run : Installer)

theorem install_other {specs : List Text} {name : Text} (ho : name ∉ specs.map specBareFqcn)
    (venv : Versions) : specs.foldl run.install venv name = venv name := by
  induction specs generalizing venv with
  | nil => rfl
  | cons spec rest ih =>
    obtain ⟨hd, hot⟩ := ne_and_not_mem_of_not_mem_cons ho
    rw [foldl_cons, ih hot, Installer.install, if_neg hd]

theorem install_pinned {specs : List Text} (ho : NamedOnce specs) {spec pin : Text}
    (mem : spec ∈ specs) (hP : specVersionPin spec = some pin) (venv : Versions) :
    specs.foldl run.install venv (specBareFqcn spec) = some pin := by
  induction specs generalizing venv with
  | nil => cases mem
  | cons first rest ih =>
    rw [foldl_cons]
    by_cases ha : spec ∈ rest
    · exact ih (fun a inA b inB => ho a (mem_cons_of_mem _ inA) b (mem_cons_of_mem _ inB))
        ha _
    · obtain rfl := (mem_cons.mp mem).resolve_right ha
      have last : specBareFqcn spec ∉ rest.map specBareFqcn := by
        intro hn
        obtain ⟨o, hr, hs⟩ := mem_map.mp hn
        exact ha (ho o (mem_cons_of_mem _ hr) spec mem_cons_self hs ▸ hr)
      rw [install_other run last, Installer.install, if_pos rfl, hP, getD_some]

variable {outcome : Text → Outcome}

theorem installEach_eq (hc : ∀ spec, outcome spec ≠ .raised) (specs : List Text) (venv : Versions) :
    run.installEach outcome specs venv =
      ((specs.filter (outcome · = .installed)).foldl run.install venv,
        some (specs.filter (outcome · = .failed))) := by
  induction specs generalizing venv with
  | nil => rfl
  | cons spec rest ih =>
    cases he : outcome spec with
    | installed => simp [Installer.installEach, he, ih]
    | failed => simp [Installer.installEach, he, ih]
    | raised => exact absurd he (hc spec)

/-- Nothing has happened, or all specs were tried. -/
theorem installCollectionsIncremental_eq (hc : ∀ spec, run.each spec ≠ .raised)
    (specs : List Text) (venv : Versions) :
    installCollectionsIncremental run specs venv = (venv, none) ∨
      ∃ outcome : Text → Outcome, (∀ spec, outcome spec ≠ .raised) ∧
        installCollectionsIncremental run specs venv =
          ((specs.filter (outcome · = .installed)).foldl run.install venv,
            some (specs.filter (outcome · = .failed))) := by
  unfold installCollectionsIncremental
  split
  next he => exact .inr ⟨fun _ => .installed, by simp, by simp [he]⟩
  next =>
    split
    · exact .inr ⟨fun _ => .installed, by simp, installEach_eq run (by simp) specs venv⟩
    · exact .inr ⟨run.each, hc, installEach_eq run hc specs venv⟩
    · exact .inl rfl

/-- A reconciliation keeps the record truthful if what is not installed is
satisfied already. -/
theorem reconciled_truthful {ses : Session} (truthful : ses.Truthful) {specs todo : List Text}
    (once : NamedOnce specs) (within : ∀ spec ∈ todo, spec ∈ specs)
    (rest : ∀ spec ∈ specs, spec ∉ todo → installedSatisfiesSpec ses.installed spec)
    (calm : ∀ spec, outcome spec ≠ .raised) :
    (ses.reconciled specs (todo.filter (outcome · = .failed))
      ((todo.filter (outcome · = .installed)).foldl run.install ses.venv)).Truthful := by
  have onceTodo : NamedOnce (todo.filter (outcome · = .installed)) := fun a inA b inB =>
    once a (within a (mem_of_mem_filter inA)) b (within b (mem_of_mem_filter inB))
  have kept : ∀ spec ∈ todo, outcome spec = .installed → spec ∈ specs.dedup.filter
      (· ∉ todo.filter (outcome · = .failed)) := by
    intro spec mem installed
    simp [mem_dedup, within spec mem, installed]
  constructor
  · intro a inA b inB hs
    rcases mem_mergeInstalledCollections.mp inA with oldA | newA <;>
      rcases mem_mergeInstalledCollections.mp inB with oldB | newB
    · exact truthful.once a oldA.1 b oldB.1 hs
    · exact absurd hs.symm (oldA.2 b newB)
    · exact absurd hs (oldB.2 a newA)
    · exact once a (mem_dedup.mp (mem_of_mem_filter newA)) b
        (mem_dedup.mp (mem_of_mem_filter newB)) hs
  · intro spec mem pin isPin
    obtain old | new := mem_mergeInstalledCollections.mp mem
    · rw [← truthful.pinned spec old.1 pin isPin]
      refine install_other run (fun named => ?_) _
      obtain ⟨o, inTodo, hs⟩ := mem_map.mp named
      obtain ⟨inTodo, installed⟩ := mem_filter.mp inTodo
      exact old.2 o (kept o inTodo (of_decide_eq_true installed)) hs
    · obtain ⟨asked, succeeded⟩ := mem_filter.mp new
      by_cases inTodo : spec ∈ todo
      · refine install_pinned run onceTodo (mem_filter.mpr ⟨inTodo, ?_⟩) isPin _
        cases ended : outcome spec with
        | installed => rfl
        | failed => simp [inTodo, ended] at succeeded
        | raised => exact absurd ended (calm spec)
      · have satisfied := rest spec (mem_dedup.mp asked) inTodo
        rw [← truthful.pinned spec (mem_installed_of_satisfies satisfied isPin) pin isPin]
        refine install_other run (fun named => ?_) _
        obtain ⟨o, inOther, hs⟩ := mem_map.mp named
        have inOther := mem_of_mem_filter inOther
        exact inTodo (once o (within o inOther) spec (mem_dedup.mp asked) hs ▸ inOther)

end Install

theorem acquire_truthful {run : Installer} (hc : ∀ spec, run.each spec ≠ .raised)
    {specs : List Text} (once : NamedOnce specs) {st : Option Session}
    (ht : ∀ ses ∈ st, ses.Truthful) : ∀ ses ∈ acquire run st specs, ses.Truthful := by
  intro after res
  unfold acquire at res
  split at res
  next ses =>
    have old := ht ses rfl
    dsimp only at res
    split at res
    next => exact some.inj res ▸ old
    next =>
      obtain hs | ⟨outcome, ho, hs⟩ := installCollectionsIncremental_eq run hc
        ((specs.dedup.filter fun spec => !installedSatisfiesSpec ses.installed spec).insertionSort
          (· ≤ ·)) ses.venv
      · rw [hs] at res
        exact some.inj res ▸ old
      · rw [hs] at res
        refine some.inj res ▸ reconciled_truthful run old once ?_ ?_ ho
        · simp only [mem_insertionSort, mem_filter, mem_dedup]
          exact fun spec mem => mem.1
        · simp only [mem_insertionSort, mem_filter, mem_dedup]
          intro spec mem hsa
          simpa [mem] using hsa
  next =>
    obtain hs | ⟨outcome, ho, hs⟩ :=
      installCollectionsIncremental_eq run hc specs Session.fresh.venv
    · rw [hs] at res
      cases res
    · rw [hs] at res
      exact some.inj res ▸ reconciled_truthful run ⟨by simp [NamedOnce, Session.fresh],
        by simp [Session.fresh]⟩ once (fun _ mem => mem)
        (fun _ mem ha => absurd mem ha) ho

/-- Where no list given to `acquire` names a collection twice and no install of a
single spec raises, the record is truthful after every sequence of calls, and a
warm hit on a pin finds that version. -/
theorem records_truthful (calls : List Call)
    (sound : ∀ call ∈ calls, NamedOnce call.specs ∧ ∀ spec, call.run.each spec ≠ .raised) :
    ∀ session ∈ acquires calls, session.Truthful ∧
      ∀ spec pin, specVersionPin spec = some pin →
        installedSatisfiesSpec session.installed spec →
        session.venv (specBareFqcn spec) = some pin := by
  intro session reached
  have truthful : ∀ session ∈ acquires calls, session.Truthful := by
    unfold acquires
    refine List.foldlRecOn (motive := fun state => ∀ session ∈ state, Session.Truthful session) calls
      _ (by simp) ?_
    intro state before call member
    exact acquire_truthful (sound call member).2 (sound call member).1 before
  exact ⟨truthful session reached, fun spec pin isPin satisfied =>
    (truthful session reached).pinned spec (mem_installed_of_satisfies satisfied isPin) pin isPin⟩

def calmRun : Installer := ⟨.failed, fun _ => .installed, id⟩

def oldTools : Text := "acme.tools:1.0".toList

def newTools : Text := "acme.tools:2.0".toList

theorem twice_pinned :
    ∃ session, acquires [⟨[oldTools], [], [], calmRun⟩, ⟨[newTools], [], [], calmRun⟩] =
      some session ∧ session.Truthful :=
  ⟨_, rfl, (records_truthful [⟨[oldTools], [], [], calmRun⟩, ⟨[newTools], [], [], calmRun⟩]
    (by simp [Call.specs, mergeCollectionSpecs, NamedOnce, calmRun]) _ rfl).1⟩

/-- A request with two pins is recorded with both; and where the second install
times out, the version before the first one stays recorded. -/
theorem records_wrong :
    (∃ session ∈ acquires [⟨[oldTools, newTools], [], [], calmRun⟩],
      session.installed = [oldTools, newTools]) ∧
      ∃ session ∈ acquires [⟨[oldTools], [], [], calmRun⟩,
          ⟨[newTools, "zeta.other".toList], [], [],
            { calmRun with each := fun spec => if spec = newTools then .installed else .raised }⟩],
        installedSatisfiesSpec session.installed oldTools ∧
          session.venv (specBareFqcn oldTools) = some "2.0".toList :=
  ⟨⟨_, rfl, rfl⟩, ⟨_, rfl, rfl, rfl⟩⟩

end Apme.Venv
