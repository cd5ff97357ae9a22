import Apme.Galaxy.Naming
import Apme.Lib.StableSort

/-!
# References of an SBOM

A manifest lists the installed collections and Python packages and the version
of ansible-core.  The gateway stores one row for each name and makes a component
of each row, and one for ansible-core; a component is referred to by its package
URL.  Percent encoding is injective, so two components have one URL only if they
are one package in one version.  That happens when a package is stored under two
spellings, or when ansible-core is also an installed package.
-/

set_option autoImplicit false

namespace Apme.Gateway

open Apme.Lib Apme.Galaxy List

structure CollectionRef where
  fqcn : Text
  version : Text

structure PythonPackageRef where
  name : Text
  version : Text
  deriving DecidableEq

/-- `_build_manifest` copies these lists from the session as they are. -/
structure ProjectManifest where
  ansibleCoreVersion : Text
  collections : List CollectionRef
  pythonPackages : List PythonPackageRef

structure Component where
  name : Text
  version : Text
  purl : Text
  bomRef : Text

structure Bom where
  components : List Component
  dependencies : List Text

/-- What a component stands for. -/
inductive Subject
  | python (p : PythonPackageRef)
  | collection (c : CollectionRef)

variable (lower : Text → Text) (m : ProjectManifest)

def normalizePypiName (name : Text) : Text := lower (collapse name)

def makePypiPurl (name version : Text) : Text :=
  "pkg:pypi/".toList ++ (Text.quote [] (normalizePypiName lower name) ++ '@' :: Text.quote [] version)

def makeCollectionPurl (fqcn version : Text) : Text :=
  "pkg:generic/".toList ++ (Text.quote ['.'] fqcn ++
    '@' :: (Text.quote [] version ++ "?repository_url=https://galaxy.ansible.com".toList))

def Subject.toComponent : Subject → Component
  | .python p =>
    let purl := makePypiPurl lower p.name p.version
    ⟨p.name, p.version, purl, purl⟩
  | .collection c =>
    let purl := makeCollectionPurl c.fqcn c.version
    ⟨c.fqcn, c.version, purl, purl⟩

def core : PythonPackageRef := ⟨"ansible-core".toList, m.ansibleCoreVersion⟩

/-- The rows of a manifest: of each name only the first entry is stored. -/
def subjects : List Subject :=
  (if m.ansibleCoreVersion = [] then [] else [.python (core m)]) ++ ((firstBy (·.fqcn) [] m.collections).map .collection ++
    (firstBy (·.name) [] m.pythonPackages).map .python)

def manifestToCyclonedx : Bom :=
  let components := (subjects m).map (Subject.toComponent lower)
  ⟨components, components.map (·.bomRef)⟩

/-- One package, under its normalized name, in one version. -/
def Subject.Same : Subject → Subject → Prop
  | .python p, .python q =>
    normalizePypiName lower p.name = normalizePypiName lower q.name ∧ p.version = q.version
  | .collection c, .collection d => c.fqcn = d.fqcn ∧ c.version = d.version
  | _, _ => False

theorem makePypiPurl_ne (name version fqcn version' : Text) :
    makePypiPurl lower name version ≠ makeCollectionPurl fqcn version' := by
  intro h
  have hc : some 'p' = some 'g' := congrArg (·[4]?) h
  simp at hc

theorem purl_eq_iff (s t : Subject) :
    (s.toComponent lower).purl = (t.toComponent lower).purl ↔ s.Same lower t := by
  have ha := @Text.at_notMem_quote [] (by simp)
  have hi := @Text.quote_inj [] (by simp)
  constructor
  · intro h
    cases s with
    | python p =>
      cases t with
      | python q =>
        obtain ⟨hn, hv⟩ := Text.append_cons_inj (append_cancel_left h) (ha _) (ha _)
        exact ⟨hi hn, hi hv⟩
      | collection d => exact (makePypiPurl_ne _ _ _ _ _ h).elim
    | collection c =>
      cases t with
      | python q => exact (makePypiPurl_ne _ _ _ _ _ h.symm).elim
      | collection d =>
        have ha' := @Text.at_notMem_quote ['.'] (by decide)
        obtain ⟨hn, hv⟩ := Text.append_cons_inj (append_cancel_left h) (ha' _) (ha' _)
        exact ⟨Text.quote_inj (by decide) hn, hi (append_cancel_right hv)⟩
  · intro h
    cases s with
    | python p =>
      cases t with
      | python q =>
        exact congrArg₂ (fun n v => "pkg:pypi/".toList ++ (Text.quote [] n ++ '@' :: Text.quote [] v)) h.1 h.2
      | collection d => exact False.elim h
    | collection c =>
      cases t with
      | python q => exact False.elim h
      | collection d =>
        exact congrArg₂ makeCollectionPurl h.1 h.2

/-- The package is the first installed one of its name. -/
def Stored (p : PythonPackageRef) : Prop :=
  m.pythonPackages.find? (fun q => q.name = p.name) = some p

/-- No stored package is ansible-core as recorded, or another one under a second spelling. -/
def SpeltOnce : Prop :=
  (m.ansibleCoreVersion ≠ [] → ∀ p, Stored m p → ¬ (Subject.python (core m)).Same lower (.python p)) ∧
  ∀ p q, Stored m p → Stored m q → (Subject.python p).Same lower (.python q) → p.name = q.name

theorem mem_stored_iff (p : PythonPackageRef) :
    p ∈ firstBy (·.name) [] m.pythonPackages ↔ Stored m p := by
  simp [mem_firstBy_iff, Stored]

theorem pairwise_packages_iff :
    (firstBy (·.name) [] m.pythonPackages).Pairwise
        (fun p q => ¬ (Subject.python p).Same lower (.python q)) ↔
      ∀ p q, Stored m p → Stored m q → (Subject.python p).Same lower (.python q) →
        p.name = q.name := by
  simp only [← mem_stored_iff]
  constructor
  · intro h p q hp hq hs
    by_contra hd
    have : Std.Symm fun p q => ¬ (Subject.python p).Same lower (.python q) :=
      ⟨fun _ _ hn hs => hn ⟨hs.1.symm, hs.2.symm⟩⟩
    exact h.forall hp hq (fun hs => hd (by rw [hs])) hs
  · intro h
    refine (pairwise_map.mp (nodup_firstBy (·.name) [] m.pythonPackages)).imp_of_mem ?_
    exact fun hp hq hd hs => hd (h _ _ hp hq hs)

theorem pairwise_subjects_iff :
    (subjects m).Pairwise (fun s t => ¬ s.Same lower t) ↔ SpeltOnce lower m := by
  have hc : (firstBy (·.fqcn) [] m.collections).Pairwise
      (fun c d => ¬ (Subject.collection c).Same lower (.collection d)) := by
    refine (pairwise_map.mp (nodup_firstBy (·.fqcn) [] m.collections)).imp ?_
    exact fun hd hs => hd hs.1
  have hx : ∀ p c, ¬ (Subject.python p).Same lower (.collection c) ∧
      ¬ (Subject.collection c).Same lower (.python p) := by simp [Subject.Same]
  rw [SpeltOnce, ← pairwise_packages_iff, subjects]
  split_ifs with hv
  · simp [pairwise_append, pairwise_map, hc, hv, hx]
  · simp only [singleton_append, pairwise_cons, forall_mem_append, forall_mem_map]
    simp [pairwise_append, pairwise_map, hc, hv, hx, mem_stored_iff]

theorem references_unique_iff :
    ((manifestToCyclonedx lower m).components.map (·.bomRef)).Nodup ∧
      (∀ c ∈ (manifestToCyclonedx lower m).components,
        (manifestToCyclonedx lower m).dependencies.count c.bomRef = 1) ∧
      (∀ s ∈ subjects m, ∀ t ∈ subjects m,
        (s.toComponent lower).purl = (t.toComponent lower).purl → s.Same lower t) ↔
    SpeltOnce lower m := by
  have hp : ((manifestToCyclonedx lower m).components.map (·.bomRef)).Nodup ↔
      (subjects m).Pairwise (fun s t => ¬ s.Same lower t) := by
    have hr : ∀ s : Subject, (s.toComponent lower).bomRef = (s.toComponent lower).purl := by
      rintro (p | c) <;> rfl
    simp only [manifestToCyclonedx, Nodup, pairwise_map, hr, ne_eq, purl_eq_iff]
  rw [← pairwise_subjects_iff, ← hp]
  constructor
  · exact And.left
  · intro hn
    refine ⟨hn, fun c hc => count_eq_one_of_mem hn (mem_map_of_mem hc), ?_⟩
    exact fun s _ t _ => (purl_eq_iff lower s t).mp

theorem core_listed_twice : ∃ m : ProjectManifest, m.collections = [] ∧
    m.pythonPackages = [⟨"ansible-core".toList, m.ansibleCoreVersion⟩] ∧
    ¬ ((manifestToCyclonedx (·.map Char.toLower) m).components.map (·.bomRef)).Nodup := by
  refine ⟨⟨"2.16.0".toList, [], [⟨"ansible-core".toList, "2.16.0".toList⟩]⟩, rfl, rfl, ?_⟩
  decide +kernel

end Apme.Gateway
