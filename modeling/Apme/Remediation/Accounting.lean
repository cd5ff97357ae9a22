import Apme.Remediation.Provenance
import Apme.Remediation.Snapshots

/-!
# What becomes of the findings a run starts with

The ledger has one record for every node and normalized rule id, and no step of
a run removes a record.  So every finding on a node of the graph is listed at
the end under its key; which report of that key is listed, with which line, is
decided by the last scan that repeats it.
-/

set_option autoImplicit false

namespace Apme.Remediation

open Apme.Lib Apme.Graph List Option ContentGraph ContentNode

/-- The same finding, as far as a reader of the lists can tell. -/
def SameFinding (v w : Violation) : Prop :=
  v.path = w.path ∧ v.ruleId = w.ruleId ∧ v.file = w.file ∧ v.line = w.line

instance (v w : Violation) : Decidable (SameFinding v w) :=
  inferInstanceAs (Decidable (_ ∧ _ ∧ _ ∧ _))

theorem SameFinding.trans {u v w : Violation} (first : SameFinding u v)
    (hs : SameFinding v w) : SameFinding u w :=
  ⟨first.1.trans hs.1, first.2.1.trans hs.2.1, first.2.2.1.trans hs.2.2.1,
    first.2.2.2.trans hs.2.2.2⟩

theorem SameFinding.violationKey_eq {v w : Violation} (hs : SameFinding v w) :
    violationKey v = violationKey w := by
  rw [violationKey, violationKey, hs.1, hs.2.1]

theorem sameFinding_enriched (vs : List Violation) (v : Violation) :
    SameFinding v (enrichViolation vs v) := by
  obtain ⟨tgt, hs⟩ := enrichViolation_eq vs v
  rw [hs]
  exact ⟨rfl, rfl, rfl, rfl⟩

theorem sameFinding_report (r : ViolationRecord) :
    SameFinding r.violation r.report :=
  ⟨rfl, rfl, rfl, rfl⟩

/-- Up to what is filled in on the way, the violation is in the list. -/
def Known (reported : List Violation) (v : Violation) : Prop := ∃ w ∈ reported, SameFinding w v

/-- The node of the key has a record under it, of a known violation. -/
def Traced (known : Violation → Prop) (key : ViolationKey) (g : ContentGraph) : Prop :=
  ∃ node record, g.getNode key.1 = some node ∧ node.violationLedger.get? key = some record ∧
    known record.violation ∧ violationKey record.violation = key

section Traced

variable {known : Violation → Prop} {key : ViolationKey} {g : ContentGraph}

theorem Traced.modifyNode (ht : Traced known key g) (id : String) {m : ContentNode → ContentNode}
    (kept : ∀ n record, n.violationLedger.get? key = some record → known record.violation →
      violationKey record.violation = key →
        ∃ next, (m n).violationLedger.get? key = some next ∧ known next.violation ∧
          violationKey next.violation = key) :
    Traced known key (g.modifyNode id m) := by
  obtain ⟨n, record, hf, hr, hk, hs⟩ := ht
  by_cases here : key.1 = id
  · obtain ⟨next, hn, hkn, hsn⟩ := kept n record hr hk hs
    refine ⟨m n, next, ?_, hn, hkn, hsn⟩
    rw [← here, getNode_modifyNode_self, hf, map_some]
  · refine ⟨n, record, ?_, hr, hk, hs⟩
    rw [getNode_modifyNode_ne _ _ _ _ here]
    exact hf

theorem Traced.updateLedger (ht : Traced known key g) (id : String)
    {f : ViolationKey → ViolationRecord → ViolationRecord}
    (hp : ∀ key r, (f key r).violation = r.violation) :
    Traced known key (g.modifyNode id (updateLedger f)) := by
  refine ht.modifyNode id fun n r hr hk hs => ?_
  refine ⟨f key r, ?_, by rwa [hp], by rwa [hp]⟩
  rw [ContentNode.updateLedger, Dict.get?_update, hr, map_some]

theorem reconfirm_violation (v : Violation) (r : ViolationRecord) :
    (r.reconfirm v).violation = v := by
  unfold ViolationRecord.reconfirm
  split <;> rfl

theorem register_get? (v : Violation) (pass : Nat) (n : ContentNode) :
    ∃ next, (register v pass n).violationLedger.get? (violationKey v) =
      some next ∧ next.violation = v := by
  unfold register
  dsimp only
  rw [Dict.get?_insert, if_pos rfl]
  refine ⟨_, rfl, ?_⟩
  split
  · rfl
  · exact reconfirm_violation v _

theorem Traced.register (ht : Traced known key g) (v : Violation) (pass : Nat) (hkn : known v) :
    Traced known key (registerViolation pass g v) := by
  refine ht.modifyNode v.path fun n r hk hr hs => ?_
  by_cases here : violationKey v = key
  · obtain ⟨next, hn, hp⟩ := register_get? v pass n
    rw [here] at hn
    exact ⟨next, hn, by rwa [hp], by rw [hp, here]⟩
  · refine ⟨r, ?_, hr, hs⟩
    unfold ContentNode.register
    dsimp only
    rw [Dict.get?_insert, if_neg fun he => here he.symm]
    exact hk

theorem traced_registerViolation (g : ContentGraph) (v : Violation) (pass : Nat)
    (here : (g.getNode v.path).isSome) (hk : known v) :
    Traced known (violationKey v) (registerViolation pass g v) := by
  obtain ⟨n, hf⟩ := isSome_iff_exists.mp here
  obtain ⟨n₁, hr, hp⟩ := register_get? v pass n
  refine ⟨register v pass n, n₁, ?_, hr, by rwa [hp], by
    rw [hp]⟩
  rw [registerViolation]
  exact (getNode_modifyNode_self g v.path _).trans (by rw [hf]; rfl)

theorem traced_invariant (k : Violation → Prop) (key : ViolationKey) :
    GraphInvariant k (Traced k key) where
  record _ id _ _ _ traced := traced.modifyNode id fun _ record hr hk hs => ⟨record, hr, hk, hs⟩
  rewrite _ id _ traced := traced.modifyNode id fun _ record hr hk hs => ⟨record, hr, hk, hs⟩
  register _ v pass hk traced := traced.register v pass hk
  resolve _ id _ _ _ _ traced := traced.updateLedger id fun _ record => by split <;> rfl
  abstain _ id _ _ traced := by
    refine traced.updateLedger id fun _ record => ?_
    split
    · unfold ViolationRecord.abstain
      split <;> rfl
    · rfl
  clearDirty _ traced := traced

end Traced

variable (opts : RemediateOptions)

/-- The statuses that neither list of the report is made of. -/
def reviewStatuses : List Status :=
  if opts.interactive then [.proposed, .declined] else [.proposed, .declined, .pendingReview]

/-- All findings a caller gets from a run: the two lists of its report and the
queries for the remaining statuses, every status once. -/
def listedFindings (s : Engine) (fixReport : GraphFixReport) : List Violation :=
  fixReport.remainingViolations ++ fixReport.fixedViolations ++
    (reviewStatuses opts).flatMap s.graph.queryViolations

variable {key : ViolationKey}

theorem mem_queryViolations {g : ContentGraph} {id : String} {n : ContentNode}
    {r : ViolationRecord} (hf : g.getNode id = some n)
    (hk : n.violationLedger.get? key = some r) :
    r.report ∈ g.queryViolations r.status := by
  refine mem_map_of_mem (mem_flatMap.mpr ⟨n, ?_, ?_⟩)
  · exact (Dict.mem_values_iff _ _).mpr ⟨id, hf⟩
  · exact mem_filter.mpr ⟨(Dict.mem_values_iff _ _).mpr ⟨key, hk⟩, decide_eq_true rfl⟩

variable (opts : RemediateOptions)

theorem mem_listedFindings (s : Engine) (l : LoopVars) {v : Violation}
    {st : Status} (hq : v ∈ s.graph.queryViolations st) :
    v ∈ listedFindings opts s (report opts s l) := by
  unfold listedFindings report fixedStatuses reviewStatuses
  simp only [mem_append, mem_flatMap]
  cases st with
  | opened => exact .inl (.inl (.inl hq))
  | aiAbstained => exact .inl (.inl (.inr hq))
  | fixed =>
    refine .inl (.inr ⟨.fixed, ?_, hq⟩)
    split <;> simp
  | pendingReview =>
    by_cases hr : opts.interactive
    · exact .inl (.inr ⟨.pendingReview, by simp [hr], hq⟩)
    · exact .inr ⟨.pendingReview, by simp [hr], hq⟩
  | proposed =>
    refine .inr ⟨.proposed, ?_, hq⟩
    split <;> simp
  | declined =>
    refine .inr ⟨.declined, ?_, hq⟩
    split <;> simp

variable {known : Violation → Prop}

theorem traced_autoApprove {s : Engine} (ht : Traced known key s.graph) :
    Traced known key (autoApprove opts s).graph := by
  obtain ⟨n, r, hf, hr, hk, hs⟩ := ht
  unfold autoApprove
  split
  · exact ⟨n, r, hf, hr, hk, hs⟩
  · refine ⟨approvePending (some .deterministic) n, r, ?_, hr, hk, hs⟩
    exact (getNode_mapNodes _ _ _).trans (by rw [hf]; rfl)

theorem Traced.listed {opts : RemediateOptions}
    {s : Engine} (l : LoopVars) (ht : Traced known key s.graph) :
    ∃ v ∈ listedFindings opts s (report opts s l), violationKey v = key ∧
      ∃ w, known w ∧ SameFinding w v := by
  obtain ⟨n, r, hf, hr, hk, hs⟩ := ht
  exact ⟨r.report, mem_listedFindings opts s l (mem_queryViolations hf hr), hs,
    r.violation, hk, sameFinding_report r⟩

section Run

theorem known_enriched {reported vs : List Violation} (listed : ∀ v ∈ vs, v ∈ reported) :
    ∀ v ∈ enrichFqcnTargets vs, Known reported v := by
  intro v mem
  obtain ⟨plain, hl, rfl⟩ := mem_map.mp mem
  exact ⟨plain, listed plain hl, sameFinding_enriched vs plain⟩

theorem traced_registerViolations (k : Violation → Prop) {vs : List Violation}
    (pass : Nat) (hkn : ∀ v ∈ vs, k v) (v : Violation)
    (hl : v ∈ vs) (g : ContentGraph) (hp : (g.getNode v.path).isSome) :
    Traced k (violationKey v) (g.registerViolations vs pass) := by
  induction vs generalizing g with
  | nil => cases hl
  | cons first rest ih =>
    have hr : ∀ w ∈ rest, k w := fun w mem =>
      hkn w (mem_cons_of_mem first mem)
    rcases mem_cons.mp hl with rfl | hla
    · have ht := traced_registerViolation g v pass hp (hkn v mem_cons_self)
      exact foldl_invariant (fun g w mem kept => (traced_invariant k (violationKey v)).register g w
        pass (hr w mem) kept) _ ht
    · refine ih hr hla _ ?_
      rw [registerViolation, getNode_modifyNode]
      split
      next here => rw [← here, isSome_map]; exact hp
      next => exact hp

theorem startRun_traced (cfg : EngineConfig) (g : ContentGraph) {initial reported : List Violation}
    (hs : initial ⊆ reported) (v : Violation) (hl : v ∈ initial)
    (here : (g.getNode v.path).isSome) :
    Traced (Known reported) (violationKey v) (startRun cfg g (some initial)).graph := by
  have hk : ∀ w ∈ enrichFqcnTargets initial, Known reported w := known_enriched fun w mem => hs mem
  have same := sameFinding_enriched initial v
  rw [same.violationKey_eq]
  refine traced_registerViolations _ 0 hk _ (mem_map_of_mem hl) _ ?_
  rw [recordAll_isSome, recordAll_isSome, ← same.1]
  exact here

/-- The keys of the findings whose path is a node of the graph. -/
def nodeKeys (g : ContentGraph) (violations : List Violation) : List ViolationKey :=
  ((violations.filter fun v => (g.getNode v.path).isSome).map violationKey).dedup

/-- No finding on a node is lost: at the end of every run a finding with its
path and normalized rule id is listed, and it is one that the initial list or a
rescan of the run reported.  So at least as many findings are listed as there
are keys. -/
theorem remediate_lists_keys (cfg : EngineConfig) (opts : RemediateOptions) (g : ContentGraph)
    (initial : List Violation) (s : Engine) (fixReport : GraphFixReport)
    (run : remediate cfg opts g (some initial) = .ok (s, fixReport)) :
    (∀ v ∈ initial, (g.getNode v.path).isSome →
      ∃ listed ∈ listedFindings opts s fixReport, violationKey listed = violationKey v ∧
        ∃ w, (w ∈ initial ∨ w ∈ s.answered) ∧ SameFinding w listed) ∧
      (nodeKeys g initial).length ≤ (listedFindings opts s fixReport).length := by
  have accounted : ∀ v ∈ initial, (g.getNode v.path).isSome →
      ∃ listed ∈ listedFindings opts s fixReport, violationKey listed = violationKey v ∧
        ∃ w, (w ∈ initial ∨ w ∈ s.answered) ∧ SameFinding w listed := by
    intro v member present
    -- The record stays with what the rescans up to the end of this run answer.
    have invariant := @whileAnswered_invariant (startRun cfg g (some initial)).events _ _
      (fun _ => True) _ (traced_invariant (Known (initial ++ s.answered)) (violationKey v))
      (fun _ plain => known_enriched fun w mem => mem_append_right initial (plain w mem))
      (fun _ _ _ _ => trivial) cfg opts
    have started := startRun_traced cfg g (subset_append_left initial s.answered) v member present
    have ended := invariant.remediate_good
      ⟨[], (append_nil _).symm, fun _ => ⟨started, fun _ _ => trivial⟩⟩
    rw [run] at ended
    obtain ⟨before, l, ⟨late, events, traced⟩, same⟩ := ended
    obtain ⟨rfl, rfl⟩ := Prod.mk.inj same
    have answers : ∀ event ∈ late, ∀ w ∈ event.answered, w ∈ (autoApprove opts before).answered := by
      intro event isLate w answered
      refine mem_flatMap.mpr ⟨event, ?_, answered⟩
      rw [autoApprove_events, events]
      exact mem_append_right _ isLate
    obtain ⟨listed, inList, sameKey, w, ⟨origin, reported, first⟩, second⟩ :=
      (traced_autoApprove opts (traced answers).1).listed l
    exact ⟨listed, inList, sameKey, origin, mem_append.mp reported, first.trans second⟩
  refine ⟨accounted, ?_⟩
  have subset : nodeKeys g initial ⊆ (listedFindings opts s fixReport).map violationKey := by
    intro key member
    obtain ⟨v, inNodes, rfl⟩ := mem_map.mp (mem_dedup.mp member)
    obtain ⟨inInitial, present⟩ := mem_filter.mp inNodes
    obtain ⟨listed, inList, sameKey, -⟩ := accounted v inInitial present
    exact mem_map.mpr ⟨listed, inList, sameKey⟩
  have shorter := (subperm_of_subset (nodup_dedup _) subset).length_le
  rwa [length_map] at shorter

end Run

def debugTaskGraph : ContentGraph :=
  { nodes := Dict.ofList
      [("task",
        { nodeType := .task, filePath := "site.yml", lineStart := 1, lineEnd := 3
          yamlLines := "- debug:\n    msg: a\n    var: b\n".toList })] }

/-- The same rule is reported on two lines of the task, and once outside the graph. -/
def debugFindings : List Violation :=
  [{ ruleId := "L031", path := "task", file := "site.yml", line := .one 2 },
   { ruleId := "L031", path := "task", file := "site.yml", line := .one 3 },
   { ruleId := "L031", path := "roles/web", file := "site.yml", line := .one 9 }]

def scanOnlyConfig : EngineConfig := { registry := fun _ => none }

theorem debugFindings_keys_listed :
    ∃ s fixReport,
      remediate scanOnlyConfig {} debugTaskGraph (some debugFindings) = .ok (s, fixReport) ∧
        (nodeKeys debugTaskGraph debugFindings).length ≤ (listedFindings {} s fixReport).length :=
  ⟨_, _, rfl, (remediate_lists_keys scanOnlyConfig {} debugTaskGraph debugFindings _ _ rfl).2⟩

/-- Of three findings that differ in their lines one is listed; of the two on
the task it is the last one. -/
theorem debugFindings_lost :
    Holds
      (fun ended =>
        debugFindings.Nodup ∧
        (listedFindings {} ended.1 ended.2).map (fun v => (v.path, v.line)) = [("task", .one 3)] ∧
        ¬ ∀ v ∈ debugFindings, ∃ listed ∈ listedFindings {} ended.1 ended.2, SameFinding v listed)
      (fun _ => False)
      (remediate scanOnlyConfig {} debugTaskGraph (some debugFindings)) := by
  decide

end Apme.Remediation
