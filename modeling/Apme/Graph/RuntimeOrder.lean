import Apme.Graph.Queries

/-!
# The order of runtime producers

Producers of one variable are taken in layers: a layer has those that no other
remaining producer reaches along execution steps.  If no producer is left in a
layer, the steps have a cycle and all that remain are taken at once.
-/

set_option autoImplicit false

namespace Apme.Graph

open Apme.Lib List Relation

/-- The execution successors as pairs, and the nodes a search may visit. -/
structure RuntimeScope where
  steps : List (String × String)
  scope : Option (List String)

namespace RuntimeScope

variable (r : RuntimeScope)

def inScope (id : String) : Bool := r.scope.all (id ∈ ·)

def scopedSuccessors (current : String) : List String :=
  ((r.steps.filter (·.1 = current)).map Prod.snd).filter r.inScope

/-- The search of `_execution_reaches`, which ends at the target. -/
def reachesLoop (r : RuntimeScope) (targetId : String) : Nat → List String → List String → Bool
  | 0, _, _ => false
  | _ + 1, [], _ => false
  | fuel + 1, current :: pending, seen =>
    targetId ∈ r.scopedSuccessors current ||
      reachesLoop r targetId fuel ((unseen r.scopedSuccessors current seen).reverse ++ pending)
        (seen ++ unseen r.scopedSuccessors current seen)

def executionReaches (sourceId targetId : String) : Bool :=
  sourceId ≠ targetId && r.inScope sourceId && r.inScope targetId &&
    r.reachesLoop targetId (r.steps.length + 1) [sourceId] [sourceId]

def earliest (remaining : List String) : List String :=
  sortIds (remaining.filter fun sourceId =>
    !remaining.any fun otherId => otherId ≠ sourceId && r.executionReaches otherId sourceId)

/-- What a round takes; a cycle must not stop the loop. -/
def layer (remaining : List String) : List String :=
  if r.earliest remaining = [] then sortIds remaining else r.earliest remaining

def orderLoop (r : RuntimeScope) : Nat → List String → List String
  | 0, _ => []
  | fuel + 1, remaining =>
    if remaining = [] then []
    else
      r.layer remaining ++ orderLoop r fuel (remaining.filter (· ∉ r.layer remaining))

def orderRuntimeSources (sourceIds : List String) : List String :=
  r.orderLoop sourceIds.length sourceIds

/-- A path of execution steps inside the scope. -/
def Precedes : String → String → Prop := Leads r.scopedSuccessors

variable {r} {remaining : List String}

theorem subset_worklist {next : String → List String} (fuel : Nat) (stack seen : List String) :
    seen ⊆ worklist next fuel stack seen := by
  fun_induction worklist next fuel stack seen with
  | case1 | case2 => exact Subset.refl _
  | case3 _ _ _ _ ih => exact Subset.trans (subset_append_left ..) ih

theorem reachesLoop_iff {targetId : String} (fuel : Nat) (stack seen : List String)
    (new : targetId ∉ seen) : r.reachesLoop targetId fuel stack seen ↔
      targetId ∈ worklist r.scopedSuccessors fuel stack seen := by
  fun_induction r.reachesLoop targetId fuel stack seen with
  | case1 | case2 => simpa [worklist] using new
  | case3 fuel current pending seen ih =>
    rw [worklist, Bool.or_eq_true, decide_eq_true_eq]
    by_cases hf : targetId ∈ r.scopedSuccessors current
    · refine iff_of_true (.inl hf) (subset_worklist _ _ _ (mem_append_right _ ?_))
      exact (mem_unseen_iff ..).mpr ⟨hf, new⟩
    · rw [ih (by simp [mem_unseen_iff, hf, new])]
      simp [hf]

theorem executionReaches_iff {sourceId targetId : String} : r.executionReaches sourceId targetId ↔
    sourceId ≠ targetId ∧ r.inScope sourceId ∧ r.inScope targetId ∧
      r.Precedes sourceId targetId := by
  have hb : ∀ id, r.scopedSuccessors id ⊆ r.steps.map Prod.snd := fun id =>
    Subset.trans filter_sublist.subset (map_subset _ filter_sublist.subset)
  by_cases hs : sourceId = targetId
  · simp [executionReaches, hs]
  have new : targetId ∉ [sourceId] := by simpa using Ne.symm hs
  rw [Precedes, ← mem_worklist_iff hb sourceId (r.steps.length + 1) (by simp) (.refl _) new,
    ← reachesLoop_iff _ _ _ new]
  simp [executionReaches, and_assoc]

theorem mem_earliest {id : String} : id ∈ r.earliest remaining ↔
    id ∈ remaining ∧ ∀ o ∈ remaining, o ≠ id → ¬r.executionReaches o id := by
  simp [earliest, sortIds, mem_insertionSort]

theorem layer_subset : r.layer remaining ⊆ remaining := by
  intro id mem
  rw [layer] at mem
  split at mem
  · exact (mem_insertionSort _).mp mem
  · exact (mem_earliest.mp mem).1

theorem nodup_layer (hn : remaining.Nodup) : (r.layer remaining).Nodup := by
  rw [layer]
  split
  · exact (perm_insertionSort _ _).nodup_iff.mpr hn
  · exact (perm_insertionSort _ _).nodup_iff.mpr (hn.filter _)

theorem layer_ne_nil (some : remaining ≠ []) : r.layer remaining ≠ [] := by
  rw [layer]
  split
  · obtain ⟨id, mem⟩ := exists_mem_of_ne_nil _ some
    exact ne_nil_of_mem ((mem_insertionSort _).mpr mem)
  · assumption

/-- Every round takes a producer, and what it takes is left out of the next one. -/
theorem orderLoop_perm {fuel : Nat} (he : remaining.length ≤ fuel) (nodup : remaining.Nodup) :
    (r.orderLoop fuel remaining).Perm remaining := by
  induction fuel generalizing remaining with
  | zero =>
    rw [length_eq_zero_iff.mp (Nat.le_zero.mp he)]
    rfl
  | succ fuel ih =>
    rw [orderLoop]
    split
    next hem => rw [hem]
    next some =>
      have ht : (r.layer remaining).Perm
          (remaining.filter (· ∈ r.layer remaining)) := by
        refine (perm_ext_iff_of_nodup (nodup_layer nodup) (nodup.filter _)).mpr fun id => ?_
        simpa using fun mem => layer_subset mem
      have split := filter_append_perm (· ∈ r.layer remaining) remaining
      have hpos := length_pos_of_ne_nil (show r.layer remaining ≠ [] from layer_ne_nil some)
      have hl := split.length_eq
      rw [length_append, ← ht.length_eq] at hl
      simp only [← decide_not] at split hl
      exact (ht.append (ih (by omega) (nodup.filter _))).trans split

theorem orderLoop_subset (r : RuntimeScope) (fuel : Nat) (remaining : List String) :
    r.orderLoop fuel remaining ⊆ remaining := by
  fun_induction r.orderLoop fuel remaining with
  | case1 | case2 => exact nil_subset _
  | case3 _ _ _ ih => exact append_subset.mpr ⟨layer_subset, Subset.trans ih filter_sublist.subset⟩

section

variable (acyclic : ∀ id, ¬r.Precedes id id)
include acyclic

theorem earliest_ne_nil (some : remaining ≠ []) : r.earliest remaining ≠ [] := by
  have hf : {id | ∃ next, next ∈ r.scopedSuccessors id}.Finite :=
    (r.steps.map Prod.fst).finite_toSet.subset fun id ⟨next, mem⟩ => by
      simp [scopedSuccessors] at mem ⊢
      exact ⟨next, mem.1⟩
  obtain ⟨id, mem, hl⟩ := (wellFounded_of_acyclic acyclic hf).transGen.has_min
    {id | id ∈ remaining} (exists_mem_of_ne_nil _ some)
  refine ne_nil_of_mem (mem_earliest.mpr ⟨mem, fun o hi _ hr => ?_⟩)
  exact hl o hi (executionReaches_iff.mp hr).2.2.2

theorem layer_unreached (hi : ∀ id ∈ remaining, r.inScope id) {id o : String}
    (mem : id ∈ r.layer remaining) (hl : o ∈ remaining) :
    ¬r.Precedes o id := by
  rw [layer, if_neg (earliest_ne_nil acyclic (ne_nil_of_mem hl)), mem_earliest] at mem
  by_cases hs : o = id
  · exact hs ▸ acyclic o
  · exact fun hp => mem.2 o hl hs
      (executionReaches_iff.mpr ⟨hs, hi o hl, hi id mem.1, hp⟩)

theorem orderLoop_pairwise (fuel : Nat) (hi : ∀ id ∈ remaining, r.inScope id) :
    (r.orderLoop fuel remaining).Pairwise fun earlier later => ¬r.Precedes later earlier := by
  fun_induction r.orderLoop fuel remaining with
  | case1 | case2 => exact .nil
  | case3 fuel remaining _ ih =>
    have rest := r.orderLoop_subset fuel (remaining.filter (· ∉ r.layer remaining))
    refine pairwise_append.mpr ⟨pairwise_of_forall_mem_list fun id mem o hl => ?_,
      ih fun id mem => hi id (mem_of_mem_filter mem), fun id mem o hl => ?_⟩
    · exact layer_unreached acyclic hi mem (layer_subset hl)
    · exact layer_unreached acyclic hi mem (mem_of_mem_filter (rest hl))

end

/-- Producers that precede each other along a cycle are still listed once. -/
theorem orderRuntimeSources_spec (r : RuntimeScope) (sourceIds : List String)
    (distinct : sourceIds.Nodup) (inside : ∀ id ∈ sourceIds, r.inScope id) :
    (r.orderRuntimeSources sourceIds).Perm sourceIds ∧
      ((∀ id, ¬r.Precedes id id) → (r.orderRuntimeSources sourceIds).Pairwise
        fun earlier later => ¬r.Precedes later earlier) :=
  ⟨orderLoop_perm le_rfl distinct, fun acyclic => orderLoop_pairwise acyclic _ inside⟩

/-- A build that is fetched, made and deployed. -/
def release : RuntimeScope :=
  ⟨[("fetch", "build"), ("build", "deploy"), ("fetch", "deploy")], none⟩

theorem release_ordered :
    release.orderRuntimeSources ["deploy", "fetch", "build"] = ["fetch", "build", "deploy"] ∧
      (release.orderRuntimeSources ["deploy", "fetch", "build"]).Pairwise
        fun earlier later => ¬release.Precedes later earlier := by
  have ranked : ∀ pair ∈ release.steps,
      ["fetch", "build", "deploy"].idxOf pair.1 < ["fetch", "build", "deploy"].idxOf pair.2 := by
    decide
  have acyclic : ∀ id, ¬release.Precedes id id := by
    refine not_leads_of_rank (["fetch", "build", "deploy"].idxOf ·) ?_
    intro id next isNext
    obtain ⟨pair, isPair, rfl⟩ := mem_map.mp (mem_of_mem_filter isNext)
    obtain ⟨listed, leads⟩ := mem_filter.mp isPair
    rw [← of_decide_eq_true leads]
    exact ranked pair listed
  exact ⟨by decide, (orderRuntimeSources_spec release _ (by decide) (by decide)).2 acyclic⟩

end RuntimeScope

end Apme.Graph
