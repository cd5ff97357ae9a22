import Apme.Lib.StableSort
import Apme.Lib.Text
import Mathlib.Order.Nat

/-!
# Looking up a project by its repository

`find_project_by_repo_url` reads the rows whose stored normal form is the one
looked for, and after them all other rows in batches, each of which begins behind
the id that the one before ended with.  A row counts by the normal form of its
own clone URL only.  Ids are keys and none is the empty text, the least one, so
the batches together are all rows.
-/

set_option autoImplicit false

namespace Apme.Gateway

open Apme.Lib List

variable {ι : Type} [LinearOrder ι] [OrderBot ι]

/-- Ids are texts of UUIDs, in the order of the database; `⊥` is the empty text. -/
structure Project (ι : Type) [LinearOrder ι] [OrderBot ι] where
  id : ι
  repoUrl : Text
  normalizedRepoUrl : Text
  branch : Text
  id_pos : ⊥ < id

structure ProjectTable (ι : Type) [LinearOrder ι] [OrderBot ι] where
  rows : List (Project ι)
  keys : (rows.map (·.id)).Nodup

def batchSize : Nat := 500

variable (normalize : Text → Text) (table : ProjectTable ι) (target repoUrl : Text)
  (branch : Option Text)

def select (cond : Project ι → Bool) : List (Project ι) := sortOn (·.id) (table.rows.filter cond)

def onBranch (p : Project ι) : Bool := branch.all (· = p.branch)

def fallback (last : ι) (p : Project ι) : Bool :=
  (p.normalizedRepoUrl = [] || p.normalizedRepoUrl ≠ target) && onBranch branch p && last < p.id

/-- The loop over the batches, with fuel. -/
def scanFallback : Nat → ι → Option (Project ι)
  | 0, _ => none
  | fuel + 1, last =>
    let batch := (select table (fallback target branch last)).take batchSize
    match batch.find? fun p => normalize p.repoUrl = target with
    | some p => some p
    | none =>
      if batch.length < batchSize then none
      else batch.getLast?.bind fun p => scanFallback fuel p.id

def findProjectByRepoUrl : Option (Project ι) :=
  let target := normalize repoUrl
  if target = [] then none
  else
    match (select table fun p => p.normalizedRepoUrl = target && onBranch branch p).find?
        fun p => normalize p.repoUrl = target with
    | some p => some p
    | none => scanFallback normalize table target branch (table.rows.length + 1) ⊥

variable {normalize table target repoUrl branch}

theorem mem_select {c : Project ι → Bool} {p : Project ι} :
    p ∈ select table c ↔ p ∈ table.rows ∧ c p := by
  rw [select, (sortOn_perm ..).mem_iff, mem_filter]

theorem pairwise_select (table : ProjectTable ι) (cond : Project ι → Bool) :
    (select table cond).Pairwise fun p q => p.id < q.id := by
  have hk : (select table cond).Pairwise fun p q => p.id ≠ q.id :=
    pairwise_map.mp (((sortOn_perm ..).map _).nodup_iff.mpr
      (table.keys.sublist (filter_sublist.map _)))
  have hs := sortedOn_sortOn (fun p : Project ι => p.id) (table.rows.filter cond)
  exact (hs.and hk).imp fun h => lt_of_le_of_ne h.1 h.2

theorem scanFallback_sound {fuel : Nat} {last : ι} {p : Project ι}
    (h : scanFallback normalize table target branch fuel last = some p) :
    p ∈ table.rows ∧ normalize p.repoUrl = target ∧ onBranch branch p := by
  induction fuel generalizing last with
  | zero => cases h
  | succ fuel ih =>
    rw [scanFallback] at h
    split at h
    case h_1 q hf =>
      cases h
      obtain ⟨hm, hc⟩ := mem_select.mp (mem_of_mem_take (mem_of_find?_eq_some hf))
      simp only [fallback, Bool.and_eq_true] at hc
      exact ⟨hm, by simpa using find?_some hf, hc.1.2⟩
    case h_2 =>
      obtain ⟨-, h⟩ := Option.ite_none_left_eq_some.mp h
      obtain ⟨q, -, hq⟩ := Option.bind_eq_some_iff.mp h
      exact ih hq

theorem scanFallback_complete {fuel : Nat} {last : ι} {p : Project ι}
    (hf : (table.rows.filter (last < ·.id)).length < fuel) (hp : p ∈ table.rows)
    (hc : fallback target branch last p) (hn : normalize p.repoUrl = target) :
    scanFallback normalize table target branch fuel last ≠ none := by
  induction fuel generalizing last with
  | zero => cases hf
  | succ fuel ih =>
    rw [scanFallback]
    split
    case h_1 => simp
    case h_2 hnone =>
      have hs := pairwise_select table (fallback target branch last)
      have hm := mem_select.mpr ⟨hp, hc⟩
      rw [← take_append_drop batchSize (select ..)] at hm hs
      rcases mem_append.mp hm with hm | hm
      · simpa [hn] using find?_eq_none.mp hnone p hm
      · -- the row stands behind the batch, which therefore is a full one
        have hl : ((select table (fallback target branch last)).take batchSize).length = batchSize := by
          have := length_pos_of_mem hm
          rw [length_drop] at this
          rw [length_take]
          omega
        have hne := ne_nil_of_length_pos (hl.symm ▸ (by decide : 0 < batchSize))
        rw [if_neg (by rw [hl]; exact lt_irrefl _), getLast?_eq_some_getLast hne, Option.bind_some]
        have hlast := (mem_select.mp (mem_of_mem_take (getLast_mem hne))).2
        have hnext := (pairwise_append.mp hs).2.2 _ (getLast_mem hne) p hm
        generalize hq : getLast _ hne = q at hlast hnext
        have hqr : q ∈ table.rows := hq ▸ (mem_select.mp (mem_of_mem_take (getLast_mem hne))).1
        simp only [fallback, Bool.and_eq_true, decide_eq_true_eq] at hlast hc
        refine ih ?_ (by simpa [fallback, hnext] using hc.1)
        calc (table.rows.filter (q.id < ·.id)).length
            = ((table.rows.filter (last < ·.id)).filter (q.id < ·.id)).length := by
              rw [filter_filter]
              congr 2
              funext r
              simpa using fun h => hlast.2.trans h
          _ < (table.rows.filter (last < ·.id)).length :=
              length_filter_lt_length_iff_exists.mpr ⟨q, by simp [hqr, hlast.2], by simp⟩
          _ ≤ fuel := Nat.le_of_lt_succ hf

/-- The row's own clone URL has the normal form, on the branch if one is given. -/
def IsProjectOf (normalize : Text → Text) (repoUrl : Text) (branch : Option Text)
    (p : Project ι) : Prop :=
  normalize p.repoUrl = normalize repoUrl ∧ ∀ b, branch = some b → p.branch = b

theorem findProjectByRepoUrl_exact (normalize : Text → Text) (table : ProjectTable ι)
    (repoUrl : Text) (branch : Option Text) :
    (∀ p, findProjectByRepoUrl normalize table repoUrl branch = some p →
      p ∈ table.rows ∧ IsProjectOf normalize repoUrl branch p) ∧
    ((findProjectByRepoUrl normalize table repoUrl branch).isSome ↔
      normalize repoUrl ≠ [] ∧ ∃ p ∈ table.rows, IsProjectOf normalize repoUrl branch p) := by
  have hb : ∀ p : Project ι, onBranch branch p ↔ ∀ b, branch = some b → p.branch = b := by
    cases branch <;> simp [onBranch, eq_comm]
  have hs : ∀ p, findProjectByRepoUrl normalize table repoUrl branch = some p →
      p ∈ table.rows ∧ IsProjectOf normalize repoUrl branch p := by
    intro p h
    obtain ⟨-, h⟩ := Option.ite_none_left_eq_some.mp h
    split at h
    case h_1 q hf =>
      cases h
      obtain ⟨hm, hc⟩ := mem_select.mp (mem_of_find?_eq_some hf)
      exact ⟨hm, by simpa using find?_some hf, (hb p).mp (Bool.and_eq_true_iff.mp hc).2⟩
    case h_2 =>
      obtain ⟨hm, hn, hc⟩ := scanFallback_sound h
      exact ⟨hm, hn, (hb p).mp hc⟩
  refine ⟨hs, ?_⟩
  constructor
  · intro h
    obtain ⟨p, hp⟩ := Option.isSome_iff_exists.mp h
    exact ⟨(Option.ite_none_left_eq_some.mp hp).1, p, hs p hp⟩
  · rintro ⟨ht, p, hm, hn, hbr⟩
    rw [Option.isSome_iff_ne_none, findProjectByRepoUrl, if_neg ht]
    split
    case h_1 => simp
    case h_2 hnone =>
      by_cases hst : p.normalizedRepoUrl = normalize repoUrl
      · have hsel := find?_eq_none.mp hnone p (mem_select.mpr ⟨hm, by simp [hst, (hb p).mpr hbr]⟩)
        simp [hn] at hsel
      · refine scanFallback_complete (Nat.lt_succ_of_le (length_filter_le ..)) hm ?_ hn
        simp [fallback, hst, (hb p).mpr hbr, p.id_pos]

/-- Host and path, in small letters. -/
def hostAndPath (url : Text) : Text :=
  ((url.dropWhile (· ≠ '/')).dropWhile (· = '/')).map Char.toLower

/-- The stored form of the first row is that of the second one's repository, the
third has none, and the last is on another branch. -/
def fourProjects : ProjectTable ℕ where
  rows :=
    [⟨4, "https://forge/org/app".toList, "forge/org/web".toList, "main".toList, by decide⟩,
      ⟨2, "https://forge/org/lib".toList, "forge/org/lib".toList, "main".toList, by decide⟩,
      ⟨3, "https://Forge/Org/Web".toList, [], "main".toList, by decide⟩,
      ⟨1, "https://forge/org/web".toList, "forge/org/web".toList, "next".toList, by decide⟩]
  keys := by decide

/-- The row without a stored form is found, the one with a stale form is not. -/
theorem fourProjects_found :
    (findProjectByRepoUrl hostAndPath fourProjects "ssh://forge/org/web".toList
        (some "main".toList)).isSome ∧
      ∀ p, findProjectByRepoUrl hostAndPath fourProjects "ssh://forge/org/web".toList
        (some "main".toList) = some p → p.id = 3 := by
  obtain ⟨sound, complete⟩ := findProjectByRepoUrl_exact hostAndPath fourProjects
    "ssh://forge/org/web".toList (some "main".toList)
  refine ⟨complete.mpr ⟨by decide, ⟨3, "https://Forge/Org/Web".toList, [], "main".toList, by decide⟩,
    by simp [fourProjects], by decide, by simp⟩, ?_⟩
  intro p found
  obtain ⟨isRow, sameUrl, sameBranch⟩ := sound p found
  have only : ∀ p ∈ fourProjects.rows, hostAndPath p.repoUrl = "forge/org/web".toList →
      p.branch = "main".toList → p.id = 3 := by
    decide
  exact only p isRow sameUrl (sameBranch _ rfl)

end Apme.Gateway
