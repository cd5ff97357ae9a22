import Mathlib.Data.List.Dedup
import Mathlib.Data.List.Perm.Subperm
import Mathlib.Logic.Relation
import Mathlib.Data.Set.Card

/-!
# Worklists and pre-order walks

A worklist pops an item, adds its successors that were not seen before to what
is seen, and pushes them.  With fuel for every push it ends with an empty list,
and then it has seen exactly what can be reached in one step or more.

The walk of a list of nodes is, for each of them in turn, the node and the walk
of its children.  Without cycles and with finitely many edges every node has a
walk and lies below a node that is nobody's child.
-/

set_option autoImplicit false

namespace Apme.Lib

open List

section Worklist

variable {α : Type} [DecidableEq α] (next : α → List α)

/-- The successors of an item that were not seen before. -/
def unseen (current : α) (seen : List α) : List α :=
  ((next current).filter fun item => item ∉ seen).dedup

def worklist : Nat → List α → List α → List α
  | 0, _, seen => seen
  | _ + 1, [], seen => seen
  | fuel + 1, current :: stack, seen =>
    worklist fuel ((unseen next current seen).reverse ++ stack) (seen ++ unseen next current seen)

variable {next}

theorem mem_unseen_iff (current x : α) (seen : List α) :
    x ∈ unseen next current seen ↔ x ∈ next current ∧ x ∉ seen := by
  simp [unseen]

/-- Reachable in one step or more. -/
def Leads (next : α → List α) : α → α → Prop := Relation.TransGen fun a b => b ∈ next a

omit [DecidableEq α] in
/-- Where every step raises a rank, nothing leads back. -/
theorem not_leads_of_rank {next : α → List α} (rank : α → Nat)
    (rises : ∀ a, ∀ b ∈ next a, rank a < rank b) (a : α) : ¬ Leads next a a := by
  have higher : ∀ b, Leads next a b → rank a < rank b := by
    intro b leads
    induction leads with
    | single step => exact rises _ _ step
    | tail _ step ih => exact Nat.lt_trans ih (rises _ _ step)
  exact fun cycle => Nat.lt_irrefl _ (higher a cycle)

/-- What is on the stack or seen can be reached, or was marked at the start, and
whatever has left the stack has all its successors seen. -/
structure Searched (next : α → List α) (root : α) (start stack seen : List α) : Prop where
  reached : ∀ item ∈ seen, item ∈ start ∨ Leads next root item
  known : ∀ item ∈ stack, item = root ∨ item ∈ seen
  expanded : ∀ item, item = root ∨ item ∈ seen →
    item ∈ stack ∨ ∀ successor ∈ next item, successor ∈ seen

omit [DecidableEq α] in
theorem Searched.start {root : α} {start : List α} (own : start <+ [root]) :
    Searched next root start [root] start where
  reached := fun _ => .inl
  known := by simp
  expanded := by
    intro x hR
    left
    exact mem_singleton.mpr (hR.elim id fun mem => mem_singleton.mp (own.subset mem))

theorem Searched.step {root current : α} {start stack seen : List α} (own : start <+ [root])
    (hse : Searched next root start (current :: stack) seen) :
    Searched next root start ((unseen next current seen).reverse ++ stack)
      (seen ++ unseen next current seen) where
  reached := by
    intro x mem
    rcases mem_append.mp mem with hbe | hf
    · exact hse.reached x hbe
    · right
      have hs := ((mem_unseen_iff current x seen).mp hf).1
      rcases hse.known current mem_cons_self with rfl | hb
      · exact .single hs
      · rcases hse.reached current hb with hm | hle
        · exact .single (mem_singleton.mp (own.subset hm) ▸ hs)
        · exact hle.tail hs
  known := by
    intro x mem
    rcases mem_append.mp mem with hf | hw
    · exact .inr (mem_append_right _ (mem_reverse.mp hf))
    · exact (hse.known x (mem_cons_of_mem current hw)).imp_right (mem_append_left _)
  expanded := by
    intro x mem
    by_cases hf : x ∈ unseen next current seen
    · exact .inl (mem_append_left _ (mem_reverse.mpr hf))
    have hbe : x = root ∨ x ∈ seen := by
      refine mem.imp_right fun his => ?_
      exact (mem_append.mp his).resolve_right hf
    rcases hse.expanded x hbe with hw | hd
    · rcases mem_cons.mp hw with rfl | hl
      · right
        intro hs hfo
        by_cases hb : hs ∈ seen
        · exact mem_append_left _ hb
        · exact mem_append_right _ ((mem_unseen_iff x hs seen).mpr ⟨hfo, hb⟩)
      · exact .inl (mem_append_right _ hl)
    · exact .inr fun hs hfo => mem_append_left _ (hd hs hfo)

omit [DecidableEq α] in
theorem Searched.complete {root item : α} {start seen : List α}
    (hs : Searched next root start [] seen) (new : item ∉ start) :
    item ∈ seen ↔ Leads next root item := by
  have hc : ∀ item, item = root ∨ item ∈ seen → ∀ successor ∈ next item, successor ∈ seen :=
    fun item mem => (hs.expanded item mem).resolve_left not_mem_nil
  refine ⟨fun mem => (hs.reached item mem).resolve_left new, fun hl => ?_⟩
  clear new
  induction hl with
  | single first => exact hc root (.inl rfl) _ first
  | tail _ last ih => exact hc _ (.inr ih) _ last

theorem worklist_searched {root : α} {start whole : List α} (own : start <+ [root])
    (hb : ∀ x, next x ⊆ whole) (fuel : Nat) (stack seen : List α)
    (hs : Searched next root start stack seen) (hn : seen.Nodup) (hw : seen ⊆ whole)
    (he : stack.length + whole.length ≤ fuel + seen.length) :
    Searched next root start [] (worklist next fuel stack seen) := by
  induction fuel generalizing stack seen with
  | zero =>
    have hf : seen.length ≤ whole.length := (subperm_of_subset hn hw).length_le
    have hem : stack = [] := length_eq_zero_iff.mp (by omega)
    subst hem
    exact hs
  | succ fuel ih =>
    cases stack with
    | nil => exact hs
    | cons current stack =>
      have hi : unseen next current seen ⊆ whole := fun x hfr =>
        hb current ((mem_unseen_iff current x seen).mp hfr).1
      refine ih _ _ (hs.step own) ?_ ?_ ?_
      · refine hn.append (nodup_dedup _) ?_
        intro x old hfr
        exact ((mem_unseen_iff current x seen).mp hfr).2 old
      · exact append_subset.mpr ⟨hw, hi⟩
      · simp only [length_append, length_reverse, length_cons] at he ⊢
        omega

/-- The root may be marked as seen before the search. -/
theorem mem_worklist_iff {start whole : List α} (hb : ∀ item, next item ⊆ whole)
    (root : α) (fuel : Nat) (he : whole.length + 1 ≤ fuel) (own : start <+ [root]) {item : α}
    (new : item ∉ start) : item ∈ worklist next fuel [root] start ↔ Leads next root item := by
  refine (worklist_searched own (fun item => ?_) fuel [root] start (.start own)
    (own.nodup (nodup_singleton _)) (subset_append_left start whole) ?_).complete new
  · exact subset_append_of_subset_right _ (hb item)
  · simp only [length_append, length_singleton]
    omega

end Worklist

open Relation

variable {α : Type} (children : α → List α)

inductive Walks : List α → List α → Prop
  | nil : Walks [] []
  | cons {node : α} {rest below later : List α} : Walks (children node) below → Walks rest later →
      Walks (node :: rest) (node :: below ++ later)

/-- The neighbours in a list, in order. -/
def consecutive (items : List α) : List (α × α) := items.zip items.tail

theorem consecutive_append (old : List α) (item : α) (new : List α) :
    consecutive (old ++ item :: new) = consecutive (old ++ [item]) ++ consecutive (item :: new) := by
  induction old with
  | nil => simp [consecutive]
  | cons first rest ih => cases rest <;> simp_all [consecutive]

variable {children}

theorem Walks.unique {nodes walk o : List α} (hw : Walks children nodes walk)
    (ha : Walks children nodes o) : o = walk := by
  induction hw generalizing o with
  | nil =>
    cases ha
    rfl
  | cons _ _ below later =>
    cases ha with
    | cons first hs => rw [below first, later hs]

theorem Walks.mem {nodes walk : List α} (hw : Walks children nodes walk) {n o : α}
    (hl : ReflTransGen (fun a b => b ∈ children a) n o) (mem : n ∈ nodes) :
    o ∈ walk := by
  induction hw generalizing n with
  | nil => cases mem
  | cons _ _ below later =>
    rcases mem_cons.mp mem with rfl | mem
    · rcases hl.cases_head with rfl | ⟨child, hC, hl⟩
      · exact mem_cons_self
      · exact mem_cons_of_mem _ (mem_append_left _ (below hl hC))
    · exact mem_cons_of_mem _ (mem_append_right _ (later hl mem))

theorem wellFounded_of_acyclic {step : α → α → Prop} (ha : ∀ a, ¬ TransGen step a a)
    (hf : {a | ∃ b, step a b}.Finite) : WellFounded step := by
  have hb : ∀ b, {a | TransGen step a b}.Finite := by
    refine fun b => hf.subset fun a hl => ?_
    obtain ⟨c, first, _⟩ := TransGen.head'_iff.mp hl
    exact ⟨c, first⟩
  refine Subrelation.wf (fun {a b} ht => ?_) (InvImage.wf (fun b => {a | TransGen step a b}.ncard) wellFounded_lt)
  exact Set.ncard_lt_ncard ⟨fun c hl => hl.tail ht, fun all => ha a (all (.single ht))⟩ (hb b)

section Acyclic

variable (acyclic : ∀ node, ¬ Leads children node node)
include acyclic

theorem exists_walk (hfi : {n | ∃ par, n ∈ children par}.Finite) (nodes : List α) :
    ∃ walk, Walks children nodes walk := by
  have hj : ∀ nodes : List α, (∀ n ∈ nodes, ∃ walk, Walks children (children n) walk) →
      ∃ walk, Walks children nodes walk := by
    intro nodes he
    induction nodes with
    | nil => exact ⟨[], .nil⟩
    | cons n rest ih =>
      rw [forall_mem_cons] at he
      obtain ⟨below, hb⟩ := he.1
      obtain ⟨later, hl⟩ := ih he.2
      exact ⟨_, .cons hb hl⟩
  have hf := wellFounded_of_acyclic (fun n hle => acyclic n (transGen_swap.mp hle)) hfi
  exact hj nodes fun n _ => hf.induction n fun n ih => hj _ ih

theorem exists_root (hf : {node | ∃ child, child ∈ children node}.Finite) (node : α) :
    ∃ root, (∀ par, root ∉ children par) ∧ ReflTransGen (fun a b => b ∈ children a) root node := by
  induction node using (wellFounded_of_acyclic acyclic hf).induction with
  | _ node ih =>
    by_cases root : ∀ par, node ∉ children par
    · exact ⟨node, root, .refl⟩
    · obtain ⟨par, hc⟩ := not_forall_not.mp root
      obtain ⟨root, hR, hl⟩ := ih par hc
      exact ⟨root, hR, hl.tail hc⟩

end Acyclic

end Apme.Lib
