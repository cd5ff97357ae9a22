import Mathlib.Data.List.Sort
import Mathlib.Data.List.Dedup
import Mathlib.Data.List.TakeWhile

/-!
# Stable sorting by a key

Insertion sort keeps the order of items with equal keys, and is determined by
that: two lists that are sorted by a key are the same when for every key they
have the same items in the same order.  Sorting by one key and then by another
is compared with sorting by the other one alone.  `firstBy key` keeps, of all
elements with one key, the first; a stable sort by a coarser key does not change
which one that is.
-/

set_option autoImplicit false

namespace Apme.Lib

open List

section

variable {α β : Type} [DecidableEq β] (r : α → α → Prop)

theorem filter_insertionSort [DecidableRel r] (p : α → Bool) (xs : List α)
    (hr : ∀ a b, p a → p b → r a b) :
    (xs.insertionSort r).filter p = xs.filter p := by
  have hc : (xs.filter p).Pairwise r := by
    apply pairwise_of_forall_mem_list
    intro a inA b inB
    exact hr a b (mem_filter.mp inA).2 (mem_filter.mp inB).2
  have hs : (xs.filter p).Sublist (xs.insertionSort r) := sublist_insertionSort hc filter_sublist
  have hf : (xs.filter p).Sublist ((xs.insertionSort r).filter p) := by
    simpa [filter_filter] using hs.filter p
  have hl : (xs.filter p).length = ((xs.insertionSort r).filter p).length :=
    ((perm_insertionSort r xs).filter p).length_eq.symm
  exact (hf.eq_of_length hl).symm

def firstBy (key : α → β) : List β → List α → List α
  | _, [] => []
  | seen, item :: rest =>
    if key item ∈ seen then firstBy key seen rest
    else item :: firstBy key (key item :: seen) rest

theorem mem_firstBy_iff (key : α → β) (seen : List β) (xs : List α) (item : α) :
    item ∈ firstBy key seen xs ↔
      key item ∉ seen ∧ xs.find? (fun ho => key ho = key item) = some item := by
  induction xs generalizing seen with
  | nil => simp [firstBy]
  | cons first rest ih =>
    rw [firstBy, List.find?_cons]
    by_cases hs : key first = key item
    · rw [decide_eq_true hs]
      by_cases hk : key first ∈ seen
      · rw [if_pos hk, ih]
        simp [← hs, hk]
      · rw [if_neg hk, mem_cons, ih]
        simp only [hs, mem_cons, true_or, not_true, false_and, or_false, Option.some.injEq]
        rw [← hs]
        constructor
        · intro he
          exact ⟨hk, he.symm⟩
        · intro hb
          exact hb.2.symm
    · rw [decide_eq_false hs]
      have hd : item ≠ first := fun he => hs (by rw [he])
      have ho : ¬ key item = key first := fun he => hs he.symm
      by_cases hk : key first ∈ seen
      · rw [if_pos hk, ih]
      · rw [if_neg hk, mem_cons, ih]
        simp [hd, ho]

theorem nodup_firstBy (key : α → β) (seen : List β) (xs : List α) :
    ((firstBy key seen xs).map key).Nodup := by
  induction xs generalizing seen with
  | nil => simp [firstBy]
  | cons first rest ih =>
    rw [firstBy]
    split_ifs
    · exact ih seen
    · refine nodup_cons.mpr ⟨fun hm => ?_, ih _⟩
      obtain ⟨item, hi, hk⟩ := mem_map.mp hm
      exact ((mem_firstBy_iff ..).mp hi).1 (by simp [hk])

theorem mem_firstBy_insertionSort [DecidableRel r] (key : α → β)
    (hr : ∀ a b, key a = key b → r a b) (xs : List α) (item : α) :
    item ∈ firstBy key [] (xs.insertionSort r) ↔
      xs.find? (fun o => key o = key item) = some item := by
  have hs := filter_insertionSort r (fun o => decide (key o = key item)) xs (by
    intro a b ha hb
    exact hr a b ((of_decide_eq_true ha).trans (of_decide_eq_true hb).symm))
  rw [mem_firstBy_iff, ← List.head?_filter, hs, List.head?_filter]
  simp

end

open List.Pairwise

variable {α κ ρ : Type}

section Sorting

variable [LinearOrder κ] (key : α → κ)

def sortOn (items : List α) : List α := items.insertionSort fun a b => key a ≤ key b

def SortedOn (items : List α) : Prop := items.Pairwise fun a b => key a ≤ key b

instance totalOn : Std.Total fun a b : α => key a ≤ key b := ⟨fun a b => le_total (key a) (key b)⟩

instance transOn : IsTrans α fun a b => key a ≤ key b := ⟨fun _ _ _ => le_trans⟩

variable (items : List α)

theorem sortedOn_sortOn : SortedOn key (sortOn key items) := pairwise_insertionSort _ items

theorem sortOn_perm : (sortOn key items).Perm items := perm_insertionSort _ items

theorem filter_orderedInsert (x : α) (xs : List α) (k : κ) :
    (xs.orderedInsert (fun a b => key a ≤ key b) x).filter (fun o => key o = k) =
      (x :: xs).filter fun o => key o = k := by
  rw [orderedInsert_eq_take_drop]
  by_cases hs : key x = k
  · have hsk : (xs.takeWhile fun o => decide ¬key x ≤ key o).filter
        (fun o => key o = k) = [] := by
      rw [filter_eq_nil_iff]
      intro o mem
      have ha := mem_takeWhile_imp mem
      simp only [not_le, decide_eq_true_eq] at ha ⊢
      rintro rfl
      exact absurd ha (by simp [hs])
    have hw := congrArg (List.filter fun o => decide (key o = k))
      (takeWhile_append_dropWhile (p := fun o => decide ¬key x ≤ key o) (l := xs))
    rw [filter_append, hsk, nil_append] at hw
    rw [filter_append, hsk, nil_append, filter_cons, filter_cons, hw]
  · have hd : ∀ rest : List α, (x :: rest).filter (fun o => decide (key o = k)) =
        rest.filter fun o => key o = k := by
      intro rest
      rw [filter_cons_of_neg (by simpa using hs)]
    rw [filter_append, hd, hd, ← filter_append, takeWhile_append_dropWhile]

theorem filter_sortOn (k : κ) : (sortOn key items).filter (fun x => key x = k) =
      items.filter fun x => key x = k := by
  induction items with
  | nil => rfl
  | cons x rest ih =>
    rw [sortOn, insertionSort_cons, filter_orderedInsert, filter_cons, filter_cons, ← sortOn, ih]

variable {key}

theorem SortedOn.of_sublist {xs kept : List α} (hs : SortedOn key xs)
    (sub : kept.Sublist xs) : SortedOn key kept :=
  sublist sub hs

theorem SortedOn.eq_of_classes {first second : List α} (hf : SortedOn key first)
    (hss : SortedOn key second)
    (hc : ∀ k, (first.filter fun x => key x = k) =
      second.filter fun x => key x = k) : first = second := by
  induction first generalizing second with
  | nil =>
    cases second with
    | nil => rfl
    | cons x rest => simpa using hc (key x)
  | cons x rest ih =>
    cases second with
    | nil => simpa using hc (key x)
    | cons other others =>
      have low : ∀ {a b : α} {rest others : List α}, SortedOn key (b :: others) →
          ((a :: rest).filter fun x => key x = key a) =
            ((b :: others).filter fun x => key x = key a) → key b ≤ key a := by
        intro a b rest others hso hs
        have mem : a ∈ (b :: others).filter fun x => key x = key a := by
          rw [← hs]
          simp
        rcases mem_cons.mp (mem_filter.mp mem).1 with rfl | hl
        · exact le_rfl
        · exact (pairwise_cons.mp hso).1 a hl
      have hk : key x = key other :=
        le_antisymm (low hf (hc (key other)).symm) (low hss (hc (key x)))
      have heads := hc (key x)
      rw [filter_cons_of_pos (by simp), filter_cons_of_pos (by simp [hk])] at heads
      obtain ⟨rfl, -⟩ := List.cons.inj heads
      have ht : rest = others := by
        refine ih (pairwise_cons.mp hf).2 (pairwise_cons.mp hss).2 ?_
        intro k
        have hs := hc k
        rw [filter_cons, filter_cons] at hs
        split at hs
        · exact (List.cons.inj hs).2
        · exact hs
      rw [ht]

theorem SortedOn.sortOn_eq {items : List α} (hs : SortedOn key items) :
    sortOn key items = items :=
  (sortedOn_sortOn key items).eq_of_classes hs (filter_sortOn key items)

theorem sortOn_filter (keep : α → Bool) (xs : List α) :
    sortOn key (xs.filter keep) = (sortOn key xs).filter keep := by
  refine (sortedOn_sortOn key _).eq_of_classes
    ((sortedOn_sortOn key xs).of_sublist filter_sublist) ?_
  intro k
  rw [filter_sortOn, filter_comm, ← filter_sortOn key xs, filter_comm]

end Sorting

section Grouping

variable [DecidableEq κ] (items : List κ)

/-- The different items, in the order of their first occurrences. -/
def firsts : List κ := items.reverse.dedup.reverse

theorem mem_firsts {items : List κ} {i : κ} : i ∈ firsts items ↔ i ∈ items := by
  simp [firsts]

theorem nodup_firsts : (firsts items).Nodup := nodup_reverse.mpr (nodup_dedup _)

theorem firsts_sublist : (firsts items).Sublist items := by
  have sub := (dedup_sublist items.reverse).reverse
  rwa [reverse_reverse] at sub

/-- Items with equal keys put together, in the order of the first ones. -/
def groupOn (key : α → κ) (items : List α) : List α :=
  (firsts (items.map key)).flatMap fun k => items.filter fun item => key item = k

theorem filter_flatMap_classes {key : α → κ} {part : κ → List α}
    (hp : ∀ k, ∀ x ∈ part k, key x = k) {keys : List κ} (hn : keys.Nodup) (k : κ) :
    (keys.flatMap part).filter (fun x => key x = k) = if k ∈ keys then part k else [] := by
  induction keys with
  | nil => rfl
  | cons first rest ih =>
    obtain ⟨hf, hr⟩ := nodup_cons.mp hn
    rw [flatMap_cons, filter_append, ih hr]
    by_cases hs : k = first
    · subst hs
      rw [if_neg hf, append_nil, if_pos mem_cons_self]
      exact filter_eq_self.mpr fun x mem => decide_eq_true (hp k x mem)
    · have none : (part first).filter (fun x => decide (key x = k)) = [] := by
        rw [filter_eq_nil_iff]
        intro x mem isK
        exact hs ((of_decide_eq_true isK).symm.trans (hp first x mem))
      simp [none, hs]

theorem filter_groupOn (key : α → κ) (xs : List α) (k : κ) :
    (groupOn key xs).filter (fun x => key x = k) = xs.filter fun x => key x = k := by
  have hp : ∀ k, ∀ x ∈ xs.filter (fun x => key x = k), key x = k :=
    fun k x hm => of_decide_eq_true (mem_filter.mp hm).2
  rw [groupOn, filter_flatMap_classes hp (nodup_firsts _)]
  split
  next => rfl
  next hu =>
    symm
    rw [filter_eq_nil_iff]
    intro x hm isK
    exact hu (mem_firsts.mpr (mem_map.mpr ⟨x, hm, of_decide_eq_true isK⟩))

end Grouping

section GroupSorted

variable [LinearOrder κ] {key : α → κ}

theorem sortedOn_flatMap_classes {xs : List α} {keys : List κ}
    (hi : keys.Pairwise fun a b => a ≤ b) :
    SortedOn key (keys.flatMap fun k => xs.filter fun x => key x = k) := by
  unfold SortedOn
  rw [pairwise_flatMap]
  constructor
  · intro k _
    rw [pairwise_filter]
    refine imp_of_mem ?_ (pairwise_of_forall (fun _ _ => trivial) (l := xs))
    intro a b _ _ _ isA isB
    rw [of_decide_eq_true isA, of_decide_eq_true isB]
  · refine hi.imp ?_
    intro k k' hb a inK b hk'
    rw [of_decide_eq_true (mem_filter.mp inK).2, of_decide_eq_true (mem_filter.mp hk').2]
    exact hb

theorem SortedOn.groupOn_eq {items : List α} (hs : SortedOn key items) :
    groupOn key items = items := by
  refine SortedOn.eq_of_classes ?_ hs (filter_groupOn key items)
  refine sortedOn_flatMap_classes ?_
  exact sublist (firsts_sublist _) (pairwise_map.mpr hs)

end GroupSorted

section Ties

variable [LinearOrder κ] [LinearOrder ρ] {key : α → κ} {rank : α → ρ} {R : α → α → Prop}

theorem pairwise_of_classes {xs : List α}
    (hc : ∀ r, (xs.filter fun x => rank x = r).Pairwise R) :
    xs.Pairwise fun a b => rank a = rank b → R a b := by
  induction xs with
  | nil => exact nil
  | cons x rest ih =>
    refine cons ?_ (ih fun r => ?_)
    · intro o mem hs
      have here := hc (rank x)
      rw [filter_cons_of_pos (by simp)] at here
      exact (pairwise_cons.mp here).1 o (mem_filter.mpr ⟨mem, decide_eq_true hs.symm⟩)
    · exact (hc r).sublist ((sublist_cons_self x rest).filter _)

theorem classes_of_pairwise {xs : List α}
    (ht : xs.Pairwise fun a b => rank a = rank b → R a b) (r : ρ) :
    (xs.filter fun x => rank x = r).Pairwise R := by
  rw [pairwise_filter]
  refine ht.imp ?_
  intro a b tie isA isB
  exact tie ((of_decide_eq_true isA).trans (of_decide_eq_true isB).symm)

/-- Sorting by the key first makes no difference to the keys in the order of the
ranks just when items of one rank are in the order of their keys already. -/
theorem map_sortOn_sortOn_iff (items : List α) :
    (sortOn rank (sortOn key items)).map key = (sortOn rank items).map key ↔
      items.Pairwise fun a b => rank a = rank b → key a ≤ key b := by
  constructor
  · intro hsk
    have perm : (sortOn rank (sortOn key items)).Perm (sortOn rank items) :=
      ((sortOn_perm rank _).trans (sortOn_perm key items)).trans (sortOn_perm rank items).symm
    have hr : (sortOn rank (sortOn key items)).map rank = (sortOn rank items).map rank :=
      (perm.map rank).eq_of_pairwise (fun _ _ _ _ => le_antisymm)
        (pairwise_map.mpr (sortedOn_sortOn rank _))
        (pairwise_map.mpr (sortedOn_sortOn rank _))
    have hp : (sortOn rank (sortOn key items)).map (fun x => (rank x, key x)) =
        (sortOn rank items).map fun x => (rank x, key x) := by
      rw [← zip_map', ← zip_map', hr, hsk]
    apply pairwise_of_classes
    intro r
    have hk := congrArg
      (fun pairs => (List.filter (fun pair : ρ × κ => pair.1 = r) pairs).map Prod.snd) hp
    simp only [filter_map, map_map, Function.comp_def, filter_sortOn] at hk
    have hso : ((sortOn key items).filter fun x => rank x = r).Pairwise
        fun a b => key a ≤ key b :=
      (sortedOn_sortOn key items).of_sublist filter_sublist
    rw [← pairwise_map, hk, pairwise_map] at hso
    exact hso
  · intro ht
    have hs : sortOn rank (sortOn key items) = sortOn rank items := by
      refine (sortedOn_sortOn rank _).eq_of_classes (sortedOn_sortOn rank _) ?_
      intro r
      rw [filter_sortOn, filter_sortOn, ← sortOn_filter]
      exact SortedOn.sortOn_eq (classes_of_pairwise ht r)
    rw [hs]

end Ties

end Apme.Lib
