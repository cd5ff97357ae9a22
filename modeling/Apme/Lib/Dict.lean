import Mathlib.Data.List.Nodup

/-!
# Insertion-ordered dictionaries

A dictionary that iterates over its keys in the order of their first insertion,
as the builtin dictionary of the host language does: assigning to a present key
replaces the value in place, assigning to a new key appends.  The keys are
pairwise different by construction.
-/

set_option autoImplicit false

namespace Apme.Lib

open List

structure Dict (κ ν : Type) where
  entries : List (κ × ν)
  nodup : (entries.map Prod.fst).Nodup
  deriving DecidableEq

namespace Dict

variable {κ ν : Type}

def empty : Dict κ ν := ⟨[], nodup_nil⟩

variable (d : Dict κ ν)

def keys : List κ := d.entries.map Prod.fst

variable (d : Dict κ ν)

theorem nodup_keys : d.keys.Nodup := d.nodup

def values : List ν := d.entries.map Prod.snd

/-- Replace every value by a function of its key and itself. -/
def update (f : κ → ν → ν) : Dict κ ν where
  entries := d.entries.map fun entry => (entry.1, f entry.1 entry.2)
  nodup := by
    have sameKeys : (d.entries.map fun entry => (entry.1, f entry.1 entry.2)).map Prod.fst =
        d.entries.map Prod.fst := by
      simp [map_map, Function.comp_def]
    rw [sameKeys]
    exact d.nodup

theorem keys_update (f : κ → ν → ν) : (d.update f).keys = d.keys := by
  simp [keys, update, map_map, Function.comp_def]

theorem values_update (f : κ → ν → ν) :
    (d.update f).values = d.entries.map fun e => f e.1 e.2 := by
  simp [values, update, map_map, Function.comp_def]

theorem update_update (f h : κ → ν → ν) :
    (d.update f).update h = d.update fun k v => h k (f k v) := by
  simp [update, map_map, Function.comp_def]

/-- The entries whose keys pass the test. -/
def filterKeys (keep : κ → Bool) : Dict κ ν where
  entries := d.entries.filter fun entry => keep entry.1
  nodup := d.nodup.sublist (filter_sublist.map Prod.fst)

variable [DecidableEq κ] (key : κ)

def get? : Option ν := d.entries.lookup key

def modify (f : ν → ν) : Dict κ ν :=
  d.update fun other value => if other = key then f value else value

variable (value : ν)

/-- Assignment `d[key] = value`. -/
def insert : Dict κ ν :=
  if present : key ∈ d.keys then
    d.modify key fun _ => value
  else
    { entries := d.entries ++ [(key, value)]
      nodup := by
        rw [map_append, nodup_append]
        refine ⟨d.nodup, nodup_singleton key, ?_⟩
        intro old oldIn new newIn same
        rw [map_singleton, mem_singleton] at newIn
        rw [same, newIn] at oldIn
        exact present oldIn }

def ofList (pairs : List (κ × ν)) : Dict κ ν :=
  pairs.foldl (fun d pair => d.insert pair.1 pair.2) empty

@[simp]
theorem keys_modify (f : ν → ν) : (d.modify key f).keys = d.keys := keys_update d _

omit [DecidableEq κ] in
theorem mem_of_lookup [BEq κ] [LawfulBEq κ] {pairs : List (κ × ν)} {k : κ} {v : ν}
    (hf : pairs.lookup k = some v) : (k, v) ∈ pairs := by
  obtain ⟨front, b, rfl, -⟩ := List.lookup_eq_some_iff.mp hf
  exact mem_append_right _ mem_cons_self

variable (pairs : List (κ × ν))

theorem lookup_eq_some_iff (hn : (pairs.map Prod.fst).Nodup)
    (k : κ) (v : ν) : pairs.lookup k = some v ↔ (k, v) ∈ pairs := by
  induction pairs with
  | nil => simp
  | cons pair rest ih =>
    rcases pair with ⟨first, txt⟩
    rw [map_cons, nodup_cons] at hn
    by_cases hs : k = first
    · subst hs
      have ha : (k, v) ∉ rest := by
        intro mem
        exact absurd (mem_map_of_mem (f := Prod.fst) mem) hn.1
      simp only [lookup_cons, beq_self_eq_true, Option.some.injEq, mem_cons,
        Prod.mk.injEq, true_and, ha, or_false]
      exact eq_comm
    · have hd : (k == first) = false := beq_false_of_ne hs
      simp only [lookup_cons, hd, mem_cons, Prod.mk.injEq, hs, false_and, false_or]
      exact ih hn.2

theorem get?_eq_some_iff : d.get? key = some value ↔ (key, value) ∈ d.entries :=
  lookup_eq_some_iff d.entries d.nodup key value

theorem get?_eq_none_iff : d.get? key = none ↔ key ∉ d.keys := by
  constructor
  · intro hg here
    obtain ⟨⟨first, v⟩, hm, rfl⟩ := mem_map.mp here
    rw [(get?_eq_some_iff d first v).mpr hm] at hg
    cases hg
  · intro ha
    cases hf : d.get? key with
    | none => rfl
    | some v =>
      have hm := (get?_eq_some_iff d key v).mp hf
      exact absurd (mem_map_of_mem (f := Prod.fst) hm) ha

theorem mem_keys_iff : key ∈ d.keys ↔ ∃ value, d.get? key = some value := by
  rw [← Option.isSome_iff_exists, ← Option.ne_none_iff_isSome, ne_eq, get?_eq_none_iff, not_not]

theorem mem_values_iff : value ∈ d.values ↔ ∃ k, d.get? k = some value := by
  constructor
  · intro mem
    obtain ⟨⟨k, t⟩, hi, rfl⟩ := mem_map.mp mem
    exact ⟨k, (get?_eq_some_iff d k t).mpr hi⟩
  · rintro ⟨k, hf⟩
    exact mem_map_of_mem (f := Prod.snd) ((get?_eq_some_iff d k value).mp hf)

@[simp]
theorem get?_empty : (empty : Dict κ ν).get? key = none := rfl

theorem lookup_map_value (f : κ → ν → ν) (k : κ) :
    (pairs.map fun e => (e.1, f e.1 e.2)).lookup k = (pairs.lookup k).map (f k) := by
  induction pairs with
  | nil => rfl
  | cons e rest ih =>
    rcases e with ⟨first, txt⟩
    by_cases hs : k = first
    · simp [hs]
    · have hd : (k == first) = false := beq_false_of_ne hs
      simp only [map_cons, lookup_cons, hd]
      exact ih

section

variable (d : Dict κ ν)

@[simp]
theorem get?_update (f : κ → ν → ν) (k : κ) : (d.update f).get? k = (d.get? k).map (f k) :=
  lookup_map_value d.entries f k

theorem update_eq_update_iff (f h : κ → ν → ν) :
    d.update f = d.update h ↔ ∀ k value, d.get? k = some value → f k value = h k value := by
  have hs : d.update f = d.update h ↔ ∀ e ∈ d.entries,
      (e.1, f e.1 e.2) = (e.1, h e.1 e.2) := by
    rw [← map_inj_left, Dict.mk.injEq]
    exact Iff.rfl
  rw [hs]
  constructor
  · intro he k value hf
    exact (Prod.mk.inj (he (k, value) ((get?_eq_some_iff d k value).mp hf))).2
  · intro he e mem
    rw [he e.1 e.2 ((get?_eq_some_iff d e.1 e.2).mpr mem)]

variable (key other : κ) (f : ν → ν)

theorem get?_modify : (d.modify key f).get? other =
      if other = key then (d.get? key).map f else d.get? other := by
  rw [modify, get?_update]
  by_cases hs : other = key
  · subst hs
    simp
  · simp [hs]

@[simp]
theorem get?_modify_self : (d.modify key f).get? key = (d.get? key).map f := by
  simp [get?_modify]

theorem get?_modify_ne (hd : other ≠ key) : (d.modify key f).get? other = d.get? other := by
  simp [get?_modify, hd]

variable (value : ν)

theorem get?_insert :
    (d.insert key value).get? other = if other = key then some value else d.get? other := by
  unfold insert
  split
  next here =>
    rw [get?_modify]
    obtain ⟨old, hf⟩ := (mem_keys_iff d key).mp here
    simp [hf]
  next ha =>
    have hg := (get?_eq_none_iff d key).mpr ha
    unfold get? at hg ⊢
    rw [lookup_append]
    by_cases hs : other = key
    · subst hs
      simp [hg]
    · simp [hs, lookup_cons, beq_false_of_ne hs]

theorem mem_keys_insert : other ∈ (d.insert key value).keys ↔ other = key ∨ other ∈ d.keys := by
  rw [mem_keys_iff, get?_insert, mem_keys_iff]
  by_cases hs : other = key <;> simp [hs]

theorem entries_insert_of_notMem {k : κ} (ha : k ∉ d.keys) :
    (d.insert k value).entries = d.entries ++ [(k, value)] := by
  rw [insert, dif_neg ha]

end

theorem entries_ofList (hn : (pairs.map Prod.fst).Nodup) : (ofList pairs).entries = pairs := by
  have hg : ∀ d : Dict κ ν, (d.keys ++ pairs.map Prod.fst).Nodup →
      (pairs.foldl (fun d pair => d.insert pair.1 pair.2) d).entries = d.entries ++ pairs := by
    induction pairs with
    | nil => simp
    | cons pair rest ih =>
      intro d hf
      have ha : pair.1 ∉ d.keys := by
        intro here
        exact (nodup_append.mp hf).2.2 pair.1 here pair.1 mem_cons_self rfl
      have hi := d.entries_insert_of_notMem pair.2 ha
      rw [foldl_cons, ih (nodup_cons.mp hn).2, hi, append_assoc]
      · rfl
      · rw [keys, hi, map_append, append_assoc]
        exact hf
  exact hg empty hn

theorem ofList_entries : ofList d.entries = d := by
  have hs := entries_ofList d.entries d.nodup
  generalize ofList d.entries = restored at hs
  cases d
  cases restored
  cases hs
  rfl

theorem filter_key :
    (d.entries.filter fun e => e.1 = key) =
    ((d.get? key).map fun v => (key, v)).toList := by
  have hg : ∀ pairs : List (κ × ν), (pairs.map Prod.fst).Nodup →
      (pairs.filter fun e => e.1 = key) = ((pairs.lookup key).map fun v => (key, v)).toList := by
    intro pairs hdi
    induction pairs with
    | nil => rfl
    | cons pair rest ih =>
      rcases pair with ⟨first, txt⟩
      rw [map_cons, nodup_cons] at hdi
      by_cases hs : first = key
      · subst hs
        have none : (rest.filter fun e => e.1 = first) = [] := by
          rw [filter_eq_nil_iff]
          intro e hm he
          exact hdi.1 (mem_map.mpr ⟨e, hm, of_decide_eq_true he⟩)
        simp [none]
      · have hd : (key == first) = false := beq_false_of_ne fun he => hs he.symm
        simp only [filter_cons, hs, decide_false, Bool.false_eq_true, if_false,
          lookup_cons, hd]
        exact ih hdi.2
  exact hg d.entries d.nodup

section Accumulating

variable {α : Type}

/-- Every item gives its key a new value, made from the value so far. -/
def accumulate (key : α → κ) (step : Option ν → α → ν) (items : List α) (d : Dict κ ν) :
    Dict κ ν :=
  items.foldl (fun d item => d.insert (key item) (step (d.get? (key item)) item)) d

theorem get?_accumulate (key : α → κ) (step : Option ν → α → ν) (xs : List α) (d : Dict κ ν)
    (k : κ) :
    (accumulate key step xs d).get? k =
      (xs.filter fun x => key x = k).foldl (fun v x => some (step v x)) (d.get? k) := by
  induction xs generalizing d with
  | nil => rfl
  | cons x rest ih =>
    rw [accumulate, foldl_cons, ← accumulate, ih, get?_insert]
    by_cases hs : k = key x
    · subst hs
      simp
    · have hd : key x ≠ k := fun he => hs he.symm
      simp [hs, hd]

end Accumulating

section Grouping

variable {α : Type}

/-- `d[key].append(value)` on a dictionary whose missing values are empty lists. -/
def push (d : Dict κ (List ν)) (key : κ) (value : ν) : Dict κ (List ν) :=
  d.insert key ((d.get? key).getD [] ++ [value])

def groupBy (key : α → κ) (items : List α) : Dict κ (List α) :=
  items.foldl (fun d item => d.push (key item) item) empty

section

variable (key : α → κ) (items : List α) (d : Dict κ (List α)) (k : κ)

theorem getD_foldl_push (value : α → ν) (d : Dict κ (List ν)) :
    ((items.foldl (fun d x => d.push (key x) (value x)) d).get? k).getD [] =
      (d.get? k).getD [] ++ (items.filter fun x => key x = k).map value := by
  induction items generalizing d with
  | nil => simp
  | cons x rest ih =>
    rw [foldl_cons, ih, push, get?_insert]
    by_cases hs : k = key x
    · subst hs
      simp
    · have hd : key x ≠ k := fun he => hs he.symm
      simp [hs, hd]

theorem getD_groupBy : ((groupBy key items).get? k).getD [] = items.filter fun x => key x = k := by
  rw [groupBy, getD_foldl_push key items k fun x => x]
  simp

theorem mem_keys_foldl_push : k ∈ (items.foldl (fun d x => d.push (key x) x) d).keys ↔
      k ∈ d.keys ∨ ∃ x ∈ items, key x = k := by
  induction items generalizing d with
  | nil => simp
  | cons x rest ih =>
    rw [foldl_cons, ih, push, mem_keys_insert]
    simp only [mem_cons, exists_eq_or_imp, or_assoc]
    constructor
    · rintro (rfl | old | hl)
      · exact .inr (.inl rfl)
      · exact .inl old
      · exact .inr (.inr hl)
    · rintro (old | hs | hl)
      · exact .inr (.inl old)
      · exact .inl hs.symm
      · exact .inr (.inr hl)

theorem mem_keys_groupBy : k ∈ (groupBy key items).keys ↔ ∃ x ∈ items, key x = k := by
  rw [groupBy, mem_keys_foldl_push]
  simp [keys, empty]

end

theorem mem_groupBy_entries {key : α → κ} {xs group : List α} {k : κ}
    (mem : (k, group) ∈ (groupBy key xs).entries) :
    group = xs.filter fun x => key x = k := by
  have hf := (get?_eq_some_iff _ _ _).mpr mem
  rw [← getD_groupBy, hf, Option.getD_some]

end Grouping

end Dict

end Apme.Lib
