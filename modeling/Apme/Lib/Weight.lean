import Mathlib.Algebra.GroupWithZero.Nat
import Apme.Lib.Dict

/-!
# Dictionaries that are filled under a size limit

`putAll` assigns a list of pairs one after the other, and `weigh` adds up the
weights of the values.  The totals after the assignments can be told from the
dictionary before them: what is replaced goes off, what comes in is added.
-/

set_option autoImplicit false

namespace Apme.Lib.Dict

open List

variable {κ ν : Type} [DecidableEq κ]

omit [DecidableEq κ] in
def weigh (weight : ν → Nat) (d : Dict κ ν) : Nat := (d.values.map weight).sum

def putAll (d : Dict κ ν) (pairs : List (κ × ν)) : Dict κ ν :=
  pairs.foldl (fun d pair => d.insert pair.1 pair.2) d

variable (d : Dict κ ν)

@[simp]
theorem putAll_cons (pair : κ × ν) (rest : List (κ × ν)) :
    d.putAll (pair :: rest) = (d.insert pair.1 pair.2).putAll rest := rfl

variable (pairs : List (κ × ν))

theorem mem_keys_putAll (k : κ) :
    k ∈ (d.putAll pairs).keys ↔ k ∈ d.keys ∨ k ∈ pairs.map Prod.fst := by
  induction pairs generalizing d with
  | nil => simp [putAll]
  | cons pair rest ih => simp [ih, mem_keys_insert, or_assoc, or_left_comm]

variable (weight : ν → Nat)

theorem sum_replaced {k : κ} (value : ν) {pairs : List (κ × ν)}
    (hn : (pairs.map Prod.fst).Nodup) (here : k ∈ pairs.map Prod.fst) :
    (pairs.map fun pair => weight (if pair.1 = k then value else pair.2)).sum +
        (pairs.lookup k).elim 0 weight =
      (pairs.map fun pair => weight pair.2).sum + weight value := by
  induction pairs with
  | nil => cases here
  | cons pair rest ih =>
    rcases pair with ⟨first, txt⟩
    by_cases hs : first = k
    · have hu : (rest.map fun pair => weight (if pair.1 = k then value else pair.2)) =
          rest.map fun pair => weight pair.2 :=
        map_congr_left fun pair mem => by grind
      simp only [map_cons, sum_cons, hu, hs, if_true, lookup_cons_self, Option.elim_some]
      omega
    · have hc := ih (by grind) (by grind)
      have hd : (k == first) = false := beq_false_of_ne (Ne.symm hs)
      simp only [map_cons, sum_cons, hs, if_false, lookup_cons, hd]
      omega

theorem weigh_insert (d : Dict κ ν) (k : κ) (value : ν) :
    (d.insert k value).weigh weight + (d.get? k).elim 0 weight = d.weigh weight + weight value := by
  by_cases here : k ∈ d.keys
  · have hc := sum_replaced weight value d.nodup here
    rw [insert, dif_pos here, modify, weigh, weigh, values_update, values, map_map, map_map]
    exact hc
  · rw [(get?_eq_none_iff d k).mpr here, weigh, values, entries_insert_of_notMem d value here]
    simp [weigh, values]

theorem length_insert (k : κ) (v : ν) :
    (d.insert k v).keys.length = d.keys.length + if k ∈ d.keys then 0 else 1 := by
  by_cases here : k ∈ d.keys
  · rw [insert, dif_pos here, keys_modify, if_pos here, Nat.add_zero]
  · rw [keys, entries_insert_of_notMem d v here, if_neg here]
    simp [keys]

theorem length_le_putAll : d.keys.length ≤ (d.putAll pairs).keys.length := by
  induction pairs generalizing d with
  | nil => exact Nat.le_refl _
  | cons pair rest ih =>
    have first := length_insert d pair.1 pair.2
    have hl := ih (d.insert pair.1 pair.2)
    rw [putAll_cons]
    omega

theorem weigh_putAll (d : Dict κ ν) {pairs : List (κ × ν)} (hn : (pairs.map Prod.fst).Nodup) :
    (d.putAll pairs).weigh weight + (pairs.map fun pair => (d.get? pair.1).elim 0 weight).sum =
      d.weigh weight + (pairs.map fun pair => weight pair.2).sum := by
  induction pairs generalizing d with
  | nil => rfl
  | cons pair rest ih =>
    have hl := ih (d.insert pair.1 pair.2) (nodup_cons.mp hn).2
    have hr :
        (rest.map fun o => ((d.insert pair.1 pair.2).get? o.1).elim 0 weight) =
          rest.map fun o => (d.get? o.1).elim 0 weight :=
      map_congr_left fun o mem => by grind [get?_insert]
    have now := weigh_insert weight d pair.1 pair.2
    rw [hr] at hl
    simp only [putAll_cons, map_cons, sum_cons]
    omega

theorem length_putAll (hno : (pairs.map Prod.fst).Nodup) : (d.putAll pairs).keys.length =
      d.keys.length + ((pairs.map Prod.fst).filter fun k => k ∉ d.keys).length := by
  induction pairs generalizing d with
  | nil => rfl
  | cons pair rest ih =>
    have hn : ((rest.map Prod.fst).filter fun k => k ∉ (d.insert pair.1 pair.2).keys) =
        (rest.map Prod.fst).filter fun k => k ∉ d.keys :=
      filter_congr fun k mem => by grind [mem_keys_insert]
    rw [putAll_cons, ih _ (nodup_cons.mp hno).2, hn, length_insert, map_cons, filter_cons]
    by_cases here : pair.1 ∈ d.keys <;> simp [here]
    omega

end Apme.Lib.Dict
