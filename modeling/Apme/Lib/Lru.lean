import Apme.Lib.Dict

/-!
# Dictionaries that forget their oldest entries

An ordered dictionary used as a cache: an entry that is read or written moves to
the end, and entries are dropped from the front until a limit is met.  Nothing
here can make up an entry, so what holds of every entry is kept.
-/

set_option autoImplicit false

namespace Apme.Lib.Dict

open List

variable {κ ν : Type} [DecidableEq κ]

/-- `d[key] = value` and `d.move_to_end(key)`. -/
def renew (d : Dict κ ν) (key : κ) (value : ν) : Dict κ ν where
  entries := (d.filterKeys (· ≠ key)).entries ++ [(key, value)]
  nodup := by
    rw [map_append, nodup_append]
    refine ⟨(d.filterKeys (· ≠ key)).nodup, nodup_singleton key, ?_⟩
    intro old oldIn new newIn same
    obtain ⟨entry, member, rfl⟩ := mem_map.mp oldIn
    have differs : entry.1 ≠ key := by simpa using (mem_filter.mp member).2
    rw [map_singleton, mem_singleton] at newIn
    exact differs (same.trans newIn)

/-- `d.move_to_end(key)`, if the key is there. -/
def moveToEnd (d : Dict κ ν) (key : κ) : Dict κ ν :=
  match d.get? key with
  | none => d
  | some value => d.renew key value

/-- `d.popitem(last=False)` until at most `limit` entries are left. -/
def trim (limit : Nat) (d : Dict κ ν) : Dict κ ν where
  entries := d.entries.drop (d.entries.length - limit)
  nodup := d.nodup.sublist ((drop_sublist _ _).map Prod.fst)

variable {d : Dict κ ν}

theorem get?_renew {k o : κ} {v found : ν}
    (hit : (d.renew k v).get? o = some found) :
    (o = k ∧ found = v) ∨ d.get? o = some found := by
  obtain mem | same := mem_append.mp ((get?_eq_some_iff _ o found).mp hit)
  · exact .inr ((get?_eq_some_iff d o found).mpr (mem_filter.mp mem).1)
  · cases mem_singleton.mp same
    exact .inl ⟨rfl, rfl⟩

theorem get?_moveToEnd {k o : κ} {found : ν}
    (hit : (d.moveToEnd k).get? o = some found) : d.get? o = some found := by
  simp only [moveToEnd] at hit
  split at hit
  next => exact hit
  next v here =>
    obtain ⟨rfl, rfl⟩ | there := get?_renew hit
    · exact here
    · exact there

theorem get?_trim {limit : Nat} {k : κ} {found : ν}
    (hit : (d.trim limit).get? k = some found) : d.get? k = some found :=
  (get?_eq_some_iff d k found).mpr ((drop_sublist _ _).subset ((get?_eq_some_iff _ k found).mp hit))

/-- Every entry has this property. -/
def All (P : κ → ν → Prop) (d : Dict κ ν) : Prop := ∀ key value, d.get? key = some value → P key value

namespace All

variable {P : κ → ν → Prop} {d : Dict κ ν}

theorem empty : All P Dict.empty := by
  intro k v hf
  cases hf

theorem renew (all : All P d) {k : κ} {v : ν} (new : P k v) : All P (d.renew k v) := by
  intro o found hit
  obtain ⟨rfl, rfl⟩ | there := get?_renew hit
  · exact new
  · exact all o found there

theorem insert (all : All P d) {key : κ} {v : ν} (new : P key v) :
    All P (d.insert key v) := by
  intro o found hit
  rw [get?_insert] at hit
  split at hit
  next hs =>
    cases hit
    rw [hs]
    exact new
  next => exact all o found hit

theorem moveToEnd (all : All P d) (k : κ) : All P (d.moveToEnd k) :=
  fun o found hit => all o found (get?_moveToEnd hit)

theorem trim (all : All P d) (limit : Nat) : All P (d.trim limit) :=
  fun o found hit => all o found (get?_trim hit)

end All

end Apme.Lib.Dict
