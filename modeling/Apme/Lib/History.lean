import Mathlib.Data.List.Basic

/-!
# Bounded histories

A history that drops its oldest entry when it is full.
-/

set_option autoImplicit false

namespace Apme.Lib

open List

variable {α β : Type}

def pushBounded (cap : Nat) (history : List α) (entry : α) : List α :=
  (if cap ≤ history.length then history.tail else history) ++ [entry]

theorem map_pushBounded (f : α → β) (cap : Nat) (history : List α) (e : α) :
    (pushBounded cap history e).map f = pushBounded cap (history.map f) (f e) := by
  unfold pushBounded
  rw [map_append, length_map, map_singleton]
  split <;> simp

variable (cap : Nat)

theorem length_pushBounded (hpos : 0 < cap) (history : List α) (e : α) :
    (pushBounded cap history e).length =
      if cap ≤ history.length then history.length else history.length + 1 := by
  unfold pushBounded
  split
  · rw [length_append, length_tail, length_singleton]
    omega
  · rw [length_append, length_singleton]

section

variable (cap : Nat) (history : List α) (entry : α)

theorem getLast?_pushBounded : (pushBounded cap history entry).getLast? = some entry :=
  List.getLast?_concat

theorem pushBounded_ne_nil : pushBounded cap history entry ≠ [] := by
  simp [pushBounded]

theorem pushBounded_of_room (hr : (pushBounded cap history entry).length < cap) :
    pushBounded cap history entry = history ++ [entry] ∧ history.length < cap := by
  unfold pushBounded at hr ⊢
  split at hr
  next full =>
    rw [length_append, length_tail, length_singleton] at hr
    omega
  next hf => exact ⟨by rw [if_neg hf], by omega⟩

end

theorem foldl_pushBounded_append (hpos : 0 < cap) (base entries : List α) :
    entries.foldl (pushBounded cap) base =
      (base ++ entries).drop (base.length + entries.length - max cap base.length) := by
  induction entries generalizing base with
  | nil =>
    have fits : base.length + ([] : List α).length - max cap base.length = 0 := by
      rw [length_nil]
      omega
    rw [fits, append_nil]
    rfl
  | cons e rest ih =>
    rw [foldl_cons, ih, length_pushBounded cap hpos, pushBounded, length_cons]
    split
    next hf =>
      cases base with
      | nil =>
        rw [length_nil] at hf
        omega
      | cons oldest l =>
        rw [length_cons] at hf ⊢
        have hr : l.length + 1 + rest.length - max cap (l.length + 1) = rest.length := by omega
        have hn : l.length + 1 + (rest.length + 1) - max cap (l.length + 1) =
            rest.length + 1 := by omega
        rw [hr, hn, tail_cons, append_assoc]
        rfl
    next hr =>
      have hs : base.length + 1 + rest.length - max cap (base.length + 1) =
          base.length + (rest.length + 1) - max cap base.length := by omega
      rw [hs, append_assoc]
      rfl

theorem foldl_pushBounded (hpos : 0 < cap) (base entries : List α) :
    entries.foldl (pushBounded cap) base =
      base.drop (base.length + entries.length - max cap base.length) ++
        entries.drop (entries.length - max cap base.length) := by
  have ho : base.length + entries.length - max cap base.length - base.length =
      entries.length - max cap base.length := by omega
  rw [foldl_pushBounded_append cap hpos, drop_append, ho]

end Apme.Lib
