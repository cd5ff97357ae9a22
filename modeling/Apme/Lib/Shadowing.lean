import Apme.Lib.Dict

/-!
# Bindings that shadow each other

Bindings are applied in order to a dictionary.  A strong one replaces what its
key has, a weak one is dropped when the key has something already.  A key ends
up with its last strong binding, or with its first one when none is strong.
-/

set_option autoImplicit false

namespace Apme.Lib

open List Dict

section Shadowing

variable {κ ε : Type} [DecidableEq κ] (key : ε → κ) (strong : ε → Bool)

def Dict.shadow (d : Dict κ ε) (item : ε) : Dict κ ε :=
  if strong item || (d.get? (key item)).isNone then d.insert (key item) item else d

def shadowed (current : Option ε) (item : ε) : Option ε :=
  if strong item || current.isNone then some item else current

variable (items : List ε)

/-- What is left of the bindings of one key. -/
def winner : Option ε := items.foldl (shadowed strong) none

theorem Dict.get?_foldl_shadow (d : Dict κ ε) (k : κ) :
    (items.foldl (shadow key strong) d).get? k =
      (items.filter fun item => key item = k).foldl (shadowed strong) (d.get? k) := by
  induction items generalizing d with
  | nil => rfl
  | cons item rest ih =>
    rw [foldl_cons, ih, shadow]
    by_cases hs : key item = k
    · subst hs
      rw [filter_cons_of_pos (by simp), foldl_cons, shadowed]
      split
      · rw [get?_insert, if_pos rfl]
      · rfl
    · have hd : k ≠ key item := fun he => hs he.symm
      rw [filter_cons_of_neg (by simpa using hs)]
      split
      · rw [get?_insert, if_neg hd]
      · rfl

variable {strong}

theorem foldl_shadowed_weak {xs : List ε} (hw : ∀ x ∈ xs, strong x = false)
    (first : ε) : xs.foldl (shadowed strong) (some first) = some first := by
  induction xs with
  | nil => rfl
  | cons x rest ih =>
    have cut : shadowed strong (some first) x = some first := by
      simp [shadowed, hw x mem_cons_self]
    rw [foldl_cons, cut]
    exact ih fun o mem => hw o (mem_cons_of_mem x mem)

variable {item : ε}

theorem winner_append_strong {front back : List ε} (hS : strong item)
    (hw : ∀ o ∈ back, strong o = false) :
    winner strong (front ++ item :: back) = some item := by
  unfold winner
  rw [foldl_append, foldl_cons]
  have ht : ∀ current, shadowed strong current item = some item := by
    simp [shadowed, hS]
  rw [ht]
  exact foldl_shadowed_weak hw item

theorem winner_cons_weak {rest : List ε}
    (hw : ∀ o ∈ rest, strong o = false) : winner strong (item :: rest) = some item := by
  unfold winner
  have ht : shadowed strong none item = some item := by simp [shadowed]
  rw [foldl_cons, ht]
  exact foldl_shadowed_weak hw item

theorem winner_cases (s : ε → Bool) (xs : List ε) :
    (∃ front item back, xs = front ++ item :: back ∧ s item ∧
        (∀ o ∈ back, s o = false) ∧ winner s xs = some item) ∨
      ((∀ item ∈ xs, s item = false) ∧ winner s xs = xs.head?) := by
  by_cases hw : ∀ item ∈ xs, s item = false
  · right
    refine ⟨hw, ?_⟩
    cases xs with
    | nil => rfl
    | cons item rest =>
      exact winner_cons_weak fun o mem => hw o (mem_cons_of_mem item mem)
  · left
    have hf : ∃ front item back, xs = front ++ item :: back ∧ s item ∧
        ∀ o ∈ back, s o = false := by
      induction xs with
      | nil => simp at hw
      | cons item rest ih =>
        by_cases hl : ∀ o ∈ rest, s o = false
        · refine ⟨[], item, rest, rfl, ?_, hl⟩
          by_contra hwe
          apply hw
          intro o mem
          rcases mem_cons.mp mem with rfl | hr
          · simpa using hwe
          · exact hl o hr
        · obtain ⟨front, last, back, hsp, hS, ha⟩ := ih hl
          exact ⟨item :: front, last, back, by rw [hsp]; rfl, hS, ha⟩
    obtain ⟨front, item, back, hsp, hS, ha⟩ := hf
    refine ⟨front, item, back, hsp, hS, ha, ?_⟩
    rw [hsp]
    exact winner_append_strong hS ha

theorem winner_append_of_strong (front : List ε) {back : List ε}
    (hd : ∃ item ∈ back, strong item) :
    ∃ item ∈ back, strong item ∧ winner strong (front ++ back) = some item := by
  rcases winner_cases strong back with ⟨early, item, l, hs, hS, hw, -⟩ | ⟨hw, -⟩
  · refine ⟨item, ?_, hS, ?_⟩
    · rw [hs]
      exact mem_append_right _ mem_cons_self
    · rw [hs, ← append_assoc]
      exact winner_append_strong hS hw
  · obtain ⟨item, hm, hS⟩ := hd
    rw [hw item hm] at hS
    cases hS

theorem winner_mem {items : List ε} (won : winner strong items = some item) : item ∈ items := by
  rcases winner_cases strong items with ⟨front, last, b, hs, -, -, hL⟩ | ⟨-, first⟩
  · rw [hL] at won
    cases won
    rw [hs]
    exact mem_append_right _ mem_cons_self
  · rw [first] at won
    exact mem_of_head? won

theorem winner_isSome_iff : (winner strong items).isSome ↔ items ≠ [] := by
  rcases winner_cases strong items with ⟨front, last, b, hs, -, -, hL⟩ | ⟨-, first⟩
  · rw [hL, hs]
    simp
  · rw [first]
    cases items <;> simp

end Shadowing

section Listing

variable {κ α : Type} [DecidableEq κ]

/-- `d.setdefault(key, []).insert(0, item)`. -/
def Dict.pushFront (d : Dict κ (List α)) (key : κ) (item : α) : Dict κ (List α) :=
  d.insert key (item :: (d.get? key).getD [])

section

variable (key : α → κ) (items : List α) (d : Dict κ (List α)) (k : κ)

theorem Dict.getD_foldl_pushFront :
    ((items.foldl (fun d x => d.pushFront (key x) x) d).get? k).getD [] =
      (items.filter fun x => key x = k).reverse ++ (d.get? k).getD [] := by
  induction items generalizing d with
  | nil => simp
  | cons x rest ih =>
    rw [foldl_cons, ih, pushFront, get?_insert]
    by_cases hs : k = key x
    · subst hs
      simp
    · have hd : key x ≠ k := fun he => hs he.symm
      simp [hs, hd]

theorem Dict.mem_keys_foldl_pushFront :
    k ∈ (items.foldl (fun d x => d.pushFront (key x) x) d).keys ↔
      k ∈ d.keys ∨ ∃ x ∈ items, key x = k := by
  induction items generalizing d with
  | nil => simp
  | cons x rest ih =>
    rw [foldl_cons, ih, pushFront, mem_keys_insert]
    simp only [mem_cons, exists_eq_or_imp]
    rw [eq_comm (a := k) (b := key x)]
    tauto

end

end Listing

end Apme.Lib
