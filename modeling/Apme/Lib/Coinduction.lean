import Mathlib.Order.Bounds.Basic
import Mathlib.Data.Set.Basic

/-!
# Greatest sets under a rule, searched along paths

`rule X x` says that `x` follows from the members of `X`.  A search that takes
the items on its path for granted decides membership in the greatest set whose
members all follow from it: `supported_iff` is one step of such a search.
Answers that were found before may be used in place of the rule.
-/

set_option autoImplicit false

namespace Apme.Lib

section Support

variable {α : Type} (rule : Set α → α → Prop)

/-- In a set whose members are granted or follow from it. -/
def Supported (granted : Set α) (x : α) : Prop :=
  ∃ X : Set α, x ∈ X ∧ ∀ y ∈ X, y ∈ granted ∨ rule X y

/-- Known answers come before the rule. -/
def override (known : α → Option Bool) (X : Set α) (x : α) : Prop := (known x).elim (rule X x) (·)

variable {rule} {known : α → Option Bool}

theorem override_of_none {x : α} (hu : known x = none) (X : Set α) :
    override rule known X x ↔ rule X x := by
  rw [override, hu, Option.elim_none]

theorem override_of_some {x : α} {answer : Bool}
    (hK : known x = some answer) (X : Set α) : override rule known X x ↔ answer := by
  rw [override, hK, Option.elim_some]

variable (mono : ∀ ⦃X Y : Set α⦄, X ⊆ Y → ∀ x, rule X x → rule Y x)

include mono

theorem Supported.unfold {granted : Set α} {x : α} (hs : Supported rule granted x) :
    x ∈ granted ∨ rule {y | Supported rule granted y} x := by
  obtain ⟨X, hm, hc⟩ := hs
  have hw : X ⊆ {y | Supported rule granted y} := fun y hi => ⟨X, hi, hc⟩
  exact (hc x hm).imp_right (mono hw x)

theorem supported_iff (granted : Set α) (x : α) :
    Supported rule granted x ↔ x ∈ granted ∨ rule {y | Supported rule (insert x granted) y} x := by
  constructor
  · intro hsu
    refine (hsu.unfold mono).imp_right (mono ?_ x)
    rintro y ⟨X, hm, hc⟩
    exact ⟨X, hm, fun z hi => (hc z hi).imp_left (Set.mem_insert_of_mem x)⟩
  · rintro (hG | hf)
    · exact ⟨{x}, rfl, fun y hs => .inl (hs ▸ hG)⟩
    · refine ⟨insert x {y | Supported rule (insert x granted) y}, Set.mem_insert x _, ?_⟩
      have hg := mono (Set.subset_insert x {y | Supported rule (insert x granted) y})
      rintro y (rfl | hsu)
      · exact .inr (hg y hf)
      · rcases hsu.unfold mono with (rfl | hG) | ho
        · exact .inr (hg y hf)
        · exact .inl hG
        · exact .inr (hg y ho)

theorem isGreatest_supported :
    IsGreatest {X : Set α | ∀ x ∈ X, rule X x} {x | Supported rule ∅ x} := by
  constructor
  · intro x hs
    exact (hs.unfold mono).resolve_left (Set.notMem_empty x)
  · intro X hc x hm
    exact ⟨X, hm, fun y hi => .inr (hc y hi)⟩

variable (known : α → Option Bool)

theorem override_mono ⦃X Y : Set α⦄ (sub : X ⊆ Y) (x : α)
    (hf : override rule known X x) : override rule known Y x := by
  cases hK : known x with
  | none =>
    rw [override_of_none hK] at hf ⊢
    exact mono sub x hf
  | some answer =>
    rw [override_of_some hK] at hf ⊢
    exact hf

/-- Right answers that are known do not change what is found. -/
theorem supported_override_iff
    (right : ∀ x answer, known x = some answer → (answer ↔ Supported rule ∅ x)) (x : α) :
    Supported (override rule known) ∅ x ↔ Supported rule ∅ x := by
  have hg := isGreatest_supported mono
  have hg' := isGreatest_supported (override_mono mono known)
  have hw : {y | Supported rule ∅ y} ⊆ {y | Supported (override rule known) ∅ y} := by
    refine hg'.2 fun y hi => ?_
    cases hK : known y with
    | none => exact (override_of_none hK _).mpr (hg.1 y hi)
    | some answer => exact (override_of_some hK _).mpr ((right y answer hK).mpr hi)
  have hb : {y | Supported (override rule known) ∅ y} ⊆ {y | Supported rule ∅ y} := by
    refine hg.2 fun y hi => ?_
    have hfo := hg'.1 y hi
    cases hK : known y with
    | none => exact (override_of_none hK _).mp hfo
    | some answer =>
      have hf := (right y answer hK).mp ((override_of_some hK _).mp hfo)
      exact mono hw y (hg.1 y hf)
  exact ⟨fun hs => hb hs, fun hs => hw hs⟩

end Support

end Apme.Lib
