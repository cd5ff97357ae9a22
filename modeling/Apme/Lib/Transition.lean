import Mathlib.Logic.Relation

/-!
# Labelled transition systems

A system is a function that gives the state after a step with a label, if the
step can be taken.  `Reaches step allowed` relates two states when steps that
`allowed` admits lead from the first to the second.
-/

set_option autoImplicit false

namespace Apme.Lib.Transition

variable {State Label : Type} (step : State → Label → Option State)
  (allowed : State → Label → Prop)

def Moves (s t : State) : Prop := ∃ label, allowed s label ∧ step s label = some t

def Reaches : State → State → Prop := Relation.ReflTransGen (Moves step allowed)

variable {step allowed}

theorem Reaches.invariant {P : State → Prop}
    (hk : ∀ s label t, P s → allowed s label → step s label = some t → P t) {start s : State}
    (hr : Reaches step allowed start s) (hi : P start) : P s := by
  induction hr with
  | refl => exact hi
  | tail _ hm old =>
    obtain ⟨label, ha, ht⟩ := hm
    exact hk _ label _ old ha ht

section Scripts

variable (step allowed) [∀ s label, Decidable (allowed s label)]

/-- The state after the steps with these labels, if each of them is admitted
and can be taken. -/
def follow : List Label → State → Option State
  | [], s => some s
  | label :: rest, s => if allowed s label then (step s label).bind (follow rest) else none

variable {step allowed}

theorem reaches_of_follow (labels : List Label) {start s : State}
    (hf : follow step allowed labels start = some s) : Reaches step allowed start s := by
  induction labels generalizing start with
  | nil => exact Option.some.inj hf ▸ Relation.ReflTransGen.refl
  | cons label rest ih =>
    simp only [follow] at hf
    split at hf
    next ha =>
      obtain ⟨next, ht, ho⟩ := Option.bind_eq_some_iff.mp hf
      exact Relation.ReflTransGen.head ⟨label, ha, ht⟩ (ih ho)
    next => cases hf

end Scripts

end Apme.Lib.Transition
