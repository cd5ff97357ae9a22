import Mathlib.Data.List.Basic

/-!
# Folding verdicts into a state

A list of verdicts is applied to a state one by one: a positive one accepts
what is pending, a negative one rejects it.  When nothing is pending any more
after an acceptance, and a second rejection changes nothing, only the first
verdict and the presence of a positive one count.
-/

set_option autoImplicit false

namespace Apme.Lib

variable {σ τ : Type}

def settle (accept reject : σ → σ) (verdicts : List Bool) (state : σ) : σ :=
  verdicts.foldl (fun state verdict => if verdict then accept state else reject state) state

/-- The laws of accepting and rejecting what is pending. -/
structure Settling (accept reject : σ → σ) : Prop where
  accept_accept : ∀ state, accept (accept state) = accept state
  reject_accept : ∀ state, reject (accept state) = accept state
  reject_reject : ∀ state, reject (reject state) = reject state

namespace Settling

variable {accept reject : σ → σ} (laws : Settling accept reject)

include laws

section

variable (verdicts : List Bool) (state : σ)

theorem settle_accept : settle accept reject verdicts (accept state) = accept state := by
  induction verdicts with
  | nil => rfl
  | cons vd rest ih =>
    rw [settle, List.foldl_cons]
    cases vd with
    | true =>
      rw [if_pos rfl, laws.accept_accept]
      exact ih
    | false =>
      rw [if_neg Bool.false_ne_true, laws.reject_accept]
      exact ih

theorem settle_reject :
    settle accept reject verdicts (reject state) =
      if true ∈ verdicts then accept (reject state) else reject state := by
  induction verdicts with
  | nil => rfl
  | cons vd rest ih =>
    rw [settle, List.foldl_cons]
    cases vd with
    | true =>
      rw [if_pos rfl, if_pos List.mem_cons_self]
      exact laws.settle_accept rest (reject state)
    | false =>
      have hs : true ∈ false :: rest ↔ true ∈ rest := by simp
      rw [if_neg Bool.false_ne_true, laws.reject_reject, if_congr hs rfl rfl]
      exact ih

theorem settle_of_first : settle accept reject (true :: verdicts) state = accept state :=
  laws.settle_accept verdicts state

theorem settle_of_first_negative :
    settle accept reject (false :: verdicts) state =
      if true ∈ verdicts then accept (reject state) else reject state :=
  laws.settle_reject verdicts state

end

/-- To an observer to whom a rejection before the acceptance does not matter,
one positive verdict decides. -/
theorem settle_of_mem {v : σ → τ} {st : σ}
    (hs : v (accept st) = v (accept (reject st))) {verdicts : List Bool}
    (hpos : true ∈ verdicts) :
    v (settle accept reject verdicts st) = v (accept st) := by
  cases verdicts with
  | nil => cases hpos
  | cons vd rest =>
    cases vd with
    | true => rw [laws.settle_of_first]
    | false =>
      have hl : true ∈ rest := by simpa using hpos
      rw [laws.settle_of_first_negative, if_pos hl, hs]

end Settling

end Apme.Lib
