import Mathlib.Data.List.Forall2

/-!
# Postconditions of computations that can fail

`Holds post fail x` says that `x` ends in a value with `post` or fails with a
value with `fail`.  The rules follow the ways computations are put together.
-/

set_option autoImplicit false

namespace Apme.Lib

open List Option

variable {ε α β : Type}

def Holds (post : α → Prop) (fail : ε → Prop) : Except ε α → Prop
  | .ok value => post value
  | .error failure => fail failure

instance decidableHolds (post : α → Prop) (fail : ε → Prop) [DecidablePred post]
    [DecidablePred fail] : ∀ x : Except ε α, Decidable (Holds post fail x)
  | .ok value => inferInstanceAs (Decidable (post value))
  | .error failure => inferInstanceAs (Decidable (fail failure))

namespace Holds

variable {post : α → Prop} {fail : ε → Prop}

@[simp]
theorem ok_iff (value : α) : Holds post fail (.ok value) ↔ post value := Iff.rfl

@[simp]
theorem pure_iff (value : α) : Holds post fail (pure value) ↔ post value := Iff.rfl

theorem any (x : Except ε α) : Holds (fun _ => True) (fun _ => True) x := by
  cases x with
  | ok v => trivial
  | error failure => trivial

theorem mono {weaker : α → Prop} {hf : ε → Prop} {x : Except ε α}
    (holds : Holds post fail x) (hv : ∀ v, post v → weaker v)
    (hof : ∀ failure, fail failure → hf failure) : Holds weaker hf x := by
  cases x with
  | ok v => exact hv v holds
  | error failure => exact hof failure holds

theorem bind {M : β → Prop} {x : Except ε β} {f : β → Except ε α} (first : Holds M fail x)
    (hn : ∀ v, M v → Holds post fail (f v)) : Holds post fail (x >>= f) := by
  cases x with
  | ok v => exact hn v first
  | error failure => exact first

theorem map {M : β → Prop} {x : Except ε β} {f : β → α} (first : Holds M fail x)
    (hn : ∀ v, M v → post (f v)) : Holds post fail (f <$> x) := by
  cases x with
  | ok v => exact hn v first
  | error failure => exact first

theorem foldlM {σ : Type} {I : σ → Prop} {step : σ → β → Except ε σ} {xs : List β}
    (hk : ∀ st x, x ∈ xs → I st → Holds I fail (step st x))
    (st : σ) (hs : I st) : Holds I fail (xs.foldlM step st) := by
  induction xs generalizing st with
  | nil => exact hs
  | cons x rest ih =>
    rw [foldlM_cons]
    refine bind (hk st x mem_cons_self hs) fun next hh => ?_
    exact ih (fun o later mem => hk o later (mem_cons_of_mem x mem)) next hh

end Holds

/-- Two computations that fail alike or end in values with `post`. -/
def Pairs {α' : Type} (post : α → α' → Prop) : Except ε α → Except ε α' → Prop
  | .ok value, .ok value' => post value value'
  | .error failure, .error failure' => failure' = failure
  | _, _ => False

namespace Pairs

variable {α' β' : Type} {post : α → α' → Prop}

theorem bind {M : β → β' → Prop} {x : Except ε β} {y : Except ε β'} {f : β → Except ε α}
    {g : β' → Except ε α'} (first : Pairs M x y)
    (hn : ∀ v value', M v value' → Pairs post (f v) (g value')) :
    Pairs post (x >>= f) (y >>= g) := by
  cases x with
  | ok v =>
    cases y with
    | ok value' => exact hn v value' first
    | error failure => exact first.elim
  | error failure =>
    cases y with
    | ok value' => exact first.elim
    | error failure' => exact first

theorem and_left {x : Except ε α} {y : Except ε α'} {left : α → Prop} {f : ε → Prop}
    (hb : Pairs post x y) (first : Holds left f x) :
    Pairs (fun v value' => post v value' ∧ left v) x y := by
  cases x with
  | ok v =>
    cases y with
    | ok value' => exact ⟨hb, first⟩
    | error failure => exact hb
  | error failure =>
    cases y with
    | ok value' => exact hb
    | error failure' => exact hb

theorem foldlM {σ τ : Type} {I : σ → τ → Prop} {step : σ → β → Except ε σ}
    {s' : τ → β → Except ε τ} {xs : List β}
    (hk : ∀ st state', ∀ x ∈ xs, I st state' → Pairs I (step st x) (s' state' x))
    (st : σ) (state' : τ) (hs : I st state') :
    Pairs I (xs.foldlM step st) (xs.foldlM s' state') := by
  induction xs generalizing st state' with
  | nil => exact hs
  | cons x rest ih =>
    rw [foldlM_cons, foldlM_cons]
    refine bind (hk st state' x mem_cons_self hs) fun next next' holds => ?_
    exact ih (fun o other' later mem => hk o other' later (mem_cons_of_mem x mem)) next next' holds

end Pairs

theorem foldl_pairs {σ τ : Type} {I : σ → τ → Prop} {step : σ → β → σ} {s' : τ → β → τ}
    {xs : List β}
    (hk : ∀ st state', ∀ x ∈ xs, I st state' → I (step st x) (s' state' x))
    (st : σ) (state' : τ) (hs : I st state') :
    I (xs.foldl step st) (xs.foldl s' state') := by
  induction xs generalizing st state' with
  | nil => exact hs
  | cons x rest ih =>
    rw [foldl_cons, foldl_cons]
    exact ih (fun o other' later mem => hk o other' later
      (mem_cons_of_mem x mem)) _ _ (hk st state' x mem_cons_self hs)

theorem foldl_invariant {σ : Type} {I : σ → Prop} {step : σ → β → σ} {xs : List β}
    (hk : ∀ st x, x ∈ xs → I st → I (step st x))
    (st : σ) (hs : I st) : I (xs.foldl step st) := by
  induction xs generalizing st with
  | nil => exact hs
  | cons x rest ih =>
    rw [foldl_cons]
    exact ih (fun o later mem => hk o later (mem_cons_of_mem x mem))
      (step st x) (hk st x mem_cons_self hs)

theorem bind_eq_ok {x : Except ε β} {f : β → Except ε α} {value : α} :
    x >>= f = .ok value ↔ ∃ mid, x = .ok mid ∧ f mid = .ok value := by
  cases x with
  | ok mid => simp [bind, Except.bind]
  | error failure => simp [bind, Except.bind]

theorem mapM_eq_ok {f : α → Except ε β} {items : List α} {ress : List β} :
    items.mapM f = .ok ress ↔ List.Forall₂ (fun x res => f x = .ok res) items ress := by
  induction items generalizing ress with
  | nil => cases ress <;> simp [pure, Except.pure]
  | cons first rest ih =>
    simp only [mapM_cons, bind_eq_ok, ih, pure, Except.pure, Except.ok.injEq, forall₂_cons_left_iff]
    constructor
    · rintro ⟨head, hH, tail, hT, rfl⟩
      exact ⟨head, tail, hH, hT, rfl⟩
    · rintro ⟨head, tail, hH, hT, rfl⟩
      exact ⟨head, hH, tail, hT, rfl⟩

@[simp]
theorem isOk_ok (v : α) : (Except.ok v : Except ε α).isOk = true := rfl

@[simp]
theorem isOk_error (failure : ε) : (Except.error failure : Except ε α).isOk = false := rfl

@[simp]
theorem isOk_map (f : β → α) (x : Except ε β) : (x.map f).isOk = x.isOk := by
  cases x <;> rfl

theorem isOk_bind {x : Except ε β} {f : β → Except ε α} {p : Prop} (hs : ∀ v, (f v).isOk ↔ p) :
    (x >>= f).isOk ↔ x.isOk ∧ p := by
  cases x with
  | ok v => exact (hs v).trans (by simp)
  | error failure => simp [bind, Except.bind]

theorem isOk_mapM {f : β → Except ε α} {xs : List β} :
    (xs.mapM f).isOk ↔ ∀ x ∈ xs, (f x).isOk := by
  induction xs with
  | nil => simp [pure, Except.pure]
  | cons x rest ih =>
    rw [mapM_cons, isOk_bind (p := (rest.mapM f).isOk) fun head => ?_, ih, forall_mem_cons]
    exact (isOk_bind (p := True) fun _ => by simp [pure, Except.pure]).trans (and_iff_left trivial)

theorem mem_mapM_iff (f : α → Option β) (xs : List α) (ress : List β)
    (hm : xs.mapM f = some ress) (res : β) :
    res ∈ ress ↔ ∃ x ∈ xs, f x = some res := by
  induction xs generalizing ress with
  | nil =>
    cases some.inj hm
    simp
  | cons first rest ih =>
    rw [mapM_cons] at hm
    obtain ⟨head, hH, hm⟩ := bind_eq_some_iff.mp hm
    obtain ⟨tail, hT, hs⟩ := bind_eq_some_iff.mp hm
    cases some.inj hs
    simp only [mem_cons, ih tail hT, exists_eq_or_imp, hH, some.injEq,
      eq_comm (a := res) (b := head)]

end Apme.Lib
