import Mathlib.Data.List.Infix

/-!
# Left-to-right substitution

`sub find` reads a text from left to right.  At each position the finder sees
the character before it and the rest of the text; where it finds a match it
gives the length of the match and an action that turns the state into the next
state and the replacement, or fails.  After a match the reading goes on behind
it, and otherwise one character further on.

Texts that share a first part and go on differently are compared at the place
where the reading leaves that part, `reach`: as long as each finding in it is
the same for all of them, what is made of the part up to there is the same too.
-/

set_option autoImplicit false

namespace Apme.Lib.Substitution

open List

variable {α σ : Type}

abbrev Action (σ α : Type) := σ → Option (σ × List α)

abbrev Finder (σ α : Type) := Option α → List α → Option (Nat × Action σ α)

def sub (find : Finder σ α) : Option α → Nat → List α → Action σ α
  | _, _, [], s => some (s, [])
  | _, skip + 1, c :: rest, s => sub find (some c) skip rest s
  | before, 0, c :: rest, s =>
    match find before (c :: rest) with
    | none => (sub find (some c) 0 rest s).map fun done => (done.1, c :: done.2)
    | some (size, action) =>
      (action s).bind fun made =>
        (sub find (some c) (size - 1) rest made.1).map fun done =>
          (done.1, made.2 ++ done.2)

/-- The character before the position that follows `part`. -/
def lastOf (before : Option α) (part : List α) : Option α := part.getLast?.or before

@[simp] theorem lastOf_nil (old : Option α) : lastOf old [] = old := rfl

@[simp] theorem lastOf_cons (old : Option α) (c : α) (part : List α) :
    lastOf old (c :: part) = lastOf (some c) part := by
  cases part with
  | nil => rfl
  | cons d rest => simp only [lastOf, List.getLast?_cons, Option.getD_some, Option.some_or]

variable (find : Finder σ α)

theorem sub_skip (old : Option α) (skip : Nat) (t : List α) (s : σ) :
    sub find old skip t s = sub find (lastOf old (t.take skip)) 0 (t.drop skip) s := by
  induction skip generalizing old t with
  | zero => simp
  | succ skip ih =>
    cases t with
    | nil => simp [sub]
    | cons c rest => simpa [sub] using ih (some c) rest

variable {old : Option α}

theorem sub_of_none {c : α} {rest : List α} (hg : find old (c :: rest) = none) (s : σ) :
    sub find old 0 (c :: rest) s =
      (sub find (some c) 0 rest s).map fun done => (done.1, c :: done.2) := by
  simp [sub, hg]

theorem sub_of_some {front back : List α} {action : Action σ α}
    (hfill : front ≠ []) (hf : find old (front ++ back) = some (front.length, action)) (s : σ) :
    sub find old 0 (front ++ back) s =
      (action s).bind fun made =>
        (sub find (lastOf old front) 0 back made.1).map fun done =>
          (done.1, made.2 ++ done.2) := by
  cases front with
  | nil => exact absurd rfl hfill
  | cons c rest =>
    rw [cons_append] at hf ⊢
    simp [sub, hf, sub_skip find (some c) rest.length]

variable {find}

theorem sub_congr {find' : Finder σ α} {text : List α} {skip : Nat}
    (here : find old text = find' old text)
    (later : ∀ last part, part <:+ text → part ≠ text → find last part = find' last part) (s : σ) :
    sub find old skip text s = sub find' old skip text s := by
  induction text generalizing old skip s with
  | nil => cases skip <;> rfl
  | cons c rest ih =>
    have next : ∀ last part, part <:+ rest → find last part = find' last part := by
      intro last part inside
      refine later last part (inside.trans (suffix_cons c rest)) ?_
      rintro rfl
      have := inside.length_le
      rw [length_cons] at this
      omega
    have after : ∀ skip s, sub find (some c) skip rest s = sub find' (some c) skip rest s :=
      fun skip s => ih (next _ _ suffix_rfl) (fun last part inside _ => next last part inside) s
    cases skip with
    | succ skip => exact after skip s
    | zero => simp only [sub, here, after]

/-- Two matches with the same action and the same text after them. -/
theorem sub_matches {front front' back : List α} {action : Action σ α} (hfill : front ≠ [])
    (last : front.getLast? = front'.getLast?)
    (hf : find old (front ++ back) = some (front.length, action))
    (hf' : find old (front' ++ back) = some (front'.length, action)) (s : σ) :
    sub find old 0 (front ++ back) s = sub find old 0 (front' ++ back) s := by
  have hfill' : front' ≠ [] := by
    rintro rfl
    exact hfill (List.getLast?_eq_none_iff.mp last)
  rw [sub_of_some find hfill hf, sub_of_some find hfill' hf', lastOf, lastOf, last]

section Reach

/-- Where a reading of a first part with `tail` behind it leaves that part: at
its end, or at the match that takes in a part of `tail`.  With it comes the
character before. -/
def reach (length : Option α → List α → Option Nat) (tail : List α) :
    Option α → Nat → List α → Option α × List α
  | before, _, [] => (before, [])
  | _, skip + 1, c :: rest => reach length tail (some c) skip rest
  | before, 0, c :: rest =>
    match length before (c :: rest ++ tail) with
    | none => reach length tail (some c) 0 rest
    | some size =>
      if size ≤ rest.length + 1 then reach length tail (some c) (size - 1) rest
      else (before, c :: rest)

variable {ι : Type} (find : Finder σ α) (tail : ι → List α)

/-- With each of the tails behind a part there is no match, or the same match
within the part, or one that goes beyond it. -/
def Alike (before : Option α) (part : List α) : Prop :=
  (∀ i, find before (part ++ tail i) = none) ∨
    (∃ size action, size ≤ part.length ∧ ∀ i, find before (part ++ tail i) = some (size, action)) ∨
      ∀ i, ∃ size action, part.length < size ∧ find before (part ++ tail i) = some (size, action)

variable {find tail} {length : Option α → List α → Option Nat}

/-- What is made of a part up to the place where its reading ends is the same
for all tails. -/
theorem sub_reach (sizes : ∀ before text, (find before text).map Prod.fst = length before text)
    {part : List α} (alike : ∀ before rest, rest ≠ [] → rest <:+ part → Alike find tail before rest)
    (before : Option α) (skip : Nat) (i : ι) :
    ∃ made : Action σ α, ∀ j s, skip ≤ part.length →
      sub find before skip (part ++ tail j) s =
        (made s).bind fun first =>
          (sub find (reach length (tail i) before skip part).1 0
            ((reach length (tail i) before skip part).2 ++ tail j) first.1).map fun done =>
              (done.1, first.2 ++ done.2) := by
  induction part generalizing before skip with
  | nil =>
    refine ⟨fun s => some (s, []), fun j s fits => ?_⟩
    obtain rfl : skip = 0 := by simpa using fits
    simp [reach]
  | cons c rest ih =>
    have later := ih fun last part filled hp => alike last part filled (hp.trans (suffix_cons c rest))
    cases skip with
    | succ skip =>
      obtain ⟨made, reads⟩ := later (some c) skip
      exact ⟨made, fun j s fits => reads j s (by simpa using fits)⟩
    | zero =>
      have seen := sizes before (c :: rest ++ tail i)
      obtain gone | ⟨size, action, fits, found⟩ | beyond := alike before (c :: rest) (by simp) suffix_rfl
      · obtain ⟨made, reads⟩ := later (some c) 0
        refine ⟨fun s => (made s).map fun done => (done.1, c :: done.2), fun j s _ => ?_⟩
        rw [gone i] at seen
        have none := gone j
        rw [cons_append] at none ⊢
        rw [sub_of_none find none, reads j s (Nat.zero_le _)]
        simp only [reach, ← seen, Option.map_none]
        cases made s <;> simp [Function.comp_def]
      · obtain ⟨made, reads⟩ := later (some c) (size - 1)
        refine ⟨fun s => (action s).bind fun first =>
          (made first.1).map fun done => (done.1, first.2 ++ done.2), fun j s _ => ?_⟩
        rw [found i] at seen
        have here := found j
        rw [length_cons] at fits
        rw [cons_append] at here ⊢
        simp only [sub, here, reach, ← seen, Option.map_some, if_pos fits]
        cases action s with
        | none => rfl
        | some first =>
          simp only [Option.bind_some, reads j first.1 (by omega)]
          cases made first.1 <;> simp [Function.comp_def]
      · refine ⟨fun s => some (s, []), fun j s _ => ?_⟩
        obtain ⟨size, action, more, found⟩ := beyond i
        rw [found] at seen
        rw [length_cons] at more
        simp only [reach, ← seen, Option.map_some, if_neg (Nat.not_le.mpr more)]
        simp

end Reach

end Apme.Lib.Substitution
