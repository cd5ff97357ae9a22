import Apme.Lib.Dict
import Apme.Lib.Worklist

/-!
# A memoised search along paths

`evaluate` asks an item's own verdict, or else all or some of its parents; an
item on the path that is walked counts as false, and every answer is cached.  An
answer that ends the quantifier ends all of them, so that only the other answers
are read from the cache.  `Reads` lists what has to be known of a meaning of the
two answers; the answers under the path may mean less than those at the root.
-/

set_option autoImplicit false

namespace Apme.Lib

open List

variable {α : Type} [DecidableEq α]

/-- `all` or `any`, left at the first answer that decides it. -/
def quantify (all : Bool) (check : Dict α Bool → α → Option (Bool × Dict α Bool)) :
    List α → Dict α Bool → Option (Bool × Dict α Bool)
  | [], cache => some (all, cache)
  | item :: rest, cache =>
    (check cache item).bind fun done =>
      if done.1 = all then quantify all check rest done.2 else some done

variable (parents : α → List α) (verdict : α → Option Bool)

def evaluate (all : Bool) : Nat → List α → Dict α Bool → α → Option (Bool × Dict α Bool)
  | 0, _, _, _ => none
  | fuel + 1, inProgress, cache, item =>
    match cache.get? item with
    | some known => some (known, cache)
    | none =>
      if item ∈ inProgress then some (false, cache)
      else
        match verdict item with
        | some answer => some (answer, cache.insert item answer)
        | none =>
          if parents item = [] then some (false, cache.insert item false)
          else
            (quantify all (evaluate all fuel (item :: inProgress)) (parents item) cache).map
              fun done => (done.1, done.2.insert item done.1)

/-- What the answers mean: `Kept path item` for the one that goes on, and
`Found item` for the one that ends the search. -/
structure Reads (all : Bool) (Kept : List α → α → Prop) (Found : α → Prop) : Prop where
  kept : ∀ path item, verdict item = some all → Kept path item
  found : ∀ item, verdict item = some !all → Found item
  stopped : ∀ path item, (∀ below ∈ path, Leads parents below item) →
    item ∈ path ∨ verdict item = none ∧ parents item = [] →
    if all then Found item else Kept path item
  spreads : ∀ item, verdict item = none → ∀ parent ∈ parents item, Found parent → Found item
  closes : ∀ path item, verdict item = none → parents item ≠ [] →
    (∀ parent ∈ parents item, Kept (item :: path) parent) →
    Kept path item ∧ ∀ other, Kept (item :: path) other → Kept path other
  weakens : ∀ path item other, Kept path other → Kept (item :: path) other

section Search

variable {all : Bool} {Kept : List α → α → Prop} {Found : α → Prop}

/-- The cache holds answers of one kind only, with what they mean. -/
def Cached (all : Bool) (Kept : List α → α → Prop) (path : List α) (cache : Dict α Bool) : Prop :=
  ∀ item answer, cache.get? item = some answer → answer = all ∧ Kept path item

/-- Of a result for these items: all are kept, or one of them is found. -/
def Meant (all : Bool) (Kept : List α → α → Prop) (Found : α → Prop) (path items : List α)
    (done : Bool × Dict α Bool) : Prop :=
  (done.1 = all → (∀ item ∈ items, Kept path item) ∧ Cached all Kept path done.2) ∧
    (done.1 ≠ all → ∃ item ∈ items, Found item)

theorem Cached.insert {p : List α} {cache : Dict α Bool} (hc : Cached all Kept p cache)
    {x : α} (hk : Kept p x) : Cached all Kept p (cache.insert x all) := by
  intro o answer here
  rw [Dict.get?_insert] at here
  split at here
  next hs => exact ⟨(Option.some.inj here).symm, hs ▸ hk⟩
  next => exact hc o answer here

variable (Found) in
theorem quantify_meant {check : Dict α Bool → α → Option (Bool × Dict α Bool)} {p : List α}
    (xs : List α) (hc : ∀ item ∈ xs, ∀ cache, Cached all Kept p cache →
      ∃ done, check cache item = some done ∧ Meant all Kept Found p [item] done)
    (cache : Dict α Bool) (hca : Cached all Kept p cache) :
    ∃ done, quantify all check xs cache = some done ∧ Meant all Kept Found p xs done := by
  induction xs generalizing cache with
  | nil => exact ⟨(all, cache), rfl, fun _ => ⟨by simp, hca⟩, fun ho => absurd rfl ho⟩
  | cons item rest ih =>
    obtain ⟨done, run, hk, hf⟩ := hc item mem_cons_self cache hca
    by_cases hs : done.1 = all
    · obtain ⟨here, hca⟩ := hk hs
      obtain ⟨end', hr', hk', hf'⟩ :=
        ih (fun ho hm => hc ho (mem_cons_of_mem _ hm)) done.2 hca
      refine ⟨end', by simp [quantify, run, hs, hr'], fun he => ?_, fun ho => ?_⟩
      · exact ⟨forall_mem_cons.mpr ⟨here item (by simp), (hk' he).1⟩, (hk' he).2⟩
      · obtain ⟨ho, hm, hit⟩ := hf' ho
        exact ⟨ho, mem_cons_of_mem _ hm, hit⟩
    · obtain ⟨_, hm, hit⟩ := hf hs
      rw [mem_singleton.mp hm] at hit
      exact ⟨done, by simp [quantify, run, hs], fun he => absurd he hs,
        fun _ => ⟨item, mem_cons_self, hit⟩⟩

variable {parents verdict} (reads : Reads parents verdict all Kept Found) {items : List α}
  (within : ∀ item, parents item ⊆ items)

include reads within

/-- With fuel for every item there is a search ends, and its answer and
its cache mean what they should. -/
theorem evaluate_meant (fuel : Nat) : ∀ p item, (∀ below ∈ p, Leads parents below item) →
    item ∈ items → (items.filter (· ∉ p)).length < fuel →
    ∀ cache, Cached all Kept p cache →
      ∃ done, evaluate parents verdict all fuel p cache item = some done ∧
        Meant all Kept Found p [item] done := by
  induction fuel with
  | zero => intro p item _ _ room; omega
  | succ fuel ih =>
    intro p item hr hi room cache hc
    have hso : ∀ after, (item ∈ p ∨ verdict item = none ∧ parents item = []) →
        (all = false → Kept p item → Cached all Kept p after) →
        Meant all Kept Found p [item] (false, after) := by
      intro after stop hke
      have hst := reads.stopped p item hr stop
      cases hA : all with
      | true => exact ⟨(by rintro ⟨⟩), fun _ => ⟨item, by simp, by simpa [hA] using hst⟩⟩
      | false =>
        have kept : Kept p item := by simpa [hA] using hst
        exact ⟨fun _ => ⟨by simp [kept], hA ▸ hke hA kept⟩, fun ho => absurd rfl ho⟩
    unfold evaluate
    cases hk : cache.get? item with
    | some answer =>
      obtain ⟨rfl, kept⟩ := hc item answer hk
      exact ⟨_, rfl, fun _ => ⟨by simp [kept], hc⟩, fun ho => absurd rfl ho⟩
    | none =>
      dsimp only
      split
      next hp => exact ⟨_, rfl, hso cache (.inl hp) fun _ _ => hc⟩
      next hf =>
        cases own : verdict item with
        | some answer =>
          refine ⟨_, rfl, ?_, fun ho => ?_⟩
          · rintro rfl
            have kept := reads.kept p item own
            exact ⟨by simp [kept], hc.insert kept⟩
          · exact ⟨item, by simp, reads.found item (own.trans (congrArg some (Bool.eq_not.mpr ho)))⟩
        | none =>
          dsimp only
          split
          next he =>
            refine ⟨_, rfl, hso _ (.inr ⟨own, he⟩) fun hF kept => ?_⟩
            exact hF ▸ hc.insert kept
          next hfill =>
            have hfe : (items.filter (· ∉ item :: p)).length <
                (items.filter (· ∉ p)).length := by
              have hn : items.filter (· ∉ item :: p) =
                  (items.filter (· ∉ p)).filter (· ≠ item) := by simp [filter_filter]
              rw [hn]
              exact length_filter_lt_length_iff_exists.mpr ⟨item, by simp [hi, hf], by simp⟩
            obtain ⟨done, run, kept, hfo⟩ := quantify_meant Found (parents item)
              (fun par hm => ih (item :: p) par
                (forall_mem_cons.mpr ⟨.single hm, fun below hp => (hr below hp).tail hm⟩)
                (within item hm) (by omega))
              cache fun ho answer hpr =>
                ⟨(hc ho answer hpr).1, reads.weakens p item ho (hc ho answer hpr).2⟩
            refine ⟨_, by rw [run]; rfl, fun hs => ?_, fun ho => ?_⟩
            · obtain ⟨hpk, hc'⟩ := kept hs
              obtain ⟨here, hb⟩ := reads.closes p item own hfill hpk
              dsimp only at hs ⊢
              rw [hs]
              exact ⟨by simp [here], Cached.insert (fun ho answer hpr =>
                ⟨(hc' ho answer hpr).1, hb ho (hc' ho answer hpr).2⟩) here⟩
            · obtain ⟨par, hm, hit⟩ := hfo ho
              exact ⟨item, by simp, reads.spreads item own par hm hit⟩

end Search

end Apme.Lib
