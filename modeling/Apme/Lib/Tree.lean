import Apme.Lib.Outcome

/-!
# Data trees

Trees of leaves, sequences and mappings with pairwise different keys, as a
document format loads them.  `observe` reads a tree along a path; two trees with
the same observations are the same data, whatever the order of their keys.
`walk` is a rewriting pass that enters sequences and the values of some keys and
rewrites every mapping it meets, after the values in it.
-/

set_option autoImplicit false

namespace Apme.Lib

open List Option

inductive DataTree (α : Type)
  | leaf (value : α)
  | seq (items : List (DataTree α))
  | map (entries : List (α × DataTree α))

namespace DataTree

variable {α β κ ε : Type}

@[induction_eliminator]
theorem induct {h : DataTree α → Prop} (leaf : ∀ v, h (.leaf v))
    (seq : ∀ xs, (∀ x ∈ xs, h x) → h (.seq xs))
    (map : ∀ es, (∀ e ∈ es, h e.2) → h (.map es))
    (tree : DataTree α) : h tree :=
  @DataTree.rec α h (fun xs => ∀ x ∈ xs, h x)
    (fun es => ∀ e ∈ es, h e.2) (fun e => h e.2)
    leaf seq map
    (fun _ mem => absurd mem not_mem_nil)
    (fun _ _ first rest => forall_mem_cons.mpr ⟨first, rest⟩)
    (fun _ mem => absurd mem not_mem_nil)
    (fun _ _ first rest => forall_mem_cons.mpr ⟨first, rest⟩)
    (fun _ _ v => v) tree

/-- The keys of every mapping are pairwise different. -/
inductive WellFormed : DataTree α → Prop
  | leaf (value : α) : WellFormed (.leaf value)
  | seq (items : List (DataTree α)) : (∀ item ∈ items, WellFormed item) → WellFormed (.seq items)
  | map (entries : List (α × DataTree α)) : (entries.map Prod.fst).Nodup →
      (∀ entry ∈ entries, WellFormed entry.2) → WellFormed (.map entries)

@[simp]
theorem wellFormed_leaf (v : α) : WellFormed (.leaf v) := .leaf v

@[simp]
theorem wellFormed_seq_iff (xs : List (DataTree α)) :
    WellFormed (.seq xs) ↔ ∀ item ∈ xs, WellFormed item := by
  refine ⟨fun hf => ?_, .seq xs⟩
  cases hf
  assumption

@[simp]
theorem wellFormed_map_iff (es : List (α × DataTree α)) :
    WellFormed (.map es) ↔ (es.map Prod.fst).Nodup ∧ ∀ e ∈ es, WellFormed e.2 := by
  refine ⟨fun hf => ?_, fun hb => .map es hb.1 hb.2⟩
  cases hf with
  | map _ hn hv => exact ⟨hn, hv⟩

variable {entries : List (α × DataTree α)}

theorem WellFormed.distinct (hf : WellFormed (.map entries)) : (entries.map Prod.fst).Nodup :=
  ((wellFormed_map_iff entries).mp hf).1

theorem WellFormed.value (hf : WellFormed (.map entries))
    {e : α × DataTree α} (mem : e ∈ entries) : WellFormed e.2 :=
  ((wellFormed_map_iff entries).mp hf).2 e mem

theorem WellFormed.item {xs : List (DataTree α)} (hf : WellFormed (.seq xs))
    {item : DataTree α} (mem : item ∈ xs) : WellFormed item :=
  (wellFormed_seq_iff xs).mp hf item mem

variable {γ δ : Type}

section

variable {related : γ → δ → Prop} {old : List γ}

theorem exists_of_forall₂_right {new : List δ} (he : List.Forall₂ related old new) {b : δ}
    (mem : b ∈ new) : ∃ a ∈ old, related a b := by
  induction he with
  | nil => cases mem
  | cons first _ ih =>
    rcases mem_cons.mp mem with rfl | hl
    · exact ⟨_, mem_cons_self, first⟩
    · obtain ⟨a, hi, hs⟩ := ih hl
      exact ⟨a, mem_cons_of_mem _ hi, hs⟩

theorem exists_of_forall₂_left {new : List δ} (he : List.Forall₂ related old new) {a : γ}
    (mem : a ∈ old) : ∃ b ∈ new, related a b := by
  have hf : List.Forall₂ (flip related) new old := List.Forall₂.flip he
  exact exists_of_forall₂_right hf mem

theorem exists_forall₂
    (he : ∀ a ∈ old, ∃ b, related a b) : ∃ new, List.Forall₂ related old new := by
  induction old with
  | nil => exact ⟨[], .nil⟩
  | cons a rest ih =>
    rw [forall_mem_cons] at he
    obtain ⟨b, first⟩ := he.1
    obtain ⟨new, ho⟩ := ih he.2
    exact ⟨b :: new, .cons first ho⟩

end

theorem bind_eq_of_rel {r : γ → γ → Prop} {old new : Option γ}
    {f : γ → Option δ} (step : Option.Rel r old new)
    (hs : ∀ a ∈ old, ∀ b, r a b → f b = f a) : new.bind f = old.bind f := by
  cases step with
  | none => rfl
  | some first => exact hs _ rfl _ first

section Observation

inductive Step (κ : Type)
  | key (key : κ)
  | item (index : Nat)
  deriving DecidableEq

inductive Shape (β : Type)
  | leaf (value : β)
  | seq (length : Nat)
  | map
  deriving DecidableEq

variable (keyOf : α → κ) [DecidableEq κ] (view : α → β)

/-- The value of the first key that is seen as `key`. -/
def find (entries : List (α × DataTree α)) (key : κ) : Option (DataTree α) :=
  (entries.find? fun entry => keyOf entry.1 = key).map Prod.snd

def shape : DataTree α → Shape β
  | .leaf value => .leaf (view value)
  | .seq items => .seq items.length
  | .map _ => .map

/-- What stands at the end of a path, if the path leads anywhere. -/
def observe : DataTree α → List (Step κ) → Option (Shape β)
  | tree, [] => some (shape view tree)
  | .seq items, .item index :: path => items[index]?.bind fun item => observe item path
  | .map entries, .key key :: path => (find keyOf entries key).bind fun value => observe value path
  | _, _ :: _ => none

/-- The part of a tree a path leads to. -/
def subtree : DataTree α → List (Step κ) → Option (DataTree α)
  | tree, [] => some tree
  | .seq items, .item index :: path => items[index]?.bind fun item => subtree item path
  | .map entries, .key key :: path => (find keyOf entries key).bind fun value => subtree value path
  | _, _ :: _ => none

/-- A rewritten value: the old one, or a leaf that looks like the old leaf. -/
def Agrees (old new : DataTree α) : Prop :=
  new = old ∨ ∃ before after, old = .leaf before ∧ new = .leaf after ∧ view after = view before

variable {keyOf view}

variable {entry : α × DataTree α} {key : κ}

theorem find_cons_of_eq (hs : keyOf entry.1 = key)
    (rest : List (α × DataTree α)) : find keyOf (entry :: rest) key = some entry.2 := by
  simp [find, hs]

theorem find_cons_of_ne (ho : keyOf entry.1 ≠ key)
    (rest : List (α × DataTree α)) : find keyOf (entry :: rest) key = find keyOf rest key := by
  simp [find, ho]

def Shape.onLeaf {γ : Type} (f : β → γ) : Shape β → Shape γ
  | .leaf value => .leaf (f value)
  | .seq length => .seq length
  | .map => .map

theorem observe_comp {γ : Type} (f : β → γ) (tree : DataTree α) (p : List (Step κ)) :
    observe keyOf (f ∘ view) tree p = (observe keyOf view tree p).map (Shape.onLeaf f) := by
  induction p generalizing tree with
  | nil => cases tree <;> rfl
  | cons step rest ih =>
    cases tree with
    | leaf v => cases step <;> rfl
    | seq xs =>
      cases step with
      | key key => rfl
      | item i =>
        simp only [observe, ih, Option.map_bind]
        rfl
    | map es =>
      cases step with
      | item i => rfl
      | key key =>
        simp only [observe, ih, Option.map_bind]
        rfl

theorem observe_agrees {old new : DataTree α} (hag : Agrees view old new) (path : List (Step κ)) :
    observe keyOf view new path = observe keyOf view old path := by
  rcases hag with rfl | ⟨before, a, rfl, rfl, hs⟩
  · rfl
  · cases path with
    | nil => simp only [observe, shape, hs]
    | cons step rest => cases step <;> rfl

variable {entries : List (α × DataTree α)} {value : DataTree α}

theorem find_of_mem (hn : (entries.map Prod.fst).Nodup)
    {k : α} (ha : ∀ o, keyOf o = keyOf k → o = k)
    (mem : (k, value) ∈ entries) : find keyOf entries (keyOf k) = some value := by
  induction entries with
  | nil => cases mem
  | cons e rest ih =>
    rw [map_cons, nodup_cons] at hn
    rcases mem_cons.mp mem with rfl | hl
    · exact find_cons_of_eq rfl rest
    · rw [find_cons_of_ne _ rest]
      · exact ih hn.2 hl
      · intro hs
        rw [ha e.1 hs] at hn
        exact hn.1 (mem_map_of_mem (f := Prod.fst) hl)

theorem mem_of_find (hf : find keyOf entries key = some value) :
    ∃ own, (own, value) ∈ entries ∧ keyOf own = key := by
  obtain ⟨e, hl, rfl⟩ := map_eq_some_iff.mp hf
  exact ⟨e.1, mem_of_find?_eq_some hl, by simpa using List.find?_some hl⟩

end Observation

section Walk

variable (nested : α → Bool)
  (rewrite : List (α × DataTree α) → Except ε (List (α × DataTree α)))

mutual

def walk : DataTree α → Except ε (DataTree α)
  | .leaf value => .ok (.leaf value)
  | .seq items => do return .seq (← walkItems items)
  | .map entries => do return .map (← rewrite (← walkEntries entries))

def walkItems : List (DataTree α) → Except ε (List (DataTree α))
  | [] => .ok []
  | item :: rest => do return (← walk item) :: (← walkItems rest)

def walkEntries : List (α × DataTree α) → Except ε (List (α × DataTree α))
  | [] => .ok []
  | (key, value) :: rest => do
      let value ← (if nested key then walk value else .ok value)
      return (key, value) :: (← walkEntries rest)

end

mutual

/-- The mappings a walk meets, as they are before it. -/
def visited : DataTree α → List (List (α × DataTree α))
  | .leaf _ => []
  | .seq items => visitedItems items
  | .map entries => entries :: visitedEntries entries

def visitedItems : List (DataTree α) → List (List (α × DataTree α))
  | [] => []
  | item :: rest => visited item ++ visitedItems rest

def visitedEntries : List (α × DataTree α) → List (List (α × DataTree α))
  | [] => []
  | (key, value) :: rest => (if nested key then visited value else []) ++ visitedEntries rest

end

/-- What a walk makes of one entry. -/
def Entered (old new : α × DataTree α) : Prop :=
  new.1 = old.1 ∧ (nested old.1 → walk nested rewrite old.2 = .ok new.2) ∧
    (nested old.1 = false → new.2 = old.2)

variable {nested rewrite}

variable {items : List (DataTree α)} {mapping : List (α × DataTree α)}

theorem mem_visitedItems :
    mapping ∈ visitedItems nested items ↔ ∃ item ∈ items, mapping ∈ visited nested item := by
  induction items with
  | nil => simp [visitedItems]
  | cons item rest ih => simp [visitedItems, ih]

variable {entries : List (α × DataTree α)}

theorem mem_visitedEntries :
    mapping ∈ visitedEntries nested entries ↔
      ∃ e ∈ entries, nested e.1 ∧ mapping ∈ visited nested e.2 := by
  induction entries with
  | nil => simp [visitedEntries]
  | cons e rest ih =>
    rcases e with ⟨k, v⟩
    by_cases he : nested k <;> simp [visitedEntries, ih, he]

theorem walkItems_eq_mapM : walkItems nested rewrite items = items.mapM (walk nested rewrite) := by
  induction items with
  | nil => rfl
  | cons x rest ih => rw [walkItems, mapM_cons, ih]

theorem entered_iff {k : α} {v : DataTree α} {new : α × DataTree α} :
    Entered nested rewrite (k, v) new ↔ ∃ newValue,
      (if nested k then walk nested rewrite v else .ok v) = .ok newValue ∧ new = (k, newValue) := by
  rcases new with ⟨newKey, newValue⟩
  cases he : nested k <;> simp [Entered, he, and_comm, eq_comm]

theorem walkEntries_ok {new : List (α × DataTree α)} :
    walkEntries nested rewrite entries = .ok new ↔
      List.Forall₂ (Entered nested rewrite) entries new := by
  induction entries generalizing new with
  | nil => cases new <;> simp [walkEntries]
  | cons e rest ih =>
    rcases e with ⟨k, v⟩
    simp only [walkEntries, bind_eq_ok, ih, pure, Except.pure, Except.ok.injEq,
      forall₂_cons_left_iff, entered_iff]
    constructor
    · rintro ⟨newValue, hs, o, ho, rfl⟩
      exact ⟨(k, newValue), o, ⟨newValue, hs, rfl⟩, ho, rfl⟩
    · rintro ⟨_, o, ⟨newValue, hs, rfl⟩, ho, rfl⟩
      exact ⟨newValue, hs, o, ho, rfl⟩

variable {new : DataTree α}

theorem walk_seq_ok :
    walk nested rewrite (.seq items) = .ok new ↔ ∃ newItems,
      List.Forall₂ (fun old new => walk nested rewrite old = .ok new) items newItems ∧
        new = .seq newItems := by
  simp only [walk, bind_eq_ok, walkItems_eq_mapM, mapM_eq_ok, pure, Except.pure,
    Except.ok.injEq, eq_comm (a := new)]

theorem walk_map_ok :
    walk nested rewrite (.map entries) = .ok new ↔ ∃ came newEntries,
      List.Forall₂ (Entered nested rewrite) entries came ∧ rewrite came = .ok newEntries ∧
        new = .map newEntries := by
  simp only [walk, bind_eq_ok, walkEntries_ok, pure, Except.pure, Except.ok.injEq, exists_and_left,
    eq_comm (a := new)]

theorem Entered.keys {came : List (α × DataTree α)}
    (he : List.Forall₂ (Entered nested rewrite) entries came) :
    came.map Prod.fst = entries.map Prod.fst := by
  induction he with
  | nil => rfl
  | cons first _ ih => rw [map_cons, map_cons, first.1, ih]

theorem walk_unchanged {tree : DataTree α}
    (hs : ∀ mapping ∈ visited nested tree, rewrite mapping = .ok mapping) :
    walk nested rewrite tree = .ok tree := by
  induction tree with
  | leaf v => rfl
  | seq xs ih =>
    refine walk_seq_ok.mpr ⟨xs, forall₂_same.mpr fun x hm => ?_, rfl⟩
    refine ih x hm fun mapping met => hs mapping ?_
    exact mem_visitedItems.mpr ⟨x, hm, met⟩
  | map e₁ ih =>
    refine walk_map_ok.mpr ⟨e₁, e₁, forall₂_same.mpr fun e hm => ?_, hs e₁ mem_cons_self, rfl⟩
    refine ⟨rfl, fun hen => ?_, fun _ => rfl⟩
    refine ih e hm fun mapping met => hs mapping (mem_cons_of_mem _ ?_)
    exact mem_visitedEntries.mpr ⟨e, hm, hen, met⟩

/-- Where entering the values does not decide whether a mapping is rewritten,
a walk succeeds if the rewriting does on every mapping it meets. -/
theorem walk_ok_iff (ha : ∀ entries came, List.Forall₂ (Entered nested rewrite) entries came →
      ((∃ new, rewrite came = .ok new) ↔ ∃ new, rewrite entries = .ok new)) (tree : DataTree α) :
    (∃ new, walk nested rewrite tree = .ok new) ↔
      ∀ mapping ∈ visited nested tree, ∃ new, rewrite mapping = .ok new := by
  induction tree with
  | leaf value => simp [walk, visited]
  | seq items ih =>
    constructor
    · rintro ⟨_, hwa⟩ mapping met
      obtain ⟨newItems, each, rfl⟩ := walk_seq_ok.mp hwa
      obtain ⟨item, hii, met⟩ := mem_visitedItems.mp met
      obtain ⟨new, _, hs⟩ := exists_of_forall₂_left each hii
      exact (ih item hii).mp ⟨new, hs⟩ mapping met
    · intro all
      obtain ⟨newItems, each⟩ := exists_forall₂ fun item hii => (ih item hii).mpr fun mapping met =>
        all mapping (mem_visitedItems.mpr ⟨item, hii, met⟩)
      exact ⟨_, walk_seq_ok.mpr ⟨newItems, each, rfl⟩⟩
  | map entries ih =>
    rw [visited, forall_mem_cons]
    constructor
    · rintro ⟨_, hwa⟩
      obtain ⟨came, n, each, hw, rfl⟩ := walk_map_ok.mp hwa
      refine ⟨(ha entries came each).mp ⟨_, hw⟩, fun mapping met => ?_⟩
      obtain ⟨entry, hi, he, met⟩ := mem_visitedEntries.mp met
      obtain ⟨new, _, _, hin, _⟩ := exists_of_forall₂_left each hi
      exact (ih entry hi).mp ⟨_, hin he⟩ mapping met
    · rintro ⟨here, hb⟩
      have hen : ∀ entry ∈ entries, ∃ new, Entered nested rewrite entry new := by
        intro entry hi
        cases he : nested entry.1 with
        | true =>
          obtain ⟨value, hwa⟩ := (ih entry hi).mpr fun mapping met =>
            hb mapping (mem_visitedEntries.mpr ⟨entry, hi, he, met⟩)
          exact ⟨(entry.1, value), rfl, fun _ => hwa, by simp [he]⟩
        | false => exact ⟨entry, rfl, by simp [he], fun _ => rfl⟩
      obtain ⟨came, each⟩ := exists_forall₂ hen
      obtain ⟨n, hw⟩ := (ha entries came each).mpr here
      exact ⟨_, walk_map_ok.mpr ⟨came, n, each, hw, rfl⟩⟩

theorem walk_wellFormed
    (hk : ∀ es new, WellFormed (.map es) → rewrite es = .ok new → WellFormed (.map new))
    (tree new : DataTree α) (hf : WellFormed tree) (hw : walk nested rewrite tree = .ok new) :
    WellFormed new := by
  induction tree generalizing new with
  | leaf v =>
    cases hw
    exact hf
  | seq xs ih =>
    obtain ⟨newItems, each, rfl⟩ := walk_seq_ok.mp hw
    refine .seq newItems fun x mem => ?_
    obtain ⟨old, hoi, hs⟩ := exists_of_forall₂_right each mem
    exact ih old hoi x (hf.item hoi) hs
  | map es ih =>
    obtain ⟨came, e₁, each, hwr, rfl⟩ := walk_map_ok.mp hw
    refine hk came e₁ (.map came ?_ fun e mem => ?_) hwr
    · rw [Entered.keys each]
      exact hf.distinct
    · obtain ⟨old, hoi, _, hi, ho⟩ := exists_of_forall₂_right each mem
      cases hen : nested old.1 with
      | true => exact ih old hoi e.2 (hf.value hoi) (hi hen)
      | false =>
        rw [ho hen]
        exact hf.value hoi

/-- A path of one step, or one that starts where a walk goes on. -/
def Along (keyOf : α → κ) (nested : α → Bool) : List (Step κ) → Prop
  | [] => False
  | [_] => True
  | .item _ :: _ :: _ => True
  | .key key :: _ :: _ => ∃ own, nested own ∧ keyOf own = key

variable {keyOf : α → κ} {path : List (Step κ)}

theorem Along.item (i : Nat) : Along keyOf nested (.item i :: path) := by
  cases path <;> trivial

theorem Along.key {own : α} (he : nested own) :
    Along keyOf nested (.key (keyOf own) :: path) := by
  cases path with
  | nil => trivial
  | cons _ _ => exact ⟨own, he, rfl⟩

end Walk

section Observing

variable {keyOf : α → κ} [DecidableEq κ] {view : α → β} {nested : α → Bool}
  {rewrite : List (α × DataTree α) → Except ε (List (α × DataTree α))}

theorem find_entered (keyOf : α → κ) {es came : List (α × DataTree α)}
    (each : List.Forall₂ (Entered nested rewrite) es came) (k : κ) :
    Option.Rel (fun old new => new = old ∨ walk nested rewrite old = .ok new)
      (find keyOf es k) (find keyOf came k) := by
  induction each with
  | nil => exact .none
  | @cons old new rest newRest first _ ih =>
    by_cases hs : keyOf old.1 = k
    · rw [find_cons_of_eq hs, find_cons_of_eq (by rw [first.1, hs])]
      refine .some ?_
      cases he : nested old.1 with
      | true => exact .inr (first.2.1 he)
      | false => exact .inl (first.2.2 he)
    · rw [find_cons_of_ne hs, find_cons_of_ne (by rw [first.1]; exact hs)]
      exact ih

theorem observe_walk
    (hk : ∀ es new, (es.map Prod.fst).Nodup → rewrite es = .ok new →
      ∀ key, Option.Rel (Agrees view) (find keyOf es key) (find keyOf new key))
    (tree new : DataTree α) (hf : WellFormed tree) (hw : walk nested rewrite tree = .ok new)
    (path : List (Step κ)) : observe keyOf view new path = observe keyOf view tree path := by
  induction path generalizing tree new with
  | nil =>
    cases tree with
    | leaf v =>
      cases hw
      rfl
    | seq i =>
      obtain ⟨n, he, rfl⟩ := walk_seq_ok.mp hw
      simp only [observe, shape, he.length_eq]
    | map es =>
      obtain ⟨_, _, _, _, rfl⟩ := walk_map_ok.mp hw
      rfl
  | cons step rest ih =>
    cases tree with
    | leaf v =>
      cases hw
      rfl
    | seq i =>
      obtain ⟨n, he, rfl⟩ := walk_seq_ok.mp hw
      cases step with
      | key key => rfl
      | item index =>
        simp only [observe]
        by_cases hi : index < i.length
        · have hn : index < n.length := he.length_eq ▸ hi
          rw [List.getElem?_eq_getElem hi, List.getElem?_eq_getElem hn]
          exact ih _ _ (hf.item (getElem_mem hi)) (he.get hi hn)
        · have ho : i.length ≤ index := Nat.not_lt.mp hi
          rw [List.getElem?_eq_none ho, List.getElem?_eq_none (he.length_eq ▸ ho)]
    | map es =>
      obtain ⟨came, ne, he, hwr, rfl⟩ := walk_map_ok.mp hw
      cases step with
      | item index => rfl
      | key key =>
        have hno : (came.map Prod.fst).Nodup := by
          rw [Entered.keys he]
          exact hf.distinct
        simp only [observe]
        rw [bind_eq_of_rel (hk came ne hno hwr key)
          fun _ _ _ ha => observe_agrees ha rest]
        refine bind_eq_of_rel (find_entered keyOf he key) fun old hfo new step => ?_
        obtain ⟨own, hm, _⟩ := mem_of_find hfo
        rcases step with rfl | hi
        · rfl
        · exact ih old new (hf.value hm) hi

/-- A path on which every key is entered. -/
def Leads (keyOf : α → κ) (nested : α → Bool) (path : List (Step κ)) : Prop :=
  ∀ key, .key key ∈ path → ∃ own, nested own ∧ keyOf own = key

theorem walk_ne_leaf {tree new : DataTree α} (hi : ∀ value, tree ≠ .leaf value)
    (hw : walk nested rewrite tree = .ok new) (value : α) : new ≠ .leaf value := by
  cases tree with
  | leaf own => exact absurd rfl (hi own)
  | seq xs =>
    obtain ⟨_, _, rfl⟩ := walk_seq_ok.mp hw
    exact nofun
  | map es =>
    obtain ⟨_, _, _, _, rfl⟩ := walk_map_ok.mp hw
    exact nofun

theorem visited_ne_leaf {tree : DataTree α} {mapping : List (α × DataTree α)}
    (met : mapping ∈ visited nested tree) (value : α) : tree ≠ .leaf value := by
  rintro rfl
  simp [visited] at met

-- no rewriting hides what the walk has entered
variable (passes : ∀ entries new key value, (entries.map Prod.fst).Nodup → rewrite entries = .ok new →
    nested key → (key, value) ∈ entries → (∀ text, value ≠ .leaf text) →
    find keyOf new (keyOf key) = some value)
  (alone : ∀ key other, nested key → keyOf other = keyOf key → other = key)

include passes alone

/-- Every part on the way of a walk is in its place after it, walked through. -/
theorem subtree_walk (path : List (Step κ)) (hle : Leads keyOf nested path)
    (tree new part : DataTree α)
    (hfo : WellFormed tree) (hw : walk nested rewrite tree = .ok new)
    (hl : subtree keyOf tree path = some part) (inner : ∀ value, part ≠ .leaf value) :
    ∃ newPart, walk nested rewrite part = .ok newPart ∧ subtree keyOf new path = some newPart ∧
      WellFormed part := by
  induction path generalizing tree new with
  | nil =>
    cases hl
    exact ⟨new, hw, rfl, hfo⟩
  | cons hs rest ih =>
    have ho : Leads keyOf nested rest := fun key hm =>
      hle key (mem_cons_of_mem hs hm)
    cases tree with
    | leaf value => cases hs <;> cases hl
    | seq items =>
      obtain ⟨i₁, each, rfl⟩ := walk_seq_ok.mp hw
      cases hs with
      | key key => cases hl
      | item i =>
        obtain ⟨item, hI, hbe⟩ := bind_eq_some_iff.mp hl
        obtain ⟨hb, rfl⟩ := List.getElem?_eq_some_iff.mp hI
        have hn : i < i₁.length := each.length_eq ▸ hb
        obtain ⟨newPart, hs, hN, hpf⟩ := ih ho items[i] i₁[i]
          (hfo.item (getElem_mem hb)) (each.get hb hn) hbe
        refine ⟨newPart, hs, ?_, hpf⟩
        simpa only [subtree, List.getElem?_eq_getElem hn, bind_some] using hN
    | map entries =>
      obtain ⟨came, e, each, hwr, rfl⟩ := walk_map_ok.mp hw
      cases hs with
      | item i => cases hl
      | key key =>
        obtain ⟨value, hf, hbe⟩ := bind_eq_some_iff.mp hl
        obtain ⟨own, hen, rfl⟩ := hle key mem_cons_self
        obtain ⟨same, hm, hlo⟩ := mem_of_find hf
        cases alone own same hen hlo
        obtain ⟨⟨newOwn, newValue⟩, hni, hk, hst, _⟩ :=
          exists_of_forall₂_left each hm
        cases hk
        have hvi : ∀ text, value ≠ .leaf text := by
          rintro text rfl
          cases rest with
          | nil => exact inner text (Option.some.inj hbe).symm
          | cons hs _ => cases hs <;> cases hbe
        have hno : (came.map Prod.fst).Nodup := by
          rw [Entered.keys each]
          exact hfo.distinct
        have hfn : find keyOf e (keyOf own) = some newValue :=
          passes came e own newValue hno hwr hen hni (walk_ne_leaf hvi (hst hen))
        obtain ⟨newPart, hs, hN, hpf⟩ :=
          ih ho value newValue (hfo.value hm) (hst hen) hbe
        exact ⟨newPart, hs, by simpa only [subtree, hfn, bind_some] using hN, hpf⟩

/-- If the rewriting of a mapping shows, then a walk that meets such a mapping is observed. -/
theorem walk_differs {touched : List (α × DataTree α) → Prop}
    (hsh : ∀ entries came new, (entries.map Prod.fst).Nodup →
      List.Forall₂ (Entered nested rewrite) entries came → touched entries →
      rewrite came = .ok new →
      ∃ key, (find keyOf new key).map (shape view) ≠ (find keyOf entries key).map (shape view))
    (tree new : DataTree α) (hfo : WellFormed tree) (hwa : walk nested rewrite tree = .ok new)
    (mapping : List (α × DataTree α)) (met : mapping ∈ visited nested tree) (ht : touched mapping) :
    ∃ path, Along keyOf nested path ∧
      observe keyOf view new path ≠ observe keyOf view tree path := by
  induction tree generalizing new with
  | leaf value => simp [visited] at met
  | seq items ih =>
    obtain ⟨i₁, each, rfl⟩ := walk_seq_ok.mp hwa
    obtain ⟨item, hm, his⟩ := mem_visitedItems.mp met
    obtain ⟨i, hb, rfl⟩ := mem_iff_getElem.mp hm
    have hn : i < i₁.length := each.length_eq ▸ hb
    obtain ⟨path, _, hd⟩ :=
      ih _ hm i₁[i] (hfo.item hm) (each.get hb hn) his
    refine ⟨.item i :: path, .item i, ?_⟩
    simpa only [observe, List.getElem?_eq_getElem hb, List.getElem?_eq_getElem hn,
      bind_some] using hd
  | map entries ih =>
    obtain ⟨came, e, each, hw, rfl⟩ := walk_map_ok.mp hwa
    rcases mem_cons.mp met with rfl | hbe
    · obtain ⟨key, hd⟩ := hsh mapping came e hfo.distinct each ht hw
      refine ⟨[.key key], trivial, ?_⟩
      simpa only [observe, map_eq_bind, Function.comp_def] using hd
    · obtain ⟨⟨key, value⟩, hm, hen, his⟩ := mem_visitedEntries.mp hbe
      obtain ⟨⟨newKey, newValue⟩, hni, hk, hs, _⟩ := exists_of_forall₂_left each hm
      cases hk
      have step := hs hen
      obtain ⟨path, _, hd⟩ := ih _ hm newValue (hfo.value hm) step his
      have hno : (came.map Prod.fst).Nodup := by
        rw [Entered.keys each]
        exact hfo.distinct
      have hf : find keyOf entries (keyOf key) = some value :=
        find_of_mem hfo.distinct (fun other => alone key other hen) hm
      have hfn : find keyOf e (keyOf key) = some newValue :=
        passes came e key newValue hno hw hen hni (walk_ne_leaf (visited_ne_leaf his) step)
      refine ⟨.key (keyOf key) :: path, .key hen, ?_⟩
      simpa only [observe, hf, hfn, bind_some] using hd

end Observing

end DataTree

end Apme.Lib
