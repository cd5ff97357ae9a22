import Apme.Builder.Definitions

/-!
# Keys of definitions

A file's key is its type and, after a blank, its owner, type and path.  The key
of a play or task starts with what follows the last blank of its parent's key,
so a path with a blank loses its front on the way down.  The keys of two
playbooks, their plays and their tasks are all different exactly when the owners
and paths still differ after the last blank.
-/

set_option autoImplicit false

namespace Apme.Builder

open Apme.Lib List

def keyDelimiter : Char := ':'

def objectDelimiter : Char := '#'

/-- `text.split(" ")[-1]`. -/
def lastWord (text : Text) : Text := text.rtakeWhile fun c => c ≠ ' '

def collectionType : Text := "collection".toList

def roleType : Text := "role".toList

def makeGlobalKeyPrefix (collection role : Text) : Text :=
  if collection ≠ [] then collectionType ++ keyDelimiter :: collection ++ [objectDelimiter]
  else if role ≠ [] then roleType ++ keyDelimiter :: role ++ [objectDelimiter]
  else []

/-- The fields of a playbook that its key is made of. -/
@[ext]
structure PlaybookSource where
  collection : Text := []
  role : Text := []
  definedIn : Text := []
  deriving DecidableEq

def playbookType : Text := "playbook".toList

def playType : Text := "play".toList

def taskType : Text := "task".toList

variable (playbook : PlaybookSource)

/-- Owner, type and path as they stand in the key. -/
def PlaybookSource.location : Text :=
  makeGlobalKeyPrefix playbook.collection playbook.role ++ playbookType ++
    keyDelimiter :: playbook.definedIn

def setPlaybookKey : Text := playbookType ++ ' ' :: playbook.location

variable (index : Int)

/-- The decimal text of an index. -/
def indexText : Text := (toString index).toList

/-- `set_play_key` and `set_task_key` differ in the type alone. -/
def setChildKey (type : Text) (index : Int) (parentKey : Text) : Text :=
  type ++ ' ' :: (lastWord parentKey ++ objectDelimiter :: type ++
    keyDelimiter :: '[' :: indexText index ++ [']'])

def setPlayKey (parentKey : Text) : Text := setChildKey playType index parentKey

def setTaskKey (parentKey : Text) : Text := setChildKey taskType index parentKey

/-- A playbook itself, one of its plays, or a task of one of them. -/
inductive Place
  | playbook
  | play (index : Int)
  | task (play index : Int)

def keyText : Place → Text
  | .playbook => setPlaybookKey playbook
  | .play index => setPlayKey index (setPlaybookKey playbook)
  | .task play index => setTaskKey index (setPlayKey play (setPlaybookKey playbook))

variable (place : Place)

def keyOf : String := String.ofList (keyText playbook place)

/-- Two owners and paths that differ after their last blank. -/
def Apart (p q : PlaybookSource) : Prop := lastWord p.location ≠ lastWord q.location

theorem lastWord_after_blank (front back : Text) :
    lastWord (front ++ ' ' :: back) = lastWord back := by
  unfold lastWord List.rtakeWhile
  rw [reverse_append, reverse_cons, append_assoc, singleton_append, takeWhile_append]
  split
  next all =>
    rw [(List.takeWhile_prefix _).eq_of_length all]
    simp
  next => rfl

theorem blank_notMem_lastWord (text : Text) : ' ' ∉ lastWord text := by
  intro mem
  simpa using mem_rtakeWhile_imp mem

theorem lastWord_of_notMem {text : Text} (ha : ' ' ∉ text) : lastWord text = text := by
  refine rtakeWhile_eq_self_iff.mpr fun c mem => ?_
  exact decide_eq_true fun hs => ha (hs ▸ mem)

theorem append_cons_inj_last {sep : Char} {front front' rest rest' : Text}
    (hs : front ++ sep :: rest = front' ++ sep :: rest') (ha : sep ∉ rest)
    (ha' : sep ∉ rest') : front = front' ∧ rest = rest' := by
  have hr := congrArg List.reverse hs
  simp only [reverse_append, reverse_cons, append_assoc, singleton_append] at hr
  obtain ⟨ht, hf⟩ := Text.append_cons_inj hr (by simpa using ha)
    (by simpa using ha')
  exact ⟨reverse_injective hf, reverse_injective ht⟩

theorem natText_digits {n : Nat} {c : Char} (mem : c ∈ n.repr.toList) : c.isDigit := by
  rw [Nat.toList_repr] at mem
  exact Nat.isDigit_of_mem_toDigits (by decide) (by decide) mem

theorem natText_inj {m n : Nat} (hs : m.repr.toList = n.repr.toList) : m = n := by
  rw [Nat.toList_repr, Nat.toList_repr] at hs
  have hv := congrArg (fun ds => Nat.ofDigitChars 10 ds 0) hs
  simpa only [Nat.ofDigitChars_toDigits (by decide : 1 < 10) (by decide : 10 ≤ 10)] using hv

theorem indexText_negSucc (n : Nat) : indexText (.negSucc n) = '-' :: (n + 1).repr.toList := by
  change ("-" ++ (n + 1).repr).toList = _
  rw [String.toList_append]
  rfl

theorem indexText_digits {i : Int} {c : Char} (mem : c ∈ indexText i) :
    c = '-' ∨ c.isDigit := by
  cases i with
  | ofNat n => exact .inr (natText_digits mem)
  | negSucc n =>
    rw [indexText_negSucc, mem_cons] at mem
    exact mem.imp_right natText_digits

theorem indexText_sign (m n : Nat) : indexText (.ofNat m) ≠ indexText (.negSucc n) := by
  intro hs
  rw [indexText_negSucc] at hs
  have sign : '-' ∈ indexText (.ofNat m) := hs ▸ mem_cons_self
  cases natText_digits sign

variable {i j : Int}

theorem indexText_inj (hs : indexText i = indexText j) : i = j := by
  cases i with
  | ofNat m =>
    cases j with
    | ofNat n => exact congrArg Int.ofNat (natText_inj hs)
    | negSucc n => exact absurd hs (indexText_sign m n)
  | negSucc m =>
    cases j with
    | ofNat n => exact absurd hs.symm (indexText_sign n m)
    | negSucc n =>
      rw [indexText_negSucc, indexText_negSucc] at hs
      exact congrArg Int.negSucc (Nat.succ.inj (natText_inj (List.cons.inj hs).2))

theorem childKey_inj {type par parent' : Text}
    (hs : par ++ objectDelimiter :: type ++ keyDelimiter :: '[' :: indexText i ++ [']'] =
      parent' ++ objectDelimiter :: type ++ keyDelimiter :: '[' :: indexText j ++ [']']) :
    par = parent' ∧ i = j := by
  have hb : ∀ index : Int, '[' ∉ indexText index ++ [']'] := by
    intro index mem
    rcases mem_append.mp mem with hdi | last
    · rcases indexText_digits hdi with hm | hd
      · cases hm
      · cases hd
    · cases mem_singleton.mp last
  simp only [append_assoc, cons_append] at hs
  have hr : (par ++ objectDelimiter :: (type ++ [keyDelimiter])) ++
      '[' :: (indexText i ++ [']']) =
        (parent' ++ objectDelimiter :: (type ++ [keyDelimiter])) ++
          '[' :: (indexText j ++ [']']) := by
    simpa using hs
  obtain ⟨hf, hi⟩ := append_cons_inj_last hr (hb i) (hb j)
  exact ⟨append_cancel_right hf, indexText_inj (append_cancel_right hi)⟩

theorem blank_notMem_index : ' ' ∉ indexText index := by
  intro mem
  rcases indexText_digits mem with hm | hd
  · cases hm
  · cases hd

theorem lastWord_childKey {type : Text} (hb : ' ' ∉ type) (i : Int) (parentKey : Text) :
    lastWord (setChildKey type i parentKey) =
      lastWord parentKey ++ objectDelimiter :: type ++ keyDelimiter :: '[' :: indexText i ++
        [']'] := by
  unfold setChildKey
  rw [lastWord_after_blank]
  refine lastWord_of_notMem ?_
  have hp := blank_notMem_lastWord parentKey
  have hd := blank_notMem_index i
  simp [objectDelimiter, keyDelimiter, hb, hp, hd]

theorem lastWord_playbookKey (pb : PlaybookSource) :
    lastWord (setPlaybookKey pb) = lastWord pb.location :=
  lastWord_after_blank _ _

section Injectivity

variable {p q : PlaybookSource}

theorem childKey_eq_iff {type : Text} {parentKey parentKey' : Text} :
    setChildKey type i parentKey = setChildKey type j parentKey' ↔
      lastWord parentKey = lastWord parentKey' ∧ i = j := by
  constructor
  · intro hs
    unfold setChildKey at hs
    exact childKey_inj (List.cons.inj (append_cancel_left hs)).2
  · rintro ⟨hw, rfl⟩
    unfold setChildKey
    rw [hw]

theorem playKey_eq_iff :
    setPlayKey i (setPlaybookKey p) = setPlayKey j (setPlaybookKey q) ↔ ¬Apart p q ∧ i = j := by
  unfold setPlayKey Apart
  rw [childKey_eq_iff, lastWord_playbookKey, lastWord_playbookKey, not_not]

theorem taskKey_eq_iff {i j k m : Int} :
    setTaskKey i (setPlayKey k (setPlaybookKey p)) =
        setTaskKey j (setPlayKey m (setPlaybookKey q)) ↔ ¬Apart p q ∧ k = m ∧ i = j := by
  have hb : ' ' ∉ playType := by decide
  unfold setTaskKey
  rw [childKey_eq_iff]
  unfold setPlayKey
  rw [lastWord_childKey hb, lastWord_childKey hb, lastWord_playbookKey,
    lastWord_playbookKey]
  constructor
  · rintro ⟨hw, rfl⟩
    obtain ⟨hl, rfl⟩ := childKey_inj hw
    exact ⟨not_not.mpr hl, rfl, rfl⟩
  · rintro ⟨ht, rfl, rfl⟩
    rw [not_not.mp ht]
    exact ⟨rfl, rfl⟩

/-- The type that stands in front of the key. -/
def Place.type : Place → Text
  | .playbook => playbookType
  | .play _ => playType
  | .task _ _ => taskType

theorem Place.blank_notMem_type : ' ' ∉ place.type := by
  have hb : ' ' ∉ playbookType ∧ ' ' ∉ playType ∧ ' ' ∉ taskType := by decide
  cases place with
  | playbook => exact hb.1
  | play i => exact hb.2.1
  | task play i => exact hb.2.2

variable {x y : Place}

theorem Place.type_eq (hs : keyText p x = keyText q y) : x.type = y.type := by
  have cut : ∀ (playbook : PlaybookSource) (place : Place), ∃ rest,
      keyText playbook place = place.type ++ ' ' :: rest := by
    intro playbook place
    cases place with
    | playbook => exact ⟨_, rfl⟩
    | play i => exact ⟨_, rfl⟩
    | task play i => exact ⟨_, rfl⟩
  obtain ⟨rest, isX⟩ := cut p x
  obtain ⟨rest', isY⟩ := cut q y
  rw [isX, isY] at hs
  exact (Text.append_cons_inj hs x.blank_notMem_type y.blank_notMem_type).1

theorem types_distinct :
    playbookType ≠ playType ∧ playbookType ≠ taskType ∧ playType ≠ taskType := by decide

theorem place_eq_of_keyText (hs : keyText p x = keyText q y) : x = y ∧ ¬Apart p q := by
  have hty := Place.type_eq hs
  obtain ⟨hp, ht, hpt⟩ := types_distinct
  cases x with
  | playbook =>
    cases y with
    | playbook =>
      have hw := congrArg lastWord hs
      rw [keyText, keyText, lastWord_playbookKey, lastWord_playbookKey] at hw
      exact ⟨rfl, not_not.mpr hw⟩
    | play j => exact absurd hty hp
    | task m j => exact absurd hty ht
  | play i =>
    cases y with
    | playbook => exact absurd hty hp.symm
    | play j =>
      obtain ⟨hto, rfl⟩ := playKey_eq_iff.mp hs
      exact ⟨rfl, hto⟩
    | task m j => exact absurd hty hpt
  | task k i =>
    cases y with
    | playbook => exact absurd hty ht.symm
    | play j => exact absurd hty hpt.symm
    | task m j =>
      obtain ⟨hto, rfl, rfl⟩ := taskKey_eq_iff.mp hs
      exact ⟨rfl, hto⟩

theorem keyOf_inj (hs : keyOf p x = keyOf q y) : x = y ∧ ¬Apart p q :=
  place_eq_of_keyText (String.ofList_injective hs)

end Injectivity

section Resolution

/-- The registered objects of the project are definitions of playbooks: each has
the key of its place, and no place has two. -/
structure Labelled (project : Project) (label : Nat → PlaybookSource × Place) : Prop where
  keys : ∀ address ∈ project.registered, ∃ definition,
    project.heap[address]? = some definition ∧
      definition.key = keyOf (label address).1 (label address).2
  single : ∀ a ∈ project.registered, ∀ b ∈ project.registered, label a = label b → a = b

variable {project : Project} {label : Nat → PlaybookSource × Place}

theorem keyOf_ne_empty : keyOf playbook place ≠ "" := by
  intro he
  have ht : keyText playbook place = [] := by
    have hl := congrArg String.toList he
    simpa [keyOf] using hl
  cases place with
  | playbook => cases ht
  | play i => cases ht
  | task play i => cases ht

theorem get?_foldl_register (hl : Labelled project label) {addresses : List Nat}
    (ha : addresses ⊆ project.registered)
    (hse : ∀ a ∈ project.registered, ∀ b ∈ project.registered,
      keyOf (label a).1 (label a).2 = keyOf (label b).1 (label b).2 → a = b)
    (keys : Dict String Nat) {addr : Nat} (hR : addr ∈ project.registered) :
    (addresses.foldl project.register keys).get? (keyOf (label addr).1 (label addr).2) =
      if addr ∈ addresses then some addr
      else keys.get? (keyOf (label addr).1 (label addr).2) := by
  induction addresses generalizing keys with
  | nil => simp
  | cons first rest ih =>
    have hp := ha mem_cons_self
    obtain ⟨definition, hf, key⟩ := hl.keys first hp
    have hr : project.register keys first =
        keys.insert (keyOf (label first).1 (label first).2) first := by
      unfold Project.register
      rw [hf]
      simp only [key]
      rw [if_neg (keyOf_ne_empty _ _)]
    rw [foldl_cons, ih (fun a mem => ha (mem_cons_of_mem first mem)),
      hr, Dict.get?_insert]
    by_cases hs : addr = first
    · subst hs
      simp
    · have ho : keyOf (label addr).1 (label addr).2 ≠ keyOf (label first).1 (label first).2 :=
        fun he => hs (hse addr hR first hp he)
      simp [hs, ho]

theorem resolve_own (hl : Labelled project label)
    (ha : ∀ a ∈ project.registered, ∀ b ∈ project.registered,
      (label a).1 ≠ (label b).1 → Apart (label a).1 (label b).1)
    {addr : Nat} (hR : addr ∈ project.registered) :
    project.resolve (.key (keyOf (label addr).1 (label addr).2)) = project.heap[addr]? := by
  have hs : ∀ a ∈ project.registered, ∀ b ∈ project.registered,
      keyOf (label a).1 (label a).2 = keyOf (label b).1 (label b).2 → a = b := by
    intro a inA b inB he
    obtain ⟨hpl, ht⟩ := keyOf_inj he
    have hp : (label a).1 = (label b).1 := by
      by_contra hd
      exact ht (ha a inA b inB hd)
    exact hl.single a inA b inB (Prod.ext hp hpl)
  have hf := get?_foldl_register hl (List.Subset.refl _) hs Dict.empty hR
  rw [if_pos hR] at hf
  unfold Project.resolve Project.objectByKey
  simp only [hf, Option.bind_some]

/-- All keys of two playbooks, their plays and their tasks are different, and every
project of their definitions resolves each key to its own definition, exactly
when the playbooks are apart. -/
theorem definitions_identified_iff (p q : PlaybookSource) :
    ((∀ x y, keyOf p x ≠ keyOf q y) ∧
      ∀ project label, Labelled project label →
        (∀ address ∈ project.registered, (label address).1 = p ∨ (label address).1 = q) →
        ∀ address ∈ project.registered,
          project.resolve (.key (keyOf (label address).1 (label address).2)) =
            project.heap[address]?) ↔ Apart p q := by
  constructor
  · rintro ⟨distinct, -⟩
    by_contra together
    exact distinct (.play 0) (.play 0) (congrArg String.ofList (playKey_eq_iff.mpr ⟨together, rfl⟩))
  · intro apart
    refine ⟨fun x y same => (keyOf_inj same).2 apart, ?_⟩
    intro project label labelled members address isRegistered
    refine resolve_own labelled ?_ isRegistered
    intro a inA b inB differ
    rcases members a inA with isA | isA <;> rcases members b inB with isB | isB
    · exact absurd (isA.trans isB.symm) differ
    · rw [isA, isB]
      exact apart
    · rw [isA, isB]
      exact fun same => apart same.symm
    · exact absurd (isA.trans isB.symm) differ

end Resolution

def prodDeploy : PlaybookSource := { definedIn := "prod/site deploy.yml".toList }

def testDeploy : PlaybookSource := { definedIn := "test/site deploy.yml".toList }

/-- The first plays of the two playbooks, as objects of one project. -/
def deployProject : Project :=
  { heap :=
      [.play { key := keyOf prodDeploy (.play 0), name := "production" },
        .play { key := keyOf testDeploy (.play 0), name := "test" }]
    root := { plays := [0, 1] } }

/-- Both first plays have the key of a play of `deploy.yml`, so the reference from
the first playbook resolves to the play of the second. -/
theorem deploys_confused :
    prodDeploy ≠ testDeploy ∧ keyOf prodDeploy (.play 0) = keyOf testDeploy (.play 0) ∧
      (deployProject.resolvePlay (.key (keyOf prodDeploy (.play 0)))).map PlayDef.name =
        some "test" := by
  decide

end Apme.Builder
