import Apme.Formatter.Yaml
import Apme.Lib.Dict
import Mathlib.Data.Multiset.AddSub
import Mathlib.Data.Multiset.Filter

/-!
# Turning `with_*` into `loop`

The transform of rule M009 and what a task with literal values runs over: for
every iteration keyword in it a sequence of items, or none where the value is no
list and the keyword needs one.
-/

set_option autoImplicit false

namespace Apme.Remediation.WithToLoop

open Apme.Lib Apme.Formatter List Dict

abbrev Task := Dict Scalar Yaml

def loop : Scalar := .word "loop"

/-- `_WITH_SIMPLE`. -/
def withSimple : List Scalar := [.word "with_items", .word "with_list", .word "with_flattened"]

/-- The order in which a run of the program lists the frozen set. -/
structure SetOrder where
  listed : List Scalar
  perm : listed.Perm withSimple

def convert (key : Scalar) (task : Task) : Bool × Task :=
  match task.get? key with
  | some value => (true, (task.filterKeys fun other => other ≠ key).insert loop value)
  | none => (false, task)

/-- The returned flag and the task as it is left. -/
def fixWithToLoop (order : SetOrder) (withKey : Scalar) (task : Task) : Bool × Task :=
  if withKey ∈ withSimple ∧ withKey ∈ task.keys then convert withKey task
  else match order.listed.find? fun key => key ∈ task.keys with
    | some key => convert key task
    | none => (false, task)

mutual

def flattened : Yaml → List Yaml
  | .seq items => flattenedItems items
  | value => [value]

def flattenedItems : List Yaml → List Yaml
  | [] => []
  | item :: rest => flattened item ++ flattenedItems rest

end

/-- A list is opened once, anything else is one item. -/
def spread : Yaml → List Yaml
  | .seq items => items
  | value => [value]

def asList : Yaml → Option (List Yaml)
  | .seq items => some items
  | _ => none

def isSeq : Yaml → Bool
  | .seq _ => true
  | _ => false

def isIteration : Scalar → Bool
  | .str text => decide (text = "loop".toList) || "with_".toList.isPrefixOf text
  | _ => false

section Meaning

-- what the keywords other than the four run over
variable (plugins : Scalar → Yaml → Option (List Yaml))

def reads (key : Scalar) (value : Yaml) : Option (List Yaml) :=
  if key = loop ∨ key = .word "with_list" then asList value
  else if key = .word "with_items" then some ((spread value).flatMap spread)
  else if key = .word "with_flattened" then some (flattened value)
  else plugins key value

def source (entry : Scalar × Yaml) : Option (Option (List Yaml)) :=
  if isIteration entry.1 then some (reads plugins entry.1 entry.2) else none

/-- The sequences of all iteration keywords of a task. -/
def runsOver (task : Task) : Multiset (Option (List Yaml)) :=
    (task.entries.filterMap (source plugins) : List _)

/-- The keyword whose value is moved. -/
def Picks (order : SetOrder) (withKey : Scalar) (task : Task) (key : Scalar) : Prop :=
  if withKey ∈ withSimple ∧ withKey ∈ task.keys then key = withKey
  else key ∈ task.keys ∧ ∃ earlier later, order.listed = earlier ++ key :: later ∧ ∀ other ∈ earlier, other ∉ task.keys

/-- A value that `loop` runs over as the keyword does. -/
def ReadAlike (key : Scalar) (value : Yaml) : Prop :=
  key = .word "with_list" ∨ ∃ items, value = .seq items ∧ ∀ item ∈ items, isSeq item = false

variable (items : List Yaml)

theorem sizeOf_flatMap_spread :
    sizeOf (items.flatMap spread) + (items.filter isSeq).length ≤ sizeOf items := by
  have ha : ∀ xs ys : List Yaml, sizeOf (xs ++ ys) + 1 = sizeOf xs + sizeOf ys := by
    intro xs ys
    induction xs with
    | nil => simp +arith
    | cons x xs ih => simp only [cons_append, cons.sizeOf_spec]; omega
  induction items with
  | nil => simp
  | cons item rest ih =>
    have hj := ha (spread item) (rest.flatMap spread)
    rw [flatMap_cons, filter_cons, cons.sizeOf_spec]
    cases item <;> simp [spread, isSeq] at hj ⊢ <;> omega

theorem flatMap_spread_eq_iff : items.flatMap spread = items ↔ ∀ x ∈ items, isSeq x = false := by
  constructor
  · intro hs
    have hsm := sizeOf_flatMap_spread items
    rw [hs] at hsm
    have none : (items.filter isSeq).length = 0 := by omega
    simpa using none
  · intro hf
    induction items with
    | nil => rfl
    | cons x rest ih =>
      rw [forall_mem_cons] at hf
      rw [flatMap_cons, ih hf.2]
      cases x with
      | seq _ => cases hf.1
      | _ => rfl

theorem flattenedItems_eq : flattenedItems items = items.flatMap flattened := by
  induction items with
  | nil => rfl
  | cons x rest ih => rw [flattenedItems, ih, flatMap_cons]

theorem isSeq_of_mem_flattened (v : Yaml) : ∀ x ∈ flattened v, isSeq x = false := by
  induction v using DataTree.induct with
  | seq xs ih =>
    intro x mem
    rw [flattened, flattenedItems_eq, mem_flatMap] at mem
    obtain ⟨inner, hi, mem⟩ := mem
    exact ih inner hi x mem
  | _ => simp [flattened, isSeq]

theorem flattened_seq_eq_iff : flattened (.seq items) = items ↔ ∀ x ∈ items, isSeq x = false := by
  constructor
  · intro hs
    rw [← hs]
    exact isSeq_of_mem_flattened _
  · intro hf
    rw [flattened, flattenedItems_eq, ← (flatMap_spread_eq_iff items).mpr hf, flatMap_assoc]
    refine flatMap_congr fun x mem => ?_
    cases x with
    | seq _ => cases hf _ mem
    | _ => rfl

theorem reads_eq_loop_iff {key : Scalar} (hs : key ∈ withSimple) (value : Yaml) :
    reads plugins key value = reads plugins loop value ↔ ReadAlike key value := by
  have hl : reads plugins loop value = asList value := by simp [reads]
  rw [hl, ReadAlike]
  simp only [withSimple, mem_cons, not_mem_nil, or_false] at hs
  rcases hs with rfl | rfl | rfl
  · cases value <;> simp [reads, loop, Scalar.word, asList, spread, flatMap_spread_eq_iff]
  · simp [reads]
  · cases value <;> simp [reads, loop, Scalar.word, asList, flattened_seq_eq_iff]

theorem isIteration_of_mem {key : Scalar} (hs : key ∈ withSimple) : isIteration key := by
  revert key
  decide

theorem card_runsOver (task : Task) :
    Multiset.card (runsOver plugins task) = (task.keys.filter isIteration).length := by
  rw [runsOver, Multiset.coe_card, Dict.keys]
  induction task.entries with
  | nil => rfl
  | cons e rest ih => cases hi : isIteration e.1 <;> simp [source, hi, ih]

variable {task : Task} {key : Scalar} {value : Yaml}

theorem runsOver_split (hs : key ∈ withSimple) (hf : task.get? key = some value) :
    runsOver plugins task =
      reads plugins key value ::ₘ runsOver plugins (task.filterKeys fun o => o ≠ key) := by
  have cut := (filter_append_perm (fun e => e.1 = key) task.entries).filterMap (source plugins)
  rw [filter_key, hf] at cut
  simpa [source, isIteration_of_mem hs, runsOver, filterKeys] using (Multiset.coe_eq_coe.mpr cut).symm

theorem runsOver_convert (hs : key ∈ withSimple) (hf : task.get? key = some value) :
    runsOver plugins (convert key task).2 = runsOver plugins task ↔ loop ∉ task.keys ∧ ReadAlike key value := by
  have hk : loop ∈ (task.filterKeys fun o => o ≠ key).keys ↔ loop ∈ task.keys := by
    have hd : loop ≠ key := by rintro rfl; revert hs; decide
    simp [Dict.keys, filterKeys, hd]
  rw [runsOver_split plugins hs hf, convert, hf]
  by_cases hl : loop ∈ task.keys
  · -- the old value of `loop` is overwritten, so one sequence less is left
    refine ⟨fun same => ?_, fun none => absurd hl none.1⟩
    have hfe := congrArg Multiset.card same
    have keys := Dict.keys_modify (task.filterKeys fun o => o ≠ key) loop fun _ => value
    simp only [Dict.insert, dif_pos (hk.mpr hl), Multiset.card_cons, card_runsOver, keys] at hfe
    omega
  · have hm := Dict.entries_insert_of_notMem _ value (mt hk.mp hl)
    have ha := reads_eq_loop_iff plugins hs value
    have hi : isIteration loop := by decide
    rw [runsOver, hm, filterMap_append, ← Multiset.coe_add, Multiset.add_comm]
    simp only [filterMap_cons, filterMap_nil, source, hi, if_true, Multiset.coe_singleton,
      Multiset.singleton_add, ← ha, hl, not_false_eq_true, true_and]
    rw [runsOver, Multiset.cons_inj_left, eq_comm]

theorem runsOver_fixWithToLoop (order : SetOrder) (withKey : Scalar) (task : Task) :
    runsOver plugins (fixWithToLoop order withKey task).2 = runsOver plugins task ↔
      ∀ key, Picks order withKey task key → ∀ value, task.get? key = some value →
        loop ∉ task.keys ∧ ReadAlike key value := by
  have once : ∀ key, (∃ value, task.get? key = some value) → key ∈ withSimple →
      (runsOver plugins (convert key task).2 = runsOver plugins task ↔
        ∀ value, task.get? key = some value → loop ∉ task.keys ∧ ReadAlike key value) := by
    rintro key ⟨value, found⟩ simple
    simp only [runsOver_convert plugins simple found, found, Option.some.injEq, forall_eq']
  unfold fixWithToLoop Picks
  split
  next given => simp only [once withKey ((task.mem_keys_iff withKey).mp given.2) given.1, forall_eq]
  next =>
    have first : ∀ key, (key ∈ task.keys ∧ ∃ earlier later, order.listed = earlier ++ key :: later ∧
        ∀ other ∈ earlier, other ∉ task.keys) ↔
          order.listed.find? (fun key => key ∈ task.keys) = some key := by
      simp [find?_eq_some_iff_append]
    simp only [first]
    cases found : order.listed.find? fun key => key ∈ task.keys with
    | none => simp
    | some key =>
      have simple := order.perm.subset (mem_of_find?_eq_some found)
      have present : key ∈ task.keys := by simpa using find?_some found
      simp only [once key ((task.mem_keys_iff key).mp present) simple, Option.some.injEq, forall_eq']

end Meaning

/-- One value in a list in the list of `with_items`. -/
def nested : Task := .ofList [(.word "with_items", .seq [.seq [.leaf .null]])]

/-- The set as it is written in the source. -/
def writtenOrder : SetOrder := ⟨withSimple, .refl _⟩

theorem nested_with_items_changes :
    runsOver (fun _ _ => none) (fixWithToLoop writtenOrder (.word "with_items") nested).2 ≠
      runsOver (fun _ _ => none) nested := by
  intro same
  have before : some [.leaf .null] ∈ runsOver (fun _ _ => none) nested := .head _
  have after : runsOver (fun _ _ => none)
      (fixWithToLoop writtenOrder (.word "with_items") nested).2 = {some [.seq [.leaf .null]]} := rfl
  simp [← same, after] at before

end Apme.Remediation.WithToLoop
