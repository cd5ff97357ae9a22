import Apme.Remediation.Engine
import Mathlib.Data.Rat.Defs

/-!
# Answers of the model

The object in an answer may have any JSON value in any field.  An answer is read
without an exception unless a list of changes is not iterable, a confidence is an
integer too large for a float, or the line of a skipped rule is no number.
-/

set_option autoImplicit false

namespace Apme.Remediation

open Apme.Lib List

inductive PyError
  | typeError | valueError | overflowError
  deriving DecidableEq

/-- A JSON value; the parser of the source also reads infinity and NaN. -/
inductive Json
  | null
  | bool (value : Bool)
  | int (value : Int)
  | float (value : Rat)
  | infinity (negative : Bool)
  | nan
  | str (value : String)
  | list (items : List Json)
  | object (fields : List (String × Json))

/-- The entries of the dictionary an object is read into. -/
abbrev Fields := List (String × Json)

namespace Json

def truthy : Json → Bool
  | null => false
  | bool value => value
  | int value => value ≠ 0
  | float value => value ≠ 0
  | infinity _ | nan => true
  | str value => value ≠ ""
  | list items => !items.isEmpty
  | object fields => !fields.isEmpty

/-- What a `for` loop runs over: a text has its characters, an object its keys. -/
def iter : Json → Except PyError (List Json)
  | list items => .ok items
  | str value => .ok (value.toList.map fun c => str c.toString)
  | object fields => .ok (fields.map fun field => str field.1)
  | _ => .error .typeError

/-- Integers from here on are rounded to infinity by `float`. -/
def floatLimit : Nat := Nat.pow 2 1024 - Nat.pow 2 970

/-- `float` in the loop over the changes, where type and value errors are caught. -/
def confidence (parseFloat : String → Option Json) : Json → Except PyError (Option Json)
  | int value => if floatLimit ≤ value.natAbs then .error .overflowError else .ok (some (int value))
  | str value => .ok (parseFloat value)
  | null | list _ | object _ => .ok none
  | number => .ok (some number)

def fitsFloat : Json → Bool
  | int value => value.natAbs < floatLimit
  | _ => true

def toInt (parseInt : String → Option Int) : Json → Except PyError Int
  | bool value => .ok value.toNat
  | int value => .ok value
  | float value => .ok (value.num.tdiv value.den)
  | infinity _ => .error .overflowError
  | nan => .error .valueError
  | str value => (parseInt value).elim (.error .valueError) .ok
  | _ => .error .typeError

def isNumeric (parseInt : String → Option Int) : Json → Bool
  | bool _ | int _ | float _ => true
  | str value => (parseInt value).isSome
  | _ => false

/-- The loops pass over what is no object. -/
def onObject {α : Type} (default : α) (read : Fields → Except PyError α) :
    Json → Except PyError α
  | object fields => read fields
  | _ => .ok default

end Json

section

variable (repr : Json → String) (parseInt : String → Option Int) (parseFloat : String → Option Json)

def pyStr : Json → String
  | .str value => value
  | value => repr value

def skippedText (fields : Fields) (key : String) : String :=
  pyStr repr ((fields.lookup key).getD (.str ""))

def skippedLine (fields : Fields) : Json := (fields.lookup "line").getD (.int 0)

def IsSkipped (fields : Fields) : Prop :=
  skippedText repr fields "rule_id" ≠ "" ∧
    (skippedText repr fields "reason" ≠ "" ∨ skippedText repr fields "suggestion" ≠ "")

instance : DecidablePred (IsSkipped repr) := fun _ => inferInstanceAs (Decidable (_ ∧ _))

def parseSkippedEntry : Json → Except PyError (Option AISkipped) :=
  Json.onObject none fun fields =>
    let line := if (skippedLine fields).truthy then (skippedLine fields).toInt parseInt else .ok 0
    if IsSkipped repr fields then
      line.map fun _ => some ⟨skippedText repr fields "rule_id", skippedText repr fields "reason",
        skippedText repr fields "suggestion"⟩
    else .ok none

def parseSkipped (data : Fields) : Except PyError (List AISkipped) :=
  match data.lookup "skipped" with
  | some (.list raw) => (raw.mapM (parseSkippedEntry repr parseInt)).map reduceOption
  | _ => .ok []

def parseChange : Json → Except PyError (Option String × Option String) :=
  Json.onObject (none, none) fun fields =>
    let text := fun key => ((fields.lookup key).filter Json.truthy).map (pyStr repr)
    (((fields.lookup "confidence").getD .null).confidence parseFloat).map fun _ =>
      (text "rule_id", text "explanation")

def changesOf (data : Fields) : Json := (data.lookup "changes").getD (.list [])

/-- The fix with the changes it lists. -/
def fixOf (fixed : String) (skipped : List AISkipped) (changes : List (Option String × Option String)) :
    AINodeFix :=
  let ruleIds := changes.filterMap Prod.fst
  let explanations := changes.filterMap Prod.snd
  { fixedSnippet := fixed.toList
    ruleIds := if ruleIds.isEmpty then ["ai-fix"] else ruleIds
    explanation := if explanations.isEmpty then "AI-generated fix" else "; ".intercalate (explanations.take 3)
    skipped }

/-- The object in the answer is given; lines and confidences are read and not kept. -/
def parseNodeResponse (extracted : Option (Fields)) (original : Text) :
    Except PyError (Option AINodeFix) :=
  match extracted with
  | none => .ok none
  | some data => do
    let skipped ← parseSkipped repr parseInt data
    let unfixed := if skipped.isEmpty then none else some { fixedSnippet := [], skipped : AINodeFix }
    match data.lookup "fixed_snippet" with
    | some (.str fixed) =>
      if Text.strip fixed.toList = Text.strip original then .ok unfixed
      else
        ((changesOf data).iter >>= fun items => items.mapM (parseChange repr parseFloat)).map fun changes =>
          some (fixOf fixed skipped changes)
    | _ => .ok unfixed

theorem isOk_toInt (v : Json) : (v.toInt parseInt).isOk = v.isNumeric parseInt := by
  cases v with
  | str t => cases hr : parseInt t <;> simp [Json.toInt, Json.isNumeric, hr]
  | _ => rfl

theorem isOk_confidence (v : Json) : (v.confidence parseFloat).isOk = v.fitsFloat := by
  cases v with
  | int number =>
    rw [Json.confidence, Json.fitsFloat]
    split
    next hl => simp [not_lt.mpr hl]
    next hf => simp [not_le.mp hf]
  | _ => rfl

/-- Every line of a skipped rule is a number. -/
def LinesNumeric (data : Fields) : Prop :=
  ∀ raw, data.lookup "skipped" = some (.list raw) → ∀ fields, .object fields ∈ raw →
    IsSkipped repr fields → (skippedLine fields).truthy → (skippedLine fields).isNumeric parseInt

/-- The changes can be iterated over, and no confidence is too large an integer. -/
def ChangesReadable (data : Fields) : Prop :=
  ∃ items, (changesOf data).iter = .ok items ∧ ∀ fields, .object fields ∈ items →
    ((fields.lookup "confidence").getD .null).fitsFloat

theorem isOk_mapM_onObject {α : Type} {default : α} {r : Fields → Except PyError α}
    {xs : List Json} : (xs.mapM (Json.onObject default r)).isOk ↔
      ∀ fields, .object fields ∈ xs → (r fields).isOk := by
  refine isOk_mapM.trans ⟨fun all fields mem => all _ mem, fun ho x mem => ?_⟩
  cases x with
  | object fields => exact ho fields mem
  | _ => rfl

theorem isOk_parseSkipped (data : Fields) :
    (parseSkipped repr parseInt data).isOk ↔ LinesNumeric repr parseInt data := by
  rw [parseSkipped, LinesNumeric]
  split
  next raw hf =>
    rw [isOk_map, parseSkippedEntry, isOk_mapM_onObject, hf]
    simp only [Option.some.injEq, Json.list.injEq, forall_eq']
    refine forall₂_congr fun fields mem => ?_
    by_cases hS : IsSkipped repr fields
    · by_cases hfill : (skippedLine fields).truthy
      · simp [hS, hfill, isOk_toInt]
      · simp [hS, hfill]
    · simp [hS]
  next ho => simpa using fun raw hf => absurd hf (ho raw)

theorem isOk_changes (data : Fields) :
    ((changesOf data).iter >>= fun xs => xs.mapM (parseChange repr parseFloat)).isOk ↔
      ChangesReadable data := by
  rw [ChangesReadable]
  cases (changesOf data).iter with
  | error failure => simp [bind, Except.bind]
  | ok xs =>
    refine isOk_mapM_onObject.trans ?_
    simp [isOk_confidence]

theorem isOk_parseNodeResponse (extracted : Option (Fields)) (original : Text) :
    (parseNodeResponse repr parseInt parseFloat extracted original).isOk ↔
      ∀ data ∈ extracted, LinesNumeric repr parseInt data ∧
        ∀ fixed, data.lookup "fixed_snippet" = some (.str fixed) →
          Text.strip fixed.toList ≠ Text.strip original → ChangesReadable data := by
  cases extracted with
  | none => simp [parseNodeResponse]
  | some data =>
    rw [parseNodeResponse]
    simp only [Option.mem_some_iff, forall_eq', ← isOk_parseSkipped]
    refine isOk_bind fun skipped => ?_
    split
    next fixed found =>
      split
      next same => simp [found, same]
      next changed => simp [found, changed, ← isOk_changes repr parseFloat data]
    next other => simpa using fun fixed found => absurd found (other fixed)

theorem null_changes_raise :
    parseNodeResponse (fun _ => "") (fun _ => none) (fun _ => none)
      (some [("fixed_snippet", .str "b"), ("changes", .null)]) ['a'] = .error .typeError := by
  decide +kernel

end

end Apme.Remediation
