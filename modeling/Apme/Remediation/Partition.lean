import Apme.Graph.Frame

/-!
# Routing of violations

Violations are split into Tier 1 (a deterministic transform is registered),
Tier 2 (the AI provider may be asked) and Tier 3 (manual review).  Rules that
replace module names need a resolved target, taken from the violation's fields
or from its message.
-/

set_option autoImplicit false

namespace Apme.Remediation

open Apme.Lib Apme.Graph

def isIdentifierStart (c : Char) : Bool := c.isAlpha || c = '_'

def isIdentifier : Text → Bool
  | [] => false
  | first :: rest => isIdentifierStart first && rest.all fun c => isIdentifierStart c || c.isDigit

variable (text : Text)

/-- At least three identifiers separated by dots. -/
def isDottedName : Bool :=
  let parts := text.splitOn '.'
  3 ≤ parts.length && parts.all isIdentifier

def isValidFqcn (candidate currentKey : String) : Bool :=
  candidate ≠ currentKey &&
    !"taskfile".toList.isPrefixOf candidate.toList &&
    !".yml".toList.isSuffixOf candidate.toList &&
    !".yaml".toList.isSuffixOf candidate.toList &&
    !".json".toList.isSuffixOf candidate.toList &&
    isDottedName candidate.toList

/-- `\s*->\s*(\S+)`. -/
def matchArrow : Option Text :=
  match Text.lstrip text with
  | '-' :: '>' :: rest =>
    let word := (Text.lstrip rest).takeWhile fun c => !Text.isSpace c
    if word = [] then none else some word
  | _ => none

/-- `\s*\S+\s*->\s*(\S+)`; the word before the arrow is tried longest first. -/
def matchReplacement : Option Text :=
  let body := Text.lstrip text
  let word := body.takeWhile fun c => !Text.isSpace c
  (List.range word.length).reverse.findSome? fun short => matchArrow (body.drop (short + 1))

def matchTargetHere : Option Text :=
  if "Use FQCN:".toList.isPrefixOf text then
    matchReplacement (text.drop "Use FQCN:".toList.length)
  else if "FQCN for module:".toList.isPrefixOf text then
    matchReplacement (text.drop "FQCN for module:".toList.length)
  else none

def searchTarget : Text → Option Text
  | [] => none
  | c :: rest => (matchTargetHere (c :: rest)).or (searchTarget rest)

def validTarget (currentKey : String) (candidate : Option String) : Option String :=
  candidate.filter fun fqcn => isValidFqcn fqcn currentKey

def resolveFqcn (v : Violation) (currentKey : String) : Option String :=
  (validTarget currentKey v.resolvedFqcn).or <|
    (validTarget currentKey v.fqcn).or <|
      validTarget currentKey ((searchTarget v.message.toList).map String.ofList)

def hasFqcnTarget (v : Violation) : Bool :=
  let currentKey := if v.originalModule ≠ "" then v.originalModule else v.moduleName
  (resolveFqcn v currentKey).isSome

/-- File, node and module a resolver target is shared under. -/
def targetKey (v : Violation) : String × String × String := (v.file, v.path, v.originalModule)

def suppliedTarget (v : Violation) : Option String :=
  if normalizeRuleId v.ruleId ∈ ["M001", "M003"] ∧ v.originalModule ≠ "" ∧ v.path ≠ "" then
    resolveFqcn v v.originalModule
  else none

variable (violations : List Violation)

def sharedTargets (key : String × String × String) : List String :=
  ((violations.filter fun v => targetKey v = key).filterMap suppliedTarget).dedup

def enrichViolation (v : Violation) : Violation :=
  if normalizeRuleId v.ruleId ∈ ["L002", "L026"] ∧ !hasFqcnTarget v then
    match sharedTargets violations (targetKey v) with
    | [target] => { v with resolvedFqcn := some target }
    | _ => v
  else v

def enrichFqcnTargets : List Violation := violations.map (enrichViolation violations)

def crossFileRules : List String := ["R111", "R112", "L006", "L080"]

def fqcnRules : List String := ["L002", "L005", "L026", "M001", "M002", "M003", "M004", "M048"]

def aiProposableScopes : List String := ["task", "block"]

abbrev TransformRegistry := String → Option NodeTransform

def getScope (v : Violation) : String := if v.scope = "" then "task" else v.scope

variable (registry : TransformRegistry)

def isFindingResolvable (v : Violation) : Bool :=
  let bareId := normalizeRuleId v.ruleId
  if bareId ∈ crossFileRules then false
  else if bareId ∈ fqcnRules ∧ !hasFqcnTarget v then false
  else (registry bareId).isSome

def isAiEscalatable (v : Violation) : Bool := normalizeRuleId v.ruleId ∉ fqcnRules

inductive Tier
  | fixable | ai | manual
  deriving DecidableEq

def tierOf (v : Violation) : Tier :=
  let bareId := normalizeRuleId v.ruleId
  if v.severity.toList.map Char.toLower = "info".toList then .manual
  else if bareId ∈ crossFileRules then .manual
  else if bareId ∈ fqcnRules ∧ !isFindingResolvable registry v then .manual
  else if isFindingResolvable registry v then .fixable
  else if getScope v ∉ aiProposableScopes then .manual
  else if v.aiProposable then .ai
  else .manual

inductive RemediationClass
  | aiCandidate | manualReview
  deriving DecidableEq

/-- The class of a violation that transforms have not fixed. -/
def classifyViolation (v : Violation) : RemediationClass :=
  let bareId := normalizeRuleId v.ruleId
  if v.severity.toList.map Char.toLower = "info".toList then .manualReview
  else if bareId ∈ crossFileRules then .manualReview
  else if bareId ∈ fqcnRules then .manualReview
  else if getScope v ∉ aiProposableScopes then .manualReview
  else if v.aiProposable then .aiCandidate
  else .manualReview

structure Partition where
  tier1 : List Violation
  tier2 : List Violation
  tier3 : List Violation

def partitionViolations : Partition :=
  { tier1 := violations.filter fun v => tierOf registry v = .fixable
    tier2 := violations.filter fun v => tierOf registry v = .ai
    tier3 := violations.filter fun v => tierOf registry v = .manual }

theorem enrichViolation_eq (v : Violation) :
    ∃ tgt, enrichViolation violations v = { v with resolvedFqcn := tgt } := by
  unfold enrichViolation
  split
  · split
    next tgt _ => exact ⟨some tgt, rfl⟩
    next => exact ⟨v.resolvedFqcn, rfl⟩
  · exact ⟨v.resolvedFqcn, rfl⟩

section

variable {violations : List Violation} {registry : TransformRegistry} {v : Violation}

theorem mem_of_mem_tier1 (mem : v ∈ (partitionViolations violations registry).tier1) :
    v ∈ violations :=
  (List.mem_filter.mp mem).1

theorem mem_of_mem_tier2 (mem : v ∈ (partitionViolations violations registry).tier2) :
    v ∈ violations :=
  (List.mem_filter.mp mem).1

end

theorem tierOf_eq_ai_iff (v : Violation) : tierOf registry v = .ai ↔
      classifyViolation v = .aiCandidate ∧ registry (normalizeRuleId v.ruleId) = none := by
  unfold tierOf classifyViolation isFindingResolvable
  dsimp only
  by_cases info : v.severity.toList.map Char.toLower = "info".toList
  · rw [if_pos info, if_pos info]
    simp
  · rw [if_neg info, if_neg info]
    by_cases crossFile : normalizeRuleId v.ruleId ∈ crossFileRules
    · simp [crossFile]
    · obtain ha | ⟨transform, hf⟩ :=
        Option.eq_none_or_eq_some (registry (normalizeRuleId v.ruleId))
      · by_cases fqcn : normalizeRuleId v.ruleId ∈ fqcnRules
        · simp [crossFile, fqcn, ha]
        · by_cases scope : getScope v ∈ aiProposableScopes <;> simp [crossFile, fqcn, scope, ha]
      · by_cases target : hasFqcnTarget v
        · simp [crossFile, target, hf]
        · by_cases fqcn : normalizeRuleId v.ruleId ∈ fqcnRules <;>
            simp [crossFile, fqcn, target, hf]

end Apme.Remediation
