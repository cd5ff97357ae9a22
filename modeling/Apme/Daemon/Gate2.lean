import Apme.Daemon.Review
import Apme.Lib.Fields

/-!
# The rows of the second gate

The AI's proposals and the cleanup proposals of the same run become rows a
reviewer can select.  Rows for the same node are merged, because a decision
always applies to a whole node.  Bringing YAML into the form in which it is
shown is a parameter.
-/

set_option autoImplicit false

namespace Apme.Daemon

open Apme.Lib Apme.Graph Apme.Remediation List

/-- The rule names in the rule id of a row. -/
def ruleNames (ruleId : String) : List Text := Text.fields ',' ruleId.toList

def joinRules (names : List Text) : String := String.ofList (Text.joinFields ',' names)

theorem mem_ruleNames_joinRules (names : List Text) (name : Text) :
    name ∈ ruleNames (joinRules names) ↔ ∃ part ∈ names, name ∈ Text.fields ',' part := by
  rw [ruleNames, joinRules, String.toList_ofList]
  exact Text.mem_fields_joinFields ',' names name

section Building

variable (normalize : Text → Text)

/-- The rule ids of a proposal in one text. -/
def joinedRuleId (fallback : String) (ruleIds : List String) : String :=
  if ruleIds = [] then fallback else joinRules (ruleIds.map String.toList)

def tier1RuleId (item : Tier1NodeProposal) : String := joinedRuleId "deterministic" item.ruleIds

def aiRuleId (item : AINodeProposal) : String := joinedRuleId "ai-fix" item.ruleIds

def tier1Row (id : String) (item : Tier1NodeProposal) : Proposal :=
  { id, file := item.filePath, ruleId := tier1RuleId item
    lineStart := item.lineStart, lineEnd := item.lineEnd
    beforeText := normalize item.beforeYaml, afterText := normalize item.afterYaml
    explanation :=
      if item.violationSummaries = [] then "Deterministic fix for " ++ tier1RuleId item
      else "\n".intercalate (item.violationSummaries.filter fun summary => summary ≠ "")
    tier := 1, source := .deterministic, path := item.nodeId, nodeType := some item.nodeType }

def aiRow (id : String) (item : AINodeProposal) : Proposal :=
  { id, file := item.filePath, ruleId := aiRuleId item
    lineStart := item.lineStart, lineEnd := item.lineEnd
    beforeText := normalize item.beforeYaml, afterText := normalize item.afterYaml
    explanation := item.explanation
    tier := 2, source := .ai, path := item.nodeId, nodeType := some item.nodeType }

variable (items : List Tier1NodeProposal)

def buildTier1Proposals : List Proposal :=
  items.zipIdx.map fun entry => tier1Row normalize ("t1-" ++ fourDigits entry.2) entry.1

def buildGraphProposals (items : List AINodeProposal) : List Proposal :=
  items.zipIdx.map fun entry => aiRow normalize ("ai-" ++ fourDigits entry.2) entry.1

/-- The cleanup proposals under the names of the second gate. -/
def gate2Tier1Proposals : List Proposal :=
  (buildTier1Proposals normalize items).zipIdx.map fun entry =>
    { entry.1 with id := "g2-t1-" ++ fourDigits entry.2, tier := 2 }

end Building

/-- The node of a row, or its own id when it names none. -/
def proposalKey (p : Proposal) : String :=
  let path := stripString p.path
  if path ≠ "" then path else p.id

variable (existing tier1 : Proposal)

def mergedRules : List Text :=
  ((ruleNames existing.ruleId ++ ruleNames tier1.ruleId).dedup).insertionSort fun a b =>
    String.ofList a ≤ String.ofList b

def rationale : List String :=
  (if tier1.explanation ≠ "" then ["[tier-1/deterministic] " ++ tier1.explanation] else []) ++
    if existing.explanation ≠ "" then ["[tier-2/ai] " ++ existing.explanation] else []

/-- A cleanup row on a node that has a row already. -/
def mergeProposals : Proposal :=
  { existing with
    ruleId :=
      if mergedRules existing tier1 = [] then existing.ruleId
      else joinRules (mergedRules existing tier1)
    afterText := tier1.afterText
    explanation := "\n".intercalate (rationale existing tier1) }

def addTier1 (existing : Option Proposal) (tier1 : Proposal) : Proposal :=
  match existing with
  | none => tier1
  | some existing => mergeProposals existing tier1

variable (aiProposals tier1Proposals : List Proposal)

/-- Both loops of `_consolidate_gate2_proposals`; of several AI rows for a node
the last one stays. -/
def proposalsByNode : Dict String Proposal :=
  (Dict.accumulate proposalKey addTier1 tier1Proposals)
    (Dict.accumulate proposalKey (fun _ p => p) aiProposals Dict.empty)

def consolidateGate2Proposals : List Proposal := (proposalsByNode aiProposals tier1Proposals).values

theorem foldl_latest {α : Type} (xs : List α) (value : Option α) :
    xs.foldl (fun _ x => some x) value = xs.getLast?.or value := by
  induction xs generalizing value with
  | nil => rfl
  | cons x rest ih =>
    rw [foldl_cons, ih, List.getLast?_cons]
    cases rest.getLast? <;> rfl

theorem get?_proposalsByNode (k : String) :
    (proposalsByNode aiProposals tier1Proposals).get? k =
      (tier1Proposals.filter fun p => proposalKey p = k).foldl
        (fun r tier1 => some (addTier1 r tier1))
        (aiProposals.filter fun p => proposalKey p = k).getLast? := by
  rw [proposalsByNode, Dict.get?_accumulate, Dict.get?_accumulate, foldl_latest, Dict.get?_empty,
    Option.or_none]

theorem mem_ruleNames_mergeProposals (name : Text) :
    name ∈ ruleNames (mergeProposals existing tier1).ruleId ↔
      name ∈ ruleNames existing.ruleId ∨ name ∈ ruleNames tier1.ruleId := by
  have hl : ∀ part, part ∈ mergedRules existing tier1 ↔
      part ∈ ruleNames existing.ruleId ∨ part ∈ ruleNames tier1.ruleId := by
    intro part
    rw [mergedRules, mem_insertionSort, mem_dedup, mem_append]
  have hs : ∀ part ∈ mergedRules existing tier1, Text.fields ',' part = [part] := by
    intro part hm
    rcases (hl part).mp hm with he | ht
    · exact Text.fields_of_mem_fields ',' he
    · exact Text.fields_of_mem_fields ',' ht
  unfold mergeProposals
  dsimp only
  split
  next none =>
    have ha : name ∉ ruleNames tier1.ruleId := fun hm => by
      have him := (hl name).mpr (.inr hm)
      rw [none] at him
      exact absurd him not_mem_nil
    simp [ha]
  next =>
    rw [mem_ruleNames_joinRules, ← hl]
    constructor
    · rintro ⟨part, hm, hp⟩
      rw [hs part hm, mem_singleton] at hp
      rwa [hp]
    · intro hm
      exact ⟨name, hm, by rw [hs name hm]; exact mem_cons_self⟩

end Apme.Daemon
