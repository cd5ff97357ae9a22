import Apme.Daemon.Pipeline
import Apme.Gitleaks.Scanner

/-!
# Findings that merging keeps apart

Deduplication looks at the rule, the file and the line of a violation.  Whether
it keeps the findings of different nodes apart is up to what the validators put
there.
-/

set_option autoImplicit false

namespace Apme.Daemon

open Apme.Lib Apme.Graph

variable (v w : Violation)

/-- Different findings: on different nodes, or of another rule, file or line. -/
def Distinct : Prop :=
  (v.path ≠ "" ∧ w.path ≠ "" ∧ v.path ≠ w.path) ∨
    v.ruleId ≠ w.ruleId ∨ v.file ≠ w.file ∨ v.line ≠ w.line

def SamePlace : Prop := v.path = "" ∨ w.path = "" ∨ v.path = w.path

theorem distinct_iff : Distinct v w ↔ ¬ (dedupKey v = dedupKey w ∧ SamePlace v w) := by
  unfold Distinct SamePlace dedupKey
  simp only [Prod.mk.injEq]
  tauto

theorem eq_of_dedupKey_eq {vs : List Violation} {v w : Violation}
    (inV : v ∈ deduplicateViolations (sortViolations vs))
    (inW : w ∈ deduplicateViolations (sortViolations vs))
    (hs : dedupKey v = dedupKey w) : v = w := by
  rw [mem_deduplicate_sort] at inV inW
  rw [hs, inW] at inV
  exact (Option.some.inj inV).symm

theorem exists_kept {vs : List Violation} {v : Violation} (hm : v ∈ vs) :
    ∃ u ∈ deduplicateViolations (sortViolations vs), u ∈ vs ∧ dedupKey u = dedupKey v := by
  have hf : (vs.find? fun o => dedupKey o = dedupKey v).isSome := by
    rw [List.find?_isSome]
    exact ⟨v, hm, decide_eq_true rfl⟩
  obtain ⟨u, first⟩ := Option.isSome_iff_exists.mp hf
  have hs : dedupKey u = dedupKey v := by
    simpa using List.find?_some first
  refine ⟨u, ?_, List.mem_of_find?_eq_some first, hs⟩
  rw [mem_deduplicate_sort, hs]
  exact first

/-- Merging keeps different findings apart exactly if no two violations with
one rule, file and line are on different nodes. -/
theorem merging_keeps_distinct_iff (violations : List Violation) :
    (∀ v ∈ violations, ∀ w ∈ violations, Distinct v w →
        ∃ a ∈ deduplicateViolations (sortViolations violations),
          ∃ b ∈ deduplicateViolations (sortViolations violations),
            ¬ Distinct a v ∧ ¬ Distinct b w ∧ a ≠ b) ↔
      ∀ v ∈ violations, ∀ w ∈ violations, v.ruleId = w.ruleId → v.file = w.file →
        v.line = w.line → v.path = "" ∨ w.path = "" ∨ v.path = w.path := by
  constructor
  · intro apart v inV w inW rule file line
    by_contra elsewhere
    have key : dedupKey v = dedupKey w := by
      rw [dedupKey, rule, file, line, dedupKey]
    have distinct : Distinct v w := by
      rw [distinct_iff]
      intro same
      exact elsewhere same.2
    obtain ⟨a, keptA, b, keptB, forV, forW, differ⟩ := apart v inV w inW distinct
    rw [distinct_iff, not_not] at forV forW
    apply differ
    apply eq_of_dedupKey_eq keptA keptB
    rw [forV.1, key, forW.1]
  · intro separate v inV w inW distinct
    have together : ∀ x ∈ violations, ∀ y ∈ violations, dedupKey x = dedupKey y →
        SamePlace x y := by
      intro x inX y inY same
      obtain ⟨rule, rest⟩ := Prod.mk.inj same
      obtain ⟨file, line⟩ := Prod.mk.inj rest
      exact separate x inX y inY rule file line
    obtain ⟨a, keptA, inA, sameA⟩ := exists_kept inV
    obtain ⟨b, keptB, inB, sameB⟩ := exists_kept inW
    refine ⟨a, keptA, b, keptB, ?_, ?_, ?_⟩
    · rw [distinct_iff, not_not]
      exact ⟨sameA, together a inA v inV sameA⟩
    · rw [distinct_iff, not_not]
      exact ⟨sameB, together b inB w inW sameB⟩
    · intro same
      rw [distinct_iff] at distinct
      have key : dedupKey v = dedupKey w := by
        rw [← sameA, same, sameB]
      exact distinct ⟨key, together v inV w inW key⟩

/-- A key in the first line of each of two nodes. -/
def keyFindings : List Violation :=
  Gitleaks.runGitleaksNodes
    (fun _ => some [{ ruleId := some "generic-api-key", startLine := 2 },
      { ruleId := some "generic-api-key", startLine := 4 }])
    [("a", "key: 3f1a\n".toList), ("b", "key: 77c0\n".toList)]

/-- Lines are counted from the start of the node and no file is given, so of the
two findings one is left. -/
theorem keyFindings_merged :
    keyFindings.map Violation.path = ["a", "b"] ∧
      (deduplicateViolations (sortViolations keyFindings)).map Violation.path = ["a"] := by
  decide

end Apme.Daemon
