import Apme.Remediation.Splice

/-!
# Splicing disjoint nodes

Where the spans of the rewritten nodes of a file are disjoint, the patch is the
file with each of these spans replaced.  The lines are those of the file with a
line feed after the last one.
-/

set_option autoImplicit false

namespace Apme.Remediation

open Apme.Lib Apme.Graph List Dict

/-- The edit that a node whose chosen snapshot differs from its first one asks
for; a node without text, or without a file, is left alone. -/
def Rewrites (includePending : Bool) (path : String) (node : ContentNode) (e : Edit Text) : Prop :=
  node.filePath = path ∧ path ≠ "" ∧ node.yamlLines ≠ [] ∧ e.start = node.lineStart ∧
    e.stop = node.lineEnd ∧ ∃ first chosen, node.progression.head? = some first ∧
      effectiveState includePending node.progression = some chosen ∧
        first.yamlLines ≠ chosen.yamlLines ∧ e.new = fileLines chosen.yamlLines

theorem nodeEdit_iff (pend : Bool) (p : String) (n : ContentNode) (e : Edit Text) :
    (n.filePath = p ∧ ∃ made, nodeEdit pend n = some made ∧ made.edit = e) ↔
      Rewrites pend p n e := by
  unfold nodeEdit
  constructor
  · rintro ⟨rfl, made, hM, rfl⟩
    split at hM
    next => cases hM
    next hb =>
      simp only [not_or] at hb
      split at hM
      next span =>
        split at hM
        next first c hF hC =>
          split at hM
          next => cases hM
          next hd =>
            cases hM
            exact ⟨rfl, hb.2.1, hb.2.2, rfl, rfl, first, c, hF, hC, hd, rfl⟩
        next => cases hM
      next => cases hM
  · rintro ⟨rfl, hf, hfill, hst, stop, first, c, hF, hC, hd, new⟩
    have hl : ¬ n.progression.length < 2 := by
      intro hsh
      rcases hs : n.progression with - | ⟨state, - | ⟨next, rest⟩⟩
      · simp [hs] at hF
      · have only : effectiveState pend [state] = some state := by
          cases ha : state.approved <;> cases pend <;>
            simp [effectiveState, lastApproved, ha]
        rw [hs] at hF hC
        cases hF
        cases only.symm.trans hC
        exact hd rfl
      · rw [hs] at hsh
        exact absurd hsh (by simp)
    have span : 1 ≤ n.lineStart ∧ n.lineStart ≤ n.lineEnd :=
      ⟨hst ▸ e.start_pos, hst ▸ stop ▸ e.ordered⟩
    rw [if_neg (by simp [hl, hf, hfill]), dif_pos span]
    simp only [hF, hC, if_neg hd]
    refine ⟨trivial, _, rfl, ?_⟩
    cases e
    simp_all

variable (g : ContentGraph)

/-- The edits of the nodes of one file, in graph order. -/
def pathEdits (includePending : Bool) (path : String) : List (Edit Text) :=
  ((modifications g includePending).filter fun entry => entry.1 = path).map fun entry => entry.2.edit

theorem mem_pathEdits_iff (pend : Bool) (p : String)
    (e : Edit Text) : e ∈ pathEdits g pend p ↔ ∃ n ∈ g.nodes.values, Rewrites pend p n e := by
  simp only [← nodeEdit_iff, pathEdits, modifications, mem_map, mem_filter,
    mem_filterMap, Option.map_eq_some_iff, decide_eq_true_eq]
  constructor
  · rintro ⟨_, ⟨⟨n, hm, made, hM, rfl⟩, rfl⟩, rfl⟩
    exact ⟨n, hm, rfl, made, hM, rfl⟩
  · rintro ⟨n, hm, rfl, made, hM, rfl⟩
    exact ⟨_, ⟨⟨n, hm, made, hM, rfl⟩, rfl⟩, rfl⟩

theorem patchFile_eq_some_iff (p : String) (original : Text) (edits : List NodeEdit)
    (patch : FilePatch) : patchFile p original edits = some patch ↔
      patch.patched =
          (spliceAll (fileLines original) (sortDescending (edits.map NodeEdit.edit))).flatten ∧
        patch.patched ≠ original ∧ patch.path = p ∧ patch.original = original ∧
          patch.ruleIds = (sortEdits edits).flatMap NodeEdit.ruleIds := by
  simp only [patchFile, sortEdits_map_edit]
  split
  next hs =>
    constructor
    · intro hm
      cases hm
    · rintro ⟨ht, hd, -⟩
      exact absurd (ht.trans hs) hd
  next hd =>
    constructor
    · intro hm
      cases hm
      exact ⟨rfl, hd, rfl, rfl, rfl⟩
    · rintro ⟨ht, -, rfl, rfl, hr⟩
      rw [← ht, ← hr]

theorem mem_spliceModifications_iff {originals : Dict String Text}
    (pend : Bool) {path : String} {original : Text}
    (hf : originals.get? path = some original) (patch : FilePatch) :
    (patch ∈ spliceModifications g originals pend ∧ patch.path = path) ↔
      pathEdits g pend path ≠ [] ∧ patchFile path original
        (((modifications g pend).filter fun e => e.1 = path).map Prod.snd) = some patch := by
  have hg := getD_groupBy Prod.fst (modifications g pend) path
  have hk := mem_keys_groupBy Prod.fst (modifications g pend) path
  have he : pathEdits g pend path ≠ [] ↔
      ∃ e ∈ modifications g pend, e.1 = path := by
    simp [pathEdits]
  rw [he, ← hk, mem_keys_iff]
  simp only [spliceModifications, mem_filterMap, Option.bind_eq_some_iff]
  constructor
  · rintro ⟨⟨⟨own, group⟩, hm, t, hT, made⟩, rfl⟩
    obtain rfl : own = patch.path := ((patchFile_eq_some_iff _ _ _ _).mp made).2.2.1.symm
    have held := (get?_eq_some_iff _ _ _).mpr hm
    rw [held] at hg
    cases hf.symm.trans hT
    exact ⟨⟨group, held⟩, hg ▸ made⟩
  · rintro ⟨⟨group, held⟩, made⟩
    rw [held] at hg
    refine ⟨⟨(path, group), (get?_eq_some_iff _ _ _).mp held, original, hf, ?_⟩,
      ((patchFile_eq_some_iff _ _ _ _).mp made).2.2.1⟩
    rw [← made, ← hg]
    rfl

/-- The patch of a file whose rewritten nodes are disjoint is its text with each
of their spans replaced, whatever the order of the nodes; there is none without
a rewritten node. -/
theorem splice_exact (g : ContentGraph) (originals : Dict String Text) (includePending : Bool)
    (path : String) (original : Text) (found : originals.get? path = some original)
    (inside : ∀ e ∈ pathEdits g includePending path, e.stop ≤ (fileLines original).length)
    (apart : (pathEdits g includePending path).Pairwise Edit.Apart) :
    (∀ e, e ∈ pathEdits g includePending path ↔
        ∃ node ∈ g.nodes.values, Rewrites includePending path node e) ∧
      ∀ stored : ContentGraph, stored.nodes.values.Perm g.nodes.values → ∀ patched : Text,
        (∃ patch ∈ spliceModifications stored originals includePending,
            patch.path = path ∧ patch.patched = patched) ↔
          pathEdits g includePending path ≠ [] ∧ patched ≠ original ∧
            patched =
              (replaceSpans (pathEdits g includePending path) (fileLines original)).flatten := by
  refine ⟨mem_pathEdits_iff g includePending path, fun stored perm patched => ?_⟩
  have reordered : (pathEdits stored includePending path).Perm (pathEdits g includePending path) :=
    ((perm.filterMap _).filter _).map _
  have symmetric : ∀ {e other : Edit Text}, e.Apart other → other.Apart e := Or.symm
  have sorted : (fileEdits stored includePending path).Perm (pathEdits g includePending path) :=
    (perm_insertionSort _ _).trans reordered
  have text : spliceAll (fileLines original) (fileEdits stored includePending path) =
      replaceSpans (pathEdits g includePending path) (fileLines original) := by
    have apart' := (sorted.pairwise_iff symmetric).mpr apart
    rw [spliceAll_eq_replaceSpans _ _ (fun e member => inside e (sorted.mem_iff.mp member))
      (fileEdits_descending stored includePending path) apart', replaceSpans_perm sorted apart']
  have edits : sortDescending ((((modifications stored includePending).filter fun entry =>
      entry.1 = path).map Prod.snd).map NodeEdit.edit) = fileEdits stored includePending path := by
    rw [map_map]
    rfl
  have some : pathEdits stored includePending path ≠ [] ↔ pathEdits g includePending path ≠ [] := by
    rw [ne_eq, ne_eq, ← length_eq_zero_iff, reordered.length_eq, length_eq_zero_iff]
  constructor
  · rintro ⟨patch, member, isPath, rfl⟩
    obtain ⟨edited, made⟩ :=
      (mem_spliceModifications_iff stored includePending found patch).mp ⟨member, isPath⟩
    obtain ⟨textOf, differ, -⟩ := (patchFile_eq_some_iff _ _ _ _).mp made
    rw [edits, text] at textOf
    exact ⟨some.mp edited, differ, textOf⟩
  · rintro ⟨edited, differ, rfl⟩
    obtain ⟨member, isPath⟩ :=
      (mem_spliceModifications_iff stored includePending found _).mpr
        ⟨some.mpr edited, (patchFile_eq_some_iff path original _
          { path, original, patched := _, ruleIds := _ }).mpr
            ⟨by rw [edits, text], differ, rfl, rfl, rfl⟩⟩
    exact ⟨_, member, isPath, rfl⟩

/-- A file of two lines whose first line is rewritten. -/
def firstLineGraph : ContentGraph :=
  { nodes := ofList [("task", rewrittenNode .task 1 1 "a\n" "c\n")] }

def twoTasks : List (String × ContentNode) :=
  [("first", rewrittenNode .task 1 1 "a\n" "c\n"), ("last", rewrittenNode .task 3 4 "b\nb\n" "d\n")]

/-- Two tasks with a line between them are rewritten, whichever is stored first. -/
theorem twoTasks_replaced :
    ∃ patch ∈ spliceModifications { nodes := ofList twoTasks.reverse }
        (ofList [("site.yml", "a\n-\nb\nb\n".toList)]) false,
      patch.path = "site.yml" ∧ patch.patched = "c\n-\nd\n".toList :=
  ((splice_exact { nodes := ofList twoTasks } (ofList [("site.yml", "a\n-\nb\nb\n".toList)]) false
    "site.yml" "a\n-\nb\nb\n".toList rfl (by decide) (by decide)).2
      { nodes := ofList twoTasks.reverse } (List.Perm.swap _ _ _) _).mpr (by decide)

/-- The last line is not in the span, but it gets the line feed it did not have;
and a node whose text is gone is not taken out of the file. -/
theorem last_line_terminated :
    (∃ patch ∈ spliceModifications firstLineGraph
        (ofList [("site.yml", "a\nb".toList)]) false, patch.patched = "c\nb\n".toList) ∧
      (replaceSpans (pathEdits firstLineGraph false "site.yml")
        (Text.splitLines "a\nb".toList)).flatten = "c\nb".toList ∧
      spliceModifications { nodes := ofList [("task", rewrittenNode .task 1 1 "a\n" "")] }
        (ofList [("site.yml", "a\nb\n".toList)]) false = [] := by
  decide

end Apme.Remediation
