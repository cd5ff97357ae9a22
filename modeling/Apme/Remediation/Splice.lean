import Apme.Graph.Frame
import Apme.Lib.Splice

/-!
# Splicing modified nodes back into their files

`splice_modifications` turns every node whose effective snapshot differs from
its first one into an edit of the node's lines, groups the edits by file and
applies them bottom-up with the original line numbers.
-/

set_option autoImplicit false

namespace Apme.Remediation

open Apme.Lib Apme.Graph

structure NodeEdit where
  edit : Edit Text
  ruleIds : List String

structure FilePatch where
  path : String
  original : Text
  patched : Text
  ruleIds : List String
  deriving DecidableEq

/-- The lines of a text, the last one ended by a line feed. -/
def fileLines (text : Text) : List Text := Text.terminateLast (Text.splitLines text)

/-- The snapshot that is written out: the latest one, or the last approved one
and else the first. -/
def effectiveState (includePending : Bool) (progression : List NodeState) : Option NodeState :=
  if includePending then progression.getLast?
  else (lastApproved progression).or progression.head?

def nodeEdit (includePending : Bool) (node : ContentNode) : Option NodeEdit :=
  if node.progression.length < 2 ∨ node.filePath = "" ∨ node.yamlLines = [] then none
  else if span : 1 ≤ node.lineStart ∧ node.lineStart ≤ node.lineEnd then
    match node.progression.head?, effectiveState includePending node.progression with
    | some original, some effective =>
      if original.yamlLines = effective.yamlLines then none
      else
        some
          { edit :=
              { start := node.lineStart, stop := node.lineEnd
                new := fileLines effective.yamlLines
                start_pos := span.1, ordered := span.2 }
            ruleIds := node.violationLedger.keys.map Prod.snd }
    | _, _ => none
  else none

variable (g : ContentGraph)

/-- The edits of all nodes with their file paths, in graph order. -/
def modifications (includePending : Bool) : List (String × NodeEdit) :=
  g.nodes.values.filterMap fun node => (nodeEdit includePending node).map (node.filePath, ·)

variable (edits : List NodeEdit)

def sortEdits : List NodeEdit := edits.insertionSort fun a b => b.edit.start ≤ a.edit.start

def patchFile (path : String) (original : Text) (edits : List NodeEdit) : Option FilePatch :=
  let sorted := sortEdits edits
  let patched := (spliceAll (fileLines original) (sorted.map NodeEdit.edit)).flatten
  if patched = original then none
  else some { path, original, patched, ruleIds := sorted.flatMap NodeEdit.ruleIds }

variable (originals : Dict String Text)

def spliceModifications (includePending : Bool) : List FilePatch :=
  (Dict.groupBy Prod.fst (modifications g includePending)).entries.filterMap fun group =>
    (originals.get? group.1).bind fun original =>
      patchFile group.1 original (group.2.map Prod.snd)

/-- The edits of one file in the order in which they are applied. -/
def fileEdits (includePending : Bool) (path : String) : List (Edit Text) :=
  sortDescending (((modifications g includePending).filter fun entry => entry.1 = path).map
    fun entry => entry.2.edit)

theorem sortEdits_map_edit :
    (sortEdits edits).map NodeEdit.edit = sortDescending (edits.map NodeEdit.edit) :=
  List.map_insertionSort _ _ _ _ fun _ _ _ _ => Iff.rfl

theorem fileEdits_descending (pend : Bool) (p : String) :
    DescendingStarts (fileEdits g pend p) :=
  sortDescending_descending _

theorem patched_eq_markedSplice {pend : Bool}
    {patch : FilePatch} (hp : patch ∈ spliceModifications g originals pend) :
    originals.get? patch.path = some patch.original ∧
      patch.patched =
        ((markedSplice (fileLines patch.original) (fileEdits g pend patch.path)).map
          Prod.fst).flatten := by
  obtain ⟨⟨p, group⟩, hm, ho⟩ := List.mem_filterMap.mp hp
  obtain ⟨original, hf, ho⟩ := Option.bind_eq_some_iff.mp ho
  have he := Dict.mem_groupBy_entries hm
  simp only [patchFile] at ho
  split at ho
  · cases ho
  · cases Option.some.inj ho
    refine ⟨hf, ?_⟩
    rw [markedSplice_fst, fileEdits, sortEdits_map_edit, he, List.map_map]
    rfl

/-- Every original line outside the edits is in the buffer once and in order. -/
def OutsideKept (lines : List Text) (edits : List (Edit Text)) : Prop :=
  (survivors lines edits).filter (fun line => Outside edits line) =
    (List.range' 1 lines.length).filter fun line => Outside edits line

instance (lines : List Text) (edits : List (Edit Text)) : Decidable (OutsideKept lines edits) :=
  inferInstanceAs (Decidable (_ = _))

/-- Pairwise disjoint or nested spans. -/
def Laminar (edits : List (Edit Text)) : Prop :=
  edits.Pairwise fun a b => a.stop < b.start ∨ b.stop < a.start ∨
    (a.start ≤ b.start ∧ b.stop ≤ a.stop) ∨ (b.start ≤ a.start ∧ a.stop ≤ b.stop)

instance (edits : List (Edit Text)) : Decidable (Laminar edits) :=
  inferInstanceAs (Decidable (List.Pairwise _ _))

/-- The lines outside all modified spans are kept exactly when no edit, applied
at its recorded lines, reaches down to the place where such a line then is. -/
theorem splice_outside_kept_iff (g : ContentGraph) (originals : Dict String Text)
    (includePending : Bool) (patch : FilePatch)
    (produced : patch ∈ spliceModifications g originals includePending) :
    let lines := fileLines patch.original
    let edits := fileEdits g includePending patch.path
    patch.patched = ((markedSplice lines edits).map Prod.fst).flatten ∧
      (OutsideKept lines edits ↔
        ∀ line, 1 ≤ line → line ≤ lines.length → Outside edits line →
          ∀ earlier e later, edits = earlier ++ e :: later → e.start ≤ line →
            e.stop + removedAbove line earlier < line + addedAbove line earlier) := by
  intro lines edits
  refine ⟨(patched_eq_markedSplice g originals produced).2, ?_⟩
  have kept := outside_kept_iff lines edits (fileEdits_descending g includePending patch.path)
  simp only [survives_iff] at kept
  exact kept

/-- A node scanned with one text and rewritten, with approval, to another. -/
def rewrittenNode (nodeType : NodeType) (first last : Nat) (before after : String) :
    ContentNode :=
  { nodeType, filePath := "site.yml", lineStart := first, lineEnd := last
    yamlLines := after.toList
    progression :=
      [{ id := "@0", passNumber := 0, phase := .scanned, yamlLines := before.toList
         approved := true },
       { id := "@1", passNumber := 1, phase := .transformed, yamlLines := after.toList
         approved := true, source := .deterministic }] }

def blockFile : Text := "- block:\n    - name: a\n      ping:\n- debug:\n".toList

/-- A block and its task are both rewritten, and the task loses a line. -/
def shrunkTaskGraph : ContentGraph :=
  { nodes := Dict.ofList
      [("block", rewrittenNode .block 1 3 "- block:\n    - name: a\n      ping:\n"
          "- block:\n    - name: A\n      ping:\n"),
       ("task", rewrittenNode .task 2 3 "    - name: a\n      ping:\n" "    - ping:\n")] }

def shrunkTaskPatch : FilePatch :=
  { path := "site.yml", original := blockFile
    patched := "- block:\n    - name: A\n      ping:\n".toList, ruleIds := [] }

theorem shrunkTask_outside_kept_iff :
    OutsideKept (fileLines blockFile) (fileEdits shrunkTaskGraph false "site.yml") ↔
      ∀ line, 1 ≤ line → line ≤ (fileLines blockFile).length →
        Outside (fileEdits shrunkTaskGraph false "site.yml") line →
          ∀ earlier e later,
            fileEdits shrunkTaskGraph false "site.yml" = earlier ++ e :: later →
              e.start ≤ line →
                e.stop + removedAbove line earlier < line + addedAbove line earlier :=
  (splice_outside_kept_iff shrunkTaskGraph (Dict.ofList [("site.yml", blockFile)]) false
    shrunkTaskPatch (by decide)).2

/-- The edit of the block ends one line too late once the task has shrunk, and
takes the line after the block with it. -/
theorem shrunkTask_drops_line_after_block :
    shrunkTaskPatch ∈
        spliceModifications shrunkTaskGraph (Dict.ofList [("site.yml", blockFile)]) false ∧
      Laminar (fileEdits shrunkTaskGraph false "site.yml") ∧
      (∀ e ∈ fileEdits shrunkTaskGraph false "site.yml", e.stop ≤ (fileLines blockFile).length) ∧
      ¬ OutsideKept (fileLines blockFile) (fileEdits shrunkTaskGraph false "site.yml") ∧
      (fileLines blockFile)[3]? = some "- debug:\n".toList ∧
      "- debug:\n".toList ∉ Text.splitLines shrunkTaskPatch.patched := by
  decide

end Apme.Remediation
