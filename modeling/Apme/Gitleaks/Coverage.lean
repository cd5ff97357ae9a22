import Apme.Builder.Spans
import Apme.Gitleaks.Scanner

/-!
# What the secret scan sees of a project

The validator gets the content graph and the uploaded files.  It scans the text
of every node, and a file of its own only if no scanned node is of that file.
Contents are decoded texts.
-/

set_option autoImplicit false

namespace Apme.Gitleaks

open Apme.Lib Apme.Graph List

structure File where
  path : String
  content : Text

section Nodes

variable (g : ContentGraph)

/-- Nodes with a text, in the order of the serialized graph. -/
def scannedNodes : List (String × ContentNode) :=
  (sortIds g.nodes.keys).filterMap fun nodeId =>
    (g.getNode nodeId).bind fun node =>
      if nodeId = "" ∨ node.yamlLines = [] then none else some (nodeId, node)

/-- `_extract_nodes_from_graph_data`. -/
def extractNodesFromGraphData : List (String × Text) × List String :=
  ((scannedNodes g).map fun entry => (entry.1, entry.2.yamlLines),
    ((scannedNodes g).map fun entry => entry.2.filePath).filter fun path => path ≠ "")

theorem mem_scannedNodes_iff (id : String) (n : ContentNode) :
    (id, n) ∈ scannedNodes g ↔ g.getNode id = some n ∧ id ≠ "" ∧ n.yamlLines ≠ [] := by
  unfold scannedNodes
  rw [mem_filterMap]
  constructor
  · intro mem
    obtain ⟨o, -, hfo⟩ := mem
    obtain ⟨t, hg, hc⟩ := Option.bind_eq_some_iff.mp hfo
    split at hc
    · cases hc
    next hu =>
      obtain ⟨rfl, rfl⟩ := Prod.mk.inj (Option.some.inj hc)
      exact ⟨hg, not_or.mp hu⟩
  · intro hf
    obtain ⟨hg, hn, ht⟩ := hf
    refine ⟨id, ?_, ?_⟩
    · rw [sortIds, mem_insertionSort, Dict.mem_keys_iff]
      exact ⟨n, hg⟩
    · simp [hg, hn, ht]

end Nodes

section Scan

/-- The graph is missing when the scan context has none. -/
def graphNodes (graph : Option ContentGraph) : List (String × Text) × List String :=
  match graph with
  | none => ([], [])
  | some g => extractNodesFromGraphData g

variable (graph : Option ContentGraph) (files : List File)

/-- The entries of files that no scanned node is of. -/
def fileEntries : List (String × Text) :=
  (files.filter fun file => file.path ∉ (graphNodes graph).2 ∧ file.content ≠ []).map fun file =>
    (file.path, file.content)

def scanEntries : List (String × Text) := (graphNodes graph).1 ++ fileEntries graph files

/-- `_run_scan`. -/
def runScan (gitleaks : Text → Option (List Finding)) : List Violation × Nat :=
  if scanEntries graph files = [] then ([], 0)
  else (runGitleaksNodes gitleaks (scanEntries graph files), (scanEntries graph files).length)

/-- The text that is piped to the program. -/
def payloadText : Text := (buildStdinPayload (scanEntries graph files)).text

variable (file : File)

/-- A node of the file has the line in its text. -/
def InNode (line : Text) : Prop :=
  ∃ g nodeId node, graph = some g ∧ g.getNode nodeId = some node ∧ nodeId ≠ "" ∧
    node.filePath = file.path ∧ line ∈ node.yamlLines.splitOn '\n'

/-- The line is in the piped text, as part of a node of the file or of the
entry of the file. -/
def LineScanned (line : Text) : Prop :=
  line ∈ (payloadText graph files).splitOn '\n' ∧
    (InNode graph file line ∨ (file.path, file.content) ∈ fileEntries graph files)

/-- Some node with a text is of the file. -/
def Covered : Prop := file.path ∈ (graphNodes graph).2

variable (file : File)

theorem mem_fileEntries_iff (hl : file ∈ files) (ht : file.content ≠ []) :
    (file.path, file.content) ∈ fileEntries graph files ↔ ¬ Covered graph file := by
  unfold fileEntries Covered
  constructor
  · intro mem
    obtain ⟨o, hk, hs⟩ := mem_map.mp mem
    have hu := of_decide_eq_true (mem_filter.mp hk).2
    rw [(Prod.mk.inj hs).1] at hu
    exact hu.1
  · intro hu
    apply mem_map.mpr
    refine ⟨file, ?_, rfl⟩
    apply mem_filter.mpr
    exact ⟨hl, decide_eq_true ⟨hu, ht⟩⟩

theorem entry_of_inNode {ln : Text} (ne : ln ≠ []) (hin : InNode graph file ln) :
    ∃ e ∈ (graphNodes graph).1, ln ∈ e.2.splitOn '\n' := by
  obtain ⟨g, i, n, rfl, hf, hna, -, mem⟩ := hin
  have ht : n.yamlLines ≠ [] := by
    intro he
    rw [he] at mem
    exact ne (by simpa using mem)
  refine ⟨(i, n.yamlLines), ?_, mem⟩
  apply mem_map.mpr
  exact ⟨(i, n), (mem_scannedNodes_iff g i n).mpr ⟨hf, hna, ht⟩, rfl⟩

/-- Every line of a file is scanned exactly if it is in a node of the file or the
file is scanned on its own. -/
theorem lineScanned_iff (hl : file ∈ files) {ln : Text}
    (mem : ln ∈ file.content.splitOn '\n') (ne : ln ≠ []) :
    LineScanned graph files file ln ↔ (Covered graph file → InNode graph file ln) := by
  have ht : file.content ≠ [] := by
    intro hem
    rw [hem] at mem
    exact ne (by simpa using mem)
  have own := mem_fileEntries_iff graph files file hl ht
  constructor
  · intro hs hc
    rcases hs.2 with hn | he
    · exact hn
    · exact absurd hc (own.mp he)
  · intro hco
    by_cases hc : Covered graph file
    · have hn := hco hc
      obtain ⟨e, hg, hie⟩ := entry_of_inNode graph file ne hn
      refine ⟨?_, .inl hn⟩
      apply mem_lines_payload _ (mem_append_left _ hg) ne hie
    · have he := own.mpr hc
      refine ⟨?_, .inr he⟩
      apply mem_lines_payload _ (mem_append_right _ he) ne mem

/-- Every line of every file is scanned exactly if the nodes of a file with
scanned nodes have all its lines between them. -/
theorem secrets_scanned_iff :
    (∀ file ∈ files, isVaultEncrypted file.content = false →
        ∀ line ∈ file.content.splitOn '\n', Text.isBlank line = false →
          LineScanned graph files file line) ↔
      ∀ file ∈ files, isVaultEncrypted file.content = false → Covered graph file →
        ∀ line ∈ file.content.splitOn '\n', Text.isBlank line = false → InNode graph file line := by
  have nonempty : ∀ line : Text, Text.isBlank line = false → line ≠ [] := by
    intro line visible empty
    rw [empty] at visible
    cases visible
  constructor
  · intro all file listed plain covered line member visible
    have scanned := all file listed plain line member visible
    exact (lineScanned_iff graph files file listed member (nonempty line visible)).mp scanned
      covered
  · intro complete file listed plain line member visible
    apply (lineScanned_iff graph files file listed member (nonempty line visible)).mpr
    intro covered
    exact complete file listed plain covered line member visible

end Scan

def tokenFile : File :=
  { path := "site.yml", content := "# token: 3f1a\n- hosts: all\n  roles: [web]\n".toList }

/-- The play of the built graph is of the file, but the comment above it is in
no node, so it is not scanned at all. -/
theorem tokenFile_comment_unscanned :
    Holds
      (fun b => ∃ line ∈ tokenFile.content.splitOn '\n', Text.isBlank line = false ∧
        line ∉ (payloadText (some b.graph) [tokenFile]).splitOn '\n')
      (fun _ => False)
      (Builder.build 1 (Builder.onePlayProject tokenFile.content [])) ∧
    isVaultEncrypted tokenFile.content = false := by
  decide

end Apme.Gitleaks
