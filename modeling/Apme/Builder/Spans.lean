import Apme.Builder.Invariant
import Apme.Remediation.Splice

/-!
# Do the nodes of a built graph describe their lines?

A splice replaces the lines `line_start..line_end` of a node's file by the
node's text, so both must be the same piece of the file.  Tasks and handlers
take both from their definition.  A play takes its lines from the list items of
the playbook and its text from `extract_play_header`, and the theorem of this
file says for every project when all of them agree, and when the lines of the
children of a play outlive a rewrite of the play alone.
-/

set_option autoImplicit false

namespace Apme.Builder

open Apme.Lib Apme.Graph Apme.Remediation List

variable (fileContent : Text)

/-- The text of the lines `start..stop` of a file. -/
def spanText (start stop : Nat) : Text := slice (Text.splitLines fileContent) (start - 1) stop

/-- The text is that of the lines, up to the final newline. -/
def Describes (fileContent text : Text) (lines : Nat × Nat) : Prop :=
  text ≠ [] → 1 ≤ lines.1 → lines.1 ≤ lines.2 →
    Text.dropFinalNewline text = Text.dropFinalNewline (spanText fileContent lines.1 lines.2)

instance (fileContent text : Text) (lines : Nat × Nat) :
    Decidable (Describes fileContent text lines) :=
  inferInstanceAs (Decidable (_ → _ → _ → _))

variable (files : String → Text)

def SpanFaithful (node : ContentNode) : Prop :=
  Describes (files node.filePath) node.yamlLines (node.lineStart, node.lineEnd)

instance (files : String → Text) (node : ContentNode) : Decidable (SpanFaithful files node) :=
  inferInstanceAs (Decidable (Describes _ _ _))

/-- Line `line` of the file belongs to one of the spans. -/
def InSpans (spans : List (Nat × Nat)) (line : Nat) : Prop :=
  1 ≤ line ∧ line ≤ (fileLines fileContent).length ∧ ∃ span ∈ spans, span.1 ≤ line ∧ line ≤ span.2

/-- Only the lines of the file matter. -/
instance decidableForallInSpans (fileContent : Text) (spans : List (Nat × Nat)) (q : Nat → Prop)
    [DecidablePred q] : Decidable (∀ line, InSpans fileContent spans line → q line) :=
  decidable_of_iff
    (∀ line ∈ List.range' 1 (fileLines fileContent).length,
      (∃ span ∈ spans, span.1 ≤ line ∧ line ≤ span.2) → q line)
    ⟨fun holds line inside => holds line
      (mem_range'_1.mpr ⟨inside.1, by have := inside.2.1; omega⟩) inside.2.2,
    fun holds line member inSpan => holds line
      ⟨(mem_range'_1.mp member).1, by have := (mem_range'_1.mp member).2; omega, inSpan⟩⟩

/-- Splicing keeps the lines of a play's children whenever the play is the only
modified node. -/
def KeepsChildren (made : Built) : Prop :=
  ∀ filePath cut, made.origin = .header filePath cut → made.node.yamlLines ≠ [] →
    ∀ (g : ContentGraph) (includePending : Bool) (edit : NodeEdit),
      modifications g includePending = [(filePath, edit)] →
        edit.edit.start = cut.lineStart → edit.edit.stop = cut.lineEnd →
          ∀ line, InSpans (files filePath) cut.children line →
            line ∈ survivors (fileLines (files filePath)) (fileEdits g includePending filePath)

/-- The condition on what a node was made from. -/
def Origin.Covers : Origin → Prop
  | .none => True
  | .definition filePath task =>
    Describes (files filePath) task.yamlLines (extractLines task.lineNumInFile)
  | .header filePath cut =>
    Text.isBlank cut.header = false → cut.lineStart ≤ cut.lineEnd →
      cut.CoversSpan ∧
        (filePath ≠ "" → ∀ line, InSpans (files filePath) cut.children line →
          line < cut.lineStart ∨ cut.lineEnd < line)

instance decidableCovers (files : String → Text) : ∀ origin, Decidable (Origin.Covers files origin)
  | .none => isTrue trivial
  | .definition filePath _ => inferInstanceAs (Decidable (Describes (files filePath) _ _))
  | .header filePath cut =>
    inferInstanceAs (Decidable (_ → _ → cut.CoversSpan ∧ (filePath ≠ "" →
      ∀ line, InSpans (files filePath) cut.children line →
        line < cut.lineStart ∨ cut.lineEnd < line)))

section Sound

variable (files : String → Text)

/-- A node has the text and the lines of what it was made from. -/
def Built.Sound (made : Built) : Prop :=
  match made.origin with
  | .none => made.node.yamlLines = []
  | .definition filePath task =>
    made.node.filePath = filePath ∧ made.node.yamlLines = task.yamlLines ∧
      (made.node.lineStart, made.node.lineEnd) = extractLines task.lineNumInFile
  | .header filePath cut =>
    made.node.filePath = filePath ∧ made.node.yamlLines = extractPlayHeader cut ∧
      made.node.lineStart = cut.lineStart ∧ made.node.lineEnd = cut.lineEnd ∧
      cut.fileContent = files filePath ∧ cut.fileContent ≠ [] ∧ 1 ≤ cut.lineStart

/-- Every node of the graph is one that was added, and all added nodes are sound. -/
structure SoundBuild (b : GraphBuilder) : Prop where
  sound : ∀ made ∈ b.built, made.Sound files
  covered : ∀ nodeId node, b.graph.getNode nodeId = some node → ∃ made ∈ b.built, made.node = node

variable {files}

theorem SoundBuild.addNode {b : GraphBuilder} (holds : SoundBuild files b) (id : String)
    {node : ContentNode} {origin : Origin} (hs : Built.Sound files { node, origin }) :
    SoundBuild files (b.addNode id node origin) := by
  constructor
  · intro made hm
    rcases mem_append.mp hm with he | new
    · exact holds.sound made he
    · rw [mem_singleton.mp new]
      exact hs
  · intro other found here
    have hl : (b.addNode id node origin).graph.getNode other =
        if other = id then some node else b.graph.getNode other :=
      Dict.get?_insert b.graph.nodes id other node
    rw [hl] at here
    split at here
    · exact ⟨_, mem_append_right _ mem_cons_self, Option.some.inj here⟩
    · obtain ⟨made, hm, same⟩ := holds.covered other found here
      exact ⟨made, mem_append_left _ hm, same⟩

theorem soundBuild_invariant (p : Project)
    (ht : ∀ pb, .playbook pb ∈ p.heap → pb.yamlLines = files pb.definedIn) :
    BuildInvariant p (SoundBuild files) where
  addEdge _ _ _ _ _ holds := ⟨holds.sound, holds.covered⟩
  visit _ _ holds := ⟨holds.sound, holds.covered⟩
  addBare _ nodeId _ hnt holds := holds.addNode nodeId hnt
  addTask _ nodeId _ _ _ _ holds := holds.addNode nodeId ⟨rfl, rfl, rfl⟩
  addHandler _ nodeId _ _ _ holds := holds.addNode nodeId ⟨rfl, rfl, rfl⟩
  setHeader _ _ pb _ _ hl hc hs holds := holds.addNode _ ⟨rfl, rfl, rfl, rfl, ht pb hl, hc, hs⟩

end Sound

theorem fileEdits_single {g : ContentGraph} {pend : Bool} {f : String} {edit : NodeEdit}
    (ha : modifications g pend = [(f, edit)]) : fileEdits g pend f = [edit.edit] := by
  rw [fileEdits, ha]
  simp [sortDescending]

theorem mem_survivors_single {lines : List Text} (e : Edit Text) {line : Nat}
    (first : 1 ≤ line) (last : line ≤ lines.length) :
    line ∈ survivors lines [e] ↔ line < e.start ∨ e.stop < line := by
  rw [mem_survivors_iff lines [e] (pairwise_singleton _ _) line first last, Survives]
  split
  · simp only [Survives, and_true]
    omega
  · simp only [Survives, true_iff]
    omega

/-- A play of the given file and lines whose text was replaced. -/
def rewrittenPlay (filePath : String) (start stop : Nat) : ContentNode :=
  { nodeType := .play, filePath, lineStart := start, lineEnd := stop, yamlLines := ['b']
    progression :=
      [{ id := "play@0", passNumber := 0, phase := .scanned, yamlLines := ['a'], approved := true },
       { id := "play@1", passNumber := 1, phase := .transformed, yamlLines := ['b']
         approved := true, source := .deterministic }] }

theorem modifications_rewrittenPlay {f : String} (hn : f ≠ "") {start stop : Nat}
    (first : 1 ≤ start) (ordered : start ≤ stop) :
    ∃ edit,
      modifications { nodes := Dict.ofList [("play", rewrittenPlay f start stop)] } false =
          [(f, edit)] ∧
        edit.edit.start = start ∧ edit.edit.stop = stop := by
  let edit : NodeEdit :=
    { edit := { start := start, stop := stop, new := fileLines ['b'], start_pos := first
                ordered := ordered }
      ruleIds := [] }
  have hm : nodeEdit false (rewrittenPlay f start stop) = some edit := by
    unfold nodeEdit
    rw [if_neg (by simp [rewrittenPlay, hn]), dif_pos ⟨first, ordered⟩]
    rfl
  have hv : (Dict.ofList [("play", rewrittenPlay f start stop)]).values =
      [rewrittenPlay f start stop] := rfl
  refine ⟨edit, ?_, rfl, rfl⟩
  rw [modifications, hv, filterMap_cons, hm]
  rfl

variable (files : String → Text)

/-- The lines of the children survive every rewrite of the play alone exactly
when they are outside the lines of the play. -/
theorem keepsChildren_iff {node : ContentNode} (file : String)
    {cut : HeaderCut} (ht : node.yamlLines ≠ []) (hst : 1 ≤ cut.lineStart)
    (ho : cut.lineStart ≤ cut.lineEnd) :
    KeepsChildren files { node, origin := .header file cut } ↔
      (file ≠ "" → ∀ line, InSpans (files file) cut.children line →
        line < cut.lineStart ∨ cut.lineEnd < line) := by
  constructor
  · intro hk hn line hi
    obtain ⟨edit, ha, hs, stop⟩ :=
      modifications_rewrittenPlay hn hst ho
    have mem := hk file cut rfl ht _ false edit ha hs stop line hi
    rw [fileEdits_single ha,
      mem_survivors_single _ hi.1 hi.2.1, hs, stop] at mem
    exact mem
  · rintro hou _ _ ⟨⟩ _ g pend edit ha hs stop line hi
    have hn : file ≠ "" := by
      rintro rfl
      have mem : ("", edit) ∈ modifications g pend := by simp [ha]
      obtain ⟨other, -, hm⟩ := mem_filterMap.mp mem
      obtain ⟨entry, he, same⟩ := Option.map_eq_some_iff.mp hm
      have hu : other.filePath = "" := (Prod.mk.inj same).1
      simp [nodeEdit, hu] at he
    rw [fileEdits_single ha, mem_survivors_single _ hi.1 hi.2.1, hs,
      stop]
    exact hou hn line hi

theorem extractPlayHeader_of_blank {cut : HeaderCut} (hb : Text.isBlank cut.header) :
    extractPlayHeader cut = [] := by
  rw [extractPlayHeader, if_pos hb, ite_self]

theorem extractPlayHeader_of_text {cut : HeaderCut} (hc : cut.fileContent ≠ [])
    (hs : 1 ≤ cut.lineStart) (ht : Text.isBlank cut.header = false) :
    extractPlayHeader cut = Text.rstripNewlines cut.header ++ ['\n'] := by
  unfold extractPlayHeader
  rw [if_neg (by simp only [hc, false_or]; omega), if_neg (by simp [ht])]

/-- A node describes its lines, and a play leaves its children alone, exactly
when this can be seen from what the node was made from. -/
theorem faithful_iff_covers {made : Built} (sound : made.Sound files) :
    SpanFaithful files made.node ∧ KeepsChildren files made ↔ made.origin.Covers files := by
  obtain ⟨node, origin⟩ := made
  cases origin with
  | none =>
    refine ⟨fun _ => trivial, fun _ => ⟨fun text => absurd sound text, ?_⟩⟩
    intro file cut differs
    cases differs
  | definition file task =>
    obtain ⟨path, text, lines⟩ := sound
    have same : SpanFaithful files node ↔ Origin.Covers files (.definition file task) := by
      rw [SpanFaithful, path, text, lines]
      rfl
    refine ⟨fun holds => same.mp holds.1, fun covers => ⟨same.mpr covers, ?_⟩⟩
    intro otherPath cut differs
    cases differs
  | header file cut =>
    obtain ⟨path, text, start, stop, content, present, starts⟩ := sound
    dsimp only at path text start stop
    by_cases blank : Text.isBlank cut.header
    · have empty : node.yamlLines = [] := by rw [text, extractPlayHeader_of_blank blank]
      refine ⟨fun _ nonblank => by simp [blank] at nonblank, fun _ =>
        ⟨fun ne => absurd empty ne, ?_⟩⟩
      intro otherPath otherCut _ ne
      exact absurd empty ne
    · have nonblank := Bool.eq_false_iff.mpr blank
      have header := text.trans (extractPlayHeader_of_text present starts nonblank)
      have ne : node.yamlLines ≠ [] := by simp [header]
      by_cases ordered : cut.lineStart ≤ cut.lineEnd
      · have describes : SpanFaithful files node ↔ cut.CoversSpan := by
          have span : spanText (files file) cut.lineStart cut.lineEnd = cut.span := by
            rw [← content]
            rfl
          rw [← cut.coversSpan_iff ordered, SpanFaithful, Describes, path, start, stop, span,
            header, Text.dropFinalNewline_concat, if_pos rfl]
          exact ⟨fun faithful => faithful (by simp) starts ordered, fun same _ _ _ => same⟩
        rw [describes, keepsChildren_iff files file ne starts ordered]
        exact ⟨fun holds _ _ => holds, fun covers => covers nonblank ordered⟩
      · refine ⟨fun _ _ inOrder => absurd inOrder ordered, fun _ => ⟨?_, ?_⟩⟩
        · intro _ _ inOrder
          rw [start, stop] at inOrder
          exact absurd inOrder ordered
        · rintro _ _ ⟨⟩ _ g pend edit _ first last
          have := edit.edit.ordered
          omega

/-- For every project: the nodes of the graph are among the added ones, and all
added nodes describe their lines, with no child lost when its play alone is
rewritten, exactly when every task and handler definition describes its lines
and every play header reaches to the end of its play, with the play's children
outside. -/
theorem build_spans_iff (limit : Nat) (p : Project) (files : String → Text) (b : GraphBuilder)
    (texts : ∀ playbook, .playbook playbook ∈ p.heap →
      playbook.yamlLines = files playbook.definedIn)
    (run : build limit p = .ok b) :
    (∀ nodeId node, b.graph.getNode nodeId = some node → ∃ made ∈ b.built, made.node = node) ∧
      ((∀ made ∈ b.built, SpanFaithful files made.node ∧ KeepsChildren files made) ↔
        ∀ made ∈ b.built, made.origin.Covers files) := by
  have ended := (soundBuild_invariant p texts).build limit
    ⟨by simp, fun nodeId node found => by cases found⟩
  rw [run] at ended
  refine ⟨ended.covered, forall_congr' fun made => forall_congr' fun member => ?_⟩
  exact faithful_iff_covers files (ended.sound made member)

variable (tasks : List TaskDef)

/-- A project of one playbook with one play. -/
def onePlayProject : Project :=
  { heap := .playbook { definedIn := "site.yml", yamlLines := fileContent, plays := [.object 1] } ::
      .play { tasks := (List.range tasks.length).map fun index => .object (index + 2) } ::
      tasks.map .task
    root := { playbooks := [0] } }

theorem onePlayProject_texts (pb : PlaybookDef)
    (hl : .playbook pb ∈ (onePlayProject fileContent tasks).heap) :
    pb.yamlLines = fileContent := by
  simp [onePlayProject] at hl
  rw [hl]

def rolesOnlyFile : Text := "- hosts: all\n  roles: [web]\n".toList

theorem rolesOnly_spans :
    Holds
      (fun b => ∀ made ∈ b.built, SpanFaithful (fun _ => rolesOnlyFile) made.node ∧
        KeepsChildren (fun _ => rolesOnlyFile) made)
      (fun _ => False) (build 1 (onePlayProject rolesOnlyFile [])) := by
  have covers : Holds (fun b => ∀ made ∈ b.built, made.origin.Covers fun _ => rolesOnlyFile)
      (fun _ => False) (build 1 (onePlayProject rolesOnlyFile [])) := by
    decide
  cases run : build 1 (onePlayProject rolesOnlyFile []) with
  | error failure => rwa [run] at covers
  | ok b =>
    rw [run] at covers
    exact (build_spans_iff 1 (onePlayProject rolesOnlyFile []) (fun _ => rolesOnlyFile) b
      (onePlayProject_texts rolesOnlyFile []) run).2.mpr covers

def shellPlayFile : Text := "- hosts: all\n  tasks:\n    - shell: ls\n".toList

def shellPlayTask : TaskDef :=
  { module := "shell", lineNumInFile := [3, 3], yamlLines := "    - shell: ls".toList }

/-- Scan a node, give it a new text and approve it. -/
def rewriteApproved (nodeId : String) (text : Text) (g : ContentGraph) : ContentGraph :=
  (((g.recordState nodeId 0 .scanned .unset).rewrite nodeId text).recordState nodeId 1 .transformed
    .deterministic).approveNode nodeId

/-- The play has the lines of its task but not their text, and a new header
written over the lines of the play takes the task out of the file. -/
theorem shellPlay_header_drops_task :
    Holds
      (fun b =>
        (∃ made ∈ b.built, ¬ SpanFaithful (fun _ => shellPlayFile) made.node) ∧
        (∀ made ∈ b.built, made.node.nodeType = .task →
          SpanFaithful (fun _ => shellPlayFile) made.node) ∧
        spliceModifications
            (rewriteApproved "site.yml/plays[0]" "- hosts: web\n  tasks:\n".toList b.graph)
            (Dict.ofList [("site.yml", shellPlayFile)]) false =
          [{ path := "site.yml", original := shellPlayFile
             patched := "- hosts: web\n  tasks:\n".toList, ruleIds := [] }])
      (fun _ => False)
      (build 2 (onePlayProject shellPlayFile [shellPlayTask])) := by
  decide

end Apme.Builder
