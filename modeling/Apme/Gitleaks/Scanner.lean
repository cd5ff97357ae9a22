import Apme.Graph.Scanner

/-!
# Scanning node contents for secrets

All contents go to `gitleaks` in one text, each after a delimiter line with the
id of its node.  A finding belongs to the last delimiter at or before its first
line, and its lines are counted from there.  The program itself is a parameter:
it gets the text and returns its findings, or fails.
-/

set_option autoImplicit false

namespace Apme.Gitleaks

open Apme.Lib Apme.Graph List

def isVaultEncrypted (content : Text) : Bool :=
  "$ANSIBLE_VAULT;".toList.isPrefixOf (Text.lstrip content)

def isQuote (c : Char) : Bool := c = '\'' || c = '"'

/-- `\{\{.*?\}\}` over the whole text; the dot takes no line feed. -/
def isJinjaReference (text : Text) : Bool :=
  let inner := text.drop 2
  "\x7b\x7b".toList.isPrefixOf text && "\x7d\x7d".toList.isSuffixOf inner &&
    (inner.take (inner.length - 2)).all fun c => c ≠ '\n'

def valueIsJinja (matchText : Text) : Bool :=
  isJinjaReference (((Text.strip matchText).dropWhile isQuote).rdropWhile isQuote)

def buildRuleId (gitleaksRuleId : String) : String := "SEC:" ++ gitleaksRuleId

def delimiterComment (nodeId : String) : Text := "# __apme_node__ ".toList ++ nodeId.toList

def nodeDelimiter (nodeId : String) : Text := delimiterComment nodeId ++ ['\n']

/-- The content with a final line feed; nothing stays nothing. -/
def terminated (content : Text) : Text :=
  if content ≠ [] ∧ !Text.endsWithNewline content then content ++ ['\n'] else content

structure StdinPayload where
  parts : List Text := []
  delimiterLines : List Nat := []
  nodeIds : List String := []
  contentById : Dict String Text := Dict.empty
  currentLine : Nat := 1

namespace StdinPayload

def add (p : StdinPayload) (node : String × Text) : StdinPayload :=
  { parts := p.parts ++ [nodeDelimiter node.1, terminated node.2]
    delimiterLines := p.delimiterLines ++ [p.currentLine]
    nodeIds := p.nodeIds ++ [node.1]
    contentById := p.contentById.insert node.1 node.2
    currentLine := p.currentLine + 1 + (terminated node.2).count '\n' }

def text (p : StdinPayload) : Text := p.parts.flatten

end StdinPayload

def buildStdinPayload (nodes : List (String × Text)) : StdinPayload :=
  nodes.foldl StdinPayload.add {}

variable (nodes : List (String × Text))

theorem text_foldl_add (p : StdinPayload) : (nodes.foldl StdinPayload.add p).text =
      p.text ++ nodes.flatMap fun n => nodeDelimiter n.1 ++ terminated n.2 := by
  induction nodes generalizing p with
  | nil => simp
  | cons n rest ih =>
    rw [foldl_cons, ih, flatMap_cons]
    simp [StdinPayload.text, StdinPayload.add]

theorem text_buildStdinPayload : (buildStdinPayload nodes).text =
      nodes.flatMap fun n => nodeDelimiter n.1 ++ terminated n.2 := by
  rw [buildStdinPayload, text_foldl_add]
  simp [StdinPayload.text]

theorem terminated_eq {t : Text} (some : t ≠ []) :
    terminated t = Text.dropFinalNewline t ++ ['\n'] := by
  obtain ⟨body, c, rfl⟩ := eq_nil_or_concat' t |>.resolve_left some
  by_cases hn : c = '\n'
  · simp [terminated, hn]
  · simp [terminated, hn]

theorem mem_lines_dropFinalNewline {t ln : Text} (ne : ln ≠ [])
    (mem : ln ∈ t.splitOn '\n') : ln ∈ (Text.dropFinalNewline t).splitOn '\n' := by
  rcases eq_nil_or_concat' t with rfl | ⟨body, c, rfl⟩
  · exact mem
  · rw [Text.dropFinalNewline_concat]
    split
    next hn =>
      rw [hn, splitOn_append_cons_self, mem_append] at mem
      rcases mem with hb | last
      · exact hb
      · exact absurd (by simpa using last) ne
    next => exact mem

theorem mem_lines_payload {n : String × Text} (hl : n ∈ nodes) {ln : Text} (ne : ln ≠ [])
    (mem : ln ∈ n.2.splitOn '\n') : ln ∈ (buildStdinPayload nodes).text.splitOn '\n' := by
  rw [text_buildStdinPayload]
  induction nodes with
  | nil => exact absurd hl not_mem_nil
  | cons first rest ih =>
    rw [flatMap_cons, nodeDelimiter, append_assoc, append_assoc,
      singleton_append, splitOn_append_cons_self, mem_append]
    right
    rcases mem_cons.mp hl with hs | hla
    · subst hs
      have some : n.2 ≠ [] := by
        intro he
        rw [he] at mem
        exact ne (by simpa using mem)
      rw [terminated_eq some, append_assoc, singleton_append,
        splitOn_append_cons_self, mem_append]
      left
      exact mem_lines_dropFinalNewline ne mem
    · by_cases he : first.2 = []
      · simpa [terminated, he] using ih hla
      · rw [terminated_eq he, append_assoc, singleton_append,
          splitOn_append_cons_self, mem_append]
        right
        exact ih hla

/-- What the scan uses of an entry of the JSON report. -/
structure Finding where
  ruleId : Option String := none
  description : Option String := none
  matchText : Text := []
  startLine : Int := 0
  endLine : Option Int := none

/-- `bisect_right`, on a sorted list the number of lines up to the given one. -/
def resolveNodeId (findingLine : Int) (p : StdinPayload) : String × Nat :=
  let upTo := (p.delimiterLines.takeWhile fun (line : Nat) => (line : Int) ≤ findingLine).length
  if upTo = 0 then ("", 0)
  else (p.nodeIds.getD (upTo - 1) "", p.delimiterLines.getD (upTo - 1) 0)

def relativeLine (line : Int) (delimiterLine : Nat) : Int := max 1 (line - delimiterLine)

def findingViolation (p : StdinPayload) (f : Finding) : Option Violation :=
  let owner := resolveNodeId f.startLine p
  let start := relativeLine f.startLine owner.2
  let stop := relativeLine (f.endLine.getD f.startLine) owner.2
  let rule := f.ruleId.getD "unknown"
  if valueIsJinja f.matchText then none
  else if owner.1 = "" then none
  else if isVaultEncrypted ((p.contentById.get? owner.1).getD []) then none
  else
    some
      { ruleId := buildRuleId rule, severity := "critical"
        message := f.description.getD ("Secret detected: " ++ rule)
        line := if start = stop then .one start else .range [start, stop]
        path := owner.1, scope := "playbook", source := "gitleaks" }

/-- The first argument is the program; `none` stands for all its failures. -/
def runGitleaksNodes (gitleaks : Text → Option (List Finding)) (nodes : List (String × Text)) :
    List Violation :=
  if nodes = [] then []
  else
    let payload := buildStdinPayload nodes
    match gitleaks payload.text with
    | none => []
    | some findings => findings.filterMap (findingViolation payload)

theorem length_splitOn_newline (t : Text) : (t.splitOn '\n').length = t.count '\n' + 1 := by
  induction t with
  | nil => rfl
  | cons c rest ih =>
    rw [splitOn_eq_splitOnP, splitOnP_cons_eq_if_modifyHead, ← splitOn_eq_splitOnP, count_cons]
    split <;> simp [ih]

theorem count_delimiterComment {id : String} (hl : '\n' ∉ id.toList) :
    (delimiterComment id).count '\n' = 0 :=
  count_append.trans (Nat.add_eq_zero_iff.mpr ⟨by decide +kernel, count_eq_zero.mpr hl⟩)

/-- The payload's line numbers are those of its text. -/
structure StdinPayload.Numbered (p : StdinPayload) : Prop where
  lengths : p.delimiterLines.length = p.nodeIds.length
  earlier : ∀ line ∈ p.delimiterLines, line < p.currentLine
  current : p.currentLine = p.text.count '\n' + 1

theorem StdinPayload.Numbered.add {p : StdinPayload} (hn : p.Numbered) {n : String × Text}
    (hl : '\n' ∉ n.1.toList) : (p.add n).Numbered where
  lengths := by simp [StdinPayload.add, hn.lengths]
  earlier := by
    intro ln mem
    have current : (p.add n).currentLine = p.currentLine + 1 + _ := rfl
    obtain mem | rfl : ln ∈ p.delimiterLines ∨ ln = p.currentLine := by
      simpa [StdinPayload.add] using mem
    · have := hn.earlier ln mem
      omega
    · omega
  current := by
    have hd := count_delimiterComment hl
    have current := hn.current
    simp [StdinPayload.add, StdinPayload.text, nodeDelimiter, hd] at current ⊢
    omega

theorem numbered_buildStdinPayload (hl : ∀ n ∈ nodes, '\n' ∉ n.1.toList) :
    (buildStdinPayload nodes).Numbered :=
  foldlRecOn nodes StdinPayload.add ⟨rfl, by simp, rfl⟩ fun _ hn n mem => hn.add (hl n mem)

/-- Later delimiters stand at or after the current line. -/
theorem foldl_add_extends (p : StdinPayload) : ∃ lines ids,
    (nodes.foldl StdinPayload.add p).delimiterLines = p.delimiterLines ++ lines ∧
      (nodes.foldl StdinPayload.add p).nodeIds = p.nodeIds ++ ids ∧ ∀ line ∈ lines, p.currentLine ≤ line := by
  induction nodes generalizing p with
  | nil => exact ⟨[], [], by simp⟩
  | cons n rest ih =>
    obtain ⟨lines, ids, hl, hi, hla⟩ := ih (p.add n)
    refine ⟨p.currentLine :: lines, n.1 :: ids, ?_, ?_, fun line mem => ?_⟩
    · rw [foldl_cons, hl, StdinPayload.add, append_assoc, singleton_append]
    · rw [foldl_cons, hi, StdinPayload.add, append_assoc, singleton_append]
    · obtain rfl | mem := mem_cons.mp mem
      · exact le_refl _
      · have hc : (p.add n).currentLine = p.currentLine + 1 + _ := rfl
        have := hla line mem
        omega

theorem StdinPayload.Numbered.resolve {p : StdinPayload} (hn : p.Numbered)
    {n : String × Text} {j : Nat} (hi : j < (terminated n.2).count '\n') :
    resolveNodeId (p.currentLine + (j + 1) : Nat) (nodes.foldl StdinPayload.add (p.add n)) =
      (n.1, p.currentLine) := by
  obtain ⟨later, m, hl, ids, hb⟩ := foldl_add_extends nodes (p.add n)
  have ht : (p.add n).delimiterLines.takeWhile
      (fun (ln : Nat) => (ln : Int) ≤ (p.currentLine + (j + 1) : Nat)) = _ :=
    takeWhile_eq_self_iff.mpr fun ln mem => by
      obtain mem | rfl : ln ∈ p.delimiterLines ∨ ln = p.currentLine := by
        simpa [StdinPayload.add] using mem
      · have := hn.earlier ln mem
        simp only [decide_eq_true_eq]
        omega
      · simp only [decide_eq_true_eq]
        omega
  have hs : later.takeWhile
      (fun (ln : Nat) => (ln : Int) ≤ (p.currentLine + (j + 1) : Nat)) = [] := by
    cases later with
    | nil => rfl
    | cons next rest =>
      have : p.currentLine + 1 + (terminated n.2).count '\n' ≤ next := hb next mem_cons_self
      exact takeWhile_cons_of_neg (by simp only [decide_eq_true_eq]; omega)
  rw [resolveNodeId, hl, ids, takeWhile_append, ht, hs]
  simp [StdinPayload.add, hn.lengths]

/-- The line of the payload, counted from one, with line `j` of the content after `before`. -/
def carrierLine (before : List (String × Text)) (j : Nat) : Nat :=
  (buildStdinPayload before).text.count '\n' + 1 + j

/-- A final line feed ends the last line of a content, and no content has no line. -/
theorem resolveNodeId_carrierLine (before after : List (String × Text)) (node : String × Text)
    (oneLine : ∀ other ∈ before ++ node :: after, other.1 ≠ "" ∧ '\n' ∉ other.1.toList)
    (some : node.2 ≠ []) (j : Nat) (line : Text)
    (line_eq : ((Text.dropFinalNewline node.2).splitOn '\n')[j]? = .some line) :
    let payload := buildStdinPayload (before ++ node :: after)
    let number := carrierLine before (j + 1)
    (payload.text.splitOn '\n')[number - 1]? = .some line ∧
      (resolveNodeId number payload).1 = node.1 ∧
      relativeLine number (resolveNodeId number payload).2 = (j + 1 : Nat) := by
  intro payload number
  have numbered := numbered_buildStdinPayload before fun other mem => (oneLine other (by simp [mem])).2
  have number_eq : number = (buildStdinPayload before).currentLine + (j + 1) := by
    rw [numbered.current]
    rfl
  have inside : j < ((Text.dropFinalNewline node.2).splitOn '\n').length :=
    (List.getElem?_eq_some_iff.mp line_eq).1
  constructor
  · have front := length_splitOn_newline ((buildStdinPayload before).text ++ delimiterComment node.1)
    rw [count_append, count_delimiterComment (oneLine node (by simp)).2, ← numbered.current] at front
    rw [text_buildStdinPayload, flatMap_append, flatMap_cons, ← text_buildStdinPayload,
      nodeDelimiter, terminated_eq some]
    simp only [append_assoc, cons_append, nil_append]
    rw [← append_assoc, splitOn_append_cons_self, splitOn_append_cons_self,
      getElem?_append_right (by omega), getElem?_append_left (by omega), ← line_eq]
    congr 1
    omega
  · have resolved : resolveNodeId number payload = (node.1, (buildStdinPayload before).currentLine) := by
      rw [number_eq, show payload = after.foldl _ ((buildStdinPayload before).add node) from foldl_append]
      refine numbered.resolve after ?_
      rwa [terminated_eq some, count_append, count_singleton_self, ← length_splitOn_newline]
    rw [resolved, relativeLine]
    exact ⟨rfl, by omega⟩

theorem resolveNodeId_carrierLine_last :
    (resolveNodeId (carrierLine [("a", ['x', '\n', 'y'])] (0 + 1))
      (buildStdinPayload ([("a", ['x', '\n', 'y'])] ++ [("b", ['s'])]))).1 = "b" :=
  (resolveNodeId_carrierLine [("a", ['x', '\n', 'y'])] [] ("b", ['s']) (by decide) (by decide) 0 ['s']
    (by decide)).2.1

structure FileFinding extends Finding where
  file : String := ""

/-- One step of `_convert_findings`; the content of an unreadable file is `none`. -/
def convertFinding (relativeTo : String → String) (readText : String → Option Text)
    (f : FileFinding) : Option Violation :=
  let stop := f.endLine.getD f.startLine
  let rule := f.ruleId.getD "unknown"
  if valueIsJinja f.matchText then none
  else if (readText f.file).any isVaultEncrypted then none
  else
    some
      { ruleId := buildRuleId rule, severity := "critical"
        message := f.description.getD ("Secret detected: " ++ rule), file := relativeTo f.file
        line := if f.startLine = stop then .one f.startLine else .range [f.startLine, stop]
        scope := "playbook", source := "gitleaks" }

/-- The text without the blanks and quotes at its ends. -/
def core (text : Text) : Text := ((Text.strip text).dropWhile isQuote).rdropWhile isQuote

/-- The characters outside the closed expressions; the flag is set within one. -/
def literal : Bool → Text → Text
  | _, [] => []
  | false, '{' :: '{' :: rest =>
    if ['}', '}'] <:+: rest then literal true rest else '{' :: literal false ('{' :: rest)
  | false, c :: rest => c :: literal false rest
  | true, '}' :: '}' :: rest => literal false rest
  | true, _ :: rest => literal true rest

/-- One line from an opening to a closing pair of braces, whatever is between them. -/
def Braced (text : Text) : Prop :=
  ∃ inner : Text, '\n' ∉ inner ∧ text = '{' :: '{' :: inner ++ ['}', '}']

theorem isJinjaReference_iff (text : Text) : isJinjaReference text ↔ Braced text := by
  have ho : "\x7b\x7b".toList = ['{', '{'] := by decide +kernel
  have hc : "\x7d\x7d".toList = ['}', '}'] := by decide +kernel
  simp only [isJinjaReference, ho, hc, Bool.and_eq_true, isPrefixOf_iff_prefix, isSuffixOf_iff_suffix]
  constructor
  · rintro ⟨⟨⟨tail, rfl⟩, i, hs⟩, hl⟩
    replace hs : i ++ ['}', '}'] = tail := hs
    subst hs
    exact ⟨i, fun mem => of_decide_eq_true (all_eq_true.mp hl _ (by simpa using mem)) rfl, rfl⟩
  · rintro ⟨i, hl, rfl⟩
    refine ⟨⟨⟨_, rfl⟩, i, rfl⟩, all_eq_true.mpr fun c mem => decide_eq_true ?_⟩
    rintro rfl
    exact hl (by simpa using mem)

theorem keeps_literal_iff (p : StdinPayload) (relativeTo : String → String)
    (readText : String → Option Text) (f : FileFinding) :
    let owner := (resolveNodeId f.startLine p).1
    let named := literal false (core f.matchText) ≠ []
    (¬isVaultEncrypted ((p.contentById.get? owner).getD []) →
      ((named → (findingViolation p f.toFinding).isSome) ↔
        (named → owner ≠ "" ∧ ¬Braced (core f.matchText)))) ∧
    (¬(readText f.file).any isVaultEncrypted →
      ((named → (convertFinding relativeTo readText f).isSome) ↔
        (named → ¬Braced (core f.matchText)))) := by
  intro owner named
  have jinja : valueIsJinja f.matchText ↔ Braced (core f.matchText) := isJinjaReference_iff _
  constructor
  · intro plain
    refine imp_congr_right fun _ => ?_
    rw [findingViolation, ← jinja, and_comm]
    simp only [owner, plain]
    split <;> simp_all
  · intro plain
    refine imp_congr_right fun _ => ?_
    rw [convertFinding, ← jinja]
    simp [plain]

/-- A secret between two template references is taken for one reference. -/
theorem literal_between_references_dropped :
    let content := "\x7b\x7b a \x7d\x7dsecret\x7b\x7b b \x7d\x7d".toList
    let p := buildStdinPayload [("n", content)]
    let f : FileFinding := { matchText := content, startLine := 2, file := "f.yml" }
    literal false (core f.matchText) = "secret".toList ∧ isVaultEncrypted content = false ∧
      findingViolation p f.toFinding = none ∧
      convertFinding (fun file => file) (fun _ => some content) f = none := by
  decide +kernel

end Apme.Gitleaks
