import Apme.Formatter.TextPasses

/-!
# The text passes after dumping

What was dumped gets its Jinja expressions spaced and its blank lines put in
order.  The passes read the text line by line and find block scalars, task items
and keys with patterns of their own.  An indentation indicator is an ASCII digit.
-/

set_option autoImplicit false

namespace Apme.Formatter

open Apme.Lib List

/-- `"\n".join(f(line) for line in text.split("\n"))`. -/
def onLines (f : List Text → List Text) (text : Text) : Text :=
  ['\n'].intercalate (f (text.splitOn '\n'))

section Jinja

/-- `_JINJA_PIPE_RE` at a character, with its neighbours. -/
def isPipe (before : Option Char) (c : Char) (rest : Text) : Bool :=
  c = '|' && before ≠ some '|' && rest.head? ≠ some '|'

def splitPipes : Option Char → Text → List Text
  | _, [] => [[]]
  | before, c :: rest =>
    match isPipe before c rest, splitPipes (some c) rest with
    | true, parts => [] :: parts
    | false, part :: parts => (c :: part) :: parts
    | false, [] => [[c]]

def normalizeJinjaPipes (inner : Text) : Text :=
  " | ".toList.intercalate ((splitPipes none inner).map Text.strip)

def normalizeJinja (inner : Text) : Text :=
  if Text.strip inner = [] then "\x7b\x7b \x7d\x7d".toList
  else "\x7b\x7b ".toList ++ normalizeJinjaPipes (Text.strip inner) ++ " \x7d\x7d".toList

/-- The rest of an expression on its line, and its length with the closing braces. -/
def expressionIn : Text → Option (Text × Nat)
  | [] => none
  | c :: rest =>
    let blanks := ((c :: rest).takeWhile Text.isSpace).length
    if "\x7d\x7d".toList <+: (c :: rest).drop blanks then some ([], blanks + 2)
    else if c = '\n' then none
    else (expressionIn rest).map fun found => (c :: found.1, found.2 + 1)

/-- `JINJA_NORMALIZE_RE` at this position. -/
def expressionAt (text : Text) : Option (Text × Nat) :=
  if "\x7b\x7b".toList <+: text then
    let blanks := ((text.drop 2).takeWhile Text.isSpace).length
    (expressionIn (text.drop (blanks + 2))).map fun found => (found.1, found.2 + blanks + 2)
  else none

/-- The first `skip` characters belong to an expression that has been replaced. -/
def normalizeExpressions : Nat → Text → Text
  | _, [] => []
  | skip + 1, _ :: rest => normalizeExpressions skip rest
  | 0, c :: rest =>
    match expressionAt (c :: rest) with
    | some (inner, size) => normalizeJinja inner ++ normalizeExpressions (size - 1) rest
    | none => c :: normalizeExpressions 0 rest

def bareJinjaKeys : List Text :=
  ["when", "changed_when", "failed_when", "until", "that"].map String.toList

def spacePipes : Option Char → Text → Text
  | _, [] => []
  | before, c :: rest =>
    if isPipe before c rest then
      (if before = some ' ' then ['|'] else [' ', '|']) ++
        (if rest.head? = some ' ' then [] else [' ']) ++ spacePipes (some c) rest
    else c :: spacePipes (some c) rest

def normalizeBareLine (line : Text) : Text :=
  let body := line.dropWhile Text.isSpace
  let value := (bareJinjaKeys.find? fun key => key ++ [':'] <+: body).bind fun key =>
    freeFormValue (body.drop (key.length + 1))
  match value with
  | some value =>
    if body.length < line.length then line.take (line.length - value.length) ++ spacePipes none value
    else line
  | none => line

def fixJinjaSpacing (text : Text) : Text :=
  onLines (map normalizeBareLine) (normalizeExpressions 0 text)

end Jinja

section Blocks

inductive Quote
  | outside | single | double (escaped : Bool)

def withoutYamlComment : Quote → Option Char → Text → Text
  | _, _, [] => []
  | .single, _, '\'' :: '\'' :: rest => '\'' :: '\'' :: withoutYamlComment .single (some '\'') rest
  | .single, _, c :: rest =>
    c :: withoutYamlComment (if c = '\'' then .outside else .single) (some c) rest
  | .double escaped, _, c :: rest =>
    c :: withoutYamlComment
      (if !escaped && c = '"' then .outside else .double (!escaped && c = '\\')) (some c) rest
  | .outside, before, c :: rest =>
    if c = '#' ∧ before.all Text.isSpace then []
    else
      c :: withoutYamlComment
        (if c = '"' then .double false else if c = '\'' then .single else .outside) (some c) rest

/-- Anchors and tags, each with blanks after it. -/
def skipProperties : Nat → Text → Text
  | fuel + 1, c :: rest =>
    let after := rest.dropWhile (!Text.isSpace ·)
    if (c = '&' ∨ c = '!') ∧ after.length < rest.length ∧ after ≠ [] then
      skipProperties fuel (after.dropWhile Text.isSpace)
    else c :: rest
  | _, text => text

def isSign (c : Char) : Bool := c = '+' || c = '-'

def takeOne (p : Char → Bool) (text : Text) : Text := text.take (if text.head?.any p then 1 else 0)

/-- One of each in this order, if there, and then a comment at most. -/
def modifiersIn (first second : Char → Bool) (text : Text) : Option Text :=
  let one := takeOne first text
  let modifiers := one ++ takeOne second (text.drop one.length)
  let after := text.drop modifiers.length
  if after = [] ∨ ((after.dropWhile Text.isSpace).head? = some '#' ∧ after.head?.any Text.isSpace) then
    some modifiers
  else none

/-- The end of a header from its style on, and its modifiers. -/
def headerEnd (after : Text) : Option (Text × Text) :=
  match skipProperties after.length (after.dropWhile Text.isSpace) with
  | [] => none
  | style :: rest =>
    if style = '>' ∨ style = '|' then
      ((modifiersIn isSign Char.isDigit rest).or (modifiersIn Char.isDigit isSign rest)).map
        (style :: rest, ·)
    else none

/-- The first colon that the end of a header follows. -/
def colonHeader : Text → Option (Text × Text)
  | [] => none
  | c :: rest => if c = ':' then (headerEnd rest).or (colonHeader rest) else colonHeader rest

def dashHeader (body : Text) : Option (Text × Text) :=
  if body.head? = some '-' ∧ body.tail.head?.any Text.isSpace then headerEnd body.tail else none

/-- `_SEQUENCE_MAPPING_HEADER_RE`. -/
def isSequenceMapping (headerText : Text) : Bool :=
  headerText.head? = some '-' && headerText.tail.head?.any Text.isSpace && ':' ∈ headerText.drop 3

/-- A block scalar whose lines are being read. -/
structure OpenBlock where
  parentIndent : Nat
  contentIndent : Option Nat
  explicitIndent : Option Nat
  keepTrailingBlanks : Bool

/-- `_BLOCK_SCALAR_HEADER_RE` on a line without its comment, with
`_block_scalar_indentation`. -/
def openedBy (line : Text) : Option OpenBlock :=
  let text := Text.rstrip (withoutYamlComment .outside none line)
  let body := text.dropWhile (· = ' ')
  ((colonHeader body).or (dashHeader body)).map fun found =>
    let headerText := body.take (body.length - found.1.length)
    let parentIndent := text.length - body.length + if isSequenceMapping headerText then 2 else 0
    { parentIndent, contentIndent := none
      explicitIndent := (found.2.find? Char.isDigit).map fun c => parentIndent + (c.toNat - '0'.toNat)
      keepTrailingBlanks := '+' ∈ found.2 }

def indentOf (line : Text) : Nat := (line.takeWhile (· = ' ')).length

namespace OpenBlock

variable (block : OpenBlock) (line : Text)

def holds : Bool :=
  block.parentIndent < indentOf line &&
    ((block.explicitIndent.filter (· ≠ 0)).or block.contentIndent).all (· ≤ indentOf line)

def enter : OpenBlock :=
  if block.contentIndent = none ∧ block.explicitIndent = none then
    { block with contentIndent := some (indentOf line) }
  else block

/-- The blank lines after the last line of the block. -/
def flush (result pending : List Text) : List Text :=
  if block.keepTrailingBlanks then result ++ pending
  else if pending ≠ [] ∧ !result.getLast?.any Text.isBlank then result ++ [[]]
  else result

end OpenBlock

structure Collapsing where
  result : List Text := []
  block : Option OpenBlock := none
  pendingScalarBlanks : List Text := []

def collapseOutside (result : List Text) (line : Text) : Collapsing :=
  if Text.isBlank line then { result := if result.getLast?.any Text.isBlank then result else result ++ [[]] }
  else { result := result ++ [line], block := openedBy line }

def collapseLine (s : Collapsing) (line : Text) : Collapsing :=
  match s.block with
  | none => collapseOutside s.result line
  | some block =>
    if Text.isBlank line then { s with pendingScalarBlanks := s.pendingScalarBlanks ++ [line] }
    else if block.holds line then
      { result := s.result ++ s.pendingScalarBlanks ++ [line], block := some (block.enter line) }
    else collapseOutside (block.flush s.result s.pendingScalarBlanks) line

def collapseBlankLines : Text → Text :=
  onLines fun lines =>
    let s := lines.foldl collapseLine {}
    s.block.elim s.result fun block => block.flush s.result s.pendingScalarBlanks

/-- The lines, with a mark at those of block scalars. -/
def blockScalarContentLines : Option OpenBlock → List Text → List (Text × Bool)
  | _, [] => []
  | none, line :: rest => (line, false) :: blockScalarContentLines (openedBy line) rest
  | some block, line :: rest =>
    if Text.isBlank line then (line, true) :: blockScalarContentLines (some block) rest
    else if block.holds line then
      (line, true) :: blockScalarContentLines (some (block.enter line)) rest
    else (line, false) :: blockScalarContentLines (openedBy line) rest

end Blocks

section Tasks

/-- The keys whose values a pass enters. -/
def taskListKeys : List String :=
  ["tasks", "pre_tasks", "post_tasks", "handlers", "block", "rescue", "always"]

/-- `_TASK_ITEM_RE`: the indentation of the dash. -/
def taskItem (line : Text) : Option Nat :=
  let body := line.dropWhile Text.isSpace
  if "- ".toList <+: body ∧ (body.drop 2).head?.any (!Text.isSpace ·) then
    some (line.length - body.length)
  else none

/-- `_YAML_COMMENT_KEY_RE`: the indentation and the key. -/
def commentKey (line : Text) : Option (Nat × Text) :=
  match line.dropWhile (· = ' ') with
  | [] => none
  | c :: rest =>
    match rest.dropWhile (· ≠ ':') with
    | [] => none
    | _ :: after =>
      if c = '#' ∨ Text.isSpace c ∨ !after.head?.all Text.isSpace then none
      else some (indentOf line, c :: rest.takeWhile (· ≠ ':'))

def isDashOrBlank (c : Char) : Bool := c = '-' || c = ' '

def isBareTaskList (lines : List (Text × Bool)) : Bool :=
  let relevant := (lines.filter fun line => !line.2).map Prod.fst |>.filter fun line =>
    !Text.isBlank line && (Text.strip line).head? ≠ some '#' && Text.strip line ≠ "---".toList
  match relevant with
  | [] => false
  | first :: rest =>
    (taskItem first).isSome &&
      (first :: rest.takeWhile fun line => (taskItem line).isNone).all fun line =>
        let key := Text.strip (((Text.strip line).dropWhile isDashOrBlank).takeWhile (· ≠ ':'))
        key ≠ "hosts".toList && key ≠ "import_playbook".toList

/-- What stands two columns to the left of an indentation. -/
def parentAt {α : Type} (saved : List (Nat × α)) (indent : Nat) : Option α :=
  if indent < 2 then none else saved.lookup (indent - 2)

/-- The lines, with a mark at task items and one at the keys of tasks. -/
def taskLayoutMembership (bare : Bool) : List (Nat × Text) → List (Nat × Bool) →
    List (Text × Bool) → List (Text × Bool × Bool × Bool)
  | _, _, [] => []
  | lastKeys, lastItems, (line, content) :: rest =>
    if content ∨ Text.isBlank line ∨ (Text.lstrip line).head? = some '#' then
      (line, content, false, false) :: taskLayoutMembership bare lastKeys lastItems rest
    else
      let lastKeys := lastKeys.filter (·.1 < indentOf line)
      let lastItems := lastItems.filter (·.1 < indentOf line)
      let isItem := (taskItem line).any fun indent =>
        (indent = 0 && bare) ||
          (parentAt lastKeys indent).any fun key => String.ofList key ∈ taskListKeys
      let lastItems := (taskItem line).elim lastItems fun indent => (indent, isItem) :: lastItems
      let key := commentKey line
      let isKey := key.any fun key => (parentAt lastItems key.1).getD false
      let lastKeys := key.elim lastKeys fun key =>
        (key.1, (key.2.dropWhile isDashOrBlank).rdropWhile isDashOrBlank) :: lastKeys
      (line, content, isItem, isKey) :: taskLayoutMembership bare lastKeys lastItems rest

/-- A blank line between these two is taken out of a task. -/
def insideTask (previous : Text × Bool × Bool × Bool) (following : Text) : Bool :=
  match commentKey previous.1, commentKey following with
  | some (indent, _), some (next, _) =>
    (indent = next && 2 ≤ indent && previous.2.2.2) ||
      ((taskItem previous.1).any fun item => next = item + 2) && previous.2.2.1
  | _, _ => false

def stripBlanks : Option (Text × Bool × Bool × Bool) → List (Text × Bool × Bool × Bool) → List Text
  | _, [] => []
  | previous, entry :: rest =>
    if !Text.isBlank entry.1 then entry.1 :: stripBlanks (some entry) rest
    else if entry.2.1 then entry.1 :: stripBlanks previous rest
    else
      let following := rest.find? fun later => !Text.isBlank later.1
      if previous.any fun previous => following.any fun following => insideTask previous following.1
      then stripBlanks previous rest
      else entry.1 :: stripBlanks previous rest

def stripTaskInternalBlanks : Text → Text :=
  onLines fun lines =>
    let marked := blockScalarContentLines none lines
    stripBlanks none (taskLayoutMembership (isBareTaskList marked) [] [] marked)

/-- A line that ends with a key of task lists and its colon. -/
def isListHeader (line : Text) : Bool :=
  (Text.rstrip line).getLast? = some ':' &&
    String.ofList (Text.strip (((Text.rstrip line).dropWhile isDashOrBlank).rdropWhile (· = ':')))
      ∈ taskListKeys

/-- A blank line goes before the task item, which the line `next` follows. -/
def needsBlank (taskListIndent : Nat) (result : List Text) (line : Text) (next : Option Text) :
    Bool :=
  match taskItem line, result.getLast? with
  | some indent, some last =>
    !Text.isBlank last && indent ≤ taskListIndent + 2 &&
      ((next.any fun next => line.take indent ++ [' ', ' '] <+: next) || ':' ∈ line) &&
        Text.rstrip last ≠ "---".toList && !isListHeader last
  | _, _ => false

/-- The loop over the lines after the first; inside of a task list its
indentation is kept. -/
def spaceTasks : Option Nat → List Text → List (Text × Bool) → List Text
  | _, result, [] => result
  | taskList, result, (line, content) :: rest =>
    if content then spaceTasks taskList (result ++ [line]) rest
    else if isListHeader line then
      spaceTasks (some (line.takeWhile Text.isSpace).length) (result ++ [line]) rest
    else
      let ends := !Text.isBlank line && line.head? ≠ some '#' && (taskItem line).isNone
      let taskList := taskList.filter fun indent =>
        !(ends && (line.takeWhile Text.isSpace).length ≤ indent)
      let blank := taskList.any fun indent =>
        needsBlank indent result line (rest.head?.map Prod.fst)
      spaceTasks taskList (result ++ if blank then [[], line] else [line]) rest

def addTaskSpacing : Text → Text :=
  onLines fun lines =>
    let marked := blockScalarContentLines none lines
    spaceTasks (if isBareTaskList marked then some 0 else none) (lines.take 1) (marked.drop 1)

end Tasks

end Apme.Formatter
