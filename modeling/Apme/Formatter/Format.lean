import Apme.Formatter.Layout
import Apme.Formatter.Yaml
import Apme.Lib.Dict

/-!
# `format_content`

The formatter prepares a text and loads it, rewrites the loaded data by the names
of its keys alone, dumps it and lays out the dumped text.  The YAML library is a
parameter; block style for tag lists is style and leaves the data alone.  Whatever
may raise an `IndexError` is in `Except`.
-/

set_option autoImplicit false

namespace Apme.Formatter

open Apme.Lib Scalar List Option

/-- The character tables of the host language: `\w`, `str.isupper` and
`str.upper` of one character.  What upper case changes is no white space and no
brace, before and after. -/
structure Letters where
  isWord : Char → Bool
  isUpper : Char → Bool
  upper : Char → Text
  upper_plain : ∀ c, upper c ≠ [c] → isPlain c ∧ upper c ≠ [] ∧ ∀ u ∈ upper c, isPlain u

inductive PyError
  | indexError
  deriving DecidableEq

def taskKeyOrder : List String :=
  ["name", "when", "changed_when", "failed_when", "loop", "loop_control", "with_items", "with_dict",
    "with_fileglob", "with_subelements", "with_sequence", "with_nested", "with_first_found",
    "register", "notify", "listen", "become", "become_user", "become_method", "delegate_to",
    "run_once", "ignore_errors", "ignore_unreachable", "no_log", "tags", "environment", "vars",
    "args", "block", "rescue", "always"]

def blockBodyKeys : List String := ["block", "rescue", "always"]

def formatMetaKeys : List String :=
  ["name", "when", "changed_when", "failed_when", "register", "notify", "listen", "become",
    "become_user", "become_method", "become_flags", "delegate_to", "run_once", "connection",
    "ignore_errors", "ignore_unreachable", "no_log", "tags", "environment", "vars", "args", "loop",
    "loop_control", "with_items", "with_dict", "with_fileglob", "with_subelements",
    "with_sequence", "with_nested", "with_first_found", "block", "rescue", "always",
    "any_errors_fatal", "max_fail_percentage", "check_mode", "diff", "throttle", "timeout",
    "retries", "delay", "until", "debugger", "module_defaults", "collections", "local_action"]

def commandModules : List String :=
  ["command", "shell", "raw", "script", "ansible.builtin.command", "ansible.builtin.shell",
    "ansible.builtin.raw", "ansible.builtin.script", "ansible.legacy.command",
    "ansible.legacy.shell", "ansible.legacy.raw"]

namespace Entries

variable (entries : Entries)

def keys : List Scalar := entries.map Prod.fst

/-- `mapping.get(key)`. -/
def get? (key : Scalar) : Option Yaml := entries.lookup key

/-- `mapping[key] = value` for a key that is there. -/
def set (key : Scalar) (value : Yaml) : Entries :=
  entries.map fun entry => if entry.1 = key then (key, value) else entry

end Entries

/-- A rewriting that does not raise. -/
def total (rewrite : Entries → Entries) (entries : Entries) : Except PyError Entries :=
  .ok (rewrite entries)

section Names

/-- The text up to the end of the last occurrence of `sep`, and the rest. -/
def cutAfterLast (sep : Text) : Text → Option (Text × Text)
  | [] => none
  | c :: rest =>
    match cutAfterLast sep rest with
    | some (before, after) => some (c :: before, after)
    | none =>
      if sep <+: c :: rest then some (sep, (c :: rest).drop sep.length) else none

variable (letters : Letters)

def capitalizeFirst : Text → Text
  | [] => []
  | c :: rest => if letters.isUpper c then c :: rest else letters.upper c ++ rest

def capitalizeTaskName (name : Text) : Text :=
  match cutAfterLast " | ".toList name with
  | some (before, after) => before ++ capitalizeFirst letters after
  | none => capitalizeFirst letters name

def capitalizeHere (entries : Entries) : Entries :=
  match entries.get? (word "name") with
  | some (.leaf (.str name)) =>
    if name ≠ [] ∧ capitalizeTaskName letters name ≠ name then
      entries.set (word "name") (.leaf (.str (capitalizeTaskName letters name)))
    else entries
  | _ => entries

/-- The name is set before the task lists are entered; it is not one of them. -/
def capitalizeName : Yaml → Except PyError Yaml :=
  DataTree.walk (isOneOf taskListKeys) (total (capitalizeHere letters))

end Names

section Arguments

/-- The text up to the closing quote and the text after it; a backslash hides
the character after it, if there is one. -/
def cutClosingQuote (quote : Char) : Text → Option (Text × Text)
  | [] => none
  | '\\' :: c :: rest =>
    (cutClosingQuote quote rest).map fun cut => ('\\' :: c :: cut.1, cut.2)
  | c :: rest =>
    if c = quote then some ([], rest)
    else (cutClosingQuote quote rest).map fun cut => (c :: cut.1, cut.2)

/-- The text up to the end of the first occurrence of `sep`, and the rest. -/
def cutAfterFirst (sep : Text) : Text → Option (Text × Text)
  | [] => none
  | c :: rest =>
    if sep <+: c :: rest then some (sep, (c :: rest).drop sep.length)
    else (cutAfterFirst sep rest).map fun cut => (c :: cut.1, cut.2)

/-- `remaining.split(None, 1)`, of which the first part is read: without any
word there is no first part. -/
def firstWord (remaining : Text) : Except PyError (Text × Text) :=
  let text := Text.lstrip remaining
  let first := text.takeWhile fun c => !Text.isSpace c
  if text = [] then .error .indexError else .ok (first, Text.lstrip (text.drop first.length))

/-- The value after an equals sign and what remains after it. -/
def kvValue : Text → Except PyError (Option (Text × Text))
  | '"' :: body => .ok ((cutClosingQuote '"' body).map fun cut => (cut.1, Text.lstrip cut.2))
  | '\'' :: body => .ok ((cutClosingQuote '\'' body).map fun cut => (cut.1, Text.lstrip cut.2))
  | '{' :: '{' :: body =>
    .ok ((cutAfterFirst "\x7d\x7d".toList ('{' :: '{' :: body)).map fun cut =>
      (cut.1, Text.lstrip cut.2))
  | remaining => some <$> firstWord remaining

variable (letters : Letters)

/-- The `while` loop; every round takes a key and an equals sign, so the length
of the text is enough fuel. -/
def kvLoop : Nat → Text → Dict Text Text → Except PyError (Option (Dict Text Text))
  | _, [], result => .ok (some result)
  | 0, _ :: _, _ => .ok none
  | fuel + 1, remaining, result =>
    let key := remaining.takeWhile letters.isWord
    match key, remaining.drop key.length with
    | [], _ => .ok none
    | _, '=' :: rest =>
      match kvValue rest with
      | .error failure => .error failure
      | .ok none => .ok none
      | .ok (some (value, remaining)) => kvLoop fuel remaining (result.insert key value)
    | _, _ => .ok none

theorem length_lstrip_le (text : Text) : (Text.lstrip text).length ≤ text.length :=
  (dropWhile_sublist _).length_le

theorem length_cutClosingQuote {quote : Char} {text : Text} {cut : Text × Text}
    (hf : cutClosingQuote quote text = some cut) : cut.2.length ≤ text.length := by
  fun_induction cutClosingQuote quote text generalizing cut with
  | case1 => cases hf
  | case2 c rest ih =>
    obtain ⟨inner, hI, rfl⟩ := map_eq_some_iff.mp hf
    have hs := ih hI
    simp only [length_cons]
    omega
  | case3 c rest =>
    cases hf
    simp
  | case4 c rest _ _ ih =>
    obtain ⟨inner, hI, rfl⟩ := map_eq_some_iff.mp hf
    have hs := ih hI
    simp only [length_cons]
    omega

theorem length_cutAfterFirst {sep text : Text} {cut : Text × Text}
    (hf : cutAfterFirst sep text = some cut) : cut.2.length ≤ text.length := by
  induction text generalizing cut with
  | nil => cases hf
  | cons c rest ih =>
    rw [cutAfterFirst] at hf
    split at hf
    · cases hf
      simp only [length_drop]
      omega
    · obtain ⟨inner, hI, rfl⟩ := map_eq_some_iff.mp hf
      have hs := ih hI
      simp only [length_cons]
      omega

variable {text value remaining : Text}

theorem length_firstWord
    (hr : firstWord text = .ok (value, remaining)) : remaining.length ≤ text.length := by
  unfold firstWord at hr
  dsimp only at hr
  split at hr
  · cases hr
  · cases hr
    refine (length_lstrip_le _).trans ?_
    rw [length_drop]
    exact (Nat.sub_le _ _).trans (length_lstrip_le text)

theorem length_kvValue
    (hr : kvValue text = .ok (some (value, remaining))) : remaining.length ≤ text.length := by
  have hc : ∀ (whole : Text) (cut : Option (Text × Text)),
      (∀ parts, cut = some parts → parts.2.length ≤ whole.length) →
      (.ok (cut.map fun parts => (parts.1, Text.lstrip parts.2)) : Except PyError _) =
        .ok (some (value, remaining)) → remaining.length ≤ whole.length := by
    intro whole cut hbo same
    obtain ⟨parts, hf, hp⟩ := map_eq_some_iff.mp (Except.ok.inj same)
    cases hp
    exact (length_lstrip_le _).trans (hbo parts hf)
  unfold kvValue at hr
  split at hr
  next hb =>
    have hs := hc hb _ (fun _ hf => length_cutClosingQuote hf) hr
    exact hs.trans (Nat.le_succ _)
  next hb =>
    have hs := hc hb _ (fun _ hf => length_cutClosingQuote hf) hr
    exact hs.trans (Nat.le_succ _)
  next => exact hc _ _ (fun _ hf => length_cutAfterFirst hf) hr
  next =>
    cases hw : firstWord text with
    | error failure => simp [hw, Functor.map, Except.map] at hr
    | ok parts =>
      simp only [hw, Functor.map, Except.map, Except.ok.injEq, some.injEq] at hr
      rw [hr] at hw
      exact length_firstWord hw

def parseKvString (value : Text) : Except PyError (Option (Dict Text Text)) :=
  if '=' ∉ value then .ok none
  else do
    match ← kvLoop letters value.length (Text.strip value) Dict.empty with
    | some result => return if result.entries = [] then none else some result
    | none => return none

def argumentMap (arguments : Dict Text Text) : Yaml :=
  .map (arguments.entries.map fun entry => (.str entry.1, .leaf (.str entry.2)))

/-- The first key that is not a keyword; a null key counts as none. -/
def moduleKey (entries : Entries) : Option Scalar :=
  (entries.keys.find? fun key => !key.isOneOf formatMetaKeys).filter fun key => key ≠ .null

def expandSingleTaskKv (entries : Entries) : Except PyError Entries :=
  match moduleKey entries with
  | none => .ok entries
  | some key =>
    if key.isOneOf commandModules then .ok entries
    else
      match entries.get? key with
      | some (.leaf (.str value)) => do
          match ← parseKvString letters value with
          | some arguments => return entries.set key (argumentMap arguments)
          | none => return entries
      | _ => .ok entries

def expandInlineKvArgs : Yaml → Except PyError Yaml :=
  DataTree.walk (isOneOf taskListKeys) (expandSingleTaskKv letters)

end Arguments

variable (keys : List Scalar)

/-- The first key that is not known; it is passed over if it counts as false. -/
def actionKey : Option Scalar := (keys.find? fun key => !key.isOneOf taskKeyOrder).filter truthy

/-- The name, the action and the known keys; the parts of a block come last. -/
def leadingKeys : List Scalar :=
  let isBlockTask := decide (word "block" ∈ keys)
  let known := taskKeyOrder.filter fun key =>
    decide (word key ∈ keys) && key ≠ "name" && !(isBlockTask && decide (key ∈ blockBodyKeys))
  let body := if isBlockTask then blockBodyKeys.filter fun key => word key ∈ keys else []
  word "name" :: (actionKey keys).toList ++ known.map word ++ body.map word

def appendMissing (desired : List Scalar) (key : Scalar) : List Scalar :=
  if key ∈ desired then desired else desired ++ [key]

/-- The keys of a mapping in the order they are written in. -/
def desiredKeys : List Scalar := keys.foldl appendMissing (leadingKeys keys)

def reorderSingleTask (entries : Entries) : Entries :=
  if entries.keys.length ≤ 1 ∨ word "name" ∉ entries.keys then entries
  else
    let desired := desiredKeys entries.keys
    if desired = entries.keys then entries
    else desired.filterMap fun key => (entries.get? key).map fun value => (key, value)

def reorderTaskKeys : Yaml → Except PyError Yaml :=
  DataTree.walk (isOneOf (taskListKeys ++ ["roles"])) (total reorderSingleTask)

/-- `int(text)` for decimal digits. -/
def parseInt (text : Text) : Option Int :=
  let text := Text.strip text
  let (sign, digits) : Int × Text :=
    match text with
    | '-' :: digits => (-1, digits)
    | '+' :: digits => (1, digits)
    | digits => (1, digits)
  let groups := digits.splitOn '_'
  if groups.all fun group => group ≠ [] && group.all Char.isDigit then
    some (sign * groups.flatten.foldl (fun n c => 10 * n + (c.toNat - '0'.toNat)) 0)
  else none

/-- `str(raw)` of a scalar. -/
def scalarText : Scalar → Text
  | .null => "None".toList
  | .bool value => if value then "True".toList else "False".toList
  | .int value => (toString value).toList
  | .float repr => repr
  | .other repr => repr
  | .str text => text

def parseLooseVersion (raw : Scalar) : Option (List Int) :=
  ((scalarText raw).splitOn '.').mapM parseInt

def minAnsibleVersion : List Int := [2, 14, 0]

def versionText (version : List Int) : Text :=
  List.intercalate ['.'] (version.map fun part => (toString part).toList)

/-- The version a role is given in the place of `raw`; `none` keeps it. -/
def raisedVersion (raw : Scalar) : Option Text :=
  match raw, parseLooseVersion raw with
  | .null, _ => none
  | _, none => none
  | .str _, some current => if current < minAnsibleVersion then some "2.14.0".toList else none
  | _, some current =>
    if current < minAnsibleVersion then some "2.14.0".toList else some (versionText current)

/-- A version that is no scalar has brackets in its text and is not parsed. -/
def normalizeMinAnsibleVersion (entries : Entries) : Entries :=
  match entries.get? (word "galaxy_info") with
  | some (.map info) =>
    match Entries.get? info (word "min_ansible_version") with
    | some (.leaf raw) =>
      match raisedVersion raw with
      | some version =>
        entries.set (word "galaxy_info")
          (.map (Entries.set info (word "min_ansible_version") (.leaf (.str version))))
      | none => entries
    | _ => entries
  | _ => entries

section Content

variable (letters : Letters)

def rewriteItem (item : Yaml) : Except PyError Yaml := do
  let item ← expandInlineKvArgs letters item
  let item ← capitalizeName letters item
  reorderTaskKeys item

def normalizeTop : Yaml → Yaml
  | .map entries => .map (normalizeMinAnsibleVersion entries)
  | data => data

def rewriteData : Yaml → Except PyError Yaml
  | .seq items => do return .seq (← items.mapM (rewriteItem letters))
  | .map entries => do return normalizeTop (← rewriteItem letters (.map entries))
  | .leaf scalar => .ok (.leaf scalar)

/-- What the formatter calls of its libraries; an empty document loads as null,
and `dumps` is the dumper with its own post-processing. -/
structure Host where
  load : Text → Except String Yaml
  dumps : Yaml → Except String Text
  unifiedDiff : List Text → List Text → String → String → Text
  wellFormed : ∀ text data, load text = .ok data → data.WellFormed

/-- `_whitespace_only_lines_re`. -/
def dropWhitespaceOnly (line : Text) : Text := if line.all (· = ' ') then [] else line

/-- The text the loader is given. -/
def prepare (text : Text) : Text :=
  onLines (map dropWhitespaceOnly) (quoteFreeFormArgs (fixTabs text))

/-- `FormattedYAML.load` logs whatever the loader raises and returns `None`, or an
iterator over the documents, which is no collection either.  So the branch of
`format_content` for a failed load is never taken. -/
def Host.loadPrepared (host : Host) (text : Text) : Yaml :=
  match host.load (prepare text) with
  | .error _ => .leaf .null
  | .ok data => data

/-- The passes over the dumped text. -/
def layOut (dumped : Text) : Text :=
  addTaskSpacing (stripTaskInternalBlanks (collapseBlankLines (fixJinjaSpacing dumped)))

structure FormatResult where
  path : String
  original : Text
  formatted : Text
  changed : Bool
  diff : Text := []
  error : Option String := none

def leftAlone (path : String) (original : Text) (error : Option String) : FormatResult :=
  { path, original, formatted := original, changed := false, error }

def Host.writtenOut (host : Host) (path : String) (original formatted : Text) : FormatResult :=
  let changed := decide (formatted ≠ original)
  { path, original, formatted, changed
    diff :=
      if changed then
        host.unifiedDiff (Text.splitLines original) (Text.splitLines formatted) ("a/" ++ path)
          ("b/" ++ path)
      else [] }

@[simp]
theorem Host.writtenOut_formatted (host : Host) (path : String) (original formatted : Text) :
    (host.writtenOut path original formatted).formatted = formatted := rfl

def formatContent (host : Host) (text : Text) (filename : String) : Except PyError FormatResult :=
  match host.loadPrepared text with
  | .leaf _ => .ok (leftAlone filename text none)
  | data => do
      match host.dumps (← rewriteData letters data) with
      | .error failure =>
        return leftAlone filename text (some ("YAML dump/post-process failed: " ++ failure))
      | .ok dumped => return host.writtenOut filename text (layOut dumped)

end Content

end Apme.Formatter
