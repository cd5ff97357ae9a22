import Mathlib.Algebra.GroupWithZero.Nat
import Apme.Lib.Substitution
import Apme.Lib.Text

/-!
# Redaction of URLs in free text

`redactUrlsInText` removes credentials, queries and fragments from the URLs and
the SCP-style sources of a text.  The two patterns are read as the regular
expression engine reads them: none of their parts can end anywhere else than
where its longest run of characters ends, so every match is a fixed number of
`takeWhile`s.

Word characters beyond ASCII are those of the Unicode tables; `wide` stands for
them.  A nested source is redacted by a recursive call; `limit` is the depth of
calls the interpreter allows, and the result is `none` where it gives up.
-/

set_option autoImplicit false

namespace Apme.Graph.Sensitivity

open Apme.Lib Apme.Lib.Substitution

section Characters

/-- The class of white space, quotes and angle brackets. -/
def isSeparator (c : Char) : Bool := Text.isSpace c || c = '"' || c = '\'' || c = '<' || c = '>'

/-- The letters without regard to case; the four others have a case variant
among them. -/
def isSchemeStart (c : Char) : Bool :=
  ('a' ≤ c && c ≤ 'z') || ('A' ≤ c && c ≤ 'Z') || c = 'İ' || c = 'ı' || c = 'ſ' || c = 'K'

def isDigit (c : Char) : Bool := '0' ≤ c && c ≤ '9'

def isSchemeChar (c : Char) : Bool := isSchemeStart c || isDigit c || c = '+' || c = '.' || c = '-'

def isUserinfoChar (c : Char) : Bool := c ≠ '@' && !isSeparator c

def isHostChar (c : Char) : Bool := c ≠ ':' && c ≠ '/' && !isSeparator c

/-- The characters that can stand in the authority of a URL. -/
def isAuthorityChar (c : Char) : Bool := c ≠ '/' && c ≠ '?' && c ≠ '#'

variable (wide : Char → Bool)

def isWord (c : Char) : Bool :=
  isSchemeStart c || isDigit c || c = '_' || (128 ≤ c.toNat && !isSeparator c && wide c)

/-- The boundary between a word character and another, or an end of the text. -/
def isBoundary (before : Option Char) (c : Char) : Bool := before.any (isWord wide) != isWord wide c

end Characters

section Patterns

def schemeMark : Text := [':', '/', '/']

def afterMark (text : Text) : Option Text :=
  if schemeMark <+: text then some (text.drop schemeMark.length) else none

/-- How many characters come before the closing pair; it is on the same line. -/
def closing (first second : Char) : Text → Option Nat
  | c :: d :: rest =>
    if c = first ∧ d = second then some 0
    else if c = '\n' then none
    else (closing first second (d :: rest)).map (· + 1)
  | _ => none

/-- `_JINJA_TEMPLATE_RE`, at this position. -/
def templateLength : Text → Option Nat
  | c :: d :: rest =>
    if c = '{' ∧ d = '{' then (closing '}' '}' rest).map (· + 4)
    else if c = '{' ∧ d = '%' then (closing '%' '}' rest).map (· + 4)
    else none
  | _ => none

def opensTemplate : Text → Bool
  | c :: d :: _ => c = '{' && (d = '{' || d = '%')
  | _ => false

/-- One template, or one character that neither opens a template nor separates. -/
def tokenLength : Text → Option Nat
  | [] => none
  | c :: rest =>
    if opensTemplate (c :: rest) then templateLength (c :: rest)
    else if isSeparator c then none
    else some 1

/-- How many characters the longest run of tokens has; the first `skip` belong
to a token that has been seen. -/
def runLength : Nat → Text → Nat
  | _, [] => 0
  | skip + 1, _ :: rest => runLength skip rest + 1
  | 0, c :: rest =>
    match tokenLength (c :: rest) with
    | none => 0
    | some size => runLength (size - 1) rest + 1

variable (wide : Char → Bool) (before : Option Char)

/-- `_URL_LITERAL_RE`, at this position. -/
def urlLength : Text → Option Nat
  | [] => none
  | c :: rest =>
    if isSchemeStart c ∧ isBoundary wide before c then
      match afterMark ((c :: rest).dropWhile isSchemeChar) with
      | some body =>
        if runLength 0 body = 0 then none
        else some (((c :: rest).takeWhile isSchemeChar).length + schemeMark.length +
          runLength 0 body)
      | none => none
    else none

structure Scp where
  userinfo : Option Text
  host : Text
  path : Text

def Scp.text (source : Scp) : Text :=
  (match source.userinfo with
    | none => []
    | some userinfo => userinfo ++ ['@']) ++ source.host ++ ':' :: source.path

/-- The host, the colon and the path of an SCP-style source. -/
def hostPath (text : Text) : Option (Text × Text) :=
  match text.dropWhile isHostChar with
  | ':' :: body =>
    if text.takeWhile isHostChar = [] ∨ runLength 0 body = 0 then none
    else some (text.takeWhile isHostChar, body.take (runLength 0 body))
  | _ => none

def userinfoHostPath (text : Text) : Option Scp :=
  match text.dropWhile isUserinfoChar with
  | '@' :: body =>
    if text.takeWhile isUserinfoChar = [] then none
    else (hostPath body).map fun found =>
      { userinfo := some (text.takeWhile isUserinfoChar), host := found.1, path := found.2 }
  | _ => none

/-- `_SCP_LITERAL_RE`, at this position: the userinfo is left out only if the
source cannot be read with one. -/
def scpMatch (text : Text) : Option Scp :=
  if before.any fun c => isWord wide c || c = '.' || c = '-' then none
  else
    match userinfoHostPath text with
    | some source => some source
    | none => (hostPath text).map fun found =>
        { userinfo := none, host := found.1, path := found.2 }

def scpFullmatch (text : Text) : Option Scp :=
  (scpMatch wide none text).filter fun source => source.text.length = text.length

end Patterns

def redacted : Text := "[REDACTED]".toList

/-- What `_URL_USERINFO_RE` takes ends with the last at sign of the authority. -/
def redactUrlUserinfo (url : Text) : Text :=
  let scheme := url.takeWhile fun c => c ≠ ':' && isAuthorityChar c
  match afterMark (url.dropWhile fun c => c ≠ ':' && isAuthorityChar c) with
  | some rest =>
    let authority := rest.takeWhile isAuthorityChar
    if scheme = [] ∨ '@' ∉ authority then url
    else scheme ++ schemeMark ++ redacted ++ ['@'] ++ authority.rtakeWhile (· ≠ '@') ++
      rest.dropWhile isAuthorityChar
  | none => url

def redactUrlQuery (url : Text) : Text :=
  match url.findIdx? (· = '?'), url.findIdx? (· = '#') with
  | none, none => url
  | none, some fragmentStart => url.take fragmentStart ++ '#' :: redacted
  | some queryStart, none => url.take queryStart ++ '?' :: redacted
  | some queryStart, some fragmentStart =>
    if fragmentStart < queryStart then url.take fragmentStart ++ '#' :: redacted
    else url.take queryStart ++ '?' :: redacted ++ '#' :: redacted

/-- The markers that stand for protected regions, each with its region, in the
order in which they were made. -/
abbrev Masks := List (Text × Text)

/-- The loop that lengthens a marker until it is not taken. -/
def lengthen (taken : Text → Bool) : Nat → Text → Text
  | 0, marker => marker
  | fuel + 1, marker =>
    if taken marker then lengthen taken fuel (marker ++ ['_']) else marker

/-- A marker that is longer than the value and than every other marker is not
taken, so their lengths are enough fuel. -/
def freshMarker (value : Text) (masks : Masks) (kind : Text) : Text :=
  let markers := masks.map Prod.fst
  lengthen (fun marker => marker <:+: value || marker ∈ markers)
    (value.length + (markers.map List.length).sum + 1)
    ("\x00APME_".toList ++ kind ++ ['_'] ++ (toString masks.length).toList ++ ['\x00'])

def maskRegion (value kind region : Text) (masks : Masks) : Masks × Text :=
  let marker := freshMarker value masks kind
  (masks ++ [(marker, region)], marker)

def unmask (masks : Masks) (text : Text) : Text :=
  masks.foldr (fun mask text => Text.replaceAll mask.1 mask.2 0 text) text

section Recursion

variable (wide : Char → Bool)

/-- The URL literals of a text, each replaced by what `replace` makes of it. -/
def urls {σ : Type} (replace : Text → Action σ Char) : Finder σ Char := fun before text =>
  (urlLength wide before text).map fun size => (size, replace (text.take size))

/-- The Jinja templates of a text, each replaced by what `replace` makes of it. -/
def templates {σ : Type} (replace : Text → Action σ Char) : Finder σ Char := fun _ text =>
  (templateLength text).map fun size => (size, replace (text.take size))

/-- What a recursive call makes of a URL inside another source. -/
abbrev Recur := Text → Option Text

variable (recur : Recur)

/-- `redact_nested_url` for a URL that is not the entire value. -/
def redactInnerUrl (value embedded : Text) : Action Masks Char := fun masks =>
  (recur (redactUrlUserinfo embedded)).map fun region =>
    maskRegion value "URL".toList region masks

/-- Inside the path of a URL no match is as long as the value. -/
def redactNestedUrl (outerUrl : Bool) (value embedded : Text) : Action Masks Char := fun masks =>
  if embedded.length = value.length then
    if outerUrl then
      let scheme := embedded.takeWhile isSchemeChar
      let rest := embedded.drop (scheme.length + schemeMark.length)
      (sub (urls wide (redactInnerUrl recur value)) none 0 (rest.dropWhile isAuthorityChar)
          masks).map fun done =>
        (done.1, scheme ++ schemeMark ++ rest.takeWhile isAuthorityChar ++ done.2)
    else some (masks, redactUrlUserinfo embedded)
  else redactInnerUrl recur value embedded masks

/-- `redact_embedded_url`; the two cases only differ in the recursive call. -/
def redactEmbeddedUrl (template embedded : Text) : Action Unit Char := fun _ =>
  if template.length ≤ embedded.length then
    some ((), redactUrlQuery (redactUrlUserinfo embedded))
  else (recur (redactUrlUserinfo embedded)).map ((), ·)

def redactUrlsInTemplate (template : Text) : Action Unit Char :=
  sub (urls wide (redactEmbeddedUrl recur template)) none 0 template

def maskTemplate (value template : Text) : Action Masks Char := fun masks =>
  some (maskRegion value "JINJA".toList template masks)

/-- What comes after the first pass depends on its result only. -/
def redactMasked (masks : Masks) (value : Text) : Option Text := do
  let (_, value) ← sub (templates (redactUrlsInTemplate wide recur)) none 0 value ()
  let (masks, masked) ← sub (templates (maskTemplate value)) none 0 value masks
  some (unmask masks (redactUrlQuery masked))

/-- The body of `_redact_query_fragment_preserving_templates`. -/
def redactValue (outerUrl : Bool) (value : Text) : Option Text := do
  let (masks, value) ← sub (urls wide (redactNestedUrl wide recur outerUrl value)) none 0 value []
  redactMasked wide recur masks value

def redactQueryFragment : Nat → Bool → Text → Option Text
  | 0, _, _ => none
  | limit + 1, outerUrl, value =>
    redactValue wide (redactQueryFragment limit true) outerUrl value

end Recursion

section Text

variable (wide : Char → Bool) (limit : Nat)

def redactUrl (url : Text) : Action Unit Char := fun _ =>
  (redactQueryFragment wide limit true (redactUrlUserinfo url)).map ((), ·)

def safeUserinfo (userinfo : Text) : Text := if ':' ∈ userinfo then redacted else userinfo

def redactScp (matched : Text) : Action Unit Char := fun _ =>
  match scpFullmatch wide matched with
  | none => some ((), matched)
  | some source =>
    (redactQueryFragment wide limit false source.path).map fun path =>
      ((), { source with userinfo := source.userinfo.map safeUserinfo, path := path : Scp }.text)

/-- `_URL_OR_SCP_LITERAL_RE` with `redact_source`. -/
def sources : Finder Unit Char := fun before text =>
  match urlLength wide before text with
  | some size => some (size, redactUrl wide limit (text.take size))
  | none =>
    (scpMatch wide before text).map fun source =>
      (source.text.length, redactScp wide limit (text.take source.text.length))

def redactUrlsInText (value : Text) : Option Text :=
  (sub (sources wide limit) none 0 value ()).map Prod.snd

end Text

end Apme.Graph.Sensitivity
