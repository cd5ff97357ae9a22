import Apme.Formatter.TextPasses

/-!
# What the passes before loading do to the data of a text

The YAML library is not part of the repository: `Loader` lists what is taken
from it.  The passes see single lines, so the laws are about one line that gets
quotes, wherever it stands; what both passes do to a whole text follows.
-/

set_option autoImplicit false

namespace Apme.Formatter

open Apme.Lib List

section Lines

/-- `_quote_free_form_args` on the lines that `chosen` picks. -/
def quoteLines (chosen : Nat → Bool) (text : Text) : Text :=
  ['\n'].intercalate
    ((text.splitOn '\n').mapIdx fun i line => if chosen i then quoteLine line else line)

/-- The line is one that gets quotes. -/
def Rewritten (text : Text) (i : Nat) (m : FreeForm) : Prop :=
  ∃ line, (text.splitOn '\n')[i]? = some line ∧ matchFreeForm line = some m ∧ m.needsQuotes

variable (chosen : Nat → Bool) (text : Text)

theorem splitOn_quoteLines :
    (quoteLines chosen text).splitOn '\n' =
      (text.splitOn '\n').mapIdx fun i line => if chosen i then quoteLine line else line := by
  refine splitOn_intercalate '\n' ?_ ?_
  · intro line mem ends
    obtain ⟨i, inside, rfl⟩ := mem_mapIdx.mp mem
    have clean := Text.not_mem_of_mem_splitOn '\n' text _ (getElem_mem inside)
    split at ends
    · rcases mem_quoteLine ends with old | other
      · exact clean old
      · exact absurd other (by decide)
    · exact clean ends
  · rw [ne_eq, mapIdx_eq_nil_iff]
    exact splitOn_ne_nil '\n' text

theorem getElem?_quoteLines (i : Nat) :
    ((quoteLines chosen text).splitOn '\n')[i]? =
      (text.splitOn '\n')[i]?.map fun line => if chosen i then quoteLine line else line := by
  rw [splitOn_quoteLines, getElem?_mapIdx]

theorem quoteLines_all : quoteLines (fun _ => true) text = quoteFreeFormArgs text := by
  refine congrArg ['\n'].intercalate ?_
  apply ext_getElem?
  intro i
  simp

variable {chosen} {text}

/-- Two texts are equal if their lines are. -/
theorem eq_of_lines {other : Text}
    (same : ∀ i : Nat, (text.splitOn '\n')[i]? = (other.splitOn '\n')[i]?) : text = other := by
  have joined := congrArg ['\n'].intercalate (ext_getElem? same)
  rwa [intercalate_splitOn, intercalate_splitOn] at joined

theorem quoteLine_of_not_rewritten {i : Nat} {line : Text}
    (here : (text.splitOn '\n')[i]? = some line) (kept : ∀ m, ¬ Rewritten text i m) :
    quoteLine line = line := by
  rcases quoteLine_cases line with ⟨same, -⟩ | ⟨m, -, found, needs, -, -⟩
  · exact same
  · exact absurd ⟨line, here, found, needs⟩ (kept m)

/-- Quoting one more line. -/
theorem quoteLines_succ (count : Nat) :
    quoteLines (fun i => decide (i < count + 1)) text =
      quoteLines (fun i => decide (i = count)) (quoteLines (fun i => decide (i < count)) text) := by
  apply eq_of_lines
  intro i
  simp only [getElem?_quoteLines, Option.map_map, Function.comp_def, decide_eq_true_eq]
  rcases Nat.lt_trichotomy i count with before | here | after
  · simp [before, Nat.lt_succ_of_lt before, before.ne]
  · simp [here]
  · have beyond : ¬ i < count + 1 := by omega
    simp [beyond, after.not_gt, after.ne']

theorem quoteLines_beyond {count : Nat} (enough : (text.splitOn '\n').length ≤ count) :
    quoteLines (fun i => decide (i < count)) text = quoteFreeFormArgs text := by
  rw [← quoteLines_all]
  apply eq_of_lines
  intro i
  simp only [getElem?_quoteLines, decide_eq_true_eq]
  by_cases inside : i < count
  · simp [inside]
  · rw [getElem?_eq_none (by omega)]
    rfl

end Lines

/-- What is taken from the YAML library; `Data` has the anchors and the tags in
it.  Two predicates say what the library finds in a text. -/
structure Loader (Data : Type) where
  load : Text → Option Data
  /-- Some scalar's value has a tab that stands as such in the text: in quotes or
  in a block scalar. -/
  TabInValue : Text → Prop
  /-- What stands after the key on this line is one plain scalar, which ends with
  the line and is the string given (no number, date or the like). -/
  PlainString : Text → Nat → Text → Prop
  /-- Any other tab separates tokens or is in a comment, as blanks can. -/
  tabs_separate : ∀ text data, load text = some data → ¬ TabInValue text →
    load (fixTabs text) = some data
  /-- The passes leave no tab in the text and add no escape for one. -/
  tabs_lost : ∀ text data, load text = some data → TabInValue text →
    load (quoteFreeFormArgs (fixTabs text)) ≠ some data
  /-- A double-quoted scalar with its escapes is the string it was made from, and
  stands where the plain one stood. -/
  quoted_string : ∀ text data i m, load text = some data → Rewritten text i m →
    PlainString text i m.value →
      load (quoteLines (fun j => decide (j = i)) text) = some data ∧
        ∀ j value, j ≠ i → PlainString text j value →
          PlainString (quoteLines (fun j => decide (j = i)) text) j value
  /-- Where the line held something else (a mapping, a node with an anchor or a
  tag, a string with a comment or blanks after it, a piece of a longer scalar), it
  is lost, whatever happens to the other lines. -/
  quoted_other : ∀ text data chosen i m, load text = some data → Rewritten text i m →
    ¬ PlainString text i m.value → chosen i = true → load (quoteLines chosen text) ≠ some data

section Passes

variable {Data : Type} (loader : Loader Data)

/-- No scalar has a tab, and only plain strings get quotes. -/
def PassesKeep (text : Text) : Prop :=
  ¬ loader.TabInValue text ∧
    ∀ i m, Rewritten (fixTabs text) i m → loader.PlainString (fixTabs text) i m.value

variable {text : Text} {data : Data} (loads : loader.load text = some data)
  (plain : ∀ i m, Rewritten text i m → loader.PlainString text i m.value)

include loads plain

/-- The lines are quoted from the first on; the values still to come stay plain. -/
theorem load_quoteLines (count : Nat) :
    loader.load (quoteLines (fun i => decide (i < count)) text) = some data ∧
      ∀ i m, count ≤ i → Rewritten text i m →
        loader.PlainString (quoteLines (fun i => decide (i < count)) text) i m.value := by
  induction count with
  | zero =>
    have same : quoteLines (fun i => decide (i < 0)) text = text := by
      apply eq_of_lines
      intro i
      simp [getElem?_quoteLines]
    rw [same]
    exact ⟨loads, fun i m _ rewritten => plain i m rewritten⟩
  | succ count ih =>
    obtain ⟨loaded, later⟩ := ih
    rw [quoteLines_succ]
    -- The lines from `count` on are those of the text.
    have here : ((quoteLines (fun i => decide (i < count)) text).splitOn '\n')[count]? =
        (text.splitOn '\n')[count]? := by
      simp [getElem?_quoteLines]
    by_cases found : ∃ m, Rewritten text count m
    · obtain ⟨m, rewritten⟩ := found
      have again : Rewritten (quoteLines (fun i => decide (i < count)) text) count m := by
        obtain ⟨line, isLine, pattern⟩ := rewritten
        exact ⟨line, here.trans isLine, pattern⟩
      obtain ⟨kept, others⟩ := loader.quoted_string _ _ _ _ loaded again
        (later count m le_rfl rewritten)
      refine ⟨kept, ?_⟩
      intro i m after rewrittenThere
      exact others i m.value (by omega) (later i m (by omega) rewrittenThere)
    · have same : quoteLines (fun i => decide (i = count))
          (quoteLines (fun i => decide (i < count)) text) =
            quoteLines (fun i => decide (i < count)) text := by
        apply eq_of_lines
        intro i
        rw [getElem?_quoteLines]
        by_cases isHere : i = count
        · subst isHere
          rw [here]
          cases isLine : (text.splitOn '\n')[i]? with
          | none => rfl
          | some line =>
            have kept := quoteLine_of_not_rewritten isLine fun m rewritten => found ⟨m, rewritten⟩
            simp [kept]
        · simp [isHere]
      rw [same]
      exact ⟨loaded, fun i m after rewritten => later i m (by omega) rewritten⟩

end Passes

section Sample

inductive Value
  | none
  | str (text : Text)
  | mapping (entries : List (Text × Text))
  deriving DecidableEq

/-- A few lines, with the key and the value each of them holds. -/
def knownLines : List (Text × Text × Value) :=
  [([], [], .none),
    ("- shell: echo a:b".toList, "shell".toList, .str "echo a:b".toList),
    ("- shell: \"echo a:b\"".toList, "shell".toList, .str "echo a:b".toList),
    ("- command: \x7bcmd: ls\x7d".toList, "command".toList,
      .mapping [("cmd".toList, "ls".toList)]),
    ("- command: \"\x7bcmd: ls\x7d\"".toList, "command".toList,
      .str "\x7bcmd: ls\x7d".toList),
    ("- name: \"a\tb\"".toList, "name".toList, .str "a\tb".toList),
    ("- name: \"a  b\"".toList, "name".toList, .str "a  b".toList)]

def readLine (line : Text) : Option (Text × Value) :=
  (knownLines.find? (·.1 = line)).map Prod.snd

/-- Loads the texts that consist of known lines. -/
def loadLines (text : Text) : Option (List (Option (Text × Value))) :=
  some ((text.splitOn '\n').map readLine) |>.filter (none ∉ ·)

theorem mem_knownLines {line : Text} {found : Text × Value} (reads : readLine line = some found) :
    (line, found) ∈ knownLines := by
  obtain ⟨known, isKnown, rfl⟩ := Option.map_eq_some_iff.mp reads
  have same : known.1 = line := by simpa using find?_some isKnown
  subst same
  exact mem_of_find?_eq_some isKnown

theorem readLine_quoted {line : Text} {found : Text × Value} {m : FreeForm}
    (reads : readLine line = some found) (isMatch : matchFreeForm line = some m)
    (needs : m.needsQuotes) :
    readLine m.quoted = some found ↔ found.2 = .str m.value := by
  have all : ∀ known ∈ knownLines, ∀ m ∈ matchFreeForm known.1, m.needsQuotes →
      (readLine m.quoted = some known.2 ↔ known.2.2 = .str m.value) := by
    decide
  exact all _ (mem_knownLines reads) m isMatch needs

theorem readLine_of_loadLines {text : Text} {data : List (Option (Text × Value))} {i : Nat}
    {line : Text} (loads : loadLines text = some data)
    (here : (text.splitOn '\n')[i]? = some line) :
    ∃ found, readLine line = some found ∧ data[i]? = some (some found) := by
  obtain ⟨isData, known⟩ := Option.filter_eq_some_iff.mp loads
  cases Option.some.inj isData
  cases reads : readLine line with
  | none =>
    have unread : none ∈ (text.splitOn '\n').map readLine :=
      mem_map.mpr ⟨line, mem_of_getElem? here, reads⟩
    simp [unread] at known
  | some found => exact ⟨found, rfl, by rw [getElem?_map, here, Option.map_some, reads]⟩

/-- In these lines tabs stand in quotes only. -/
def lineLoader : Loader (List (Option (Text × Value))) where
  load := loadLines
  TabInValue text := ∃ line ∈ text.splitOn '\n', '\t' ∈ line
  PlainString text i value :=
    ∃ line key, (text.splitOn '\n')[i]? = some line ∧ readLine line = some (key, .str value)
  tabs_separate := by
    intro text data loads free
    have same : fixTabs text = text := by
      apply eq_of_lines
      intro i
      rw [splitOn_fixTabs, getElem?_map]
      cases here : (text.splitOn '\n')[i]? with
      | none => rfl
      | some line =>
        have clean : '\t' ∉ line := fun tab => free ⟨line, mem_of_getElem? here, tab⟩
        rw [Option.map_some, fixTabs_of_notMem clean]
    rwa [same]
  tabs_lost := by
    rintro text data loads ⟨line, isLine, tab⟩ again
    obtain ⟨i, inside, rfl⟩ := getElem_of_mem isLine
    obtain ⟨found, reads, old⟩ := readLine_of_loadLines loads (getElem?_eq_getElem inside)
    have there : ((quoteFreeFormArgs (fixTabs text)).splitOn '\n')[i]? =
        some (quoteLine (fixTabs (text.splitOn '\n')[i])) := by
      rw [splitOn_quoteFreeFormArgs, splitOn_fixTabs, getElem?_map, getElem?_map,
        getElem?_eq_getElem inside]
      rfl
    obtain ⟨found', reads', new⟩ := readLine_of_loadLines again there
    rw [old] at new
    cases Option.some.inj (Option.some.inj new)
    -- No two known lines of which only one has a tab hold the same value.
    have apart : ∀ known ∈ knownLines, ∀ other ∈ knownLines, '\t' ∈ known.1 →
        known.2 = other.2 → '\t' ∈ other.1 := by
      decide
    have left := apart _ (mem_knownLines reads) _ (mem_knownLines reads') tab rfl
    rcases mem_quoteLine left with fixed | other
    · exact tab_notMem_fixTabs _ fixed
    · exact absurd other (by decide)
  quoted_string := by
    rintro text data i m loads ⟨line, here, isMatch, needs⟩ ⟨_, key, isLine, reads⟩
    cases Option.some.inj (here.symm.trans isLine)
    have quotes : quoteLine line = m.quoted := by simp [quoteLine, isMatch, needs]
    have kept := (readLine_quoted reads isMatch needs).mpr rfl
    -- Each line is read as before.
    have same : ((quoteLines (fun j => decide (j = i)) text).splitOn '\n').map readLine =
        (text.splitOn '\n').map readLine := by
      apply ext_getElem?
      intro j
      rw [getElem?_map, getElem?_map, getElem?_quoteLines]
      by_cases isHere : j = i
      · subst isHere
        simp [here, quotes, kept, reads]
      · simp [isHere]
    refine ⟨?_, ?_⟩
    · rwa [loadLines, same]
    · rintro j value other ⟨line, key, isLine, reads⟩
      refine ⟨line, key, ?_, reads⟩
      rw [getElem?_quoteLines, isLine]
      simp [other]
  quoted_other := by
    rintro text data chosen i m loads ⟨line, here, isMatch, needs⟩ other isChosen again
    obtain ⟨found, reads, old⟩ := readLine_of_loadLines loads here
    have quotes : quoteLine line = m.quoted := by simp [quoteLine, isMatch, needs]
    have there : ((quoteLines chosen text).splitOn '\n')[i]? = some m.quoted := by
      rw [getElem?_quoteLines, here]
      simp [isChosen, quotes]
    obtain ⟨found', reads', new⟩ := readLine_of_loadLines again there
    rw [old] at new
    cases Option.some.inj (Option.some.inj new)
    have isString := (readLine_quoted reads isMatch needs).mp reads'
    refine other ⟨line, found.1, here, ?_⟩
    rw [reads, ← isString]

def echoText : Text := "- shell: echo a:b\n- shell: echo a:b\n- name: \"a  b\"\n".toList

def commandText : Text := "- command: \x7bcmd: ls\x7d\n".toList

end Sample

end Apme.Formatter
