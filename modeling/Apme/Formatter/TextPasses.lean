import Apme.Lib.Fields

/-!
# The text passes before loading

Before the YAML library sees a text, tabs are replaced by two blanks, and a line
that looks like a free-form command with a colon in its argument gets the
argument in double quotes.  Both passes work on single lines and know nothing of
what the lines are part of.
-/

set_option autoImplicit false

namespace Apme.Formatter

open Apme.Lib List

def fixTabs (text : Text) : Text := text.flatMap fun c => if c = '\t' then [' ', ' '] else [c]

/-- `_FREE_FORM_MODULE_NAMES`, the longest first. -/
def freeFormModuleNames : List Text :=
  ["ansible.builtin.command", "ansible.builtin.script", "ansible.legacy.command",
    "ansible.builtin.shell", "ansible.legacy.shell", "ansible.builtin.raw", "ansible.legacy.raw",
    "command", "script", "shell", "raw"].map String.toList

/-- The groups of a match of `_FREE_FORM_LINE_RE`. -/
structure FreeForm where
  indent : Text
  module : Text
  value : Text

variable (line : Text)

/-- White space, a dash if there is one, white space. -/
def freeFormIndent : Text :=
  let rest := line.dropWhile Text.isSpace
  let dash := rest.take (if rest.head? = some '-' then 1 else 0)
  line.takeWhile Text.isSpace ++ dash ++ (rest.drop dash.length).takeWhile Text.isSpace

/-- What `\s+(.+)$` leaves for the group; a text of blanks alone gives up its last one. -/
def freeFormValue (after : Text) : Option Text :=
  let blanks := after.takeWhile Text.isSpace
  if blanks = [] then none
  else
    match after.dropWhile Text.isSpace with
    | [] => if 2 ≤ blanks.length then some (blanks.drop (blanks.length - 1)) else none
    | value => some value

def matchFreeForm : Option FreeForm :=
  let indent := freeFormIndent line
  let body := line.drop indent.length
  (freeFormModuleNames.find? fun module => module ++ [':'] <+: body).bind fun module =>
    (freeFormValue (body.drop (module.length + 1))).map fun value => ⟨indent, module, value⟩

/-- The value is not quoted and has a colon. -/
def FreeForm.needsQuotes (m : FreeForm) : Bool :=
  m.value.head? ≠ some '"' && m.value.head? ≠ some '\'' && m.value.contains ':'

def escape (value : Text) : Text :=
  value.flatMap fun c =>
    if c = '\\' then ['\\', '\\'] else if c = '"' then ['\\', '"'] else [c]

def FreeForm.quoted (m : FreeForm) : Text :=
  m.indent ++ m.module ++ ':' :: ' ' :: '"' :: (escape m.value ++ ['"'])

def quoteLine : Text :=
  match matchFreeForm line with
  | none => line
  | some m => if m.needsQuotes then m.quoted else line

def quoteFreeFormArgs (text : Text) : Text := ['\n'].intercalate ((text.splitOn '\n').map quoteLine)

theorem fixTabs_append (front back : Text) : fixTabs (front ++ back) = fixTabs front ++ fixTabs back :=
  flatMap_append ..

variable {c : Char}

theorem fixTabs_cons_of_ne (ht : c ≠ '\t') (rest : Text) :
    fixTabs (c :: rest) = c :: fixTabs rest := by
  simp [fixTabs, ht]

theorem fixTabs_of_notMem {text : Text} (ht : '\t' ∉ text) : fixTabs text = text := by
  induction text with
  | nil => rfl
  | cons c rest ih =>
    rw [mem_cons, not_or] at ht
    rw [fixTabs_cons_of_ne (Ne.symm ht.1), ih ht.2]

variable (text : Text)

theorem tab_notMem_fixTabs : '\t' ∉ fixTabs text := by
  intro mem
  obtain ⟨c, -, hp⟩ := mem_flatMap.mp mem
  split at hp
  · simp at hp
  next ht => exact ht (mem_singleton.mp hp).symm

theorem mem_fixTabs {text : Text} (mem : c ∈ fixTabs text) : c = ' ' ∨ c ∈ text := by
  obtain ⟨d, ht, hp⟩ := mem_flatMap.mp mem
  split at hp
  · left
    simpa using hp
  · right
    rwa [mem_singleton.mp hp]

theorem splitOn_map_lines {f : Text → Text} (hb : ∀ ln ∈ text.splitOn '\n', '\n' ∉ f ln) :
    (['\n'].intercalate ((text.splitOn '\n').map f)).splitOn '\n' = (text.splitOn '\n').map f := by
  refine splitOn_intercalate '\n' ?_ ?_
  · intro ln mem
    obtain ⟨old, ht, rfl⟩ := mem_map.mp mem
    exact hb old ht
  · rw [ne_eq, map_eq_nil_iff]
    exact splitOn_ne_nil '\n' text

theorem fixTabs_intercalate (lines : List Text) :
    fixTabs (['\n'].intercalate lines) = ['\n'].intercalate (lines.map fixTabs) := by
  induction lines with
  | nil => rfl
  | cons ln rest ih =>
    cases rest with
    | nil => simp
    | cons next m₁ =>
      have hj : ['\n'].intercalate ((ln :: next :: m₁).map fixTabs) =
          fixTabs ln ++ ['\n'] ++ ['\n'].intercalate ((next :: m₁).map fixTabs) :=
        intercalate_cons_cons
      rw [hj, ← ih, intercalate_cons_cons, fixTabs_append, fixTabs_append]
      rfl

theorem splitOn_fixTabs : (fixTabs text).splitOn '\n' = (text.splitOn '\n').map fixTabs := by
  have hj : fixTabs text = ['\n'].intercalate ((text.splitOn '\n').map fixTabs) := by
    rw [← fixTabs_intercalate, intercalate_splitOn]
  rw [hj]
  apply splitOn_map_lines
  intro line mem hi
  rcases mem_fixTabs hi with hb | hl
  · cases hb
  · exact Text.not_mem_of_mem_splitOn '\n' text line mem hl

theorem freeFormIndent_append :
    freeFormIndent line ++ line.drop (freeFormIndent line).length = line := by
  have hsp : ∃ rest, line = freeFormIndent line ++ rest := by
    unfold freeFormIndent
    dsimp only
    have hw := takeWhile_append_dropWhile (p := Text.isSpace) (l := line)
    generalize line.takeWhile Text.isSpace = blanks at hw ⊢
    generalize line.dropWhile Text.isSpace = rest at hw ⊢
    generalize (if rest.head? = some '-' then 1 else 0) = count
    have cut := take_append_drop (rest.take count).length rest
    have ht : rest.take (rest.take count).length = rest.take count := by
      rw [length_take]
      by_cases hs : count ≤ rest.length
      · rw [min_eq_left hs]
      · rw [min_eq_right (by omega), take_length, take_of_length_le (by omega)]
    have hi := takeWhile_append_dropWhile (p := Text.isSpace)
      (l := rest.drop (rest.take count).length)
    refine ⟨(rest.drop (rest.take count).length).dropWhile Text.isSpace, ?_⟩
    rw [append_assoc, hi, append_assoc, ← hw]
    congr 1
    rw [ht] at cut
    exact cut.symm
  obtain ⟨rest, hw⟩ := hsp
  generalize freeFormIndent line = indent at hw ⊢
  rw [hw]
  simp

/-- The line of a match whose value is put in quotes. -/
structure FreeForm.Of (line : Text) (m : FreeForm) (blanks : Text) : Prop where
  whole : line = m.indent ++ (m.module ++ ':' :: (blanks ++ m.value))
  indent : m.indent = freeFormIndent line
  module : m.module ∈ freeFormModuleNames
  filled : blanks ≠ []
  blank : ∀ c ∈ blanks, Text.isSpace c
  starts : ∀ c, m.value.head? = some c → Text.isSpace c = false ∧ c ≠ '"'
  present : m.value ≠ []

theorem freeFormValue_eq {after v : Text} (hf : freeFormValue after = some v)
    (hc : ':' ∈ v) :
    ∃ blanks, after = blanks ++ v ∧ blanks ≠ [] ∧ (∀ c ∈ blanks, Text.isSpace c) ∧
      ∀ c, v.head? = some c → Text.isSpace c = false := by
  have hR : after.takeWhile Text.isSpace ≠ [] ∧ v = after.dropWhile Text.isSpace := by
    unfold freeFormValue at hf
    dsimp only at hf
    split at hf
    · cases hf
    next hfill =>
      refine ⟨hfill, ?_⟩
      split at hf
      · split at hf
        · cases hf
          have hb := mem_takeWhile_imp (mem_of_mem_drop hc)
          exact absurd hb (by decide)
        · cases hf
      · cases hf
        rfl
  obtain ⟨hfill, rfl⟩ := hR
  refine ⟨after.takeWhile Text.isSpace, takeWhile_append_dropWhile.symm, hfill,
    fun c => mem_takeWhile_imp, ?_⟩
  intro c head
  have hs := List.head?_dropWhile_not Text.isSpace after
  rw [head] at hs
  simpa using hs

variable {m : FreeForm}

theorem matchFreeForm_of {ln : Text} (hf : matchFreeForm ln = some m)
    (hn : m.needsQuotes) : ∃ blanks, m.Of ln blanks := by
  unfold matchFreeForm at hf
  obtain ⟨module, hM, rest⟩ := Option.bind_eq_some_iff.mp hf
  obtain ⟨v, hV, rfl⟩ := Option.map_eq_some_iff.mp rest
  simp only [FreeForm.needsQuotes, Bool.and_eq_true, decide_eq_true_eq, ne_eq,
    contains_iff_mem] at hn
  obtain ⟨⟨noDouble, -⟩, colon⟩ := hn
  obtain ⟨blanks, ha, filled, blank, starts⟩ := freeFormValue_eq hV colon
  refine ⟨blanks, ?_⟩
  refine
    { whole := ?_, indent := rfl, module := mem_of_find?_eq_some hM, filled, blank
      starts := fun c head => ⟨starts c head, fun hs => noDouble (hs ▸ head)⟩
      present := ne_nil_of_mem colon }
  have starts := List.find?_some hM
  obtain ⟨tail, hb⟩ := of_decide_eq_true starts
  have hm := congrArg (List.drop (module.length + 1)) hb
  rw [drop_append_of_le_length (by simp), drop_of_length_le (by simp), nil_append] at hm
  rw [hm] at hb
  rw [ha] at hb
  dsimp only
  conv_lhs => rw [← freeFormIndent_append ln, ← hb]
  simp

theorem quoteLine_cases :
    (quoteLine line = line ∧ ∀ m, matchFreeForm line = some m → m.needsQuotes = false) ∨
      ∃ m blanks, matchFreeForm line = some m ∧ m.needsQuotes ∧ m.Of line blanks ∧
        quoteLine line = m.quoted := by
  cases hf : matchFreeForm line with
  | none =>
    left
    simp [quoteLine, hf]
  | some m =>
    by_cases hn : m.needsQuotes
    · obtain ⟨blanks, of⟩ := matchFreeForm_of hf hn
      exact .inr ⟨m, blanks, rfl, hn, of, by simp [quoteLine, hf, hn]⟩
    · left
      simp [quoteLine, hf, hn]

theorem mem_escape {value : Text} (mem : c ∈ escape value) : c = '\\' ∨ c ∈ value := by
  obtain ⟨d, hv, hp⟩ := mem_flatMap.mp mem
  split at hp
  · left
    simpa using hp
  · split at hp
    next hQ =>
      subst hQ
      rcases mem_cons.mp hp with hb | hq
      · exact .inl hb
      · rw [mem_singleton.mp hq]
        exact .inr hv
    · rw [mem_singleton.mp hp]
      exact .inr hv

theorem FreeForm.Of.mem_quoted {ln blanks : Text} (of : m.Of ln blanks) (mem : c ∈ m.quoted) :
    c ∈ ln ∨ c = ' ' ∨ c = '"' ∨ c = '\\' := by
  rw [FreeForm.quoted] at mem
  rw [of.whole]
  simp only [mem_append, mem_cons, not_mem_nil, or_false] at mem ⊢
  rcases mem with (hi | hm) | hc | hbl | hq | he | hq
  · exact .inl (.inl hi)
  · exact .inl (.inr (.inl hm))
  · exact .inl (.inr (.inr (.inl hc)))
  · exact .inr (.inl hbl)
  · exact .inr (.inr (.inl hq))
  · rcases mem_escape he with hb | hv
    · exact .inr (.inr (.inr hb))
    · exact .inl (.inr (.inr (.inr (.inr hv))))
  · exact .inr (.inr (.inl hq))

theorem mem_quoteLine {ln : Text} (mem : c ∈ quoteLine ln) :
    c ∈ ln ∨ c = ' ' ∨ c = '"' ∨ c = '\\' := by
  rcases quoteLine_cases ln with ⟨hs, -⟩ | ⟨m, b, -, -, of, hQ⟩
  · rw [hs] at mem
    exact .inl mem
  · rw [hQ] at mem
    exact of.mem_quoted mem

theorem splitOn_quoteFreeFormArgs :
    (quoteFreeFormArgs text).splitOn '\n' = (text.splitOn '\n').map quoteLine := by
  apply splitOn_map_lines
  intro line mem hi
  rcases mem_quoteLine hi with hl | hO
  · exact Text.not_mem_of_mem_splitOn '\n' text line mem hl
  · exact absurd hO (by decide)

end Apme.Formatter
