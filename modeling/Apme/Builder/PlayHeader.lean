import Apme.Lib.Text

/-!
# Line range and header text of a play

The span of a play is found by scanning the playbook for top-level list items.
Its text is cut by another function, which stops at the first child of the
play.  `header_faithful_iff` says when the two describe the same lines.
-/

set_option autoImplicit false

namespace Apme.Builder

open Apme.Lib List

/-- The 1-based numbers of the lines that open a top-level list item. -/
def playStarts (fileContent : Text) : List Nat :=
  ((Text.lines fileContent).zipIdx 1).filterMap fun entry =>
    if "- ".toList.isPrefixOf entry.1 || entry.1 = ['-'] then some entry.2 else none

def findPlayLines (fileContent : Text) (playIndex : Nat) : Nat × Nat :=
  match (playStarts fileContent)[playIndex]? with
  | none => (0, 0)
  | some start =>
    match (playStarts fileContent)[playIndex + 1]? with
    | some next => (start, next - 1)
    | none => (start, (Text.lines fileContent).length)

/-- The smallest positive start line, or zero. -/
def firstChildLine (childStarts : List Nat) : Nat :=
  childStarts.foldl
    (fun first start => if 0 < start ∧ (first = 0 ∨ start < first) then start else first) 0

/-- The text of the lines after the first `below` up to line `stop`. -/
def slice (lines : List Text) (below stop : Nat) : Text := ((lines.take stop).drop below).flatten

/-- What the header of a play is cut from: the file, the span of the play and
the spans of its children. -/
structure HeaderCut where
  fileContent : Text
  lineStart : Nat
  lineEnd : Nat
  children : List (Nat × Nat)
  deriving DecidableEq

namespace HeaderCut

variable (cut : HeaderCut)

def lines : List Text := Text.splitLines cut.fileContent

/-- The last line of the header: the one before the first child, if that child
starts below the first line of the play. -/
def stop : Nat :=
  let first := firstChildLine (cut.children.map Prod.fst)
  if cut.lineStart < first then first - 1
  else if 0 < cut.lineEnd then cut.lineEnd
  else cut.lines.length

def header : Text := slice cut.lines (cut.lineStart - 1) cut.stop

def span : Text := slice cut.lines (cut.lineStart - 1) cut.lineEnd

end HeaderCut

variable (cut : HeaderCut)

def extractPlayHeader : Text :=
  if cut.fileContent = [] ∨ cut.lineStart < 1 then []
  else if Text.isBlank cut.header then []
  else Text.rstripNewlines cut.header ++ ['\n']

theorem slice_append (lines : List Text) {below mid stop : Nat} (first : below ≤ mid)
    (hs : mid ≤ stop) :
    slice lines below stop = slice lines below mid ++ slice lines mid stop := by
  have cut : lines.take stop = lines.take mid ++ (lines.take stop).drop mid := by
    have hw := take_append_drop mid (lines.take stop)
    rwa [take_take, Nat.min_eq_left hs, eq_comm] at hw
  rw [slice, cut]
  by_cases hsh : lines.length < below
  · have none : ∀ count, (lines.take count).drop below = [] := fun count =>
      drop_eq_nil_of_le (by rw [length_take]; omega)
    have hm : (lines.take stop).drop mid = [] := drop_eq_nil_of_le (by rw [length_take]; omega)
    simp [slice, none, hm]
  · have hi : below ≤ (lines.take mid).length := by rw [length_take]; omega
    rw [drop_append_of_le_length hi, flatten_append]
    rfl

theorem slice_eq_nil (lines : List Text) {below stop : Nat} (he : stop ≤ below) :
    slice lines below stop = [] := by
  rw [slice, drop_eq_nil_of_le (by rw [length_take]; omega)]
  rfl

namespace HeaderCut

/-- The part of the span below the header. -/
def left : Text := slice cut.lines cut.stop cut.lineEnd

/-- The part of the header below the span. -/
def extra : Text := slice cut.lines cut.lineEnd cut.stop

/-- The header leaves nothing of the span but at most one newline, has nothing
but newlines below the span, and the span does not end in an empty line. -/
structure CoversSpan (cut : HeaderCut) : Prop where
  left : cut.left = [] ∨ cut.left = ['\n'] ∧ Text.endsWithNewline cut.header = false
  extra : ∀ c ∈ cut.extra, c = '\n'
  ending : ¬ ['\n', '\n'] <:+ cut.span

instance (cut : HeaderCut) : Decidable cut.CoversSpan :=
  decidable_of_iff
    ((cut.left = [] ∨ cut.left = ['\n'] ∧ Text.endsWithNewline cut.header = false) ∧
      (cut.extra.all fun c => c = '\n') ∧ ¬ ['\n', '\n'] <:+ cut.span)
    ⟨fun holds => ⟨holds.1, by simpa using holds.2.1, holds.2.2⟩, fun covers =>
      ⟨covers.left, by simpa using covers.extra, covers.ending⟩⟩

theorem start_le_stop (ho : cut.lineStart ≤ cut.lineEnd) : cut.lineStart - 1 ≤ cut.stop := by
  unfold stop
  dsimp only
  split
  · omega
  · split
    · omega
    · have := cut.lineStart.sub_le 1
      omega

theorem coversSpan_iff (ho : cut.lineStart ≤ cut.lineEnd) :
    Text.rstripNewlines cut.header = Text.dropFinalNewline cut.span ↔ cut.CoversSpan := by
  have hss := cut.start_le_stop ho
  by_cases hi : cut.stop ≤ cut.lineEnd
  · have hj : cut.span = cut.header ++ cut.left := slice_append cut.lines hss hi
    have hne : cut.extra = [] := slice_eq_nil _ hi
    by_cases same : cut.left = []
    · rw [hj, same, append_nil, Text.rstripNewlines_eq_dropFinalNewline]
      refine ⟨fun hen => ⟨.inl same, by simp [hne], ?_⟩, fun hc => ?_⟩
      · rwa [hj, same, append_nil]
      · have hen := hc.ending
        rwa [hj, same, append_nil] at hen
    · rw [hj, Text.dropFinalNewline_append _ _ same]
      constructor
      · intro he
        have hsh := (List.rdropWhile_prefix (fun c => decide (c = '\n')) cut.header).length_le
        have hno : Text.dropFinalNewline cut.left = [] := by
          have hl := congrArg List.length he
          rw [length_append] at hl
          change (Text.rstripNewlines cut.header).length ≤ _ at hsh
          exact eq_nil_of_length_eq_zero (by omega)
        have hs := (Text.dropFinalNewline_eq_nil cut.left same).mp hno
        rw [hno, append_nil] at he
        have ho' := (Text.rstripNewlines_eq_self cut.header).mp he
        refine ⟨.inr ⟨hs, ho'⟩, by simp [hne], ?_⟩
        rw [hj, hs, ← Text.rstripNewlines_eq_dropFinalNewline,
          Text.rstripNewlines_concat, Text.dropFinalNewline_concat, if_pos rfl, if_pos rfl, he]
      · intro hc
        obtain ⟨hs, ho'⟩ := hc.left.resolve_left same
        rw [(Text.dropFinalNewline_eq_nil cut.left same).mpr hs, append_nil]
        exact (Text.rstripNewlines_eq_self cut.header).mpr ho'
  · have hb : cut.lineEnd ≤ cut.stop := by omega
    have hj : cut.header = cut.span ++ cut.extra := slice_append cut.lines (by omega) hb
    have hnl : cut.left = [] := slice_eq_nil _ hb
    by_cases hn : ∀ c ∈ cut.extra, c = '\n'
    · rw [hj, Text.rstripNewlines_append_newlines _ _ hn,
        Text.rstripNewlines_eq_dropFinalNewline]
      exact ⟨fun hen => ⟨.inl hnl, hn, hen⟩, fun hc => hc.ending⟩
    · push Not at hn
      have hst := Text.rstripNewlines_append cut.span cut.extra hn
      refine ⟨fun he => ?_, fun hc => ?_⟩
      · rw [hj, hst.1] at he
        have hsh : (Text.dropFinalNewline cut.span).length ≤ cut.span.length := by
          unfold Text.dropFinalNewline
          split <;> simp
        have hlo := length_pos_iff.mpr hst.2
        have hl := congrArg List.length he
        rw [length_append] at hl
        omega
      · obtain ⟨c, hm, hot⟩ := hn
        exact absurd (hc.extra c hm) hot

end HeaderCut

end Apme.Builder
