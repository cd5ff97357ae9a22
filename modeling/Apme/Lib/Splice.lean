import Mathlib.Algebra.GroupWithZero.Nat
import Mathlib.Data.List.Sort
import Mathlib.Data.List.Range

/-!
# Splicing edits into a list of lines

An edit replaces the lines `start..stop` (counted from one, both included) of a
buffer.  Edits are applied one after the other with the line numbers of the
original buffer, in order of decreasing start.  The buffer is marked with the
original line numbers to say which original lines are still there afterwards:
`mem_survivors_iff` decides this for every line by arithmetic on the edits.
-/

set_option autoImplicit false

namespace Apme.Lib

open List

structure Edit (α : Type) where
  start : Nat
  stop : Nat
  new : List α
  start_pos : 1 ≤ start
  ordered : start ≤ stop

namespace Edit

variable {α β : Type}

def width (e : Edit α) : Nat := e.stop + 1 - e.start

def covers (e : Edit α) (line : Nat) : Prop := e.start ≤ line ∧ line ≤ e.stop

instance (e : Edit α) (line : Nat) : Decidable (e.covers line) :=
  inferInstanceAs (Decidable (_ ∧ _))

/-- Slice assignment `buffer[start-1:stop] = new`. -/
def apply (buffer : List α) (e : Edit α) : List α :=
  buffer.take (e.start - 1) ++ e.new ++ buffer.drop e.stop

def map (f : α → β) (e : Edit α) : Edit β :=
  { start := e.start, stop := e.stop, new := e.new.map f
    start_pos := e.start_pos, ordered := e.ordered }

theorem map_map {γ : Type} (f : α → β) (g : β → γ) (e : Edit α) :
    (e.map f).map g = e.map (g ∘ f) := by
  simp [map]

theorem apply_map (f : α → β) (buffer : List α) (e : Edit α) :
    (e.map f).apply (buffer.map f) = (e.apply buffer).map f := by
  simp [apply, map, map_take, map_drop]

end Edit

section Splice

variable {α β : Type}

def spliceAll (buffer : List α) (edits : List (Edit α)) : List α := edits.foldl Edit.apply buffer

@[simp]
theorem spliceAll_cons (buffer : List α) (e : Edit α) (rest : List (Edit α)) :
    spliceAll buffer (e :: rest) = spliceAll (e.apply buffer) rest := rfl

theorem spliceAll_map (f : α → β) (buffer : List α) (edits : List (Edit α)) :
    spliceAll (buffer.map f) (edits.map (Edit.map f)) = (spliceAll buffer edits).map f := by
  induction edits generalizing buffer with
  | nil => rfl
  | cons e rest ih => rw [map_cons, spliceAll_cons, Edit.apply_map, ih, spliceAll_cons]

end Splice

section Survivors

variable {α : Type} (lines : List α)

/-- A line's number when it is an original line; the lines of an edit have none. -/
def mark : List (α × Option Nat) := (lines.zipIdx 1).map fun entry => (entry.1, some entry.2)

variable (edits : List (Edit α))

def markedSplice : List (α × Option Nat) :=
  spliceAll (mark lines) (edits.map (Edit.map fun line => (line, none)))

def survivors : List Nat := (markedSplice lines edits).filterMap Prod.snd

/-- Original line `line` is at `position` in the buffer: it stays there for the
rest of the edits when each edit that starts at or above it ends before its
position of that moment. -/
def Survives (line : Nat) : Nat → List (Edit α) → Prop
  | _, [] => True
  | position, e :: rest =>
    if e.start ≤ line then
      e.stop < position ∧ Survives line (position - e.width + e.new.length) rest
    else Survives line position rest

variable (lines : List α) (edits : List (Edit α))

theorem markedSplice_fst : (markedSplice lines edits).map Prod.fst = spliceAll lines edits := by
  have hl : (mark lines).map Prod.fst = lines := by
    simp [mark, List.map_map, Function.comp_def]
  have he : (edits.map (Edit.map fun ln => (ln, (none : Option Nat)))).map
      (Edit.map Prod.fst) = edits := by
    simp [List.map_map, Function.comp_def, Edit.map]
  rw [markedSplice, ← spliceAll_map, hl, he]

theorem markedSplice_snd : (markedSplice lines edits).map Prod.snd =
      spliceAll ((List.range' 1 lines.length).map some) (edits.map (Edit.map fun _ => none)) := by
  have hn : (mark lines).map Prod.snd = (List.range' 1 lines.length).map some := by
    rw [mark, List.map_map, ← zipIdx_map_snd 1 lines, List.map_map]
    rfl
  have hu : (edits.map (Edit.map fun ln => (ln, (none : Option Nat)))).map
      (Edit.map Prod.snd) = edits.map (Edit.map fun _ => none) := by
    simp [List.map_map, Function.comp_def, Edit.map_map]
  rw [markedSplice, ← spliceAll_map, hn, hu]

variable {β : Type}

theorem take_append_drop_sublist (buffer : List β) (first last : Nat)
    (le : first ≤ last) : (buffer.take first ++ buffer.drop last).Sublist buffer := by
  have hs : (buffer.drop last).Sublist (buffer.drop first) := drop_sublist_drop_left buffer le
  have hj := (List.Sublist.refl (buffer.take first)).append hs
  rwa [take_append_drop] at hj

theorem spliceAll_numbers_sublist (buffer : List (Option Nat)) (edits : List (Edit (Option Nat)))
    (hu : ∀ e ∈ edits, e.new.filterMap id = []) :
    ((spliceAll buffer edits).filterMap id).Sublist (buffer.filterMap id) := by
  induction edits generalizing buffer with
  | nil => exact List.Sublist.refl _
  | cons e rest ih =>
    have hl := ih (e.apply buffer) fun o mem =>
      hu o (mem_cons_of_mem e mem)
    refine hl.trans ?_
    have hk := (take_append_drop_sublist buffer (e.start - 1) e.stop
      (by have := e.ordered; omega)).filterMap id
    rw [filterMap_append] at hk
    rw [Edit.apply, filterMap_append, filterMap_append, hu e mem_cons_self, append_nil]
    exact hk

theorem survivors_sublist : (survivors lines edits).Sublist (List.range' 1 lines.length) := by
  have hk := spliceAll_numbers_sublist ((List.range' 1 lines.length).map some)
    (edits.map (Edit.map fun _ => none)) (by simp [Edit.map])
  rw [← markedSplice_snd, filterMap_map, filterMap_map] at hk
  simpa [survivors, Function.comp_def] using hk

/-- `line` is in the buffer once, at `position`, while every edit so far starts
at `bound` or below. -/
structure Placed (line position bound : Nat) (buffer : List (Option Nat)) : Prop where
  once : ∃ before after, buffer = before ++ some line :: after ∧ some line ∉ before ∧
    some line ∉ after ∧ before.length + 1 = position
  above : line < bound → position = line
  below : bound ≤ line → bound ≤ position

variable {line position bound : Nat} {buffer : List (Option Nat)}

theorem Placed.start_le (placed : Placed line position bound buffer) {start : Nat}
    (hb : start ≤ bound) (hr : start ≤ line) : start ≤ position := by
  by_cases hh : line < bound
  · rw [placed.above hh]
    exact hr
  · exact hb.trans (placed.below (Nat.not_lt.mp hh))

section

variable (placed : Placed line position bound buffer) (e : Edit (Option Nat))
  (unnumbered : some line ∉ e.new)

include placed unnumbered

theorem Placed.untouched (hib : e.start ≤ bound) (hl : line < e.start) :
    Placed line position e.start (e.apply buffer) := by
  obtain ⟨old, a, rfl, hb, ha, hpl⟩ := placed.once
  have here := placed.above (hl.trans_le hib)
  refine ⟨⟨old, (a.take (e.start - 1 - position)) ++ e.new ++ a.drop (e.stop - position),
    ?_, hb, ?_, hpl⟩, fun _ => here, fun hr => absurd hl (Nat.not_lt.mpr hr)⟩
  · have hp : e.start - 1 = old.length + (e.start - 1 - position + 1) := by omega
    have hsp : e.stop = old.length + (e.stop - position + 1) := by
      have := e.ordered
      omega
    rw [Edit.apply, hp, take_length_add_append, take_succ_cons, hsp,
      drop_length_add_append, drop_succ_cons]
    simp [← hp, ← hsp]
  · simp only [mem_append, not_or]
    exact ⟨⟨fun mem => ha (mem_of_mem_take mem), unnumbered⟩, fun mem => ha (mem_of_mem_drop mem)⟩

theorem Placed.shifted (hr : e.start ≤ line) (hc : e.stop < position) :
    Placed line (position - e.width + e.new.length) e.start (e.apply buffer) := by
  obtain ⟨old, a, rfl, hb, ha, hp⟩ := placed.once
  have ho := e.ordered
  have hpos := e.start_pos
  have hi : e.start - 1 ≤ old.length := by omega
  have hsi : e.stop ≤ old.length := by omega
  refine ⟨⟨old.take (e.start - 1) ++ e.new ++ old.drop e.stop, a, ?_, ?_, ha, ?_⟩,
    fun hh => absurd hr (Nat.not_le.mpr hh), fun _ => ?_⟩
  · rw [Edit.apply, take_append_of_le_length hi, drop_append_of_le_length hsi]
    simp
  · simp only [mem_append, not_or]
    exact ⟨⟨fun mem => hb (mem_of_mem_take mem), unnumbered⟩, fun mem => hb (mem_of_mem_drop mem)⟩
  · simp only [length_append, length_take, length_drop, Edit.width]
    omega
  · rw [Edit.width]
    omega

theorem Placed.lost (hib : e.start ≤ bound) (hr : e.start ≤ line)
    (hit : position ≤ e.stop) : some line ∉ e.apply buffer := by
  have hl := placed.start_le hib hr
  obtain ⟨old, a, rfl, hb, ha, hpl⟩ := placed.once
  have hi : e.start - 1 ≤ old.length := by omega
  have hp : e.stop = old.length + (e.stop - position + 1) := by omega
  rw [Edit.apply, take_append_of_le_length hi, hp, drop_length_add_append,
    drop_succ_cons]
  simp only [mem_append, not_or]
  exact ⟨⟨fun mem => hb (mem_of_mem_take mem), unnumbered⟩, fun mem => ha (mem_of_mem_drop mem)⟩

end

theorem not_mem_spliceAll (ln : Nat) (buffer : List (Option Nat))
    (edits : List (Edit (Option Nat))) (hu : ∀ e ∈ edits, some ln ∉ e.new)
    (hg : some ln ∉ buffer) : some ln ∉ spliceAll buffer edits := by
  induction edits generalizing buffer with
  | nil => exact hg
  | cons e rest ih =>
    refine ih (e.apply buffer) (fun o mem =>
      hu o (mem_cons_of_mem e mem)) ?_
    simp only [Edit.apply, mem_append, not_or]
    exact ⟨⟨fun mem => hg (mem_of_mem_take mem),
      hu e mem_cons_self⟩, fun mem => hg (mem_of_mem_drop mem)⟩

variable (edits : List (Edit α))

def DescendingStarts : Prop := edits.Pairwise fun earlier later => later.start ≤ earlier.start

theorem Placed.mem_spliceAll_iff (placed : Placed line position bound buffer)
    (edits : List (Edit (Option Nat))) (hun : ∀ e ∈ edits, some line ∉ e.new)
    (hib : ∀ e ∈ edits, e.start ≤ bound) (desc : DescendingStarts edits) :
    some line ∈ spliceAll buffer edits ↔ Survives line position edits := by
  induction edits generalizing position bound buffer with
  | nil =>
    obtain ⟨old, a, rfl, -, -, -⟩ := placed.once
    simp [Survives, spliceAll]
  | cons e rest ih =>
    have heu := hun e mem_cons_self
    have hb := hib e mem_cons_self
    have hu : ∀ o ∈ rest, some line ∉ o.new := fun o mem => hun o (mem_cons_of_mem e mem)
    obtain ⟨hrb, hd⟩ := pairwise_cons.mp desc
    rw [spliceAll_cons, Survives]
    by_cases hr : e.start ≤ line
    · rw [if_pos hr]
      by_cases hc : e.stop < position
      · rw [ih (placed.shifted e heu hr hc) hu hrb hd]
        exact (and_iff_right hc).symm
      · have hl := placed.lost e heu hb hr (Nat.not_lt.mp hc)
        have hg := not_mem_spliceAll line (e.apply buffer) rest hu hl
        exact ⟨fun mem => absurd mem hg, fun hs => absurd hs.1 hc⟩
    · rw [if_neg hr]
      exact ih (placed.untouched e heu hb (Nat.not_le.mp hr)) hu hrb hd

theorem placed_original (line count bound : Nat) (first : 1 ≤ line) (last : line ≤ count)
    (hh : line < bound) : Placed line line bound ((List.range' 1 count).map some) := by
  have hsp : List.range' 1 count =
      List.range' 1 (line - 1) ++ line :: List.range' (line + 1) (count - line) := by
    have hw : count = (line - 1) + (1 + (count - line)) := by omega
    conv_lhs => rw [hw, ← List.range'_append_1, ← List.range'_append_1]
    have hs : 1 + (line - 1) = line := by omega
    rw [hs]
    rfl
  refine ⟨⟨(List.range' 1 (line - 1)).map some,
    (List.range' (line + 1) (count - line)).map some, ?_, ?_, ?_, ?_⟩, fun _ => rfl,
    fun hr => absurd hh (Nat.not_lt.mpr hr)⟩
  · rw [hsp]
    simp
  · simp only [mem_map, Option.some.injEq, exists_eq_right, mem_range'_1, not_and]
    omega
  · simp only [mem_map, Option.some.injEq, exists_eq_right, mem_range'_1, not_and]
    omega
  · simp only [length_map, length_range']
    omega

theorem survives_map (f : α → β) (ln pos : Nat) (edits : List (Edit α)) :
    Survives ln pos (edits.map (Edit.map f)) ↔ Survives ln pos edits := by
  induction edits generalizing pos with
  | nil => exact Iff.rfl
  | cons e rest ih =>
    have hw : (e.map f).width = e.width := rfl
    have hl : (e.map f).new.length = e.new.length := by simp [Edit.map]
    simp only [map_cons, Survives, hw, hl, ih]
    exact Iff.rfl

/-- Lines the edits that start at or above `line` take out. -/
def removedAbove (line : Nat) (edits : List (Edit α)) : Nat :=
  ((edits.filter fun e => e.start ≤ line).map Edit.width).sum

/-- Lines the edits that start at or above `line` put in. -/
def addedAbove (line : Nat) (edits : List (Edit α)) : Nat :=
  ((edits.filter fun e => e.start ≤ line).map fun e => e.new.length).sum

/-- `Survives` without the running position: each edit ends before the place to
which the edits applied earlier have moved the line. -/
theorem survives_iff (ln position : Nat) (edits : List (Edit α)) :
    Survives ln position edits ↔
      ∀ earlier e later, edits = earlier ++ e :: later → e.start ≤ ln →
        e.stop + removedAbove ln earlier < position + addedAbove ln earlier := by
  induction edits generalizing position with
  | nil => simp [Survives]
  | cons first rest ih =>
    have ho := first.ordered
    have hpos := first.start_pos
    constructor
    · intro hs earlier e later hsp hr
      cases earlier with
      | nil =>
        rw [nil_append, List.cons.injEq] at hsp
        rw [Survives, hsp.1, if_pos hr] at hs
        simpa [removedAbove, addedAbove] using hs.1
      | cons head tail =>
        rw [cons_append, List.cons.injEq] at hsp
        obtain ⟨rfl, hsp⟩ := hsp
        by_cases ha : first.start ≤ ln
        · rw [Survives, if_pos ha] at hs
          have hb := (ih _).mp hs.2 tail e later hsp hr
          have hc := hs.1
          simp only [removedAbove, addedAbove, filter_cons, ha, decide_true, if_true,
            map_cons, sum_cons, Edit.width] at hb ⊢
          omega
        · rw [Survives, if_neg ha] at hs
          have hb := (ih _).mp hs tail e later hsp hr
          simpa [removedAbove, addedAbove, filter_cons, ha] using hb
    · intro hbo
      by_cases ha : first.start ≤ ln
      · have hc : first.stop < position := by
          simpa [removedAbove, addedAbove] using hbo [] first rest rfl ha
        rw [Survives, if_pos ha]
        refine ⟨hc, (ih _).mpr fun earlier e later hsp hr => ?_⟩
        have hb := hbo (first :: earlier) e later (by rw [hsp, cons_append]) hr
        simp only [removedAbove, addedAbove, filter_cons, ha, decide_true, if_true,
          map_cons, sum_cons, Edit.width] at hb ⊢
        omega
      · rw [Survives, if_neg ha]
        refine (ih _).mpr fun earlier e later hsp hr => ?_
        have hb := hbo (first :: earlier) e later (by rw [hsp, cons_append]) hr
        simpa [removedAbove, addedAbove, filter_cons, ha] using hb

theorem mem_survivors_iff (hd : DescendingStarts edits) (line : Nat) (first : 1 ≤ line)
    (last : line ≤ lines.length) : line ∈ survivors lines edits ↔ Survives line line edits := by
  obtain ⟨bound, hh, hb⟩ : ∃ bound, line < bound ∧ ∀ e ∈ edits, e.start ≤ bound := by
    cases edits with
    | nil => exact ⟨line + 1, by omega, by simp⟩
    | cons e rest =>
      refine ⟨line + 1 + e.start, by omega, ?_⟩
      intro o mem
      rcases mem_cons.mp mem with rfl | later
      · omega
      · have := (pairwise_cons.mp hd).1 o later
        omega
  have hp := placed_original line lines.length bound first last hh
  have hn := hp.mem_spliceAll_iff (edits.map (Edit.map fun _ => none))
    (by simp [Edit.map]) (by simpa [Edit.map] using hb)
    (by simpa [DescendingStarts, pairwise_map, Edit.map] using hd)
  rw [survives_map, ← markedSplice_snd] at hn
  rw [← hn, survivors]
  simp [mem_filterMap]

def Outside (line : Nat) : Prop := ∀ e ∈ edits, ¬ e.covers line

instance (edits : List (Edit α)) (line : Nat) : Decidable (Outside edits line) :=
  inferInstanceAs (Decidable (∀ e ∈ edits, ¬ e.covers line))

/-- `edits.sort(key=start, reverse=True)`: a stable sort. -/
def sortDescending : List (Edit α) := edits.insertionSort fun a b => b.start ≤ a.start

theorem sortDescending_descending : DescendingStarts (sortDescending edits) := by
  have ht : Std.Total fun a b : Edit α => b.start ≤ a.start :=
    ⟨fun a b => Nat.le_total b.start a.start⟩
  have htr : IsTrans (Edit α) fun a b => b.start ≤ a.start := ⟨fun _ _ _ ab bc => bc.trans ab⟩
  exact pairwise_insertionSort _ edits

theorem filter_eq_iff_of_sublist {kept all : List Nat} (sub : kept.Sublist all) (hn : all.Nodup)
    (p : Nat → Bool) : kept.filter p = all.filter p ↔ ∀ x ∈ all, p x → x ∈ kept := by
  constructor
  · intro hs x mem holds
    have ha : x ∈ all.filter p := mem_filter.mpr ⟨mem, holds⟩
    rw [← hs] at ha
    exact (mem_filter.mp ha).1
  · intro here
    refine (sub.filter p).eq_of_length_le ?_
    have hsu : all.filter p ⊆ kept.filter p := by
      intro x mem
      obtain ⟨ha, holds⟩ := mem_filter.mp mem
      exact mem_filter.mpr ⟨here x ha holds, holds⟩
    exact (subperm_of_subset (hn.filter p) hsu).length_le

/-- The lines outside all edits are kept, each once and in order, exactly when
each of them survives. -/
theorem outside_kept_iff (hd : DescendingStarts edits) :
    (survivors lines edits).filter (fun ln => Outside edits ln) =
        (List.range' 1 lines.length).filter (fun ln => Outside edits ln) ↔
      ∀ ln, 1 ≤ ln → ln ≤ lines.length → Outside edits ln → Survives ln ln edits := by
  rw [filter_eq_iff_of_sublist (survivors_sublist lines edits) nodup_range']
  constructor
  · intro here ln first last ho
    have mem : ln ∈ List.range' 1 lines.length := by
      rw [mem_range'_1]
      omega
    exact (mem_survivors_iff lines edits hd ln first last).mp (here ln mem (decide_eq_true ho))
  · intro hs ln mem ho
    rw [mem_range'_1] at mem
    exact (mem_survivors_iff lines edits hd ln mem.1 (by omega)).mpr
      (hs ln mem.1 (by omega) (of_decide_eq_true ho))

end Survivors

section Disjoint

variable {α : Type}

def Edit.Apart (e other : Edit α) : Prop := e.stop < other.start ∨ other.stop < e.start

instance (e other : Edit α) : Decidable (e.Apart other) := inferInstanceAs (Decidable (_ ∨ _))

variable (edits : List (Edit α))

/-- What a numbered line becomes: the first line of a span makes way for the new
lines, the rest of the span for nothing. -/
def lineAfter (entry : α × Nat) : List α :=
  match edits.find? fun e => e.covers entry.2 with
  | none => [entry.1]
  | some e => if entry.2 = e.start then e.new else []

/-- Each span replaced by its new lines, and every other line kept. -/
def replaceSpans (lines : List α) : List α := (lines.zipIdx 1).flatMap (lineAfter edits)

theorem spliceAll_append (front back : List α) (edits : List (Edit α))
    (hi : ∀ e ∈ edits, e.stop ≤ front.length) (hd : DescendingStarts edits)
    (hap : edits.Pairwise Edit.Apart) :
    spliceAll (front ++ back) edits = spliceAll front edits ++ back := by
  induction edits generalizing front with
  | nil => rfl
  | cons e rest ih =>
    obtain ⟨hw, hi⟩ := forall_mem_cons.mp hi
    obtain ⟨hs, hd⟩ := pairwise_cons.mp hd
    obtain ⟨away, hap⟩ := pairwise_cons.mp hap
    have ho := e.ordered
    have ha : e.apply (front ++ back) = e.apply front ++ back := by
      rw [Edit.apply, take_append_of_le_length (by omega),
        drop_append_of_le_length hw, Edit.apply]
      simp
    rw [spliceAll_cons, ha, spliceAll_cons]
    refine ih _ (fun o mem => ?_) hd hap
    have := o.ordered
    have := hs o mem
    have := away o mem
    simp only [Edit.apply, length_append, length_take, length_drop, Edit.Apart] at *
    omega

theorem flatMap_zipIdx_kept (f : α × Nat → List α) (lines : List α) (first : Nat)
    (hk : ∀ text ln, first ≤ ln → f (text, ln) = [text]) :
    (lines.zipIdx first).flatMap f = lines := by
  induction lines generalizing first with
  | nil => rfl
  | cons text rest ih =>
    rw [zipIdx_cons, flatMap_cons, hk text first (Nat.le_refl first),
      ih (first + 1) fun text ln hl => hk text ln (by omega)]
    rfl

theorem replaceSpans_cons (e : Edit α) {rest : List (Edit α)} {lines : List α}
    (hi : e.stop ≤ lines.length) (ha : ∀ other ∈ rest, other.stop < e.start) :
    replaceSpans (e :: rest) lines =
      replaceSpans rest (lines.take (e.start - 1)) ++ e.new ++ lines.drop e.stop := by
  have hpos := e.start_pos
  have hor := e.ordered
  have own : ∀ t ln, e.covers ln →
      lineAfter (e :: rest) (t, ln) = if ln = e.start then e.new else [] := by
    intro t ln hc
    simp [lineAfter, hc]
  have other : ∀ t ln, ¬ e.covers ln →
      lineAfter (e :: rest) (t, ln) = lineAfter rest (t, ln) := by
    intro t ln ho
    simp [lineAfter, ho]
  obtain ⟨front, first, span, back, rfl, hp, hs⟩ : ∃ front first span back,
      lines = front ++ first :: (span ++ back) ∧ front.length + 1 = e.start ∧
        e.start + span.length = e.stop := by
    refine ⟨lines.take (e.start - 1), lines[e.start - 1], (lines.drop e.start).take
      (e.stop - e.start), lines.drop e.stop, ?_, ?_, ?_⟩
    · have tail : lines.drop e.stop = (lines.drop e.start).drop (e.stop - e.start) := by
        rw [drop_drop, Nat.add_sub_cancel' hor]
      have head : lines[e.start - 1] :: lines.drop e.start = lines.drop (e.start - 1) := by
        rw [drop_eq_getElem_cons (show e.start - 1 < lines.length by omega),
          Nat.sub_add_cancel hpos]
      rw [tail, take_append_drop, head, take_append_drop]
    · rw [length_take]
      omega
    · rw [length_take, length_drop]
      omega
  have old : (front ++ first :: (span ++ back)).take (e.start - 1) = front := by
    rw [← hp, Nat.add_sub_cancel, take_left']
    rfl
  have haf : (front ++ first :: (span ++ back)).drop e.stop = back := by
    have : e.stop = (front ++ first :: span).length := by simp; omega
    simp [this]
  rw [old, haf, replaceSpans, zipIdx_append, flatMap_append, zipIdx_cons,
    flatMap_cons, zipIdx_append, flatMap_append]
  have hu : (front.zipIdx 1).flatMap (lineAfter (e :: rest)) = replaceSpans rest front := by
    refine congrArg List.flatten (map_congr_left fun entry mem => ?_)
    have := (mem_zipIdx (x := entry.1) (i := entry.2) mem).2.1
    exact other _ _ fun hc => by
      have := hc.1
      omega
  have hr : (span.zipIdx (1 + front.length + 1)).flatMap (lineAfter (e :: rest)) = [] := by
    refine flatMap_eq_nil_iff.mpr fun entry mem => ?_
    have := mem_zipIdx (x := entry.1) (i := entry.2) mem
    exact (own _ _ ⟨by omega, by omega⟩).trans (if_neg (by omega))
  have hk : (back.zipIdx (1 + front.length + 1 + span.length)).flatMap (lineAfter (e :: rest)) =
      back := by
    refine flatMap_zipIdx_kept _ back _ fun t ln hl => ?_
    rw [other t ln fun hc => by have := hc.2; omega]
    have none : rest.find? (fun e => e.covers ln) = none := by
      refine List.find?_eq_none.mpr fun other mem hc => ?_
      have := ha other mem
      have := (of_decide_eq_true hc).2
      omega
    simp [lineAfter, none]
  rw [hu, hr, hk, own first _ ⟨by omega, by omega⟩, if_pos (by omega)]
  simp

theorem spliceAll_eq_replaceSpans (lines : List α)
    (hi : ∀ e ∈ edits, e.stop ≤ lines.length) (hd : DescendingStarts edits)
    (hap : edits.Pairwise Edit.Apart) : spliceAll lines edits = replaceSpans edits lines := by
  induction edits generalizing lines with
  | nil => exact (flatMap_zipIdx_kept _ lines 1 fun _ _ _ => rfl).symm
  | cons e rest ih =>
    obtain ⟨hw, hi⟩ := forall_mem_cons.mp hi
    obtain ⟨hs, hd⟩ := pairwise_cons.mp hd
    obtain ⟨away, hap⟩ := pairwise_cons.mp hap
    have ha : ∀ o ∈ rest, o.stop < e.start := by
      intro o mem
      have := hs o mem
      have := e.ordered
      rcases away o mem with hb | ha
      · omega
      · exact ha
    have hr : ∀ o ∈ rest, o.stop ≤ (lines.take (e.start - 1)).length := by
      intro o mem
      have := ha o mem
      have := e.ordered
      rw [length_take]
      omega
    rw [spliceAll_cons, Edit.apply, append_assoc, spliceAll_append _ _ _ hr hd hap,
      ih _ hr hd hap, replaceSpans_cons e hw ha, append_assoc]

theorem find?_covers_iff {edits : List (Edit α)} (hap : edits.Pairwise Edit.Apart) (line : Nat)
    (e : Edit α) : edits.find? (fun e => e.covers line) = some e ↔ e ∈ edits ∧ e.covers line := by
  have hs : ∀ o, edits.find? (fun e => e.covers line) = some o →
      o ∈ edits ∧ o.covers line := fun o hf =>
    ⟨mem_of_find?_eq_some hf, by simpa using List.find?_some hf⟩
  refine ⟨hs e, fun ⟨mem, hc⟩ => ?_⟩
  cases hf : edits.find? fun e => e.covers line with
  | none => exact absurd hc (by simpa using List.find?_eq_none.mp hf e mem)
  | some o =>
    obtain ⟨hl, hr⟩ := hs o hf
    have hsy : Std.Symm (Edit.Apart (α := α)) := ⟨fun _ _ => Or.symm⟩
    refine congrArg some (not_not.mp fun hd => ?_)
    rcases hap.forall hl mem hd with hb | ha
    · exact absurd (hb.trans_le hc.1) (Nat.not_lt.mpr hr.2)
    · exact absurd (ha.trans_le hr.1) (Nat.not_lt.mpr hc.2)

theorem replaceSpans_perm {edits others : List (Edit α)} (hp : edits.Perm others)
    (ha : edits.Pairwise Edit.Apart) (lines : List α) :
    replaceSpans edits lines = replaceSpans others lines := by
  have ha' := (hp.pairwise_iff fun away => Or.symm away).mp ha
  have hs : lineAfter edits = lineAfter others := by
    funext entry
    have hf : (edits.find? fun e => e.covers entry.2) = others.find? fun e => e.covers entry.2 :=
      Option.ext fun e => by
        rw [find?_covers_iff ha, find?_covers_iff ha', hp.mem_iff]
    rw [lineAfter, lineAfter, hf]
  rw [replaceSpans, replaceSpans, hs]

end Disjoint

end Apme.Lib
