import Apme.Lib.Text

/-!
# Names listed in one text

A list of names is written as one text with a separator between them.  Reading
it back cuts at the separator, strips every part and drops the blank ones.
-/

set_option autoImplicit false

namespace Apme.Lib

open List

namespace Text

variable (text : Text)

theorem lstrip_eq_self_iff : lstrip text = text ↔ ∀ c, text.head? = some c → isSpace c = false := by
  cases text with
  | nil => simp [lstrip]
  | cons c rest =>
    rw [lstrip, dropWhile_eq_self_iff]
    simp

theorem rstrip_rstrip : rstrip (rstrip text) = rstrip text := rdropWhile_idempotent isSpace text

theorem lstrip_rstrip_of_lstrip (hs : lstrip text = text) :
    lstrip (rstrip text) = rstrip text := by
  rw [lstrip_eq_self_iff] at hs ⊢
  intro c first
  refine hs c ?_
  have hst : rstrip text <+: text := rdropWhile_prefix isSpace text
  obtain ⟨tail, hw⟩ := hst
  rw [← hw, List.head?_append, first, Option.some_or]

@[simp]
theorem strip_strip : strip (strip text) = strip text := by
  have ho : lstrip (lstrip text) = lstrip text := dropWhile_idempotent isSpace text
  rw [strip, strip, lstrip_rstrip_of_lstrip _ ho, rstrip_rstrip]

section Fields

def fields (separator : Char) (text : Text) : List Text :=
  ((text.splitOn separator).map strip).filter fun name => name ≠ []

def joinFields (separator : Char) (names : List Text) : Text := [separator].intercalate names

variable (separator : Char)

theorem not_mem_of_mem_splitOn (t part : Text) (mem : part ∈ t.splitOn separator) :
    separator ∉ part := by
  induction t generalizing part with
  | nil =>
    rw [splitOn_nil, mem_singleton] at mem
    simp [mem]
  | cons c rest ih =>
    rw [splitOn_cons_eq_if_modifyHead] at mem
    split at mem
    next =>
      rcases mem_cons.mp mem with rfl | hl
      · exact not_mem_nil
      · exact ih part hl
    next ho =>
      cases hp : rest.splitOn separator with
      | nil => exact absurd hp (splitOn_ne_nil separator rest)
      | cons first more =>
        rw [hp] at mem ih
        rcases mem_cons.mp mem with rfl | hl
        · intro hi
          rcases mem_cons.mp hi with hs | hf
          · exact ho (by simp [hs])
          · exact ih first mem_cons_self hf
        · exact ih part (mem_cons_of_mem first hl)

theorem splitOn_joinFields {names : List Text} (some : names ≠ []) :
    (joinFields separator names).splitOn separator = names.flatMap (List.splitOn separator) := by
  induction names with
  | nil => exact absurd rfl some
  | cons name rest ih =>
    cases rest with
    | nil => simp [joinFields]
    | cons next m =>
      have hj : joinFields separator (name :: next :: m) =
          name ++ separator :: joinFields separator (next :: m) := by
        simp [joinFields, List.intercalate, List.intersperse]
      rw [hj, splitOn_append_cons_self, ih (cons_ne_nil next m)]
      exact flatMap_cons.symm

theorem mem_fields_iff (t name : Text) :
    name ∈ fields separator t ↔ name ≠ [] ∧ ∃ part ∈ t.splitOn separator, strip part = name := by
  simp [fields, and_comm]

theorem mem_fields_joinFields (names : List Text) (name : Text) :
    name ∈ fields separator (joinFields separator names) ↔
      ∃ part ∈ names, name ∈ fields separator part := by
  by_cases none : names = []
  · subst none
    simp [joinFields, fields, strip, lstrip, rstrip]
  · simp only [mem_fields_iff, splitOn_joinFields separator none, mem_flatMap]
    constructor
    · rintro ⟨hn, part, ⟨whole, hm, hw⟩, hs⟩
      exact ⟨whole, hm, hn, part, hw, hs⟩
    · rintro ⟨whole, hm, hn, part, hw, hs⟩
      exact ⟨hn, part, ⟨whole, hm, hw⟩, hs⟩

theorem fields_of_mem_fields {t name : Text} (mem : name ∈ fields separator t) :
    fields separator name = [name] := by
  obtain ⟨ne, part, ht, rfl⟩ := (mem_fields_iff separator t name).mp mem
  have hp : ∀ c ∈ strip part, c ∈ part := fun c hi =>
    (dropWhile_suffix isSpace).subset ((List.rdropWhile_prefix isSpace _).subset hi)
  have ha : separator ∉ strip part := fun hi =>
    not_mem_of_mem_splitOn separator t part ht (hp separator hi)
  have hs : (strip part).splitOn separator = [strip part] := splitOn_eq_singleton ha
  simp [fields, hs, ne]

end Fields

end Text

end Apme.Lib
