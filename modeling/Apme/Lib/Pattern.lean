import Apme.Lib.Text

/-!
# Substitution of patterns

`substitute` is `re.sub` for a matcher.  It reads a text from the left: at each
position it puts in what the matcher gives for the rest of the text and skips the
matched characters, or else keeps the character.  A text can be cut where no
match goes across.

A pattern is a sequence of words, optional characters and runs of characters, of
which the first part is kept and the second replaced.  A piece never gives back
what it has read, which is the host language's reading where what follows it
cannot begin with a character of it.
-/

set_option autoImplicit false

namespace Apme.Lib

open List

section Substitute

variable (m : Text → Option (Text × Nat))

def substituteFrom : Nat → Text → Text
  | _, [] => []
  | skip + 1, _ :: rest => substituteFrom skip rest
  | 0, c :: rest =>
    match m (c :: rest) with
    | some (new, size) => new ++ substituteFrom (size - 1) rest
    | none => c :: substituteFrom 0 rest

def substitute (t : Text) : Text := substituteFrom m 0 t

variable {m}

theorem substitute_cons {c : Char} {t : Text} (h : m (c :: t) = none) :
    substitute m (c :: t) = c :: substitute m t := by
  rw [substitute, substituteFrom, h, substitute]

theorem substitute_eq_self {t : Text} (h : ∀ s, s <:+ t → m s = none) : substitute m t = t := by
  induction t with
  | nil => rfl
  | cons c t ih => rw [substitute_cons (h _ suffix_rfl), ih fun s hs => h s (hs.trans (suffix_cons ..))]

theorem substituteFrom_all {skip : Nat} {t : Text} (h : t.length ≤ skip) :
    substituteFrom m skip t = [] := by
  induction t generalizing skip with
  | nil => cases skip <;> rfl
  | cons c t ih =>
    obtain ⟨k, rfl⟩ := Nat.exists_eq_add_of_le' (Nat.zero_lt_of_lt h)
    exact ih (by simpa using h)

theorem substitute_whole {t new : Text} (h : m t = some (new, t.length)) (hn : t ≠ []) :
    substitute m t = new := by
  obtain ⟨c, t, rfl⟩ := exists_cons_of_ne_nil hn
  rw [substitute, substituteFrom, h]
  simp [substituteFrom_all]

theorem substitute_append {p q : Text} (hm : ∀ s, s <:+ p → s ≠ [] → m (s ++ q) = m s)
    (hl : ∀ s new size, m s = some (new, size) → size ≤ s.length) :
    substitute m (p ++ q) = substitute m p ++ substitute m q := by
  suffices h : ∀ skip ≤ p.length,
      substituteFrom m skip (p ++ q) = substituteFrom m skip p ++ substitute m q from h 0 (by simp)
  induction p with
  | nil =>
    intro skip hs
    rw [Nat.le_zero.mp hs]
    rfl
  | cons c p ih =>
    have ih := ih fun s hs => hm s (hs.trans (suffix_cons ..))
    intro skip hs
    cases skip with
    | succ skip => exact ih skip (by simpa using hs)
    | zero =>
      have hc := hm _ suffix_rfl (cons_ne_nil c p)
      simp only [cons_append] at hc
      simp only [cons_append, substituteFrom, hc]
      cases hf : m (c :: p) with
      | none => simp [ih 0 (by simp)]
      | some found =>
        have hle := hl _ _ _ hf
        simp only [length_cons] at hle
        simp [ih (found.2 - 1) (by omega)]

end Substitute

inductive Piece
  | word (w : Text)
  | optional (c : Char)
  | many (p : Char → Bool) (least : Nat)

variable (fold : Char → Char)

/-- The characters a piece reads from the start of a text. -/
def Piece.size : Piece → Text → Option Nat
  | .word w, t => if (t.take w.length).map fold = w then some w.length else none
  | .optional c, t => if t.head?.map fold = some c then some 1 else some 0
  | .many p least, t =>
    if least ≤ (t.takeWhile p).length then some (t.takeWhile p).length else none

def matchSize : List Piece → Text → Option Nat
  | [], _ => some 0
  | piece :: ps, t => do
    let size ← piece.size fold t
    let more ← matchSize ps (t.drop size)
    some (size + more)

structure Pattern where
  head : List Piece
  rest : List Piece
  new : Text

def Pattern.find (p : Pattern) (t : Text) : Option (Text × Nat) := do
  let size ← matchSize fold p.head t
  let more ← matchSize fold p.rest (t.drop size)
  some (t.take size ++ p.new, size + more)

def Pattern.replace (p : Pattern) : Text → Text := substitute (p.find fold)

def Piece.Reads (d : Char) : Piece → Prop
  | .word w => fold d ∈ w
  | .optional c => fold d = c
  | .many p _ => p d

variable {fold} {ps : List Piece} {d : Char} {s t : Text} {n : Nat}

theorem Piece.size_le {piece : Piece} (h : piece.size fold t = some n) : n ≤ t.length := by
  cases piece with
  | word w =>
    obtain ⟨hw, hn⟩ := Option.ite_none_right_eq_some.mp h
    cases hn
    have hl := congrArg length hw
    simp only [length_map, length_take] at hl
    omega
  | optional c =>
    cases t with
    | nil => simp_all [Piece.size]
    | cons a t =>
      simp only [Piece.size] at h
      split_ifs at h <;> cases h <;> simp
  | many p least =>
    obtain ⟨-, hn⟩ := Option.ite_none_right_eq_some.mp h
    cases hn
    exact (takeWhile_sublist p).length_le

theorem matchSize_le (h : matchSize fold ps t = some n) : n ≤ t.length := by
  induction ps generalizing t n with
  | nil =>
    cases h
    simp
  | cons piece ps ih =>
    simp only [matchSize, Option.bind_eq_bind, Option.bind_eq_some_iff] at h
    obtain ⟨size, hs, more, hm, hn⟩ := h
    have h1 := Piece.size_le hs
    have h2 := ih hm
    simp only [length_drop, Option.some.injEq] at h2 hn
    omega

theorem takeWhile_append_of_not {p : Char → Bool} (hd : ¬ p d) (q : Text) :
    (s ++ d :: q).takeWhile p = s.takeWhile p := by
  induction s with
  | nil => simp [hd]
  | cons a s ih => by_cases ha : p a <;> simp [ha, ih]

theorem Piece.size_word_append {w : Text} (hl : w.length ≤ s.length) (q : Text) :
    (word w).size fold (s ++ q) = (word w).size fold s := by
  simp only [Piece.size, take_append_of_le_length hl]

theorem Piece.size_word_short {w : Text} (hl : s.length < w.length) :
    (word w).size fold s = none := by
  refine if_neg fun hw => ?_
  have hn := congrArg length hw
  simp only [length_map, length_take] at hn
  omega

/-- The word that is read over the end of `s` has the next character at its place. -/
theorem Piece.getElem_word {w q : Text} (hl : s.length < w.length)
    (h : (word w).size fold (s ++ d :: q) ≠ none) : w[s.length]? = some (fold d) := by
  have hw : ((s ++ d :: q).take w.length).map fold = w := by
    by_contra hw
    exact h (if_neg hw)
  rw [← hw, getElem?_map, getElem?_take_of_lt hl, getElem?_append_right le_rfl]
  simp

theorem Piece.size_append {piece : Piece} (hd : ¬ piece.Reads fold d) (q : Text) :
    piece.size fold (s ++ d :: q) = piece.size fold s := by
  cases piece with
  | word w =>
    rcases le_or_gt w.length s.length with hl | hl
    · exact Piece.size_word_append hl _
    · rw [Piece.size_word_short hl]
      by_contra h
      exact hd (mem_of_getElem? (Piece.getElem_word hl h))
  | optional c =>
    cases s with
    | nil => simp [Piece.size, show ¬ fold d = c from hd]
    | cons a s => rfl
  | many p least => simp only [Piece.size, takeWhile_append_of_not hd]

theorem matchSize_cons_append {piece : Piece} {q : Text}
    (hp : piece.size fold (s ++ q) = piece.size fold s)
    (h : ∀ s, matchSize fold ps (s ++ q) = matchSize fold ps s) :
    matchSize fold (piece :: ps) (s ++ q) = matchSize fold (piece :: ps) s := by
  rw [matchSize, matchSize, hp]
  cases hs : piece.size fold s with
  | none => rfl
  | some size =>
    simp only [Option.bind_eq_bind, Option.bind_some]
    rw [drop_append_of_le_length (Piece.size_le hs), h]

theorem matchSize_append (hd : ∀ piece ∈ ps, ¬ piece.Reads fold d) (q s : Text) :
    matchSize fold ps (s ++ d :: q) = matchSize fold ps s := by
  induction ps generalizing s with
  | nil => rfl
  | cons piece ps ih =>
    obtain ⟨hp, hps⟩ := forall_mem_cons.mp hd
    exact matchSize_cons_append (Piece.size_append hp q) (ih hps)

theorem exists_of_matchSize {p : Char → Bool} (hp : .many p (n + 1) ∈ ps) {k : Nat}
    (h : matchSize fold ps t = some k) : ∃ c ∈ t, p c := by
  induction ps generalizing t k with
  | nil => cases hp
  | cons piece ps ih =>
    simp only [matchSize, Option.bind_eq_bind, Option.bind_eq_some_iff] at h
    obtain ⟨size, hs, more, hm, -⟩ := h
    rcases mem_cons.mp hp with rfl | hp
    · obtain ⟨hn, -⟩ := Option.ite_none_right_eq_some.mp hs
      obtain ⟨c, hc⟩ := exists_mem_of_length_pos (by omega : 0 < (t.takeWhile p).length)
      exact ⟨c, (takeWhile_sublist p).subset hc, mem_takeWhile_imp hc⟩
    · obtain ⟨c, hc, hpc⟩ := ih hp hm
      exact ⟨c, mem_of_mem_drop hc, hpc⟩

section Exact

theorem matchSize_word {w : Text} : matchSize id (.word w :: ps) t = some n ↔
    ∃ t' k, t = w ++ t' ∧ matchSize id ps t' = some k ∧ n = w.length + k := by
  simp only [matchSize, Piece.size, map_id, Option.bind_eq_bind, Option.bind_eq_some_iff,
    Option.ite_none_right_eq_some, Option.some.injEq]
  constructor
  · rintro ⟨size, ⟨hw, rfl⟩, k, hk, rfl⟩
    exact ⟨t.drop w.length, k, (take_append_drop ..).symm.trans (by rw [hw]), hk, rfl⟩
  · rintro ⟨t', k, rfl, hk, rfl⟩
    exact ⟨_, ⟨take_left, rfl⟩, k, by rwa [drop_left], rfl⟩

theorem matchSize_optional {c : Char} : matchSize id (.optional c :: ps) t = some n ↔
    (∃ t' k, t = c :: t' ∧ matchSize id ps t' = some k ∧ n = 1 + k) ∨
      t.head? ≠ some c ∧ matchSize id ps t = some n := by
  rcases t with _ | ⟨a, t⟩
  · simp [matchSize, Piece.size]
  · by_cases ha : a = c
    · simp [matchSize, Piece.size, ha, Option.bind_eq_some_iff, @eq_comm _ n]
    · simp [matchSize, Piece.size, ha]

theorem matchSize_until : matchSize id [.many (· ≠ d) 1, .word [d]] t = some n ↔
    ∃ s t', t = s ++ d :: t' ∧ s ≠ [] ∧ d ∉ s ∧ n = s.length + 1 := by
  rw [matchSize]
  simp only [Option.bind_eq_bind, Option.bind_eq_some_iff, matchSize_word, Piece.size,
    Option.ite_none_right_eq_some, Option.some.injEq]
  constructor
  · rintro ⟨size, ⟨hl, rfl⟩, more, ⟨t', k, ht, hk, rfl⟩, rfl⟩
    cases hk
    refine ⟨t.takeWhile (· ≠ d), t', ?_, ne_nil_of_length_pos hl, fun hm => ?_, rfl⟩
    · rw [← singleton_append, ← ht]
      exact (prefix_iff_eq_append.mp ( takeWhile_prefix _)).symm
    · simpa using mem_takeWhile_imp hm
  · rintro ⟨s, t', rfl, hs, hd, rfl⟩
    obtain ⟨ht, -⟩ := Text.takeWhile_before (p := (· ≠ d)) (c := d)
      (fun c hc => decide_eq_true fun h => hd (h ▸ hc)) (by simp) t'
    rw [ht]
    exact ⟨_, ⟨length_pos_iff.mpr hs, rfl⟩, 1, ⟨t', 0, drop_left, rfl, rfl⟩, rfl⟩

end Exact

namespace Pattern

variable {p : Pattern}

theorem find_le {new : Text} (h : p.find fold t = some (new, n)) : n ≤ t.length := by
  simp only [find, Option.bind_eq_bind, Option.bind_eq_some_iff] at h
  obtain ⟨size, hs, more, hm, hn⟩ := h
  have h1 := matchSize_le hs
  have h2 := matchSize_le hm
  simp only [length_drop, Option.some.injEq, Prod.mk.injEq] at h2 hn
  omega

theorem replace_cons (h : p.find fold (d :: t) = none) :
    p.replace fold (d :: t) = d :: p.replace fold t :=
  substitute_cons h

theorem find_append {q : Text} (hh : ∀ s, matchSize fold p.head (s ++ q) = matchSize fold p.head s)
    (hr : ∀ s, matchSize fold p.rest (s ++ q) = matchSize fold p.rest s) :
    p.find fold (s ++ q) = p.find fold s := by
  rw [find, find, hh]
  cases hs : matchSize fold p.head s with
  | none => rfl
  | some size =>
    have hl := matchSize_le hs
    simp only [Option.bind_eq_bind, Option.bind_some]
    rw [drop_append_of_le_length hl, take_append_of_le_length hl, hr]

/-- The text is cut at a character that no match goes across. -/
theorem replace_append (hn : p.find fold [] = none)
    (hh : ∀ s, matchSize fold p.head (s ++ d :: t) = matchSize fold p.head s)
    (hr : ∀ s, matchSize fold p.rest (s ++ d :: t) = matchSize fold p.rest s) :
    p.replace fold (s ++ d :: t) = p.replace fold s ++ d :: p.replace fold t := by
  rw [replace, substitute_append (fun s _ _ => find_append hh hr) (fun _ _ _ hf => find_le hf),
    substitute_cons ((find_append (s := []) hh hr).trans hn)]

theorem replace_unread (hn : p.find fold [] = none)
    (hd : ∀ piece ∈ p.head ++ p.rest, ¬ piece.Reads fold d) :
    p.replace fold (s ++ d :: t) = p.replace fold s ++ d :: p.replace fold t := by
  obtain ⟨hh, hr⟩ := forall_mem_append.mp hd
  exact replace_append hn (matchSize_append hh t) (matchSize_append hr t)

theorem replace_eq_self {cls : Char → Bool} (hc : .many cls (n + 1) ∈ p.head)
    (hn : ∀ c ∈ t, ¬ cls c) : p.replace fold t = t := by
  refine substitute_eq_self fun s hs => ?_
  rw [Option.eq_none_iff_forall_ne_some]
  intro found hf
  simp only [find, Option.bind_eq_bind, Option.bind_eq_some_iff] at hf
  obtain ⟨size, hm, -⟩ := hf
  obtain ⟨c, hm, hp⟩ := exists_of_matchSize hc hm
  exact hn c (hs.subset hm) hp

end Pattern

end Apme.Lib
