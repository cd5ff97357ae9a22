import Mathlib.Data.List.DropRight

/-!
# Text as the host language sees it

A text is its list of code points.  `splitLines` cuts a text after every line
boundary the host language knows, and keeps the boundaries, so that joining
the lines gives the text back.  White space is the Unicode notion used by the
stripping functions; every line boundary is white space.
-/

set_option autoImplicit false

namespace Apme.Lib

open List

abbrev Text := List Char

namespace Text

instance decidableMem (text : Text) (texts : List Text) : Decidable (text ∈ texts) :=
  inferInstance

/-- Characters that end a line (a carriage return followed by a line feed ends
one line only). -/
def isLineBreak (c : Char) : Bool :=
  let code := c.toNat
  (0x0a ≤ code && code ≤ 0x0d) || (0x1c ≤ code && code ≤ 0x1e) || code = 0x85 ||
    code = 0x2028 || code = 0x2029

def isSpace (c : Char) : Bool :=
  let code := c.toNat
  isLineBreak c || code = 0x09 || code = 0x1f || code = 0x20 || code = 0xa0 || code = 0x1680 ||
    (0x2000 ≤ code && code ≤ 0x200a) || code = 0x202f || code = 0x205f || code = 0x3000

/-- `text.splitlines(keepends=True)`. -/
def splitLines : Text → List Text
  | [] => []
  | c :: rest =>
    if isLineBreak c && !(c = '\r' && rest.head? = some '\n') then
      [c] :: splitLines rest
    else
      match splitLines rest with
      | [] => [[c]]
      | line :: lines => (c :: line) :: lines

variable (text : Text)

/-- `text.splitlines()`. -/
def lines : List Text := (splitLines text).map fun line => line.rdropWhile isLineBreak

def isBlank : Bool := text.all isSpace

def lstrip : Text := text.dropWhile isSpace

def rstrip : Text := text.rdropWhile isSpace

def strip : Text := rstrip (lstrip text)

/-- `text.rstrip("\n")`. -/
def rstripNewlines : Text := text.rdropWhile (· = '\n')

def endsWithNewline : Bool := text.getLast? = some '\n'

def dropFinalNewline : Text := if endsWithNewline text then text.dropLast else text

/-- The line list with a line feed added to its last line when it has none. -/
def terminateLast : List Text → List Text
  | [] => []
  | [line] => if endsWithNewline line then [line] else [line ++ ['\n']]
  | line :: next :: rest => line :: terminateLast (next :: rest)

/-- `text.split(sep, 1)`, if there are two parts. -/
def splitOnce (sep : Char) (text : Text) : Option (Text × Text) :=
  match text.dropWhile (· ≠ sep) with
  | [] => none
  | _ :: rest => some (text.takeWhile (· ≠ sep), rest)

/-- `text.replace(old, new)`; the first `skip` characters belong to an
occurrence that has been replaced. -/
def replaceAll (old new : Text) : Nat → Text → Text
  | _, [] => []
  | skip + 1, _ :: rest => replaceAll old new skip rest
  | 0, c :: rest =>
    if old <+: c :: rest then new ++ replaceAll old new (old.length - 1) rest
    else c :: replaceAll old new 0 rest

theorem takeWhile_before {p : Char → Bool} {front : Text} {c : Char} (all : ∀ d ∈ front, p d)
    (hs : p c = false) (rest : Text) :
    (front ++ c :: rest).takeWhile p = front ∧ (front ++ c :: rest).dropWhile p = c :: rest := by
  rw [takeWhile_append_of_pos all, dropWhile_append_of_pos all]
  simp [hs]

theorem splitOnce_eq_some {sep : Char} {t first rest : Text} :
    splitOnce sep t = some (first, rest) ↔ t = first ++ sep :: rest ∧ sep ∉ first := by
  constructor
  · intro hf
    have cut := takeWhile_append_dropWhile (p := (· ≠ sep)) (l := t)
    simp only [splitOnce] at hf
    split at hf
    next => cases hf
    next c back hd =>
      cases hf
      have stop : c = sep := by
        have head := List.head?_dropWhile_not (· ≠ sep) t
        rw [hd] at head
        simpa using head
      rw [hd, stop] at cut
      refine ⟨cut.symm, fun mem => ?_⟩
      simpa using mem_takeWhile_imp mem
  · rintro ⟨rfl, ha⟩
    obtain ⟨ht, hd⟩ := takeWhile_before (p := (· ≠ sep)) (c := sep)
      (fun c mem => decide_eq_true fun hs => ha (hs ▸ mem)) (by simp) rest
    simp only [splitOnce, ht, hd]

theorem append_cons_inj {sep : Char} {first first' rest rest' : Text}
    (hs : first ++ sep :: rest = first' ++ sep :: rest') (ha : sep ∉ first)
    (ha' : sep ∉ first') : first = first' ∧ rest = rest' := by
  have hf := splitOnce_eq_some.mpr ⟨hs, ha'⟩
  rw [splitOnce_eq_some.mpr ⟨rfl, ha⟩] at hf
  cases hf
  exact ⟨rfl, rfl⟩

variable (text : Text)

@[simp]
theorem endsWithNewline_concat (c : Char) : endsWithNewline (text ++ [c]) = decide (c = '\n') := by
  simp [endsWithNewline]

@[simp]
theorem dropFinalNewline_concat (c : Char) :
    dropFinalNewline (text ++ [c]) = if c = '\n' then text else text ++ [c] := by
  simp [dropFinalNewline]

variable (text tail : Text)

theorem dropFinalNewline_append (hm : tail ≠ []) :
    dropFinalNewline (text ++ tail) = text ++ dropFinalNewline tail := by
  obtain ⟨old, c, rfl⟩ := eq_nil_or_concat' tail |>.resolve_left hm
  rw [← append_assoc, dropFinalNewline_concat, dropFinalNewline_concat]
  split <;> simp

theorem dropFinalNewline_eq_nil (hm : text ≠ []) : dropFinalNewline text = [] ↔ text = ['\n'] := by
  obtain ⟨old, c, rfl⟩ := eq_nil_or_concat' text |>.resolve_left hm
  rw [dropFinalNewline_concat]
  split
  next hn => rw [hn, append_eq_singleton_iff]; simp
  next ho =>
    refine ⟨fun he => by simp at he, fun hs => ?_⟩
    have ends := (append_inj_right' (hs.trans (nil_append _).symm) rfl)
    exact absurd (List.cons.inj ends).1 ho

@[simp]
theorem rstripNewlines_concat (c : Char) :
    rstripNewlines (text ++ [c]) = if c = '\n' then rstripNewlines text else text ++ [c] := by
  rw [rstripNewlines, rdropWhile_concat]
  simp [rstripNewlines]

theorem rstripNewlines_append_newlines (hn : ∀ c ∈ tail, c = '\n') :
    rstripNewlines (text ++ tail) = rstripNewlines text := by
  induction tail using List.reverseRecOn with
  | nil => rw [append_nil]
  | append_singleton old c ih =>
    rw [← append_assoc, rstripNewlines_concat,
      if_pos (hn c (mem_append_right old mem_cons_self))]
    exact ih fun o mem => hn o (mem_append_left [c] mem)

theorem rstripNewlines_append (ho : ∃ c ∈ tail, c ≠ '\n') :
    rstripNewlines (text ++ tail) = text ++ rstripNewlines tail ∧ rstripNewlines tail ≠ [] := by
  induction tail using List.reverseRecOn with
  | nil => simp at ho
  | append_singleton old c ih =>
    rw [← append_assoc, rstripNewlines_concat, rstripNewlines_concat]
    split
    next hn =>
      refine ih ?_
      obtain ⟨d, hm, hd⟩ := ho
      rcases mem_append.mp hm with he | last
      · exact ⟨d, he, hd⟩
      · rw [mem_singleton.mp last] at hd
        exact absurd hn hd
    next => exact ⟨append_assoc text old [c], by simp⟩

theorem rstripNewlines_eq_self : rstripNewlines text = text ↔ endsWithNewline text = false := by
  rcases eq_nil_or_concat' text with rfl | ⟨old, c, rfl⟩
  · exact ⟨fun _ => rfl, fun _ => rfl⟩
  · rw [rstripNewlines_concat, endsWithNewline_concat]
    by_cases hn : c = '\n'
    · rw [if_pos hn]
      refine ⟨fun hs => ?_, fun hf => absurd hn (of_decide_eq_false hf)⟩
      have hsh : (rstripNewlines old).length ≤ old.length :=
        (List.rdropWhile_prefix _ old).length_le
      rw [hs, length_append, length_singleton] at hsh
      omega
    · rw [if_neg hn]
      exact ⟨fun _ => decide_eq_false hn, fun _ => rfl⟩

/-- Stripping all final newlines or only one of them is the same unless there
are two. -/
theorem rstripNewlines_eq_dropFinalNewline :
    rstripNewlines text = dropFinalNewline text ↔ ¬ ['\n', '\n'] <:+ text := by
  rcases eq_nil_or_concat' text with rfl | ⟨old, c, rfl⟩
  · exact ⟨fun _ => by simp, fun _ => rfl⟩
  · rw [rstripNewlines_concat, dropFinalNewline_concat]
    by_cases hn : c = '\n'
    · rw [if_pos hn, if_pos hn, rstripNewlines_eq_self, hn]
      rcases eq_nil_or_concat' old with rfl | ⟨first, d, rfl⟩
      · exact ⟨fun _ hsu => by simpa using hsu.length_le, fun _ => rfl⟩
      · have hd : ['\n', '\n'] <:+ first ++ [d] ++ ['\n'] ↔ d = '\n' := by
          rw [append_assoc]
          refine ⟨fun hsu => ?_, fun hs => ⟨first, by rw [hs]; rfl⟩⟩
          obtain ⟨front, heq⟩ := hsu
          have he := (append_inj_right' heq rfl)
          exact ((List.cons.inj he).1).symm
        rw [hd, endsWithNewline_concat, decide_eq_false_iff_not]
    · rw [if_neg hn, if_neg hn]
      refine ⟨fun _ hsu => ?_, fun _ => rfl⟩
      obtain ⟨front, heq⟩ := hsu
      have he : '\n' = c := by
        have last := congrArg List.getLast? heq
        simpa using last
      exact hn he.symm

/-! ## Percent encoding -/

def isAlwaysSafe (c : Char) : Bool := c.isAlphanum || c ∈ "_.-~".toList

def hexDigit (n : Nat) : Char := n.digitChar.toUpper

variable (safe : Text)

def quoteByte (b : UInt8) : Text :=
  if isAlwaysSafe (Char.ofUInt8 b) || Char.ofUInt8 b ∈ safe then [Char.ofUInt8 b]
  else ['%', hexDigit (b.toNat / 16), hexDigit (b.toNat % 16)]

/-- `urllib.parse.quote`, over the UTF-8 bytes of the text. -/
def quote (text : Text) : Text := (text.flatMap String.utf8EncodeChar).flatMap (quoteByte safe)

variable {safe}

theorem hexDigit_inj : ∀ m n : Fin 16, hexDigit m = hexDigit n → m = n := by decide

theorem ofUInt8_inj {a b : UInt8} (h : Char.ofUInt8 a = Char.ofUInt8 b) : a = b := by
  exact UInt8.toUInt32_inj.mp (congrArg Char.val h)

theorem not_safe {c : Char} (hc : isAlwaysSafe c = false) (hs : c ∉ safe) {b : UInt8}
    (hb : isAlwaysSafe (Char.ofUInt8 b) || Char.ofUInt8 b ∈ safe) : Char.ofUInt8 b ≠ c := by
  rintro rfl
  simp [hc, hs] at hb

theorem quoteByte_append_inj (hp : '%' ∉ safe) {a b : UInt8} {s t : Text}
    (h : quoteByte safe a ++ s = quoteByte safe b ++ t) : a = b ∧ s = t := by
  have hp' := @not_safe safe '%' (by decide) hp
  unfold quoteByte at h
  split_ifs at h with ha hb hb
  · obtain ⟨hc, hr⟩ := cons.inj h
    exact ⟨ofUInt8_inj hc, hr⟩
  · exact absurd (cons.inj h).1 (hp' ha)
  · exact absurd (cons.inj h).1.symm (hp' hb)
  · simp only [cons_append, nil_append, cons.injEq, true_and] at h
    obtain ⟨high, low, hr⟩ := h
    have hh := hexDigit_inj ⟨a.toNat / 16, by have := a.toNat_lt; omega⟩
      ⟨b.toNat / 16, by have := b.toNat_lt; omega⟩ high
    have hl := hexDigit_inj ⟨a.toNat % 16, by omega⟩ ⟨b.toNat % 16, by omega⟩ low
    simp only [Fin.mk.injEq] at hh hl
    exact ⟨UInt8.toNat_inj.mp (by omega), hr⟩

theorem quoteByte_ne_nil (b : UInt8) : quoteByte safe b ≠ [] := by
  unfold quoteByte
  split_ifs <;> simp

theorem quote_inj (hp : '%' ∉ safe) {s t : Text} (h : quote safe s = quote safe t) : s = t := by
  have hb : s.flatMap String.utf8EncodeChar = t.flatMap String.utf8EncodeChar := by
    unfold quote at h
    generalize s.flatMap String.utf8EncodeChar = xs at h ⊢
    generalize t.flatMap String.utf8EncodeChar = ys at h ⊢
    induction xs generalizing ys with
    | nil =>
      cases ys with
      | nil => rfl
      | cons b ys => simp [quoteByte_ne_nil] at h
    | cons a xs ih =>
      cases ys with
      | nil => simp [quoteByte_ne_nil] at h
      | cons b ys =>
        obtain ⟨rfl, hr⟩ := quoteByte_append_inj hp h
        rw [ih ys hr]
  have he : (String.ofList s).toByteArray = (String.ofList t).toByteArray :=
    congrArg List.toByteArray hb
  exact String.ofList_injective (String.toByteArray_inj.mp he)

theorem at_notMem_quote (ha : '@' ∉ safe) (text : Text) : '@' ∉ quote safe text := by
  have hd : ∀ n : Fin 16, '@' ≠ hexDigit n := by decide
  intro hm
  obtain ⟨b, -, hb⟩ := mem_flatMap.mp hm
  unfold quoteByte at hb
  split_ifs at hb with h
  · exact not_safe (by decide) ha h (mem_singleton.mp hb).symm
  · have := b.toNat_lt
    simp [hd ⟨b.toNat / 16, by omega⟩, hd ⟨b.toNat % 16, by omega⟩] at hb

end Text

end Apme.Lib
