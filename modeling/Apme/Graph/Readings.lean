import Mathlib.Tactic
import Apme.Graph.Sensitivity

/-!
# How the patterns read a text before a URL

A URL with a userinfo stands behind a part of a text.  What the two patterns see
at a position of that part does not depend on the userinfo: nothing, a source
that ends in the part, or one that takes in the URL up to its at sign and a fixed
number of characters more.  An SCP-style source can take in the URL in three
ways: with its userinfo, in its path, or with the scheme at the end of its host.
-/

set_option autoImplicit false

namespace Apme.Graph.Sensitivity

open Apme.Lib Apme.Lib.Substitution List Option

section Characters

structure IsScheme (scheme : Text) : Prop where
  starts : scheme.head?.any isSchemeStart
  allChars : scheme.all isSchemeChar

def isCredentialChar (c : Char) : Bool :=
  isAuthorityChar c && isUserinfoChar c && c ≠ '{' && c ≠ '}'

abbrev Credential : Type := { userinfo : Text // userinfo ≠ [] ∧ userinfo.all isCredentialChar }

/-- The scheme and the userinfo of a URL, with their marks. -/
def front (scheme : Text) (userinfo : Credential) : Text :=
  scheme ++ (schemeMark ++ (userinfo.1 ++ ['@']))

/-- Characters that make a token of their own wherever they stand. -/
def isPlain (c : Char) : Bool := !isSeparator c && c ≠ '{' && c ≠ '}'

variable {c : Char} {scheme : Text}

theorem isSchemeChar_separator (ha : isSeparator c) : isSchemeChar c = false := by
  simp only [isSeparator, Text.isSpace, Text.isLineBreak, isSchemeChar, isSchemeStart, isDigit,
    ← Char.toNat_inj, Char.le_def, UInt32.le_iff_toNat_le, Char.toNat_val] at *
  simp at *
  omega

theorem isPlain_of_isSchemeChar (hC : isSchemeChar c) : isPlain c := by
  have ha : isSeparator c = false := by
    by_contra hs
    simp [isSchemeChar_separator (by simpa using hs)] at hC
  have hb : c ≠ '{' ∧ c ≠ '}' := by
    constructor <;> rintro rfl <;> exact absurd hC (by decide)
  simp [isPlain, ha, hb]

theorem IsScheme.chars (named : IsScheme scheme) : ∀ c ∈ scheme, isSchemeChar c :=
  all_eq_true.mp named.allChars

theorem IsScheme.exists_cons (named : IsScheme scheme) :
    ∃ c rest, scheme = c :: rest ∧ isSchemeStart c := by
  have hs := named.starts
  cases scheme with
  | nil => simp at hs
  | cons c rest => exact ⟨c, rest, rfl, by simpa using hs⟩

/-- What starts a scheme is none of the marks of the patterns. -/
theorem IsScheme.head (named : IsScheme scheme) {d : Char} (hd : isSchemeStart d = false) :
    scheme.head? ≠ some d := by
  intro head
  simpa [head, hd] using named.starts

theorem Credential.chars (u : Credential) (hc : c ∈ u.1) :
    isAuthorityChar c ∧ isUserinfoChar c ∧ isPlain c := by
  have holds := all_eq_true.mp u.2.2 c hc
  simp only [isCredentialChar, Bool.and_eq_true] at holds
  obtain ⟨⟨⟨ha, hu⟩, ho⟩, hcl⟩ := holds
  refine ⟨ha, hu, ?_⟩
  simp only [isUserinfoChar, Bool.and_eq_true] at hu
  simp only [isPlain, Bool.and_eq_true]
  exact ⟨⟨hu.2, ho⟩, hcl⟩

theorem Credential.plain (u : Credential) : ∀ c ∈ u.1 ++ ['@'], isPlain c := by
  intro c mem
  obtain inside | inside := mem_append.mp mem
  · exact (u.chars inside).2.2
  · obtain rfl := mem_singleton.mp inside
    decide

theorem plain_front (named : IsScheme scheme) (u : Credential) :
    ∀ c ∈ front scheme u, isPlain c := by
  intro c mem
  rw [front, mem_append, mem_append] at mem
  obtain hi | hi | hi := mem
  · exact isPlain_of_isSchemeChar (named.chars c hi)
  · exact all_eq_true.mp (show schemeMark.all isPlain by decide) c hi
  · exact u.plain c hi

theorem head_front (named : IsScheme scheme) (u : Credential) (part after : Text) :
    (part ++ (front scheme u ++ after)).head? = part.head?.or scheme.head? := by
  obtain ⟨c, rest, rfl, -⟩ := named.exists_cons
  cases part <;> rfl

theorem head_front_iff (named : IsScheme scheme) {d : Char} (hd : isSchemeStart d = false)
    (u : Credential) (part after : Text) :
    (part ++ (front scheme u ++ after)).head? = some d ↔ part.head? = some d := by
  rw [head_front named]
  cases part with
  | nil => simpa using named.head hd
  | cons c rest => simp

end Characters

section Runs

/-- How far a match goes that starts before the URL: it ends there, or takes in
the URL up to its at sign and more. -/
inductive Extent
  | inside (size : Nat)
  | across (more : Nat)

def Extent.size (part mid : Text) : Extent → Nat
  | .inside size => size
  | .across more => part.length + mid.length + more

def Extent.Fits (part after : Text) : Extent → Prop
  | .inside size => size ≤ part.length
  | .across more => more ≤ after.length

variable {part mid after : Text}

/-- What `length` gives with the URL behind `part` is the same for all userinfos. -/
def Steady (scheme after part : Text) (length : Text → Option Nat) : Prop :=
  ∃ e : Option Extent, (∀ x ∈ e, x.Fits part after) ∧
    ∀ u : Credential, length (part ++ (front scheme u ++ after)) =
      e.map (·.size part (front scheme u))

variable {scheme : Text} {length length' : Text → Option Nat}

theorem Steady.nothing (gone : ∀ u : Credential, length (part ++ (front scheme u ++ after)) = none) :
    Steady scheme after part length :=
  ⟨none, by simp, gone⟩

theorem Steady.inside (size : Nat) (fits : size ≤ part.length)
    (found : ∀ u : Credential, length (part ++ (front scheme u ++ after)) = some size) :
    Steady scheme after part length :=
  ⟨some (.inside size), by simpa [Extent.Fits] using fits, found⟩

theorem Steady.across (more : Nat) (fits : more ≤ after.length)
    (found : ∀ u : Credential, length (part ++ (front scheme u ++ after)) =
      some (part.length + (front scheme u).length + more)) : Steady scheme after part length :=
  ⟨some (.across more), by simpa [Extent.Fits] using fits, found⟩

section

variable (steady : Steady scheme after part length) {u : Credential}

include steady

theorem Steady.gone (here : length (part ++ (front scheme u ++ after)) = none) (v : Credential) :
    length (part ++ (front scheme v ++ after)) = none := by
  obtain ⟨e, -, reads⟩ := steady
  rw [reads, Option.map_eq_none_iff] at here ⊢
  exact here

theorem Steady.beyond {more : Nat}
    (here : length (part ++ (front scheme u ++ after)) =
      some (part.length + (front scheme u).length + more)) :
    more ≤ after.length ∧ ∀ v : Credential, length (part ++ (front scheme v ++ after)) =
      some (part.length + (front scheme v).length + more) := by
  obtain ⟨e, fits, reads⟩ := steady
  have same := here
  rw [reads] at same
  rcases e with _ | (size | taken)
  · cases same
  · have short : size ≤ part.length := fits _ rfl
    simp [Extent.size, front] at same
    omega
  · obtain rfl : taken = more := by simpa [Extent.size] using same
    exact ⟨fits _ rfl, reads⟩

end

theorem Steady.or (first : Steady scheme after part length)
    (second : Steady scheme after part length') :
    Steady scheme after part fun text => (length text).or (length' text) := by
  obtain ⟨e, fits, reads⟩ := first
  cases e with
  | none => simpa only [Steady, reads, Option.map_none, Option.none_or] using second
  | some x => exact ⟨some x, fits, fun u => by simp only [reads, Option.map_some, Option.some_or]⟩

theorem Steady.shift (extra : Text) (old : Steady scheme after part length)
    (later : ∀ u : Credential, length' (extra ++ (part ++ (front scheme u ++ after))) =
      (length (part ++ (front scheme u ++ after))).map (· + extra.length)) :
    Steady scheme after (extra ++ part) length' := by
  obtain ⟨e, fits, reads⟩ := old
  simp only [reads, ← append_assoc extra] at later
  rcases e with _ | ⟨size | more⟩
  · exact .nothing later
  · have bound : size ≤ part.length := fits _ rfl
    refine .inside (size + extra.length) ?_ later
    rw [length_append]
    omega
  · refine .across more (fits _ rfl) fun u => ?_
    rw [later u, length_append]
    simp only [Extent.size, Option.map_some, Option.some.injEq]
    omega

theorem length_closing {first second : Char} {text : Text} {size : Nat}
    (hf : closing first second text = some size) : size + 2 ≤ text.length := by
  fun_induction closing first second text generalizing size with
  | case1 c d rest here =>
    cases hf
    simp
  | case2 d rest here => cases hf
  | case3 c d rest here ln ih =>
    obtain ⟨inner, hI, rfl⟩ := map_eq_some_iff.mp hf
    have hb := ih hI
    simp only [length_cons] at hb ⊢
    omega
  | case4 => cases hf

theorem runLength_le (skip : Nat) (text : Text) : runLength skip text ≤ text.length := by
  induction text generalizing skip with
  | nil => cases skip <;> simp [runLength]
  | cons c rest ih =>
    cases skip with
    | succ skip => simpa [runLength] using ih skip
    | zero =>
      simp only [runLength]
      split
      · simp
      next size _ => simpa using ih (size - 1)

theorem closing_cons (first second c : Char) (text : Text) :
    closing first second (c :: text) =
      if c = first ∧ text.head? = some second then some 0
      else if c = '\n' then none
      else (closing first second text).map (· + 1) := by
  cases text <;> simp [closing]

theorem closing_plain {first second : Char} {text : Text}
    (hp : ∀ c ∈ text, c ≠ '\n' ∧ c ≠ second) (last : text.getLast? ≠ some first) (tail : Text) :
    closing first second (text ++ tail) = (closing first second tail).map (· + text.length) := by
  induction text with
  | nil => simp
  | cons c rest ih =>
    have here : ¬ (c = first ∧ (rest ++ tail).head? = some second) := by
      rintro ⟨rfl, head⟩
      cases rest with
      | nil => simp at last
      | cons d rest => exact (hp d (by simp)).2 (by simpa using head)
    have later : rest.getLast? ≠ some first := by
      intro ends
      simp [List.getLast?_cons, ends] at last
    rw [cons_append, closing_cons, if_neg here, if_neg (hp c (by simp)).1,
      ih (fun d mem => hp d (by simp [mem])) later]
    simp [Function.comp_def, Nat.add_assoc]

variable (named : IsScheme scheme)

include named

theorem closing_steady {first : Char} (hf : first ≠ '@') (part : Text) :
    Steady scheme after part fun text => (closing first '}' text).map (· + 2) := by
  induction part with
  | nil =>
    have reads : ∀ u : Credential, closing first '}' (front scheme u ++ after) =
        (closing first '}' after).map (· + (front scheme u).length) := by
      intro u
      refine closing_plain ?_ (by simp [front, Ne.symm hf]) after
      intro c mem
      have plain := plain_front named u c mem
      constructor <;> rintro rfl <;> exact absurd plain (by decide)
    cases found : closing first '}' after with
    | none => exact .nothing fun u => by simp [reads, found]
    | some size =>
      refine .across _ (length_closing found) fun u => ?_
      simp only [nil_append, reads, found, Option.map_some, Option.some.injEq, length_nil]
      omega
  | cons c rest ih =>
    have head := fun u : Credential => head_front_iff named (show isSchemeStart '}' = false by decide)
      u rest after
    by_cases here : c = first ∧ rest.head? = some '}'
    · refine .inside 2 ?_ fun u => ?_
      · cases rest with
        | nil => simp at here
        | cons d rest => simp
      · simp only [cons_append, closing_cons, head u, if_pos here]
        rfl
    by_cases line : c = '\n'
    · refine .nothing fun u => ?_
      simp only [cons_append, closing_cons, head u, if_neg here, if_pos line, Option.map_none]
    · refine ih.shift [c] fun u => ?_
      simp only [singleton_append, closing_cons, head u, if_neg here, if_neg line, Option.map_map]
      rfl

omit named in
theorem templateLength_cons (c : Char) (text : Text) :
    templateLength (c :: text) =
      if c = '{' ∧ text.head? = some '{' then (closing '}' '}' text.tail).map (· + 4)
      else if c = '{' ∧ text.head? = some '%' then (closing '%' '}' text.tail).map (· + 4)
      else none := by
  cases text <;> simp [templateLength]

omit named in
theorem tokenLength_cons (c : Char) (text : Text) :
    tokenLength (c :: text) =
      if c = '{' ∧ (text.head? = some '{' ∨ text.head? = some '%') then templateLength (c :: text)
      else if isSeparator c then none
      else some 1 := by
  cases text <;> simp [tokenLength, opensTemplate]

theorem tokenLength_steady (c : Char) (rest : Text) :
    Steady scheme after (c :: rest) tokenLength := by
  by_cases opens : c = '{' ∧ (rest.head? = some '{' ∨ rest.head? = some '%')
  · obtain ⟨rfl, double | tag⟩ := opens
    · obtain ⟨more, rfl⟩ := List.head?_eq_some_iff.mp double
      refine (closing_steady named (show '}' ≠ '@' by decide) more).shift ['{', '{'] fun u => ?_
      simp [tokenLength_cons, templateLength_cons, Function.comp_def]
    · obtain ⟨more, rfl⟩ := List.head?_eq_some_iff.mp tag
      refine (closing_steady named (show '%' ≠ '@' by decide) more).shift ['{', '%'] fun u => ?_
      simp [tokenLength_cons, templateLength_cons, Function.comp_def]
  have closed : ∀ u : Credential, tokenLength (c :: rest ++ (front scheme u ++ after)) =
      if isSeparator c then none else some 1 := by
    intro u
    rw [cons_append, tokenLength_cons, if_neg]
    rwa [head_front_iff named (by decide), head_front_iff named (by decide)]
  by_cases separates : isSeparator c
  · exact .nothing fun u => by rw [closed, if_pos separates]
  · exact .inside 1 (by simp) fun u => by rw [closed, if_neg separates]

omit named in
theorem runLength_plain {word : Text} (hp : ∀ c ∈ word, isPlain c) (tail : Text) :
    runLength 0 (word ++ tail) = word.length + runLength 0 tail := by
  induction word with
  | nil => simp
  | cons c rest ih =>
    have here := hp c (by simp)
    have ht : tokenLength (c :: (rest ++ tail)) = some 1 := by
      have hc : opensTemplate (c :: (rest ++ tail)) = false := by
        cases rest ++ tail <;> simp_all [opensTemplate, isPlain]
      simp_all [tokenLength, isPlain]
    simp only [cons_append, runLength, ht, length_cons]
    rw [Nat.sub_self, ih fun d mem => hp d (by simp [mem])]
    omega

omit named in
theorem runLength_skip (skip : Nat) (word tail : Text) :
    runLength (word.length + skip) (word ++ tail) = word.length + runLength skip tail := by
  induction word with
  | nil => simp
  | cons c rest ih =>
    rw [length_cons, show rest.length + 1 + skip = rest.length + skip + 1 by omega, cons_append,
      runLength, ih]
    omega

/-- The rest of a run whose first token has been entered. -/
theorem runLength_steady (part : Text) (e : Extent) (fits : e.Fits part after) :
    ∃ e' : Extent, e'.Fits part after ∧ ∀ u : Credential,
      runLength (e.size part (front scheme u)) (part ++ (front scheme u ++ after)) =
        e'.size part (front scheme u) := by
  induction part generalizing e with
  | nil =>
    cases e with
    | inside size =>
      obtain rfl : size = 0 := by simpa [Extent.Fits] using fits
      refine ⟨.across (runLength 0 after), runLength_le 0 after, fun u => ?_⟩
      simpa [Extent.size] using runLength_plain (plain_front named u) after
    | across more =>
      refine ⟨.across (runLength more after), runLength_le more after, fun u => ?_⟩
      simpa [Extent.size] using runLength_skip more (front scheme u) after
  | cons c rest ih =>
    have step : ∀ e : Extent, e.Fits rest after →
        ∃ e' : Extent, e'.Fits (c :: rest) after ∧ ∀ u : Credential,
          runLength (e.size rest (front scheme u)) (rest ++ (front scheme u ++ after)) + 1 =
            e'.size (c :: rest) (front scheme u) := by
      intro e fits
      obtain ⟨e', fits', reads⟩ := ih e fits
      cases e' with
      | inside size => exact ⟨.inside (size + 1), Nat.succ_le_succ fits', fun u => by rw [reads u]; rfl⟩
      | across more =>
        refine ⟨.across more, fits', fun u => ?_⟩
        rw [reads u]
        simp only [Extent.size, length_cons]
        omega
    have size : ∀ (more : Nat) (u : Credential), (Extent.across more).size (c :: rest) (front scheme u) =
        (Extent.across more).size rest (front scheme u) + 1 := by
      intro more u
      simp only [Extent.size, length_cons]
      omega
    rcases e with (_ | count) | more
    · obtain ⟨e, fits, reads⟩ : Steady scheme after (c :: rest) tokenLength :=
        tokenLength_steady named c rest
      have enters : ∀ u : Credential, runLength 0 (c :: rest ++ (front scheme u ++ after)) =
          (e.map (·.size (c :: rest) (front scheme u))).elim 0 fun size =>
            runLength (size - 1) (rest ++ (front scheme u ++ after)) + 1 := by
        intro u
        rw [← reads u, cons_append, runLength]
        cases tokenLength (c :: (rest ++ (front scheme u ++ after))) <;> rfl
      rcases e with _ | (count | more)
      · exact ⟨.inside 0, Nat.zero_le _, enters⟩
      · obtain ⟨e', fits', runs⟩ := step (.inside (count - 1)) (Nat.sub_le_of_le_add (fits _ rfl))
        exact ⟨e', fits', fun u => (enters u).trans (runs u)⟩
      · obtain ⟨e', fits', runs⟩ := step (.across more) (fits _ rfl)
        refine ⟨e', fits', fun u => (enters u).trans ?_⟩
        rw [Option.map_some, size more u]
        exact runs u
    · exact step (.inside count) (Nat.le_of_succ_le_succ fits)
    · obtain ⟨e', fits', runs⟩ := step (.across more) fits
      refine ⟨e', fits', fun u => ?_⟩
      rw [size more u]
      exact runs u

/-- The length of a run that is not empty. -/
def filledRun (text : Text) : Option Nat :=
  if runLength 0 text = 0 then none else some (runLength 0 text)

omit named in
theorem filledRun_plain {word : Text} (hp : ∀ c ∈ word, isPlain c) (hfill : word ≠ []) (tail : Text) :
    filledRun (word ++ tail) = some (word.length + runLength 0 tail) := by
  have := length_pos_iff.mpr hfill
  rw [filledRun, runLength_plain hp, if_neg (by omega)]

theorem filledRun_steady (part : Text) : Steady scheme after part filledRun := by
  obtain ⟨e, fits, runs⟩ := @runLength_steady after scheme named part (.inside 0) (Nat.zero_le _)
  have reads : ∀ u : Credential, filledRun (part ++ (front scheme u ++ after)) =
      if e.size part (front scheme u) = 0 then none else some (e.size part (front scheme u)) := by
    intro u
    have run := runs u
    rw [Extent.size] at run
    rw [filledRun, run]
  rcases e with (_ | size) | more
  · exact .nothing fun u => by rw [reads]; rfl
  · exact .inside (size + 1) fits fun u => by rw [reads]; rfl
  · refine .across more fits fun u => ?_
    rw [reads, if_neg]
    · rfl
    · simp [Extent.size, front]

end Runs

section Urls

variable {text : Text} {p : Char → Bool}

theorem while_append (hfill : text.dropWhile p ≠ []) (tail : Text) :
    (text ++ tail).takeWhile p = text.takeWhile p ∧
      (text ++ tail).dropWhile p = text.dropWhile p ++ tail := by
  refine ⟨?_, ?_⟩
  · rw [takeWhile_append, if_neg]
    intro hl
    have cut := congrArg List.length (takeWhile_append_dropWhile (p := p) (l := text))
    rw [length_append, hl] at cut
    exact hfill (length_eq_zero_iff.mp (by omega))
  · rw [dropWhile_append, if_neg (by simpa using hfill)]

theorem exists_stop (all : ¬ ∀ c ∈ text, p c) :
    ∃ first c rest, text = first ++ c :: rest ∧ (∀ d ∈ first, p d) ∧ p c = false := by
  have cut := takeWhile_append_dropWhile (p := p) (l := text)
  obtain ⟨c, rest, left⟩ := exists_cons_of_ne_nil fun none => all (dropWhile_eq_nil_iff.mp none)
  have stop := head_dropWhile_not p (l := text) (by simp [left])
  simp only [left, head_cons] at stop
  exact ⟨_, c, rest, (left ▸ cut).symm, fun d mem => mem_takeWhile_imp mem, stop⟩

variable {body : Text}

theorem afterMark_eq_some : afterMark text = some body ↔ text = schemeMark ++ body := by
  unfold afterMark
  constructor
  · intro found
    obtain ⟨⟨rest, rfl⟩, cut⟩ := ite_none_right_eq_some.mp found
    simpa using cut
  · rintro rfl
    simp

theorem afterMark_append {tail : Text} (hfill : text ≠ []) (ho : tail.head? ≠ some '/') :
    afterMark (text ++ tail) = (afterMark text).map (· ++ tail) := by
  have first : ∀ more : Text, ¬ '/' :: more <+: tail := by
    rintro more ⟨rest, rfl⟩
    exact ho rfl
  rcases text with _ | ⟨a, _ | ⟨b, _ | ⟨d, rest⟩⟩⟩
  · exact absurd rfl hfill
  · simp [afterMark, schemeMark, first]
  · simp [afterMark, schemeMark, first]
  · by_cases hm : ':' = a ∧ '/' = b ∧ '/' = d
    · simp [afterMark, schemeMark]
    · simp [afterMark, schemeMark, hm]

variable (wide : Char → Bool) (before : Option Char)

theorem urlLength_eq (text : Text) :
    urlLength wide before text =
      if text.head?.any fun c => isSchemeStart c && isBoundary wide before c then
        (afterMark (text.dropWhile isSchemeChar)).bind fun body =>
          (filledRun body).map (· + (text.takeWhile isSchemeChar ++ schemeMark).length)
      else none := by
  cases text with
  | nil => rfl
  | cons c rest =>
    simp only [urlLength, List.head?_cons, Option.any_some, Bool.and_eq_true]
    cases afterMark ((c :: rest).dropWhile isSchemeChar) with
    | none => rfl
    | some body =>
      simp only [Option.bind_some, filledRun, length_append]
      by_cases empty : runLength 0 body = 0 <;> simp [empty, Nat.add_comm]

theorem urlLength_le {size : Nat} (found : urlLength wide before text = some size) :
    size ≤ text.length := by
  rw [urlLength_eq] at found
  obtain ⟨-, found⟩ := ite_none_right_eq_some.mp found
  obtain ⟨body, marked, found⟩ := bind_eq_some_iff.mp found
  obtain ⟨run, filled, rfl⟩ := map_eq_some_iff.mp found
  obtain ⟨-, ⟨⟩⟩ := ite_none_left_eq_some.mp filled
  have cut := congrArg List.length (takeWhile_append_dropWhile (p := isSchemeChar) (l := text))
  rw [afterMark_eq_some.mp marked] at cut
  have := runLength_le 0 body
  simp only [length_append] at cut ⊢
  omega

variable {scheme after : Text}

/-- The scheme of a URL may go on from the part before it. -/
theorem while_front (named : IsScheme scheme) {part : Text} (all : ∀ c ∈ part, isSchemeChar c)
    (u : Credential) :
    (part ++ (front scheme u ++ after)).takeWhile isSchemeChar = part ++ scheme ∧
      (part ++ (front scheme u ++ after)).dropWhile isSchemeChar =
        schemeMark ++ (u.1 ++ ['@'] ++ after) := by
  have chars : ∀ c ∈ part ++ scheme, isSchemeChar c := by
    intro c mem
    obtain inside | inside := mem_append.mp mem
    · exact all c inside
    · exact named.chars c inside
  have cut := Text.takeWhile_before chars (show isSchemeChar ':' = false by decide)
    ('/' :: '/' :: (u.1 ++ ['@'] ++ after))
  have whole : part ++ (front scheme u ++ after) =
      part ++ scheme ++ ':' :: '/' :: '/' :: (u.1 ++ ['@'] ++ after) := by
    simp [front, schemeMark]
  rw [whole]
  exact cut

theorem take_across (part : Text) (u : Credential) (more : Nat) :
    (part ++ (front scheme u ++ after)).take (part.length + (front scheme u).length + more) =
      part ++ (front scheme u ++ after.take more) := by
  rw [← append_assoc, ← length_append, take_length_add_append, append_assoc]

theorem urlLength_front (named : IsScheme scheme) {part : Text} (all : ∀ c ∈ part, isSchemeChar c)
    (starts : (part.head?.or scheme.head?).any fun c => isSchemeStart c && isBoundary wide before c)
    (u : Credential) :
    urlLength wide before (part ++ (front scheme u ++ after)) =
      some (part.length + (front scheme u).length + runLength 0 after) := by
  obtain ⟨taken, left⟩ := @while_front scheme after named part all u
  rw [urlLength_eq, head_front named, if_pos starts, taken, left, afterMark_eq_some.mpr rfl,
    Option.bind_some, filledRun_plain u.plain (by simp)]
  simp only [front, length_append, Option.map_some, Option.some.injEq]
  omega

theorem urlLength_steady (named : IsScheme scheme) (part : Text) :
    Steady scheme after part (urlLength wide before) := by
  by_cases starts : (part.head?.or scheme.head?).any
      fun c => isSchemeStart c && isBoundary wide before c
  case neg => exact .nothing fun u => by rw [urlLength_eq, head_front named, if_neg starts]
  case pos =>
  by_cases all : ∀ c ∈ part, isSchemeChar c
  · exact .across _ (runLength_le 0 after) (urlLength_front wide before named all starts)
  · have cut := takeWhile_append_dropWhile (p := isSchemeChar) (l := part)
    have left : part.dropWhile isSchemeChar ≠ [] := fun none => all (dropWhile_eq_nil_iff.mp none)
    have reads : ∀ u : Credential, urlLength wide before (part ++ (front scheme u ++ after)) =
        ((afterMark (part.dropWhile isSchemeChar)).map (· ++ (front scheme u ++ after))).bind
          fun body => (filledRun body).map (· + (part.takeWhile isSchemeChar ++ schemeMark).length) := by
      intro u
      have head := head_front named u [] after
      rw [nil_append, List.head?_nil, Option.none_or] at head
      obtain ⟨taken, dropped⟩ := while_append left (front scheme u ++ after)
      rw [urlLength_eq, head_front named, if_pos starts, taken, dropped,
        afterMark_append left (head ▸ named.head (by decide))]
    cases marked : afterMark (part.dropWhile isSchemeChar) with
    | none => exact .nothing fun u => by rw [reads, marked]; rfl
    | some body =>
      rw [afterMark_eq_some.mp marked, ← append_assoc] at cut
      simp only [marked, Option.map_some, Option.bind_some] at reads
      generalize part.takeWhile isSchemeChar ++ schemeMark = extra at cut reads
      subst cut
      exact (filledRun_steady named body).shift extra fun u => by rw [← reads u, append_assoc]

end Urls

section Sources

variable {scheme after host body text : Text} {c : Char}

theorem isHostChar_of_isSchemeChar (hC : isSchemeChar c) : isHostChar c := by
  have plain := isPlain_of_isSchemeChar hC
  have hm : c ≠ ':' ∧ c ≠ '/' := by
    constructor <;> rintro rfl <;> exact absurd hC (by decide)
  simp only [isPlain, Bool.and_eq_true, Bool.not_eq_true'] at plain
  simp [isHostChar, hm, plain.1.1]

theorem filledRun_le {size : Nat} (found : filledRun body = some size) : size ≤ body.length := by
  obtain ⟨-, ⟨⟩⟩ := ite_none_left_eq_some.mp found
  exact runLength_le 0 body

theorem hostPath_of_split (all : ∀ c ∈ host, isHostChar c) (hfill : host ≠ []) (body : Text) :
    hostPath (host ++ ':' :: body) = (filledRun body).map fun size => (host, body.take size) := by
  obtain ⟨ht, hd⟩ := Text.takeWhile_before all (show isHostChar ':' = false by decide) body
  simp only [hostPath, ht, hd, filledRun]
  by_cases empty : runLength 0 body = 0 <;> simp [empty, hfill]

theorem hostPath_le {found : Text × Text} (hf : hostPath text = some found) :
    found.1.length + 1 + found.2.length ≤ text.length := by
  have cut := congrArg List.length (takeWhile_append_dropWhile (p := isHostChar) (l := text))
  simp only [hostPath] at hf
  split at hf
  next body hd =>
    obtain ⟨-, ⟨⟩⟩ := ite_none_left_eq_some.mp hf
    rw [hd, length_append, length_cons] at cut
    have := length_take_le' (runLength 0 body) body
    dsimp only
    omega
  next => cases hf

theorem userinfoHostPath_of_split {userinfo : Text}
    (all : ∀ c ∈ userinfo, isUserinfoChar c) (hfill : userinfo ≠ []) (body : Text) :
    userinfoHostPath (userinfo ++ '@' :: body) =
      (hostPath body).map fun found =>
        { userinfo := some userinfo, host := found.1, path := found.2 } := by
  obtain ⟨ht, hd⟩ := Text.takeWhile_before all (show isUserinfoChar '@' = false by decide) body
  simp [userinfoHostPath, ht, hd, hfill]

section Lengths

variable (named : IsScheme scheme)

include named

/-- The URL up to its at sign can be the userinfo of an SCP-style source. -/
theorem userinfoHostPath_front {part : Text} (all : ∀ c ∈ part, isUserinfoChar c) (u : Credential)
    (after : Text) :
    userinfoHostPath (part ++ (front scheme u ++ after)) =
      (hostPath after).map fun found =>
        { userinfo := some (part ++ (scheme ++ (schemeMark ++ u.1))), host := found.1
          path := found.2 } := by
  have chars : ∀ c ∈ part ++ (scheme ++ (schemeMark ++ u.1)), isUserinfoChar c := by
    intro c mem
    simp only [mem_append] at mem
    obtain inPart | inScheme | inMark | inUser := mem
    · exact all c inPart
    · have plain := isPlain_of_isSchemeChar (named.chars c inScheme)
      have sign : c ≠ '@' := by
        rintro rfl
        exact absurd (named.chars _ inScheme) (by decide)
      simp_all [isPlain, isUserinfoChar]
    · exact all_eq_true.mp (show schemeMark.all isUserinfoChar by decide) c inMark
    · exact (u.chars inUser).2.1
  rw [← userinfoHostPath_of_split chars (by simp [schemeMark])]
  simp [front]

theorem hostPath_steady (part : Text) :
    Steady scheme after part fun text =>
      (hostPath text).map fun found => found.1.length + 1 + found.2.length := by
  by_cases all : ∀ c ∈ part, isHostChar c
  · have chars : ∀ c ∈ part ++ scheme, isHostChar c := by
      intro c mem
      obtain inside | inside := mem_append.mp mem
      · exact all c inside
      · exact isHostChar_of_isSchemeChar (named.chars c inside)
    obtain ⟨d, rest, isCons, -⟩ := named.exists_cons
    refine .across (runLength 0 after) (runLength_le 0 after) fun u => ?_
    have whole : part ++ (front scheme u ++ after) =
        part ++ scheme ++ ':' :: ('/' :: '/' :: (u.1 ++ ['@']) ++ after) := by
      simp [front, schemeMark]
    have plain : ∀ c ∈ '/' :: '/' :: (u.1 ++ ['@']), isPlain c := by
      rintro c (_ | ⟨_, _ | ⟨_, mem⟩⟩)
      · decide
      · decide
      · exact u.plain c mem
    have filled := filledRun_plain plain (by simp) after
    rw [whole, hostPath_of_split chars (by simp [isCons]), filled]
    simp only [Option.map_some, Option.some.injEq, length_take_of_le (filledRun_le filled)]
    simp only [front, schemeMark, length_append, length_cons, length_nil]
    omega
  · obtain ⟨host, c, path, rfl, hosts, stop⟩ := exists_stop all
    by_cases colon : c = ':' ∧ host ≠ []
    · obtain ⟨rfl, filled⟩ := colon
      rw [← singleton_append, ← append_assoc]
      refine (filledRun_steady named path).shift (host ++ [':']) fun u => ?_
      rw [append_assoc, singleton_append, hostPath_of_split hosts filled]
      cases found : filledRun (path ++ (front scheme u ++ after)) with
      | none => rfl
      | some size =>
        simp only [Option.map_some, Option.some.injEq, length_take_of_le (filledRun_le found),
          length_append, length_singleton]
        omega
    · refine .nothing fun u => ?_
      obtain ⟨taken, left⟩ := Text.takeWhile_before hosts stop (path ++ (front scheme u ++ after))
      simp only [append_assoc, cons_append, hostPath, taken, left]
      split <;> simp_all

theorem userinfoHostPath_steady (part : Text) :
    Steady scheme after part fun text => (userinfoHostPath text).map (·.text.length) := by
  by_cases all : ∀ c ∈ part, isUserinfoChar c
  · have reads := fun u => userinfoHostPath_front named all u after
    cases found : hostPath after with
    | none => exact .nothing fun u => by rw [reads, found]; rfl
    | some pair =>
      refine .across _ (hostPath_le found) fun u => ?_
      rw [reads, found]
      simp [Scp.text, front, schemeMark]
      omega
  · obtain ⟨owner, c, body, rfl, users, stop⟩ := exists_stop all
    by_cases sign : c = '@' ∧ owner ≠ []
    · obtain ⟨rfl, filled⟩ := sign
      rw [← singleton_append, ← append_assoc]
      refine (hostPath_steady named body).shift (owner ++ ['@']) fun u => ?_
      rw [append_assoc, singleton_append, userinfoHostPath_of_split users filled]
      cases hostPath (body ++ (front scheme u ++ after)) with
      | none => rfl
      | some found =>
        simp [Scp.text]
        omega
    · refine .nothing fun u => ?_
      obtain ⟨taken, left⟩ := Text.takeWhile_before users stop (body ++ (front scheme u ++ after))
      simp only [append_assoc, cons_append, userinfoHostPath, taken, left]
      split <;> simp_all

/-- The length of an SCP-style source. -/
theorem scpMatch_steady (wide : Char → Bool) (before : Option Char) (part : Text) :
    Steady scheme after part fun text => (scpMatch wide before text).map (·.text.length) := by
  by_cases guard : before.any fun c => isWord wide c || c = '.' || c = '-'
  · exact .nothing fun u => by simp only [scpMatch, if_pos guard, Option.map_none]
  have first : (fun text => (scpMatch wide before text).map (·.text.length)) = fun text =>
      ((userinfoHostPath text).map (·.text.length)).or
        ((hostPath text).map fun found => found.1.length + 1 + found.2.length) := by
    funext text
    simp only [scpMatch, if_neg guard]
    cases userinfoHostPath text with
    | some source => rfl
    | none =>
      cases hostPath text with
      | none => rfl
      | some found =>
        simp [Scp.text]
        omega
  rw [first]
  exact (userinfoHostPath_steady named part).or (hostPath_steady named part)

end Lengths

end Sources

end Apme.Graph.Sensitivity
