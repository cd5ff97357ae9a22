import Apme.Lib.Pattern

/-!
# Credentials in Git error texts

`redact_credentials` masks what stands between a mark `http://` or `https://`
and the next at sign, and then the tokens of authorization headers.  Every match
of the first pattern ends at an at sign and no match of the others has one, so a
text is rewritten piece by piece between its at signs.  No white space is in a
userinfo, so the header patterns leave it alone, and it depends on the piece it
begins in what is shown of it: what follows its first at sign always is.
-/

set_option autoImplicit false

namespace Apme.Gateway

open Apme.Lib List

/-- A character as a pattern that ignores case compares it. -/
def foldCase (c : Char) : Char :=
  if c = '\u0130' || c = '\u0131' then 'i'
  else if c = '\u017f' then 's'
  else if c = '\u212a' then 'k'
  else c.toLower

def isBasicToken (c : Char) : Bool := (foldCase c).isAlphanum || c ∈ "+/=".toList

def isBearerToken (c : Char) : Bool := (foldCase c).isAlphanum || c ∈ "._~+/-".toList

def credRedact : Pattern where
  head := [.word "http".toList, .optional 's', .word "://".toList]
  rest := [.many (· ≠ '@') 1, .word ['@']]
  new := "[REDACTED]@".toList

def basicAuthHeader : Pattern where
  head := [.word "authorization:".toList, .many Text.isSpace 0, .word "basic".toList,
    .many Text.isSpace 1]
  rest := [.many isBasicToken 1]
  new := "[REDACTED]".toList

def bearer : Pattern where
  head := [.word "bearer".toList, .many Text.isSpace 1]
  rest := [.many isBearerToken 4]
  new := "[REDACTED]".toList

def redactHeaders (text : Text) : Text :=
  bearer.replace foldCase (basicAuthHeader.replace foldCase text)

def redactCredentials (text : Text) : Text := redactHeaders (credRedact.replace id text)

/-! ## Headers -/

section Headers

variable {p q t : Text}

theorem redactHeaders_eq_self (h : ∀ c ∈ t, ¬ Text.isSpace c) : redactHeaders t = t := by
  rw [redactHeaders, basicAuthHeader.replace_eq_self (n := 0) (by simp [basicAuthHeader]) h,
    bearer.replace_eq_self (n := 0) (by simp [bearer]) h]

theorem bearer_unread {d : Char} (hd : d = '@' ∨ d = ':') :
    ∀ piece ∈ bearer.head ++ bearer.rest, ¬ piece.Reads foldCase d := by
  rcases hd with rfl | rfl <;> simp [bearer, Piece.Reads] <;> decide

theorem redactHeaders_at :
    redactHeaders (p ++ '@' :: q) = redactHeaders p ++ '@' :: redactHeaders q := by
  have hb : ∀ piece ∈ basicAuthHeader.head ++ basicAuthHeader.rest, ¬ piece.Reads foldCase '@' := by
    simp [basicAuthHeader, Piece.Reads]
    decide
  rw [redactHeaders, Pattern.replace_unread (by decide) hb,
    Pattern.replace_unread (by decide) (bearer_unread (.inl rfl))]
  rfl

theorem matchSize_basic_colon (s : Text) :
    matchSize foldCase basicAuthHeader.head (s ++ ':' :: '/' :: t) =
      matchSize foldCase basicAuthHeader.head s := by
  rcases le_or_gt "authorization:".toList.length s.length with hl | hl
  · refine matchSize_cons_append (Piece.size_word_append hl _) fun _ => matchSize_append ?_ _ _
    simp [Piece.Reads]
    decide
  · -- the word can end at the colon, but what follows it does not read the slash
    have hn : ∀ n < 14, "authorization:".toList[n]? = some ':' → n = 13 := by decide
    simp only [basicAuthHeader, matchSize, Piece.size_word_short hl]
    cases hw : Piece.size foldCase (.word "authorization:".toList) (s ++ ':' :: '/' :: t) with
    | none => rfl
    | some size =>
      have hc := Piece.getElem_word hl (by rw [hw]; simp)
      have hs := hn s.length hl hc
      cases (Option.ite_none_right_eq_some.mp hw).2
      have hd : (s ++ ':' :: '/' :: t).drop "authorization:".toList.length = '/' :: t := by
        simp [drop_append, hs]
      have ht : ('/' :: t).takeWhile Text.isSpace = [] := takeWhile_cons_of_neg (by decide)
      have hf : (('/' :: t).take "basic".toList.length).map foldCase ≠ "basic".toList := fun h =>
        absurd (cons.inj h).1 (by decide)
      simp only [Option.bind_eq_bind, Option.bind_some, Option.bind_none, hd, Piece.size, ht,
        length_nil, le_refl, if_pos, drop_zero, if_neg hf]

theorem redactHeaders_mark (h : ∀ c ∈ t, ¬ Text.isSpace c) :
    redactHeaders (p ++ ':' :: '/' :: t) = redactHeaders p ++ ':' :: '/' :: t := by
  have hb : ∀ piece ∈ basicAuthHeader.rest, ¬ piece.Reads foldCase ':' := by
    simp [basicAuthHeader, Piece.Reads]
    decide
  have ht : ∀ c ∈ '/' :: t, ¬ Text.isSpace c := forall_mem_cons.mpr ⟨by decide, h⟩
  rw [redactHeaders, Pattern.replace_append (by decide) matchSize_basic_colon (matchSize_append hb _),
    basicAuthHeader.replace_eq_self (n := 0) (by simp [basicAuthHeader]) ht,
    Pattern.replace_unread (by decide) (bearer_unread (.inr rfl)),
    bearer.replace_eq_self (n := 0) (by simp [bearer]) ht]
  rfl

end Headers

/-! ## Addresses -/

def marks : List Text := ["http://".toList, "https://".toList]

section Addresses

variable {s t : Text}

theorem matchSize_mark {n : Nat} : matchSize id credRedact.head t = some n ↔
    ∃ w ∈ marks, ∃ t', t = w ++ t' ∧ n = w.length := by
  simp only [credRedact, matchSize_word, matchSize_optional, marks, mem_cons, not_mem_nil, or_false,
    exists_eq_or_imp, exists_eq_left]
  constructor
  · rintro ⟨_, _, rfl, ⟨_, _, rfl, ⟨t', _, rfl, hk, rfl⟩, rfl⟩ | ⟨-, t', _, rfl, hk, rfl⟩, rfl⟩
    · cases hk
      exact .inr ⟨t', rfl, rfl⟩
    · cases hk
      exact .inl ⟨t', rfl, rfl⟩
  · rintro (⟨t', rfl, rfl⟩ | ⟨t', rfl, rfl⟩)
    · exact ⟨"://".toList ++ t', _, rfl, .inr ⟨by simp, t', 0, rfl, rfl, rfl⟩, rfl⟩
    · exact ⟨_, _, rfl, .inl ⟨_, _, rfl, ⟨t', 0, rfl, rfl, rfl⟩, rfl⟩, rfl⟩

theorem find_cred {found : Text × Nat} :
    credRedact.find id t = some found ↔ ∃ w ∈ marks, ∃ user z, t = w ++ (user ++ '@' :: z) ∧
      user ≠ [] ∧ '@' ∉ user ∧ found = (w ++ "[REDACTED]@".toList, w.length + (user.length + 1)) := by
  simp only [Pattern.find, Option.bind_eq_bind, Option.bind_eq_some_iff, matchSize_mark]
  constructor
  · rintro ⟨_, ⟨w, hw, t', rfl, rfl⟩, more, hm, hf⟩
    rw [drop_left] at hm
    obtain ⟨user, z, rfl, hu, ha, rfl⟩ := matchSize_until.mp hm
    rw [take_left] at hf
    exact ⟨w, hw, user, z, rfl, hu, ha, (Option.some.inj hf).symm⟩
  · rintro ⟨w, hw, user, z, rfl, hu, ha, rfl⟩
    refine ⟨_, ⟨w, hw, _, rfl, rfl⟩, _, ?_, by rw [take_left]; rfl⟩
    rw [drop_left]
    exact matchSize_until.mpr ⟨user, z, rfl, hu, ha, rfl⟩

theorem at_notMem_mark : ∀ w ∈ marks, '@' ∉ w := by decide

theorem find_cred_append (h : '@' ∈ s) : credRedact.find id (s ++ t) = credRedact.find id s := by
  obtain ⟨front, b₁, rfl, hn⟩ := eq_append_cons_of_mem h
  ext found
  rw [find_cred, find_cred]
  constructor
  · rintro ⟨w, hw, user, z, hs, hu, ha, hf⟩
    rw [append_assoc, cons_append, ← append_assoc w] at hs
    have hwu : '@' ∉ w ++ user := by simp [at_notMem_mark w hw, ha]
    obtain ⟨rfl, -⟩ := Text.append_cons_inj hs hn hwu
    exact ⟨w, hw, user, b₁, by simp, hu, ha, hf⟩
  · rintro ⟨w, hw, user, z, hs, hu, ha, hf⟩
    exact ⟨w, hw, user, z ++ t, by simp [hs], hu, ha, hf⟩

theorem replace_cred_at (s t : Text) : credRedact.replace id (s ++ '@' :: t) =
    credRedact.replace id (s ++ ['@']) ++ credRedact.replace id t := by
  have hs : s ++ '@' :: t = (s ++ ['@']) ++ t := by simp
  rw [hs]
  refine substitute_append (fun p hp hne => find_cred_append ?_) fun _ _ _ => Pattern.find_le
  obtain ⟨x, hx⟩ := hp
  rcases eq_nil_or_concat' p with rfl | ⟨p', c, rfl⟩
  · exact absurd rfl hne
  · rw [← append_assoc] at hx
    simp [(append_inj_right' hx rfl)]

/-- No address is read before an at sign without a slash, or after the last one. -/
theorem replace_cred_quiet (hs : '/' ∉ s) (ht : '@' ∉ t) :
    credRedact.replace id (s ++ t) = s ++ t := by
  refine substitute_eq_self fun p hp => ?_
  rw [Option.eq_none_iff_forall_ne_some]
  intro found hf
  obtain ⟨w, hw, u₁, z, rfl, -⟩ := find_cred.mp hf
  obtain ⟨x, hx⟩ := hp
  rw [← append_assoc w, ← append_assoc x] at hx
  rcases append_eq_append_iff.mp hx with ⟨y, rfl, hy⟩ | ⟨y, -, rfl⟩
  · have hm : ∀ w ∈ marks, '/' ∈ w := by decide
    exact hs (by simp [hm w hw])
  · exact ht (by simp)

theorem mark_prefix {w r v : Text} (hw : w ∈ marks) (hv : '/' ∉ v) (h : s ++ v = w ++ r) :
    ∃ z, s = w ++ z ∧ r = z ++ v := by
  have hl : ∀ w ∈ marks, w.getLast? = some '/' := by decide
  rcases append_eq_append_iff.mp h with ⟨e, rfl, rfl⟩ | ⟨e, rfl, hr⟩
  · rcases eq_nil_or_concat' e with rfl | ⟨e, c, rfl⟩
    · exact ⟨[], by simp, rfl⟩
    · have hc := hl _ hw
      rw [← append_assoc, getLast?_concat] at hc
      cases hc
      simp at hv
  · exact ⟨e, rfl, hr⟩

/-- An address begins in the text and goes on in it. -/
def OpensEarly (s : Text) : Prop := ∃ w ∈ marks, ∃ x z, s = x ++ (w ++ z) ∧ z ≠ []

theorem replace_cred_hit {w z : Text} (hw : w ∈ marks) (hz : z ≠ []) (ha : '@' ∉ z) :
    credRedact.replace id (w ++ (z ++ ['@'])) = w ++ "[REDACTED]@".toList := by
  refine substitute_whole (find_cred.mpr ⟨w, hw, z, [], rfl, hz, ha, ?_⟩) (by simp)
  simp only [length_append, length_singleton]

/-- `s`, the part `v` of a userinfo before its first at sign, and that sign. -/
theorem replace_cred_cases {v : Text} (hv : '/' ∉ v) (ha : '@' ∉ s ++ v) :
    (∃ w ∈ marks, ∃ z, s = w ++ z ∧ z ++ v ≠ [] ∧
      credRedact.replace id (s ++ (v ++ ['@'])) = w ++ "[REDACTED]@".toList) ∨
    (∀ w ∈ marks, ∀ z, s = w ++ z → z ++ v = []) ∧
      credRedact.find id (s ++ (v ++ ['@'])) = none := by
  by_cases h : ∃ w ∈ marks, ∃ z, s = w ++ z ∧ z ++ v ≠ []
  · obtain ⟨w, hw, z, rfl, hz⟩ := h
    refine .inl ⟨w, hw, z, rfl, hz, ?_⟩
    rw [append_assoc] at ha
    rw [append_assoc, ← append_assoc z]
    exact replace_cred_hit hw hz fun hm => ha (mem_append_right _ hm)
  · refine .inr ⟨fun w hw z hz => by_contra fun hn => h ⟨w, hw, z, hz, hn⟩, ?_⟩
    rw [Option.eq_none_iff_forall_ne_some]
    intro found hf
    obtain ⟨w, hw, user, y, hs, hu, -⟩ := find_cred.mp hf
    obtain ⟨z, rfl, hr⟩ := mark_prefix hw (by simp [hv]) hs
    refine h ⟨w, hw, z, rfl, fun hn => ?_⟩
    rw [← append_assoc, hn] at hr
    obtain ⟨c, user, rfl⟩ := exists_cons_of_ne_nil hu
    simp at hr

theorem OpensEarly.length_le (h : OpensEarly s) : 8 ≤ s.length := by
  obtain ⟨w, hw, x, z, rfl, hz⟩ := h
  have hl : ∀ w ∈ marks, 7 ≤ w.length := by decide
  have := hl w hw
  have := length_pos_iff.mpr hz
  simp only [length_append]
  omega

theorem OpensEarly.replace (h : OpensEarly s) (ha : '@' ∉ s) : ∃ x, ∀ v : Text, '/' ∉ v →
    '@' ∉ v → credRedact.replace id (s ++ (v ++ ['@'])) = x ++ ['@'] := by
  induction s with
  | nil =>
    obtain ⟨w, -, x, z, hs, hz⟩ := h
    simp_all
  | cons c s ih =>
    by_cases hd : ∃ w ∈ marks, ∃ z, c :: s = w ++ z ∧ z ≠ []
    · obtain ⟨w, hw, z, hs, hz⟩ := hd
      refine ⟨w ++ "[REDACTED]".toList, fun v hv hav => ?_⟩
      rw [hs, append_assoc, ← append_assoc z, replace_cred_hit hw (by simp [hz]) (by simp_all)]
      simp
    · have he : OpensEarly s := by
        obtain ⟨w, hw, x, z, hs, hz⟩ := h
        rcases x with _ | ⟨c', x⟩
        · exact absurd ⟨w, hw, z, hs, hz⟩ hd
        · exact ⟨w, hw, x, z, (cons.inj hs).2, hz⟩
      obtain ⟨x, hx⟩ := ih he (not_mem_of_not_mem_cons ha)
      refine ⟨c :: x, fun v hv hav => ?_⟩
      rcases replace_cred_cases hv (by simp_all : '@' ∉ (c :: s) ++ v) with ⟨w, hw, z, hs, -⟩ | ⟨-, hr⟩
      · -- the mark is the whole text, too short for the one after its first character
        have hz : z = [] := by_contra fun hn => hd ⟨w, hw, z, hs, hn⟩
        have hl : ∀ w ∈ marks, w.length ≤ 8 := by decide
        have h1 := he.length_le
        have h2 := hl w hw
        have h3 := congrArg length hs
        simp only [hz, append_nil, length_cons] at h3
        omega
      · rw [cons_append] at hr ⊢
        rw [Pattern.replace_cons hr, hx v hv hav]
        rfl

/-- A name is masked if the mark stands right before it. -/
def masked (s v : Text) : Text :=
  if (∃ w ∈ marks, w <:+ s) ∧ v ≠ [] then "[REDACTED]".toList else v

theorem replace_cred_late {v : Text} (h : ¬ OpensEarly s) (hv : '/' ∉ v) (ha : '@' ∉ s ++ v) :
    credRedact.replace id (s ++ (v ++ ['@'])) = s ++ (masked s v ++ ['@']) := by
  unfold masked
  induction s with
  | nil =>
    have hq := replace_cred_quiet (s := v ++ ['@']) (t := []) (by simp [hv]) (by simp)
    have hn : ∀ w ∈ marks, w ≠ [] := by decide
    rw [append_nil] at hq
    rw [if_neg, nil_append, hq]
    rintro ⟨⟨w, hw, hs⟩, -⟩
    exact hn w hw (suffix_nil.mp hs)
  | cons c s ih =>
    have hs : ¬ OpensEarly s := by
      rintro ⟨w, hw, x, z, rfl, hz⟩
      exact h ⟨w, hw, c :: x, z, rfl, hz⟩
    rcases replace_cred_cases hv ha with ⟨w, hw, z, he, hz, hr⟩ | ⟨hm, hr⟩
    · have hz' : z = [] := by
        by_contra hne
        exact h ⟨w, hw, [], z, he, hne⟩
      subst hz'
      rw [append_nil] at he
      rw [hr, if_pos ⟨⟨w, hw, he ▸ suffix_rfl⟩, hz⟩, he]
      rfl
    · have hc : ((∃ w ∈ marks, w <:+ c :: s) ∧ v ≠ []) ↔ (∃ w ∈ marks, w <:+ s) ∧ v ≠ [] := by
        constructor
        · rintro ⟨⟨w, hw, hs⟩, hn⟩
          rcases suffix_cons_iff.mp hs with rfl | hs
          · exact absurd (hm _ hw [] (by simp)) hn
          · exact ⟨⟨w, hw, hs⟩, hn⟩
        · rintro ⟨⟨w, hw, hs⟩, hn⟩
          exact ⟨⟨w, hw, hs.trans (suffix_cons ..)⟩, hn⟩
      rw [cons_append] at hr ⊢
      rw [Pattern.replace_cons hr, ih hs (fun hm => ha (mem_cons_of_mem _ hm))]
      simp only [hc]
      rfl

end Addresses

/-! ## Two runs -/

section TwoRuns

variable {a scheme u u' h b : Text}

def IsUserinfo (u : Text) : Prop := ∀ c ∈ u, c ≠ '/' ∧ ¬ Text.isSpace c

def beforeAt (u : Text) : Text := u.takeWhile (· ≠ '@')

def fromAt (u : Text) : Text := u.dropWhile (· ≠ '@')

/-- What stands between the last at sign before the userinfo and the userinfo. -/
def opening (a scheme : Text) : Text := (a ++ scheme).rtakeWhile (· ≠ '@') ++ "://".toList

theorem redactCredentials_parts {front s v d t x : Text} (hf : front.getLast?.all (· = '@'))
    (hd : d.head?.all (· = '@')) (hu : IsUserinfo d) (ht : '@' ∉ t)
    (hx : credRedact.replace id (s ++ (v ++ ['@'])) = x ++ ['@']) :
    redactCredentials (front ++ (s ++ (v ++ (d ++ '@' :: t)))) =
      redactHeaders (credRedact.replace id front ++ x) ++ (d ++ '@' :: redactHeaders t) := by
  obtain ⟨y, hy, hq, hr⟩ : ∃ y, d ++ '@' :: t = '@' :: y ∧ credRedact.replace id y = y ∧
      '@' :: redactHeaders y = d ++ '@' :: redactHeaders t := by
    cases d with
    | nil => exact ⟨t, rfl, replace_cred_quiet (s := []) (by simp) ht, rfl⟩
    | cons c d =>
      obtain rfl : c = '@' := by simpa using hd
      have hu := (forall_mem_cons.mp hu).2
      refine ⟨d ++ '@' :: t, rfl, ?_, ?_⟩
      · have hn : '/' ∉ d ++ ['@'] := by
          intro hm
          rcases mem_append.mp hm with hm | hm
          · exact (hu _ hm).1 rfl
          · simp at hm
        have hq := replace_cred_quiet hn ht
        rwa [append_assoc] at hq
      · rw [redactHeaders_at, redactHeaders_eq_self fun c hc => (hu c hc).2]
        rfl
  have hc : ∀ q, credRedact.replace id (front ++ q) =
      credRedact.replace id front ++ credRedact.replace id q := by
    intro q
    rcases eq_nil_or_concat' front with rfl | ⟨front, c, rfl⟩
    · rfl
    · obtain rfl : c = '@' := by simpa using hf
      rw [append_assoc]
      exact replace_cred_at front q
  rw [redactCredentials, hy, hc, ← append_assoc s, replace_cred_at, append_assoc s, hx, hq,
    append_assoc x, ← append_assoc, singleton_append, redactHeaders_at, hr]

theorem at_notMem_beforeAt (u : Text) : '@' ∉ beforeAt u := by
  intro hm
  simpa using mem_takeWhile_imp hm

theorem head_fromAt (u : Text) : (fromAt u).head?.all (· = '@') := by
  rw [fromAt]
  induction u with
  | nil => rfl
  | cons c u ih => by_cases hc : c = '@' <;> simp_all

theorem append_at_inj {v v' d d' t : Text} (hv : '@' ∉ v) (hv' : '@' ∉ v')
    (hd : d.head?.all (· = '@')) (hd' : d'.head?.all (· = '@')) :
    v ++ (d ++ '@' :: t) = v' ++ (d' ++ '@' :: t) ↔ v = v' ∧ d = d' := by
  have hy : ∀ d : Text, d.head?.all (· = '@') → ∃ y, d ++ '@' :: t = '@' :: y := by
    rintro (_ | ⟨c, d⟩) hd
    · exact ⟨t, rfl⟩
    · obtain rfl : c = '@' := by simpa using hd
      exact ⟨d ++ '@' :: t, rfl⟩
  obtain ⟨y, hy₁⟩ := hy d hd
  obtain ⟨y', hy₂⟩ := hy d' hd'
  constructor
  · intro h
    rw [hy₁, hy₂] at h
    obtain ⟨rfl, rfl⟩ := Text.append_cons_inj h hv hv'
    exact ⟨rfl, append_cancel_right (hy₁.trans hy₂.symm)⟩
  · rintro ⟨rfl, rfl⟩
    rfl

theorem redactCredentials_opening {t x : Text} (hu : IsUserinfo u) (ht : '@' ∉ t)
    (hx : credRedact.replace id (opening a scheme ++ (beforeAt u ++ ['@'])) = x ++ ['@']) :
    redactCredentials (a ++ scheme ++ "://".toList ++ u ++ '@' :: t) =
      redactHeaders (credRedact.replace id ((a ++ scheme).rdropWhile (· ≠ '@')) ++ x) ++
        (fromAt u ++ '@' :: redactHeaders t) := by
  rw [← redactCredentials_parts ?_ (head_fromAt u)
    (fun c hc => hu c ((dropWhile_sublist _).subset hc)) ht hx]
  · have hf := rdropWhile_append_rtakeWhile (p := (· ≠ '@')) (l := a ++ scheme)
    have hb : beforeAt u ++ fromAt u = u := takeWhile_append_dropWhile
    nth_rewrite 1 [← hf, ← hb]
    simp only [opening, append_assoc]
  · rw [rdropWhile, getLast?_reverse]
    exact head_fromAt _

theorem at_notMem_opening : '@' ∉ opening a scheme := by
  intro hm
  rcases mem_append.mp hm with hm | hm
  · simpa using mem_rtakeWhile_imp hm
  · revert hm
    decide

theorem masked_eq_iff {s v v' : Text} : masked s v = masked s v' ↔
    v = v' ∨ (∃ w ∈ marks, w <:+ s) ∧ v ≠ [] ∧ v' ≠ [] := by
  unfold masked
  by_cases hm : ∃ w ∈ marks, w <:+ s
  · by_cases hv : v = [] <;> by_cases hv' : v' = [] <;> simp [hm, hv, hv']
  · simp [hm]

theorem forall_mem_masked {P : Char → Prop} {s v : Text} (hr : ∀ c ∈ "[REDACTED]".toList, P c)
    (hv : ∀ c ∈ v, P c) : ∀ c ∈ masked s v, P c := by
  unfold masked
  split_ifs
  · exact hr
  · exact hv

theorem redactHeaders_opening {front v : Text} (hv : ∀ c ∈ v, ¬ Text.isSpace c) :
    redactHeaders (front ++ (opening a scheme ++ v)) =
      redactHeaders (front ++ (a ++ scheme).rtakeWhile (· ≠ '@')) ++ ("://".toList ++ v) := by
  rw [opening, append_assoc, ← append_assoc front]
  exact redactHeaders_mark (forall_mem_cons.mpr ⟨by decide, hv⟩)

theorem redactCredentials_eq_iff (hu : IsUserinfo u) (hu' : IsUserinfo u') (hh : '@' ∉ h)
    (hb : '@' ∉ b) :
    redactCredentials (a ++ scheme ++ "://".toList ++ u ++ '@' :: (h ++ b)) =
        redactCredentials (a ++ scheme ++ "://".toList ++ u' ++ '@' :: (h ++ b)) ↔
      fromAt u = fromAt u' ∧ (beforeAt u = beforeAt u' ∨ OpensEarly (opening a scheme) ∨
        (∃ w ∈ marks, w <:+ opening a scheme) ∧ beforeAt u ≠ [] ∧ beforeAt u' ≠ []) := by
  have ht : '@' ∉ h ++ b := by simp [hh, hb]
  have hs : ∀ u, IsUserinfo u → '/' ∉ beforeAt u := fun u hu hm =>
    (hu _ ((takeWhile_sublist _).subset hm)).1 rfl
  by_cases he : OpensEarly (opening a scheme)
  · obtain ⟨x, hx⟩ := he.replace at_notMem_opening
    rw [redactCredentials_opening hu ht (hx _ (hs u hu) (at_notMem_beforeAt u)),
      redactCredentials_opening hu' ht (hx _ (hs u' hu') (at_notMem_beforeAt u')),
      append_right_inj, append_left_inj]
    simp [he]
  · have hl : ∀ u, IsUserinfo u → _ := fun u hu => redactCredentials_opening hu ht
      ((replace_cred_late he (hs u hu) (by simp [at_notMem_opening, at_notMem_beforeAt u])).trans
        (append_assoc ..).symm)
    have hm : ∀ u, IsUserinfo u → ∀ c ∈ masked (opening a scheme) (beforeAt u), ¬ Text.isSpace c :=
      fun u hu => forall_mem_masked (by simp; decide) fun c hc =>
        (hu c ((takeWhile_sublist _).subset hc)).2
    have ha : ∀ u, '@' ∉ masked (opening a scheme) (beforeAt u) := fun u hc =>
      forall_mem_masked (P := (· ≠ '@')) (by simp)
        (fun c hc h => at_notMem_beforeAt u (h ▸ hc)) _ hc rfl
    rw [hl u hu, hl u' hu', redactHeaders_opening (hm u hu), redactHeaders_opening (hm u' hu')]
    simp only [append_assoc, append_right_inj]
    rw [append_at_inj (ha u) (ha u') (head_fromAt u) (head_fromAt u'), masked_eq_iff]
    simp [he, and_comm]

theorem redactCredentials_eq_iff_https : IsUserinfo "tok".toList ∧ IsUserinfo "key".toList ∧
    redactCredentials ([] ++ "https".toList ++ "://".toList ++ "tok".toList ++ '@' :: ("h".toList ++ [])) =
      redactCredentials ([] ++ "https".toList ++ "://".toList ++ "key".toList ++
        '@' :: ("h".toList ++ [])) := by
  have hu : IsUserinfo "tok".toList := by simp [IsUserinfo]; decide
  have hu' : IsUserinfo "key".toList := by simp [IsUserinfo]; decide
  refine ⟨hu, hu', (redactCredentials_eq_iff hu hu' (by decide) (by decide)).mpr ?_⟩
  exact ⟨by decide, .inr (.inr ⟨⟨"https://".toList, by decide, by decide⟩, by decide, by decide⟩)⟩

theorem userinfo_leaks :
    redactCredentials "HTTPS://a@h".toList ≠ redactCredentials "HTTPS://b@h".toList ∧
      redactCredentials "https://u@a@h".toList ≠ redactCredentials "https://u@b@h".toList := by
  decide +kernel

end TwoRuns

end Apme.Gateway
