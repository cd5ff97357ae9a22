import Apme.Graph.Readings

/-!
# What redaction leaves of a userinfo

Two texts that differ in the userinfo of one URL are redacted alike if the first
source that reaches the URL is the URL itself, shows its userinfo as redacted, or
holds it in a path in which the URL is found in turn (`Hides`).

Otherwise a source can take the scheme of the URL for its host; the userinfo is
then a part of the path and is kept.
-/

set_option autoImplicit false

namespace Apme.Graph.Sensitivity

open Apme.Lib Apme.Lib.Substitution List

section Userinfo

variable {c : Char} {scheme : Text}

theorem isAuthorityChar_of_isSchemeChar (hC : isSchemeChar c) :
    (c ≠ ':' && isAuthorityChar c) := by
  simp only [isAuthorityChar, Bool.and_eq_true, decide_eq_true_eq]
  refine ⟨?_, ⟨?_, ?_⟩, ?_⟩ <;> rintro rfl <;> exact absurd hC (by decide)

theorem redactUrlUserinfo_named (named : IsScheme scheme) (rest : Text) :
    redactUrlUserinfo (scheme ++ (schemeMark ++ rest)) =
      scheme ++ (schemeMark ++
        if '@' ∈ rest.takeWhile isAuthorityChar then
          redacted ++ '@' :: (rest.takeWhile isAuthorityChar).rtakeWhile (· ≠ '@') ++
            rest.dropWhile isAuthorityChar
        else rest) := by
  obtain ⟨ht, hd⟩ := Text.takeWhile_before
    (fun c mem => isAuthorityChar_of_isSchemeChar (named.chars c mem))
    (show ((':' : Char) ≠ ':' && isAuthorityChar ':') = false by decide) ('/' :: '/' :: rest)
  have hw : scheme ++ (schemeMark ++ rest) = scheme ++ ':' :: '/' :: '/' :: rest := rfl
  have hm : afterMark (':' :: '/' :: '/' :: rest) = some rest := afterMark_eq_some.mpr rfl
  obtain ⟨c, more, hC, -⟩ := named.exists_cons
  have hfill : scheme ≠ [] := by simp [hC]
  rw [redactUrlUserinfo, hw, ht, hd, hm]
  by_cases hs : '@' ∈ rest.takeWhile isAuthorityChar
  · simp [hfill, hs]
  · simp [hs, schemeMark]

theorem redactUrlUserinfo_front {after : Text} (named : IsScheme scheme) (u : Credential)
    (host : '@' ∉ after.takeWhile isAuthorityChar) :
    redactUrlUserinfo (front scheme u ++ after) =
      scheme ++ (schemeMark ++ (redacted ++ '@' :: after)) := by
  have hw : front scheme u ++ after = scheme ++ (schemeMark ++ (u.1 ++ '@' :: after)) := by
    simp [front]
  have hc : ∀ c ∈ u.1, isAuthorityChar c := fun c mem => (u.chars mem).1
  have hs : isAuthorityChar '@' := by decide
  have last : (u.1 ++ '@' :: after.takeWhile isAuthorityChar).rtakeWhile (· ≠ '@') =
      after.takeWhile isAuthorityChar := by
    have ho : ∀ c ∈ (after.takeWhile isAuthorityChar).reverse, decide (c ≠ '@') :=
      fun c mem => decide_eq_true (ne_of_mem_of_not_mem (mem_reverse.mp mem) host)
    obtain ⟨ht, -⟩ := Text.takeWhile_before ho (decide_eq_false (· rfl)) u.1.reverse
    simp [List.rtakeWhile] at ht ⊢
    rw [ht, reverse_reverse]
  rw [hw, redactUrlUserinfo_named named, takeWhile_append_of_pos hc,
    dropWhile_append_of_pos hc, takeWhile_cons_of_pos hs,
    dropWhile_cons_of_pos hs, if_pos (by simp), last, append_assoc, cons_append,
    takeWhile_append_dropWhile]

/-- What comes after the authority is left alone. -/
theorem redactUrlUserinfo_ended {rest : Text} (named : IsScheme scheme)
    (ended : rest.dropWhile isAuthorityChar ≠ []) (tail : Text) :
    redactUrlUserinfo (scheme ++ (schemeMark ++ (rest ++ tail))) =
      redactUrlUserinfo (scheme ++ (schemeMark ++ rest)) ++ tail := by
  obtain ⟨ht, hd⟩ := while_append ended tail
  rw [redactUrlUserinfo_named named, redactUrlUserinfo_named named, ht, hd]
  split <;> simp

end Userinfo

section Markers

theorem infix_append_cons {marker : Text} {s : Char} (hs : s ∉ marker) (first rest : Text) :
    marker <:+: first ++ s :: rest ↔ marker <:+: first ∨ marker <:+: rest := by
  have head : ∀ part, s ∉ part → (part <+: s :: rest ↔ part = []) := by
    intro part out
    rw [prefix_cons_iff, or_iff_left]
    rintro ⟨more, rfl, -⟩
    simp at out
  rw [infix_append_iff, infix_cons_iff, head marker hs]
  constructor
  · rintro (inFirst | (rfl | inRest) | ⟨part, more, rfl, ends, starts⟩)
    · exact .inl inFirst
    · exact .inl nil_infix
    · exact .inr inRest
    · obtain rfl := (head more fun mem => hs (mem_append_right part mem)).mp starts
      rw [append_nil]
      exact .inl ends.isInfix
  · rintro (inFirst | inRest)
    · exact .inl inFirst
    · exact .inr (.inl (.inr inRest))

theorem lengthen_congr {taken taken' : Text → Bool} {marker : Text} (fuel fuel' : Nat)
    (same : ∀ more : Nat, taken (marker ++ replicate more '_') = taken' (marker ++ replicate more '_'))
    (he : ∀ other, taken other → other.length < marker.length + fuel)
    (he' : ∀ other, taken' other → other.length < marker.length + fuel') :
    lengthen taken fuel marker = lengthen taken' fuel' marker := by
  have here : taken marker = taken' marker := by simpa using same 0
  induction fuel generalizing fuel' marker with
  | zero =>
    have free : ¬ taken marker := fun ht => absurd (he marker ht) (by simp)
    cases fuel' <;> simp [lengthen, ← here, free]
  | succ fuel ih =>
    cases ht : taken marker with
    | false => cases fuel' <;> simp [lengthen, ← here, ht]
    | true =>
      rw [ht] at here
      have room := he' marker here.symm
      obtain ⟨more, rfl⟩ : ∃ more, fuel' = more + 1 := ⟨fuel' - 1, by omega⟩
      have next := @ih (marker ++ ['_']) more
        (fun count => by simpa [replicate_succ] using same (count + 1))
        (fun other hi => by have := he other hi; simp; omega)
        (fun other hi => by have := he' other hi; simp; omega)
        (by simpa using same 1)
      simp [lengthen, ht, ← here, next]

/-- How every marker begins. -/
def markerStart : Text := "\x00APME_".toList

variable {scheme : Text} {u u' : Credential} (unmarked : ¬ markerStart <:+: u.1)
  (unmarked' : ¬ markerStart <:+: u'.1)

include unmarked unmarked'

/-- Which marker is chosen does not depend on a userinfo that holds none. -/
theorem freshMarker_front (lead after : Text) (masks : Masks) :
    freshMarker (lead ++ (front scheme u ++ after)) masks "URL".toList =
      freshMarker (lead ++ (front scheme u' ++ after)) masks "URL".toList := by
  have seen : ∀ (v : Credential) (marker : Text), ¬ markerStart <:+: v.1 → markerStart <+: marker →
      '/' ∉ marker → '@' ∉ marker → (marker <:+: lead ++ (front scheme v ++ after) ↔
        marker <:+: lead ++ scheme ++ [':', '/'] ∨ marker <:+: after) := by
    intro v marker free starts slash sign
    have whole : lead ++ (front scheme v ++ after) =
        lead ++ scheme ++ [':', '/'] ++ '/' :: (v.1 ++ '@' :: after) := by
      simp [front, schemeMark]
    rw [whole, infix_append_cons slash, infix_append_cons sign,
      or_iff_right fun inside => free (starts.isInfix.trans inside)]
  have room : ∀ (v : Credential) (other : Text),
      (other <:+: lead ++ (front scheme v ++ after) || other ∈ masks.map Prod.fst) →
        other.length < (lead ++ (front scheme v ++ after)).length +
          ((masks.map Prod.fst).map List.length).sum + 1 := by
    intro v other taken
    rw [Bool.or_eq_true, decide_eq_true_eq, decide_eq_true_eq] at taken
    obtain inside | isMarker := taken
    · have := inside.length_le
      omega
    · have := le_sum_of_mem (mem_map_of_mem (f := List.length) isMarker)
      omega
  have clean : ∀ d : Char, d.isDigit = false →
      d ∉ "\x00APME_".toList ++ "URL".toList ++ ['_'] ++ ['\x00'] → ∀ more,
        d ∉ "\x00APME_".toList ++ "URL".toList ++ ['_'] ++ (toString masks.length).toList ++ ['\x00'] ++
          replicate more '_' := by
    intro d other out more
    have index : d ∉ (toString masks.length).toList := by
      rw [Nat.toString_eq_repr, Nat.toList_repr]
      intro mem
      rw [Nat.isDigit_of_mem_toDigits (by decide) (by decide) mem] at other
      cases other
    simp only [mem_append, mem_singleton, mem_replicate, not_or] at out ⊢
    tauto
  refine lengthen_congr _ _ (fun more => ?_) (fun other taken => ?_) fun other taken => ?_
  · have starts : markerStart <+: "\x00APME_".toList ++ "URL".toList ++ ['_'] ++
        (toString masks.length).toList ++ ['\x00'] ++ replicate more '_' := by
      simp only [append_assoc]
      exact prefix_append _ _
    have slash := clean '/' (by decide) (by decide) more
    have sign := clean '@' (by decide) (by decide) more
    rw [decide_eq_decide.mpr ((seen u _ unmarked starts slash sign).trans
      (seen u' _ unmarked' starts slash sign).symm)]
  · have := room u other taken
    omega
  · have := room u' other taken
    omega

theorem redactInnerUrl_front (recur : Recur) (lead after : Text) :
    redactInnerUrl recur (lead ++ (front scheme u ++ after)) =
      redactInnerUrl recur (lead ++ (front scheme u' ++ after)) := by
  funext embedded masks
  simp only [redactInnerUrl, maskRegion, freshMarker_front unmarked unmarked']

end Markers

section Finders

variable {σ : Type} (wide : Char → Bool)

/-- The length of a source; with `scp` an SCP-style source counts too. -/
def sourceLength (scp : Bool) (before : Option Char) (text : Text) : Option Nat :=
  (urlLength wide before text).or
    (if scp then (scpMatch wide before text).map (·.text.length) else none)

variable (scp : Bool) (limit : Nat) (act : Option Text → Action σ Char)
  (scpAct : Text → Action σ Char)

/-- What the finders of both levels have in common: `act` is what they do with
the result of the recursive call. -/
def finder : Finder σ Char := fun before text =>
  match urlLength wide before text with
  | some size =>
    some (size, act (redactQueryFragment wide limit true (redactUrlUserinfo (text.take size))))
  | none =>
    if scp then (scpMatch wide before text).map fun source =>
      (source.text.length, scpAct (text.take source.text.length))
    else none

theorem sources_eq_finder :
    sources wide limit =
      finder wide true limit (fun done _ => done.map ((), ·)) (redactScp wide limit) := by
  funext before text
  simp only [sources, finder]
  cases urlLength wide before text <;> rfl

theorem urls_eq_finder (value : Text) :
    urls wide (redactInnerUrl (redactQueryFragment wide limit true) value) =
      finder wide false limit
        (fun done masks => done.map fun region => maskRegion value "URL".toList region masks)
        fun _ _ => none := by
  funext before text
  simp only [urls, finder]
  cases urlLength wide before text <;> rfl

theorem finder_sizes (before : Option Char) (text : Text) :
    (finder wide scp limit act scpAct before text).map Prod.fst =
      sourceLength wide scp before text := by
  unfold finder sourceLength
  cases urlLength wide before text with
  | some size => rfl
  | none => cases scp <;> simp [Function.comp_def]

variable {scheme after : Text}

theorem alike_of_extent {find : Finder σ Char} {before : Option Char} {part : Text} {x : Extent}
    (fits : x.Fits part after) (make : Text → Action σ Char)
    (found : ∀ u : Credential, find before (part ++ (front scheme u ++ after)) =
      some (x.size part (front scheme u),
        make ((part ++ (front scheme u ++ after)).take (x.size part (front scheme u))))) :
    Alike find (fun u => front scheme u ++ after) before part := by
  cases x with
  | inside size =>
    refine .inr (.inl ⟨size, make (part.take size), fits, fun u => (found u).trans ?_⟩)
    simp only [Extent.size, take_append_of_le_length (show size ≤ part.length from fits)]
  | across more =>
    refine .inr (.inr fun u => ⟨_, _, ?_, found u⟩)
    simp only [Extent.size, front, length_append, length_singleton]
    omega

theorem finder_alike (named : IsScheme scheme) (before : Option Char) (part : Text) :
    Alike (finder wide scp limit act scpAct) (fun u => front scheme u ++ after) before part := by
  obtain ⟨e, fits, reads⟩ : Steady scheme after part _ := urlLength_steady wide before named part
  obtain ⟨e', fits', reads'⟩ : Steady scheme after part _ := scpMatch_steady named wide before part
  cases e with
  | some x =>
    refine alike_of_extent (fits x rfl)
      (fun url => act (redactQueryFragment wide limit true (redactUrlUserinfo url))) fun u => ?_
    simp only [finder, reads, Option.map_some]
  | none =>
    have other : ∀ u : Credential,
        finder wide scp limit act scpAct before (part ++ (front scheme u ++ after)) =
        if scp then (e'.map (·.size part (front scheme u))).map fun size =>
          (size, scpAct ((part ++ (front scheme u ++ after)).take size))
        else none := by
      intro u
      rw [← reads' u]
      simp only [finder, reads, Option.map_none, Option.map_map, Function.comp_def]
    cases scp with
    | false => exact .inl other
    | true =>
      cases e' with
      | none => exact .inl other
      | some x => exact alike_of_extent (fits' x rfl) scpAct other

end Finders

/-- Where a URL is looked for: in a text, with `scp` among SCP-style sources too,
or in the value that a recursive call is given. -/
inductive Look
  | text (scp : Bool)
  | value (outerUrl : Bool)

/-- A search for sources finds the URL that stands between `lead` and `after`, or
takes it for something that is not shown. -/
inductive Hides (wide : Char → Bool) (scheme : Text) (u : Credential) : Look → Text → Text → Prop
  /-- The reading comes to the URL, or to characters that make its scheme longer. -/
  | own {scp : Bool} {lead after part : Text} {last : Option Char}
    (reached : reach (sourceLength wide scp) (front scheme u ++ after) none 0 lead = (last, part))
    (bounded : last.any (isWord wide) = false) (longer : IsScheme (part ++ scheme)) :
    Hides wide scheme u (.text scp) lead after
  /-- It comes to another URL, whose authority has ended and whose path hides it. -/
  | inUrl {scp : Bool} {lead after outer rest : Text} {last : Option Char} {more : Nat}
    (reached : reach (sourceLength wide scp) (front scheme u ++ after) none 0 lead =
      (last, outer ++ (schemeMark ++ rest)))
    (isScheme : IsScheme outer) (ended : rest.dropWhile isAuthorityChar ≠ [])
    (taken : urlLength wide last (outer ++ (schemeMark ++ rest) ++ (front scheme u ++ after)) =
      some ((outer ++ (schemeMark ++ rest)).length + (front scheme u).length + more))
    (inner : Hides wide scheme u (.value true) (redactUrlUserinfo (outer ++ (schemeMark ++ rest)))
      (after.take more)) :
    Hides wide scheme u (.text scp) lead after
  /-- An SCP-style source has the URL in its userinfo, which then has a colon. -/
  | asUserinfo {lead after part name path : Text} {last : Option Char} {more : Nat}
    (reached : reach (sourceLength wide true) (front scheme u ++ after) none 0 lead = (last, part))
    (noUrl : urlLength wide last (part ++ (front scheme u ++ after)) = none)
    (taken : (scpMatch wide last (part ++ (front scheme u ++ after))).map (·.text.length) =
      some (part.length + (front scheme u).length + more))
    (seen : ∀ v : Credential, scpFullmatch wide (part ++ (front scheme v ++ after.take more)) =
      some { userinfo := some (part ++ (scheme ++ (schemeMark ++ v.1))), host := name, path }) :
    Hides wide scheme u (.text true) lead after
  /-- An SCP-style source has it in its path, which hides it. -/
  | inPath {lead after part : Text} {last : Option Char} {source : Scp} {more : Nat}
    (reached : reach (sourceLength wide true) (front scheme u ++ after) none 0 lead = (last, part))
    (noUrl : urlLength wide last (part ++ (front scheme u ++ after)) = none)
    (taken : (scpMatch wide last (part ++ (front scheme u ++ after))).map (·.text.length) =
      some (part.length + (front scheme u).length + more))
    (seen : ∀ v : Credential, scpFullmatch wide (part ++ (front scheme v ++ after.take more)) =
      some { source with path := source.path ++ (front scheme v ++ after.take more) })
    (inner : Hides wide scheme u (.value false) source.path (after.take more)) :
    Hides wide scheme u (.text true) lead after
  /-- The value is a URL, and the rest of its path hides the other one. -/
  | afterAuthority {outer rest after : Text} (isScheme : IsScheme outer)
    (ended : rest.dropWhile isAuthorityChar ≠ [])
    (whole : urlLength wide none (outer ++ (schemeMark ++ rest) ++ (front scheme u ++ after)) =
      some ((outer ++ (schemeMark ++ rest)).length + (front scheme u).length + after.length))
    (inner : Hides wide scheme u (.text false) (rest.dropWhile isAuthorityChar) after) :
    Hides wide scheme u (.value true) (outer ++ (schemeMark ++ rest)) after
  /-- The path of an SCP-style source is the URL. -/
  | entire {lead after : Text} (longer : IsScheme (lead ++ scheme))
    (whole : urlLength wide none (lead ++ (front scheme u ++ after)) =
      some (lead.length + (front scheme u).length + after.length)) :
    Hides wide scheme u (.value false) lead after
  /-- The value is no URL, and hides the URL as a text does. -/
  | elsewhere {outerUrl : Bool} {lead after : Text}
    (other : urlLength wide none (lead ++ (front scheme u ++ after)) ≠
      some (lead.length + (front scheme u).length + after.length))
    (inner : Hides wide scheme u (.text false) lead after) :
    Hides wide scheme u (.value outerUrl) lead after

section Hidden

variable {wide : Char → Bool} {scheme after part : Text} {u u' : Credential} (named : IsScheme scheme)

theorem getLast_front (part kept : Text) (u : Credential) :
    (part ++ (front scheme u ++ kept)).getLast? = ('@' :: kept).getLast? := by
  rw [show part ++ (front scheme u ++ kept) =
    part ++ (scheme ++ (schemeMark ++ u.1)) ++ '@' :: kept by simp [front]]
  exact List.getLast?_append_of_ne_nil _ (by simp)

variable {σ : Type} {last : Option Char} {more : Nat} {limit : Nat}

variable (scheme after u u') in
/-- From here on the same is made of the text with either userinfo. -/
def SameFrom (find : Finder σ Char) (last : Option Char) (part : Text) : Prop :=
  ∀ s, sub find last 0 (part ++ (front scheme u ++ after)) s =
    sub find last 0 (part ++ (front scheme u' ++ after)) s

/-- A match beyond the URL: the same is made of it and of what follows. -/
theorem sub_across {find : Finder σ Char} (make : Text → Action σ Char) (short : more ≤ after.length)
    (found : ∀ v : Credential, find last (part ++ (front scheme v ++ after)) =
      some (part.length + (front scheme v).length + more,
        make ((part ++ (front scheme v ++ after)).take (part.length + (front scheme v).length + more))))
    (same : make (part ++ (front scheme u ++ after.take more)) =
      make (part ++ (front scheme u' ++ after.take more))) :
    SameFrom scheme after u u' find last part := by
  intro s
  have split : ∀ v : Credential, part ++ (front scheme v ++ after) =
      part ++ (front scheme v ++ after.take more) ++ after.drop more := by
    intro v
    simp
  have here : ∀ v : Credential,
      find last (part ++ (front scheme v ++ after.take more) ++ after.drop more) =
      some ((part ++ (front scheme v ++ after.take more)).length,
        make (part ++ (front scheme v ++ after.take more))) := by
    intro v
    rw [← split, found, take_across]
    simp only [length_append, length_take_of_le short, Nat.add_assoc]
  rw [split, split u']
  exact sub_matches (by simp [front]) (by rw [getLast_front, getLast_front]) (same ▸ here u) (here u') s

theorem host_take (host : '@' ∉ after.takeWhile isAuthorityChar) (kept : Nat) :
    '@' ∉ (after.take kept).takeWhile isAuthorityChar := by
  intro mem
  rw [← take_append_drop kept after, takeWhile_append] at host
  split at host
  · exact host (mem_append_left _ ((List.takeWhile_prefix _).subset mem))
  · exact host mem

/-- The userinfo of the URL is replaced, whatever it is. -/
theorem redactUrlUserinfo_own (longer : IsScheme (part ++ scheme))
    (host : '@' ∉ after.takeWhile isAuthorityChar) :
    redactUrlUserinfo (part ++ (front scheme u ++ after)) =
      redactUrlUserinfo (part ++ (front scheme u' ++ after)) := by
  have glued : ∀ v : Credential,
      part ++ (front scheme v ++ after) = front (part ++ scheme) v ++ after := by
    intro v
    simp [front]
  rw [glued, glued, redactUrlUserinfo_front longer u host, redactUrlUserinfo_front longer u' host]

section Values

variable (wide) (recur : Recur) {value : Text} (outerUrl : Bool)

theorem sub_urls_entire {replace : Text → Action σ Char}
    (whole : urlLength wide none value = some value.length) (s : σ) :
    sub (urls wide replace) none 0 value s = replace value s := by
  have filled : value ≠ [] := by
    rintro rfl
    cases whole
  have found : urls wide replace none (value ++ []) = some (value.length, replace value) := by
    simp [urls, whole]
  have read := sub_of_some (urls wide replace) filled found s
  rw [append_nil] at read
  rw [read]
  cases replace value s with
  | none => rfl
  | some made => simp [sub]

theorem sub_urls_other (other : urlLength wide none value ≠ some value.length) (masks : Masks) :
    sub (urls wide (redactNestedUrl wide recur outerUrl value)) none 0 value masks =
      sub (urls wide (redactInnerUrl recur value)) none 0 value masks := by
  have inner : ∀ last part, (∀ size, urlLength wide last part = some size →
      (part.take size).length ≠ value.length) →
        urls wide (redactNestedUrl wide recur outerUrl value) last part =
          urls wide (redactInnerUrl recur value) last part := by
    intro last part shorter
    unfold urls
    cases found : urlLength wide last part with
    | none => rfl
    | some size =>
      have nested : redactNestedUrl wide recur outerUrl value (part.take size) =
          redactInnerUrl recur value (part.take size) := by
        funext masks
        rw [redactNestedUrl, if_neg (shorter size found)]
      simp only [Option.map_some, nested]
  refine sub_congr (inner none value fun size found whole => ?_)
    (fun last part inside proper => inner last part fun size found whole => ?_) masks
  · have fits := urlLength_le wide none found
    rw [length_take, Nat.min_eq_left fits] at whole
    exact other (whole ▸ found)
  · refine proper (inside.eq_of_length_le ?_)
    rw [← whole]
    exact length_take_le' size part

theorem redactNestedUrl_outer {outer rest : Text} (isScheme : IsScheme outer)
    (ended : rest.dropWhile isAuthorityChar ≠ []) (tail : Text) (masks : Masks) :
    redactNestedUrl wide recur true (outer ++ (schemeMark ++ rest) ++ tail)
        (outer ++ (schemeMark ++ rest) ++ tail) masks =
      (sub (urls wide (redactInnerUrl recur (outer ++ (schemeMark ++ rest) ++ tail))) none 0
        (rest.dropWhile isAuthorityChar ++ tail) masks).map fun done =>
          (done.1, outer ++ schemeMark ++ rest.takeWhile isAuthorityChar ++ done.2) := by
  obtain ⟨scheme, -⟩ := Text.takeWhile_before isScheme.chars
    (show isSchemeChar ':' = false by decide) ('/' :: '/' :: (rest ++ tail))
  have whole : outer ++ (schemeMark ++ rest) ++ tail = outer ++ ':' :: '/' :: '/' :: (rest ++ tail) := by
    simp [schemeMark]
  have left : (outer ++ (schemeMark ++ rest) ++ tail).drop (outer.length + schemeMark.length) =
      rest ++ tail := by
    rw [show outer ++ (schemeMark ++ rest) ++ tail = outer ++ schemeMark ++ (rest ++ tail) by simp]
    exact drop_left' (by simp)
  obtain ⟨authority, path⟩ := while_append ended tail
  rw [← whole] at scheme
  simp only [redactNestedUrl, if_true, scheme, left, authority, path]

end Values

variable {scp : Bool} {act : Option Text → Action σ Char} {scpAct : Text → Action σ Char}
  {lead : Text}

variable (wide scheme u u') in
/-- What a search makes of the text does not depend on the userinfo. -/
def SameRead : Look → Text → Text → Prop
  | .text true, lead, after => ∀ limit, SameFrom scheme after u u' (sources wide limit) none lead
  | .text false, lead, after => ∀ limit value, SameFrom scheme after u u'
    (urls wide (redactInnerUrl (redactQueryFragment wide limit true) value)) none lead
  | .value outerUrl, lead, after => ∀ limit,
    redactQueryFragment wide limit outerUrl (lead ++ (front scheme u ++ after)) =
      redactQueryFragment wide limit outerUrl (lead ++ (front scheme u' ++ after))

theorem sameRead_of_finder (same : ∀ (σ : Type) limit act scpAct,
      SameFrom scheme after u u' (σ := σ) (finder wide scp limit act scpAct) none lead) :
    SameRead wide scheme u u' (.text scp) lead after := by
  cases scp with
  | true => exact fun limit => by rw [sources_eq_finder]; exact same _ _ _ _
  | false => exact fun limit value => by rw [urls_eq_finder]; exact same _ _ _ _

include named

theorem urlLength_own (bounded : last.any (isWord wide) = false) (longer : IsScheme (part ++ scheme))
    (v : Credential) :
    urlLength wide last (part ++ (front scheme v ++ after)) =
      some (part.length + (front scheme v).length + runLength 0 after) := by
  obtain ⟨c, rest, isCons, starts⟩ := longer.exists_cons
  refine urlLength_front wide last named (fun c mem => longer.chars c (mem_append_left scheme mem)) ?_ v
  rw [← List.head?_append, isCons]
  simp [starts, isBoundary, bounded, isWord]

theorem sub_lead
    (reached : reach (sourceLength wide scp) (front scheme u ++ after) none 0 lead = (last, part))
    (here : SameFrom scheme after u u' (finder wide scp limit act scpAct) last part) :
    SameFrom scheme after u u' (finder wide scp limit act scpAct) none lead := by
  intro s
  have alike : ∀ before rest, rest ≠ [] → rest <:+ lead →
      Alike (finder wide scp limit act scpAct) (fun v => front scheme v ++ after) before rest :=
    fun before rest _ _ => finder_alike wide scp limit act scpAct named before rest
  obtain ⟨made, reads⟩ := sub_reach (finder_sizes wide scp limit act scpAct) alike none 0 u
  simp only [reached] at reads
  rw [reads u s (Nat.zero_le _), reads u' s (Nat.zero_le _)]
  simp only [here _]

theorem sub_url (taken : urlLength wide last (part ++ (front scheme u ++ after)) =
      some (part.length + (front scheme u).length + more))
    (same : redactQueryFragment wide limit true
        (redactUrlUserinfo (part ++ (front scheme u ++ after.take more))) =
      redactQueryFragment wide limit true
        (redactUrlUserinfo (part ++ (front scheme u' ++ after.take more)))) :
    SameFrom scheme after u u' (finder wide scp limit act scpAct) last part := by
  obtain ⟨short, found⟩ := (urlLength_steady wide last named part).beyond taken
  exact sub_across (fun url => act (redactQueryFragment wide limit true (redactUrlUserinfo url))) short
    (fun v => by simp only [finder, found v]) (congrArg act same)

theorem sub_scp (noUrl : urlLength wide last (part ++ (front scheme u ++ after)) = none)
    (taken : (scpMatch wide last (part ++ (front scheme u ++ after))).map (·.text.length) =
      some (part.length + (front scheme u).length + more))
    (same : scpAct (part ++ (front scheme u ++ after.take more)) =
      scpAct (part ++ (front scheme u' ++ after.take more))) :
    SameFrom scheme after u u' (finder wide true limit act scpAct) last part := by
  have none := (urlLength_steady wide last named part).gone noUrl
  obtain ⟨short, found⟩ := (scpMatch_steady named wide last part).beyond taken
  refine sub_across scpAct short (fun v => ?_) same
  obtain ⟨source, isSource, size⟩ := Option.map_eq_some_iff.mp (found v)
  simp only [finder, none v, if_true, isSource, Option.map_some, size]

/-- Where a URL is hidden, its userinfo does not matter.  By induction over what
is found on the way. -/
theorem Hides.same {look : Look} (hides : Hides wide scheme u look lead after)
    (unmarked : ¬ markerStart <:+: u.1) (unmarked' : ¬ markerStart <:+: u'.1)
    (host : '@' ∉ after.takeWhile isAuthorityChar) : SameRead wide scheme u u' look lead after := by
  induction hides with
  | own reached bounded longer =>
    refine sameRead_of_finder fun σ limit act scpAct => sub_lead named reached ?_
    refine sub_url named (urlLength_own named bounded longer u) ?_
    rw [redactUrlUserinfo_own longer (host_take host _)]
  | inUrl reached isScheme ended taken inner ih =>
    refine sameRead_of_finder fun σ limit act scpAct => sub_lead named reached ?_
    refine sub_url named taken ?_
    simp only [append_assoc, redactUrlUserinfo_ended isScheme ended]
    exact ih (host_take host _) limit
  | asUserinfo reached noUrl taken seen =>
    intro limit
    rw [sources_eq_finder]
    refine sub_lead named reached (sub_scp named noUrl taken ?_)
    funext s
    simp [redactScp, seen, safeUserinfo, schemeMark]
  | inPath reached noUrl taken seen inner ih =>
    intro limit
    rw [sources_eq_finder]
    refine sub_lead named reached (sub_scp named noUrl taken ?_)
    funext s
    simp only [redactScp, seen, ih (host_take host _) limit]
  | @afterAuthority outer rest after isScheme ended whole inner ih =>
    rintro (_ | limit)
    · rfl
    have found := ((urlLength_steady wide none named _).beyond whole).2
    have pass := fun v : Credential =>
      (sub_urls_entire wide ((found v).trans (by simp [Nat.add_assoc])) []).trans
        (redactNestedUrl_outer wide (redactQueryFragment wide limit true) isScheme ended
          (front scheme v ++ after) [])
    simp only [redactQueryFragment, redactValue, pass, redactInnerUrl_front unmarked unmarked',
      fun value => ih host limit value []]
  | @entire lead after longer whole =>
    rintro (_ | limit)
    · rfl
    have found := ((urlLength_steady wide none named _).beyond whole).2
    have pass : ∀ v : Credential,
        sub (urls wide (redactNestedUrl wide (redactQueryFragment wide limit true) false
          (lead ++ (front scheme v ++ after)))) none 0 (lead ++ (front scheme v ++ after)) [] =
            some ([], redactUrlUserinfo (lead ++ (front scheme v ++ after))) := by
      intro v
      rw [sub_urls_entire wide ((found v).trans (by simp [Nat.add_assoc]))]
      simp [redactNestedUrl]
    have same := @redactUrlUserinfo_own scheme after lead u u' longer host
    simp only [redactQueryFragment, redactValue, pass, same]
  | @elsewhere outerUrl lead after other inner ih =>
    rintro (_ | limit)
    · rfl
    have all : ∀ v : Credential, urlLength wide none (lead ++ (front scheme v ++ after)) ≠
        some (lead ++ (front scheme v ++ after)).length := by
      intro v whole
      simp only [length_append, ← Nat.add_assoc] at whole
      exact other (((urlLength_steady wide none named lead).beyond whole).2 u)
    have pass := fun v : Credential =>
      sub_urls_other wide (redactQueryFragment wide limit true) outerUrl (all v) []
    simp only [redactQueryFragment, redactValue, pass, redactInnerUrl_front unmarked unmarked',
      fun value => ih host limit value []]

end Hidden

section Placement

variable (wide : Char → Bool) (limit : Nat)

/-- A text in which a URL follows `lead`, up to its userinfo. -/
structure Source where
  lead : Text
  scheme : Text
  rest : Text
  named : IsScheme scheme
  hosted : '@' ∉ rest.takeWhile isAuthorityChar

def Source.text (source : Source) (userinfo : Text) : Text :=
  source.lead ++ source.scheme ++ schemeMark ++ userinfo ++ ['@'] ++ source.rest

def user : Credential := ⟨"user:secret".toList, by decide⟩

def guest : Credential := ⟨"guest".toList, by decide⟩

/-- A URL in the path of another one. -/
def proxied : Source :=
  { lead := "see https://proxy/".toList, scheme := "https".toList, rest := "host/repo".toList
    named := ⟨by decide, by decide⟩, hosted := by decide }

/-- A URL right after a parenthesis: the SCP pattern reads the parenthesis and
the scheme as its host. -/
def parenthesized : Source :=
  { lead := "(".toList, scheme := "https".toList, rest := "host/repo".toList
    named := ⟨by decide, by decide⟩, hosted := by decide }

end Placement

end Apme.Graph.Sensitivity
