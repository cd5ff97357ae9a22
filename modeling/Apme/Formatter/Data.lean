import Apme.Formatter.Order

/-!
# What formatting does to the data

Every pass is a walk, and a walk is judged by what it does to one mapping.  Two
of the passes change data: the arguments of the first key that is no keyword are
expanded, and the name is capitalised.  They do so in every mapping they meet,
whatever the document is.
-/

set_option autoImplicit false

namespace Apme.Formatter

open Apme.Lib Scalar List DataTree Entries

variable (letters : Letters)

/-- The mapping has a `key=value` text where a module would have it, or one on
which the parser fails. -/
def InlineArguments (entries : Entries) : Prop :=
  ∃ key value, moduleKey entries = some key ∧ key.isOneOf commandModules = false ∧
    entries.get? key = some (.leaf (.str value)) ∧ parseKvString letters value ≠ .ok none

/-- The mapping has a name that is not capitalised. -/
def LowerCaseName (entries : Entries) : Prop :=
  ∃ name, entries.get? (word "name") = some (.leaf (.str name)) ∧
    capitalizeTaskName letters name ≠ name

/-- The mappings of a document the formatter takes for tasks. -/
def metMappings (data : Yaml) : List Entries := visited (isOneOf taskListKeys) data

variable {letters}

theorem alone {words : List String} (hf : ∀ t ∈ words, '{' ∉ t.toList) (key o : Scalar)
    (hw : key.isOneOf words) (hl : canon o = canon key) : o = key := by
  obtain ⟨t, hm, rfl⟩ := (isOneOf_iff _ _).mp hw
  rw [canon_word (hf t hm)] at hl
  exact eq_of_canon (hf t hm) hl

theorem taskListKeys_free : ∀ t ∈ taskListKeys, '{' ∉ t.toList := by
  decide

variable {entries : Entries}

theorem mem_set_of_ne {k o : Scalar} {v newValue : Yaml}
    (hm : (k, v) ∈ entries) (hd : k ≠ o) :
    (k, v) ∈ entries.set o newValue :=
  mem_map.mpr ⟨(k, v), hm, if_neg hd⟩

theorem wellFormed_set (formed : WellFormed (.map entries)) (k : Scalar)
    {v : Yaml} (hf : v.WellFormed) :
    WellFormed (.map (entries.set k v)) := by
  refine .map _ ?_ fun e mem => ?_
  · have hn := formed.distinct
    rwa [← Entries.keys, ← keys_set entries k v] at hn
  · obtain ⟨old, hi, rfl⟩ := mem_map.mp mem
    split
    · exact hf
    · exact formed.value hi

variable {entries came : Entries}

theorem get?_entered {ε : Type} {n : Scalar → Bool} {r : Entries → Except ε Entries}
    (each : List.Forall₂ (Entered n r) entries came) {k scalar : Scalar} :
    came.get? k = some (.leaf scalar) ↔ entries.get? k = some (.leaf scalar) := by
  unfold get?
  induction each with
  | nil => rfl
  | @cons old new _ _ first _ ih =>
    obtain ⟨hk, hi, ho⟩ := first
    rw [lookup_cons, lookup_cons, hk]
    cases k == old.1 with
    | false => exact ih
    | true =>
      cases he : n old.1 with
      | false => simp [ho he]
      | true =>
        have hw := hi he
        cases hv : old.2 with
        | leaf _ =>
          rw [hv] at hw
          simp [← Except.ok.inj hw]
        | seq _ =>
          obtain ⟨_, _, hS⟩ := walk_seq_ok.mp (hv ▸ hw)
          simp [hS]
        | map _ =>
          obtain ⟨_, _, _, _, hM⟩ := walk_map_ok.mp (hv ▸ hw)
          simp [hM]

theorem expand_of_none (hpl : ¬ InlineArguments letters entries) :
    expandSingleTaskKv letters entries = .ok entries := by
  unfold expandSingleTaskKv
  split
  · rfl
  next k hmod =>
    split
    · rfl
    next ho =>
      split
      next hv hf =>
        have hp : parseKvString letters hv = .ok none := by
          by_contra some
          exact hpl ⟨k, hv, hmod, by simpa using ho, hf, some⟩
        simp [hp, bind, Except.bind, pure, Except.pure]
      next => rfl

variable {entries new : Entries}

theorem expand_of_some {k : Scalar} {v : Text}
    (hmod : moduleKey entries = some k) (ho : k.isOneOf commandModules = false)
    (hf : entries.get? k = some (.leaf (.str v)))
    (hpa : parseKvString letters v ≠ .ok none)
    (hwr : expandSingleTaskKv letters entries = .ok new) :
    ∃ arguments, new = entries.set k (argumentMap arguments) := by
  simp only [expandSingleTaskKv, hmod, ho, hf, Bool.false_eq_true, if_false] at hwr
  cases hp : parseKvString letters v with
  | error failure => simp [hp, bind, Except.bind] at hwr
  | ok res =>
    cases res with
    | none => exact absurd hp hpa
    | some arguments =>
      simp only [hp, bind, Except.bind, pure, Except.pure, Except.ok.injEq] at hwr
      exact ⟨arguments, hwr.symm⟩

theorem expand_cases (hwr : expandSingleTaskKv letters entries = .ok new) :
    new = entries ∨ ∃ k value arguments, moduleKey entries = some k ∧
      entries.get? k = some (.leaf (.str value)) ∧
      new = entries.set k (argumentMap arguments) := by
  by_cases hi : InlineArguments letters entries
  · obtain ⟨k, value, hmod, ho, hf, hp⟩ := hi
    obtain ⟨arguments, rfl⟩ := expand_of_some hmod ho hf hp hwr
    exact .inr ⟨k, value, arguments, hmod, hf, rfl⟩
  · rw [expand_of_none hi] at hwr
    cases hwr
    exact .inl rfl

theorem moduleKey_congr (hs : came.keys = entries.keys) : moduleKey came = moduleKey entries := by
  rw [moduleKey, moduleKey, hs]

theorem find?_moduleKey {k : Scalar} (hmod : moduleKey entries = some k) :
    ∃ v, entries.find? (fun e => canon e.1 = canon k) = some (k, v) := by
  obtain ⟨first, _⟩ := Option.filter_eq_some_iff.mp hmod
  rw [Entries.keys, List.find?_map] at first
  obtain ⟨e, hl, rfl⟩ := Option.map_eq_some_iff.mp first
  obtain ⟨hnk, b, a, hp, he⟩ := List.find?_eq_some_iff_append.mp hl
  refine ⟨e.2, List.find?_eq_some_iff_append.mpr ⟨by simp, b, a, hp, fun o mem => ?_⟩⟩
  have hK : o.1.isOneOf formatMetaKeys := by simpa using he o mem
  obtain ⟨t, hk, hs⟩ := (isOneOf_iff _ _).mp hK
  have hf : '{' ∉ t.toList := known_free t (by simp [hk])
  rw [hs, canon_word hf]
  simp only [Bool.not_eq_true', decide_eq_false_iff_not]
  intro hlo
  have hnk : (!e.1.isOneOf formatMetaKeys) := hnk
  rw [eq_of_canon hf hlo.symm] at hnk
  simp [isOneOf_word hk] at hnk

theorem expand_shows (es came new : Entries) (hno : es.keys.Nodup)
    (he : List.Forall₂ (Entered (isOneOf taskListKeys) (expandSingleTaskKv letters)) es came)
    (hi : InlineArguments letters es)
    (hwr : expandSingleTaskKv letters came = .ok new) :
    ∃ key, (find canon new key).map (shape fun _ => ()) ≠
      (find canon es key).map (shape fun _ => ()) := by
  obtain ⟨key, v, hmod, ho, hf, hp⟩ := hi
  have hk : came.keys = es.keys := DataTree.Entered.keys he
  have hn : moduleKey came = some key := by rw [moduleKey_congr hk, hmod]
  obtain ⟨arguments, rfl⟩ :=
    expand_of_some hn ho ((get?_entered he).mpr hf) hp hwr
  obtain ⟨t, hl⟩ := find?_moduleKey hmod
  obtain ⟨contentNow, hln⟩ := find?_moduleKey hn
  have hT : t = .leaf (.str v) := by
    have hs := get?_of_mem hno (mem_of_find?_eq_some hl)
    rw [hf] at hs
    exact (Option.some.inj hs).symm
  refine ⟨canon key, ?_⟩
  rw [find_set, hln, find, hl, hT]
  simp [argumentMap, shape]

theorem expand_passes (es new : Entries) (k : Scalar) (value : Yaml)
    (hn : es.keys.Nodup) (hwr : expandSingleTaskKv letters es = .ok new)
    (he : k.isOneOf taskListKeys) (mem : (k, value) ∈ es)
    (hi : ∀ txt, value ≠ .leaf txt) :
    find canon new (canon k) = some value := by
  have one := fun other => alone taskListKeys_free k other he
  rcases expand_cases hwr with rfl | ⟨other, t, a, _, hf, rfl⟩
  · exact find_of_mem hn one mem
  · have hd : k ≠ other := by
      rintro rfl
      rw [get?_of_mem hn mem] at hf
      exact hi _ (Option.some.inj hf)
    refine find_of_mem ?_ one (mem_set_of_ne mem hd)
    rwa [← Entries.keys, keys_set]

theorem expand_wellFormed (es new : Entries) (hf : WellFormed (.map es))
    (hwr : expandSingleTaskKv letters es = .ok new) : WellFormed (.map new) := by
  rcases expand_cases hwr with rfl | ⟨k, t, a, _, _, rfl⟩
  · exact hf
  · refine wellFormed_set hf k (.map _ ?_ fun e mem => ?_)
    · rw [map_map]
      have hd := a.nodup.map (f := Scalar.str) fun _ _ same => Scalar.str.inj same
      rwa [map_map] at hd
    · obtain ⟨old, _, rfl⟩ := mem_map.mp mem
      exact .leaf _

theorem cutAfterLast_append {sep text before after : Text}
    (cut : cutAfterLast sep text = some (before, after)) : before ++ after = text := by
  induction text generalizing before after with
  | nil => cases cut
  | cons c rest ih =>
    rw [cutAfterLast] at cut
    split at cut
    next earlier later hf =>
      cases cut
      rw [cons_append, ih hf]
    next =>
      split at cut
      next hs =>
        cases cut
        exact (prefix_iff_eq_append.mp hs)
      next => cases cut

theorem capitalizeTaskName_cases (ls : Letters) (name : Text) :
    capitalizeTaskName ls name = name ∨ ∃ before c after,
      name = before ++ ([c] ++ after) ∧ ls.upper c ≠ [c] ∧
      capitalizeTaskName ls name = before ++ (ls.upper c ++ after) := by
  have first : ∀ t, capitalizeFirst ls t = t ∨ ∃ c after,
      t = [c] ++ after ∧ ls.upper c ≠ [c] ∧
      capitalizeFirst ls t = ls.upper c ++ after := by
    intro t
    cases t with
    | nil => exact .inl rfl
    | cons c after =>
      rw [capitalizeFirst]
      split
      · exact .inl rfl
      · by_cases hs : ls.upper c = [c]
        · exact .inl (by rw [hs]; rfl)
        · exact .inr ⟨c, after, rfl, hs, rfl⟩
  unfold capitalizeTaskName
  split
  next before after cut =>
    rw [← cutAfterLast_append cut]
    rcases first after with hs | ⟨c, rest, rfl, hc, hr⟩
    · exact .inl (by rw [hs])
    · exact .inr ⟨before, c, rest, rfl, hc, by rw [hr]⟩
  next =>
    rcases first name with hs | ⟨c, rest, hw, hc, hr⟩
    · exact .inl hs
    · exact .inr ⟨[], c, rest, hw, hc, hr⟩

theorem capitalizeTaskName_nil (ls : Letters) : capitalizeTaskName ls [] = [] := rfl

theorem unspaced_capitalize {name : Text} (hc : capitalizeTaskName letters name ≠ name) :
    unspaced (capitalizeTaskName letters name) ≠ unspaced name := by
  rcases capitalizeTaskName_cases letters name with hs | ⟨before, c, a, hw, ho, hr⟩
  · exact absurd hs hc
  · obtain ⟨hpl, some, hp⟩ := letters.upper_plain c ho
    intro hl
    rw [hr, hw] at hl
    refine ho (unspaced_replace (cons_ne_nil c []) some (fun d mem => ?_) hp hl)
    rwa [mem_singleton.mp mem]

theorem capitalize_of_not (hp : ¬ LowerCaseName letters entries) :
    capitalizeHere letters entries = entries := by
  unfold capitalizeHere
  split
  next name hf =>
    refine if_neg fun hc => hp ⟨name, hf, hc.2⟩
  next => rfl

theorem capitalize_of_lower {name : Text}
    (hf : entries.get? (word "name") = some (.leaf (.str name)))
    (hc : capitalizeTaskName letters name ≠ name) :
    capitalizeHere letters entries =
      entries.set (word "name") (.leaf (.str (capitalizeTaskName letters name))) := by
  have some : name ≠ [] := by
    rintro rfl
    exact hc (capitalizeTaskName_nil letters)
  simp only [capitalizeHere, hf]
  exact if_pos ⟨some, hc⟩

theorem name_free : '{' ∉ "name".toList := by
  decide

theorem capitalize_shows (es came new : Entries) (_nodup : es.keys.Nodup)
    (he : List.Forall₂ (Entered (isOneOf taskListKeys) (total (capitalizeHere letters))) es came)
    (hl : LowerCaseName letters es)
    (hwr : total (capitalizeHere letters) came = .ok new) :
    ∃ key, (find canon new key).map (shape canon) ≠ (find canon es key).map (shape canon) := by
  obtain ⟨name, hf, hc⟩ := hl
  have hn := (get?_entered he).mpr hf
  cases hwr
  refine ⟨word "name", ?_⟩
  rw [find_word es name_free, hf, find_word _ name_free,
    capitalize_of_lower hn hc,
    get?_set came _ _ (mem_keys_of_get? hn)]
  simpa [shape, canon] using unspaced_capitalize hc

theorem capitalize_cases (ls : Letters) (es : Entries) :
    capitalizeHere ls es = es ∨ ∃ name,
      es.get? (word "name") = some (.leaf (.str name)) ∧
      capitalizeHere ls es = es.set (word "name") (.leaf (.str (capitalizeTaskName ls name))) := by
  by_cases hl : LowerCaseName ls es
  · obtain ⟨name, hf, hc⟩ := hl
    exact .inr ⟨name, hf, capitalize_of_lower hf hc⟩
  · exact .inl (capitalize_of_not hl)

theorem capitalize_passes (es new : Entries) (k : Scalar) (value : Yaml)
    (hn : es.keys.Nodup) (hwr : total (capitalizeHere letters) es = .ok new)
    (he : k.isOneOf taskListKeys) (mem : (k, value) ∈ es)
    (_inner : ∀ t, value ≠ .leaf t) : find canon new (canon k) = some value := by
  have one := fun o => alone taskListKeys_free k o he
  cases hwr
  rcases capitalize_cases letters es with hs | ⟨name, hf, hr⟩
  · rw [hs]
    exact find_of_mem hn one mem
  · rw [hr]
    have hd : k ≠ word "name" := by
      rintro rfl
      revert he
      decide
    refine find_of_mem ?_ one (mem_set_of_ne mem hd)
    rwa [← Entries.keys, keys_set]

theorem capitalize_wellFormed (es new : Entries) (formed : WellFormed (.map es))
    (hwr : total (capitalizeHere letters) es = .ok new) : WellFormed (.map new) := by
  cases hwr
  rcases capitalize_cases letters es with hs | ⟨name, _, hr⟩
  · rwa [hs]
  · rw [hr]
    exact wellFormed_set formed _ (.leaf _)

theorem capitalize_agrees (es new : Entries) (hn : es.keys.Nodup)
    (hwr : total (capitalizeHere letters) es = .ok new) (seen : Scalar) :
    Option.Rel (Agrees fun _ => ()) (find canon es seen) (find canon new seen) := by
  cases hwr
  rcases capitalize_cases letters es with hs | ⟨name, hf, hr⟩
  · rw [hs]
    cases find canon es seen with
    | none => exact .none
    | some v => exact .some (.inl rfl)
  · rw [hr, find_set, find]
    cases hl : es.find? fun e => canon e.1 = seen with
    | none => exact .none
    | some e =>
      refine .some ?_
      dsimp only
      by_cases hN : e.1 = word "name"
      · have hs := get?_of_mem hn (mem_of_find?_eq_some hl)
        rw [hN, hf] at hs
        rw [if_pos hN]
        exact .inr ⟨_, _, (Option.some.inj hs).symm, rfl, rfl⟩
      · rw [if_neg hN]
        exact .inl rfl

variable {β : Type}

theorem reorder_agrees (v₁ : Scalar → β) (es new : Entries)
    (hn : es.keys.Nodup) (hwr : total reorderSingleTask es = .ok new)
    (seen : Scalar) :
    Option.Rel (Agrees v₁) (find canon es seen) (find canon new seen) := by
  cases hwr
  rw [find_reorder es hn]
  cases find canon es seen with
  | none => exact .none
  | some v => exact .some (.inl rfl)

theorem normalize_cases (es : Entries) :
    normalizeMinAnsibleVersion es = es ∨ ∃ info version,
      es.get? (word "galaxy_info") = some (.map info) ∧
      normalizeMinAnsibleVersion es =
        es.set (word "galaxy_info")
          (.map (set info (word "min_ansible_version") (.leaf (.str version)))) := by
  unfold normalizeMinAnsibleVersion
  split
  next info hf =>
    split
    next raw _ =>
      split
      next version _ => exact .inr ⟨info, version, hf, rfl⟩
      next => exact .inl rfl
    next => exact .inl rfl
  next => exact .inl rfl

theorem galaxyInfo_free : '{' ∉ "galaxy_info".toList := by
  decide

theorem minVersion_free : '{' ∉ "min_ansible_version".toList := by
  decide

theorem observe_info (v : Scalar → β) (info : Entries) (ver : Text)
    {rest : List (Step Scalar)} (ho : ¬ Exempt (.key (word "galaxy_info") :: rest)) :
    observe canon v
        (.map (set info (word "min_ansible_version") (.leaf (.str ver)))) rest =
      observe canon v (.map info) rest := by
  cases rest with
  | nil => rfl
  | cons step inner =>
    cases step with
    | item i => rfl
    | key seen =>
      simp only [observe]
      rw [find_set_of_ne]
      rintro rfl
      rw [canon_word minVersion_free] at ho
      exact ho ⟨inner, rfl⟩

theorem observe_normalizeTop (view : Scalar → β) (data : Yaml)
    {path : List (Step Scalar)} (ho : ¬ Exempt path) :
    observe canon view (normalizeTop data) path = observe canon view data path := by
  cases data with
  | leaf scalar => rfl
  | seq xs => rfl
  | map es =>
    rcases normalize_cases es with hs | ⟨info, v, hf, hr⟩
    · rw [normalizeTop, hs]
    · rw [normalizeTop, hr]
      cases path with
      | nil => rfl
      | cons step rest =>
        cases step with
        | item i => rfl
        | key seen =>
          simp only [observe]
          by_cases hI : seen = word "galaxy_info"
          · subst hI
            rw [find_word _ galaxyInfo_free, find_word _ galaxyInfo_free, hf,
              get?_set _ _ _ (mem_keys_of_get? hf)]
            exact observe_info view info v ho
          · rw [find_set_of_ne]
            rw [canon_word galaxyInfo_free]
            exact Ne.symm hI

theorem walk_total (n : Scalar → Bool) (r : Entries → Entries) (data : Yaml) :
    ∃ new, walk n (total r) data = .ok new :=
  (walk_ok_iff (fun _ _ _ => by simp [total]) data).mpr fun _ _ => ⟨_, rfl⟩

theorem rewriteItem_ok {x new : Yaml} :
    rewriteItem letters x = .ok new ↔ ∃ ex cap,
      expandInlineKvArgs letters x = .ok ex ∧
      capitalizeName letters ex = .ok cap ∧ reorderTaskKeys cap = .ok new := by
  simp only [rewriteItem, bind_eq_ok, exists_and_left]

theorem rewriteItems_ok {xs new : List Yaml} :
    xs.mapM (rewriteItem letters) = .ok new ↔ ∃ ex capitalized,
      List.Forall₂ (fun old new => expandInlineKvArgs letters old = .ok new) xs ex ∧
      List.Forall₂ (fun old new => capitalizeName letters old = .ok new) ex capitalized ∧
      List.Forall₂ (fun old new => reorderTaskKeys old = .ok new) capitalized new := by
  rw [mapM_eq_ok]
  constructor
  · intro he
    induction he with
    | nil => exact ⟨[], [], .nil, .nil, .nil⟩
    | cons first _ ih =>
      obtain ⟨ex, capitalized, one, two, htr⟩ := rewriteItem_ok.mp first
      obtain ⟨laterExpanded, c, ho, ht, hth⟩ := ih
      exact ⟨ex :: laterExpanded, capitalized :: c, .cons one ho, .cons two ht, .cons htr hth⟩
  · rintro ⟨ex, capitalized, ho, ht, hth⟩
    induction ho generalizing capitalized new with
    | nil =>
      cases ht
      cases hth
      exact .nil
    | cons one _ ih =>
      cases ht with
      | cons two htw =>
        cases hth with
        | cons htr hlt =>
          exact .cons (rewriteItem_ok.mpr ⟨_, _, one, two, htr⟩) (ih _ htw hlt)

theorem rewriteData_ok {data new : Yaml} :
    rewriteData letters data = .ok new ↔ ∃ ex capitalized reordered,
      expandInlineKvArgs letters data = .ok ex ∧
      capitalizeName letters ex = .ok capitalized ∧
      reorderTaskKeys capitalized = .ok reordered ∧ new = normalizeTop reordered := by
  cases data with
  | leaf scalar =>
    constructor
    · rintro ⟨⟩
      exact ⟨_, _, _, rfl, rfl, rfl, rfl⟩
    · rintro ⟨_, _, _, one, two, ht, rfl⟩
      cases one
      cases two
      cases ht
      rfl
  | seq xs =>
    simp only [rewriteData, bind_eq_ok, rewriteItems_ok, pure, Except.pure, Except.ok.injEq,
      expandInlineKvArgs, capitalizeName, reorderTaskKeys, walk_seq_ok]
    constructor
    · rintro ⟨reordered, ⟨ex, capitalized, ho, twos, hth⟩, rfl⟩
      exact ⟨_, _, _, ⟨ex, ho, rfl⟩, walk_seq_ok.mpr ⟨capitalized, twos, rfl⟩,
        walk_seq_ok.mpr ⟨reordered, hth, rfl⟩, rfl⟩
    · rintro ⟨_, _, _, ⟨ex, ho, rfl⟩, two, ht, rfl⟩
      obtain ⟨capitalized, twos, rfl⟩ := walk_seq_ok.mp two
      obtain ⟨reordered, hth, rfl⟩ := walk_seq_ok.mp ht
      exact ⟨reordered, ⟨ex, capitalized, ho, twos, hth⟩, rfl⟩
  | map es =>
    simp only [rewriteData, bind_eq_ok, rewriteItem_ok, pure, Except.pure, Except.ok.injEq]
    constructor
    · rintro ⟨reordered, ⟨ex, capitalized, one, two, ht⟩, rfl⟩
      exact ⟨ex, capitalized, reordered, one, two, ht, rfl⟩
    · rintro ⟨ex, capitalized, reordered, one, two, ht, rfl⟩
      exact ⟨reordered, ⟨ex, capitalized, one, two, ht⟩, rfl⟩

variable {path : List (Step Scalar)}

theorem not_exempt_of_along
    (ha : Along canon (isOneOf taskListKeys) path) : ¬ Exempt path := by
  rintro ⟨rest, rfl⟩
  obtain ⟨own, he, hl⟩ := ha
  rw [eq_of_canon galaxyInfo_free hl] at he
  revert he
  decide

section Run

variable {data expanded capitalized reordered : Yaml} (formed : data.WellFormed)
  (expands : expandInlineKvArgs letters data = .ok expanded)
  (capitalizes : capitalizeName letters expanded = .ok capitalized)
  (reorders : reorderTaskKeys capitalized = .ok reordered)

include formed expands capitalizes reorders

theorem observe_rewritten (v : Scalar → β) (ho : ¬ Exempt path) :
    observe canon v (normalizeTop reordered) path = observe canon v capitalized path := by
  have hef := walk_wellFormed expand_wellFormed data expanded formed expands
  have hf := walk_wellFormed capitalize_wellFormed expanded capitalized hef capitalizes
  rw [observe_normalizeTop v reordered ho]
  exact observe_walk (reorder_agrees v) capitalized reordered hf reorders path

section

variable (same : SameData data (normalizeTop reordered)) (mapping : Entries)
  (met : mapping ∈ metMappings data)

include same met

theorem no_inlineArguments : ¬ InlineArguments letters mapping := by
  intro hi
  obtain ⟨p, ha, hd⟩ := walk_differs expand_passes
    (alone taskListKeys_free) expand_shows data expanded formed expands mapping met hi
  have ho := not_exempt_of_along ha
  have hf := walk_wellFormed expand_wellFormed data expanded formed expands
  have hk := observe_walk capitalize_agrees expanded capitalized hf capitalizes p
  rw [← hk, ← observe_rewritten formed expands capitalizes reorders (fun _ => ()) ho] at hd
  refine hd ?_
  have hc : ∀ tree : Yaml, observe canon (fun _ => ()) tree p =
      (observed tree p).map (DataTree.Shape.onLeaf fun _ => ()) :=
    fun tree => observe_comp (fun _ => ()) tree p
  rw [hc, hc, same p ho]

theorem no_lowerCaseName : ¬ LowerCaseName letters mapping := by
  intro hl
  have hu : expandInlineKvArgs letters data = .ok data :=
    walk_unchanged fun mapping met => expand_of_none
      (no_inlineArguments formed expands capitalizes reorders same mapping met)
  rw [hu] at expands
  cases expands
  obtain ⟨p, ha, hd⟩ := walk_differs capitalize_passes
    (alone taskListKeys_free) capitalize_shows data capitalized formed capitalizes mapping met hl
  have ho := not_exempt_of_along ha
  rw [← observe_rewritten formed hu capitalizes reorders canon ho] at hd
  exact hd (same p ho)

end

end Run

/-- Where no mapping has anything to expand or to capitalise, only the order of
the keys and the version change. -/
theorem rewriteData_of_plain {data : Yaml} (formed : data.WellFormed)
    (hp : ∀ mapping ∈ metMappings data,
      ¬ InlineArguments letters mapping ∧ ¬ LowerCaseName letters mapping) :
    ∃ new, rewriteData letters data = .ok new ∧ SameData data new := by
  have hun : expandInlineKvArgs letters data = .ok data :=
    walk_unchanged fun mapping met => expand_of_none (hp mapping met).1
  have hu : capitalizeName letters data = .ok data :=
    walk_unchanged fun mapping met =>
      congrArg Except.ok (capitalize_of_not (hp mapping met).2)
  obtain ⟨reordered, hr⟩ : ∃ reordered, reorderTaskKeys data = .ok reordered := walk_total _ _ _
  refine ⟨normalizeTop reordered, rewriteData_ok.mpr ⟨data, data, reordered, hun, hu, hr, rfl⟩, ?_⟩
  intro p ho
  exact observe_rewritten formed hun hu hr canon ho

theorem SameData.symm {old new : Yaml} (same : SameData old new) : SameData new old :=
  fun path outside => (same path outside).symm

theorem SameData.trans {old mid new : Yaml} (first : SameData old mid) (second : SameData mid new) :
    SameData old new :=
  fun path outside => (second path outside).trans (first path outside)

theorem rewriteData_same_iff {data new : Yaml} (formed : data.WellFormed)
    (rewrites : rewriteData letters data = .ok new) :
    SameData data new ↔ ∀ mapping ∈ metMappings data,
      ¬ InlineArguments letters mapping ∧ ¬ LowerCaseName letters mapping := by
  constructor
  · intro same mapping met
    obtain ⟨expanded, capitalized, reordered, expands, capitalizes, reorders, rfl⟩ :=
      rewriteData_ok.mp rewrites
    exact ⟨no_inlineArguments formed expands capitalizes reorders same mapping met,
      no_lowerCaseName formed expands capitalizes reorders same mapping met⟩
  · intro plain
    obtain ⟨other, rewritesTo, same⟩ := rewriteData_of_plain formed plain
    cases Except.ok.inj (rewrites.symm.trans rewritesTo)
    exact same

section Stages

variable (letters : Letters) (host : Host) (text : Text)

/-- The formatter gives the text back: no collection is loaded, or the rewritten
one is not dumped. -/
def LeavesAlone : Prop :=
  (∃ scalar, host.loadPrepared text = .leaf scalar) ∨
    ∃ new failure, rewriteData letters (host.loadPrepared text) = .ok new ∧
      host.dumps new = .error failure

/-- Replacing tabs, quoting free-form arguments and emptying blank lines keeps the
data. -/
def PreparationKeeps : Prop :=
  ∀ data, host.load text = .ok data → SameData data (host.loadPrepared text)

/-- No mapping that is taken for a task has inline arguments or a name in lower
case. -/
def RewritingKeeps : Prop :=
  ∀ mapping ∈ metMappings (host.loadPrepared text),
    ¬ InlineArguments letters mapping ∧ ¬ LowerCaseName letters mapping

/-- What is dumped and laid out loads as the data that was dumped. -/
def LayoutKeeps : Prop :=
  ∀ new dumped, rewriteData letters (host.loadPrepared text) = .ok new →
    host.dumps new = .ok dumped → ∃ back, host.load (layOut dumped) = .ok back ∧ SameData new back

/-- Two stages do not change the data of one text; nothing else keeps an
arbitrary loader from reading two changes as none. -/
def OneStageAtMost : Prop :=
  (PreparationKeeps host text ∧ RewritingKeeps letters host text) ∨
    (PreparationKeeps host text ∧ LayoutKeeps letters host text) ∨
      (RewritingKeeps letters host text ∧ LayoutKeeps letters host text)

/-- Formatting returns, and the formatted text holds the data of the original. -/
def KeepsData (filename : String) : Prop :=
  ∃ result data new, formatContent letters host text filename = .ok result ∧
    host.load text = .ok data ∧ host.load result.formatted = .ok new ∧ SameData data new

end Stages

section Cases

variable {host : Host} {text : Text} (filename : String)

theorem loadPrepared_wellFormed : (host.loadPrepared text).WellFormed := by
  unfold Host.loadPrepared
  split
  next => exact .leaf _
  next data loads => exact host.wellFormed _ data loads

theorem formatContent_leavesAlone (alone : LeavesAlone letters host text) :
    ∃ error, formatContent letters host text filename = .ok (leftAlone filename text error) := by
  unfold formatContent
  rcases alone with ⟨scalar, loads⟩ | ⟨new, failure, rewrites, dumps⟩
  · exact ⟨none, by rw [loads]⟩
  · cases loads : host.loadPrepared text with
    | leaf scalar => exact ⟨none, rfl⟩
    | seq items | map entries =>
      rw [loads] at rewrites
      simp only [rewrites, bind, Except.bind, dumps]
      exact ⟨_, rfl⟩

variable (busy : ¬ LeavesAlone letters host text)

include busy

/-- A text that is not left alone is rewritten, dumped and laid out, or raises. -/
theorem formatContent_ok {result : FormatResult}
    (formats : formatContent letters host text filename = .ok result) :
    ∃ new dumped, rewriteData letters (host.loadPrepared text) = .ok new ∧
      host.dumps new = .ok dumped ∧ result.formatted = layOut dumped := by
  rw [LeavesAlone, not_or] at busy
  unfold formatContent at formats
  split at formats
  next scalar loads => exact absurd ⟨scalar, loads⟩ busy.1
  next =>
    obtain ⟨new, rewrites, formats⟩ := bind_eq_ok.mp formats
    split at formats
    next failure dumps => exact absurd ⟨new, failure, rewrites, dumps⟩ busy.2
    next dumped dumps =>
      cases formats
      exact ⟨new, dumped, rewrites, dumps, host.writtenOut_formatted _ _ _⟩

theorem formatContent_dumped {new : Yaml}
    (rewrites : rewriteData letters (host.loadPrepared text) = .ok new) :
    ∃ result dumped, formatContent letters host text filename = .ok result ∧
      host.dumps new = .ok dumped ∧ result.formatted = layOut dumped := by
  rw [LeavesAlone, not_or] at busy
  cases dumps : host.dumps new with
  | error failure => exact absurd ⟨new, failure, rewrites, dumps⟩ busy.2
  | ok dumped =>
    unfold formatContent
    cases loads : host.loadPrepared text with
    | leaf scalar => exact absurd ⟨scalar, loads⟩ busy.1
    | seq items | map entries =>
      rw [loads] at rewrites
      simp only [rewrites, bind, Except.bind, dumps]
      exact ⟨_, dumped, rfl, rfl, host.writtenOut_formatted _ _ _⟩

end Cases

def asciiUpper : List (Char × Char) :=
  "abcdefghijklmnopqrstuvwxyz".toList.zip "ABCDEFGHIJKLMNOPQRSTUVWXYZ".toList

def asciiLetters : Letters where
  isWord c := c.isAlphanum || c = '_'
  isUpper c := decide (c ∈ asciiUpper.map Prod.snd)
  upper c := [(asciiUpper.lookup c).getD c]
  upper_plain := by
    intro c changes
    have plain : ∀ pair ∈ asciiUpper, isPlain pair.1 ∧ isPlain pair.2 := by decide
    have distinct : (asciiUpper.map Prod.fst).Nodup := by decide
    cases found : asciiUpper.lookup c with
    | none => simp [found] at changes
    | some upper =>
      have member := (Dict.lookup_eq_some_iff asciiUpper distinct c upper).mp found
      refine ⟨(plain _ member).1, cons_ne_nil _ _, fun u isUpper => ?_⟩
      rw [mem_singleton.mp isUpper]
      exact (plain _ member).2

/-- A block mapping of plain texts. -/
def dumpFlat : Yaml → Except String Text
  | .map entries => do
      let lines ← entries.mapM fun entry =>
        match entry with
        | (.str key, .leaf (.str value)) => .ok (key ++ ": ".toList ++ value ++ ['\n'])
        | _ => .error "not flat"
      return lines.flatten
  | _ => .error "not flat"

def flat (fields : List (String × String)) : Yaml :=
  .map (fields.map fun field => (word field.1, .leaf (word field.2)))

/-- A loader that knows a few flat documents. -/
def flatHost (documents : List (List (String × String)))
    (distinct : ∀ fields ∈ documents, (fields.map Prod.fst).Nodup) : Host where
  load text :=
    match documents.find? fun fields => Holds (· = text) (fun _ => False) (dumpFlat (flat fields)) with
    | some fields => .ok (flat fields)
    | none => .error "unknown document"
  dumps := dumpFlat
  unifiedDiff _ _ _ _ := []
  wellFormed := by
    intro text data loads
    split at loads
    next fields found =>
      cases loads
      refine .map _ ?_ fun entry member => ?_
      · have keys := (distinct fields (mem_of_find?_eq_some found)).map
          (f := word) fun _ _ => word_injective
        simpa [map_map, Function.comp_def] using keys
      · obtain ⟨field, _, rfl⟩ := mem_map.mp member
        exact .leaf _
    next => cases loads

def galaxyFields : List (String × String) := [("namespace", "acme"), ("name", "my_collection")]

def galaxyFormatted : List (String × String) := [("name", "My_collection"), ("namespace", "acme")]

def defaultsFields : List (String × String) := [("path", "/srv/\x7b\x7bsite|lower\x7d\x7d"), ("tier", "web")]

def defaultsFormatted : List (String × String) :=
  [("path", "/srv/\x7b\x7b site | lower \x7d\x7d"), ("tier", "web")]

def sampleHost : Host :=
  flatHost [galaxyFields, galaxyFormatted, defaultsFields, defaultsFormatted] (by decide)

def galaxyText : Text := "namespace: acme\nname: my_collection\n".toList

def galaxyResult : Text := "name: My_collection\nnamespace: acme\n".toList

def defaultsText : Text := "path: /srv/\x7b\x7bsite|lower\x7d\x7d\ntier: web\n".toList

def defaultsResult : Text := "path: /srv/\x7b\x7b site | lower \x7d\x7d\ntier: web\n".toList

end Apme.Formatter
