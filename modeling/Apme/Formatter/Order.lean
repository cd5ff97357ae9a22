import Apme.Formatter.Format

/-!
# Key order

Reordering the keys of a mapping keeps what is found under every key: keywords
have no other spelling up to Jinja spacing, and the other keys keep their order
among themselves.
-/

set_option autoImplicit false

namespace Apme.Formatter

open Apme.Lib Scalar List DataTree Entries

theorem known_free : ∀ t ∈ taskKeyOrder ++ formatMetaKeys ++ taskListKeys ++
    ["roles", "galaxy_info", "min_ansible_version"], '{' ∉ t.toList := by
  decide

theorem word_injective {t other : String} (hs : word t = word other) : t = other :=
  String.toList_injective (Scalar.str.inj hs)

variable (entries : Entries) {text : String}

theorem find_word (hf : '{' ∉ text.toList) :
    find canon entries (word text) = entries.get? (word text) := by
  induction entries with
  | nil => rfl
  | cons e rest ih =>
    by_cases hs : e.1 = word text
    · rw [find_cons_of_eq (by rw [hs, canon_word hf]), get?, lookup_cons,
        hs, beq_self_eq_true]
    · rw [find_cons_of_ne fun hfo => hs (eq_of_canon hf hfo), ih, get?,
        get?, lookup_cons, beq_false_of_ne (Ne.symm hs)]

namespace Entries

variable (key : Scalar) (value : Yaml)

theorem keys_set : (entries.set key value).keys = entries.keys := by
  simp only [keys, set, map_map]
  refine map_congr_left fun e _ => ?_
  by_cases hs : e.1 = key <;> simp [hs]

theorem get?_set (here : key ∈ entries.keys) : (entries.set key value).get? key = some value := by
  induction entries with
  | nil => cases here
  | cons e rest ih =>
    by_cases hs : e.1 = key
    · simp [get?, set, hs]
    · have hl : key ∈ keys rest := (mem_cons.mp here).resolve_left (Ne.symm hs)
      have ho : (key == e.1) = false := beq_false_of_ne (Ne.symm hs)
      have hr := ih hl
      simp only [get?, set] at hr ⊢
      rw [map_cons, if_neg hs, lookup_cons, ho, hr]

theorem mem_keys_of_get? {es : Entries} {k : Scalar} {v : Yaml}
    (hf : es.get? k = some v) : k ∈ es.keys := by
  induction es with
  | nil => cases hf
  | cons e rest ih =>
    by_cases hs : k = e.1
    · exact mem_cons.mpr (.inl hs)
    · rw [get?, lookup_cons, beq_false_of_ne hs] at hf
      exact mem_cons_of_mem _ (ih hf)

theorem find_set (seen : Scalar) : find canon (entries.set key value) seen =
      (entries.find? fun e => canon e.1 = seen).map fun e =>
        if e.1 = key then value else e.2 := by
  induction entries with
  | nil => rfl
  | cons e rest ih =>
    have split : set (e :: rest) key value =
        (if e.1 = key then (key, value) else e) :: set rest key value := rfl
    have hk : (if e.1 = key then (key, value) else e).1 = e.1 := by
      split
      next hs => exact hs.symm
      next => rfl
    rw [split, List.find?_cons]
    by_cases hf : canon e.1 = seen
    · rw [find_cons_of_eq (by rw [hk, hf])]
      simp only [hf, decide_true, Option.map_some]
      split <;> rfl
    · rw [find_cons_of_ne (by rw [hk]; exact hf), ih]
      simp only [hf, decide_false]

theorem find_set_of_ne {key seen : Scalar} (hd : canon key ≠ seen) :
    find canon (entries.set key value) seen = find canon entries seen := by
  rw [find_set, find]
  cases hl : entries.find? fun e => canon e.1 = seen with
  | none => rfl
  | some e =>
    have hlo : canon e.1 = seen := by simpa using List.find?_some hl
    have ho : e.1 ≠ key := fun hs => hd (hs ▸ hlo)
    simp only [Option.map_some, if_neg ho]

end Entries

theorem foldl_appendMissing (keys first : List Scalar) (hn : keys.Nodup) :
    keys.foldl appendMissing first = first ++ keys.filter (· ∉ first) := by
  induction keys generalizing first with
  | nil => simp
  | cons key rest ih =>
    rw [nodup_cons] at hn
    by_cases hp : key ∈ first
    · simp [appendMissing, hp, ih first hn.2]
    · have ho : rest.filter (· ∉ first ++ [key]) = rest.filter (· ∉ first) := by
        refine filter_congr fun o mem => ?_
        have hd : o ≠ key := fun hs => hn.1 (hs ▸ mem)
        simp [hd]
      simp only [foldl_cons, appendMissing, hp, if_false]
      rw [ih _ hn.2, ho]
      simp [hp]

theorem isOneOf_word {words : List String} (hm : text ∈ words) : (word text).isOneOf words :=
  (isOneOf_iff words _).mpr ⟨text, hm, rfl⟩

variable {keys : List Scalar}

theorem actionKey_eq_some {key : Scalar} (ha : actionKey keys = some key) :
    keys.find? (fun key => !key.isOneOf taskKeyOrder) = some key :=
  (Option.filter_eq_some_iff.mp ha).1

theorem mem_leadingKeys (hn : word "name" ∈ keys) {k : Scalar} (hl : k ∈ leadingKeys keys) :
    k ∈ keys ∧ (k.isOneOf taskKeyOrder ∨ actionKey keys = some k) := by
  simp only [leadingKeys, cons_append, mem_cons, mem_append, mem_map,
    mem_filter, Option.mem_toList] at hl
  rcases hl with rfl | (ha | ⟨t, ⟨ho, here⟩, rfl⟩) | ⟨t, hb, rfl⟩
  · exact ⟨hn, .inl (isOneOf_word (by decide))⟩
  · exact ⟨mem_of_find?_eq_some (actionKey_eq_some ha), .inr ha⟩
  · simp only [Bool.and_eq_true, decide_eq_true_eq] at here
    exact ⟨here.1.1, .inl (isOneOf_word ho)⟩
  · split at hb
    · obtain ⟨hbo, here⟩ := mem_filter.mp hb
      have ho : ∀ t ∈ blockBodyKeys, t ∈ taskKeyOrder := by decide
      exact ⟨by simpa using here, .inl (isOneOf_word (ho t hbo))⟩
    · cases hb

theorem mem_desiredKeys (hno : keys.Nodup) (hn : word "name" ∈ keys)
    (k : Scalar) : k ∈ desiredKeys keys ↔ k ∈ keys := by
  rw [desiredKeys, foldl_appendMissing keys _ hno, mem_append, mem_filter]
  by_cases hl : k ∈ leadingKeys keys
  · simp [hl, (mem_leadingKeys hn hl).1]
  · simp [hl]

theorem find?_word (keys : List Scalar) (hf : '{' ∉ text.toList) :
    keys.find? (fun k => canon k = word text) =
      if word text ∈ keys then some (word text) else none := by
  induction keys with
  | nil => rfl
  | cons k rest ih =>
    by_cases hs : k = word text
    · simp [hs, canon_word hf]
    · have ho : canon k ≠ word text := fun hfo => hs (eq_of_canon hf hfo)
      simp [ho, Ne.symm hs, ih]

theorem find?_desiredKeys (hd : keys.Nodup) (hn : word "name" ∈ keys) (seen : Scalar) :
    (desiredKeys keys).find? (fun k => canon k = seen) = keys.find? fun k => canon k = seen := by
  by_cases hk : seen.isOneOf taskKeyOrder
  · obtain ⟨t, ho, rfl⟩ := (isOneOf_iff _ _).mp hk
    have hf : '{' ∉ t.toList := known_free t (by simp [ho])
    simp only [find?_word _ hf, mem_desiredKeys hd hn]
  · have hu : ∀ k, canon k = seen → k.isOneOf taskKeyOrder ≠ true := by
      rintro k rfl hK
      obtain ⟨t, ho, rfl⟩ := (isOneOf_iff _ _).mp hK
      rw [canon_word (known_free t (by simp [ho]))] at hk
      exact hk hK
    rw [desiredKeys, foldl_appendMissing keys _ hd, List.find?_append]
    cases hle : (leadingKeys keys).find? fun k => canon k = seen with
    | some k =>
      have hl : canon k = seen := by simpa using List.find?_some hle
      have hla := mem_leadingKeys hn (mem_of_find?_eq_some hle)
      -- the known keys look like themselves, so this is the action
      have hac := actionKey_eq_some (hla.2.resolve_left (hu k hl))
      obtain ⟨_, b, a, hp, he⟩ := List.find?_eq_some_iff_append.mp hac
      refine (List.find?_eq_some_iff_append.mpr
        ⟨by simpa using hl, b, a, hp, fun o mem => ?_⟩).symm
      have hK : o.isOneOf taskKeyOrder := by simpa using he o mem
      simpa using fun hs => hu o hs hK
    | none =>
      have ha : ∀ k, canon k = seen → k ∉ leadingKeys keys := by
        intro k hl mem
        simpa [hl] using List.find?_eq_none.mp hle k mem
      rw [Option.none_or, List.find?_filter]
      congr 1
      funext k
      by_cases hl : canon k = seen
      · simp [hl, ha k hl]
      · simp [hl]

theorem get?_of_mem {es : Entries} (hn : es.keys.Nodup) {e : Scalar × Yaml}
    (mem : e ∈ es) : es.get? e.1 = some e.2 :=
  (Dict.lookup_eq_some_iff es hn e.1 e.2).mpr mem

theorem find_eq_get? {es : Entries} (hn : es.keys.Nodup) (seen : Scalar) :
    find canon es seen = (es.keys.find? fun k => canon k = seen).bind es.get? := by
  rw [find, Entries.keys, List.find?_map]
  cases hf : es.find? ((fun k => decide (canon k = seen)) ∘ Prod.fst) with
  | none => simpa using hf
  | some entry =>
    have mem := mem_of_find?_eq_some hf
    have hs : es.find? (fun entry => decide (canon entry.1 = seen)) = some entry := hf
    simp [hs, get?_of_mem hn mem]

theorem find_filterMap (seen : Scalar) (keys : List Scalar)
    (here : ∀ k ∈ keys, k ∈ entries.keys) (hn : entries.keys.Nodup) :
    find canon
        (keys.filterMap fun k => (entries.get? k).map fun v => (k, v)) seen =
      (keys.find? fun k => canon k = seen).bind entries.get? := by
  induction keys with
  | nil => rfl
  | cons k rest ih =>
    rw [forall_mem_cons] at here
    obtain ⟨e, hm, rfl⟩ := mem_map.mp here.1
    rw [filterMap_cons, get?_of_mem hn hm, Option.map_some, List.find?_cons]
    by_cases hl : canon e.1 = seen
    · simp [find_cons_of_eq hl, hl, get?_of_mem hn hm]
    · simp only [find_cons_of_ne hl, hl, decide_false, ih here.2]

theorem find_reorder (hno : entries.keys.Nodup) (seen : Scalar) :
    find canon (reorderSingleTask entries) seen = find canon entries seen := by
  unfold reorderSingleTask
  split
  · rfl
  next hs =>
    have hn : word "name" ∈ entries.keys := by
      by_contra ha
      exact hs (.inr ha)
    dsimp only
    split
    · rfl
    · rw [find_eq_get? hno, ← find?_desiredKeys hno hn]
      exact find_filterMap entries seen _ (fun k => (mem_desiredKeys hno hn k).mp) hno

end Apme.Formatter
