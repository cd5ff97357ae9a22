import Apme.Formatter.Data

/-!
# Formatting that fails softly

Dumping is guarded; what the loader raises is logged and lost on the way, so no
error tells of it.  The rewriting between them is not guarded: it raises where a
key=value text ends in an equals sign.
-/

set_option autoImplicit false

namespace Apme.Formatter

open Apme.Lib Scalar List

section Dangling

variable (letters : Letters)

/-- The text begins with a key and an equals sign. -/
def KeyFirst (text key rest : Text) : Prop :=
  text.takeWhile letters.isWord = key ∧ key ≠ [] ∧ text.drop key.length = '=' :: rest

/-- Complete pairs, and then a key whose equals sign has nothing after it. -/
inductive Dangling : Text → Prop
  | last {text key rest : Text} : KeyFirst letters text key rest → Text.lstrip rest = [] → Dangling text
  | next {text key rest value remaining : Text} : KeyFirst letters text key rest →
      kvValue rest = .ok (some (value, remaining)) → Dangling remaining → Dangling text

/-- The module of a mapping is given such a text. -/
def DanglingArguments (entries : Entries) : Prop :=
  ∃ key value, moduleKey entries = some key ∧ key.isOneOf commandModules = false ∧
    entries.get? key = some (.leaf (.str value)) ∧ Dangling letters (Text.strip value)

variable {letters}

theorem kvValue_error_iff (rest : Text) :
    kvValue rest = .error .indexError ↔ Text.lstrip rest = [] := by
  unfold kvValue
  split
  · simp [Text.lstrip, show Text.isSpace '"' = false by decide]
  · simp [Text.lstrip, show Text.isSpace '\'' = false by decide]
  · simp [Text.lstrip, show Text.isSpace '{' = false by decide]
  · unfold firstWord
    dsimp only
    split <;> simp_all [Functor.map, Except.map]

theorem Dangling.keyFirst_iff {t k rest : Text} (first : KeyFirst letters t k rest) :
    Dangling letters t ↔ Text.lstrip rest = [] ∨
      ∃ v remaining, kvValue rest = .ok (some (v, remaining)) ∧ Dangling letters remaining := by
  have hs : ∀ {o tail}, KeyFirst letters t o tail → tail = rest := by
    rintro o tail ⟨rfl, _, cut⟩
    have ha := first.2.2
    rw [← first.1, cut] at ha
    exact (cons.inj ha).2
  constructor
  · rintro (⟨hag, hb⟩ | ⟨hag, hr, hd⟩)
    · exact .inl (hs hag ▸ hb)
    · exact .inr ⟨_, _, hs hag ▸ hr, hd⟩
  · rintro (hb | ⟨v, remaining, hr, hd⟩)
    · exact .last first hb
    · exact .next first hr hd

theorem Dangling.keyed {t : Text} (hd : Dangling letters t) :
    ∃ k rest, KeyFirst letters t k rest := by
  cases hd with
  | last first => exact ⟨_, _, first⟩
  | next first => exact ⟨_, _, first⟩

theorem kvLoop_error_iff {fuel : Nat} (text : Text) (res : Dict Text Text)
    (he : text.length ≤ fuel) :
    kvLoop letters fuel text res = .error .indexError ↔ Dangling letters text := by
  have hem : ¬ Dangling letters [] := by
    intro hd
    obtain ⟨k, rest, hK, hn, _⟩ := hd.keyed
    exact hn hK.symm
  induction fuel generalizing text res with
  | zero =>
    cases length_eq_zero_iff.mp (Nat.le_zero.mp he)
    simp [kvLoop, hem]
  | succ fuel ih =>
    cases text with
    | nil => simp [kvLoop, hem]
    | cons c tail =>
      simp only [kvLoop]
      split
      next none =>
        refine ⟨by simp, fun hd => ?_⟩
        obtain ⟨k, rest, hK, hn, _⟩ := hd.keyed
        exact absurd (hK.symm.trans none) hn
      next rest cut hn =>
        have first : KeyFirst letters (c :: tail) _ rest := ⟨rfl, fun none => hn none, cut⟩
        rw [Dangling.keyFirst_iff first, ← kvValue_error_iff]
        have hs : rest.length + 1 ≤ (c :: tail).length := by
          have hw := congrArg List.length cut
          simp only [length_drop, length_cons] at hw ⊢
          omega
        split
        next failure hr => cases failure; simp [hr]
        next hr => simp [hr]
        next v later hr =>
          have hl := length_kvValue hr
          simp only [length_cons] at he hs
          simp [hr, ih later _ (by omega)]
      next none =>
        refine ⟨by simp, fun hd => ?_⟩
        obtain ⟨k, rest, rfl, hn, cut⟩ := hd.keyed
        exact absurd cut (none rest)

theorem parseKvString_error_iff (value : Text) :
    parseKvString letters value = .error .indexError ↔ Dangling letters (Text.strip value) := by
  have hw : Text.strip value <+ value :=
    ( List.rdropWhile_prefix _ _).sublist.trans (dropWhile_sublist _)
  unfold parseKvString
  split
  next hs =>
    refine ⟨nofun, fun hd => ?_⟩
    obtain ⟨key, rest, -, -, cut⟩ := hd.keyed
    have sign : '=' ∈ (Text.strip value).drop key.length := cut ▸ mem_cons_self
    exact absurd (hw.subset (mem_of_mem_drop sign)) hs
  next =>
    rw [← kvLoop_error_iff _ Dict.empty hw.length_le]
    cases kvLoop letters value.length (Text.strip value) Dict.empty with
    | error failure => simp [bind, Except.bind]
    | ok res => cases res <;> simp [bind, Except.bind, pure, Except.pure]

theorem expand_ok_iff (entries : Entries) :
    (∃ new, expandSingleTaskKv letters entries = .ok new) ↔ ¬ DanglingArguments letters entries := by
  by_cases hi : InlineArguments letters entries
  · obtain ⟨k, v, hmod, ho, hf, _⟩ := hi
    have only : DanglingArguments letters entries ↔ Dangling letters (Text.strip v) := by
      simp [DanglingArguments, hmod, ho, hf]
    rw [only, ← parseKvString_error_iff]
    simp only [expandSingleTaskKv, hmod, ho, hf, Bool.false_eq_true, if_false]
    cases parseKvString letters v with
    | error failure => cases failure; simp [bind, Except.bind]
    | ok res => cases res <;> simp [bind, Except.bind, pure, Except.pure]
  · refine ⟨fun _ => ?_, fun _ => ⟨_, expand_of_none hi⟩⟩
    rintro ⟨k, v, hmod, ho, hf, hd⟩
    refine hi ⟨k, v, hmod, ho, hf, ?_⟩
    rw [(parseKvString_error_iff v).mpr hd]
    rintro ⟨⟩

theorem rewriteData_ok_iff (data : Yaml) :
    (∃ new, rewriteData letters data = .ok new) ↔
      ∀ mapping ∈ metMappings data, ¬ DanglingArguments letters mapping := by
  have he : (∃ new, expandInlineKvArgs letters data = .ok new) ↔
      ∀ mapping ∈ metMappings data, ¬ DanglingArguments letters mapping := by
    simp only [← expand_ok_iff]
    refine DataTree.walk_ok_iff (fun es came each => ?_) data
    have hmod := moduleKey_congr (DataTree.Entered.keys each)
    simp only [expand_ok_iff, DanglingArguments, hmod, get?_entered each]
  rw [← he]
  constructor
  · rintro ⟨_, hr⟩
    obtain ⟨ex, _, _, first, _⟩ := rewriteData_ok.mp hr
    exact ⟨ex, first⟩
  · rintro ⟨ex, first⟩
    obtain ⟨cap, hs⟩ := walk_total _ _ ex
    obtain ⟨reordered, ht⟩ := walk_total _ _ cap
    exact ⟨_, rewriteData_ok.mpr ⟨_, _, _, first, hs, ht, rfl⟩⟩

end Dangling

section Content

variable (letters : Letters) (host : Host) (text : Text)

/-- Loading, rewriting or dumping raises. -/
def Raises : Prop :=
  match host.load (prepare text) with
  | .error _ => True
  | .ok (.leaf _) => False
  | .ok data => Holds (fun new => Holds (fun _ => False) (fun _ => True) (host.dumps new)) (fun _ => True)
      (rewriteData letters data)

/-- Formatting returns, and returns the original with an error where a part of
it raises. -/
def FailsSoftly (filename : String) : Prop :=
  ∃ result, formatContent letters host text filename = .ok result ∧
    (Raises letters host text → result.formatted = text ∧ result.changed = false ∧
      ∃ message, result.error = some message ∧ message ≠ "")

end Content

def statHost : Host := flatHost [[("stat", "path=")]] (by decide)

end Apme.Formatter
