import Apme.Lib.Text
import Apme.Lib.Tree

/-!
# YAML data

What the YAML loader returns for a document: scalars, sequences and mappings.
Anchors, tags, comments and the style of a scalar are not part of it.  Two
documents hold the same data up to spacing in Jinja expressions if they look
the same once the white space between double braces is taken out.
-/

set_option autoImplicit false

namespace Apme.Formatter

open Apme.Lib List DataTree

/-- A scalar; floats and the rarer types are given by their `str()`. -/
inductive Scalar
  | null
  | bool (value : Bool)
  | int (value : Int)
  | float (repr : Text)
  | other (repr : Text)
  | str (text : Text)
  deriving DecidableEq

abbrev Yaml := DataTree Scalar

abbrev Entries := List (Scalar × Yaml)

namespace Scalar

def word (text : String) : Scalar := .str text.toList

def isOneOf (words : List String) : Scalar → Bool
  | .str text => decide (String.ofList text ∈ words)
  | _ => false

/-- Truth in a condition of the host language. -/
def truthy : Scalar → Bool
  | .null => false
  | .bool value => value
  | .int value => decide (value ≠ 0)
  | .float repr => decide (repr ≠ "0.0".toList ∧ repr ≠ "-0.0".toList)
  | .other _ => true
  | .str text => decide (text ≠ [])

theorem isOneOf_iff (words : List String) (scalar : Scalar) :
    scalar.isOneOf words ↔ ∃ text ∈ words, scalar = word text := by
  cases scalar with
  | str text =>
    simp only [isOneOf, decide_eq_true_eq, word, str.injEq]
    constructor
    · intro hm
      exact ⟨_, hm, (String.toList_ofList).symm⟩
    · rintro ⟨o, hm, rfl⟩
      rwa [String.ofList_toList]
  | _ => simp [isOneOf, word]

end Scalar

/-- Where in a text a character stands: in plain text, after one opening brace,
in an expression, or in it after one closing brace. -/
inductive JinjaState
  | text | brace | expression | closing

namespace JinjaState

def next : JinjaState → Char → JinjaState
  | .text, c => if c = '{' then .brace else .text
  | .brace, c => if c = '{' then .expression else .text
  | .expression, c => if c = '}' then .closing else .expression
  | .closing, c => if c = '}' then .text else .expression

def drops : JinjaState → Char → Bool
  | .expression, c => Text.isSpace c
  | .closing, c => Text.isSpace c
  | _, _ => false

/-- The state after a character that is no brace. -/
def settled : JinjaState → JinjaState
  | .brace => .text
  | .closing => .expression
  | state => state

end JinjaState

def unspacedFrom : JinjaState → Text → Text
  | _, [] => []
  | state, c :: rest =>
    if state.drops c then unspacedFrom (state.next c) rest
    else c :: unspacedFrom (state.next c) rest

/-- A text without the white space inside its Jinja expressions. -/
def unspaced (text : Text) : Text := unspacedFrom .text text

def isPlain (c : Char) : Bool := !Text.isSpace c && c ≠ '{' && c ≠ '}'

example : unspaced "a \x7b\x7b b|c \x7d\x7d d".toList = "a \x7b\x7bb|c\x7d\x7d d".toList := by decide

section

variable (state : JinjaState)

theorem unspacedFrom_append (old after : Text) :
    unspacedFrom state (old ++ after) =
      unspacedFrom state old ++ unspacedFrom (old.foldl JinjaState.next state) after := by
  induction old generalizing state with
  | nil => rfl
  | cons c rest ih =>
    simp only [cons_append, unspacedFrom, foldl_cons]
    split
    · exact ih _
    · rw [ih, cons_append]

theorem next_of_isPlain {c : Char} (hp : isPlain c) :
    state.next c = state.settled ∧ state.drops c = false := by
  simp only [isPlain, Bool.and_eq_true, Bool.not_eq_true', decide_eq_true_eq] at hp
  obtain ⟨⟨hv, ho⟩, hc⟩ := hp
  cases state <;> simp [JinjaState.next, JinjaState.drops, JinjaState.settled, hv, ho,
    hc]

theorem settled_settled : state.settled.settled = state.settled := by
  cases state <;> rfl

theorem unspacedFrom_of_isPlain {text : Text}
    (hp : ∀ c ∈ text, isPlain c) : unspacedFrom state text = text := by
  induction text generalizing state with
  | nil => rfl
  | cons c rest ih =>
    have first := next_of_isPlain state (hp c mem_cons_self)
    rw [unspacedFrom, first.2, ih _ fun d mem => hp d (mem_cons_of_mem c mem)]
    rfl

theorem foldl_next_of_isPlain {t : Text} (some : t ≠ [])
    (hp : ∀ c ∈ t, isPlain c) : t.foldl JinjaState.next state = state.settled := by
  induction t generalizing state with
  | nil => exact absurd rfl some
  | cons c rest ih =>
    rw [foldl_cons, (next_of_isPlain state (hp c mem_cons_self)).1]
    by_cases last : rest = []
    · rw [last]
      rfl
    · rw [ih _ last fun d mem => hp d (mem_cons_of_mem c mem), settled_settled]

end

theorem unspaced_replace {before old new after : Text} (hos : old ≠ []) (hs : new ≠ [])
    (hop : ∀ c ∈ old, isPlain c) (hp : ∀ c ∈ new, isPlain c)
    (same : unspaced (before ++ (new ++ after)) = unspaced (before ++ (old ++ after))) :
    new = old := by
  simp only [unspaced, unspacedFrom_append, unspacedFrom_of_isPlain _ hop,
    unspacedFrom_of_isPlain _ hp, foldl_next_of_isPlain _ hos hop,
    foldl_next_of_isPlain _ hs hp] at same
  exact append_cancel_right (append_cancel_left same)

theorem mem_unspacedFrom_brace (st : JinjaState) (text : Text) :
    '{' ∈ unspacedFrom st text ↔ '{' ∈ text := by
  have hv : Text.isSpace '{' = false := by decide
  induction text generalizing st with
  | nil => rfl
  | cons c rest ih =>
    have hk : c = '{' → st.drops c = false := by
      rintro rfl
      cases st <;> simp [JinjaState.drops, hv]
    rw [unspacedFrom]
    split
    next cut =>
      have ho : '{' ≠ c := fun hs => by simp [hk hs.symm] at cut
      simp only [ih, mem_cons, ho, false_or]
    next => simp only [mem_cons, ih]

theorem unspacedFrom_text {text : Text} (hf : '{' ∉ text) : unspacedFrom .text text = text := by
  induction text with
  | nil => rfl
  | cons c rest ih =>
    rw [mem_cons, not_or] at hf
    have hs : JinjaState.next .text c = .text := if_neg (Ne.symm hf.1)
    rw [unspacedFrom, hs, ih hf.2]
    rfl

theorem eq_of_unspaced {text other : Text} (hf : '{' ∉ text) (hs : unspaced other = text) :
    other = text := by
  have none : '{' ∉ other := by
    rw [← mem_unspacedFrom_brace .text other]
    exact fun mem => hf (hs ▸ mem)
  rw [← hs, unspaced, unspacedFrom_text none]

namespace Scalar

/-- A scalar up to spacing in Jinja expressions. -/
def canon : Scalar → Scalar
  | .str text => .str (unspaced text)
  | scalar => scalar

theorem eq_of_canon {text : String} (hf : '{' ∉ text.toList) {o : Scalar}
    (hs : canon o = word text) : o = word text := by
  cases o with
  | str txt =>
    simp only [canon, word, str.injEq] at hs
    exact congrArg str (eq_of_unspaced hf hs)
  | _ => exact hs

theorem canon_word {text : String} (hf : '{' ∉ text.toList) : canon (word text) = word text :=
  congrArg str (unspacedFrom_text hf)

end Scalar

/-- The place the formatter may raise the version at. -/
def Exempt (path : List (Step Scalar)) : Prop :=
  [.key (Scalar.word "galaxy_info"), .key (Scalar.word "min_ansible_version")] <+: path

instance decidableExempt (path : List (Step Scalar)) : Decidable (Exempt path) :=
  inferInstanceAs (Decidable (_ <+: path))

def observed : Yaml → List (Step Scalar) → Option (Shape Scalar) :=
  observe Scalar.canon Scalar.canon

/-- The same data up to the order of keys, spacing in Jinja expressions and
`galaxy_info.min_ansible_version`. -/
def SameData (old new : Yaml) : Prop := ∀ path, ¬ Exempt path → observed new path = observed old path

end Apme.Formatter
