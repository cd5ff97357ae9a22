import Mathlib.Data.List.Basic
import Mathlib.Data.List.Chain
import Mathlib.Data.List.Dedup
import Mathlib.Data.List.Infix
import Mathlib.Data.List.Sort
import Mathlib.Data.Set.Basic
import Mathlib.Data.String.Basic
import Apme.Lib.Text

/-!
# Names of collections, packages and wheels

A Galaxy collection is served as a Python package.  Its name is spelled in three
ways: as a namespace and a name, as a normalized package name, and as the first
part of a wheel's file name.  The proxy goes from the package name back to the
collection for the page of a project, and from the file name for a wheel that it
has to download.

Normalization takes every run of separators for one hyphen, and the namespace
ends at the first one, so a decoded namespace has no underscore and a decoded
name has no run of them.  On collections of that form the three spellings are
equivalent; any other collection is decoded as a different one.
-/

set_option autoImplicit false

namespace Apme.Galaxy

open Apme.Lib List

def prefixText : Text := "ansible-collection-".toList

def isSeparator (c : Char) : Bool := c = '-' || c = '_' || c = '.'

/-- `_PEP503_NORMALIZE.sub("-", name)`: of a run of separators, the last one is
replaced and the others are dropped. -/
def collapse : Text → Text
  | [] => []
  | c :: rest =>
    if isSeparator c then
      if rest.head?.any isSeparator then collapse rest else '-' :: collapse rest
    else c :: collapse rest

variable (name : Text)

/-- Letters beyond ASCII, which no collection has in its name, stay as they are. -/
def normalizePep503 : Text := (collapse name).map Char.toLower

inductive NamingError where
  | noDot (fqcn : Text)
  | notPrefixed (packageName : Text)
  | notSplit (packageName : Text)
  deriving DecidableEq

def fqcnToPython (fqcn : Text) : Except NamingError Text :=
  match Text.splitOnce '.' fqcn with
  | none => .error (.noDot fqcn)
  | some (ns, name) => .ok (normalizePep503 (prefixText ++ ns ++ '-' :: name))

def isCollectionPackage (packageName : Text) : Bool := prefixText <+: normalizePep503 packageName

/-- `text.replace("-", "_")`. -/
def underscored (text : Text) : Text := text.map fun c => if c = '-' then '_' else c

/-- `text.replace("_", "-")`. -/
def hyphenated (text : Text) : Text := text.map fun c => if c = '_' then '-' else c

def pythonToFqcn (packageName : Text) : Except NamingError (Text × Text) :=
  let normalized := normalizePep503 packageName
  if prefixText <+: normalized then
    match Text.splitOnce '-' (normalized.drop prefixText.length) with
    | none => .error (.notSplit packageName)
    | some parts => .ok (underscored parts.1, underscored parts.2)
  else .error (.notPrefixed packageName)

def distStart : Text := "ansible_collection_".toList

def distName (ns name : Text) : Text := distStart ++ ns ++ '_' :: name

def wheelTags : Text := "-py3-none-any.whl".toList

def wheelFilename (ns name version : Text) : Text := distName ns name ++ '-' :: version ++ wheelTags

structure Wheel where
  ns : Text
  name : Text
  version : Text

/-- The name under which the converter stores a wheel. -/
def Wheel.filename (wheel : Wheel) : Text := wheelFilename wheel.ns wheel.name wheel.version

/-- A download by `ansible-galaxy`; an empty version asks for the latest. -/
abbrev Download := Text → Text → Text → Option Wheel

inductive ProxyError where
  | notCollection (packageName : Text)
  | invalidCollectionName (packageName : Text)
  | invalidWheelFilename (filename : Text)
  | cannotParse (filename : Text)
  | downloadFailed (ns name version : Text)

def sorted (names : List Text) : List Text := names.mergeSort (· ≤ ·)

/-- `_list_cached_wheels`, for names without the special characters of a glob. -/
def listCachedWheels (files : List Text) (ns name : Text) : List Text :=
  sorted (files.filter fun file =>
    (distName ns name ++ ['-']) <+: file && ".whl".toList <:+ file.drop ((distName ns name).length + 1))

/-- The names on the page of a project.  `remembered` are the wheels that are
held in memory. -/
def simpleProject (files remembered : List Text) (download : Download) (packageName : Text) :
    Except ProxyError (List Text) :=
  let normalized := normalizePep503 packageName
  if isCollectionPackage normalized then
    match pythonToFqcn normalized with
    | .error _ => .error (.invalidCollectionName packageName)
    | .ok (ns, name) =>
      let cached := (listCachedWheels files ns name ++
        remembered.filter fun file => (distName ns name ++ ['-']) <+: file).dedup
      if cached = [] then
        match download ns name [] with
        | none => .error (.downloadFailed ns name [])
        | some wheel => .ok [wheel.filename]
      else .ok (sorted cached)
  else .error (.notCollection packageName)

/-- `stored` is what the disk cache or the memory holds under a name. -/
def serveWheel (stored : Text → Option Wheel) (download : Download) (filename : Text) :
    Except ProxyError Wheel :=
  if ¬ ".whl".toList <:+ filename ∨ '/' ∈ filename ∨ '\\' ∈ filename ∨ "..".toList <:+: filename then
    .error (.invalidWheelFilename filename)
  else
    match stored filename with
    | some wheel => .ok wheel
    | none =>
      let dist := if '-' ∈ filename then filename.takeWhile (· ≠ '-') else []
      let pkgName := normalizePep503 (hyphenated dist)
      if isCollectionPackage pkgName then
        match pythonToFqcn pkgName, (Text.replaceAll ".whl".toList [] 0 filename).splitOn '-' with
        | .error _, _ => .error (.cannotParse filename)
        | .ok (ns, collName), _ :: version :: _ :: _ :: _ :: _ =>
          match download ns collName version with
          | none => .error (.downloadFailed ns collName version)
          | some wheel => .ok wheel
        | .ok _, _ => .error (.invalidWheelFilename filename)
      else .error (.invalidWheelFilename filename)

section Normalization

variable {c : Char}

theorem collapse_cons_of_not (ho : isSeparator c = false) (rest : Text) :
    collapse (c :: rest) = c :: collapse rest := by
  simp [collapse, ho]

theorem collapse_append {word : Text} (ho : ∀ c ∈ word, isSeparator c = false) (rest : Text) :
    collapse (word ++ rest) = word ++ collapse rest := by
  induction word with
  | nil => rfl
  | cons c word ih =>
    rw [cons_append, collapse_cons_of_not (ho c (by simp)),
      ih fun d mem => ho d (by simp [mem]), cons_append]

variable {rest : Text}

theorem collapse_hyphen (hu : rest.head?.any isSeparator = false) :
    collapse ('-' :: rest) = '-' :: collapse rest := by
  rw [collapse, if_pos (by decide), hu]
  rfl

theorem collapse_prefixText (hu : rest.head?.any isSeparator = false) :
    collapse (prefixText ++ rest) = prefixText ++ collapse rest := by
  have hw : ∀ rest : Text, prefixText ++ rest =
      "ansible".toList ++ '-' :: ("collection".toList ++ '-' :: rest) := fun _ => rfl
  have ho : ∀ word : Text, word.all (!isSeparator ·) →
      ∀ c ∈ word, isSeparator c = false := by
    intro word hf c mem
    simpa using all_eq_true.mp hf c mem
  have first := ho "ansible".toList (by decide)
  have hs := ho "collection".toList (by decide)
  rw [hw, collapse_append first, collapse_hyphen rfl, collapse_append hs,
    collapse_hyphen hu, hw]

variable {text : Text}

theorem mem_collapse (mem : c ∈ collapse text) : c = '-' ∨ isSeparator c = false := by
  induction text with
  | nil => simp [collapse] at mem
  | cons d rest ih =>
    simp only [collapse] at mem
    split at mem
    next =>
      split at mem
      next => exact ih mem
      next =>
        obtain rfl | inside := mem_cons.mp mem
        · exact .inl rfl
        · exact ih inside
    next ho =>
      obtain rfl | inside := mem_cons.mp mem
      · exact .inr (by simpa using ho)
      · exact ih inside

theorem head_collapse (hh : (collapse text).head? = some '-') :
    text.head?.any isSeparator := by
  cases text with
  | nil => simp [collapse] at hh
  | cons c rest =>
    by_contra ho
    have hp : isSeparator c = false := by simpa using ho
    rw [collapse_cons_of_not hp] at hh
    have hs : c = '-' := by simpa using hh
    rw [hs] at hp
    exact absurd hp (by decide)

/-- No two neighbours are both `sep`. -/
def Spaced (sep : Char) (text : Text) : Prop := text.IsChain fun a b => ¬ (a = sep ∧ b = sep)

instance (sep : Char) (text : Text) : Decidable (Spaced sep text) :=
  inferInstanceAs (Decidable (List.IsChain _ _))

theorem spaced_collapse (t : Text) : Spaced '-' (collapse t) := by
  induction t with
  | nil => exact .nil
  | cons c rest ih =>
    simp only [collapse]
    split
    next =>
      split
      next => exact ih
      next hu =>
        refine isChain_cons.mpr ⟨?_, ih⟩
        rintro d head ⟨-, rfl⟩
        exact hu (head_collapse head)
    next ho =>
      refine isChain_cons.mpr ⟨?_, ih⟩
      rintro d - ⟨rfl, -⟩
      exact ho (by decide)

theorem toNat_toLower (c : Char) :
    c.toLower.toNat = if 65 ≤ c.toNat ∧ c.toNat ≤ 90 then c.toNat + 32 else c.toNat := by
  by_cases hc : 65 ≤ c.toNat ∧ c.toNat ≤ 90
  · have hsm : c.val.toNat ≤ 90 := hc.2
    have hs : c.toLower.toNat = (c.val + 32).toNat := by
      delta Char.toLower
      rw [dif_pos (show c.val ≥ 'A'.val ∧ c.val ≤ 'Z'.val from hc)]
      rfl
    rw [if_pos hc, hs, UInt32.toNat_add]
    change (c.val.toNat + 32) % 2 ^ 32 = c.val.toNat + 32
    omega
  · delta Char.toLower
    rw [if_neg hc, dif_neg (show ¬ (c.val ≥ 'A'.val ∧ c.val ≤ 'Z'.val) from hc)]

theorem isSeparator_toLower (c : Char) : isSeparator c.toLower = isSeparator c := by
  have hl := toNat_toLower c
  rw [Bool.eq_iff_iff]
  simp only [isSeparator, ← Char.toNat_inj, Bool.or_eq_true, decide_eq_true_eq, hl]
  simp
  split <;> omega

theorem toLower_eq_hyphen (c : Char) : c.toLower = '-' ↔ c = '-' := by
  have hl := toNat_toLower c
  simp only [← Char.toNat_inj, hl]
  simp
  split <;> omega

theorem toLower_toLower (c : Char) : c.toLower.toLower = c.toLower := by
  have ho := toNat_toLower c
  have ht := toNat_toLower c.toLower
  rw [← Char.toNat_inj, ht]
  split at ho <;> split <;> omega

theorem mem_normalizePep503 {name : Text} (mem : c ∈ normalizePep503 name) :
    c = '-' ∨ isSeparator c = false := by
  obtain ⟨d, hi, rfl⟩ := mem_map.mp mem
  obtain rfl | other := mem_collapse hi
  · exact .inl (by decide)
  · exact .inr (by rw [isSeparator_toLower, other])

theorem spaced_normalizePep503 : Spaced '-' (normalizePep503 name) := by
  refine (isChain_map _).mpr ((spaced_collapse name).imp ?_)
  intro a b ha
  simpa only [toLower_eq_hyphen] using ha

theorem collapse_spaced {sep : Char} (hS : isSeparator sep)
    (hs : Spaced sep text) (ho : ∀ c ∈ text, c = sep ∨ isSeparator c = false) :
    collapse text = text.map fun c => if c = sep then '-' else c := by
  induction text with
  | nil => rfl
  | cons c rest ih =>
    obtain ⟨ha, hsr⟩ := isChain_cons.mp hs
    have hr : ∀ d ∈ rest, d = sep ∨ isSeparator d = false := fun d mem => ho d (by simp [mem])
    rw [map_cons, ← ih hsr hr]
    obtain rfl | other := ho c (by simp)
    · have hu : rest.head?.any isSeparator = false := by
        cases rest with
        | nil => rfl
        | cons d rest =>
          refine (hr d (by simp)).resolve_left ?_
          rintro rfl
          exact ha d rfl ⟨rfl, rfl⟩
      simp [collapse, hS, hu]
    · have hd : c ≠ sep := by
        rintro rfl
        rw [hS] at other
        cases other
      simp [collapse, other, hd]

theorem normalizePep503_idem : normalizePep503 (normalizePep503 name) = normalizePep503 name := by
  have hs : collapse (normalizePep503 name) = normalizePep503 name := by
    rw [collapse_spaced (show isSeparator '-' by decide) (spaced_normalizePep503 name)
      fun c => mem_normalizePep503]
    conv_rhs => rw [← map_id (normalizePep503 name)]
    refine map_congr_left fun c _ => ?_
    split
    next hh => exact hh.symm
    next => rfl
  rw [normalizePep503, hs, normalizePep503, map_map]
  exact map_congr_left fun c _ => toLower_toLower c

theorem collapse_hyphenated (text : Text) : collapse (hyphenated text) = collapse text := by
  have sameClass : ∀ c, isSeparator (if c = '_' then '-' else c) = isSeparator c := by
    intro c
    split
    next line => rw [line]; rfl
    next => rfl
  induction text with
  | nil => rfl
  | cons c rest ih =>
    have next : (hyphenated rest).head?.any isSeparator = rest.head?.any isSeparator := by
      cases rest with
      | nil => rfl
      | cons d rest => exact sameClass d
    have unfolded : hyphenated (c :: rest) = (if c = '_' then '-' else c) :: hyphenated rest := rfl
    simp only [unfolded, collapse, sameClass, next, ih]
    by_cases separates : isSeparator c
    · simp [separates]
    · have hd : c ≠ '_' := by
        rintro rfl
        exact separates (by decide)
      simp [separates, hd]

end Normalization

section Collections

def isGalaxyChar (c : Char) : Bool := ('a' ≤ c && c ≤ 'z') || ('0' ≤ c && c ≤ '9') || c = '_'

/-- A fully qualified collection name. -/
@[ext] structure Fqcn where
  ns : Text
  name : Text
  nsChars : ns.all isGalaxyChar
  nameChars : name.all isGalaxyChar

def Fqcn.text (fqcn : Fqcn) : Text := fqcn.ns ++ '.' :: fqcn.name

/-- The names that a decoded package name can have: the namespace is not empty
and has no underscore; the name does not start with an underscore, and has no
two in a row. -/
structure Plain (ns name : Text) : Prop where
  filled : ns ≠ []
  whole : '_' ∉ ns
  spaced : Spaced '_' ('_' :: name)

variable {c : Char}

theorem isGalaxyChar_spec (hc : isGalaxyChar c) :
    c.toLower = c ∧ (c = '_' ∨ isSeparator c = false) := by
  have hl := toNat_toLower c
  simp only [isGalaxyChar, isSeparator, ← Char.toNat_inj, Char.le_def, UInt32.le_iff_toNat_le,
    Char.toNat_val, hl] at *
  simp at *
  constructor
  · omega
  · omega

variable {fqcn : Fqcn}

theorem Fqcn.mem_ns (mem : c ∈ fqcn.ns) : c.toLower = c ∧ (c = '_' ∨ isSeparator c = false) :=
  isGalaxyChar_spec (all_eq_true.mp fqcn.nsChars c mem)

theorem Fqcn.mem_name (mem : c ∈ fqcn.name) : c.toLower = c ∧ (c = '_' ∨ isSeparator c = false) :=
  isGalaxyChar_spec (all_eq_true.mp fqcn.nameChars c mem)

theorem Fqcn.notMem (fqcn : Fqcn) (hs : isSeparator c) (ho : c ≠ '_') :
    c ∉ fqcn.ns ∧ c ∉ fqcn.name := by
  have hn : ¬ (c = '_' ∨ isSeparator c = false) := by simp [hs, ho]
  exact ⟨fun mem => hn (Fqcn.mem_ns mem).2, fun mem => hn (Fqcn.mem_name mem).2⟩

variable {packageName ns name : Text}

theorem pythonToFqcn_eq_ok :
    pythonToFqcn packageName = .ok (ns, name) ↔
      ∃ first rest, normalizePep503 packageName = prefixText ++ (first ++ '-' :: rest) ∧
        '-' ∉ first ∧ ns = underscored first ∧ name = underscored rest := by
  constructor
  · intro hd
    simp only [pythonToFqcn] at hd
    split at hd
    next hp =>
      obtain ⟨stripped, split⟩ := hp
      rw [← split, drop_left] at hd
      split at hd
      next => cases hd
      next parts hf =>
        cases hd
        obtain ⟨hw, ha⟩ := Text.splitOnce_eq_some.mp hf
        exact ⟨parts.1, parts.2, by rw [← split, hw], ha, rfl, rfl⟩
    next => cases hd
  · rintro ⟨first, rest, split, ha, rfl, rfl⟩
    have hf : Text.splitOnce '-' (first ++ '-' :: rest) = some (first, rest) :=
      Text.splitOnce_eq_some.mpr ⟨rfl, ha⟩
    simp only [pythonToFqcn, split, prefix_append, if_true, drop_left, hf]

theorem plain_of_pythonToFqcn
    (hd : pythonToFqcn packageName = .ok (ns, name)) : Plain ns name := by
  obtain ⟨first, rest, split, ha, rfl, rfl⟩ := pythonToFqcn_eq_ok.mp hd
  have hsp := spaced_normalizePep503 packageName
  rw [split] at hsp
  have hu : ∀ c ∈ first ++ '-' :: rest, c ≠ '_' := by
    rintro c mem rfl
    have hi : '_' ∈ normalizePep503 packageName := by
      rw [split]
      exact mem_append_right _ mem
    exact absurd (mem_normalizePep503 hi) (by decide)
  refine ⟨?_, ?_, ?_⟩
  · intro empty
    have first_nil : first = [] := map_eq_nil_iff.mp empty
    obtain ⟨-, -, apart⟩ := isChain_append.mp hsp
    exact apart '-' (by decide) '-' (by simp [first_nil]) ⟨rfl, rfl⟩
  · intro mem
    obtain ⟨c, hi, hs⟩ := mem_map.mp mem
    split at hs
    next hh => exact ha (hh ▸ hi)
    next => exact hu c (by simp [hi]) hs
  · have hr : Spaced '-' ('-' :: rest) := hsp.right_of_append.right_of_append
    have hm : '_' :: underscored rest = underscored ('-' :: rest) := rfl
    rw [hm]
    refine (isChain_map _).mpr (hr.imp_of_mem_imp ?_)
    intro a b inA inB apart both
    refine apart ⟨?_, ?_⟩
    · by_contra other
      exact hu a (mem_append_right _ inA) (by simpa [other] using both.1)
    · by_contra other
      exact hu b (mem_append_right _ inB) (by simpa [other] using both.2)

theorem normalizePep503_plain (plain : Plain fqcn.ns fqcn.name) :
    normalizePep503 (prefixText ++ (fqcn.ns ++ '-' :: fqcn.name)) =
      prefixText ++ (fqcn.ns ++ '-' :: hyphenated fqcn.name) := by
  have ho : ∀ c ∈ fqcn.ns, isSeparator c = false := by
    intro c mem
    refine (Fqcn.mem_ns mem).2.resolve_left ?_
    rintro rfl
    exact plain.whole mem
  obtain ⟨ha, hsn⟩ := isChain_cons.mp plain.spaced
  have hu : fqcn.name.head?.any isSeparator = false := by
    cases hN : fqcn.name with
    | nil => rfl
    | cons c rest =>
      have mem : c ∈ fqcn.name := by simp [hN]
      refine (Fqcn.mem_name mem).2.resolve_left ?_
      rintro rfl
      exact ha '_' (by simp [hN]) ⟨rfl, rfl⟩
  have hs : (fqcn.ns ++ '-' :: fqcn.name).head?.any isSeparator = false := by
    obtain ⟨c, rest, isNs⟩ := exists_cons_of_ne_nil plain.filled
    rw [isNs, cons_append, List.head?_cons, Option.any_some]
    exact ho c (by simp [isNs])
  have hns : fqcn.ns.map Char.toLower = fqcn.ns := by
    conv_rhs => rw [← map_id fqcn.ns]
    exact map_congr_left fun c mem => (Fqcn.mem_ns mem).1
  have hln : (hyphenated fqcn.name).map Char.toLower = hyphenated fqcn.name := by
    rw [hyphenated, map_map]
    refine map_congr_left fun c mem => ?_
    simp only [Function.comp_apply]
    split
    next => rfl
    next => exact (Fqcn.mem_name mem).1
  have hp : prefixText.map Char.toLower = prefixText := by decide
  have hn : collapse fqcn.name = hyphenated fqcn.name :=
    collapse_spaced (by decide) hsn fun c mem => (Fqcn.mem_name mem).2
  rw [normalizePep503, collapse_prefixText hs, collapse_append ho,
    collapse_hyphen hu, hn, map_append, map_append, map_cons,
    hns, hln, hp]
  rfl

theorem underscored_hyphenated : underscored (hyphenated fqcn.name) = fqcn.name := by
  conv_rhs => rw [← map_id fqcn.name]
  rw [underscored, hyphenated, map_map]
  refine map_congr_left fun c mem => ?_
  by_cases hl : c = '_'
  · simp [hl]
  · have hh : c ≠ '-' := by
      rintro rfl
      exact (fqcn.notMem (by decide) (by decide)).2 mem
    simp [hl, hh]

/-- A package name that is normalized like that of such a collection is decoded
as the collection. -/
theorem pythonToFqcn_plain (plain : Plain fqcn.ns fqcn.name)
    (hs : normalizePep503 packageName =
      normalizePep503 (prefixText ++ (fqcn.ns ++ '-' :: fqcn.name))) :
    pythonToFqcn packageName = .ok (fqcn.ns, fqcn.name) := by
  have ha : '-' ∉ fqcn.ns := (fqcn.notMem (by decide) (by decide)).1
  have hu : underscored fqcn.ns = fqcn.ns := by
    conv_rhs => rw [← map_id fqcn.ns]
    refine map_congr_left fun c mem => if_neg ?_
    rintro rfl
    exact ha mem
  refine pythonToFqcn_eq_ok.mpr ⟨fqcn.ns, hyphenated fqcn.name, ?_, ha, hu.symm,
    underscored_hyphenated.symm⟩
  rw [hs, normalizePep503_plain plain]

theorem fqcnToPython_text (fqcn : Fqcn) :
    fqcnToPython fqcn.text =
      .ok (normalizePep503 (prefixText ++ (fqcn.ns ++ '-' :: fqcn.name))) := by
  have ha : '.' ∉ fqcn.ns := (fqcn.notMem (by decide) (by decide)).1
  have hf : Text.splitOnce '.' fqcn.text = some (fqcn.ns, fqcn.name) :=
    Text.splitOnce_eq_some.mpr ⟨rfl, ha⟩
  simp only [fqcnToPython, hf, append_assoc]

theorem hyphen_notMem_distName (fqcn : Fqcn) : '-' ∉ distName fqcn.ns fqcn.name := by
  obtain ⟨hnn, hn⟩ := fqcn.notMem (show isSeparator '-' by decide) (by decide)
  intro mem
  simp only [distName, mem_append, mem_cons] at mem
  obtain (hs | inNs) | hl | inName := mem
  · exact absurd hs (by decide)
  · exact hnn inNs
  · exact absurd hl (by decide)
  · exact hn inName

variable {f g : Fqcn}

theorem distName_inj (hf : Plain f.ns f.name) (hg : Plain g.ns g.name)
    (hs : distName f.ns f.name = distName g.ns g.name) : f = g := by
  simp only [distName, append_assoc] at hs
  have rest : f.ns ++ '_' :: f.name = g.ns ++ '_' :: g.name := append_cancel_left hs
  obtain ⟨hsn, hn⟩ := Text.append_cons_inj rest hf.whole hg.whole
  exact Fqcn.ext hsn hn

/-- A file name that starts with the name of a collection's wheels is one of
them. -/
theorem distName_of_filename {rest rest' : Text}
    (hs : distName f.ns f.name ++ '-' :: rest = distName g.ns g.name ++ '-' :: rest') :
    distName f.ns f.name = distName g.ns g.name :=
  (Text.append_cons_inj hs (hyphen_notMem_distName f) (hyphen_notMem_distName g)).1

theorem wheelFilename_inj (hf : Plain f.ns f.name) (hg : Plain g.ns g.name)
    {ver ver' : Text}
    (hs : wheelFilename f.ns f.name ver = wheelFilename g.ns g.name ver') : f = g := by
  simp only [wheelFilename, append_assoc, cons_append] at hs
  exact distName_inj hf hg (distName_of_filename hs)

theorem filename_decoded (plain : Plain fqcn.ns fqcn.name) (ver : Text) :
    (wheelFilename fqcn.ns fqcn.name ver).takeWhile (· ≠ '-') = distName fqcn.ns fqcn.name ∧
      pythonToFqcn (normalizePep503 (hyphenated (distName fqcn.ns fqcn.name))) =
        .ok (fqcn.ns, fqcn.name) := by
  have ha := hyphen_notMem_distName fqcn
  refine ⟨?_, ?_⟩
  · have ho : ∀ c ∈ distName fqcn.ns fqcn.name, decide (c ≠ '-') :=
      fun c mem => decide_eq_true fun hs => ha (hs ▸ mem)
    rw [wheelFilename, append_assoc, cons_append]
    exact (Text.takeWhile_before ho (by decide) _).1
  · refine pythonToFqcn_plain plain ?_
    have hst : hyphenated distStart = hyphenated prefixText := by decide
    have hs : hyphenated (distName fqcn.ns fqcn.name) =
        hyphenated (prefixText ++ (fqcn.ns ++ '-' :: fqcn.name)) := by
      simp only [distName, hyphenated, map_append, map_cons, append_assoc] at hst ⊢
      rw [hst]
      rfl
    rw [normalizePep503_idem, normalizePep503, hs, collapse_hyphenated, normalizePep503]

end Collections

/-- A name under which a wheel of one of these collections is stored. -/
def Names (known : Set Fqcn) (file : Text) : Prop :=
  ∃ fqcn ∈ known, ∃ version, file = wheelFilename fqcn.ns fqcn.name version

/-- What is stored under a name is the wheel of that name, of one of these
collections. -/
def Stocked (known : Set Fqcn) (stored : Text → Option Wheel) : Prop :=
  ∀ file wheel, stored file = some wheel →
    file = wheel.filename ∧ ∃ fqcn ∈ known, wheel.ns = fqcn.ns ∧ wheel.name = fqcn.name

/-- A download gives the collection that it was asked for. -/
def Honest (download : Download) : Prop :=
  ∀ ns name version wheel, download ns name version = some wheel → wheel.ns = ns ∧ wheel.name = name

/-- The spellings of these collections' names do not get mixed up. -/
structure Unambiguous (known : Set Fqcn) : Prop where
  reversible : ∀ fqcn ∈ known, (fqcnToPython fqcn.text).bind pythonToFqcn = .ok (fqcn.ns, fqcn.name)
  packages : ∀ f ∈ known, ∀ g ∈ known, fqcnToPython f.text = fqcnToPython g.text → f = g
  filenames : ∀ f ∈ known, ∀ g ∈ known, ∀ version,
    wheelFilename f.ns f.name version = wheelFilename g.ns g.name version → f = g
  pages : ∀ fqcn ∈ known, ∀ files remembered download packageName page,
    (∀ file ∈ files ++ remembered, Names known file) → Honest download →
    fqcnToPython fqcn.text = .ok packageName →
    simpleProject files remembered download packageName = .ok page →
    ∀ file ∈ page, ∃ version, file = wheelFilename fqcn.ns fqcn.name version
  wheels : ∀ fqcn ∈ known, ∀ stored download version wheel,
    Stocked known stored → Honest download →
    serveWheel stored download (wheelFilename fqcn.ns fqcn.name version) = .ok wheel →
    wheel.ns = fqcn.ns ∧ wheel.name = fqcn.name

section Plain

variable {known : Set Fqcn} (plain : ∀ fqcn ∈ known, Plain fqcn.ns fqcn.name)

include plain

variable {fqcn : Fqcn} {download : Download}

theorem pages_of_plain (hk : fqcn ∈ known) {files remembered : List Text} {packageName : Text}
    {page : List Text}
    (hso : ∀ f ∈ files ++ remembered, Names known f) (hh : Honest download)
    (he : fqcnToPython fqcn.text = .ok packageName)
    (hsh : simpleProject files remembered download packageName = .ok page) :
    ∀ f ∈ page, ∃ version, f = wheelFilename fqcn.ns fqcn.name version := by
  have hd : pythonToFqcn (normalizePep503 packageName) = .ok (fqcn.ns, fqcn.name) := by
    refine pythonToFqcn_plain (plain fqcn hk) ?_
    rw [fqcnToPython_text] at he
    cases he
    simp only [normalizePep503_idem]
  -- A stored name that starts like those of the collection is one of them.
  have own : ∀ f, Names known f → (distName fqcn.ns fqcn.name ++ ['-']) <+: f →
      ∃ version, f = wheelFilename fqcn.ns fqcn.name version := by
    rintro f ⟨g, hk', version, rfl⟩ ⟨rest, hst⟩
    have hs : distName fqcn.ns fqcn.name ++ '-' :: rest =
        distName g.ns g.name ++ '-' :: (version ++ wheelTags) := by
      simpa [wheelFilename] using hst
    rw [distName_inj (plain fqcn hk) (plain g hk') (distName_of_filename hs)]
    exact ⟨version, rfl⟩
  simp only [simpleProject, hd] at hsh
  split at hsh
  next =>
    split at hsh
    next =>
      split at hsh
      next => cases hsh
      next wheel downloaded =>
        cases hsh
        obtain ⟨hn, hN⟩ := hh _ _ _ _ downloaded
        intro f mem
        exact ⟨wheel.version, by rw [mem_singleton.mp mem, Wheel.filename, hn, hN]⟩
    next =>
      cases hsh
      intro f mem
      have hi := mem_dedup.mp (mem_mergeSort.mp mem)
      obtain hf | inMemory := mem_append.mp hi
      · obtain ⟨hf, hst⟩ := mem_filter.mp (mem_mergeSort.mp hf)
        refine own f (hso f (mem_append_left _ hf)) ?_
        simpa using (Bool.and_eq_true_iff.mp hst).1
      · obtain ⟨inMemory, hst⟩ := mem_filter.mp inMemory
        exact own f (hso f (mem_append_right _ inMemory)) (by simpa using hst)
  next => cases hsh

theorem wheels_of_plain (hk : fqcn ∈ known) {stored : Text → Option Wheel} {ver : Text}
    {wheel : Wheel} (stocked : Stocked known stored) (honest : Honest download)
    (hse : serveWheel stored download (wheelFilename fqcn.ns fqcn.name ver) = .ok wheel) :
    wheel.ns = fqcn.ns ∧ wheel.name = fqcn.name := by
  obtain ⟨split, hde⟩ := filename_decoded (plain fqcn hk) ver
  have hh : '-' ∈ wheelFilename fqcn.ns fqcn.name ver := by simp [wheelFilename]
  simp only [serveWheel, if_pos hh, split, hde] at hse
  split at hse
  next => cases hse
  next =>
    split at hse
    next cached found =>
      cases hse
      obtain ⟨hs, g, hk', isNs, hN⟩ := stocked _ _ found
      rw [Wheel.filename, isNs, hN] at hs
      rw [isNs, hN, wheelFilename_inj (plain fqcn hk) (plain g hk') hs]
      exact ⟨rfl, rfl⟩
    next =>
      split at hse
      next =>
        split at hse
        next hf => cases hf
        next ns collName dist number python none platform rest isOk parts =>
          cases isOk
          split at hse
          next => cases hse
          next hd =>
            cases hse
            exact honest _ _ _ _ hd
        next => cases hse
      next => cases hse

end Plain

/-- Exactly the collections whose namespace has no underscore and whose name has
no leading underscore and no two in a row keep their names apart. -/
theorem unambiguous_iff_plain (known : Set Fqcn) :
    Unambiguous known ↔ ∀ fqcn ∈ known, Plain fqcn.ns fqcn.name := by
  constructor
  · intro unambiguous fqcn inKnown
    have returned := unambiguous.reversible fqcn inKnown
    rw [fqcnToPython_text] at returned
    exact plain_of_pythonToFqcn returned
  · intro plain
    have reversible : ∀ fqcn ∈ known,
        (fqcnToPython fqcn.text).bind pythonToFqcn = .ok (fqcn.ns, fqcn.name) := by
      intro fqcn inKnown
      rw [fqcnToPython_text]
      exact pythonToFqcn_plain (plain fqcn inKnown) (normalizePep503_idem _)
    refine ⟨reversible, ?_, ?_, ?_, ?_⟩
    · intro f inKnown g inKnown' same
      have both := reversible f inKnown
      rw [same, reversible g inKnown'] at both
      obtain ⟨sameNs, sameName⟩ := Prod.mk.inj (Except.ok.inj both)
      exact Fqcn.ext sameNs.symm sameName.symm
    · intro f inKnown g inKnown' version same
      exact wheelFilename_inj (plain f inKnown) (plain g inKnown') same
    · intro fqcn inKnown files remembered download packageName page stocked honest encoded shown
      exact pages_of_plain plain inKnown stocked honest encoded shown
    · intro fqcn inKnown stored download version wheel stocked honest served
      exact wheels_of_plain plain inKnown stocked honest served

/-- A namespace with an underscore, and the collection that its package is
decoded as. -/
def snakeNamespace : Fqcn :=
  { ns := "a_b".toList, name := "c".toList, nsChars := by decide, nameChars := by decide }

def snakeName : Fqcn :=
  { ns := "a".toList, name := "b_c".toList, nsChars := by decide, nameChars := by decide }

theorem snakes_confused :
    snakeNamespace ≠ snakeName ∧
      fqcnToPython snakeNamespace.text = fqcnToPython snakeName.text ∧
      (fqcnToPython snakeNamespace.text).bind pythonToFqcn = .ok (snakeName.ns, snakeName.name) ∧
      wheelFilename snakeNamespace.ns snakeNamespace.name "1.0.0".toList =
        wheelFilename snakeName.ns snakeName.name "1.0.0".toList := by
  refine ⟨?_, by decide, by decide, by decide⟩
  intro same
  exact absurd (congrArg Fqcn.ns same) (by decide)

end Apme.Galaxy
