import Apme.Lib.Lru
import Apme.Lib.Text
import Apme.Lib.Transition

/-!
# The cache of plugin facts

Facts about a plugin are cached under its collection, the version of the
collection and its name.  The version that is installed in a venv is itself
remembered, for collections and, apart from that, for the core; the memory is
never checked against the venv again.

As long as no install changes a version that is remembered, what is remembered
is what is installed, and a fact is found only where the version it was found
with is installed.  An install in place breaks this.
-/

set_option autoImplicit false

namespace Apme.Validators

open Apme.Lib Option Transition

inductive CacheType where
  | introspect
  | docspec
  | mockspec
  deriving DecidableEq

/-- The collection, its version and the name of the plugin. -/
abbrev CacheKey := Text × Text × Text

/-- The version of a collection that can be read from a venv, empty if there is
none; that of `ansible.builtin` is the version of the core. -/
abbrev Installed := Text → Text → Text → Text

def maxVersionEntries : Nat := 256

def ansibleNs : Text := "ansible".toList

def builtinName : Text := "builtin".toList

structure PluginCache (Result : Type) where
  maxEntries : Nat
  stores : CacheType → Dict CacheKey Result
  versionCache : Dict (Text × Text × Text) Text
  coreVersionCache : Dict Text Text

def PluginCache.empty {Result : Type} (maxEntries : Nat) : PluginCache Result :=
  { maxEntries := maxEntries, stores := fun _ => .empty, versionCache := .empty,
    coreVersionCache := .empty }

/-- The namespace, the collection and the rest of a plugin's name. -/
def parseFqcn (pluginName : Text) : Option (Text × Text × Text) :=
  match pluginName.splitOn '.' with
  | ns :: name :: first :: rest => some (ns, name, List.intercalate ['.'] (first :: rest))
  | _ => none

section Operations

variable {Result : Type} (installed : Installed)

def resolveCoreVersion (cores : Dict Text Text) (venv : Text) : Text × Dict Text Text :=
  match cores.get? venv with
  | none =>
    let version := installed venv ansibleNs builtinName
    (version, (cores.insert venv version).trim maxVersionEntries)
  | some version => (version, cores.moveToEnd venv)

variable (cache : PluginCache Result)

def resolveVersion (venv ns name : Text) : Text × PluginCache Result :=
  match cache.versionCache.get? (venv, ns, name) with
  | some cached =>
    (cached, { cache with versionCache := cache.versionCache.moveToEnd (venv, ns, name) })
  | none =>
    let found :=
      if ns = ansibleNs ∧ name = builtinName then
        resolveCoreVersion installed cache.coreVersionCache venv
      else (installed venv ns name, cache.coreVersionCache)
    (found.1,
      { cache with
        versionCache := (cache.versionCache.insert (venv, ns, name) found.1).trim maxVersionEntries
        coreVersionCache := found.2 })

def makeKey (venv pluginName contextSuffix : Text) : Option CacheKey × PluginCache Result :=
  match parseFqcn pluginName with
  | none => (none, cache)
  | some (ns, name, _) =>
    let resolved := resolveVersion installed cache venv ns name
    if resolved.1 = [] then (none, resolved.2)
    else
      let version :=
        if contextSuffix = [] then resolved.1 else resolved.1 ++ '@' :: contextSuffix
      (some (ns ++ '.' :: name, version, pluginName), resolved.2)

variable (store : CacheType)

/-- Only the introspection store has a context. -/
def contextOf (context : Text) : Text :=
  if store = .introspect then context else []

def PluginCache.setStore (entries : Dict CacheKey Result) : PluginCache Result :=
  { cache with stores := fun other => if other = store then entries else cache.stores other }

def get (cache : PluginCache Result) (store : CacheType) (venv pluginName context : Text) :
    Option Result × PluginCache Result :=
  match makeKey installed cache venv pluginName (contextOf store context) with
  | (none, cache) => (none, cache)
  | (some key, cache) =>
    match (cache.stores store).get? key with
    | none => (none, cache)
    | some result => (some result, cache.setStore store ((cache.stores store).moveToEnd key))

/-- One of the two keys under which `put` stores a result. -/
def putKey (venv pluginName context : Text) (result : Result) : PluginCache Result :=
  match makeKey installed cache venv pluginName (contextOf store context) with
  | (none, cache) => cache
  | (some key, cache) => cache.setStore store ((cache.stores store).renew key result)

def put (venv pluginName resolvedFqcn context : Text) (result : Result) : PluginCache Result :=
  let cache := putKey installed cache store venv pluginName context result
  let cache :=
    if resolvedFqcn ≠ [] ∧ resolvedFqcn ≠ pluginName then
      putKey installed cache store venv resolvedFqcn context result
    else cache
  cache.setStore store ((cache.stores store).trim cache.maxEntries)

/-- The part of `introspect_context_suffix` that uses the cache. -/
def introspectContextSuffix (venv : Text) : Text × PluginCache Result :=
  resolveVersion installed cache venv ansibleNs builtinName

end Operations

section Runs

variable {Result : Type}

/-- A call of `put`, with what was installed at the time. -/
structure Put (Result : Type) where
  store : CacheType
  venv : Text
  pluginName : Text
  resolvedFqcn : Text
  result : Result
  installed : Installed

structure CacheRun (Result : Type) where
  cache : PluginCache Result
  installed : Installed
  puts : List (Put Result) := []

inductive CacheLabel (Result : Type) where
  | get (store : CacheType) (venv pluginName context : Text)
  | put (store : CacheType) (venv pluginName resolvedFqcn context : Text) (result : Result)
  | introspectContext (venv : Text)
  | install (venv ns name version : Text)

def installVersion (installed : Installed) (venv ns name version : Text) : Installed :=
  fun venv' ns' name' =>
    if venv' = venv ∧ ns' = ns ∧ name' = name then version else installed venv' ns' name'

variable (s : CacheRun Result)

def cacheStep : CacheLabel Result → Option (CacheRun Result)
  | .get store venv pluginName context =>
    some { s with cache := (get s.installed s.cache store venv pluginName context).2 }
  | .put store venv pluginName resolvedFqcn context result =>
    some { s with
      cache := put s.installed s.cache store venv pluginName resolvedFqcn context result
      puts := s.puts ++ [⟨store, venv, pluginName, resolvedFqcn, result, s.installed⟩] }
  | .introspectContext venv =>
    some { s with cache := (introspectContextSuffix s.installed s.cache venv).2 }
  | .install venv ns name version =>
    some { s with installed := installVersion s.installed venv ns name version }

/-- Some put of the result under this name was made while the version of the
collection that is installed in `venv` now was installed in its own venv. -/
def CacheRun.FoundWith (store : CacheType) (pluginName : Text)
    (result : Result) (ns name version : Text) : Prop :=
  ∃ made ∈ s.puts, made.store = store ∧ made.result = result ∧
    (made.pluginName = pluginName ∨ made.resolvedFqcn = pluginName) ∧
    made.installed made.venv ns name = version

/-- What a read of the two stores would return now fits what is installed now. -/
def CacheRun.Fits : Prop :=
  ∀ store venv pluginName context result, store ≠ .introspect →
    (get s.installed s.cache store venv pluginName context).1 = some result →
    ∃ ns name short, parseFqcn pluginName = some (ns, name, short) ∧
      s.FoundWith store pluginName result ns name (s.installed venv ns name)

/-- An install leaves the versions alone that are remembered, apart from those
remembered as missing. -/
def Unremembered : CacheLabel Result → Prop
  | .install venv ns name version =>
    (∀ known ∈ s.cache.versionCache.get? (venv, ns, name), known = [] ∨ known = version) ∧
    (ns = ansibleNs → name = builtinName →
      ∀ known ∈ s.cache.coreVersionCache.get? venv, known = [] ∨ known = version)
  | _ => True

instance (s : CacheRun Result) (label : CacheLabel Result) : Decidable (Unremembered s label) :=
  match label with
  | .install _ _ _ _ => inferInstanceAs (Decidable (_ ∧ _))
  | .get _ _ _ _ => inferInstanceAs (Decidable True)
  | .put _ _ _ _ _ _ => inferInstanceAs (Decidable True)
  | .introspectContext _ => inferInstanceAs (Decidable True)

end Runs

section Invariant

variable {Result : Type} {installed : Installed}

/-- What is remembered is what is installed, or that nothing was. -/
structure Trusted (installed : Installed) (cache : PluginCache Result) : Prop where
  versions : cache.versionCache.All fun key version =>
    version = [] ∨ version = installed key.1 key.2.1 key.2.2
  cores : cache.coreVersionCache.All fun venv version =>
    version = [] ∨ version = installed venv ansibleNs builtinName

theorem resolveCoreVersion_trusted {cores : Dict Text Text}
    (ht : cores.All fun venv ver => ver = [] ∨ ver = installed venv ansibleNs builtinName)
    (venv : Text) :
    ((resolveCoreVersion installed cores venv).1 = [] ∨
        (resolveCoreVersion installed cores venv).1 = installed venv ansibleNs builtinName) ∧
      (resolveCoreVersion installed cores venv).2.All fun venv ver =>
        ver = [] ∨ ver = installed venv ansibleNs builtinName := by
  simp only [resolveCoreVersion]
  split
  next => exact ⟨.inr rfl, (ht.insert (.inr rfl)).trim _⟩
  next ver found => exact ⟨ht venv ver found, ht.moveToEnd venv⟩

variable {cache : PluginCache Result}

theorem resolveVersion_spec (trusted : Trusted installed cache) (venv ns name : Text) :
    ((resolveVersion installed cache venv ns name).1 = [] ∨
        (resolveVersion installed cache venv ns name).1 = installed venv ns name) ∧
      Trusted installed (resolveVersion installed cache venv ns name).2 ∧
      (resolveVersion installed cache venv ns name).2.stores = cache.stores := by
  simp only [resolveVersion]
  split
  next cached found =>
    exact ⟨trusted.versions _ cached found, ⟨trusted.versions.moveToEnd _, trusted.cores⟩, rfl⟩
  next =>
    split
    next hb =>
      obtain ⟨rfl, rfl⟩ := hb
      obtain ⟨hv, hc⟩ := resolveCoreVersion_trusted trusted.cores venv
      exact ⟨hv, ⟨(trusted.versions.insert hv).trim _, hc⟩, rfl⟩
    next =>
      exact ⟨.inr rfl, ⟨(trusted.versions.insert (.inr rfl)).trim _, trusted.cores⟩, rfl⟩

theorem makeKey_spec (trusted : Trusted installed cache) (venv pluginName suffix : Text) :
    Trusted installed (makeKey installed cache venv pluginName suffix).2 ∧
      (makeKey installed cache venv pluginName suffix).2.stores = cache.stores ∧
      ∀ k, (makeKey installed cache venv pluginName suffix).1 = some k → suffix = [] →
        ∃ ns name short, parseFqcn pluginName = some (ns, name, short) ∧
          k = (ns ++ '.' :: name, installed venv ns name, pluginName) := by
  simp only [makeKey]
  split
  next =>
    refine ⟨trusted, rfl, ?_⟩
    intro k hf
    cases hf
  next ns name short hp =>
    obtain ⟨hV, hk, hs⟩ := resolveVersion_spec trusted venv ns name
    split
    next =>
      refine ⟨hk, hs, ?_⟩
      intro k hf
      cases hf
    next hfill =>
      refine ⟨hk, hs, ?_⟩
      intro k hf hns
      cases hf
      rw [if_pos hns, hV.resolve_left hfill]
      exact ⟨ns, name, short, hp, rfl⟩

/-- Every entry of the two stores was put while its version was installed. -/
def Accounted (s : CacheRun Result) (cache : PluginCache Result) : Prop :=
  ∀ store, store ≠ .introspect → (cache.stores store).All fun key result =>
    ∀ ns name short, parseFqcn key.2.2 = some (ns, name, short) →
      s.FoundWith store key.2.2 result ns name key.2.1

variable {s : CacheRun Result}

theorem Accounted.of_stores {cache' : PluginCache Result}
    (accounted : Accounted s cache) (hs : cache'.stores = cache.stores) : Accounted s cache' := by
  intro store hp
  rw [hs]
  exact accounted store hp

variable {store : CacheType}

theorem Accounted.setStore
    {es : Dict CacheKey Result} (accounted : Accounted s cache)
    (new : store ≠ .introspect → es.All fun k res =>
      ∀ ns name short, parseFqcn k.2.2 = some (ns, name, short) →
        s.FoundWith store k.2.2 res ns name k.2.1) :
    Accounted s (cache.setStore store es) := by
  intro o hp
  simp only [PluginCache.setStore]
  split
  next hs =>
    subst hs
    exact new hp
  next => exact accounted o hp

theorem contextOf_of_ne (hp : store ≠ .introspect) (context : Text) :
    contextOf store context = [] :=
  if_neg hp

theorem get_kept (trusted : Trusted installed cache) (accounted : Accounted s cache)
    (store : CacheType) (venv pluginName context : Text) :
    Trusted installed (get installed cache store venv pluginName context).2 ∧
      Accounted s (get installed cache store venv pluginName context).2 := by
  obtain ⟨hk, hs, -⟩ := makeKey_spec trusted venv pluginName (contextOf store context)
  have ha := accounted.of_stores hs
  simp only [get]
  split
  next now hN =>
    rw [hN] at hk ha
    exact ⟨hk, ha⟩
  next k now hN =>
    rw [hN] at hk ha
    split
    next => exact ⟨hk, ha⟩
    next =>
      refine ⟨⟨hk.versions, hk.cores⟩, ha.setStore ?_⟩
      intro hp
      exact (ha store hp).moveToEnd k

theorem get_found (trusted : Trusted s.installed s.cache)
    (accounted : Accounted s s.cache) : s.Fits := by
  intro store venv pluginName context res hpl hf
  obtain ⟨-, hs, hk⟩ := makeKey_spec trusted venv pluginName (contextOf store context)
  simp only [get] at hf
  split at hf
  next => cases hf
  next k now hN =>
    split at hf
    next => cases hf
    next cached ht =>
      cases hf
      rw [hN] at hs hk
      obtain ⟨ns, n, sh, hp, rfl⟩ := hk k rfl (contextOf_of_ne hpl context)
      rw [hs] at ht
      exact ⟨ns, n, sh, hp, accounted store hpl _ _ ht ns n sh hp⟩

variable {venv pluginName : Text} {result : Result}

section

variable (trusted : Trusted installed cache) (accounted : Accounted s cache) (context : Text)

include trusted accounted

theorem putKey_kept
    (hm : ∀ ns name, s.FoundWith store pluginName result ns name (installed venv ns name)) :
    Trusted installed (putKey installed cache store venv pluginName context result) ∧
      Accounted s (putKey installed cache store venv pluginName context result) := by
  obtain ⟨hk, hs, hke⟩ := makeKey_spec trusted venv pluginName (contextOf store context)
  have ha := accounted.of_stores hs
  simp only [putKey]
  split
  next now hN =>
    rw [hN] at hk ha
    exact ⟨hk, ha⟩
  next k now hN =>
    rw [hN] at hk ha hke
    refine ⟨⟨hk.versions, hk.cores⟩, ha.setStore ?_⟩
    intro hpl
    obtain ⟨ns, name, sh, hp, rfl⟩ := hke k rfl (contextOf_of_ne hpl context)
    refine (ha store hpl).renew ?_
    intro ns' name' short' hp'
    rw [hp] at hp'
    cases hp'
    exact hm ns name

theorem put_kept {resolvedFqcn : Text}
    (hm : ⟨store, venv, pluginName, resolvedFqcn, result, installed⟩ ∈ s.puts) :
    Trusted installed (put installed cache store venv pluginName resolvedFqcn context result) ∧
      Accounted s (put installed cache store venv pluginName resolvedFqcn context result) := by
  obtain ⟨htf, hf⟩ := putKey_kept trusted accounted context
    fun ns name => ⟨_, hm, rfl, rfl, .inl rfl, rfl⟩
  have hs :
      Trusted installed
          (if resolvedFqcn ≠ [] ∧ resolvedFqcn ≠ pluginName then
            putKey installed (putKey installed cache store venv pluginName context result) store venv
              resolvedFqcn context result
          else putKey installed cache store venv pluginName context result) ∧
        Accounted s
          (if resolvedFqcn ≠ [] ∧ resolvedFqcn ≠ pluginName then
            putKey installed (putKey installed cache store venv pluginName context result) store venv
              resolvedFqcn context result
          else putKey installed cache store venv pluginName context result) := by
    split
    next =>
      exact putKey_kept htf hf context fun ns name => ⟨_, hm, rfl, rfl, .inr rfl, rfl⟩
    next => exact ⟨htf, hf⟩
  obtain ⟨htb, hb⟩ := hs
  refine ⟨⟨htb.versions, htb.cores⟩, hb.setStore ?_⟩
  intro hp
  exact (hb store hp).trim _

end

variable {t : CacheRun Result}

theorem Accounted.more
    (accounted : Accounted s cache) (hk : ∀ made ∈ s.puts, made ∈ t.puts) : Accounted t cache := by
  intro store hpl k res hf ns name short hpa
  obtain ⟨made, hp, rest⟩ := accounted store hpl k res hf ns name short hpa
  exact ⟨made, hk made hp, rest⟩

/-- The memory and the stores are right. -/
structure Sound (s : CacheRun Result) : Prop where
  trusted : Trusted s.installed s.cache
  accounted : Accounted s s.cache

theorem Trusted.install (trusted : Trusted installed cache)
    {ns name ver : Text}
    (hv : ∀ known, cache.versionCache.get? (venv, ns, name) = some known → known = [] ∨ known = ver)
    (hc : ns = ansibleNs → name = builtinName → ∀ known,
      cache.coreVersionCache.get? venv = some known → known = [] ∨ known = ver) :
    Trusted (installVersion installed venv ns name ver) cache := by
  refine ⟨?_, ?_⟩
  · rintro ⟨venv', ns', name'⟩ known hf
    simp only [installVersion]
    split
    next hs =>
      obtain ⟨rfl, rfl, rfl⟩ := hs
      exact hv known hf
    next => exact trusted.versions _ known hf
  · intro venv' known hf
    simp only [installVersion]
    split
    next hs =>
      obtain ⟨rfl, hn, hN⟩ := hs
      exact hc hn.symm hN.symm known hf
    next => exact trusted.cores venv' known hf

theorem Sound.step {label : CacheLabel Result} (hs : Sound s)
    (hu : Unremembered s label) (ht : cacheStep s label = some t) : Sound t := by
  obtain ⟨trusted, accounted⟩ := hs
  cases label with
  | get store v n context =>
    cases some.inj ht
    obtain ⟨ht', ha'⟩ := get_kept trusted accounted store v n context
    exact ⟨ht', ha'⟩
  | put store v n f context r =>
    cases some.inj ht
    have hm := accounted.more (t := ⟨s.cache, s.installed, s.puts ++
      [⟨store, v, n, f, r, s.installed⟩]⟩)
      fun made hp => List.mem_append_left _ hp
    obtain ⟨ht', ha'⟩ := put_kept trusted hm context
      (List.mem_append_right _ (List.mem_singleton.mpr rfl))
    exact ⟨ht', ha'⟩
  | introspectContext v =>
    cases some.inj ht
    obtain ⟨-, ht', same⟩ := resolveVersion_spec trusted v ansibleNs builtinName
    exact ⟨ht', accounted.of_stores same⟩
  | install v ns name ver =>
    cases some.inj ht
    exact ⟨trusted.install hu.1 hu.2, accounted⟩

end Invariant

section Claim

variable {Result : Type}

def CacheRun.start (maxEntries : Nat) (installed : Installed) : CacheRun Result :=
  { cache := .empty maxEntries, installed := installed }

/-- In every run in which no install changes a version that is remembered, what
is read fits what is installed. -/
theorem reads_fit (maxEntries : Nat) (installed : Installed) (s : CacheRun Result)
    (reached : Reaches cacheStep Unremembered (.start maxEntries installed) s) :
    s.Fits := by
  have initially : Sound (CacheRun.start maxEntries installed : CacheRun Result) := by
    refine ⟨⟨Dict.All.empty, Dict.All.empty⟩, ?_⟩
    intro store _
    exact Dict.All.empty
  have sound := reached.invariant
    (fun s label t before unremembered taken => before.step unremembered taken) initially
  exact get_found sound.trusted sound.accounted

end Claim

def sessionVenv : Text := "venv".toList

def firstVersion : Text := "1.0.0".toList

def secondVersion : Text := "2.0.0".toList

def firstVersions : Installed := fun _ _ _ => firstVersion

def filePlugin : Text := "a.b.file".toList

/-- A collection is added beside the one whose facts are cached. -/
def addedBeside : List (CacheLabel Nat) :=
  [.put .docspec sessionVenv filePlugin [] [] 7, .install sessionVenv "a".toList "c".toList secondVersion]

theorem addedBeside_fits :
    ∃ s, follow cacheStep Unremembered addedBeside
        (.start 4 firstVersions) = some s ∧
      (get s.installed s.cache .docspec sessionVenv filePlugin []).1 = some 7 ∧ s.Fits :=
  ⟨_, rfl, by decide, reads_fit 4 firstVersions _ (reaches_of_follow addedBeside rfl)⟩

/-- The collection is replaced in place after its version was remembered. -/
def replacedInPlace : List (CacheLabel Nat) :=
  [.put .docspec sessionVenv filePlugin [] [] 7, .install sessionVenv "a".toList "b".toList secondVersion]

theorem replacedInPlace_stale :
    ∃ s, Reaches cacheStep (fun _ _ => True)
        (.start 4 firstVersions : CacheRun Nat) s ∧
      s.installed sessionVenv "a".toList "b".toList = secondVersion ∧
      (get s.installed s.cache .docspec sessionVenv filePlugin []).1 = some 7 ∧
      (∀ made ∈ s.puts, made.installed made.venv "a".toList "b".toList = firstVersion) ∧
      ¬ s.Fits := by
  refine ⟨_, reaches_of_follow replacedInPlace rfl, by decide, by decide, ?_, ?_⟩
  · intro made inPuts
    rw [List.mem_singleton.mp inPuts]
    rfl
  · intro fits
    obtain ⟨ns, name, short, parsed, made, inPuts, -, -, -, version⟩ :=
      fits .docspec sessionVenv filePlugin [] 7 (by decide) (by decide)
    cases (show some ("a".toList, "b".toList, "file".toList) = some (ns, name, short) from parsed)
    rw [List.mem_singleton.mp inPuts] at version
    exact absurd version (by decide)

end Apme.Validators
