import Apme.Galaxy.Handlers
import Apme.Lib.Transition

/-!
# Wheels and generations of the Galaxy configuration

A handler that downloads takes the generation while the proxy is in service.  As
long as the generation stays the same the proxy is in service with the same
servers, so what the handler reads in a thread are the servers of its generation,
and the comparison before it publishes is enough.

On the disk, wheels outlive a generation and the process.  Each of them comes
from the servers of the fingerprint that is stored beside them; binding the cache
to another fingerprint removes them first.
-/

set_option autoImplicit false

namespace Apme.Galaxy

open Apme.Lib List Option Transition Proxy

/-- A download from explicit servers had these. -/
def Fits (servers : Servers) (source : Source) : Prop :=
  ∀ list, servers = some list → source.servers = some list

structure Proxy.Sound (p : Proxy) : Prop where
  disk : ∀ wheel ∈ p.wheels, ∀ fingerprint managed,
    p.identity = some (fingerprint, managed) → Fits fingerprint.servers wheel.source
  bound : p.ready → ∃ managed,
    p.identity = some (p.fingerprint, managed) ∧ p.fingerprint.servers = p.servers
  stored : ∀ entry ∈ p.onDemand, p.ready ∧ Fits p.servers entry.1.source
  readied : ∀ entry ∈ p.readied, entry.1 ≤ p.generation ∧
    (entry.1 = p.generation → p.ready ∧ entry.2 = p.servers)
  service : p.ready → (p.generation, p.servers) ∈ p.readied
  published : ∀ entry ∈ p.published, entry.2.started = entry.1
  explicit : p.managed → p.ready → p.servers.isSome

/-- The generation was taken while the proxy was in service. -/
structure Held (p : Proxy) (generation : Nat) : Prop where
  le : generation ≤ p.generation
  ready : generation = p.generation → p.ready

/-- What the thread of `bind_config` has reached. -/
def Bound (p : Proxy) (fingerprint : Fingerprint) (managed : Bool) : BindPhase → Prop
  | .start | .clear => True
  | .write => ∀ wheel ∈ p.wheels, Fits fingerprint.servers wheel.source
  | .enable | .bound => p.identity = some (fingerprint, managed)

def Change.Fit (p : Proxy) (change : Change) : Prop :=
  match change.purpose with
  | .update desired => change.fingerprint.servers = some desired
  | .native _ => p.managed = false ∧ change.fingerprint.servers = p.servers

/-- A download that started with this source. -/
structure Fetching (p : Proxy) (generation : Nat) (source : Source) (started : Nat) : Prop where
  held : Held p generation
  fits : generation = p.generation → Fits p.servers source
  since : generation ≤ started
  before : started ≤ p.generation

def Task.Sound (p : Proxy) (id : Nat) : Task → Prop
  | .updateLock _ | .nativeProbe _ _ | .nativeLock _ | .enter _ | .serveLock _ _ _ _ => True
  | .updateProbe _ _ _ => p.configLock = some id
  | .updateFingerprint desired _ _ found =>
    p.configLock = some id ∧ ∀ fingerprint ∈ found, fingerprint.servers = some desired
  | .updateRebind desired _ found =>
    p.configLock = some id ∧ p.ready = false ∧
      ∀ fingerprint ∈ found, fingerprint.servers = some desired
  | .nativeReprobe _ _ => p.configLock = some id ∧ p.managed = false
  | .nativeFingerprint _ _ _ found =>
    p.configLock = some id ∧ p.managed = false ∧
      ∀ fingerprint ∈ found, fingerprint.servers = p.servers
  | .bind change phase =>
    p.configLock = some id ∧ p.ready = false ∧ change.Fit p ∧
      Bound p change.fingerprint change.managed phase
  | .prepareCheck frame _ _ _ | .prepareLocks frame _ | .prepareList frame _ =>
    Held p frame.generation
  | .pageLock _ _ generation => Held p generation
  | .config work read =>
    Held p work.generation ∧
      ∀ source, read = .found source → work.generation = p.generation → Fits p.servers source
  | .download work source started => Fetching p work.generation source started
  | .convert frame source started _ => Fetching p frame.generation source started

section Passing

/-- While the generation is the same, the proxy stays in service with the same
servers. -/
structure Later (p q : Proxy) : Prop where
  generation : p.generation ≤ q.generation
  same : q.generation = p.generation → p.ready → q.ready ∧ q.servers = p.servers

/-- What the holder of the configuration lock relies on. -/
structure Quiet (p q : Proxy) : Prop where
  configLock : q.configLock = p.configLock
  ready : q.ready = p.ready
  managed : q.managed = p.managed
  servers : q.servers = p.servers
  disk : p.ready = false → q.identity = p.identity ∧ q.wheels = p.wheels

/-- What the other tasks see of a step of one task. -/
structure Passes (id : Nat) (p q : Proxy) : Prop extends Later p q where
  quiet : ∀ other, other ≠ id → p.configLock = some other → Quiet p q

variable {p q : Proxy} {generation : Nat}

theorem Held.later (held : Held p generation) (hl : Later p q) : Held q generation := by
  refine ⟨held.le.trans hl.generation, ?_⟩
  intro hs
  have hu : q.generation = p.generation := by
    have := held.le
    have := hl.generation
    omega
  exact (hl.same hu (held.ready (hs.trans hu))).1

variable {source : Source}

theorem Held.fits_later (held : Held p generation) (hl : Later p q)
    (hf : generation = p.generation → Fits p.servers source) (hs : generation = q.generation) :
    Fits q.servers source := by
  have hu : q.generation = p.generation := by
    have := held.le
    have := hl.generation
    omega
  have hc := hs.trans hu
  rw [(hl.same hu (held.ready hc)).2]
  exact hf hc

theorem Fetching.later {started : Nat} (hf : Fetching p generation source started)
    (hl : Later p q) : Fetching q generation source started :=
  ⟨hf.held.later hl, hf.held.fits_later hl hf.fits, hf.since, hf.before.trans hl.generation⟩

theorem Bound.quiet {fp : Fingerprint} {managed : Bool} {phase : BindPhase}
    (bound : Bound p fp managed phase) (quiet : Quiet p q) (out : p.ready = false) :
    Bound q fp managed phase := by
  obtain ⟨identity, wheels⟩ := quiet.disk out
  cases phase with
  | start => trivial
  | clear => trivial
  | write => simpa only [Bound, wheels] using bound
  | enable => simpa only [Bound, identity] using bound
  | bound => simpa only [Bound, identity] using bound

theorem Change.Fit.quiet {change : Change} (fit : change.Fit p)
    (hq : Quiet p q) : change.Fit q := by
  unfold Change.Fit at fit ⊢
  split
  next desired hU => simpa only [hU] using fit
  next req hN =>
    rw [hN] at fit
    rw [hq.managed, hq.servers]
    exact fit

variable {r : Proxy}

theorem Later.trans (first : Later p q) (hse : Later q r) : Later p r where
  generation := first.generation.trans hse.generation
  same := by
    intro same his
    have := first.generation
    have := hse.generation
    obtain ⟨hb, hss⟩ := first.same (by omega) his
    obtain ⟨hst, hs⟩ := hse.same (by omega) hb
    exact ⟨hst, hs.trans hss⟩

theorem Quiet.trans (first : Quiet p q) (hs : Quiet q r) : Quiet p r where
  configLock := hs.configLock.trans first.configLock
  ready := hs.ready.trans first.ready
  managed := hs.managed.trans first.managed
  servers := hs.servers.trans first.servers
  disk := by
    intro out
    obtain ⟨hid, hwh⟩ := first.disk out
    obtain ⟨hi, hw⟩ := hs.disk (first.ready.trans out)
    exact ⟨hi.trans hid, hw.trans hwh⟩

variable {id : Nat}

theorem Passes.trans (first : Passes id p q) (hs : Passes id q r) :
    Passes id p r where
  toLater := first.toLater.trans hs.toLater
  quiet := by
    intro o ho ht
    have quiet := first.quiet o ho ht
    exact quiet.trans (hs.quiet o ho (quiet.configLock.trans ht))

theorem Task.Sound.passes {other : Nat} {task : Task} (sound : task.Sound p other)
    (hO : other ≠ id) (hp : Passes id p q) : task.Sound q other := by
  have hl := hp.toLater
  cases task with
  | updateLock | nativeProbe | nativeLock | enter | serveLock => trivial
  | updateProbe => exact (hp.quiet other hO sound).configLock.trans sound
  | updateFingerprint desired changed k found =>
    obtain ⟨lock, hf⟩ := sound
    exact ⟨(hp.quiet other hO lock).configLock.trans lock, hf⟩
  | updateRebind desired k found =>
    obtain ⟨lock, out, hf⟩ := sound
    have hq := hp.quiet other hO lock
    exact ⟨hq.configLock.trans lock, hq.ready.trans out, hf⟩
  | nativeReprobe =>
    obtain ⟨lock, hn⟩ := sound
    have hq := hp.quiet other hO lock
    exact ⟨hq.configLock.trans lock, hq.managed.trans hn⟩
  | nativeFingerprint req cfgPath k found =>
    obtain ⟨lock, hn, hf⟩ := sound
    have hq := hp.quiet other hO lock
    refine ⟨hq.configLock.trans lock, hq.managed.trans hn, ?_⟩
    rw [hq.servers]
    exact hf
  | bind change phase =>
    obtain ⟨lock, out, fit, hb⟩ := sound
    have hq := hp.quiet other hO lock
    exact ⟨hq.configLock.trans lock, hq.ready.trans out, fit.quiet hq, hb.quiet hq out⟩
  | prepareCheck | prepareLocks | prepareList | pageLock => exact Held.later sound hl
  | config work read =>
    obtain ⟨held, hf⟩ := sound
    exact ⟨held.later hl, fun src hit =>
      held.fits_later hl (hf src hit)⟩
  | download | convert => exact Fetching.later sound hl

end Passing

section Steps

/-- The states that differ in nothing that a task or an invariant is about;
wheels may leave the store in memory. -/
structure Alike (p q : Proxy) : Prop where
  servers : q.servers = p.servers
  ready : q.ready = p.ready
  managed : q.managed = p.managed
  generation : q.generation = p.generation
  fingerprint : q.fingerprint = p.fingerprint
  identity : q.identity = p.identity
  wheels : q.wheels = p.wheels
  readied : q.readied = p.readied
  published : q.published = p.published
  onDemand : ∀ entry ∈ q.onDemand, entry ∈ p.onDemand

theorem Alike.refl (p : Proxy) : Alike p p :=
  ⟨rfl, rfl, rfl, rfl, rfl, rfl, rfl, rfl, rfl, fun _ mem => mem⟩

variable {p q : Proxy}

theorem Alike.sound (ha : Alike p q) (sound : p.Sound) : q.Sound where
  disk := by
    rw [ha.wheels, ha.identity]
    exact sound.disk
  bound := by
    rw [ha.ready, ha.identity, ha.fingerprint, ha.servers]
    exact sound.bound
  stored := by
    rw [ha.ready, ha.servers]
    intro e mem
    exact sound.stored e (ha.onDemand e mem)
  readied := by
    rw [ha.readied, ha.generation, ha.ready, ha.servers]
    exact sound.readied
  service := by
    rw [ha.ready, ha.generation, ha.servers, ha.readied]
    exact sound.service
  published := by
    rw [ha.published]
    exact sound.published
  explicit := by
    rw [ha.managed, ha.ready, ha.servers]
    exact sound.explicit

theorem Alike.later (ha : Alike p q) : Later p q where
  generation := ha.generation.ge
  same := fun _ hs => ⟨ha.ready.trans hs, ha.servers⟩

variable {id : Nat}

theorem Alike.passes (ha : Alike p q)
    (hl : p.configLock = q.configLock ∨ p.configLock = none ∨ p.configLock = some id) :
    Passes id p q where
  toLater := ha.later
  quiet := by
    intro o ho ht
    refine ⟨?_, ha.ready, ha.managed, ha.servers, fun _ => ⟨ha.identity, ha.wheels⟩⟩
    rcases hl with hs | hf | own
    · exact hs.symm
    · rw [hf] at ht
      cases ht
    · rw [own] at ht
      exact absurd (Option.some.inj ht).symm ho

theorem Held.alike {generation : Nat} (held : Held p generation)
    (ha : Alike p q) : Held q generation := held.later ha.later

/-- What a step of one task has to do. -/
structure Advances (id : Nat) (p : Proxy) (outcome : Outcome) : Prop where
  sound : outcome.1.Sound
  passes : Passes id p outcome.1
  task : ∀ task, outcome.2 = .suspended task → task.Sound outcome.1 id

theorem Advances.after {outcome : Outcome}
    (ha : Advances id q outcome) (hp : Passes id p q) : Advances id p outcome :=
  ⟨ha.sound, hp.trans ha.passes, ha.task⟩

variable {after : After}

theorem Alike.advances (ha : Alike p q) (sound : p.Sound)
    (hl : p.configLock = q.configLock ∨ p.configLock = none ∨ p.configLock = some id)
    (task : ∀ task, after = .suspended task → task.Sound q id) : Advances id p (q, after) :=
  ⟨ha.sound sound, ha.passes hl, task⟩

theorem Proxy.Sound.stays (sound : p.Sound)
    (task : ∀ task, after = .suspended task → task.Sound p id) : Advances id p (p, after) :=
  (Alike.refl p).advances sound (.inl rfl) task

theorem Proxy.Sound.suspends {task : Task} (sound : p.Sound)
    (hs : task.Sound p id) : Advances id p (p, .suspended task) := by
  refine sound.stays ?_
  intro next hn
  cases hn
  exact hs

variable {reply : Reply}

theorem Proxy.Sound.replies (sound : p.Sound) : Advances id p (p, .replied reply) := by
  refine sound.stays ?_
  intro next hn
  cases hn

theorem Alike.replies (ha : Alike p q) (sound : p.Sound)
    (hl : p.configLock = q.configLock ∨ p.configLock = none ∨ p.configLock = some id) :
    Advances id p (q, .replied reply) := by
  refine ha.advances sound hl ?_
  intro next hn
  cases hn

end Steps

section Stores

variable {store : List (Artifact × Nat)}

theorem makeRoom_subset {size : Nat} : ∀ e ∈ makeRoom size store, e ∈ store := by
  induction store with
  | nil =>
    intro e mem
    exact mem
  | cons first rest ih =>
    intro e mem
    rw [makeRoom] at mem
    split at mem
    next => exact mem_cons_of_mem _ (ih e mem)
    next => exact mem

theorem mem_setOnDemand {e o : Artifact × Nat}
    (mem : o ∈ setOnDemand e store) : o = e ∨ o ∈ store := by
  unfold setOnDemand at mem
  split at mem
  next =>
    obtain ⟨old, hs, hO⟩ := mem_map.mp mem
    split at hO
    next => exact .inl hO.symm
    next => exact .inr (hO ▸ hs)
  next => exact (mem_append.mp mem).symm.imp mem_singleton.mp id

variable (p : Proxy)

theorem alike_release (locks : List Lock) : Alike p (p.release locks) :=
  ⟨rfl, rfl, rfl, rfl, rfl, rfl, rfl, rfl, rfl, fun _ mem => mem⟩

theorem alike_dropExpired : Alike p p.dropExpired :=
  ⟨rfl, rfl, rfl, rfl, rfl, rfl, rfl, rfl, rfl, fun _ mem => mem_of_mem_filter mem⟩

theorem alike_lookUp (fn : Text) : Alike p (p.lookUp fn).2 := by
  unfold lookUp
  split
  next => exact Alike.refl p
  next =>
    exact ⟨rfl, rfl, rfl, rfl, rfl, rfl, rfl, rfl, rfl, fun _ mem => mem_of_mem_filter mem⟩

theorem configLock_lookUp (fn : Text) : (p.lookUp fn).2.configLock = p.configLock := by
  unfold lookUp
  split
  next => rfl
  next => rfl

/-- A wheel of the current generation. -/
structure Current (p : Proxy) (wheel : Artifact) : Prop where
  ready : p.ready
  fits : Fits p.servers wheel.source
  started : wheel.started = p.generation

variable {p : Proxy}

theorem Fetching.current {gen started : Nat} {s : Source}
    (hf : Fetching p gen s started) (hs : gen = p.generation)
    (fn : Text) (data : List UInt8) : Current p ⟨fn, data, s, started⟩ where
  ready := hf.held.ready hs
  fits := hf.fits hs
  started := by
    have := hf.since
    have := hf.before
    change started = p.generation
    omega

/-- The states that differ by wheels of the current generation. -/
structure Gains (p q : Proxy) : Prop where
  ready : p.ready
  sound : q.Sound
  configLock : q.configLock = p.configLock
  isReady : q.ready = p.ready
  managed : q.managed = p.managed
  servers : q.servers = p.servers
  generation : q.generation = p.generation

variable {q : Proxy}

theorem Gains.passes (hg : Gains p q) (id : Nat) : Passes id p q where
  generation := hg.generation.ge
  same := fun _ hs => ⟨hg.isReady.trans hs, hg.servers⟩
  quiet := by
    intro o _ _
    refine ⟨hg.configLock, hg.isReady, hg.managed, hg.servers, ?_⟩
    intro out
    rw [hg.ready] at out
    cases out

variable {wheel : Artifact}

section

variable (sound : p.Sound) (current : Current p wheel)

include sound current

theorem published_append :
    ∀ e ∈ p.published ++ [(p.generation, wheel)], e.2.started = e.1 := by
  intro e mem
  rcases mem_append.mp mem with old | new
  · exact sound.published e old
  · rw [mem_singleton.mp new]
    exact current.started

theorem gains_putWheel : Gains p (p.putWheel wheel) := by
  refine ⟨current.ready, ?_, rfl, rfl, rfl, rfl, rfl⟩
  refine { sound with disk := ?_, published := published_append sound current }
  intro o mem fp managed hid
  rcases mem_cons.mp mem with rfl | old
  · obtain ⟨_, hi, hs⟩ := sound.bound current.ready
    cases hi.symm.trans hid
    rw [hs]
    exact current.fits
  · exact sound.disk o (mem_of_mem_filter old) fp managed hid

theorem gains_cacheDownloadedWheel {written : Bool}
    (hc : p.cacheDownloadedWheel wheel written = some q) : Gains p q := by
  unfold cacheDownloadedWheel at hc
  split at hc
  next =>
    cases hc
    exact gains_putWheel sound current
  next => cases hc

theorem gains_rememberOnDemandWheel : Gains p (p.rememberOnDemandWheel wheel) := by
  unfold rememberOnDemandWheel
  split
  next => exact ⟨current.ready, sound, rfl, rfl, rfl, rfl, rfl⟩
  next =>
    refine ⟨current.ready, ?_, rfl, rfl, rfl, rfl, rfl⟩
    refine { sound with stored := ?_, published := published_append sound current }
    intro e mem
    rcases mem_setOnDemand mem with rfl | old
    · exact ⟨current.ready, current.fits⟩
    · exact sound.stored e (mem_of_mem_filter (makeRoom_subset e old))

theorem gains_publish (written : Bool) : Gains p (p.publish wheel written) := by
  unfold publish
  cases hc : p.cacheDownloadedWheel wheel written with
  | none => exact gains_rememberOnDemandWheel sound current
  | some q => exact gains_cacheDownloadedWheel sound current hc

end

end Stores

section Requests

variable {World : Type} {host : Host World} {p : Proxy} {id : Nat}

theorem held_now (hr : p.ready) : Held p p.generation := ⟨le_rfl, fun _ => hr⟩

theorem requireCurrent_advances {work : Work} {next : Outcome} (sound : p.Sound)
    (ha : work.generation = p.generation → Advances id p next) :
    Advances id p (requireCurrent p work next) := by
  unfold requireCurrent
  split
  next hs => exact ha hs
  next => exact (alike_release p _).replies sound (.inl rfl)

section

variable (sound : p.Sound)

include sound

theorem startPrepare_advances (specs : List Text) :
    Advances id p (p, startPrepare host p specs) := by
  simp only [startPrepare]
  split
  next => exact sound.replies
  split
  next => exact sound.replies
  next hr =>
    split
    next => exact sound.replies
    split
    next => exact sound.replies
    next => exact sound.suspends (held_now (by simpa using hr))

theorem startPage_advances (packageName : Text) : Advances id p (startPage p packageName) := by
  simp only [startPage]
  split
  next =>
    split
    next hr =>
      split
      next => exact sound.replies
      next ns name _ =>
        split
        next =>
          refine (alike_dropExpired p).advances sound (.inl rfl) ?_
          intro task ht
          cases ht
          exact (held_now hr).alike (alike_dropExpired p)
        next => exact (alike_dropExpired p).replies sound (.inl rfl)
    next => exact sound.replies
  next => exact sound.replies

theorem startServe_advances (fn : Text) : Advances id p (startServe p fn) := by
  have hl : p.configLock = (p.lookUp fn).2.configLock := (configLock_lookUp p fn).symm
  unfold startServe
  split
  next =>
    split
    next =>
      split
      next => exact (alike_lookUp p fn).replies sound (.inl hl)
      next =>
        split
        next =>
          refine (alike_lookUp p fn).advances sound (.inl hl) ?_
          intro task ht
          cases ht
          trivial
        next => exact (alike_lookUp p fn).replies sound (.inl hl)
    next => exact sound.replies
  next => exact sound.replies

theorem start_advances (req : Request) : Advances id p (start host p req) := by
  cases req with
  | prepare specs => exact startPrepare_advances sound specs
  | page packageName => exact startPage_advances sound packageName
  | wheel fn => exact startServe_advances sound fn

theorem Proxy.Sound.ends (fallback : List (Text × Nat)) (locks : List Lock) (reply : Reply) :
    Advances id p (({ p with fallback := fallback }).release locks, .replied reply) := by
  have ha : Alike p (({ p with fallback := fallback }).release locks) :=
    ⟨rfl, rfl, rfl, rfl, rfl, rfl, rfl, rfl, rfl, fun _ mem => mem⟩
  exact ha.replies sound (.inl rfl)

theorem finishPrepare_advances (frame : Prepare) : Advances id p (finishPrepare p frame) :=
  sound.ends _ _ _

end

variable {frame : Prepare}

theorem afterCheck_advances (sound : p.Sound) (held : Held p frame.generation)
    (found : List Text) (stage : Stage) : Advances id p (afterCheck p frame found stage) := by
  cases stage with
  | first =>
    simp only [afterCheck]
    split
    next => exact sound.suspends held
    next => exact sound.suspends held
  | locked => exact sound.suspends held
  | final => exact finishPrepare_advances sound _

theorem fits_galaxyConfig (seen : World) (p : Proxy) :
    Fits p.servers (galaxyConfig host seen p) := by
  intro list hL
  simp only [galaxyConfig, hL, downloadAuth]

theorem afterConvert_advances (sound : p.Sound)
    (held : Held p frame.generation) : Advances id p (afterConvert p frame) := by
  refine requireCurrent_advances sound ?_
  intro _
  exact sound.suspends held

variable {q : Proxy}

theorem Gains.releases (hg : Gains p q) (locks : List Lock) (reply : Reply) :
    Advances id p (q.release locks, .replied reply) :=
  ((alike_release q locks).replies hg.sound (.inl rfl)).after (hg.passes id)

theorem alike_held (p : Proxy) (held : List Lock) : Alike p { p with held := held } :=
  ⟨rfl, rfl, rfl, rfl, rfl, rfl, rfl, rfl, rfl, fun _ mem => mem⟩

theorem config_advances (sound : q.Sound) (work : Work)
    (held : Held q work.generation) (locks : List Lock) :
    Advances id q ({ q with held := locks }, .suspended (.config work .unread)) := by
  refine (alike_held q locks).advances sound (.inl rfl) ?_
  intro task ht
  cases ht
  refine ⟨held.alike (alike_held q locks), ?_⟩
  intro src hit
  cases hit

variable (sound : p.Sound)
include sound

theorem prepareLocks_advances (frame : Prepare) (held : Held p frame.generation) (rest : List Text) :
    Advances id p (if rest = [] then
        requireCurrent p (.prepare frame) (p, .suspended (checkSpecs p frame .locked))
      else (p, .suspended (.prepareLocks frame rest))) := by
  split
  next =>
    refine requireCurrent_advances sound ?_
    intro _
    exact sound.suspends held
  next => exact sound.suspends held

variable {source : Source} {started : Nat}

theorem convert_advances (frame : Prepare)
    (hf : Fetching p frame.generation source started) (tarballs : Nat) :
    Advances id p (if tarballs = 0 then afterConvert p frame
      else (p, .suspended (.convert frame source started tarballs))) := by
  split
  next => exact afterConvert_advances sound hf.held
  next => exact sound.suspends hf

theorem convertOne_cases (hf : Fetching p frame.generation source started)
    (wheel : Option (Text × List UInt8)) (written : Bool) :
    convertOne p frame source started wheel written = (p, frame) ∨
      Gains p (convertOne p frame source started wheel written).1 ∧
        (convertOne p frame source started wheel written).2.generation = frame.generation := by
  unfold convertOne
  split
  next => exact .inl rfl
  next fn data =>
    split
    next hs =>
      exact .inr ⟨gains_publish sound (hf.current hs fn data) written, rfl⟩
    next => exact .inl rfl

theorem advanceRequest_advances {task : Task} (taskSound : task.Sound p id)
    {event : Event World} {outcome : Outcome}
    (ht : advanceRequest host p task event = some outcome) : Advances id p outcome := by
  unfold advanceRequest at ht
  split at ht
  case h_1 req =>
    cases ht
    exact start_advances sound req
  case h_2 frame stage handoff _ =>
    cases ht
    exact sound.suspends taskSound
  case h_3 frame stage handoff found =>
    cases ht
    refine requireCurrent_advances sound ?_
    intro _
    exact afterCheck_advances sound taskSound found stage
  case h_4 frame key rest =>
    split at ht
    next => cases ht
    next =>
      rw [← apply_ite some] at ht
      cases ht
      have ha := alike_held p (.prepare key :: p.held)
      exact (prepareLocks_advances (ha.sound sound)
        { frame with acquired := frame.acquired ++ [key] }
        (Held.alike taskSound ha) rest).after (ha.passes (.inl rfl))
  case h_5 frame _ =>
    cases ht
    exact sound.suspends taskSound
  case h_6 frame found =>
    cases ht
    refine requireCurrent_advances sound ?_
    intro _
    split
    next => exact finishPrepare_advances sound _
    next =>
      refine sound.suspends ⟨taskSound, ?_⟩
      intro s hit
      cases hit
  case h_7 ns name hg =>
    simp only at ht
    split at ht
    next => cases ht
    split at ht
    next =>
      cases ht
      exact sound.replies
    split at ht
    next =>
      cases ht
      exact config_advances sound (.page ns name hg) taskSound _
    next =>
      cases ht
      exact sound.replies
  case h_8 fn ns name ver =>
    have ha := alike_lookUp p fn
    have hl : p.configLock = (p.lookUp fn).2.configLock := (configLock_lookUp p fn).symm
    simp only at ht
    split at ht
    next => cases ht
    split at ht
    next hr =>
      split at ht
      next =>
        cases ht
        exact ha.replies sound (.inl hl)
      next =>
        cases ht
        have held := (held_now hr).alike ha
        exact (config_advances (ha.sound sound) (.serve ns name ver p.generation) held
          _).after (ha.passes (.inl hl))
    next =>
      cases ht
      exact sound.replies
  case h_9 work _ =>
    cases ht
    refine sound.suspends ⟨taskSound.1, ?_⟩
    intro s hit
    split at hit <;> cases hit
  case h_10 work seen =>
    cases ht
    refine sound.suspends ⟨taskSound.1, ?_⟩
    intro s hit _
    cases hit
    exact fits_galaxyConfig seen p
  case h_11 work =>
    cases ht
    exact (alike_release p _).replies sound (.inl rfl)
  case h_12 work s =>
    cases ht
    exact sound.suspends ⟨taskSound.1, taskSound.2 s rfl, taskSound.1.le, le_rfl⟩
  case h_13 frame s started tarballs failed =>
    simp only at ht
    rw [← apply_ite some] at ht
    cases ht
    exact convert_advances sound { frame with failed := failed } taskSound tarballs
  case h_14 ns name hg s started fn data written =>
    cases ht
    refine requireCurrent_advances sound ?_
    intro hs
    exact (gains_publish sound (taskSound.current hs fn data) written).releases _ _
  case h_15 ns name ver hg s started fn data written =>
    cases ht
    refine requireCurrent_advances sound ?_
    intro hs
    have hc := taskSound.current hs fn data
    cases hca : p.cacheDownloadedWheel ⟨fn, data, s, started⟩ written with
    | none => exact (alike_release p _).replies sound (.inl rfl)
    | some q => exact (gains_cacheDownloadedWheel sound hc hca).releases _ _
  case h_16 work s started =>
    cases ht
    exact (alike_release p _).replies sound (.inl rfl)
  case h_17 frame s started tarballs wheel written =>
    simp only at ht
    rw [← apply_ite some] at ht
    cases ht
    rcases convertOne_cases sound taskSound wheel written with hs | ⟨hga, hg⟩
    · rw [hs]
      exact convert_advances sound frame taskSound tarballs
    · have hf := Fetching.later taskSound (hga.passes id).toLater
      rw [← hg] at hf
      exact (convert_advances hga.sound _ hf tarballs).after (hga.passes id)
  case h_18 => cases ht

end Requests

section Changes

variable {World : Type} {host : Host World} {p : Proxy} {id : Nat}

variable {q : Proxy}

theorem passes_of_lock (hl : p.configLock = some id) (hla : Later p q) : Passes id p q := by
  refine ⟨hla, ?_⟩
  intro o ho ht
  rw [hl] at ht
  exact absurd (Option.some.inj ht).symm ho

theorem sound_retire (sound : p.Sound) : p.retire.Sound where
  disk := sound.disk
  bound := by
    intro hr
    cases hr
  stored := by
    intro e mem
    cases mem
  readied := by
    intro e mem
    have le := (sound.readied e mem).1
    refine ⟨Nat.le_succ_of_le le, ?_⟩
    intro hs
    change e.1 = p.generation + 1 at hs
    omega
  service := by
    intro hr
    cases hr
  published := sound.published
  explicit := by
    intro _ hr
    cases hr

variable {task : Task}

theorem retire_advances (sound : p.Sound) (hl : p.configLock = some id)
    (hts : task.Sound p.retire id) : Advances id p (p.retire, .suspended task) := by
  refine ⟨sound_retire sound, passes_of_lock hl ⟨Nat.le_succ _, ?_⟩, ?_⟩
  · intro hs
    change p.generation + 1 = p.generation at hs
    omega
  · intro next hn
    cases hn
    exact hts

theorem afterReconcile_sound {req : Request} :
    ∀ task, afterReconcile p req = .suspended task → task.Sound q id := by
  intro task ht
  cases req with
  | prepare specs =>
    cases ht
    trivial
  | page packageName =>
    simp only [afterReconcile] at ht
    split at ht
    next =>
      cases ht
      trivial
    next => cases ht
  | wheel fn =>
    simp only [afterReconcile] at ht
    split at ht
    next =>
      cases ht
      trivial
    next => cases ht

theorem settleUpdate_advances (sound : p.Sound) (hl : p.configLock = some id)
    {desired : List ServerConfig} (changed : Bool) (k : Text) {found : Option Fingerprint}
    (hf : ∀ fp ∈ found, fp.servers = some desired) :
    Advances id p (settleUpdate p desired changed k found) := by
  unfold settleUpdate
  split
  next =>
    cases found with
    | none =>
      refine retire_advances sound hl ⟨hl, rfl, ?_⟩
      intro fp mem
      cases mem
    | some fp =>
      exact retire_advances sound hl ⟨hl, rfl, hf fp rfl, trivial⟩
  next =>
    have ha : Alike p { p with probe := k, configLock := none } :=
      ⟨rfl, rfl, rfl, rfl, rfl, rfl, rfl, rfl, rfl, fun _ mem => mem⟩
    exact ha.replies sound (.inr (.inr hl))

variable {managed : Bool} {phase : BindPhase}

theorem bindStep_sound (sound : p.Sound) (out : p.ready = false) {fp : Fingerprint}
    (bound : Bound p fp managed phase) : (bindStep fp managed p phase).1.Sound ∧
      Bound (bindStep fp managed p phase).1 fp managed (bindStep fp managed p phase).2 := by
  have hr : ∀ {P : Prop}, p.ready → P := by
    intro P hre
    rw [out] at hre
    cases hre
  cases phase with
  | start =>
    refine ⟨{ sound with }, ?_⟩
    simp only [bindStep]
    split
    next hs => exact hs
    split
    next hs =>
      intro wheel mem
      obtain ⟨⟨old, flag⟩, hI, rfl⟩ := map_eq_some_iff.mp hs
      exact sound.disk wheel mem old flag hI
    next => trivial
  | clear =>
    refine ⟨{ sound with disk := ?_ }, ?_⟩
    · intro wheel mem
      cases mem
    · intro wheel mem
      cases mem
  | write =>
    refine ⟨{ sound with disk := ?_, bound := hr }, rfl⟩
    intro wheel mem o flag hI
    cases hI
    exact bound wheel mem
  | enable => exact ⟨{ sound with }, bound⟩
  | bound => exact ⟨sound, bound⟩

theorem bindStep_fixed (fp : Fingerprint) (managed : Bool) (p : Proxy)
    (phase : BindPhase) :
    (bindStep fp managed p phase).1.configLock = p.configLock ∧
      (bindStep fp managed p phase).1.ready = p.ready ∧
      (bindStep fp managed p phase).1.managed = p.managed ∧
      (bindStep fp managed p phase).1.servers = p.servers ∧
      (bindStep fp managed p phase).1.generation = p.generation := by
  cases phase <;> exact ⟨rfl, rfl, rfl, rfl, rfl⟩

variable {change : Change}

theorem bind_advances (sound : p.Sound) (taskSound : (Task.bind change phase).Sound p id) :
    Advances id p ((bindStep change.fingerprint change.managed p phase).1,
      .suspended (.bind change (bindStep change.fingerprint change.managed p phase).2)) := by
  obtain ⟨lock, out, fit, hbo⟩ := taskSound
  obtain ⟨hl, hr, hm, hs, gen⟩ :=
    bindStep_fixed change.fingerprint change.managed p phase
  obtain ⟨hns, hb⟩ := bindStep_sound sound out hbo
  refine ⟨hns, passes_of_lock lock ⟨gen.ge, fun _ his =>
    ⟨hr.trans his, hs⟩⟩, ?_⟩
  intro task ht
  cases ht
  refine ⟨hl.trans lock, hr.trans out, ?_, hb⟩
  unfold Change.Fit at fit ⊢
  rw [hm, hs]
  exact fit

theorem sound_restore (sound : p.Sound) (out : p.ready = false) {flag : Bool}
    (bound : p.identity = some (change.fingerprint, flag)) {servers : Servers}
    (hf : change.fingerprint.servers = servers) (cfgPath : Option Text)
    (explicit : managed → servers.isSome) :
    (p.restore change servers cfgPath managed).Sound where
  disk := sound.disk
  bound := fun _ => ⟨flag, bound, hf⟩
  stored := by
    intro e mem
    have hr := (sound.stored e mem).1
    rw [out] at hr
    cases hr
  readied := by
    intro e mem
    rcases mem_append.mp mem with old | new
    · obtain ⟨le, current⟩ := sound.readied e old
      refine ⟨le, ?_⟩
      intro hs
      have hr := (current hs).1
      rw [out] at hr
      cases hr
    · rw [mem_singleton.mp new]
      exact ⟨le_rfl, fun _ => ⟨rfl, rfl⟩⟩
  service := fun _ => mem_append_right _ (mem_singleton.mpr rfl)
  published := sound.published
  explicit := fun hm _ => explicit hm

theorem later_of_out (out : p.ready = false) (hg : p.generation = q.generation) :
    Later p q := by
  refine ⟨hg.le, ?_⟩
  intro _ hr
  rw [out] at hr
  cases hr

theorem install_advances (sound : p.Sound)
    (taskSound : (Task.bind change .bound).Sound p id) : Advances id p (install p change) := by
  obtain ⟨hl, out, fit, hb⟩ := taskSound
  unfold Change.Fit at fit
  unfold install
  split
  next desired hU =>
    rw [hU] at fit
    refine ⟨sound_restore sound out hb fit none fun _ => rfl,
      passes_of_lock hl (later_of_out out rfl), ?_⟩
    intro task ht
    cases ht
  next req hN =>
    rw [hN] at fit
    refine ⟨sound_restore sound out hb fit.2 p.cfgPath ?_,
      passes_of_lock hl (later_of_out out rfl), afterReconcile_sound⟩
    intro hm
    rw [fit.1] at hm
    cases hm

variable {event : Event World} {outcome : Outcome}

section

variable (sound : p.Sound) (taskSound : task.Sound p id)

include sound taskSound

theorem advanceChange_advances
    (ht : advanceChange host p id task event = some outcome) : Advances id p outcome := by
  have hl : ∀ lock, Alike p { p with configLock := lock } := fun lock =>
    ⟨rfl, rfl, rfl, rfl, rfl, rfl, rfl, rfl, rfl, fun _ mem => mem⟩
  unfold advanceChange at ht
  split at ht
  case h_1 desired =>
    split at ht
    next hf =>
      cases ht
      refine (hl (some id)).advances sound (.inr (.inl hf)) ?_
      intro task hta
      cases hta
      exact rfl
    next => cases ht
  case h_2 desired changed seen =>
    cases ht
    exact sound.suspends taskSound
  case h_3 desired changed k =>
    split at ht
    next =>
      cases ht
      refine settleUpdate_advances sound taskSound changed k ?_
      intro fp mem
      cases mem
    next =>
      cases ht
      refine sound.suspends ⟨taskSound, ?_⟩
      intro fp mem
      cases mem
  case h_4 desired changed k seen =>
    cases ht
    refine sound.suspends ⟨taskSound.1, ?_⟩
    intro fp mem
    cases mem
    rfl
  case h_5 desired changed k fp =>
    cases ht
    exact settleUpdate_advances sound taskSound.1 _ k taskSound.2
  case h_6 desired k seen =>
    cases ht
    refine sound.suspends ⟨taskSound.1, taskSound.2.1, ?_⟩
    intro fp mem
    cases mem
    rfl
  case h_7 desired k fp =>
    cases ht
    obtain ⟨lock, out, fits⟩ := taskSound
    exact sound.suspends ⟨lock, out, fits fp rfl, trivial⟩
  case h_8 req seen =>
    cases ht
    exact sound.suspends trivial
  case h_9 req k =>
    split at ht
    next =>
      cases ht
      exact sound.stays afterReconcile_sound
    next =>
      cases ht
      exact sound.suspends trivial
  case h_10 req =>
    split at ht
    next hf =>
      split at ht
      next =>
        cases ht
        exact sound.stays afterReconcile_sound
      next hn =>
        cases ht
        refine (hl (some id)).advances sound (.inr (.inl hf)) ?_
        intro task hta
        cases hta
        exact ⟨rfl, by simpa using hn⟩
    next => cases ht
  case h_11 req seen =>
    cases ht
    exact sound.suspends taskSound
  case h_12 req cfgPath k =>
    split at ht
    next =>
      cases ht
      exact (hl none).advances sound (.inr (.inr taskSound.1)) afterReconcile_sound
    next =>
      cases ht
      refine sound.suspends ⟨taskSound.1, taskSound.2, ?_⟩
      intro fp mem
      cases mem
  case h_13 req cfgPath k seen =>
    cases ht
    refine sound.suspends ⟨taskSound.1, taskSound.2.1, ?_⟩
    intro fp mem
    cases mem
    rfl
  case h_14 req cfgPath k fp =>
    obtain ⟨lock, hn, fits⟩ := taskSound
    split at ht
    next =>
      cases ht
      have ha : Alike p { p with probe := k, configLock := none } :=
        ⟨rfl, rfl, rfl, rfl, rfl, rfl, rfl, rfl, rfl, fun _ mem => mem⟩
      exact ha.advances sound (.inr (.inr lock)) afterReconcile_sound
    next =>
      cases ht
      exact retire_advances sound lock ⟨lock, rfl, ⟨hn, fits fp rfl⟩, trivial⟩
  case h_15 change =>
    cases ht
    exact install_advances sound taskSound
  case h_16 change phase seen _ =>
    cases ht
    exact bind_advances sound taskSound
  case h_17 => cases ht

theorem abandon_advances
    (ha : task.abandon p = some q) (reply : Reply) : Advances id p (q, .replied reply) := by
  have hu : p.configLock = some id → some { p with configLock := none } = some q →
      Advances id p (q, .replied reply) := by
    intro hl hn
    cases hn
    have hal : Alike p { p with configLock := none } :=
      ⟨rfl, rfl, rfl, rfl, rfl, rfl, rfl, rfl, rfl, fun _ mem => mem⟩
    exact hal.replies sound (.inr (.inr hl))
  have hr : ∀ locks, some (p.release locks) = some q → Advances id p (q, .replied reply) := by
    intro locks hn
    cases hn
    exact (alike_release p locks).replies sound (.inl rfl)
  have hs : some p = some q → Advances id p (q, .replied reply) := by
    intro hn
    cases hn
    exact sound.replies
  cases task with
  | updateLock | nativeProbe | nativeLock | enter | pageLock | serveLock => exact hs ha
  | updateProbe => exact hu taskSound ha
  | updateFingerprint | updateRebind | nativeReprobe | nativeFingerprint =>
    exact hu taskSound.1 ha
  | bind change phase =>
    cases phase with
    | bound => exact hu taskSound.1 ha
    | start | clear | write | enable => cases ha
  | prepareCheck | prepareLocks | prepareList | config | download | convert =>
    exact hr _ ha

theorem advance_advances
    (ht : advance host p id task event = some outcome) : Advances id p outcome := by
  unfold advance at ht
  rcases or_eq_some_iff.mp ht with hh | ⟨-, ho⟩
  · rcases or_eq_some_iff.mp hh with hc | ⟨-, hr⟩
    · exact advanceChange_advances sound taskSound hc
    · exact advanceRequest_advances sound taskSound hr
  · cases event with
    | raised =>
      obtain ⟨q, ha, rfl⟩ := map_eq_some_iff.mp ho
      exact abandon_advances sound taskSound ha _
    | thread | resumed | acquired | downloaded | converted => cases ho

end

end Changes

section Runs

variable {World : Type} {host : Host World}

theorem bindConfig_eq (fp : Fingerprint) (managed : Bool) (p : Proxy) :
    bindConfig fp managed p =
      { p with enabled := true, identity := some (fp, managed),
               wheels := if p.identity.map Prod.fst = some fp then p.wheels else [] } := by
  by_cases hs : p.identity = some (fp, managed)
  · simp [bindConfig, bindStep, hs]
  · by_cases hk : p.identity.map Prod.fst = some fp
    · simp [bindConfig, bindStep, hs, hk]
    · simp [bindConfig, bindStep, hs, hk]

/-- Whatever wheels are on the disk, they come from the servers of the identity
that is stored beside them. -/
def DiskSound (identity : Option (Fingerprint × Bool)) (wheels : List Artifact) : Prop :=
  ∀ wheel ∈ wheels, ∀ fingerprint managed,
    identity = some (fingerprint, managed) → Fits fingerprint.servers wheel.source

variable {p : Proxy}

theorem createApp_sound {seen : World} {servers : Servers} {cfgPath : Option Text}
    {requireGateway : Bool} {identity : Option (Fingerprint × Bool)} {wheels : List Artifact}
    (hd : DiskSound identity wheels)
    (hc : createApp host seen servers cfgPath requireGateway identity wheels = some p) :
    p.Sound := by
  simp only [createApp] at hc
  split at hc
  next => cases hc
  next =>
    cases hc
    split
    next hr =>
      obtain ⟨hn, -⟩ := Bool.and_eq_true_iff.mp hr
      rw [bindConfig_eq]
      refine ⟨?_, fun _ => ⟨false, rfl, rfl⟩, ?_, ?_, ?_, ?_, ?_⟩
      · intro wheel mem fp hm hi
        cases hi
        simp only at mem
        split at mem
        next hk =>
          obtain ⟨⟨old, flag⟩, hO, rfl⟩ := map_eq_some_iff.mp hk
          exact hd wheel mem _ flag hO
        next => cases mem
      · intro e mem
        cases mem
      · intro e mem
        rw [mem_singleton.mp mem]
        exact ⟨le_rfl, fun _ => ⟨hr, rfl⟩⟩
      · intro _
        exact mem_singleton.mpr rfl
      · intro e mem
        cases mem
      · intro hm
        simp only at hm
        rw [hm] at hn
        cases hn
    next out =>
      refine ⟨hd, ?_, ?_, ?_, ?_, ?_, ?_⟩
      · intro hr
        exact absurd hr out
      · intro e mem
        cases mem
      · intro e mem
        cases mem
      · intro hr
        exact absurd hr out
      · intro e mem
        cases mem
      · intro _ hr
        exact absurd hr out

structure System.Sound (s : System) : Prop where
  proxy : s.proxy.Sound
  tasks : ∀ id task, s.tasks id = some task → task.Sound s.proxy id

theorem launch_sound (sound : p.Sound) : (launch p).Sound := by
  refine ⟨sound, ?_⟩
  intro id task ht
  cases ht

theorem task_of_update {tasks : Nat → Option Task} {id o : Nat} {new : Option Task}
    {task : Task} (ht : Function.update tasks id new o = some task) :
    o = id ∧ new = some task ∨ o ≠ id ∧ tasks o = some task := by
  by_cases hs : o = id
  · subst hs
    rw [Function.update_self] at ht
    exact .inl ⟨rfl, ht⟩
  · rw [Function.update_of_ne hs] at ht
    exact .inr ⟨hs, ht⟩

theorem System.Sound.after {s : System} (sound : s.Sound) {id : Nat} {outcome : Outcome}
    (ha : Advances id s.proxy outcome) : (s.after id outcome).Sound := by
  unfold System.after
  split
  next next hN =>
    refine ⟨ha.sound, ?_⟩
    intro o task ht
    rcases task_of_update ht with ⟨rfl, hn⟩ | ⟨ho, hol⟩
    · cases hn
      exact ha.task _ hN
    · exact (sound.tasks o task hol).passes ho ha.passes
  next reply isReply =>
    refine ⟨ha.sound, ?_⟩
    intro o task ht
    rcases task_of_update ht with ⟨rfl, hn⟩ | ⟨ho, hol⟩
    · cases hn
    · exact (sound.tasks o task hol).passes ho ha.passes

theorem arrive_sound {p q : Proxy} {id : Nat} {req : Request} :
    ∀ task, arrive p req = .suspended task → task.Sound q id := by
  intro task ht
  unfold arrive at ht
  split at ht
  next =>
    cases ht
    trivial
  split at ht
  next => exact afterReconcile_sound task ht
  next =>
    cases ht
    trivial

theorem step_sound {s t : System} (sound : s.Sound) {label : Label World}
    (ht : step host s label = some t) : t.Sound := by
  cases label with
  | update id body =>
    obtain ⟨-, hn⟩ := ite_none_left_eq_some.mp ht
    cases hn
    refine sound.after (sound.proxy.stays ?_)
    intro task hT
    unfold startUpdate at hT
    split at hT
    next =>
      cases hT
      trivial
    next => cases hT
  | request id request =>
    obtain ⟨-, hn⟩ := ite_none_left_eq_some.mp ht
    cases hn
    exact sound.after (sound.proxy.stays arrive_sound)
  | wake id event =>
    obtain ⟨task, hT, ho⟩ := bind_eq_some_iff.mp ht
    obtain ⟨outcome, ha, rfl⟩ := map_eq_some_iff.mp ho
    exact sound.after (advance_advances sound.proxy (sound.tasks id task hT) ha)
  | pass seconds =>
    cases ht
    have hal : Alike s.proxy { s.proxy with now := s.proxy.now + seconds } :=
      ⟨rfl, rfl, rfl, rfl, rfl, rfl, rfl, rfl, rfl, fun _ hm => hm⟩
    refine ⟨hal.sound sound.proxy, ?_⟩
    intro id task hT
    -- Time passes for every task, so it is a step of a task that is not there.
    exact (sound.tasks id task hT).passes (Nat.ne_of_lt (Nat.lt_succ_self id))
      (hal.passes (.inl rfl))
  | restart seen servers cfgPath requireGateway =>
    obtain ⟨p, hc, rfl⟩ := map_eq_some_iff.mp ht
    exact launch_sound (createApp_sound sound.proxy.disk hc)

/-- A wheel that a request can get from the disk or from memory. -/
def Proxy.Readable (p : Proxy) (wheel : Artifact) : Prop :=
  wheel ∈ p.readable ∨ wheel ∈ p.onDemand.map Prod.fst

/-- In managed mode the wheels come from the servers of the current generation,
and none is published in a generation other than the one its download started
in. -/
structure Proxy.Separated (p : Proxy) : Prop where
  readable : p.managed → ∀ wheel, p.Readable wheel →
    ∀ entry ∈ p.readied, entry.1 = p.generation → wheel.source.servers = entry.2
  service : p.ready → (p.generation, p.servers) ∈ p.readied
  published : ∀ entry ∈ p.published, entry.2.started = entry.1

theorem Proxy.Sound.separated (sound : p.Sound) : p.Separated where
  readable := by
    intro managed wheel readable e mem current
    obtain ⟨hr, hse⟩ := (sound.readied e mem).2 current
    have hf : Fits p.servers wheel.source := by
      rcases readable with hd | hm
      · unfold readable at hd
        split at hd
        next =>
          obtain ⟨flag, hi, hs⟩ := sound.bound hr
          rw [← hs]
          exact sound.disk wheel hd p.fingerprint flag hi
        next => cases hd
      · obtain ⟨stored, his, rfl⟩ := mem_map.mp hm
        exact (sound.stored stored his).2
    obtain ⟨list, hL⟩ := isSome_iff_exists.mp (sound.explicit managed hr)
    rw [hse, hL]
    exact hf list hL
  service := sound.service
  published := sound.published

/-- Over every interleaving of the handlers, from any wheels on the disk that no
identity vouches for. -/
theorem wheels_never_cross_generations {seen : World} {servers : Servers} {cfgPath : Option Text}
    {requireGateway : Bool} {wheels : List Artifact} {p : Proxy} {s : System}
    (created : createApp host seen servers cfgPath requireGateway none wheels = some p)
    (reached : Reaches (step host) (fun _ _ => True) (launch p) s) :
    s.proxy.Separated := by
  have initially : p.Sound := by
    refine createApp_sound ?_ created
    intro wheel _ fingerprint managed isIdentity
    cases isIdentity
  have sound : s.Sound := reached.invariant (fun _ _ _ sound _ taken => step_sound sound taken)
    (launch_sound initially)
  exact sound.proxy.separated

/-- A host without configuration files, where nothing changes. -/
def quietHost : Host Unit where
  envConfig _ := none
  isFile _ _ := false
  loadServersFromAnsibleCfg _ _ := none
  sourceProbe _ _ _ := []
  surroundings _ _ _ := []
  cacheSatisfiesSpec _ _ _ := false
  validServerUrl _ := true
  validCollectionSpec _ := true

def hubPayload : ServerPayload :=
  { name := "hub".toList, url := "https://hub".toList, token := [], authUrl := [],
    validateCerts := none }

def toolsWheel : Text := "ansible_collection_acme_tools-1.0-py3-none-any.whl".toList

/-- The servers are pushed, and a wheel is asked for and downloaded. -/
def pushAndServe : List (Label Unit) :=
  [.update 0 [hubPayload], .wake 0 .acquired, .wake 0 (.thread ()), .wake 0 .resumed,
    .wake 0 (.thread ()), .wake 0 .resumed, .wake 0 (.thread ()), .wake 0 (.thread ()),
    .wake 0 (.thread ()), .wake 0 (.thread ()), .wake 0 .resumed,
    .request 1 (.wheel toolsWheel), .wake 1 .resumed, .wake 1 .acquired, .wake 1 (.thread ()),
    .wake 1 (.thread ()), .wake 1 .resumed, .wake 1 (.converted (some (toolsWheel, [1])) true)]

theorem hub_wheel_separated :
    ∃ p s, createApp quietHost () none none true none [] = some p ∧
      follow (step quietHost) (fun _ _ => True) pushAndServe (launch p) = some s ∧
      s.proxy.managed ∧ s.proxy.readable.map Artifact.filename = [toolsWheel] ∧
      s.proxy.Separated := by
  have runs : ∃ p s, createApp quietHost () none none true none [] = some p ∧
      follow (step quietHost) (fun _ _ => True) pushAndServe (launch p) = some s ∧
      s.proxy.managed ∧ s.proxy.readable.map Artifact.filename = [toolsWheel] :=
    ⟨_, _, rfl, rfl, by decide, by decide⟩
  obtain ⟨p, s, created, followed, managed, files⟩ := runs
  exact ⟨p, s, created, followed, managed, files,
    wheels_never_cross_generations created (reaches_of_follow pushAndServe followed)⟩

end Runs

end Apme.Galaxy
