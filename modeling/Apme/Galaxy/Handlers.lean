import Mathlib.Algebra.GroupWithZero.Nat
import Apme.Galaxy.Naming

/-!
# The handlers of the Galaxy proxy

The proxy runs its handlers on an event loop.  A handler is suspended where it
waits for a lock, for a worker thread or for a download; a suspended handler is a
`Task`, which holds what the handler still needs.  A worker thread reads the
state of the application while other handlers run.

A change of the configuration takes the application out of service, counts up
the generation, empties the store in memory, binds the disk cache to the new
fingerprint in a thread, and installs the servers at the end.  The handlers that
download take the generation first and compare it before they publish a wheel.

A fingerprint is identified with what it is a digest of, and a wheel carries the
arguments of its download and the generation in which the download started.
-/

set_option autoImplicit false

namespace Apme.Galaxy

open Apme.Lib

structure ServerPayload where
  name : Text
  url : Text
  token : Text
  authUrl : Text
  validateCerts : Option Bool

structure ServerConfig where
  name : Text
  url : Text
  token : Option Text
  authUrl : Option Text
  validateCerts : Option Bool
  deriving DecidableEq

abbrev Servers := Option (List ServerConfig)

structure Fingerprint where
  servers : Servers
  /-- The environment and the contents of configuration and trust files. -/
  surroundings : Text
  deriving DecidableEq

/-- What `ansible-galaxy` is told about where to download from. -/
structure Source where
  cfgPath : Option Text
  servers : Servers
  deriving DecidableEq

structure Artifact where
  filename : Text
  data : List UInt8
  source : Source
  started : Nat

/-- What is outside of the proxy's state.  A world is what a thread finds in the
environment and in the file system when it looks. -/
structure Host (World : Type) where
  envConfig : World → Option Text
  isFile : World → Text → Bool
  loadServersFromAnsibleCfg : World → Text → Servers
  sourceProbe : World → Servers → Option Text → Text
  surroundings : World → Servers → Option Text → Text
  cacheSatisfiesSpec : List Artifact → List Artifact → Text → Bool
  validServerUrl : Text → Bool
  validCollectionSpec : Text → Bool

def Host.sourceFingerprint {World : Type} (host : Host World) (seen : World) (servers : Servers)
    (cfgPath : Option Text) : Fingerprint :=
  ⟨servers, host.surroundings seen servers cfgPath⟩

/-- An explicit list, also an empty one, stands above the configuration file. -/
def downloadAuth (cfgPath : Option Text) (servers : Servers) : Source :=
  match servers with
  | some list => ⟨none, some list⟩
  | none => ⟨cfgPath, none⟩

inductive Lock where
  | download (key : Text)
  | prepare (key : Text)
  deriving DecidableEq

structure Proxy where
  servers : Servers
  cfgPath : Option Text
  ready : Bool
  managed : Bool
  generation : Nat
  fingerprint : Fingerprint
  probe : Text
  /-- Whether the disk cache is in use. -/
  enabled : Bool
  /-- The persisted digest and the admin-managed flag. -/
  identity : Option (Fingerprint × Bool)
  wheels : List Artifact
  /-- The wheels in memory, with the time at which they expire. -/
  onDemand : List (Artifact × Nat)
  fallback : List (Text × Nat)
  now : Nat
  configLock : Option Nat
  held : List Lock
  /-- The generations that became ready, with the servers of that moment. -/
  readied : List (Nat × Servers)
  /-- The published wheels, each with the generation of that moment. -/
  published : List (Nat × Artifact)

def onDemandWheelTtl : Nat := 300

def onDemandWheelLimit : Nat := 64 * 1024 * 1024

variable (p : Proxy)

/-- The wheels that the disk cache gives. -/
def Proxy.readable : List Artifact := if p.enabled then p.wheels else []

def Proxy.cached (ns name : Text) : List Text :=
  listCachedWheels (p.readable.map Artifact.filename) ns name

variable (filename : Text)

def Proxy.getWheel : Option Artifact := p.readable.find? (·.filename = filename)

variable (wheel : Artifact)

def Proxy.putWheel : Proxy :=
  { p with wheels := wheel :: p.wheels.filter (·.filename ≠ wheel.filename),
           published := p.published ++ [(p.generation, wheel)] }

/-- `none` stands for a storage error; `written` tells whether the disk takes
the file. -/
def Proxy.cacheDownloadedWheel (written : Bool) : Option Proxy :=
  if p.enabled && written then some (p.putWheel wheel) else none

def storeSize (store : List (Artifact × Nat)) : Nat := (store.map fun entry => entry.1.data.length).sum

/-- The oldest wheels make room for one of this size. -/
def makeRoom (size : Nat) : List (Artifact × Nat) → List (Artifact × Nat)
  | [] => []
  | entry :: rest =>
    if onDemandWheelLimit < storeSize (entry :: rest) + size then makeRoom size rest
    else entry :: rest

def setOnDemand (entry : Artifact × Nat) (store : List (Artifact × Nat)) : List (Artifact × Nat) :=
  if store.any (·.1.filename = entry.1.filename) then
    store.map fun old => if old.1.filename = entry.1.filename then entry else old
  else store ++ [entry]

def Proxy.rememberOnDemandWheel : Proxy :=
  if onDemandWheelLimit < wheel.data.length then p
  else
    let live := p.onDemand.filter fun entry => p.now < entry.2
    { p with onDemand := setOnDemand (wheel, p.now + onDemandWheelTtl)
               (makeRoom wheel.data.length live),
             published := p.published ++ [(p.generation, wheel)] }

def Proxy.takeOnDemandWheel : Option Artifact × Proxy :=
  (((p.onDemand.find? (·.1.filename = filename)).filter fun entry => p.now < entry.2).map Prod.fst,
    { p with onDemand := p.onDemand.filter (·.1.filename ≠ filename) })

/-- The disk cache is asked first, then the store in memory. -/
def Proxy.lookUp : Option Artifact × Proxy :=
  match p.getWheel filename with
  | some wheel => (some wheel, p)
  | none => p.takeOnDemandWheel filename

/-- To the disk or, if that fails, to the store in memory. -/
def Proxy.publish (written : Bool) : Proxy :=
  (p.cacheDownloadedWheel wheel written).getD (p.rememberOnDemandWheel wheel)

def Proxy.dropExpired : Proxy :=
  { p with fallback := p.fallback.filter fun entry => p.now < entry.2,
           onDemand := p.onDemand.filter fun entry => p.now < entry.2 }

def Proxy.release (locks : List Lock) : Proxy := { p with held := p.held.filter (· ∉ locks) }

/-- A configuration change takes the proxy out of service. -/
def Proxy.retire : Proxy :=
  { p with ready := false, enabled := false, generation := p.generation + 1,
           onDemand := [], fallback := [] }

/-- Where the thread of `bind_config` is. -/
inductive BindPhase where
  | start | clear | write | enable | bound

variable (fingerprint : Fingerprint)

/-- One step of `bind_config` with this fingerprint and flag. -/
def bindStep (managed : Bool) (p : Proxy) : BindPhase → Proxy × BindPhase
  | .start =>
    ({ p with enabled := false },
      if p.identity = some (fingerprint, managed) then .enable
      else if p.identity.map Prod.fst = some fingerprint then .write
      else .clear)
  | .clear => ({ p with wheels := [] }, .write)
  | .write => ({ p with identity := some (fingerprint, managed) }, .enable)
  | .enable => ({ p with enabled := true }, .bound)
  | .bound => (p, .bound)

/-- `bind_config` without interruption. -/
def bindConfig (managed : Bool) (p : Proxy) : Proxy :=
  let first := bindStep fingerprint managed p .start
  let second := bindStep fingerprint managed first.1 first.2
  let third := bindStep fingerprint managed second.1 second.2
  (bindStep fingerprint managed third.1 third.2).1

inductive Request where
  | prepare (specs : List Text)
  | page (packageName : Text)
  | wheel (filename : Text)

inductive Reply where
  | accepted (names : List Text)
  | prepared (wheels failed : List Text)
  | page (wheels : List Text)
  | wheel (artifact : Artifact)
  | passthrough (packageName : Text)
  | refused (status : Nat)

structure Prepare where
  specs : List Text
  generation : Nat
  satisfied : List Text := []
  unresolved : List Text := []
  acquired : List Text := []
  prepared : List Text := []
  failed : List Text := []

/-- The three checks of the specs in `prepare_collections`. -/
inductive Stage where
  | first | locked | final

/-- A handler that reads the configuration and downloads. -/
inductive Work where
  | prepare (frame : Prepare)
  | page (ns name : Text) (generation : Nat)
  | serve (ns name version : Text) (generation : Nat)

def Work.generation : Work → Nat
  | .prepare frame => frame.generation
  | .page _ _ generation => generation
  | .serve _ _ _ generation => generation

/-- The status of the answer when the download raises: in a prepare nothing catches it. -/
def Work.failure : Work → Nat
  | .prepare _ => 500
  | .page _ _ _ | .serve _ _ _ _ => 502

def downloadKey (ns name version : Text) : Text := ns ++ '.' :: name ++ ':' :: version

def latest : Text := "latest".toList

def Work.locks : Work → List Lock
  | .prepare frame => frame.acquired.map .prepare
  | .page ns name _ => [.download (downloadKey ns name latest)]
  | .serve ns name version _ => [.download (downloadKey ns name version)]

/-- Where the thread of `_get_galaxy_config` is. -/
inductive ConfigRead where
  | unread | refused | passed | found (source : Source)

inductive Purpose where
  | update (desired : List ServerConfig)
  | native (request : Request)

/-- A configuration change that has taken the proxy out of service. -/
structure Change where
  purpose : Purpose
  key : Text
  fingerprint : Fingerprint

def Change.managed (change : Change) : Bool :=
  match change.purpose with
  | .update _ => true
  | .native _ => false

/-- A suspended handler.  The optional arguments are results of threads that may
not be there yet. -/
inductive Task where
  | updateLock (desired : List ServerConfig)
  | updateProbe (desired : List ServerConfig) (changed : Bool) (found : Option Text)
  | updateFingerprint (desired : List ServerConfig) (changed : Bool) (key : Text)
      (found : Option Fingerprint)
  | updateRebind (desired : List ServerConfig) (key : Text) (found : Option Fingerprint)
  | nativeProbe (request : Request) (found : Option Text)
  | nativeLock (request : Request)
  | nativeReprobe (request : Request) (found : Option (Option Text × Text))
  | nativeFingerprint (request : Request) (cfgPath : Option Text) (key : Text)
      (found : Option Fingerprint)
  | bind (change : Change) (phase : BindPhase)
  | enter (request : Request)
  | prepareCheck (frame : Prepare) (stage : Stage) (handoff : List (Artifact × Nat))
      (found : Option (List Text))
  | prepareLocks (frame : Prepare) (keys : List Text)
  | prepareList (frame : Prepare) (found : Option (List Text))
  | pageLock (ns name : Text) (generation : Nat)
  | serveLock (filename ns name version : Text)
  | config (work : Work) (read : ConfigRead)
  | download (work : Work) (source : Source) (started : Nat)
  | convert (frame : Prepare) (source : Source) (started tarballs : Nat)

/-- What a suspended handler can be woken by: its thread takes a step, the
thread's result or the lock is there, the download ends, a tarball is converted,
or an exception. -/
inductive Event (World : Type) where
  | thread (seen : World)
  | resumed
  | acquired
  | downloaded (tarballs : Nat) (failed : List Text)
  | converted (wheel : Option (Text × List UInt8)) (written : Bool)
  | raised

inductive After where
  | suspended (task : Task)
  | replied (reply : Reply)

abbrev Outcome := Proxy × After

section Updates

variable {World : Type} (host : Host World)

def isServerNameChar (c : Char) : Bool := c.isAlphanum || c = '_' || c = '-'

/-- The checks of `update_galaxy_config` on the servers of a request. -/
def serversAccepted : List Text → List ServerPayload → Bool
  | _, [] => true
  | seen, server :: rest =>
    let name := Text.strip server.name
    name ≠ [] && name.all isServerNameChar && !seen.contains (name.map Char.toUpper) &&
      host.validServerUrl server.url && serversAccepted (name.map Char.toUpper :: seen) rest

def orNone (text : Text) : Option Text := if text = [] then none else some text

variable (body : List ServerPayload)

def desiredServers : List ServerConfig :=
  body.map fun s =>
    { name := Text.strip s.name, url := s.url, token := orNone s.token,
      authUrl := orNone s.authUrl, validateCerts := s.validateCerts }

/-- The start of `update_galaxy_config`, for a request with the admin token. -/
def startUpdate : After :=
  if serversAccepted host [] body then .suspended (.updateLock (desiredServers body))
  else .replied (.refused 422)

def acceptedReply (desired : List ServerConfig) : Reply := .accepted (desired.map ServerConfig.name)

variable (p : Proxy)

/-- What `update_galaxy_config` does once it knows whether something changed. -/
def settleUpdate (desired : List ServerConfig) (changed : Bool) (key : Text)
    (found : Option Fingerprint) : Outcome :=
  if changed || !p.ready || !p.managed then
    match found with
    | some fingerprint => (p.retire, .suspended (.bind ⟨.update desired, key, fingerprint⟩ .start))
    | none => (p.retire, .suspended (.updateRebind desired key none))
  else ({ p with probe := key, configLock := none }, .replied (acceptedReply desired))

/-- After the reconciliation the middleware refuses collection paths while the
configuration is not restored. -/
def afterReconcile (request : Request) : After :=
  match request with
  | .prepare _ => .suspended (.enter request)
  | .page _ => if p.ready then .suspended (.enter request) else .replied (.refused 503)
  | .wheel _ => if p.ready then .suspended (.enter request) else .replied (.refused 503)

/-- Back in service with these servers. -/
def Proxy.restore (change : Change) (servers : Servers) (cfgPath : Option Text)
    (managed : Bool) : Proxy :=
  { p with servers := servers, cfgPath := cfgPath, managed := managed,
           fingerprint := change.fingerprint, ready := true, probe := change.key,
           configLock := none, readied := p.readied ++ [(p.generation, servers)] }

/-- The end of a configuration change.  In native mode the servers stay. -/
def install (change : Change) : Outcome :=
  match change.purpose with
  | .update desired => (p.restore change (some desired) none true, .replied (acceptedReply desired))
  | .native request =>
    let q := p.restore change p.servers p.cfgPath p.managed
    (q, afterReconcile q request)

def nativeConfig (seen : World) (p : Proxy) : Option Text := p.cfgPath <|> host.envConfig seen

def Request.isCollection : Request → Bool
  | .page packageName => isCollectionPackage (normalizePep503 packageName)
  | .prepare _ | .wheel _ => true

/-- The middleware, up to its first suspension.  Requests for other packages are
not reconciled. -/
def arrive (request : Request) : After :=
  if !request.isCollection then .suspended (.enter request)
  else if p.managed then afterReconcile p request
  else .suspended (.nativeProbe request none)

/-- The tasks that change the configuration. -/
def advanceChange (id : Nat) : Task → Event World → Option Outcome
  | .updateLock desired, .acquired =>
    if p.configLock = none then
      some ({ p with configLock := some id },
        .suspended (.updateProbe desired (some desired ≠ p.servers || p.cfgPath.isSome) none))
    else none
  | .updateProbe desired changed none, .thread seen =>
    some (p, .suspended (.updateProbe desired changed
      (some (host.sourceProbe seen (some desired) none))))
  | .updateProbe desired changed (some key), .resumed =>
    if key = p.probe then some (settleUpdate p desired changed key none)
    else some (p, .suspended (.updateFingerprint desired changed key none))
  | .updateFingerprint desired changed key none, .thread seen =>
    some (p, .suspended (.updateFingerprint desired changed key
      (some (host.sourceFingerprint seen (some desired) none))))
  | .updateFingerprint desired changed key (some fingerprint), .resumed =>
    some (settleUpdate p desired (changed || fingerprint ≠ p.fingerprint) key (some fingerprint))
  | .updateRebind desired key none, .thread seen =>
    some (p, .suspended (.updateRebind desired key
      (some (host.sourceFingerprint seen (some desired) none))))
  | .updateRebind desired key (some fingerprint), .resumed =>
    some (p, .suspended (.bind ⟨.update desired, key, fingerprint⟩ .start))
  | .nativeProbe request none, .thread seen =>
    some (p, .suspended (.nativeProbe request
      (some (host.sourceProbe seen p.servers (nativeConfig host seen p)))))
  | .nativeProbe request (some key), .resumed =>
    if key = p.probe && p.ready then some (p, afterReconcile p request)
    else some (p, .suspended (.nativeLock request))
  | .nativeLock request, .acquired =>
    if p.configLock = none then
      if p.managed then some (p, afterReconcile p request)
      else some ({ p with configLock := some id }, .suspended (.nativeReprobe request none))
    else none
  | .nativeReprobe request none, .thread seen =>
    some (p, .suspended (.nativeReprobe request (some (nativeConfig host seen p,
      host.sourceProbe seen p.servers (nativeConfig host seen p)))))
  | .nativeReprobe request (some (cfgPath, key)), .resumed =>
    if key = p.probe && p.ready then
      some ({ p with configLock := none }, afterReconcile p request)
    else some (p, .suspended (.nativeFingerprint request cfgPath key none))
  | .nativeFingerprint request cfgPath key none, .thread seen =>
    some (p, .suspended (.nativeFingerprint request cfgPath key
      (some (host.sourceFingerprint seen p.servers cfgPath))))
  | .nativeFingerprint request _ key (some fingerprint), .resumed =>
    if fingerprint = p.fingerprint && p.ready then
      some ({ p with probe := key, configLock := none }, afterReconcile p request)
    else some (p.retire, .suspended (.bind ⟨.native request, key, fingerprint⟩ .start))
  | .bind change .bound, .resumed => some (install p change)
  | .bind change phase, .thread _ =>
    some ((bindStep change.fingerprint change.managed p phase).1,
      .suspended (.bind change (bindStep change.fingerprint change.managed p phase).2))
  | _, _ => none

end Updates

section Requests

variable {World : Type} (host : Host World)

def maxSpecs : Nat := 100

def maxSpecLength : Nat := 255

variable (p : Proxy)

def startPrepare (specs : List Text) : After :=
  let stripped := specs.map Text.strip
  if specs = [] ∨ maxSpecs < specs.length then .replied (.refused 422)
  else if !p.ready then .replied (.refused 503)
  else if specs.any fun spec => maxSpecLength < spec.length then .replied (.refused 422)
  else if stripped.any fun spec => !host.validCollectionSpec spec then .replied (.refused 422)
  else
    .suspended (.prepareCheck { specs := stripped, generation := p.generation } .first p.onDemand
      none)

def named (ns name : Text) (filename : Text) : Bool := (distName ns name ++ ['-']) <+: filename

def startPage (packageName : Text) : Outcome :=
  let normalized := normalizePep503 packageName
  if isCollectionPackage normalized then
    if p.ready then
      match pythonToFqcn normalized with
      | .error _ => (p, .replied (.refused 404))
      | .ok (ns, name) =>
        let q := p.dropExpired
        let wheels := (p.cached ns name ++ (q.fallback.map Prod.fst).filter (named ns name) ++
          (q.onDemand.map fun entry => entry.1.filename).filter (named ns name)).dedup
        if wheels = [] then (q, .suspended (.pageLock ns name p.generation))
        else (q, .replied (.page (sorted wheels)))
    else (p, .replied (.refused 503))
  else (p, .replied (.passthrough normalized))

variable (filename : Text)

/-- The collection and the version of a wheel's file name. -/
def wheelRequest : Option (Text × Text × Text) :=
  let dist := if '-' ∈ filename then filename.takeWhile (· ≠ '-') else []
  let pkgName := normalizePep503 (hyphenated dist)
  if isCollectionPackage pkgName then
    match pythonToFqcn pkgName, (Text.replaceAll ".whl".toList [] 0 filename).splitOn '-' with
    | .ok (ns, name), _ :: version :: _ :: _ :: _ :: _ => some (ns, name, version)
    | _, _ => none
  else none

def isWheelFilename : Bool :=
  ".whl".toList <:+ filename && '/' ∉ filename && '\\' ∉ filename && !("..".toList <:+: filename)

/-- A wheel without contents counts as none. -/
def present (found : Option Artifact) : Option Artifact := found.filter fun wheel => wheel.data ≠ []

def startServe : Outcome :=
  if isWheelFilename filename then
    if p.ready then
      match present (p.lookUp filename).1 with
      | some wheel => ((p.lookUp filename).2, .replied (.wheel wheel))
      | none =>
        match wheelRequest filename with
        | some (ns, name, version) =>
          ((p.lookUp filename).2, .suspended (.serveLock filename ns name version))
        | none => ((p.lookUp filename).2, .replied (.refused 404))
    else (p, .replied (.refused 503))
  else (p, .replied (.refused 404))

def start : Request → Outcome
  | .prepare specs => (p, startPrepare host p specs)
  | .page packageName => startPage p packageName
  | .wheel filename => startServe p filename

def specName (spec : Text) : Text := spec.takeWhile (· ≠ ':')

def lockKeys (unresolved : List Text) : List Text :=
  sorted (unresolved.map fun spec => (specName spec).map Char.toLower).dedup

/-- The handler ends with a conflict if the generation is not its own. -/
def requireCurrent (work : Work) (next : Outcome) : Outcome :=
  if work.generation = p.generation then next
  else (p.release work.locks, .replied (.refused 409))

variable (frame : Prepare)

def checkSpecs (stage : Stage) : Task := .prepareCheck frame stage p.onDemand none

/-- The specs that a check is about. -/
def Prepare.subject : Stage → List Text
  | .first => frame.specs
  | .locked => frame.unresolved
  | .final => frame.unresolved

def constraintStart (c : Char) : Bool :=
  c = '<' || c = '>' || c = '!' || c = '=' || c = '~' || c = '*'

/-- The wheel that a failed exact pin still names. -/
def fallbackName (spec : Text) : Option Text :=
  match Text.splitOnce ':' spec with
  | none => none
  | some (fqcn, requested) =>
    if requested = [] ∨ requested.head?.any constraintStart then none
    else (Text.splitOnce '.' fqcn).map fun parts => wheelFilename parts.1 parts.2 requested

def setFallback (store : List (Text × Nat)) (entry : Text × Nat) : List (Text × Nat) :=
  if store.any (·.1 = entry.1) then
    store.map fun old => if old.1 = entry.1 then entry else old
  else store ++ [entry]

def maxFallback : Nat := 500

/-- The specs that failed, of the download and of the last check. -/
def Prepare.failures : List Text :=
  frame.unresolved.foldl
    (fun failed spec =>
      if spec ∉ frame.satisfied && spec ∉ failed then failed ++ [spec] else failed) frame.failed

/-- The links that are kept for failed specs. -/
def Proxy.fallbackAfter (failed : List Text) : List (Text × Nat) :=
  let live := p.fallback.filter fun entry => p.now < entry.2
  let stored := (failed.filterMap fallbackName).foldl
    (fun store name => setFallback store (name, p.now + onDemandWheelTtl)) live
  stored.drop (stored.length - maxFallback)

/-- The end of `prepare_collections`. -/
def finishPrepare : Outcome :=
  (({ p with fallback := p.fallbackAfter frame.failures }).release (Work.prepare frame).locks,
    .replied (.prepared (sorted frame.prepared.dedup) (sorted frame.failures.dedup)))

/-- After a check of the specs. -/
def afterCheck (found : List Text) : Stage → Outcome
  | .first =>
    let unresolved := frame.specs.filter (· ∉ found)
    let next := { frame with satisfied := found, unresolved := unresolved }
    if lockKeys unresolved = [] then (p, .suspended (checkSpecs p next .locked))
    else (p, .suspended (.prepareLocks next (lockKeys unresolved)))
  | .locked =>
    (p, .suspended (.prepareList
      { frame with satisfied := frame.satisfied ++ found,
                   unresolved := frame.unresolved.filter (· ∉ found) } none))
  | .final => finishPrepare p { frame with satisfied := frame.satisfied ++ found }

def listPrepared : List Text :=
  sorted ((frame.satisfied.flatMap fun spec =>
    match Text.splitOnce '.' (specName spec) with
    | some (ns, name) => p.cached ns name
    | none => []).dedup)

/-- `_get_galaxy_config` behind its check, with `_download_auth`. -/
def galaxyConfig (seen : World) (p : Proxy) : Source :=
  let cfgPath := p.cfgPath <|> (host.envConfig seen).filter (host.isFile seen)
  let servers :=
    match p.servers, cfgPath with
    | none, some path => host.loadServersFromAnsibleCfg seen path
    | servers, _ => servers
  downloadAuth cfgPath servers

/-- One round of the loop over the tarballs.  The check raises inside of the loop,
where every exception is caught. -/
def convertOne (source : Source) (started : Nat)
    (wheel : Option (Text × List UInt8)) (written : Bool) : Proxy × Prepare :=
  match wheel with
  | none => (p, frame)
  | some (filename, data) =>
    if frame.generation = p.generation then
      (p.publish ⟨filename, data, source, started⟩ written,
        { frame with prepared := frame.prepared ++ [filename] })
    else (p, frame)

def afterConvert : Outcome :=
  requireCurrent p (.prepare frame) (p, .suspended (checkSpecs p frame .final))

/-- The tasks of the handlers that read and publish wheels. -/
def advanceRequest : Task → Event World → Option Outcome
  | .enter request, .resumed => some (start host p request)
  | .prepareCheck frame stage handoff none, .thread _ =>
    some (p, .suspended (.prepareCheck frame stage handoff (some ((frame.subject stage).filter
      (host.cacheSatisfiesSpec p.readable (handoff.map Prod.fst))))))
  | .prepareCheck frame stage _ (some found), .resumed =>
    some (requireCurrent p (.prepare frame) (afterCheck p frame found stage))
  | .prepareLocks frame (key :: rest), .acquired =>
    if Lock.prepare key ∈ p.held then none
    else
      let q := { p with held := .prepare key :: p.held }
      let next := { frame with acquired := frame.acquired ++ [key] }
      if rest = [] then
        some (requireCurrent q (.prepare next) (q, .suspended (checkSpecs q next .locked)))
      else some (q, .suspended (.prepareLocks next rest))
  | .prepareList frame none, .thread _ =>
    some (p, .suspended (.prepareList frame (some (listPrepared p frame))))
  | .prepareList frame (some found), .resumed =>
    let next := { frame with prepared := found }
    some (requireCurrent p (.prepare next)
      (if next.unresolved = [] then finishPrepare p next
       else (p, .suspended (.config (.prepare next) .unread))))
  | .pageLock ns name generation, .acquired =>
    let work := Work.page ns name generation
    if Lock.download (downloadKey ns name latest) ∈ p.held then none
    else if generation ≠ p.generation then some (p, .replied (.refused 409))
    else if p.cached ns name = [] then
      some ({ p with held := work.locks ++ p.held }, .suspended (.config work .unread))
    else some (p, .replied (.page (p.cached ns name)))
  | .serveLock filename ns name version, .acquired =>
    let work := Work.serve ns name version p.generation
    if Lock.download (downloadKey ns name version) ∈ p.held then none
    else if p.ready then
      match present (p.lookUp filename).1 with
      | some wheel => some ((p.lookUp filename).2, .replied (.wheel wheel))
      | none =>
        some ({ (p.lookUp filename).2 with held := work.locks ++ p.held },
          .suspended (.config work .unread))
    else some (p, .replied (.refused 503))
  | .config work .unread, .thread _ =>
    some (p, .suspended (.config work (if p.ready then .passed else .refused)))
  | .config work .passed, .thread seen =>
    some (p, .suspended (.config work (.found (galaxyConfig host seen p))))
  | .config work .refused, .resumed => some (p.release work.locks, .replied (.refused 503))
  | .config work (.found source), .resumed =>
    some (p, .suspended (.download work source p.generation))
  | .download (.prepare frame) source started, .downloaded tarballs failed =>
    let next := { frame with failed := failed }
    if tarballs = 0 then some (afterConvert p next)
    else some (p, .suspended (.convert next source started tarballs))
  | .download (.page ns name generation) source started, .converted (some (filename, data)) written =>
    let work := Work.page ns name generation
    some (requireCurrent p work
      ((p.publish ⟨filename, data, source, started⟩ written).release work.locks,
        .replied (.page [filename])))
  | .download (.serve ns name version generation) source started,
      .converted (some (filename, data)) written =>
      let work := Work.serve ns name version generation
      let wheel : Artifact := ⟨filename, data, source, started⟩
      some (requireCurrent p work
        (((p.cacheDownloadedWheel wheel written).getD p).release work.locks,
          .replied (.wheel wheel)))
  | .download work _ _, .raised => some (p.release work.locks, .replied (.refused work.failure))
  | .convert frame source started (tarballs + 1), .converted wheel written =>
    let result := convertOne p frame source started wheel written
    if tarballs = 0 then some (afterConvert result.1 result.2)
    else some (result.1, .suspended (.convert result.2 source started tarballs))
  | _, _ => none

end Requests

section System

variable {World : Type} (host : Host World) (p : Proxy)

/-- What a handler holds when an exception or a cancellation ends it.  A binding
under way is finished first. -/
def Task.abandon : Task → Option Proxy
  | .updateProbe _ _ _ | .updateFingerprint _ _ _ _ | .updateRebind _ _ _ | .nativeReprobe _ _
  | .nativeFingerprint _ _ _ _ | .bind _ .bound => some { p with configLock := none }
  | .bind _ _ => none
  | .prepareCheck frame _ _ _ | .prepareLocks frame _ | .prepareList frame _
  | .convert frame _ _ _ => some (p.release (Work.prepare frame).locks)
  | .config work _ | .download work _ _ => some (p.release work.locks)
  | .updateLock _ | .nativeProbe _ _ | .nativeLock _ | .enter _ | .pageLock _ _ _
  | .serveLock _ _ _ _ => some p

def advance (id : Nat) (task : Task) (event : Event World) : Option Outcome :=
  ((advanceChange host p id task event).or (advanceRequest host p task event)).or
    (match event with
      | .raised => (task.abandon p).map fun q => (q, .replied (.refused 500))
      | _ => none)

structure System where
  proxy : Proxy
  tasks : Nat → Option Task
  replies : List (Nat × Reply)

def System.after (s : System) (id : Nat) (outcome : Outcome) : System :=
  match outcome.2 with
  | .suspended task => { s with proxy := outcome.1, tasks := Function.update s.tasks id (some task) }
  | .replied reply =>
    { proxy := outcome.1, tasks := Function.update s.tasks id none,
      replies := s.replies ++ [(id, reply)] }

/-- `create_app`, over what the disk holds. -/
def createApp (seen : World) (servers : Servers) (cfgPath : Option Text) (requireGateway : Bool)
    (identity : Option (Fingerprint × Bool)) (wheels : List Artifact) : Option Proxy :=
  let initialCfg := cfgPath <|> host.envConfig seen
  let fingerprint := host.sourceFingerprint seen servers initialCfg
  let verified := identity.map Prod.fst = some fingerprint ∨ wheels = []
  let ready := !requireGateway && verified
  let p : Proxy :=
    { servers := servers, cfgPath := cfgPath, ready := ready, managed := requireGateway,
      generation := 0, fingerprint := fingerprint,
      probe := host.sourceProbe seen servers initialCfg, enabled := false, identity := identity,
      wheels := wheels, onDemand := [], fallback := [], now := 0, configLock := none, held := [],
      readied := if ready then [(0, servers)] else [], published := [] }
  if cfgPath.isSome && servers.any (· ≠ []) then none
  else some (if ready then bindConfig fingerprint false p else p)

def launch : System := ⟨p, fun _ => none, []⟩

inductive Label (World : Type) where
  | update (id : Nat) (body : List ServerPayload)
  | request (id : Nat) (request : Request)
  | wake (id : Nat) (event : Event World)
  | pass (seconds : Nat)
  /-- The process ends at any point, and another one starts over the same disk. -/
  | restart (seen : World) (servers : Servers) (cfgPath : Option Text) (requireGateway : Bool)

def step (s : System) : Label World → Option System
  | .update id body =>
    if (s.tasks id).isSome then none else some (s.after id (s.proxy, startUpdate host body))
  | .request id request =>
    if (s.tasks id).isSome then none else some (s.after id (s.proxy, arrive s.proxy request))
  | .wake id event =>
    (s.tasks id).bind fun task => (advance host s.proxy id task event).map (s.after id)
  | .pass seconds => some { s with proxy := { s.proxy with now := s.proxy.now + seconds } }
  | .restart seen servers cfgPath requireGateway =>
    (createApp host seen servers cfgPath requireGateway s.proxy.identity s.proxy.wheels).map launch

end System

end Apme.Galaxy
