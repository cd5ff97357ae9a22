import Mathlib.Algebra.GroupWithZero.Nat
import Mathlib.Data.String.Basic
import Apme.Lib.Fields

/-!
# The working set of proposals of a scan

While a remediation runs, the proposals of the engine are stored as rows that
carry the engine's id.  An answer at the gate stores `approved` or `declined` and
counts the decision in the analytics.  When the fix is completed the rows are
built again from the violations; a rebuilt row takes the id, the flags and the
decision of the one earlier row that has its file, source, rule and lines.  A
flush counts the rows that are not counted yet and deletes them all.
-/

set_option autoImplicit false

namespace Apme.Gateway.Proposals

open Apme.Lib

def pending : Text := "pending".toList
def proposed : Text := "proposed".toList
def approved : Text := "approved".toList
def accepted : Text := "accepted".toList
def declined : Text := "declined".toList
def rejected : Text := "rejected".toList

def sourceDeterministic : Text := "deterministic".toList
def sourceAi : Text := "ai".toList
def sourceAiCandidate : Text := "ai-candidate".toList
def sourceOutcome : Text := "outcome".toList

def gateTier1 : Text := "tier1".toList
def gateAi : Text := "ai".toList

/-- `text or other`. -/
def orElse (text other : Text) : Text := if text = [] then other else text

def lower (text : Text) : Text := text.map Char.toLower

structure Row where
  id : Nat
  proposalId : Text
  engineId : Option Text
  ruleId : Text
  ruleIds : List Text
  file : Text
  path : Text
  lineStart : Nat
  lineEnd : Nat
  tier : Nat
  source : Text
  gate : Text
  status : Text
  flushed : Bool
  draft : Bool
  deriving DecidableEq

/-- A proposal as the engine sends it; an empty text or no number is missing. -/
structure RawProposal where
  id : Text
  engineProposalId : Text := []
  file : Text := []
  ruleId : Text := []
  path : Text := []
  tier : Option Nat := none
  source : Text := []
  gate : Text := []
  status : Text := []
  lineStart : Option Nat := none
  lineEnd : Option Nat := none

structure StubPayload where
  raw : RawProposal
  engineId : Text
  primaryRule : Text
  ruleParts : List Text
  tier : Nat
  source : Text
  gate : Text
  status : Text
  archivalId : Text

def gateForSource (source : Text) (tier : Nat) : Text :=
  if source = sourceAi ∨ source = sourceAiCandidate ∨ 2 ≤ tier then gateAi
  else if source = sourceDeterministic ∨ tier = 1 then gateTier1
  else []

variable (status : Text)

def normalizeStatus : Text :=
  let lowered := Text.strip (lower status)
  if lowered = proposed then pending
  else if lowered = rejected then declined
  else lowered

variable (digest : Text → Text)

/-- `digest` gives the first twelve digits of the hash. -/
def archivalProposalId (file path gate ruleId engineId : Text) : Text :=
  let rest := ruleId ++ ':' :: engineId
  let material := if path = [] then file ++ ':' :: rest else file ++ ':' :: path ++ ':' :: rest
  "prop-".toList ++ orElse gate "na".toList ++ '-' :: digest material

def ruleParts (ruleId : Text) : List Text :=
  if Text.fields ',' ruleId = [] ∧ ruleId ≠ [] then [ruleId] else Text.fields ',' ruleId

def prepareStubPayload (raw : RawProposal) : Option StubPayload :=
  let engineId := Text.strip (orElse raw.id raw.engineProposalId)
  if engineId = [] then none
  else
    let tier := raw.tier.getD 0
    let source := orElse raw.source (if 2 ≤ tier then sourceAi else sourceDeterministic)
    let gate := orElse raw.gate (gateForSource source tier)
    let primary := (ruleParts raw.ruleId).headD []
    some
      { raw := raw, engineId := engineId, primaryRule := primary,
        ruleParts := ruleParts raw.ruleId, tier := tier, source := source, gate := gate,
        status := normalizeStatus (orElse raw.status pending),
        archivalId := archivalProposalId digest raw.file raw.path gate (orElse primary raw.ruleId)
          engineId }

/-- The last stored row. -/
def newest : List Row → Option Row
  | [] => none
  | row :: rest =>
    match newest rest with
    | none => some row
    | some best => if best.id ≤ row.id then some row else some best

/-- The row that is kept for each key, and the rows that are dropped. -/
def reconcile (key : Row → Option Text) (rows : List Row) : List (Text × Nat) × List Nat :=
  let keys := (rows.filterMap key).dedup
  let members := fun k => rows.filter fun row => key row = some k
  (keys.filterMap fun k => (newest (members k)).map fun row => (k, row.id),
    keys.flatMap fun k => ((members k).map Row.id).filter fun id =>
      (newest (members k)).map Row.id ≠ some id)

/-- The engine's id, if the row has one. -/
def Row.engineKey (row : Row) : Option Text := row.engineId.filter (· ≠ [])

/-- The engine's id without blanks around it, empty if there is none. -/
def Row.engine (row : Row) : Text := Text.strip (row.engineId.getD [])

structure Preload where
  rows : List Row
  byEngine : List (Text × Nat) := []
  byArchival : List (Text × Nat) := []
  discarded : List Nat := []

/-- One query with the ids of some payloads, and the duplicates it finds. -/
def preloadBatch (batch : List StubPayload) (p : Preload) : Preload :=
  let found := p.rows.filter fun row =>
    (batch.any fun item => row.engineId = some item.engineId) ||
      batch.any fun item => row.proposalId = item.archivalId
  let engines := reconcile Row.engineKey found
  let archivals := reconcile (fun row => some row.proposalId) found
  let dropped := engines.2 ++ archivals.2
  { rows := p.rows.filter fun row => row.id ∉ dropped,
    byEngine := engines.1 ++ p.byEngine,
    byArchival := archivals.1 ++ p.byArchival,
    discarded := dropped ++ p.discarded }

variable (chunk : Nat)

def preloadLimit : Nat := max 1 ((chunk - 1) / 2)

/-- All queries; the fuel is the number of payloads. -/
def preloadFrom (limit : Nat) : Nat → List StubPayload → Preload → Preload
  | 0, _, p => p
  | _, [], p => p
  | fuel + 1, items, p =>
    preloadFrom limit fuel (items.drop limit) (preloadBatch (items.take limit) p)

structure Batch where
  rows : List Row
  nextId : Nat
  byEngine : List (Text × Nat)
  byArchival : List (Text × Nat)

def preload (items : List StubPayload) (rows : List Row) (nextId : Nat) : Batch :=
  let p := preloadFrom (preloadLimit chunk) items.length items { rows := rows }
  { rows := p.rows, nextId := nextId,
    byEngine := p.byEngine.filter fun entry => entry.2 ∉ p.discarded,
    byArchival := p.byArchival.filter fun entry => entry.2 ∉ p.discarded }

def Batch.row (b : Batch) (id : Nat) : Option Row := b.rows.find? fun row => row.id = id

/-- The row that a payload is written to.  A row found by its archival id belongs
to the same engine proposal or to none. -/
def Batch.existing (b : Batch) (item : StubPayload) : Option Row :=
  match (b.byEngine.lookup item.engineId).bind b.row with
  | some row => some row
  | none =>
    ((b.byArchival.lookup item.archivalId).bind b.row).filter fun row =>
      row.engine = [] || row.engine = item.engineId

def stubRow (id : Nat) (item : StubPayload) : Row :=
  { id := id, proposalId := item.archivalId, engineId := some item.engineId,
    ruleId := item.primaryRule, ruleIds := item.ruleParts, file := item.raw.file,
    path := item.raw.path, lineStart := item.raw.lineStart.getD 0,
    lineEnd := item.raw.lineEnd.getD 0, tier := item.tier, source := item.source,
    gate := item.gate, status := item.status, flushed := false, draft := false }

def refresh (item : StubPayload) (row : Row) : Row :=
  { row with
    engineId := some item.engineId
    file := orElse item.raw.file row.file
    ruleId := orElse item.primaryRule row.ruleId
    path := orElse item.raw.path row.path
    source := orElse item.source row.source
    gate := orElse item.gate row.gate
    lineStart := item.raw.lineStart.getD row.lineStart
    lineEnd := item.raw.lineEnd.getD row.lineEnd
    tier := item.raw.tier.getD row.tier
    ruleIds := if item.ruleParts = [] then row.ruleIds else item.ruleParts
    status := if row.draft then row.status else item.status }

def setDefault (key : Text) (id : Nat) (map : List (Text × Nat)) : List (Text × Nat) :=
  if (map.lookup key).isSome then map else map ++ [(key, id)]

def upsertOne (b : Batch) (item : StubPayload) : Batch :=
  match b.existing item with
  | some row =>
    { b with rows := b.rows.map fun old => if old.id = row.id then refresh item old else old }
  | none =>
    { rows := b.rows ++ [stubRow b.nextId item], nextId := b.nextId + 1,
      byEngine := setDefault item.engineId b.nextId b.byEngine,
      byArchival := setDefault item.archivalId b.nextId b.byArchival }

/-- `chunk` is the number of values a query can bind. -/
def upsertLiveProposalStubs (proposals : List RawProposal)
    (rows : List Row) (nextId : Nat) : Batch :=
  let items := proposals.filterMap (prepareStubPayload digest)
  items.foldl upsertOne (preload chunk items rows nextId)

structure AnalyticsKey where
  projectId : Text
  ruleId : Text
  source : Text
  gate : Text
  tier : Nat
  coupled : Bool
  isGroup : Bool
  deriving DecidableEq

structure Counter where
  key : AnalyticsKey
  accepted : Nat
  declined : Nat

/-- `upsert_analytics_increment`: an increment is itself a counter. -/
def addIncrement (increment : Counter) : List Counter → List Counter
  | [] => [increment]
  | counter :: rest =>
    if counter.key = increment.key then
      { counter with accepted := counter.accepted + increment.accepted,
                     declined := counter.declined + increment.declined } :: rest
    else counter :: addIncrement increment rest

def decisionDelta : Nat × Nat :=
  if lower status = approved ∨ lower status = accepted then (1, 0)
  else if lower status = declined ∨ lower status = rejected then (0, 1)
  else (0, 0)

/-- The rules that a decision is counted for. -/
def countedRules (ruleIds : List Text) (ruleId : Text) : List Text :=
  let named := ruleIds.filter (· ≠ [])
  if named = [] ∧ ruleId ≠ [] then [ruleId] else named

def Row.rules (row : Row) : List Text := countedRules row.ruleIds row.ruleId

def Row.analyticsSource (row : Row) : Text :=
  let source := orElse row.source sourceOutcome
  let known := if source = sourceAiCandidate then sourceAi else source
  let lane :=
    if known = sourceOutcome then (if row.tier ≤ 1 then sourceDeterministic else sourceAi)
    else known
  if lane = sourceDeterministic then sourceDeterministic else sourceAi

def ruleGroupFingerprint (rules : List Text) : Text :=
  Text.joinFields '+' ((rules.filter (· ≠ [])).mergeSort (· ≤ ·))

/-- Whether more than one rule is concerned. -/
def Row.coupled (row : Row) : Bool := 1 < row.ruleIds.length || 1 < row.rules.length

def Row.counter (project : Text) (row : Row) (rule : Text) (coupled isGroup : Bool) : Counter :=
  { key := { projectId := project, ruleId := rule, source := row.analyticsSource,
             gate := row.gate, tier := row.tier, coupled := coupled, isGroup := isGroup },
    accepted := (decisionDelta row.status).1, declined := (decisionDelta row.status).2 }

/-- `analytics_increments`, for a project. -/
def Row.increments (project : Text) (row : Row) : List Counter :=
  if decisionDelta row.status = (0, 0) then []
  else
    row.rules.map (fun rule => row.counter project rule row.coupled false) ++
      if row.coupled && 1 < row.rules.length then
        [row.counter project (ruleGroupFingerprint row.rules) true true]
      else []

def record (increments : List Counter) (table : List Counter) : List Counter :=
  increments.foldl (fun table increment => addIncrement increment table) table

/-- The row is one that the gate was asked about. -/
def Row.isOffered (offeredIds : Option (List Text)) (row : Row) : Bool :=
  row.engine ≠ [] && offeredIds.all fun offered => row.engine ∈ offered

variable (approvedIds : List Text)

/-- The row with the gate's answer. -/
def Row.answered (row : Row) : Row :=
  { row with status := if row.engine ∈ approvedIds then approved else declined, draft := false }

def Row.commit (offeredIds : Option (List Text)) (row : Row) : Row :=
  if row.isOffered offeredIds then { row.answered approvedIds with flushed := true } else row

/-- A decision is counted if the row is not counted yet. -/
def Row.commitIncrements (project : Text) (approvedIds : List Text)
    (offeredIds : Option (List Text)) (row : Row) : List Counter :=
  if row.isOffered offeredIds && !row.flushed then (row.answered approvedIds).increments project
  else []

structure Group where
  proposalId : Text
  ruleId : Text
  ruleIds : List Text
  file : Text
  path : Text
  lineStart : Nat
  lineEnd : Nat
  tier : Nat
  source : Text
  gate : Text
  status : Text
  fixedYaml : Text

structure BridgeKey where
  file : Text
  source : Text
  rule : Text
  lineStart : Nat
  lineEnd : Option Nat
  deriving DecidableEq

def bridgeKey (file source ruleId : Text) (lineStart lineEnd : Nat) : BridgeKey :=
  { file := file, source := if source = sourceAiCandidate then sourceAi else source,
    rule := Text.strip ((ruleId.splitOn ',').headD []), lineStart := lineStart,
    lineEnd := if 0 < lineEnd then some lineEnd else none }

structure Bridges where
  prior : List (BridgeKey × Row) := []
  ambiguous : List BridgeKey := []

def Bridges.register (key : BridgeKey) (row : Row) (b : Bridges) : Bridges :=
  if key ∈ b.ambiguous then b
  else if (b.prior.lookup key).isSome then
    { prior := b.prior.filter (·.1 ≠ key), ambiguous := key :: b.ambiguous }
  else { b with prior := b.prior ++ [(key, row)] }

def Row.isLive (row : Row) : Bool := row.engineKey.isSome || row.draft || row.flushed

/-- A row with a last line can also be found without it. -/
def Bridges.add (b : Bridges) (row : Row) : Bridges :=
  if row.isLive then
    let first := b.register (bridgeKey row.file row.source row.ruleId row.lineStart row.lineEnd) row
    if 0 < row.lineEnd then
      first.register (bridgeKey row.file row.source row.ruleId row.lineStart 0) row
    else first
  else b

variable (rows : List Row)

def bridges : Bridges := rows.foldl Bridges.add {}

/-- The earlier row that a group continues. -/
def bridgedRow (group : Group) : Option Row :=
  let prior := (bridges rows).prior
  (prior.lookup
      (bridgeKey group.file group.source group.ruleId group.lineStart group.lineEnd)).or
    (prior.lookup (bridgeKey group.file group.source group.ruleId group.lineStart 0))

/-- A deterministic fix without an answer counts as approved. -/
def Group.ownStatus (group : Group) : Text :=
  if group.status = pending ∧ group.source = sourceDeterministic ∧ group.fixedYaml ≠ [] then approved
  else group.status

def isOpen : Bool := status = pending || status = proposed || status = []

def isTerminal : Bool := status = approved || status = declined

def rebuiltStatus (bridge : Option Row) (group : Group) : Text :=
  match bridge with
  | none => group.ownStatus
  | some row =>
    if isTerminal row.status && isOpen group.ownStatus then row.status else group.ownStatus

def rebuild (id : Nat) (group : Group) : Row :=
  let bridge := bridgedRow rows group
  { id := id, proposalId := group.proposalId, engineId := bridge.bind Row.engineId,
    ruleId := group.ruleId, ruleIds := group.ruleIds, file := group.file, path := group.path,
    lineStart := group.lineStart, lineEnd := group.lineEnd, tier := group.tier,
    source := group.source, gate := group.gate, status := rebuiltStatus bridge group,
    flushed := bridge.any Row.flushed, draft := bridge.any Row.draft }

def rebuildAll (rows : List Row) : Nat → List Group → List Row
  | _, [] => []
  | id, group :: rest => rebuild rows id group :: rebuildAll rows (id + 1) rest

section Scan

structure Scan where
  rows : List Row := []
  nextId : Nat := 1
  analytics : List Counter := []
  /-- The rows as the gate decided them, since the last flush. -/
  decided : List Row := []
  /-- The rows that a flush has deleted. -/
  ended : List Row := []

inductive Label where
  | upsert (proposals : List RawProposal)
  | commit (project : Text) (approvedIds : List Text) (offeredIds : Option (List Text))
  /-- An item that is not a grouped proposal is given as `none`. -/
  | replace (proposals : List (Option Group))
  | flush (project : Text)

variable (digest : Text → Text) (chunk : Nat) (s : Scan)

def upsert (proposals : List RawProposal) : Scan :=
  let batch := upsertLiveProposalStubs digest chunk proposals s.rows s.nextId
  { s with rows := batch.rows, nextId := batch.nextId }

def commitGateDecisions (project : Text) (approvedIds : List Text)
    (offeredIds : Option (List Text)) : Scan :=
  { s with
    rows := s.rows.map (Row.commit approvedIds offeredIds)
    analytics := record (s.rows.flatMap (Row.commitIncrements project approvedIds offeredIds))
      s.analytics
    decided := s.decided ++
      (s.rows.filter (Row.isOffered offeredIds)).map (Row.answered approvedIds) }

def replaceScanProposals (proposals : List (Option Group)) : Scan :=
  let typed := proposals.filterMap id
  if proposals ≠ [] ∧ typed = [] then s
  else { s with rows := rebuildAll s.rows s.nextId typed, nextId := s.nextId + typed.length }

def flushProposals (project : Text) : Scan :=
  { s with
    rows := []
    analytics := record ((s.rows.filter fun row => !row.flushed).flatMap (Row.increments project))
      s.analytics
    decided := []
    ended := s.ended ++ s.rows }

def step : Label → Option Scan
  | .upsert proposals => some (upsert digest chunk s proposals)
  | .commit project approvedIds offeredIds =>
    some (commitGateDecisions s project approvedIds offeredIds)
  | .replace proposals => some (replaceScanProposals s proposals)
  | .flush project => some (flushProposals s project)

end Scan

end Apme.Gateway.Proposals
