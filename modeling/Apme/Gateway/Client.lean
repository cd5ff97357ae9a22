import Apme.Gateway.Registry

/-!
# What the web client shows

`applyOperationSseEvent` folds the events of a stream, the snapshot first, into
the state that the client shows.  It is compared with the operation in the
registry on the status, the progress list, the proposals, the result and the
address of the pull request.
-/

set_option autoImplicit false

namespace Apme.Gateway

open Apme.Lib List Registry Subscriber Transition

/-- `byId.set(id, proposal)`: a key that is there keeps its place. -/
def setById (proposal : Proposal) : List Proposal → List Proposal
  | [] => [proposal]
  | other :: rest =>
    if other.id = proposal.id then proposal :: rest else other :: setById proposal rest

variable (proposals : List Proposal)

/-- The values of `new Map(proposals.map((p) => [p.id, p]))`. -/
def byId : List Proposal := proposals.foldl (fun entries proposal => setById proposal entries) []

/-- `String(item.engine_proposal_id || item.id || "")`. -/
def DraftRow.key (row : DraftRow) : String :=
  match row.engineProposalId.filter (· ≠ "") with
  | some id => id
  | none => if row.id = 0 then "" else toString row.id

def updateById (entries : List Proposal) (row : DraftRow) : List Proposal :=
  if row.key = "" then entries
  else
    match entries.find? fun proposal => proposal.id = row.key with
    | none => entries
    | some cur =>
      setById
        { cur with
          status := if row.status = "" then cur.status else row.status
          path := row.path
          source := row.source }
        entries

/-- `data.error ? { error: data.error } : {}`. -/
def truthy (text : Option String) : Option String := text.filter (· ≠ "")

def applyOperationSseEvent (prev : Option ProjectOperationState) :
    Message → Option ProjectOperationState
  | .snapshot state => some state
  | .statusChanged status _ error errorCode operationBudgetSeconds =>
    prev.map fun prev =>
      -- a stale applying while proposals await review
      if prev.status = .awaitingApproval ∧ status = .applying ∧ prev.proposals.getD [] ≠ [] then prev
      else
        { prev with
          status
          error := truthy error <|> prev.error
          errorCode := truthy errorCode <|> prev.errorCode
          operationBudgetSeconds :=
            operationBudgetSeconds.filter (· ≠ 0) <|> prev.operationBudgetSeconds }
  | .progress entry => prev.map fun prev => { prev with progress := prev.progress ++ [entry] }
  | .proposals proposals approvalGateId =>
    prev.map fun prev =>
      if prev.status ∈ terminalStatuses then prev
      else
        { prev with
          status := .awaitingApproval
          proposals := some proposals
          approvalGateId := approvalGateId <|> prev.approvalGateId }
  | .findings findings =>
    prev.map fun prev => { prev with status := .assessed, findings := some findings }
  | .aiTriage candidates =>
    prev.map fun prev =>
      { prev with status := .awaitingAiTriage, aiTriageCandidates := some candidates }
  | .proposalUpdated updates =>
    if updates = [] then prev
    else
      prev.map fun prev =>
        { prev with proposals := prev.proposals.map fun proposals =>
            updates.foldl updateById (byId proposals) }
  | .result result => prev.map fun prev => { prev with result := some result }
  | .approvalAck appliedCount =>
    prev.map fun prev =>
      { prev with
        status := .applying
        proposals := none
        result := prev.result.map fun result => { result with aiAccepted := appliedCount } }
  | .prCreated prUrl => prev.map fun prev => { prev with prUrl := some prUrl }
  | .errorEvent error => prev.map fun prev => { prev with error := some error }
  -- a close message ends the stream and is not sent
  | .close => prev

/-- What a client shows that has been sent these messages. -/
def shown (sent : List Message) : Option ProjectOperationState := sent.foldl applyOperationSseEvent none

/-- The client shows the operation. -/
structure Shows (client : ProjectOperationState) (op : OperationState) : Prop where
  status : client.status = op.toSnapshot.status
  progress : client.progress = op.toSnapshot.progress
  proposals : client.proposals = op.toSnapshot.proposals
  result : client.result = op.toSnapshot.result
  prUrl : client.prUrl = op.toSnapshot.prUrl

variable (r : Registry)

/-- Every client that has been sent its snapshot and has nothing left to
receive shows the operation. -/
def Registry.Mirrored : Prop :=
  ∀ sub ∈ r.subscribers, sub.stream ≠ .subscribed → sub.queue = [] →
    ∃ client, shown sub.delivered = some client ∧ Shows client r.op

/-- The rows of a draft update name the proposals by their engine ids and agree
with them on what the client also takes over. -/
def Faithful (rows : List DraftRow) : Prop :=
  (proposals.map Proposal.id).Nodup ∧
    ∀ row ∈ rows, ∀ proposal ∈ proposals, proposal.id = row.key → row.key ≠ "" →
      row.engineProposalId = some row.key ∧ row.path = proposal.path ∧ row.source = proposal.source

instance (proposals : List Proposal) (rows : List DraftRow) : Decidable (Faithful proposals rows) :=
  inferInstanceAs (Decidable (_ ∧ _))

/-- The client can follow the call: it is no approval that is acknowledged while
proposals are under review, and no draft update whose rows differ from the
proposals in more than the status. -/
def Registry.Followable : Call → Prop
  | .transition status _ _ =>
    ¬ (r.op.status = .awaitingApproval ∧ status = .applying ∧ r.op.proposals.getD [] ≠ [])
  | .patchDraft rows => rows = [] ∨ ∀ proposals ∈ r.op.proposals, Faithful proposals rows
  | _ => True

instance (r : Registry) (call : Call) : Decidable (r.Followable call) := by
  unfold Followable
  split <;> infer_instance

/-- The clients keep up, and a call that broadcasts something is one they can
follow, comes between no subscription and its snapshot, and does not come after
the end of the operation.  A stream goes on after the snapshot of an ended
operation only with messages that must be delivered. -/
def Registry.KeepsUp : RegistryLabel → Prop
  | .call call =>
    r.messages call = [] ∨
      r.Followable call ∧ (r.op.status ∉ terminalStatuses ∨ r.subscribers = []) ∧
        ∀ sub ∈ r.subscribers, sub.stream ≠ .subscribed ∧
          (sub.stream ≠ .closed → sub.queue.length + (r.messages call).length ≤ maxsize)
  | .stream index .resume =>
    r.op.status ∈ terminalStatuses → ∀ sub ∈ r.subscribers[index]?, ∀ msg ∈ sub.queue,
      msg.isMustDeliver ∨ msg = .close
  | .stream _ .disconnect => False
  | _ => True

instance (r : Registry) (label : RegistryLabel) : Decidable (r.KeepsUp label) := by
  unfold KeepsUp
  split <;> infer_instance

section Drafts

variable {proposals : List Proposal} {row : DraftRow}

/-- The status that a row gives to a proposal. -/
def DraftRow.restatus (row : DraftRow) (proposal : Proposal) : Proposal :=
  { proposal with status := if row.status = "" then proposal.status else row.status }

theorem restatus_id (prop : Proposal) : (row.restatus prop).id = prop.id := rfl

section

variable (nodup : (proposals.map Proposal.id).Nodup)
include nodup

theorem mirrorStatus_eq_map : mirrorStatus row proposals = proposals.map fun prop =>
      if some prop.id = row.engineProposalId then row.restatus prop else prop := by
  induction proposals with
  | nil => rfl
  | cons prop rest ih =>
    obtain ⟨new, nodup⟩ := nodup_cons.mp nodup
    have ho : ∀ o ∈ rest, o.id ≠ prop.id := by
      intro o held hs
      exact new (hs ▸ mem_map_of_mem held)
    simp only [mirrorStatus, map_cons]
    by_cases hn : some prop.id = row.engineProposalId
    · have rest_same : rest.map (fun o =>
          if some o.id = row.engineProposalId then row.restatus o else o) = rest := by
        refine (map_congr_left fun o held => ?_).trans rest.map_id
        rw [if_neg]
        · rfl
        · rw [← hn]
          exact fun hs => ho o held (Option.some.inj hs)
      rw [if_pos ⟨hn, ho⟩, if_pos hn, rest_same]
      rfl
    · rw [if_neg (fun hb => hn hb.1), if_neg hn, ih nodup]

theorem setById_eq_map {prop : Proposal} (ht : prop.id ∈ proposals.map Proposal.id) :
    setById prop proposals =
      proposals.map fun other => if other.id = prop.id then prop else other := by
  induction proposals with
  | nil => cases ht
  | cons other rest ih =>
    obtain ⟨new, nodup⟩ := nodup_cons.mp nodup
    simp only [setById, map_cons]
    by_cases hs : other.id = prop.id
    · have rest_same : rest.map (fun other => if other.id = prop.id then prop else other) =
          rest := by
        refine (map_congr_left fun third held => ?_).trans rest.map_id
        rw [if_neg]
        · rfl
        · exact fun he => new (hs.trans he.symm ▸ mem_map_of_mem held)
      rw [if_pos hs, if_pos hs, rest_same]
    · have hl : prop.id ∈ rest.map Proposal.id :=
        (mem_cons.mp ht).resolve_left fun he => hs he.symm
      rw [if_neg hs, if_neg hs, ih nodup hl]

omit nodup in
theorem setById_append {p : Proposal} (ha : p.id ∉ proposals.map Proposal.id) :
    setById p proposals = proposals ++ [p] := by
  induction proposals with
  | nil => rfl
  | cons o rest ih =>
    obtain ⟨hd, ha⟩ := not_or.mp (mt mem_cons.mpr ha)
    simp only [setById, cons_append]
    rw [if_neg (Ne.symm hd), ih ha]

theorem byId_eq : byId proposals = proposals := by
  have hg : ∀ rest es : List Proposal, ((es ++ rest).map Proposal.id).Nodup →
      rest.foldl (fun es prop => setById prop es) es = es ++ rest := by
    intro rest
    induction rest with
    | nil => simp
    | cons prop rest ih =>
      intro es nodup
      have ha : prop.id ∉ es.map Proposal.id := by
        simp only [map_append, map_cons, nodup_append, mem_cons] at nodup
        exact fun held => nodup.2.2 _ held _ (.inl rfl) rfl
      rw [foldl_cons, setById_append ha, ih]
      · simp
      · simpa using nodup
  exact hg proposals [] nodup

end

theorem key_of_named {id : String} (hn : row.engineProposalId = some id) (hfill : id ≠ "") :
    row.key = id := by
  simp [DraftRow.key, hn, hfill, Option.filter]

theorem updateById_eq (hf : Faithful proposals [row]) :
    updateById proposals row =
      if row.engineProposalId.any (· ≠ "") then mirrorStatus row proposals else proposals := by
  obtain ⟨nodup, hag⟩ := hf
  have hag := hag row (mem_singleton_self row)
  simp only [updateById]
  split
  next hem =>
    rw [if_neg]
    cases hn : row.engineProposalId with
    | none => simp
    | some id =>
      by_cases hb : id = ""
      · simp [hb]
      · exact absurd ((key_of_named hn hb).symm.trans hem) hb
  next key =>
    split
    next ha =>
      split
      next hn =>
        rw [mirrorStatus_eq_map nodup]
        refine ((map_congr_left fun prop held => ?_).trans proposals.map_id).symm
        rw [if_neg]
        · rfl
        intro hs
        have hfill : prop.id ≠ "" := by simpa [← hs] using hn
        exact List.find?_eq_none.mp ha prop held (decide_eq_true (key_of_named hs.symm hfill).symm)
      next => rfl
    next cur hfo =>
      have held := mem_of_find?_eq_some hfo
      have hs : cur.id = row.key := by simpa using List.find?_some hfo
      obtain ⟨hn, hp, hso⟩ := hag cur held hs key
      have hfill : row.engineProposalId.any (· ≠ "") := by simp [hn, key]
      rw [hp, hso, if_pos hfill, mirrorStatus_eq_map nodup]
      have hk : (row.restatus cur).id ∈ proposals.map Proposal.id := mem_map.mpr ⟨cur, held, rfl⟩
      refine (setById_eq_map nodup hk).trans ?_
      refine map_congr_left fun prop ht => ?_
      rw [restatus_id]
      by_cases he : prop.id = cur.id
      · obtain rfl : prop = cur := inj_on_of_nodup_map nodup ht held he
        rw [if_pos rfl, if_pos (by rw [hn, hs])]
      · rw [if_neg he, if_neg]
        rw [hn, ← hs]
        exact fun both => he (Option.some.inj both)

variable {rows : List DraftRow}

theorem Faithful.mirrorStatus (hf : Faithful proposals rows) :
    Faithful (mirrorStatus row proposals) rows := by
  obtain ⟨hn, ha⟩ := hf
  rw [mirrorStatus_eq_map hn]
  have hk (prop : Proposal) : ∀ changed, changed =
      (if some prop.id = row.engineProposalId then row.restatus prop else prop) →
      changed.id = prop.id ∧ changed.path = prop.path ∧ changed.source = prop.source := by
    rintro _ rfl
    split <;> exact ⟨rfl, rfl, rfl⟩
  refine ⟨?_, ?_⟩
  · have ids : (proposals.map fun prop =>
        if some prop.id = row.engineProposalId then row.restatus prop else prop).map
          Proposal.id = proposals.map Proposal.id := by
      rw [map_map]
      exact map_congr_left fun prop _ => (hk prop _ rfl).1
    rw [ids]
    exact hn
  · intro o held changed ht
    obtain ⟨prop, hb, rfl⟩ := mem_map.mp ht
    obtain ⟨id, hp, src⟩ := hk prop _ rfl
    rw [id, hp, src]
    exact ha o held prop hb

theorem foldl_updateById (hf : Faithful proposals rows) :
    rows.foldl updateById proposals = mirrorDrafts rows proposals := by
  induction rows generalizing proposals with
  | nil => rfl
  | cons row rest ih =>
    have first : Faithful proposals [row] :=
      ⟨hf.1, fun _ held => hf.2 _ (mem_singleton.mp held ▸ mem_cons_self)⟩
    have ho : Faithful proposals rest := ⟨hf.1, fun o held => hf.2 o (mem_cons_of_mem _ held)⟩
    rw [foldl_cons, updateById_eq first]
    by_cases hn : row.engineProposalId.any (· ≠ "")
    · rw [if_pos hn, ih ho.mirrorStatus]
      simp only [mirrorDrafts, filter_cons, hn, if_true, foldl_cons]
    · rw [if_neg hn, ih ho]
      simp only [mirrorDrafts, filter_cons, hn, Bool.false_eq_true, if_false]

end Drafts

section Calls

variable {r : Registry}

theorem call_of_silent {call : Call} (hs : r.messages call = []) : r.call call = r := by
  cases call <;> simp only [messages] at hs <;>
    simp only [call, transition, setOperationBudget, addProgress,
      setFindings, setAiTriage, setProposals, setResult,
      setPrUrl, patchDraft]
  case setAiTriage cands =>
    split at hs
    next hu => rw [if_pos hu]
    next hw =>
      split at hs
      next hr => rw [if_neg hw, if_pos hr]
      next => cases hs
  all_goals
    split at hs
    all_goals simp_all

variable {client : ProjectOperationState}

theorem statusChanged_shows {op : OperationState} (hs : Shows client op) (status : OperationStatus)
    (heard : ¬ (op.status = .awaitingApproval ∧ status = .applying ∧ op.proposals.getD [] ≠ []))
    (prev : OperationStatus) (error errorCode : Option String) (budget : Option Int) :
    ∃ client', applyOperationSseEvent (some client)
        (.statusChanged status prev error errorCode budget) = some client' ∧
      client'.status = status ∧ Shows client' { op with status } := by
  have hf : ¬ (client.status = .awaitingApproval ∧ status = .applying ∧
      client.proposals.getD [] ≠ []) := by
    rw [hs.status, hs.proposals]
    exact heard
  refine ⟨_, congrArg some (if_neg hf), rfl, ?_⟩
  exact ⟨rfl, hs.progress, hs.proposals, hs.result, hs.prUrl⟩

/-- A client that shows the operation and is sent the messages of a call shows
the operation after the call. -/
theorem call_shows (hsh : Shows client r.op) {call : Call} (hfo : r.Followable call) :
    ∃ client', (r.messages call).foldl applyOperationSseEvent (some client) = some client' ∧
      Shows client' (r.call call).op := by
  by_cases hsi : r.messages call = []
  · exact ⟨client, by rw [hsi]; rfl, (call_of_silent hsi).symm ▸ hsh⟩
  have here : r.registered := by
    by_contra hg
    exact hsi (by cases call <;> simp [messages, hg])
  cases call with
  | transition status error errorCode =>
    obtain ⟨client', ht, _, ha⟩ :=
      statusChanged_shows hsh status hfo r.op.status error errorCode none
    refine ⟨client', by simpa [messages, here] using ht, ?_⟩
    simp only [call, transition, here, if_true, broadcast]
    exact ⟨ha.status, ha.progress, ha.proposals, ha.result, ha.prUrl⟩
  | setOperationBudget budgetSeconds =>
    have hpos : ¬ (¬ r.registered ∨ budgetSeconds ≤ 0) := fun none => hsi (if_pos none)
    obtain ⟨client', ht, _, ha⟩ :=
      statusChanged_shows hsh r.op.status (by rintro ⟨old, new, _⟩; simp [old] at new)
        r.op.status none none (some budgetSeconds)
    refine ⟨client', ?_, ?_⟩
    · simpa only [messages, if_neg hpos, foldl_cons, foldl_nil] using ht
    · simp only [call, setOperationBudget, if_neg hpos, broadcast]
      exact ⟨ha.status, ha.progress, ha.proposals, ha.result, ha.prUrl⟩
  | addProgress e =>
    refine ⟨_, by simp [messages, here, applyOperationSseEvent]; rfl, ?_⟩
    simp only [call, addProgress, here, if_true, broadcast]
    exact { hsh with progress := by simp [hsh.progress, OperationState.toSnapshot] }
  | setFindings findings =>
    have hw : ¬ (¬ r.registered ∨ r.op.status ∉ findingsAllowedStatuses) :=
      fun hu => hsi (if_pos hu)
    obtain ⟨client', ht, _, ha⟩ :=
      statusChanged_shows hsh .assessed (by simp) r.op.status none none none
    refine ⟨{ client' with status := .assessed, findings := some findings }, ?_, ?_⟩
    · simp only [messages, if_neg hw, foldl_cons, foldl_nil, ht]
      rfl
    · simp only [call, setFindings, if_neg hw]
      simp only [transition, here, if_true, broadcast]
      exact ⟨rfl, ha.progress, ha.proposals, ha.result, ha.prUrl⟩
  | setAiTriage cands =>
    have hw : ¬ (¬ r.registered ∨ r.op.status ∉ aiTriageAllowedStatuses) :=
      fun hu => hsi (if_pos hu)
    have hfr : ¬ (r.op.status = .applying ∧ r.op.aiTriageCandidates.isSome ∧
        r.op.escalateAiFuture.all id) :=
      fun hre => hsi ((if_neg hw).trans (if_pos hre))
    obtain ⟨client', ht, _, ha⟩ :=
      statusChanged_shows hsh .awaitingAiTriage (by simp) r.op.status none none none
    refine ⟨{ client' with
      status := .awaitingAiTriage, aiTriageCandidates := some cands }, ?_, ?_⟩
    · simp only [messages, if_neg hw, if_neg hfr, foldl_cons, foldl_nil, ht]
      rfl
    · simp only [call, setAiTriage, if_neg hw, if_neg hfr]
      simp only [transition, here, if_true, broadcast]
      exact ⟨rfl, ha.progress, ha.proposals, ha.result, ha.prUrl⟩
  | setProposals proposals gateId =>
    obtain ⟨client', ht, hm, ha⟩ :=
      statusChanged_shows hsh .awaitingApproval (by simp) r.op.status none none none
    have hr : client'.status ∉ terminalStatuses := by rw [hm]; decide
    refine ⟨{ client' with
      status := .awaitingApproval, proposals := some proposals, approvalGateId := some gateId }, ?_, ?_⟩
    · simp only [messages, here, if_true, foldl_cons, foldl_nil, ht]
      exact congrArg some (if_neg hr)
    · simp only [call, setProposals, transition, here, if_true,
        broadcast]
      exact ⟨rfl, ha.progress, rfl, ha.result, ha.prUrl⟩
  | setResult result =>
    refine ⟨_, by simp [messages, here, applyOperationSseEvent]; rfl, ?_⟩
    simp only [call, setResult, here, if_true, broadcast]
    exact { hsh with result := rfl }
  | setPrUrl prUrl =>
    obtain ⟨client', ht, _, ha⟩ :=
      statusChanged_shows hsh .prSubmitted (by simp) r.op.status none none none
    refine ⟨{ client' with prUrl := some prUrl }, ?_, ?_⟩
    · simp only [messages, here, if_true, foldl_cons, foldl_nil, ht]
      rfl
    · simp only [call, setPrUrl, transition, here, if_true,
        broadcast]
      exact ⟨ha.status, ha.progress, ha.proposals, ha.result, rfl⟩
  | patchDraft rows =>
    simp only [messages, here, if_true, foldl_cons, foldl_nil, call,
      patchDraft, broadcast, applyOperationSseEvent]
    by_cases none : rows = []
    · have hs : r.op.proposals.map (mirrorDrafts rows) = r.op.proposals := by
        subst none
        cases r.op.proposals <;> rfl
      refine ⟨client, if_pos none, ⟨hsh.status, hsh.progress, ?_, hsh.result, hsh.prUrl⟩⟩
      exact hsh.proposals.trans hs.symm
    · have hf := hfo.resolve_left none
      refine ⟨_, if_neg none, ⟨hsh.status, hsh.progress, ?_, hsh.result, hsh.prUrl⟩⟩
      show client.proposals.map _ = r.op.proposals.map _
      rw [show client.proposals = r.op.proposals from hsh.proposals]
      cases held : r.op.proposals with
      | none => rfl
      | some proposals =>
        have hf := hf proposals held
        simp only [Option.map_some, byId_eq hf.1, foldl_updateById hf]

end Calls

section Streams

/-- A queue whose close message comes last and in which only messages that must
be delivered follow a terminal one: the stream passes on all of it. -/
def Trails : List Message → Prop
  | [] => True
  | msg :: rest =>
    (msg = .close → rest = []) ∧
      (msg.isTerminal → ∀ later ∈ rest, later.isMustDeliver ∨ later = .close) ∧
      Trails rest

theorem Trails.append {queue more : List Message}
    (hp : ∀ msg ∈ queue, msg ≠ .close ∧ msg.isTerminal = false) (ht : Trails more) :
    Trails (queue ++ more) := by
  induction queue with
  | nil => exact ht
  | cons msg rest ih =>
    obtain ⟨goes, hg⟩ := hp msg mem_cons_self
    refine ⟨fun hc => absurd hc goes, fun hterm => by simp [hg] at hterm, ?_⟩
    exact ih fun o held => hp o (mem_cons_of_mem _ held)

variable {queue : List Message}

theorem Trails.close (ht : Trails queue) (hu : .close ∉ queue) :
    Trails (queue ++ [.close]) := by
  induction queue with
  | nil => exact ⟨fun _ => rfl, fun _ => by simp, trivial⟩
  | cons msg rest ih =>
    obtain ⟨_, ho, ht⟩ := ht
    refine ⟨fun hc => absurd (hc ▸ mem_cons_self) hu, ?_, ?_⟩
    · intro hte later held
      rcases mem_append.mp held with old | new
      · exact ho hte later old
      · exact .inr (mem_singleton.mp new)
    · exact ih ht fun held => hu (mem_cons_of_mem _ held)

theorem Trails.passed (ht : Trails queue)
    (hm : ∀ msg ∈ queue, msg.isMustDeliver ∨ msg = .close) :
    (queue.takeWhile (· ≠ .close)).filter Message.isMustDeliver ++
        (queue.dropWhile (· ≠ .close)).take 1 = queue ∧
      (queue.takeWhile (· ≠ .close)).length + ((queue.dropWhile (· ≠ .close)).take 1).length =
        queue.length := by
  induction queue with
  | nil => exact ⟨rfl, rfl⟩
  | cons msg rest ih =>
    obtain ⟨last, _, ht⟩ := ht
    by_cases hc : msg = .close
    · simp [hc, last hc]
    · obtain ⟨all, hl⟩ := ih ht fun o held => hm o (mem_cons_of_mem _ held)
      have hm := (hm msg mem_cons_self).resolve_right hc
      rw [takeWhile_cons_of_pos (by simpa using hc),
        dropWhile_cons_of_pos (by simpa using hc), filter_cons_of_pos hm,
        cons_append, all, length_cons, length_cons]
      exact ⟨rfl, by omega⟩

theorem messages_trails (call : Call) : Trails (r.messages call) := by
  cases call <;> simp only [messages]
  case setAiTriage cands =>
    split
    · trivial
    · split <;> simp [Trails, Message.isTerminal, Message.status, terminalStatuses]
  all_goals split <;>
    simp [Trails, Message.isTerminal, Message.isMustDeliver, Message.status, terminalStatuses]

theorem messages_unclosed (call : Call) : .close ∉ r.messages call := by
  cases call <;> simp only [messages]
  case setAiTriage cands =>
    split
    · simp
    · split <;> simp
  all_goals split <;> simp

theorem terminal_of_mem_messages {r : Registry} {call : Call} {msg : Message}
    (held : msg ∈ r.messages call) (hterm : msg.isTerminal) :
    (r.call call).op.status ∈ terminalStatuses := by
  -- the two messages of a call that opens a gate
  have hm {first s : Message} (open₁ : first.isTerminal = false)
      (open₂ : s.isTerminal = false) (sent : msg ∈ [first, s]) : False := by
    simp only [mem_cons, not_mem_nil, or_false] at sent
    rcases sent with rfl | rfl
    · simp [open₁] at hterm
    · simp [open₂] at hterm
  rw [(r.call_effect call).status]
  cases call <;> simp only [messages] at held <;> simp only [target]
  case setFindings findings =>
    split at held
    · cases held
    · exact (hm rfl rfl held).elim
  case setAiTriage cands =>
    split at held
    · cases held
    · split at held
      · cases held
      · exact (hm rfl rfl held).elim
  case setProposals ps gateId =>
    split at held
    · exact (hm rfl rfl held).elim
    · cases held
  all_goals split at held
  all_goals simp_all [Message.isTerminal, Message.status, terminalStatuses]

/-- What the steps keep of one client: what it shows once it has read its queue
is the operation. -/
structure Follows (r : Registry) (sub : Subscriber) : Prop where
  waiting : sub.stream = .subscribed → sub.delivered = [] ∧ (sub.queue = [] ∨ sub.queue = [.close])
  shows_op : sub.stream ≠ .subscribed →
    ∃ client, shown (sub.delivered ++ sub.queue) = some client ∧ Shows client r.op
  closed : sub.stream = .closed →
    sub.queue = [] ∧ sub.attached = false ∧ (r.op.status ∈ terminalStatuses ∨ r.registered = false)
  attached : sub.attached → r.registered ∧ .close ∉ sub.queue
  detached : sub.stream ≠ .closed → sub.attached = false → r.registered = false
  ended : (∃ msg ∈ sub.queue, msg.isTerminal) ∨ sub.stream = .trailing →
    r.op.status ∈ terminalStatuses
  trailing : sub.stream = .trailing → ∀ msg ∈ sub.queue, msg.isMustDeliver ∨ msg = .close
  trails : Trails sub.queue

variable {r : Registry} {sub : Subscriber}

theorem shown_append (first second : List Message) :
    shown (first ++ second) = second.foldl applyOperationSseEvent (shown first) :=
  foldl_append

variable (follows : Follows r sub)
include follows

theorem Follows.call {call : Call} (loud : r.messages call ≠ [])
    (hf : r.Followable call) (hr : r.op.status ∉ terminalStatuses)
    (past : sub.stream ≠ .subscribed)
    (room : sub.stream ≠ .closed → sub.queue.length + (r.messages call).length ≤ maxsize) :
    Follows (r.call call) (sub.offerAll (r.messages call)) := by
  have here : r.registered := by
    by_contra hg
    exact loud (by cases call <;> simp [messages, hg])
  have reg : (r.call call).registered := (r.call_effect call).registered.trans here
  have hst : sub.stream ≠ .closed := by
    intro hc
    obtain ⟨_, _, hterm | hg⟩ := follows.closed hc
    · exact hr hterm
    · simp [here] at hg
  have hl : sub.attached := by
    by_contra hd
    simp only [Bool.not_eq_true] at hd
    simp [follows.detached hst hd] at here
  have hp : ∀ msg ∈ sub.queue, msg ≠ .close ∧ msg.isTerminal = false := by
    intro msg held
    refine ⟨fun hcl => (follows.attached hl).2 (hcl ▸ held), ?_⟩
    by_contra hterm
    exact hr (follows.ended (.inl ⟨msg, held, by simpa using hterm⟩))
  rw [offerAll_of_room hl (room hst)]
  refine ⟨fun hs => absurd hs past, fun _ => ?_, fun hc => absurd hc hst,
    fun _ => ⟨reg, ?_⟩, fun _ hd => ?_, ?_, ?_, ?_⟩
  · obtain ⟨client, ht, shows_op⟩ := follows.shows_op past
    obtain ⟨client', heard, ha⟩ := call_shows shows_op hf
    refine ⟨client', ?_, ha⟩
    rw [← append_assoc, shown_append, ht, heard]
  · exact fun held => (mem_append.mp held).elim (follows.attached hl).2
      (messages_unclosed r call)
  · exact absurd (hl.symm.trans hd) (by simp)
  · rintro (⟨msg, held, hterm⟩ | htr)
    · rcases mem_append.mp held with old | new
      · exact absurd hterm (by simp [(hp msg old).2])
      · exact terminal_of_mem_messages new hterm
    · exact absurd (follows.ended (.inr htr)) hr
  · exact fun htr => absurd (follows.ended (.inr htr)) hr
  · exact Trails.append hp (messages_trails r call)

theorem Follows.of_same {t : Registry} (reg : t.registered = r.registered)
    (st : t.op.status = r.op.status) (hpr : t.op.progress = r.op.progress)
    (hp : t.op.proposals = r.op.proposals) (res : t.op.result = r.op.result)
    (hu : t.op.prUrl = r.op.prUrl) : Follows t sub := by
  refine ⟨follows.waiting, fun past => ?_, ?_, ?_, ?_, ?_, follows.trailing, follows.trails⟩
  · obtain ⟨client, ht, shows_op⟩ := follows.shows_op past
    exact ⟨client, ht, shows_op.status.trans st.symm, shows_op.progress.trans hpr.symm,
      shows_op.proposals.trans hp.symm, shows_op.result.trans res.symm,
      shows_op.prUrl.trans hu.symm⟩
  · rw [st, reg]
    exact follows.closed
  · rw [reg]
    exact follows.attached
  · rw [reg]
    exact follows.detached
  · rw [st]
    exact follows.ended

theorem Follows.remove (here : r.registered) : Follows r.remove sub.shut := by
  have hg : r.remove = { r with
      registered := false, terminalTime := none, subscribers := r.subscribers.map (·.shut) } :=
    if_pos here
  rw [hg]
  by_cases attached : sub.attached
  · have hu := (follows.attached attached).2
    have hst : sub.stream ≠ .closed := by
      intro closed
      simp [(follows.closed closed).2.1] at attached
    have queue : sub.shut.queue = sub.queue ∨ sub.shut.queue = sub.queue ++ [.close] := by
      simp only [shut, attached, not_true_eq_false, if_false]
      split
      · exact .inr rfl
      · exact .inl rfl
    have rest : sub.shut = { sub with attached := false, queue := sub.shut.queue } := by
      simp [shut, attached]
    rw [rest]
    rcases queue with hs | closed
    · rw [hs]
      exact ⟨follows.waiting, follows.shows_op, fun closed => absurd closed hst,
        fun attached => by simp at attached, fun _ _ => rfl, follows.ended, follows.trailing,
        follows.trails⟩
    · rw [closed]
      refine ⟨fun hsu => ?_, fun hp => ?_, fun closed => absurd closed hst,
        fun attached => by simp at attached, fun _ _ => rfl, ?_, fun htr msg held => ?_,
        follows.trails.close hu⟩
      · obtain ⟨hf, queue⟩ := follows.waiting hsu
        rcases queue with none | hc
        · exact ⟨hf, .inr (by simp [none])⟩
        · simp [hc] at hu
      · obtain ⟨client, ht, shows_op⟩ := follows.shows_op hp
        refine ⟨client, ?_, shows_op⟩
        rw [← append_assoc, shown_append, ht]
        rfl
      · rintro (⟨msg, held, hterm⟩ | htr)
        · rcases mem_append.mp held with old | new
          · exact follows.ended (.inl ⟨msg, old, hterm⟩)
          · simp [mem_singleton.mp new, Message.isTerminal, Message.status] at hterm
        · exact follows.ended (.inr htr)
      · rcases mem_append.mp held with old | new
        · exact follows.trailing htr msg old
        · exact .inr (mem_singleton.mp new)
  · have hs : sub.shut = sub := if_pos attached
    rw [hs]
    refine { follows with
      closed := fun closed => ⟨(follows.closed closed).1, (follows.closed closed).2.1, .inr rfl⟩
      attached := fun held => absurd held attached
      detached := fun _ _ => rfl }

theorem Follows.take_close {rest : List Message}
    (hp : sub.stream ≠ .subscribed) (hs : sub.stream ≠ .closed)
    (queue : sub.queue = .close :: rest) :
    Follows r { sub.unsubscribe with queue := rest, delivered := sub.delivered ++ [.close] } := by
  have ht := follows.trails
  rw [queue] at ht
  have last : rest = [] := ht.1 rfl
  have hd : sub.attached = false := by
    by_contra ha
    simp only [Bool.not_eq_false] at ha
    exact (follows.attached ha).2 (by simp [queue])
  refine ⟨by simp [unsubscribe], fun _ => ?_,
    fun _ => ⟨last, rfl, .inr (follows.detached hs hd)⟩, by simp [unsubscribe],
    by simp [unsubscribe], by simp [unsubscribe, last],
    by simp [unsubscribe], by simp [last, Trails]⟩
  obtain ⟨client, told, shows_op⟩ := follows.shows_op hp
  rw [queue, last] at told
  exact ⟨client, by simpa [last] using told, shows_op⟩

theorem Follows.take {msg : Message} {rest : List Message} {stream : Stream}
    (hp : sub.stream ≠ .subscribed) (hst : sub.stream ≠ .closed) (queue : sub.queue = msg :: rest)
    (ha : stream = .live ∨ stream = .trailing ∧ (∀ later ∈ rest, later.isMustDeliver ∨ later = .close) ∧
      r.op.status ∈ terminalStatuses) :
    Follows r { sub with queue := rest, delivered := sub.delivered ++ [msg], stream } := by
  have htr := follows.trails
  rw [queue] at htr
  have ho : stream ≠ .subscribed ∧ stream ≠ .closed := by
    rcases ha with rfl | ⟨rfl, _⟩ <;> simp
  refine ⟨fun hs => absurd hs ho.1, fun _ => ?_, fun hc => absurd hc ho.2,
    fun hat => ⟨(follows.attached hat).1, fun held => ?_⟩, fun _ => follows.detached hst,
    ?_, fun ht => ?_, htr.2.2⟩
  · obtain ⟨client, told, shows_op⟩ := follows.shows_op hp
    refine ⟨client, ?_, shows_op⟩
    rw [queue] at told
    simpa using told
  · exact (follows.attached hat).2 (queue ▸ mem_cons_of_mem _ held)
  · rintro (⟨later, held, hterm⟩ | ht)
    · exact follows.ended (.inl ⟨later, queue ▸ mem_cons_of_mem _ held, hterm⟩)
    · rcases ha with hl | ⟨_, _, hterm⟩
      · simp [hl] at ht
      · exact hterm
  · rcases ha with hl | ⟨_, only, _⟩
    · simp [hl] at ht
    · exact only

theorem Follows.turn {sub' : Subscriber} {index : Nat} {turn : StreamTurn}
    (hf : r.subscribers[index]? = some sub) (hk : r.KeepsUp (.stream index turn))
    (ht : sub.turn r.op turn = some sub') : Follows r sub' := by
  cases turn with
  | snapshot =>
    simp only [Subscriber.turn, Subscriber.takeSnapshot] at ht
    split at ht
    next hp =>
      cases ht
      obtain ⟨hfr, hq⟩ := follows.waiting hp
      refine ⟨by simp, fun _ => ⟨r.op.toSnapshot, ?_, ⟨rfl, rfl, rfl, rfl, rfl⟩⟩, by simp,
        follows.attached, fun _ => follows.detached (by simp [hp]), ?_, by simp, follows.trails⟩
      · rcases hq with none | hc
        · simp [hfr, none, shown, applyOperationSseEvent]
        · simp [hfr, hc, shown, applyOperationSseEvent]
      · rintro (told | htr)
        · exact follows.ended (.inl told)
        · cases htr
    next => cases ht
  | resume =>
    simp only [Subscriber.turn, Subscriber.resume] at ht
    split at ht
    next hp =>
      have past : sub.stream ≠ .subscribed := by simp [hp]
      split at ht
      next hterm =>
        cases ht
        obtain ⟨all, hl⟩ := follows.trails.passed (hk hterm sub hf)
        have he : sub.queue.drop ((sub.queue.takeWhile (· ≠ .close)).length +
            ((sub.queue.dropWhile (· ≠ .close)).take 1).length) = [] := by
          rw [hl]
          exact drop_length
        refine ⟨by simp [unsubscribe], fun _ => ?_, fun _ => ⟨he, rfl, .inl hterm⟩,
          by simp [unsubscribe], by simp [unsubscribe],
          fun _ => hterm, by simp [unsubscribe], ?_⟩
        · obtain ⟨client, told, shows_op⟩ := follows.shows_op past
          refine ⟨client, ?_, shows_op⟩
          simp only [he, append_nil, append_assoc, all]
          exact told
        · simp only [he]
          trivial
      next =>
        cases ht
        refine ⟨by simp, fun _ => follows.shows_op past, by simp, follows.attached,
          fun _ => follows.detached (by simp [hp]), ?_, by simp, follows.trails⟩
        rintro (told | htr)
        · exact follows.ended (.inl told)
        · cases htr
    next => cases ht
  | read =>
    simp only [Subscriber.turn, Subscriber.read] at ht
    split at ht
    next rest hp hq =>
      cases ht
      exact follows.take_close (by simp [hp]) (by simp [hp]) hq
    next msg rest _ hp hq =>
      cases ht
      refine follows.take (by simp [hp]) (by simp [hp]) hq ?_
      split
      next hterm =>
        have trails := follows.trails
        rw [hq] at trails
        exact .inr ⟨rfl, trails.2.1 hterm, follows.ended (.inl ⟨msg, by simp [hq], hterm⟩)⟩
      next => exact .inl rfl
    next => cases ht
  | trail =>
    simp only [Subscriber.turn, Subscriber.trail] at ht
    split at ht
    next hp hq =>
      cases ht
      have hterm := follows.ended (.inr hp)
      refine ⟨by simp [unsubscribe], fun _ => follows.shows_op (by simp [hp]),
        fun _ => ⟨hq, rfl, .inl hterm⟩, by simp [unsubscribe],
        by simp [unsubscribe], fun _ => hterm, by simp [unsubscribe],
        follows.trails⟩
    next rest hp hq =>
      cases ht
      exact follows.take_close (by simp [hp]) (by simp [hp]) hq
    next msg rest o hp hq =>
      have only := follows.trailing hp
      rw [hq] at only
      have hm := (only msg mem_cons_self).resolve_right o
      rw [if_pos hm] at ht
      cases ht
      have htr := follows.take (by simp [hp]) (by simp [hp]) hq
        (.inr ⟨hp, fun later held => only later (mem_cons_of_mem _ held), follows.ended (.inr hp)⟩)
      exact htr
    next => cases ht
  | disconnect => exact hk.elim

end Streams

theorem Follows.step {r t : Registry} {label : RegistryLabel}
    (hfo : ∀ sub ∈ r.subscribers, Follows r sub) (hke : r.KeepsUp label)
    (ht : r.step label = some t) : ∀ sub ∈ t.subscribers, Follows t sub := by
  cases label with
  | call call =>
    cases ht
    by_cases hsi : r.messages call = []
    · rw [call_of_silent hsi]
      exact hfo
    · obtain ⟨hfl, hr, hc⟩ := hke.resolve_left hsi
      intro sub' held
      rw [call_subscribers] at held
      obtain ⟨sub, hk, rfl⟩ := mem_map.mp held
      have hr := hr.resolve_right (ne_nil_of_mem hk)
      obtain ⟨hp, room⟩ := hc sub hk
      exact (hfo sub hk).call hsi hfl hr hp room
  | assign values =>
    cases ht
    exact fun sub held => (hfo sub held).of_same rfl rfl rfl rfl rfl rfl
  | subscribe =>
    obtain ⟨here, ⟨⟩⟩ := Option.ite_none_right_eq_some.mp ht
    intro sub held
    rcases mem_append.mp held with old | new
    · exact (hfo sub old).of_same rfl rfl rfl rfl rfl rfl
    · cases mem_singleton.mp new
      exact ⟨fun _ => ⟨rfl, .inl rfl⟩, by simp, by simp, fun _ => ⟨here, by simp⟩, by simp, by simp,
        by simp, trivial⟩
  | stream i turn =>
    obtain ⟨sub, hf, ht⟩ := Option.bind_eq_some_iff.mp ht
    obtain ⟨sub', htu, rfl⟩ := Option.map_eq_some_iff.mp ht
    intro o held
    rcases mem_or_eq_of_mem_set held with old | rfl
    · exact (hfo o old).of_same rfl rfl rfl rfl rfl rfl
    · exact ((hfo sub (mem_of_getElem? hf)).turn hf hke htu).of_same rfl rfl rfl
        rfl rfl rfl
  | remove =>
    cases ht
    cases here : r.registered with
    | true =>
      have hg : r.remove.subscribers = r.subscribers.map (·.shut) := by
        simp [Registry.remove, here]
      intro sub' held
      rw [hg] at held
      obtain ⟨sub, hk, rfl⟩ := mem_map.mp held
      exact (hfo sub hk).remove here
    | false =>
      have hs : r.remove = r := by simp [Registry.remove, here]
      rw [hs]
      exact hfo

open Registry in
/-- In every run that the clients keep up with and can follow, each client shows
the operation once it has nothing left to receive. -/
theorem clients_mirror (op : OperationState) (r : Registry)
    (reached : Reaches Registry.step KeepsUp { op } r) : r.Mirrored := by
  have follows : ∀ sub ∈ r.subscribers, Follows r sub := by
    refine reached.invariant (P := fun r => ∀ sub ∈ r.subscribers, Follows r sub) ?_ (by simp)
    intro _ _ _ follows keeps taken
    exact Follows.step follows keeps taken
  intro sub held past read
  obtain ⟨client, told, shows_op⟩ := (follows sub held).shows_op past
  rw [read, append_nil] at told
  exact ⟨client, told, shows_op⟩

/-- A client through a review that ends with the session. -/
def reviewedRun : List RegistryLabel :=
  [.subscribe, .stream 0 .snapshot, .stream 0 .resume,
    .call (.addProgress { phase := "scan", message := "", timestamp := "" }),
    .call (.setProposals [{ id := "t1", ruleId := "L001", file := "site.yml" }] "gate"),
    .stream 0 .read, .stream 0 .read,
    .call (.patchDraft [{ id := 7, engineProposalId := some "t1", status := "approved", path := "", source := "" }]),
    .call (.setResult {}), .call (.transition .completed none none),
    .stream 0 .read, .stream 0 .read, .stream 0 .read, .stream 0 .read, .stream 0 .trail]

theorem reviewedRun_mirrored :
    ∃ r, follow Registry.step Registry.KeepsUp reviewedRun { op := { scanType := "remediate" } } =
        some r ∧ r.op.status = .completed ∧ r.Mirrored :=
  ⟨_, rfl, by decide, clients_mirror { scanType := "remediate" } _
    (reaches_of_follow reviewedRun rfl)⟩

/-- The engine acknowledges the approval of the proposals that the client shows. -/
def acknowledgedRun : List RegistryLabel :=
  [.subscribe, .stream 0 .snapshot, .stream 0 .resume,
    .call (.setProposals [{ id := "t1", ruleId := "L001", file := "site.yml" }] "gate"),
    .call (.transition .applying none none), .stream 0 .read, .stream 0 .read, .stream 0 .read]

theorem acknowledgedRun_stale :
    ∃ r, Reaches Registry.step (fun _ _ => True) { op := { scanType := "remediate" } } r ∧
      r.op.status = .applying ∧
      (∃ sub ∈ r.subscribers, sub.queue = [] ∧
        (shown sub.delivered).map ProjectOperationState.status = some .awaitingApproval) ∧
      ¬ r.Mirrored := by
  refine ⟨_, reaches_of_follow acknowledgedRun rfl, by decide,
    ⟨_, mem_singleton_self _, by decide, by decide⟩, fun mirrored => ?_⟩
  obtain ⟨client, told, shows_op⟩ := mirrored _ (mem_singleton_self _) (by decide) (by decide)
  cases told
  exact absurd shows_op.status (by decide)

end Apme.Gateway
