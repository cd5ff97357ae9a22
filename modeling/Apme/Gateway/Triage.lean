import Apme.Gateway.Approval
import Apme.Lib.Transition
import Mathlib.Data.List.Dedup
import Mathlib.Data.List.Sort
import Mathlib.Data.String.Basic

/-!
# The choice of what goes to the AI

`POST /escalate-ai` resolves the escalation future of the operation, the bridge
forwards the result to the driver under the generation of the prompt that is
shown at that moment, and the driver sends every candidate to the AI when its
wait ends first.  As in the approval of proposals a step is what one task does
between two awaits, in a run with an escalation queue.
-/

set_option autoImplicit false

namespace Apme.Gateway

open Apme.Lib List Option Transition

structure EscalateTarget where
  path : String
  ruleIds : List String := []
  deriving DecidableEq

/-- Why `POST /escalate-ai` answers 409. -/
inductive EscalateConflict
  | invalidStatus (status : OperationStatus)
  | sessionExpired
  deriving DecidableEq

def EscalateConflict.code : EscalateConflict → String
  | .invalidStatus _ => "invalid_status"
  | .sessionExpired => "session_expired"

def EscalateConflict.message : EscalateConflict → String
  | .invalidStatus status => "Operation is in '" ++ status.value ++ "', not 'awaiting_ai_triage'"
  | .sessionExpired =>
    "AI triage session is no longer waiting for escalate-ai; start a new remediate operation."

/-- The answer to a request; a success is kept with the round it was given in. -/
inductive EscalateReply
  | refused (conflict : EscalateConflict)
  | accepted (round : Nat) (targets : List EscalateTarget)
  deriving DecidableEq

def EscalateReply.round : EscalateReply → Option Nat
  | .refused _ => none
  | .accepted round _ => some round

/-- An `AiEscalateRequest` on the command queue, with the round it ends and
whether it carries an answer or the fallback. -/
structure AiEscalateRequest where
  round : Nat
  targets : List EscalateTarget
  answered : Bool
  deriving DecidableEq

/-- The targets the driver sends: those without a path are left out. -/
def sendable (targets : List EscalateTarget) : List EscalateTarget :=
  targets.filter fun target => target.path ≠ ""

/-- The fallback: every candidate path. -/
def allowAll (paths : List String) : List EscalateTarget :=
  ((paths.filter fun path => path ≠ "").dedup.insertionSort (· ≤ ·)).map fun path => { path }

inductive TriageDriver
  | listening
  | waiting (wait : Wait (List EscalateTarget)) (paths : List String)
  | finished
  deriving DecidableEq

structure TriageRun where
  status : OperationStatus
  candidates : Option (List String) := none
  futures : List (Option (List EscalateTarget)) := []
  escalateFuture : Option Nat := none
  queue : OperatorAnswerQueue (List EscalateTarget) := {}
  driver : TriageDriver := .listening
  bridge : Bridge := .polling
  replies : List EscalateReply := []
  sent : List AiEscalateRequest := []

/-- `_AI_TRIAGE_ALLOWED_STATUSES`. -/
def aiTriageAllowedStatuses : List OperationStatus :=
  [.queued, .cloning, .scanning, .assessed, .applying, .awaitingAiTriage]

namespace TriageRun

variable (s : TriageRun)

def future (index : Nat) : Option (List EscalateTarget) := (s.futures[index]?).join

/-- `fut.set_result(targets)` unless the future is done. -/
def setResult (index : Nat) (targets : List EscalateTarget) : TriageRun :=
  { s with futures := s.futures.modify index fun result => result <|> some targets }

def setAiTriage (paths : List String) : TriageRun :=
  if s.status ∉ aiTriageAllowedStatuses then s
  -- a choice was made for this session and is on its way or forwarded
  else if s.status = .applying ∧ s.candidates.isSome ∧
      s.escalateFuture.all fun index => (s.future index).isSome then s
  else
    match s.escalateFuture with
    | none =>
      { s with
        candidates := some paths, status := .awaitingAiTriage
        futures := s.futures ++ [none], escalateFuture := some s.futures.length }
    | some _ => { s with candidates := some paths, status := .awaitingAiTriage }

variable (targets : List EscalateTarget)

def escalateAi : TriageRun :=
  if s.status ≠ .awaitingAiTriage then
    { s with replies := s.replies ++ [.refused (.invalidStatus s.status)] }
  else
    match s.escalateFuture with
    | none => { s with replies := s.replies ++ [.refused .sessionExpired] }
    | some index =>
      { s.setResult index targets with
        status := .applying, replies := s.replies ++ [.accepted s.queue.generation targets] }

/-- The bridge puts the targets on the queue, without a generation, and clears
whatever future the operation has by then. -/
def forward : TriageRun :=
  { s with queue := s.queue.put targets none, escalateFuture := none, bridge := .polling }

/-- A turn of `_approval_bridge` for the escalation future. -/
def bridgeTurn : Option TriageRun :=
  match s.bridge with
  | .polling =>
    some
      (if s.status ∈ terminalStatuses then { s with bridge := .ended }
      else
        match s.escalateFuture with
        | none => s
        | some index =>
          match s.future index with
          | some targets => s.forward targets
          | none =>
            if s.status = .awaitingAiTriage then { s with bridge := .awaiting index } else s)
  | .awaiting index => (s.future index).map s.forward
  | .ended => none

/-- The future of the operation is resolved with no targets, unless it is done. -/
def retireFuture : TriageRun :=
  match s.escalateFuture with
  | some index => s.setResult index []
  | none => s

def onEscalateTimeout : TriageRun := { s.retireFuture with escalateFuture := none }

def send (round : Nat) (targets : List EscalateTarget) (answered : Bool) : TriageRun :=
  { s with sent := s.sent ++ [⟨round, sendable targets, answered⟩], driver := .listening }

end TriageRun

inductive TriageLabel
  | escalate (targets : List EscalateTarget)
  | aiTriageReady (paths : List String)
  | proposalsReady
  | event (status : OperationStatus)
  | take
  | expire
  | bridge

open TriageRun in
def triageStep (s : TriageRun) : TriageLabel → Option TriageRun
  | .escalate targets => some (s.escalateAi targets)
  | .aiTriageReady paths =>
    if s.driver = .listening then
      let queue := s.queue.beginPrompt
      some
        { { s with queue }.setAiTriage paths with
          driver := .waiting { promptGeneration := queue.generation } paths }
    else none
  | .proposalsReady =>
    if s.driver = .listening then some { s.retireFuture with status := .awaitingApproval } else none
  | .event status =>
    if s.driver = .listening then
      some { s with
        status, driver := if status ∈ terminalStatuses then .finished else .listening }
    else none
  | .take =>
    match s.driver with
    | .waiting wait paths =>
      (s.queue.take wait).map fun
        | .answered targets queue => { s with queue }.send wait.promptGeneration targets true
        | .again wait queue => { s with queue, driver := .waiting wait paths }
    | _ => none
  | .expire =>
    match s.driver with
    | .waiting wait paths =>
      some ({ s with queue := s.queue.expire wait }.onEscalateTimeout.send wait.promptGeneration
        (allowAll paths) false)
    | _ => none
  | .bridge => s.bridgeTurn

namespace TriageRun

variable (s : TriageRun)

/-- The driver is in this round of triage. -/
def InRound (round : Nat) : Prop :=
  match s.driver with
  | .waiting wait _ => wait.promptGeneration = round
  | _ => False

/-- Every accepted choice is what the engine gets for its round, and what the
engine gets as an answer was chosen in its round. -/
structure ChoicesHonoured (s : TriageRun) : Prop where
  single : (s.sent.map AiEscalateRequest.round).Nodup
  honoured : ∀ round targets, .accepted round targets ∈ s.replies →
    (s.InRound round ∧ ∀ request ∈ s.sent, request.round ≠ round) ∨ ⟨round, targets, true⟩ ∈ s.sent
  own : ∀ request ∈ s.sent, request.answered → .accepted request.round request.targets ∈ s.replies

/-- A wait does not end once a choice was accepted for its round, a round does
not begin before the bridge has forwarded the result it waits for, and every
target names a path. -/
def Settled : TriageLabel → Prop
  | .expire => ∀ reply ∈ s.replies, reply.round ≠ some s.queue.generation
  | .aiTriageReady _ =>
    match s.bridge with
    | .awaiting _ => False
    | _ => True
  | .escalate targets => sendable targets = targets
  | _ => True

instance (s : TriageRun) (label : TriageLabel) : Decidable (s.Settled label) := by
  unfold Settled
  split
  · infer_instance
  · split <;> infer_instance
  · infer_instance
  · infer_instance

def stash : List (Nat × List EscalateTarget) :=
  match s.driver with
  | .waiting wait _ => wait.stashed
  | _ => []

/-- The future of the round is pending, or holds the one choice accepted in it. -/
def Chosen (index : Nat) : Prop :=
  (s.future index = none ∧ ∀ targets, .accepted s.queue.generation targets ∉ s.replies) ∨
    ∃ targets, s.future index = some targets ∧
      .accepted s.queue.generation targets ∈ s.replies ∧ s.status ≠ .awaitingAiTriage

/-- What the round the driver is in looks like. -/
structure Round (s : TriageRun) (wait : Wait (List EscalateTarget)) : Prop where
  generation : wait.promptGeneration = s.queue.generation
  chosen : ∀ index, s.escalateFuture = some index → index < s.futures.length ∧ s.Chosen index
  forwarded : ∀ item ∈ s.queue.items ++ wait.stashed, item.1 = s.queue.generation →
    .accepted s.queue.generation item.2 ∈ s.replies ∧ s.escalateFuture = none
  bridge : ∀ index, s.bridge = .awaiting index → s.escalateFuture = some index
  unsent : ∀ request ∈ s.sent, request.round ≠ s.queue.generation

/-- What holds between the rounds and in them. -/
structure Kept (s : TriageRun) : Prop where
  round : ∀ wait paths, s.driver = .waiting wait paths → s.Round wait
  quiet : (∀ wait paths, s.driver ≠ .waiting wait paths) → s.escalateFuture = none
  items : s.queue.Every (fun item => item.1 ≤ s.queue.generation) s.stash
  begun : ∀ round targets, .accepted round targets ∈ s.replies → round ≤ s.queue.generation
  unique : ∀ round targets targets', .accepted round targets ∈ s.replies →
    .accepted round targets' ∈ s.replies → targets = targets'
  paths : ∀ round targets, .accepted round targets ∈ s.replies → sendable targets = targets
  covered : ∀ round targets, .accepted round targets ∈ s.replies →
    s.InRound round ∨ ∃ request ∈ s.sent, request.round = round
  single : (s.sent.map AiEscalateRequest.round).Nodup
  sent : ∀ request ∈ s.sent, request.round ≤ s.queue.generation ∧
    if request.answered then .accepted request.round request.targets ∈ s.replies
    else ∀ targets, .accepted request.round targets ∉ s.replies

theorem Kept.choicesHonoured {s : TriageRun} (kept : s.Kept) : s.ChoicesHonoured := by
  refine ⟨kept.single, ?_, ?_⟩
  · intro round tgts took
    obtain hr | ⟨req, hm, rfl⟩ := kept.covered round tgts took
    · refine .inl ⟨hr, ?_⟩
      unfold InRound at hr
      split at hr
      next wait paths waiting =>
        have own := kept.round wait paths waiting
        rw [← hr, own.generation]
        exact own.unsent
      next => exact hr.elim
    · obtain ⟨-, src⟩ := kept.sent req hm
      cases ht : req.answered with
      | false =>
        rw [ht, if_neg (by decide)] at src
        exact absurd took (src tgts)
      | true =>
        rw [ht, if_pos rfl] at src
        obtain rfl := kept.unique _ _ _ took src
        rw [← ht]
        exact .inr hm
  · intro req hm ht
    obtain ⟨-, src⟩ := kept.sent req hm
    rwa [ht, if_pos rfl] at src

section Steps

variable {s t : TriageRun} {tgts : List EscalateTarget}

theorem future_setResult {index : Nat}
    (hm : index < s.futures.length) (hp : s.future index = none) :
    (s.setResult index tgts).future index = some tgts := by
  obtain ⟨own, hf⟩ : ∃ own, s.futures[index]? = some own := ⟨_, List.getElem?_eq_getElem hm⟩
  simp only [future, hf, join_some] at hp
  simp [future, setResult, hf, hp]

section

variable (kept : s.Kept)
include kept

theorem Kept.refuse (conflict : EscalateConflict) :
    Kept { s with replies := s.replies ++ [.refused conflict] } := by
  refine ⟨fun wait paths hw => ?_, kept.quiet, kept.items, ?_, ?_, ?_, ?_, kept.single, ?_⟩
  · have own := kept.round wait paths hw
    refine { own with chosen := ?_, forwarded := ?_ }
    · intro i hf
      refine ⟨(own.chosen i hf).1, ?_⟩
      simpa [Chosen, future] using (own.chosen i hf).2
    · simpa using own.forwarded
  · simpa using kept.begun
  · simpa using kept.unique
  · simpa using kept.paths
  · simpa [InRound] using kept.covered
  · simpa using kept.sent

theorem Kept.escalate (hs : sendable tgts = tgts) : (s.escalateAi tgts).Kept := by
  unfold escalateAi
  split
  next => exact kept.refuse _
  next haw =>
    split
    next => exact kept.refuse _
    next i hF =>
      obtain ⟨wait, paths, hw⟩ : ∃ wait paths, s.driver = .waiting wait paths := by
        by_contra hi
        rw [kept.quiet (by simpa using hi)] at hF
        cases hF
      have own := kept.round wait paths hw
      obtain ⟨hm, ⟨hp, hu⟩ | ⟨_, -, -, hmo⟩⟩ := own.chosen i hF
      · have ha : ∀ round tgts',
            EscalateReply.accepted round tgts' ∈ s.replies ++ [.accepted s.queue.generation tgts] ↔
              .accepted round tgts' ∈ s.replies ∨
                round = s.queue.generation ∧ tgts' = tgts := by simp
        refine ⟨?_, fun hi => absurd hw (hi wait paths), kept.items, ?_, ?_, ?_, ?_,
          kept.single, ?_⟩
        · intro wait' paths' hw'
          cases hw.symm.trans hw'
          refine { own with chosen := ?_, forwarded := ?_ }
          · intro index' hf'
            cases hF.symm.trans hf'
            refine ⟨by simpa [setResult] using hm, .inr ⟨tgts, ?_, ?_, nofun⟩⟩
            · exact future_setResult hm hp
            · exact (ha _ _).mpr (.inr ⟨rfl, rfl⟩)
          · intro x mem hr
            have hc := (own.forwarded x mem hr).2
            cases hF.symm.trans hc
        · intro round tgts' took
          obtain old | ⟨rfl, -⟩ := (ha round tgts').mp took
          · exact kept.begun round tgts' old
          · exact le_rfl
        · intro round first second hf hse
          obtain old | ⟨rfl, rfl⟩ := (ha round first).mp hf
          · obtain ho' | ⟨rfl, rfl⟩ := (ha round second).mp hse
            · exact kept.unique round first second old ho'
            · exact absurd old (hu first)
          · obtain ho' | ⟨-, rfl⟩ := (ha _ second).mp hse
            · exact absurd ho' (hu second)
            · rfl
        · intro round tgts' took
          obtain old | ⟨-, rfl⟩ := (ha round tgts').mp took
          · exact kept.paths round tgts' old
          · exact hs
        · intro round tgts' took
          obtain old | ⟨rfl, -⟩ := (ha round tgts').mp took
          · exact kept.covered round tgts' old
          · refine .inl ?_
            simp only [InRound, setResult, hw]
            exact own.generation
        · intro req mem
          obtain ⟨hb, src⟩ := kept.sent req mem
          refine ⟨hb, ?_⟩
          cases ht : req.answered with
          | true =>
            rw [ht, if_pos rfl] at src
            exact mem_append_left _ src
          | false =>
            rw [ht, if_neg (by decide)] at src
            intro tgts' took
            obtain old | ⟨same, -⟩ := (ha _ tgts').mp took
            · exact src tgts' old
            · exact own.unsent req mem same
      · exact absurd (not_not.mp haw) hmo

theorem Kept.of_quiet (idle : ∀ wait paths, s.driver ≠ .waiting wait paths)
    (hi' : ∀ wait paths, t.driver ≠ .waiting wait paths) (hc : t.escalateFuture = none)
    (hg : t.queue.generation = s.queue.generation)
    (hi : t.queue.Every (fun x => x.1 ≤ s.queue.generation) [])
    (hr : t.replies = s.replies) (hs : t.sent = s.sent) : t.Kept := by
  have ho : ∀ round, ¬ s.InRound round := by
    intro round hir
    unfold InRound at hir
    split at hir
    next wait paths hw => exact idle wait paths hw
    next => exact hir
  refine ⟨fun wait paths hw => absurd hw (hi' wait paths), fun _ => hc, ?_, ?_, ?_, ?_, ?_, ?_, ?_⟩
  · have hu : t.stash = [] := by
      unfold stash
      split
      next wait paths hw => exact absurd hw (hi' wait paths)
      next => rfl
    rw [hu, hg]
    exact hi
  · rw [hr, hg]
    exact kept.begun
  · rw [hr]
    exact kept.unique
  · rw [hr]
    exact kept.paths
  · rw [hr, hs]
    intro round tgts ht
    exact .inr ((kept.covered round tgts ht).resolve_left (ho round))
  · rw [hs]
    exact kept.single
  · rw [hs, hg, hr]
    exact kept.sent

theorem Kept.finish {wait : Wait (List EscalateTarget)} {paths : List String}
    (hw : s.driver = .waiting wait paths) (req : AiEscalateRequest)
    (hR : req.round = s.queue.generation)
    (src : if req.answered then .accepted req.round req.targets ∈ s.replies
      else ∀ tgts, .accepted req.round tgts ∉ s.replies)
    (hl : t.driver = .listening) (hc : t.escalateFuture = none)
    (hg : t.queue.generation = s.queue.generation)
    (hi : t.queue.Every (fun x => x.1 ≤ s.queue.generation) [])
    (hr : t.replies = s.replies) (sent : t.sent = s.sent ++ [req]) : t.Kept := by
  have own := kept.round wait paths hw
  refine ⟨by simp [hl], fun _ => hc, ?_, ?_, ?_, ?_, ?_, ?_, ?_⟩
  · rw [stash, hl, hg]
    exact hi
  · rw [hr, hg]
    exact kept.begun
  · rw [hr]
    exact kept.unique
  · rw [hr]
    exact kept.paths
  · rw [hr, sent]
    intro round tgts ht
    refine .inr ?_
    obtain hir | ⟨old, hm, rfl⟩ := kept.covered round tgts ht
    · simp only [InRound, hw] at hir
      refine ⟨req, by simp, ?_⟩
      rw [hR, ← own.generation, hir]
    · exact ⟨old, mem_append_left _ hm, rfl⟩
  · rw [sent, map_append, nodup_append]
    refine ⟨kept.single, by simp, ?_⟩
    intro round hm round' hN hs
    obtain ⟨old, hB, rfl⟩ := mem_map.mp hm
    rw [map_singleton, mem_singleton] at hN
    exact own.unsent old hB (hs.trans (hN.trans hR))
  · rw [sent, hg, hr]
    intro old hm
    obtain ho' | rfl := mem_append.mp hm |>.imp_right mem_singleton.mp
    · exact kept.sent old ho'
    · exact ⟨hR.le, src⟩

omit kept in
theorem setAiTriage_cases (hc : s.escalateFuture = none) (paths : List String) :
    s.setAiTriage paths = s ∨
      s.setAiTriage paths =
        { s with
          candidates := some paths, status := .awaitingAiTriage
          futures := s.futures ++ [none], escalateFuture := some s.futures.length } := by
  unfold setAiTriage
  split
  · exact .inl rfl
  · split
    · exact .inl rfl
    · rw [hc]
      exact .inr rfl

theorem Kept.begin (hl : s.driver = .listening)
    (hf : ∀ i, t.bridge ≠ .awaiting i) {paths : List String}
    (hd : t.driver = .waiting { promptGeneration := s.queue.generation + 1 } paths)
    (hqu : t.queue = s.queue.beginPrompt) (hr : t.replies = s.replies) (hs : t.sent = s.sent)
    (hfr : ∀ i, t.escalateFuture = some i → i < t.futures.length ∧ t.future i = none) : t.Kept := by
  have hg : t.queue.generation = s.queue.generation + 1 := by rw [hqu]; rfl
  have hq : t.queue.items = s.queue.items := by rw [hqu]; rfl
  have ho : ∀ round, ¬ s.InRound round := by simp [InRound, hl]
  have hi := kept.items
  rw [stash, hl] at hi
  have hu : ∀ tgts, EscalateReply.accepted (s.queue.generation + 1) tgts ∉ s.replies := by
    intro tgts ht
    have := kept.begun _ tgts ht
    omega
  refine ⟨?_, fun idle => absurd hd (idle _ _), ?_, ?_, ?_, ?_, ?_, ?_, ?_⟩
  · intro wait paths' hw
    cases hd.symm.trans hw
    refine ⟨hg.symm, ?_, ?_, fun i ha => absurd ha (hf i), ?_⟩
    · intro i hfu
      obtain ⟨hm, hp⟩ := hfr i hfu
      refine ⟨hm, .inl ⟨hp, ?_⟩⟩
      rw [hg, hr]
      exact hu
    · rw [hg, hq]
      intro x mem hro
      have := hi x mem
      omega
    · rw [hs, hg]
      intro req mem
      have := (kept.sent req mem).1
      omega
  · rw [stash, hd, hg]
    intro x mem
    rw [hq] at mem
    exact Nat.le_succ_of_le (hi x mem)
  · rw [hr, hg]
    exact fun round tgts ht => Nat.le_succ_of_le (kept.begun round tgts ht)
  · rw [hr]
    exact kept.unique
  · rw [hr]
    exact kept.paths
  · rw [hr, hs]
    intro round tgts ht
    exact .inr ((kept.covered round tgts ht).resolve_left (ho round))
  · rw [hs]
    exact kept.single
  · rw [hs, hg, hr]
    intro req mem
    obtain ⟨hb, src⟩ := kept.sent req mem
    exact ⟨Nat.le_succ_of_le hb, src⟩

theorem Kept.aiTriageReady (idle : s.driver = .listening)
    (hf : ∀ i, s.bridge ≠ .awaiting i) (paths : List String) :
    Kept
      { { s with queue := s.queue.beginPrompt }.setAiTriage paths with
        driver := .waiting { promptGeneration := s.queue.generation + 1 } paths } := by
  have hc := kept.quiet (by simp [idle])
  obtain hi | shown :=
    setAiTriage_cases (s := { s with queue := s.queue.beginPrompt }) hc paths
  · rw [hi]
    refine kept.begin idle hf rfl rfl rfl rfl ?_
    intro i hfu
    cases hc.symm.trans hfu
  · rw [shown]
    refine kept.begin idle hf rfl rfl rfl rfl ?_
    rintro i ⟨⟩
    simp [future]

theorem Kept.forward (ht : ∀ wait paths, s.driver = .waiting wait paths →
      .accepted s.queue.generation tgts ∈ s.replies) : (s.forward tgts).Kept := by
  refine { kept with round := ?_, quiet := fun _ => rfl, items := ?_ }
  · intro wait paths hw
    have own := kept.round wait paths hw
    refine ⟨own.generation, nofun, ?_, nofun, own.unsent⟩
    have hf : s.queue.Every (fun x => x.1 = s.queue.generation →
        EscalateReply.accepted s.queue.generation x.2 ∈ s.replies) wait.stashed :=
      fun x mem hr => (own.forwarded x mem hr).1
    have put : (s.queue.put tgts (some s.queue.generation)).Every _ wait.stashed :=
      hf.put fun _ => ht wait paths hw
    exact fun x mem hr => ⟨put x mem hr, rfl⟩
  · have put : (s.queue.put tgts (some s.queue.generation)).Every _ s.stash := kept.items.put le_rfl
    exact put

theorem Kept.bridgeTurn (ht : s.bridgeTurn = some t) : t.Kept := by
  have hd : ∀ i tgts, s.escalateFuture = some i → s.future i = some tgts →
      ∀ wait paths, s.driver = .waiting wait paths →
        .accepted s.queue.generation tgts ∈ s.replies := by
    intro i tgts hF hk wait paths hw
    obtain ⟨-, ⟨hpe, -⟩ | ⟨_, hK, ha, -⟩⟩ :=
      (kept.round wait paths hw).chosen i hF
    · cases hk.symm.trans hpe
    · cases hk.symm.trans hK
      exact ha
  unfold TriageRun.bridgeTurn at ht
  split at ht
  next hp =>
    cases ht
    split
    next =>
      refine { kept with round := fun wait paths hw => ?_ }
      exact { kept.round wait paths hw with bridge := nofun }
    next =>
      split
      next => exact kept
      next i hF =>
        split
        next tgts hk => exact kept.forward (hd i tgts hF hk)
        next =>
          split
          next =>
            refine { kept with round := fun wait paths hw => ?_ }
            refine { kept.round wait paths hw with bridge := ?_ }
            rintro _ ⟨⟩
            exact hF
          next => exact kept
  next i awaiting =>
    obtain ⟨tgts, hk, rfl⟩ := map_eq_some_iff.mp ht
    refine kept.forward fun wait paths hw => ?_
    exact hd i tgts ((kept.round wait paths hw).bridge i awaiting) hk wait paths hw
  next => cases ht

omit kept in
theorem onEscalateTimeout_frame :
    s.onEscalateTimeout.queue = s.queue ∧ s.onEscalateTimeout.replies = s.replies ∧
      s.onEscalateTimeout.sent = s.sent := by
  unfold onEscalateTimeout retireFuture
  split <;> exact ⟨rfl, rfl, rfl⟩

theorem Kept.step {label : TriageLabel} (hse : s.Settled label)
    (ht : triageStep s label = some t) : t.Kept := by
  cases label with
  | escalate tgts =>
    cases ht
    exact kept.escalate hse
  | aiTriageReady paths =>
    simp only [triageStep] at ht
    split at ht
    next hl =>
      cases ht
      refine kept.aiTriageReady hl (fun i ha => ?_) paths
      simp [Settled, ha] at hse
    next => cases ht
  | proposalsReady =>
    simp only [triageStep] at ht
    split at ht
    next hl =>
      cases ht
      have hc := kept.quiet (by simp [hl])
      have items := kept.items
      rw [stash, hl] at items
      have hs : s.retireFuture = s := by rw [retireFuture, hc]
      rw [hs]
      exact kept.of_quiet (by simp [hl]) (by simp [hl]) hc rfl items rfl rfl
    next => cases ht
  | event st =>
    simp only [triageStep] at ht
    split at ht
    next hl =>
      cases ht
      have items := kept.items
      rw [stash, hl] at items
      refine kept.of_quiet (by simp [hl]) (fun wait paths => ?_)
        (kept.quiet (by simp [hl])) rfl items rfl rfl
      by_cases hterm : st ∈ terminalStatuses <;> simp [hterm]
    next => cases ht
  | take =>
    simp only [triageStep] at ht
    split at ht
    next wait paths hw =>
      obtain ⟨turn, hT, rfl⟩ := map_eq_some_iff.mp ht
      have own := kept.round wait paths hw
      have items := kept.items
      rw [stash, hw] at items
      cases turn with
      | answered tgts queue =>
        obtain ⟨hch, -, hs⟩ := OperatorAnswerQueue.Every.answered own.forwarded hT
        obtain ⟨-, ho, -⟩ := items.answered hT
        obtain ⟨took, hc⟩ := hch own.generation
        have hsn := kept.paths _ tgts took
        refine kept.finish hw ⟨wait.promptGeneration, sendable tgts, true⟩
          own.generation ?_ rfl hc hs ho rfl rfl
        rw [if_pos rfl, hsn]
        exact own.generation ▸ took
      | again wait' queue =>
        obtain ⟨hR, hf, hs⟩ := OperatorAnswerQueue.Every.again own.forwarded hT
        obtain ⟨-, ho, -⟩ := items.again hT
        refine { kept with
          round := ?_, quiet := fun hi => absurd rfl (hi wait' paths)
          items := hs ▸ ho, begun := hs ▸ kept.begun, covered := ?_, sent := ?_ }
        · rintro _ _ ⟨⟩
          refine ⟨hR.trans (own.generation.trans hs.symm), ?_, ?_, own.bridge, ?_⟩
          · simp only [Chosen, hs]
            exact own.chosen
          · simp only [hs]
            exact hf
          · simp only [hs]
            exact own.unsent
        · simp only [InRound, hR]
          simpa only [InRound, hw] using kept.covered
        · simp only [hs]
          exact kept.sent
    next => cases ht
  | expire =>
    simp only [triageStep] at ht
    split at ht
    next wait paths hw =>
      cases ht
      have own := kept.round wait paths hw
      have items := kept.items
      rw [stash, hw] at items
      obtain ⟨queue, hr, sent⟩ :=
        onEscalateTimeout_frame (s := { s with queue := s.queue.expire wait })
      refine kept.finish hw ⟨wait.promptGeneration, sendable (allowAll paths), false⟩
        own.generation ?_ rfl rfl ?_ ?_ hr ?_
      · intro tgts took
        refine hse _ took ?_
        rw [EscalateReply.round, own.generation]
      · simp only [send, queue]
        rfl
      · simp only [send, queue]
        exact items.expire
      · simp only [send, sent]
    next => cases ht
  | bridge => exact kept.bridgeTurn ht

end

theorem start_kept (status : OperationStatus) : Kept { status } := by
  refine ⟨nofun, fun _ => rfl, ?_, ?_, ?_, ?_, ?_, .nil, ?_⟩ <;>
    simp [OperatorAnswerQueue.Every, stash]

end Steps

end TriageRun

open TriageRun

/-- In every settled run the engine gets, for each round, the choice accepted in it. -/
theorem choices_honoured (status : OperationStatus) (s : TriageRun)
    (run : Reaches triageStep Settled { status } s) : s.ChoicesHonoured :=
  (run.invariant (fun _ _ _ kept settled taken => kept.step settled taken)
    (start_kept status)).choicesHonoured

/-- Two candidates are shown and the operator chooses one of them. -/
def chosenInTime : List TriageLabel :=
  [.aiTriageReady ["site.yml/a", "site.yml/b"], .bridge, .escalate [⟨"site.yml/a", []⟩], .bridge, .take]

theorem chosenInTime_honoured :
    ∃ s, follow triageStep Settled chosenInTime { status := .scanning } = some s ∧
      s.sent = [⟨1, [⟨"site.yml/a", []⟩], true⟩] ∧ s.ChoicesHonoured :=
  ⟨_, rfl, by decide, choices_honoured .scanning _ (reaches_of_follow chosenInTime rfl)⟩

/-- The wait of the driver ends when the bridge has just forwarded the choice. -/
def chosenLate : List TriageLabel :=
  [.aiTriageReady ["site.yml/a", "site.yml/b"], .bridge, .escalate [⟨"site.yml/a", []⟩], .bridge, .expire]

/-- The choice is accepted, but every candidate goes to the AI. -/
theorem chosenLate_ignored :
    ∃ s, Reaches triageStep (fun _ _ => True) { status := .scanning } s ∧
      s.replies = [.accepted 1 [⟨"site.yml/a", []⟩]] ∧
      s.sent = [⟨1, [⟨"site.yml/a", []⟩, ⟨"site.yml/b", []⟩], false⟩] ∧ ¬ s.ChoicesHonoured := by
  refine ⟨_, reaches_of_follow chosenLate rfl, by decide, by decide, fun kept => ?_⟩
  obtain ⟨inRound, -⟩ | sent := kept.honoured 1 [⟨"site.yml/a", []⟩] (by decide)
  · exact inRound
  · exact absurd sent (by decide)

end Apme.Gateway
