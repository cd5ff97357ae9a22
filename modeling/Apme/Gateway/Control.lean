import Apme.Gateway.Approval

/-!
# What a step of an operation can do

`Controlled` says how the gates, the lock, the driver and the status fit
together: a gate that is not resolved is the operation's gate and belongs to the
prompt the driver is at, and a task that waits for the lock while nobody holds
it finds every gate resolved.  It holds in every state, and under it a step does
one of the things that `Effect` lists.
-/

set_option autoImplicit false

namespace Apme.Gateway

open List Option Waiter

def Waiter.isDriver : Waiter → Bool
  | .approve _ _ => false
  | .setProposals _ _ _ => true
  | .retire _ _ => true

namespace OperationRun

section Fields

variable (s : OperationRun)

/-- The driver is at the prompt of this generation, and its gate is made. -/
def AtPrompt (generation : Nat) : Prop :=
  match s.driver with
  | .recording own => own = generation
  | .waiting wait => wait.promptGeneration = generation
  | .retiring own => own = generation
  | _ => False

def Resolved : Prop := ∀ index < s.gates.length, s.future index ≠ none

/-- The tasks of the driver among those that wait for the lock. -/
def driverWaiters : List Waiter := s.waiters.filter isDriver

/-- Where the driver is agrees with its place in the queue of the lock. -/
def DriverQueued : Prop :=
  match s.driver with
  | .offering generation =>
    ∃ front proposals gateId, s.waiters = front ++ [.setProposals proposals generation gateId] ∧
      front.filter isDriver = []
  | .retiring generation => s.driverWaiters = [] ∨ ∃ gate, s.driverWaiters = [.retire gate generation]
  | _ => s.driverWaiters = []

/-- The answers the driver has put aside. -/
def stash : List (Nat × List String) :=
  match s.driver with
  | .waiting wait => wait.stashed
  | _ => []

/-- The answer of a gate, under the generation of its prompt. -/
def IsAnswer (item : Nat × List String) : Prop :=
  ∃ index, item.1 = index + 1 ∧ s.future index = some item.2

/-- The generation of the queue counts the prompts that were begun. -/
def Counted : Prop :=
  match s.driver with
  | .offering generation =>
    generation = s.gates.length + 1 ∧ s.queue.generation = s.gates.length + 1
  | _ => s.queue.generation = s.gates.length

variable {s} {gate index : Nat} {ids : List String}

theorem made_of_future (hk : s.future index = some ids) : index < s.gates.length := by
  obtain ⟨own, hf, -⟩ := bind_eq_some_iff.mp hk
  exact (List.getElem?_eq_some_iff.mp hf).1

theorem length_setResult : (s.setResult gate ids).gates.length = s.gates.length := by
  simp [setResult]

theorem future_setResult_ne (ho : index ≠ gate) :
    (s.setResult gate ids).future index = s.future index := by
  simp [future, setResult, Ne.symm ho]

theorem future_setResult (hm : gate < s.gates.length) (hu : s.future gate = none) :
    (s.setResult gate ids).future gate = some ids := by
  obtain ⟨own, hf⟩ : ∃ own, s.gates[gate]? = some own := ⟨_, List.getElem?_eq_getElem hm⟩
  simp only [future, hf, bind_some] at hu
  simp [future, setResult, hf, hu]

theorem setResult_resolved (hd : s.future gate ≠ none) : s.setResult gate ids = s := by
  have hs : s.gates.modify gate (fun g => { g with future := g.future <|> some ids }) = s.gates := by
    refine ext_getElem? fun i => ?_
    rw [List.getElem?_modify]
    by_cases own : gate = i
    · subst own
      cases hf : s.gates[gate]? with
      | none => simp
      | some g =>
        simp only [future, hf, bind_some] at hd
        obtain ⟨res, hk⟩ := ne_none_iff_exists'.mp hd
        cases g
        simp_all
    · simp [own]
  rw [setResult, hs]

theorem gates_setResult {own : ApprovalGate} (hf : (s.setResult gate ids).gates[index]? = some own) :
    ∃ old, s.gates[index]? = some old ∧ own.promptGeneration = old.promptGeneration := by
  simp only [setResult, List.getElem?_modify, Option.map_eq_map, Option.map_eq_some_iff] at hf
  obtain ⟨old, hB, rfl⟩ := hf
  refine ⟨old, hB, ?_⟩
  split <;> rfl

end Fields

section Offer

variable {s t : OperationRun} {gate : ApprovalGate} (made : t.gates = s.gates ++ [gate])

include made

theorem getElem?_offered {index : Nat} {own : ApprovalGate} (hf : t.gates[index]? = some own) :
    s.gates[index]? = some own ∨ index = s.gates.length ∧ own = gate := by
  rw [made, List.getElem?_append] at hf
  split at hf
  next => exact .inl hf
  next hb =>
    rw [List.getElem?_singleton] at hf
    split at hf
    next first => exact .inr ⟨by omega, (some.inj hf).symm⟩
    next => cases hf

theorem future_offered (hu : gate.future = none) (index : Nat) :
    t.future index = s.future index := by
  rw [future, future, made]
  obtain old | rfl | beyond := Nat.lt_trichotomy index s.gates.length
  · rw [List.getElem?_append_left old]
  · simp [hu]
  · rw [List.getElem?_eq_none (by rw [length_append]; exact beyond),
      List.getElem?_eq_none beyond.le]

end Offer

/-- How the gates, the lock, the driver and the status fit together. -/
structure Controlled (s : OperationRun) : Prop where
  generations : ∀ index gate, s.gates[index]? = some gate → gate.promptGeneration = index + 1
  counted : s.Counted
  prompt : ∀ generation, s.AtPrompt generation →
    generation = s.gates.length ∧ 0 < s.gates.length ∧ s.status = .awaitingApproval
  current : ∀ index, s.approvalGate = some index → index + 1 = s.gates.length
  pending : ∀ index < s.gates.length, s.future index = none →
    s.AtPrompt (index + 1) ∧ s.approvalGate = some index
  unqueued : s.holder = none → s.waiters ≠ [] → s.Resolved
  held : ∀ commit, s.holder = some commit →
    commit.gate < s.gates.length ∧ s.future commit.gate = none
  timeout : ∀ commit generation, s.holder = some commit →
    commit.committer = .timeout generation →
    s.driver = .retiring generation ∧ commit.approved = [] ∧ s.driverWaiters = []
  queued : s.DriverQueued
  retiring : ∀ generation, s.driver = .retiring generation → s.driverWaiters = [] →
    ∃ commit, s.holder = some commit ∧ commit.committer = .timeout generation
  answers : s.queue.Every s.IsAnswer s.stash

/-- What a step can do. -/
inductive Effect (s : OperationRun) : Label → OperationRun → Prop
  | refused (request : ApproveRequest) (conflict : Conflict) :
      Effect s (.approve request) (s.reply (.refused conflict))
  | accepted (request : ApproveRequest) (gate : Nat) (isOpen : s.openGate = some gate)
      (free : s.holder = none) (alone : s.waiters = []) :
      Effect s (.approve request)
        { s with
          holder := some
            { committer := .approve, gate
              approved := s.proposals.filter fun id => id ∈ request.approvedIds
              offered := s.proposals } }
  | waits (request : ApproveRequest) (gate : Nat) (isOpen : s.openGate = some gate)
      (taken : s.holder ≠ none) :
      Effect s (.approve request) { s with waiters := s.waiters ++ [.approve gate request] }
  | late (gate : Nat) (request : ApproveRequest) (rest : List Waiter) (conflict : Conflict)
      (free : s.holder = none) (first : s.waiters = .approve gate request :: rest) :
      Effect s .grant ({ s with waiters := rest }.reply (.refused conflict))
  | readRows (rows : List (Option String)) (commit : GateCommit) (held : s.holder = some commit)
      (begun : commit.stage = .begun) :
      Effect s (.readRows rows)
        { s with
          holder := some
            { commit with
              stage := .read (commitGateDecisions commit.approved (some commit.offered) rows) } }
  | writes (commit : GateCommit) (decisions : List (String × Decision))
      (held : s.holder = some commit) (read : commit.stage = .read decisions) :
      Effect s .commit
        { s with
          holder := some { commit with stage := .written }
          written := s.written ++ [⟨commit.gate, decisions⟩] }
  | approved (commit : GateCommit) (held : s.holder = some commit)
      (written : commit.stage = .written) (own : commit.committer = .approve) :
      Effect s .resume (({ s with holder := none }.setResult commit.gate commit.approved).reply
        (.approved commit.gate commit.approved))
  | retired (commit : GateCommit) (generation : Nat) (held : s.holder = some commit)
      (written : commit.stage = .written) (own : commit.committer = .timeout generation) :
      Effect s .resume
        (({ s with holder := none }.setResult commit.gate commit.approved).send generation [])
  | offered (label : Label) (proposals : List String) (gateId : String)
      (queue : OperatorAnswerQueue (List String)) (resolved : s.Resolved) (free : s.holder = none)
      (outside : ∀ generation, ¬ s.AtPrompt generation)
      (items : queue.items = s.queue.items) (generation : queue.generation = s.gates.length + 1)
      (waiters : List Waiter) (alone : waiters = []) :
      Effect s label
        { s with
          proposals, queue, waiters
          gates := s.gates ++ [{ promptGeneration := s.gates.length + 1, gateId }]
          approvalGate := some s.gates.length, status := .awaitingApproval
          driver := .recording (s.gates.length + 1) }
  | offering (proposals : List String) (gateId : String) (listening : s.driver = .listening)
      (busy : s.waiters ≠ []) :
      Effect s (.proposalsReady proposals gateId)
        { s with
          queue := s.queue.beginPrompt, driver := .offering (s.gates.length + 1)
          waiters := s.waiters ++ [.setProposals proposals (s.gates.length + 1) gateId] }
  | recorded (generation : Nat) (recording : s.driver = .recording generation) :
      Effect s .stubsRecorded { s with driver := .waiting { promptGeneration := generation } }
  | event (status : OperationStatus) (listening : s.driver = .listening) :
      Effect s (.event status)
        { s with status, driver := if status ∈ terminalStatuses then .finished else .listening }
  | answered (wait : Wait (List String)) (ids : List String)
      (queue : OperatorAnswerQueue (List String)) (waiting : s.driver = .waiting wait)
      (turn : s.queue.take wait = some (.answered ids queue)) :
      Effect s .take ({ s with queue }.send wait.promptGeneration ids)
  | again (wait wait' : Wait (List String)) (queue : OperatorAnswerQueue (List String))
      (waiting : s.driver = .waiting wait)
      (turn : s.queue.take wait = some (.again wait' queue)) :
      Effect s .take { s with queue, driver := .waiting wait' }
  | expired (wait : Wait (List String)) (waiting : s.driver = .waiting wait)
      (resolved : s.Resolved) :
      Effect s .expire ({ s with queue := s.queue.expire wait }.send wait.promptGeneration [])
  | retires (wait : Wait (List String)) (gate : Nat) (waiting : s.driver = .waiting wait)
      (isOpen : s.openGate = some gate) (free : s.holder = none) (alone : s.waiters = []) :
      Effect s .expire
        { s with
          queue := s.queue.expire wait, driver := .retiring wait.promptGeneration
          holder := some
            { committer := .timeout wait.promptGeneration, gate, approved := []
              offered := s.proposals } }
  | retireWaits (wait : Wait (List String)) (gate : Nat) (waiting : s.driver = .waiting wait)
      (isOpen : s.openGate = some gate) (taken : s.holder ≠ none) :
      Effect s .expire
        { s with
          queue := s.queue.expire wait, driver := .retiring wait.promptGeneration
          waiters := s.waiters ++ [.retire gate wait.promptGeneration] }
  | retireLate (gate generation : Nat) (rest : List Waiter) (free : s.holder = none)
      (first : s.waiters = .retire gate generation :: rest) :
      Effect s .grant ({ s with waiters := rest }.send generation [])
  | bridge (bridge : Bridge) : Effect s .bridge { s with bridge }
  | forwards (gate : ApprovalGate) (index : Nat) (ids : List String)
      (found : s.gates[index]? = some gate) (resolved : gate.future = some ids) :
      Effect s .bridge (s.forward gate index ids)

namespace Controlled

variable {s t : OperationRun} {gate : Nat}

theorem openGate_eq (hO : s.openGate = some gate) :
    s.approvalGate = some gate ∧ s.future gate = none := by
  simpa [openGate, filter_eq_some_iff] using hO

section

variable (control : s.Controlled)

include control

theorem not_resolved (hO : s.openGate = some gate) : ¬ s.Resolved := by
  obtain ⟨cur, hu⟩ := openGate_eq hO
  have last := control.current gate cur
  exact fun hd => hd gate (by omega) hu

theorem free_of_resolved (hd : s.Resolved) : s.holder = none := by
  refine eq_none_iff_forall_ne_some.mpr fun commit held => ?_
  obtain ⟨made, hu⟩ := control.held commit held
  exact hd _ made hu

theorem quiet (ho : ∀ gen, ¬ s.AtPrompt gen) : s.Resolved ∧ s.holder = none := by
  have hd : s.Resolved := fun i made hu =>
    ho _ (control.pending i made hu).1
  exact ⟨hd, control.free_of_resolved hd⟩

theorem enterApprove_late (hd : s.Resolved) (gate : Nat)
    (req : ApproveRequest) (rest : List Waiter) :
    ∃ conflict, { s with waiters := rest }.enterApprove gate req =
      { s with waiters := rest }.reply (.refused conflict) := by
  unfold enterApprove
  split
  next => exact ⟨_, rfl⟩
  next hu =>
    split
    next => exact ⟨_, rfl⟩
    next cur =>
      have last := control.current gate (not_not.mp cur)
      exact absurd (not_isSome_iff_eq_none.mp hu) (hd gate (by omega))

theorem enterRetire_late (hd : s.Resolved) (gen : Nat) (rest : List Waiter) :
    { s with waiters := rest }.enterRetire gate gen = { s with waiters := rest }.send gen [] := by
  refine if_pos (or_iff_not_imp_right.mpr fun cur => ?_)
  have last := control.current gate (not_not.mp cur)
  exact isSome_iff_ne_none.mpr (hd gate (by omega))

variable {gen : Nat}

theorem resolved_of_answer {ids : List String}
    (hp : s.AtPrompt gen) (ha : s.IsAnswer (gen, ids)) : s.Resolved := by
  obtain ⟨own, hO, hk⟩ := ha
  intro i made hu
  have last := (control.prompt gen hp).1
  have hl' := (control.prompt _ (control.pending i made hu).1).1
  obtain rfl : i = own := by
    simp only at hO
    omega
  rw [hu] at hk
  cases hk

theorem resolved_of_openGate (hg : s.openGate = none) : s.Resolved := by
  intro i made hu
  have hC := (control.pending i made hu).2
  simp [openGate, hC, hu] at hg

theorem offering_of_first {ps : List String} {gateId : String}
    {rest : List Waiter} (first : s.waiters = .setProposals ps gen gateId :: rest) :
    s.driver = .offering gen ∧ rest = [] := by
  have own : s.driverWaiters = .setProposals ps gen gateId :: rest.filter isDriver := by
    rw [driverWaiters, first, filter_cons_of_pos rfl]
  have hq := control.queued
  unfold DriverQueued at hq
  split at hq
  next gen' hof =>
    obtain ⟨front, ps', i', hs, ho⟩ := hq
    rw [first] at hs
    cases front with
    | nil =>
      simp only [nil_append, List.cons.injEq, setProposals.injEq] at hs
      obtain ⟨⟨-, rfl, -⟩, rfl⟩ := hs
      exact ⟨hof, rfl⟩
    | cons waiter front =>
      simp only [cons_append, List.cons.injEq] at hs
      simp [← hs.1, isDriver] at ho
  next =>
    obtain he | ⟨gate, hr⟩ := hq
    · simp [own] at he
    · simp [own] at hr
  next => simp [own] at hq

theorem retiring_of_first {rest : List Waiter} (first : s.waiters = .retire gate gen :: rest) :
    s.driver = .retiring gen ∧ rest.filter isDriver = [] := by
  have own : s.driverWaiters = .retire gate gen :: rest.filter isDriver := by
    rw [driverWaiters, first, filter_cons_of_pos rfl]
  have hq := control.queued
  unfold DriverQueued at hq
  split at hq
  next =>
    obtain ⟨front, p, i, hs, ho⟩ := hq
    rw [first] at hs
    cases front with
    | nil => cases hs
    | cons waiter front =>
      simp only [cons_append, List.cons.injEq] at hs
      simp [← hs.1, isDriver] at ho
  next gen' hre =>
    obtain he | ⟨gate', hr⟩ := hq
    · simp [own] at he
    · rw [own, List.cons.injEq] at hr
      obtain ⟨⟨⟩, ho⟩ := hr
      exact ⟨hre, ho⟩
  next => simp [own] at hq

end

end Controlled

theorem enterSetProposals_eq {s : OperationRun}
    (hd : ∀ old, s.approvalGate = some old → s.future old ≠ none) (proposals : List String)
    (promptGeneration : Nat) (gateId : String) :
    s.enterSetProposals proposals promptGeneration gateId =
      { s with
        proposals
        gates := s.gates ++ [{ promptGeneration := promptGeneration, gateId }]
        approvalGate := some s.gates.length, status := .awaitingApproval
        driver := .recording promptGeneration } := by
  unfold enterSetProposals
  split
  next old cur => rw [setResult_resolved (hd old cur)]
  next => rfl

theorem step_effect {s t : OperationRun} {label : Label} (hc : s.Controlled)
    (ht : step s label = some t) : Effect s label t := by
  cases label with
  | approve req =>
    simp only [step, some.injEq, approveProposals] at ht
    subst ht
    split
    next => exact .refused req _
    next =>
      split
      next => exact .refused req _
      next gate isOpen =>
        unfold acquire
        split
        next lock =>
          obtain ⟨cur, hu⟩ := Controlled.openGate_eq isOpen
          rw [enter, enterApprove, if_neg (by simp [hu]), if_neg (by simp [cur])]
          split
          · exact .refused req _
          · exact .accepted req gate isOpen lock.1 lock.2
        next lock =>
          refine .waits req gate isOpen fun hf => ?_
          exact hc.not_resolved isOpen (hc.unqueued hf fun ha => lock ⟨hf, ha⟩)
  | grant =>
    simp only [step] at ht
    split at ht
    next waiter rest hf first =>
      cases ht
      have hr := hc.unqueued hf (by simp [first])
      cases waiter with
      | approve gate req =>
        obtain ⟨conflict, hre⟩ := hc.enterApprove_late hr gate req rest
        rw [enter, hre]
        exact .late gate req rest conflict hf first
      | setProposals ps gen gateId =>
        obtain ⟨hof, rfl⟩ := hc.offering_of_first first
        have hco := hc.counted
        simp only [Counted, hof] at hco
        obtain ⟨rfl, hco⟩ := hco
        rw [enter, enterSetProposals_eq fun old cur => ?_]
        · exact .offered .grant ps gateId s.queue hr hf
            (by simp [AtPrompt, hof]) rfl hco [] rfl
        · have last := hc.current old cur
          exact hr old (by omega)
      | retire gate gen =>
        rw [enter, hc.enterRetire_late hr]
        exact .retireLate gate gen rest hf first
    next => cases ht
  | readRows rows =>
    simp only [step] at ht
    split at ht
    next commit held =>
      split at ht
      next begun =>
        cases ht
        exact .readRows rows commit held begun
      next => cases ht
    next => cases ht
  | commit =>
    simp only [step] at ht
    split at ht
    next commit held =>
      split at ht
      next decisions read =>
        cases ht
        exact .writes commit decisions held read
      next => cases ht
    next => cases ht
  | resume =>
    simp only [step] at ht
    split at ht
    next commit held =>
      split at ht
      next hwr =>
        cases ht
        unfold leave
        cases own : commit.committer with
        | approve => exact .approved commit held hwr own
        | timeout gen => exact .retired commit gen held hwr own
      next => cases ht
    next => cases ht
  | proposalsReady ps gateId =>
    simp only [step] at ht
    split at ht
    next idle =>
      cases ht
      have ho : ∀ gen, ¬ s.AtPrompt gen := by simp [AtPrompt, idle]
      obtain ⟨hr, hf⟩ := hc.quiet ho
      have hco := hc.counted
      simp only [Counted, idle] at hco
      have next : s.queue.beginPrompt.generation = s.gates.length + 1 := congrArg (· + 1) hco
      rw [next]
      unfold acquire
      split
      next lock =>
        rw [enter, enterSetProposals_eq fun old cur => ?_]
        · exact .offered _ ps gateId s.queue.beginPrompt hr hf ho rfl next _ lock.2
        · have last := hc.current old cur
          exact hr old (by omega)
      next lock =>
        exact .offering ps gateId idle fun ha => lock ⟨hf, ha⟩
    next => cases ht
  | stubsRecorded =>
    simp only [step] at ht
    split at ht
    next gen recording =>
      cases ht
      exact .recorded gen recording
    next => cases ht
  | event st =>
    simp only [step] at ht
    split at ht
    next idle =>
      cases ht
      exact .event st idle
    next => cases ht
  | take =>
    simp only [step] at ht
    split at ht
    next wait hw =>
      obtain ⟨turn, htu, rfl⟩ := map_eq_some_iff.mp ht
      cases turn with
      | answered ids queue => exact .answered wait ids queue hw htu
      | again wait' queue => exact .again wait wait' queue hw htu
    next => cases ht
  | expire =>
    simp only [step] at ht
    split at ht
    next wait hw =>
      cases ht
      obtain ⟨-, -, haw⟩ := hc.prompt wait.promptGeneration (by simp [AtPrompt, hw])
      rw [onApproveTimeout, if_neg (by simp [haw])]
      split
      next noGate => exact .expired wait hw (hc.resolved_of_openGate noGate)
      next gate isOpen =>
        unfold acquire
        split
        next lock =>
          obtain ⟨cur, hu⟩ := Controlled.openGate_eq isOpen
          rw [enter, enterRetire, if_neg]
          · exact .retires wait gate hw isOpen lock.1 lock.2
          · rintro (hd | o)
            · exact isSome_iff_ne_none.mp hd hu
            · exact o cur
        next lock =>
          refine .retireWaits wait gate hw isOpen fun hf => ?_
          exact hc.not_resolved isOpen (hc.unqueued hf fun ha => lock ⟨hf, ha⟩)
    next => cases ht
  | bridge =>
    simp only [step, bridgeTurn] at ht
    split at ht
    next polling =>
      cases ht
      split
      next => exact .bridge _
      next =>
        split
        next => split <;> exact .bridge _
        next => exact .bridge s.bridge
    next i haw =>
      split at ht
      next gate found =>
        obtain ⟨ids, hr, rfl⟩ := map_eq_some_iff.mp ht
        exact .forwards gate i ids found hr
      next => cases ht
    next => cases ht

section Steps

variable {s t : OperationRun}

theorem Controlled.of_listening
    (hg : ∀ index gate, s.gates[index]? = some gate → gate.promptGeneration = index + 1)
    (hco : s.queue.generation = s.gates.length)
    (hc : ∀ index, s.approvalGate = some index → index + 1 = s.gates.length)
    (hd : s.Resolved) (hf : s.holder = none) (unq : s.driverWaiters = [])
    (ans : s.queue.Every s.IsAnswer []) (hq : s.driver = .listening ∨ s.driver = .finished) :
    s.Controlled := by
  have ho : ∀ gen, ¬ s.AtPrompt gen := by
    obtain driver | driver := hq <;> simp [AtPrompt, driver]
  refine ⟨hg, ?_, fun _ hp => absurd hp (ho _), hc,
    fun index made hu => absurd hu (hd index made), fun _ _ => hd,
    ?_, ?_, ?_, ?_, ?_⟩
  · obtain driver | driver := hq <;> simpa [Counted, driver] using hco
  · simp [hf]
  · simp [hf]
  · obtain driver | driver := hq <;> simpa [DriverQueued, driver] using unq
  · obtain driver | driver := hq <;> simp [driver]
  · obtain driver | driver := hq <;> simpa [stash, driver] using ans

namespace Controlled

variable (control : s.Controlled) {commit : GateCommit} {ids : List String}

include control

theorem counted_of_ne (hot : ∀ gen, s.driver ≠ .offering gen) :
    s.queue.generation = s.gates.length := by
  have hc := control.counted
  unfold Counted at hc
  split at hc
  next gen ho => exact absurd ho (hot gen)
  next => exact hc

theorem at_wait {wait : Wait (List String)} (hw : s.driver = .waiting wait) :
    s.driverWaiters = [] ∧ s.queue.Every s.IsAnswer wait.stashed ∧ s.queue.generation = s.gates.length ∧
      ∀ own, s.AtPrompt own ↔ wait.promptGeneration = own := by
  have hq := control.queued
  have ha := control.answers
  simp only [DriverQueued, hw] at hq
  rw [stash, hw] at ha
  exact ⟨hq, ha, control.counted_of_ne (by simp [hw]), by simp [AtPrompt, hw]⟩

theorem no_timeout (ho : ∀ gen, s.driver ≠ .retiring gen) :
    ∀ commit gen, s.holder = some commit → commit.committer ≠ .timeout gen :=
  fun commit gen held own =>
    ho gen (control.timeout commit gen held own).1

theorem resolved_setResult (held : s.holder = some commit) (ids : List String) :
    ({ s with holder := none }.setResult commit.gate ids).Resolved := by
  obtain ⟨made, hu⟩ := control.held commit held
  intro i hi
  rw [length_setResult] at hi
  by_cases own : i = commit.gate
  · subst own
    rw [future_setResult (s := { s with holder := none }) made hu]
    exact some_ne_none _
  · rw [future_setResult_ne own]
    intro hp
    have last := (control.prompt _ (control.pending i hi hp).1).1
    have hl' := (control.prompt _ (control.pending commit.gate made hu).1).1
    omega

theorem future_kept (held : s.holder = some commit) {i : Nat} {res : List String}
    (hk : s.future i = some res) :
    ({ s with holder := none }.setResult commit.gate ids).future i = some res := by
  rw [future_setResult_ne]
  · exact hk
  · rintro rfl
    rw [(control.held commit held).2] at hk
    cases hk

theorem generations_setResult {gate : Nat} :
    ∀ index own, ({ s with holder := none }.setResult gate ids).gates[index]? = some own →
      own.promptGeneration = index + 1 := by
  intro index own hf
  obtain ⟨old, hB, hs⟩ := gates_setResult hf
  rw [hs]
  exact control.generations index old hB

end Controlled

theorem Counted.of_same (hc : s.Counted) (hd : t.driver = s.driver)
    (hg : t.queue.generation = s.queue.generation)
    (hl : t.gates.length = s.gates.length) : t.Counted := by
  unfold Counted
  rw [hd, hg, hl]
  exact hc

theorem DriverQueued.of_same (hq : s.DriverQueued) (hd : t.driver = s.driver)
    (hs : t.driverWaiters = s.driverWaiters) (hb : ∀ gen, s.driver ≠ .offering gen) :
    t.DriverQueued := by
  unfold DriverQueued at hq ⊢
  rw [hd]
  cases hp : s.driver with
  | offering gen => exact absurd hp (hb gen)
  | retiring gen => simpa [hp, hs] using hq
  | _ => simpa [hp, hs] using hq

theorem DriverQueued.tail {gate : Nat} {req : ApproveRequest} {rest : List Waiter}
    (hq : s.DriverQueued) (first : s.waiters = .approve gate req :: rest)
    (hd : t.driver = s.driver) (hot : t.waiters = rest) : t.DriverQueued := by
  by_cases hb : ∀ gen, s.driver ≠ .offering gen
  · refine hq.of_same hd ?_ hb
    rw [driverWaiters, driverWaiters, first, hot, filter_cons_of_neg (by simp [isDriver])]
  · simp only [ne_eq, not_forall, not_not] at hb
    obtain ⟨gen, ho⟩ := hb
    simp only [DriverQueued, ho] at hq
    simp only [DriverQueued, hd, ho]
    obtain ⟨front, p, i, hs, only⟩ := hq
    rw [first] at hs
    cases front with
    | nil => cases hs
    | cons waiter front =>
      simp only [cons_append, List.cons.injEq] at hs
      obtain ⟨rfl, rfl⟩ := hs
      refine ⟨front, p, i, hot, ?_⟩
      rwa [filter_cons_of_neg (by simp [isDriver])] at only

namespace Controlled

variable (control : s.Controlled) {commit : GateCommit} (held : s.holder = some commit)

include control held

theorem restage (stage : CommitStage) (written : List GateWrite) :
    Controlled { s with holder := some { commit with stage }, written } := by
  refine { control with unqueued := nofun, held := ?_, timeout := ?_, retiring := ?_ }
  · rintro _ ⟨⟩
    exact control.held commit held
  · rintro _ gen ⟨⟩
    exact control.timeout commit gen held
  · intro gen retiring unqueued
    obtain ⟨_, held', own⟩ := control.retiring gen retiring unqueued
    cases held.symm.trans held'
    exact ⟨_, rfl, own⟩

theorem answers_setResult (ids : List String) :
    s.queue.Every ({ s with holder := none }.setResult commit.gate ids).IsAnswer s.stash := by
  intro x mem
  obtain ⟨i, hg, hk⟩ := control.answers x mem
  exact ⟨i, hg, control.future_kept held hk⟩

theorem resolve (own : commit.committer = .approve) (ids : List String) :
    ({ s with holder := none }.setResult commit.gate ids).Controlled := by
  have hl : ({ s with holder := none }.setResult commit.gate ids).gates.length =
      s.gates.length := length_setResult
  have hd := control.resolved_setResult held ids
  refine ⟨control.generations_setResult, control.counted.of_same rfl rfl hl, ?_, ?_,
    fun i made hu => absurd hu (hd i made), fun _ _ => hd,
    nofun, nofun, control.queued, ?_, control.answers_setResult held ids⟩
  · rw [hl]
    exact control.prompt
  · rw [hl]
    exact control.current
  · intro gen hr unq
    obtain ⟨_, held', ho⟩ := control.retiring gen hr unq
    cases held.symm.trans held'
    rw [own] at ho
    cases ho

theorem retire {gen : Nat} (own : commit.committer = .timeout gen) (ids approvedIds : List String) :
    (({ s with holder := none }.setResult commit.gate ids).send gen approvedIds).Controlled := by
  have hl : ({ s with holder := none }.setResult commit.gate ids).gates.length =
      s.gates.length := length_setResult
  obtain ⟨hr, -, unq⟩ := control.timeout commit gen held own
  refine .of_listening control.generations_setResult ?_ ?_ (control.resolved_setResult held ids) rfl
    unq ?_ (.inl rfl)
  · exact (control.counted_of_ne (by simp [hr])).trans hl.symm
  · intro i cur
    exact (control.current i cur).trans hl.symm
  · have ans := control.answers_setResult held ids
    rwa [stash, hr] at ans

end Controlled

theorem Effect.controlled {label : Label} (hc : s.Controlled) (effect : Effect s label t) :
    t.Controlled := by
  cases effect with
  | refused req conflict => exact { hc with }
  | accepted req gate isOpen free ha =>
    obtain ⟨cur, hu⟩ := Controlled.openGate_eq isOpen
    have last := hc.current gate cur
    have hm : gate < s.gates.length := by omega
    refine { hc with unqueued := nofun, held := ?_, timeout := nofun, retiring := ?_ }
    · rintro commit ⟨⟩
      exact ⟨hm, hu⟩
    · intro generation retiring unqueued
      obtain ⟨commit, held, -⟩ := hc.retiring generation retiring unqueued
      rw [free] at held
      cases held
  | waits req gate isOpen ht =>
    have hs : (s.waiters ++ [approve gate req]).filter isDriver =
        s.driverWaiters := by
      rw [filter_append, filter_cons_of_neg (by simp [isDriver])]
      exact append_nil _
    have hb : ∀ generation, s.driver ≠ .offering generation := by
      intro generation offering
      exact hc.not_resolved isOpen (hc.quiet (by simp [AtPrompt, offering])).1
    refine { hc with
      unqueued := fun free => absurd free ht, timeout := ?_
      queued := hc.queued.of_same rfl hs hb, retiring := ?_ }
    · intro commit generation held own
      obtain ⟨retiring, declines, unqueued⟩ := hc.timeout commit generation held own
      exact ⟨retiring, declines, hs.trans unqueued⟩
    · intro generation retiring unqueued
      exact hc.retiring generation retiring (hs.symm.trans unqueued)
  | late gate req rest conflict free first =>
    have hd := hc.unqueued free (by simp [first])
    have hs : rest.filter isDriver = s.driverWaiters := by
      rw [driverWaiters, first, filter_cons_of_neg (by simp [isDriver])]
    refine { hc with
      unqueued := fun _ _ => hd, timeout := ?_
      queued := hc.queued.tail first rfl rfl, retiring := ?_ }
    · intro commit generation held
      rw [show s.holder = some commit from held] at free
      cases free
    · intro generation retiring unqueued
      exact hc.retiring generation retiring (hs.symm.trans unqueued)
  | readRows rows commit held begun => exact hc.restage held _ _
  | writes commit decs held read => exact hc.restage held _ _
  | approved commit held written own => exact { hc.resolve held own _ with }
  | retired commit generation held written own => exact hc.retire held own _ _
  | offered _ p g queue hd free ho items generation waiters ha =>
    subst ha
    have hl : (s.gates ++ [ApprovalGate.mk none (s.gates.length + 1) g]).length =
        s.gates.length + 1 := length_append
    refine ⟨?_, generation.trans hl.symm, ?_, ?_, ?_, fun _ => absurd rfl, ?_, ?_, rfl, nofun, ?_⟩
    · intro i gate hf
      obtain old | ⟨rfl, rfl⟩ := getElem?_offered rfl hf
      · exact hc.generations i gate old
      · rfl
    · rintro _ ⟨⟩
      exact ⟨hl.symm, by simp, rfl⟩
    · rintro _ ⟨⟩
      exact hl.symm
    · intro i hm hu
      by_cases old : i < s.gates.length
      · exact absurd ((future_offered (s := s) rfl rfl i).symm.trans hu) (hd i old)
      · obtain rfl : i = s.gates.length := by
          rw [hl] at hm
          omega
        exact ⟨rfl, rfl⟩
    · intro commit held
      cases (show s.holder = some commit from held).symm.trans free
    · intro commit _ held
      cases (show s.holder = some commit from held).symm.trans free
    · intro x mem
      rw [stash, append_nil, items] at mem
      obtain ⟨own, hO, hk⟩ := hc.answers x (mem_append_left _ mem)
      exact ⟨own, hO, (future_offered (s := s) rfl rfl own).trans hk⟩
  | offering p g hi hb =>
    have ho : ∀ generation, ¬ s.AtPrompt generation := by simp [AtPrompt, hi]
    obtain ⟨hd, free⟩ := hc.quiet ho
    have counted := hc.counted_of_ne (by simp [hi])
    have queued := hc.queued
    simp only [DriverQueued, hi] at queued
    refine { hc with
      counted := ⟨rfl, congrArg (· + 1) counted⟩, prompt := nofun
      pending := fun i hm hu => absurd hu (hd i hm)
      unqueued := fun _ _ => hd
      timeout := ?_
      queued := ⟨s.waiters, p, g, rfl, queued⟩
      retiring := nofun
      answers := ?_ }
    · intro commit generation held
      rw [show s.holder = some commit from held] at free
      cases free
    · have answers := hc.answers
      rwa [stash, hi] at answers
  | recorded generation hr =>
    have queued := hc.queued
    have counted := hc.counted
    have answers := hc.answers
    simp only [DriverQueued, hr] at queued
    simp only [Counted, hr] at counted
    rw [stash, hr] at answers
    have here : ∀ own, s.AtPrompt own ↔ generation = own := by simp [AtPrompt, hr]
    exact { hc with
      counted := counted
      prompt := fun own atPrompt => hc.prompt own ((here own).mpr atPrompt)
      pending := fun i hm hu =>
        (hc.pending i hm hu).imp_left (here _).mp
      timeout := fun commit own held timeout =>
        absurd timeout (hc.no_timeout (by simp [hr]) commit own held)
      queued := queued, retiring := nofun, answers := answers }
  | event st hi =>
    obtain ⟨hd, free⟩ := hc.quiet (by simp [AtPrompt, hi])
    have queued := hc.queued
    have answers := hc.answers
    simp only [DriverQueued, hi] at queued
    rw [stash, hi] at answers
    refine .of_listening hc.generations (hc.counted_of_ne (by simp [hi]))
      hc.current hd free queued answers ?_
    by_cases hterm : st ∈ terminalStatuses
    · exact .inr (if_pos hterm)
    · exact .inl (if_neg hterm)
  | answered wait ids queue hw turn =>
    obtain ⟨queued, answers, counted, here⟩ := hc.at_wait hw
    obtain ⟨answer, others, hs⟩ := answers.answered turn
    have hd := hc.resolved_of_answer ((here _).mpr rfl) answer
    exact .of_listening hc.generations
      (hs.trans counted) hc.current hd
      (hc.free_of_resolved hd) queued others (.inl rfl)
  | again wait wait' queue hw turn =>
    obtain ⟨queued, answers, counted, here⟩ := hc.at_wait hw
    obtain ⟨generation, others, hs⟩ := answers.again turn
    rw [← generation] at here
    exact { hc with
      counted := hs.trans counted
      prompt := fun own atPrompt => hc.prompt own ((here own).mpr atPrompt)
      pending := fun i hm hu =>
        (hc.pending i hm hu).imp_left (here _).mp
      timeout := fun commit own held timeout =>
        absurd timeout (hc.no_timeout (by simp [hw]) commit own held)
      queued := queued, retiring := nofun, answers := others }
  | expired wait hw hd =>
    obtain ⟨queued, answers, counted, here⟩ := hc.at_wait hw
    exact .of_listening hc.generations counted
      hc.current hd (hc.free_of_resolved hd) queued answers.expire (.inl rfl)
  | retires wait gate hw isOpen free ha =>
    obtain ⟨cur, hu⟩ := Controlled.openGate_eq isOpen
    have last := hc.current gate cur
    have hm : gate < s.gates.length := by omega
    have unqueued : s.driverWaiters = [] := by simp [driverWaiters, ha]
    obtain ⟨-, answers, counted, here⟩ := hc.at_wait hw
    refine { hc with
      counted := counted
      prompt := fun own atPrompt => hc.prompt own ((here own).mpr atPrompt)
      pending := fun i hm hu =>
        (hc.pending i hm hu).imp_left (here _).mp
      unqueued := nofun, held := ?_, timeout := ?_, queued := .inl unqueued, retiring := ?_
      answers := answers.expire }
    · rintro _ ⟨⟩
      exact ⟨hm, hu⟩
    · rintro _ generation ⟨⟩ ⟨⟩
      exact ⟨rfl, rfl, unqueued⟩
    · rintro _ ⟨⟩ _
      exact ⟨_, rfl, rfl⟩
  | retireWaits wait gate hw isOpen ht =>
    obtain ⟨queued, answers, counted, here⟩ := hc.at_wait hw
    have only : (s.waiters ++ [retire gate wait.promptGeneration]).filter isDriver =
        [.retire gate wait.promptGeneration] := by
      rw [filter_append, show s.waiters.filter isDriver = [] from queued]
      rfl
    refine { hc with
      counted := counted
      prompt := fun own atPrompt => hc.prompt own ((here own).mpr atPrompt)
      pending := fun i hm hu =>
        (hc.pending i hm hu).imp_left (here _).mp
      unqueued := fun free => absurd free ht
      timeout := fun commit own held timeout =>
        absurd timeout (hc.no_timeout (by simp [hw]) commit own held)
      queued := .inr ⟨gate, only⟩, retiring := ?_, answers := answers.expire }
    · intro _ _ unqueued
      cases only.symm.trans unqueued
  | retireLate gate generation rest free first =>
    obtain ⟨retiring, others⟩ := hc.retiring_of_first first
    have answers := hc.answers
    rw [stash, retiring] at answers
    exact .of_listening hc.generations (hc.counted_of_ne (by simp [retiring]))
      hc.current (hc.unqueued free (by simp [first])) free others answers (.inl rfl)
  | bridge bridge => exact { hc with }
  | forwards gate i ids hf hd =>
    have hk : s.future i = some ids := by simp [future, hf, hd]
    have generation := hc.generations i gate hf
    refine { hc with current := ?_, pending := ?_, answers := ?_ }
    · intro own cur
      simp only [forward] at cur
      split at cur
      · cases cur
      · exact hc.current own cur
    · intro own hm hu
      obtain ⟨atPrompt, cur⟩ := hc.pending own hm hu
      refine ⟨atPrompt, ?_⟩
      rw [forward, if_neg]
      · exact cur
      · intro hs
        cases cur.symm.trans hs
        cases hk.symm.trans hu
    · exact hc.answers.put ⟨i, generation, hk⟩

theorem start_controlled (status : OperationStatus) : Controlled { status } := by
  refine .of_listening nofun rfl nofun nofun rfl rfl nofun (.inl rfl)

end Steps

end OperationRun

end Apme.Gateway
