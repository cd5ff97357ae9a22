import Apme.Gateway.Control
import Apme.Lib.Transition

/-!
# Decisions of the gateway and of the engine

What the gateway commits for a gate, what `POST /approve` confirms and what the
driver sends to the engine are three records of one decision.  They agree in
every run in which no wait ends while an approval is under way.
-/

set_option autoImplicit false

namespace Apme.Gateway

open Apme.Lib List Transition

def approvedIds (decisions : List (String × Decision)) : List String :=
  (decisions.filter fun decision => decision.2 = .approved).map Prod.fst

variable {rows : List (Option String)}

theorem mem_approvedIds_commit {approved offered : List String} (hw : ∀ id ∈ approved, id ∈ offered)
    (here : ∀ id ∈ approved, id ≠ "" ∧ id ∈ rows.map engineId) (id : String) :
    id ∈ approvedIds (commitGateDecisions approved (some offered) rows) ↔ id ∈ approved := by
  simp only [approvedIds, commitGateDecisions, mem_map, mem_filter, mem_filterMap,
    decide_eq_true_eq, Option.any_some]
  constructor
  · rintro ⟨⟨own, dec⟩, ⟨⟨r, -, hg⟩, hA⟩, rfl⟩
    split at hg
    · cases hg
    split at hg
    · cases hg
    cases hg
    by_contra hd
    simp only at hA hd
    rw [if_neg hd] at hA
    cases hA
  · intro mem
    obtain ⟨ne, hl⟩ := here id mem
    obtain ⟨r, hR, rfl⟩ := mem_map.mp hl
    refine ⟨(engineId r, .approved), ⟨⟨r, hR, ?_⟩, rfl⟩, rfl⟩
    rw [if_neg ne, if_neg (by simpa using hw _ mem), if_pos mem]

namespace OperationRun

variable (s : OperationRun)

/-- The ids that commits for a gate have written as approved. -/
def committedApproved (gate : Nat) : List String :=
  (s.written.filter fun write => write.gate = gate).flatMap fun write => approvedIds write.decisions

/-- The gateway's records of every gate agree with what was sent for its prompt. -/
structure Agreement (s : OperationRun) : Prop where
  single : (s.sent.map ApprovalRequest.generation).Nodup
  committed : ∀ index gate request, s.gates[index]? = some gate → request ∈ s.sent →
    request.generation = gate.promptGeneration →
    ∀ id, id ∈ s.committedApproved index ↔ id ∈ request.approvedIds
  honoured : ∀ index gate ids, s.gates[index]? = some gate → .approved index ids ∈ s.replies →
    (s.AtPrompt gate.promptGeneration ∧
        ∀ request ∈ s.sent, request.generation ≠ gate.promptGeneration) ∨
      ⟨gate.promptGeneration, ids⟩ ∈ s.sent

/-- No decision that approves anything is under way for this prompt. -/
def Unapproved (generation : Nat) : Prop :=
  (∀ gate ∈ s.gates, gate.promptGeneration = generation → gate.future.getD [] = []) ∧
    s.holder.all fun commit => commit.approved = []

/-- A wait does not end after an approval was accepted for its prompt, and a
commit finds a row for each id it approves. -/
def Timely : Label → Prop
  | .expire =>
    match s.driver with
    | .waiting wait => s.Unapproved wait.promptGeneration
    | _ => True
  | .readRows rows =>
    s.holder.all fun commit => commit.approved.all fun id => id ≠ "" ∧ id ∈ rows.map engineId
  | _ => True

instance (s : OperationRun) (generation : Nat) : Decidable (s.Unapproved generation) :=
  inferInstanceAs (Decidable (_ ∧ _))

instance (s : OperationRun) (label : Label) : Decidable (s.Timely label) := by
  unfold Timely
  split
  · split <;> infer_instance
  · infer_instance
  · infer_instance

section Records

/-- What is committed and confirmed for a gate is what its future holds. -/
structure Recorded (s : OperationRun) : Prop where
  within : ∀ commit, s.holder = some commit → ∀ id ∈ commit.approved, id ∈ commit.offered
  read : ∀ commit decisions, s.holder = some commit → commit.stage = .read decisions →
    ∀ id, id ∈ approvedIds decisions ↔ id ∈ commit.approved
  resolved : ∀ index ids, s.future index = some ids →
    (∀ id, id ∈ s.committedApproved index ↔ id ∈ ids) ∧
      ∀ ids', .approved index ids' ∈ s.replies → ids' = ids
  pending : ∀ index, s.future index = none →
    (∀ ids, .approved index ids ∉ s.replies) ∧
      ∀ id, id ∈ s.committedApproved index ↔
        ∃ commit, s.holder = some commit ∧ commit.gate = index ∧ commit.stage = .written ∧
          id ∈ commit.approved

/-- What is sent for a prompt is what the future of its gate holds. -/
structure Delivered (s : OperationRun) : Prop where
  retiring : ∀ generation, s.driver = .retiring generation →
    (∀ ids, s.future (s.gates.length - 1) = some ids → ids = []) ∧
      ∀ commit, s.holder = some commit → commit.approved = []
  sent : ∀ request ∈ s.sent, s.IsAnswer (request.generation, request.approvedIds)
  covered : ∀ index < s.gates.length,
    s.AtPrompt (index + 1) ∨ ∃ request ∈ s.sent, request.generation = index + 1
  single : (s.sent.map ApprovalRequest.generation).Nodup
  outside : ∀ request ∈ s.sent, ¬ s.AtPrompt request.generation

variable {s t : OperationRun}

theorem AtPrompt.unique {gen other : Nat} (here : s.AtPrompt gen)
    (ht : s.AtPrompt other) : gen = other := by
  unfold AtPrompt at here ht
  split at here <;> simp_all

theorem committedApproved_append {w : GateWrite} (ha : t.written = s.written ++ [w])
    (i : Nat) (id : String) :
    id ∈ t.committedApproved i ↔
      id ∈ s.committedApproved i ∨ w.gate = i ∧ id ∈ approvedIds w.decisions := by
  simp only [committedApproved, ha, filter_append, flatMap_append, mem_append]
  by_cases own : w.gate = i <;> simp [own]

namespace Recorded

section

variable (recorded : s.Recorded)

include recorded

variable {commit : GateCommit}

theorem take (hf : s.holder = none)
    (hb : commit.stage = .begun) (within : ∀ id ∈ commit.approved, id ∈ commit.offered)
    (queue : OperatorAnswerQueue (List String)) (driver : Driver) :
    Recorded { s with holder := some commit, queue, driver } := by
  refine { recorded with within := ?_, read := ?_, pending := ?_ }
  · rintro _ ⟨⟩
    exact within
  · rintro _ decs ⟨⟩ read
    rw [hb] at read
    cases read
  · intro i hud
    obtain ⟨hun, hu⟩ := recorded.pending i hud
    refine ⟨hun, fun id => (hu id).trans ?_⟩
    simp [hf, hb]

theorem readRows (held : s.holder = some commit) (hb : commit.stage = .begun)
    (here : ∀ id ∈ commit.approved, id ≠ "" ∧ id ∈ rows.map engineId) :
    Recorded
      { s with
        holder := some
          { commit with
            stage := .read (commitGateDecisions commit.approved (some commit.offered) rows) } } := by
  have within := recorded.within commit held
  refine { recorded with within := ?_, read := ?_, pending := ?_ }
  · rintro _ ⟨⟩
    exact within
  · rintro _ decs ⟨⟩ ⟨⟩
    exact mem_approvedIds_commit within here
  · intro i hud
    obtain ⟨hun, hu⟩ := recorded.pending i hud
    refine ⟨hun, fun id => (hu id).trans ?_⟩
    simp [held, hb]

theorem writes (ctl : s.Controlled) {decs : List (String × Decision)}
    (held : s.holder = some commit) (hr : commit.stage = .read decs) :
    Recorded
      { s with
        holder := some { commit with stage := .written }
        written := s.written ++ [⟨commit.gate, decs⟩] } := by
  have hu := (ctl.held commit held).2
  have ha := committedApproved_append (s := s) (t :=
    { s with
      holder := some { commit with stage := .written }
      written := s.written ++ [⟨commit.gate, decs⟩] }) rfl
  refine ⟨?_, ?_, ?_, ?_⟩
  · rintro _ ⟨⟩
    exact recorded.within commit held
  · rintro _ decs ⟨⟩ ⟨⟩
  · intro index ids hk
    obtain ⟨hc, hco⟩ := recorded.resolved index ids hk
    have ho : commit.gate ≠ index := by
      rintro rfl
      cases hu.symm.trans hk
    refine ⟨fun id => (ha index id).trans ?_, hco⟩
    simp [ho, hc id]
  · intro index none
    obtain ⟨huc, hun⟩ := recorded.pending index none
    refine ⟨huc, fun id => (ha index id).trans ?_⟩
    rw [hun id]
    simp [held, hr, recorded.read commit decs held hr id]

theorem resolve (ctl : s.Controlled)
    (held : s.holder = some commit) (hwr : commit.stage = .written) :
    Recorded ({ s with holder := none }.setResult commit.gate commit.approved) := by
  obtain ⟨hm, hun⟩ := ctl.held commit held
  refine ⟨nofun, nofun, ?_, ?_⟩
  · intro i ids hk
    by_cases own : i = commit.gate
    · subst own
      rw [future_setResult (s := { s with holder := none }) hm hun] at hk
      cases hk
      obtain ⟨hu, hc⟩ := recorded.pending commit.gate hun
      refine ⟨fun id => (hc id).trans ?_, fun ids hco => absurd hco (hu ids)⟩
      simp [held, hwr]
    · rw [future_setResult_ne own] at hk
      exact recorded.resolved i ids hk
  · intro i none
    have ho : i ≠ commit.gate := by
      rintro rfl
      rw [future_setResult (s := { s with holder := Option.none }) hm hun] at none
      cases none
    rw [future_setResult_ne ho] at none
    obtain ⟨hu, huc⟩ := recorded.pending i none
    refine ⟨hu, fun id => (huc id).trans ?_⟩
    simp [setResult, held, Ne.symm ho]

theorem refuse (conflict : Conflict) : Recorded (s.reply (.refused conflict)) := by
  have hs : ∀ i ids, Reply.approved i ids ∈ s.replies ++ [.refused conflict] ↔
      Reply.approved i ids ∈ s.replies := by simp
  refine { recorded with resolved := ?_, pending := ?_ }
  · intro i ids hk
    refine ⟨(recorded.resolved i ids hk).1, fun ids' hc => ?_⟩
    exact (recorded.resolved i ids hk).2 ids' ((hs i ids').mp hc)
  · intro i hu
    refine ⟨fun ids hc => ?_, (recorded.pending i hu).2⟩
    exact (recorded.pending i hu).1 ids ((hs i ids).mp hc)

theorem confirm {gate : Nat} {ids : List String}
    (hk : s.future gate = some ids) : Recorded (s.reply (.approved gate ids)) := by
  refine { recorded with resolved := ?_, pending := ?_ }
  · intro i res hr
    refine ⟨(recorded.resolved i res hr).1, fun ids' hc => ?_⟩
    simp only [reply, mem_append, mem_singleton, Reply.approved.injEq] at hc
    obtain old | ⟨rfl, rfl⟩ := hc
    · exact (recorded.resolved i res hr).2 ids' old
    · exact Option.some.inj (hk.symm.trans hr)
  · intro i hu
    refine ⟨fun ids' hc => ?_, (recorded.pending i hu).2⟩
    simp only [reply, mem_append, mem_singleton, Reply.approved.injEq] at hc
    obtain old | ⟨rfl, rfl⟩ := hc
    · exact (recorded.pending i hu).1 ids' old
    · cases hk.symm.trans hu

theorem offer (hf : ∀ i, t.future i = s.future i) (hh : t.holder = s.holder)
    (hwr : t.written = s.written) (hr : t.replies = s.replies) : t.Recorded := by
  refine ⟨?_, ?_, ?_, ?_⟩
  · rw [hh]
    exact recorded.within
  · rw [hh]
    exact recorded.read
  · intro i ids hk
    rw [hf] at hk
    rw [committedApproved, hwr, hr]
    exact recorded.resolved i ids hk
  · intro i hu
    rw [hf] at hu
    rw [committedApproved, hwr, hr, hh]
    exact recorded.pending i hu

end

end Recorded

theorem recorded_of_effect {label : Label} (ctl : s.Controlled) (recorded : s.Recorded)
    (ht : s.Timely label) (he : Effect s label t) : t.Recorded := by
  cases he with
  | refused req conflict => exact recorded.refuse conflict
  | accepted req gate ho hf ha =>
    refine recorded.take hf rfl (fun id mem => ?_) s.queue s.driver
    exact (mem_filter.mp mem).1
  | waits req gate ho hta => exact { recorded with }
  | late gate req rest conflict hf first =>
    exact { recorded.refuse conflict with }
  | readRows rows commit held hb =>
    refine recorded.readRows held hb fun id mem => ?_
    simp only [Timely, held, Option.all_some, all_eq_true, decide_eq_true_eq] at ht
    exact ht id mem
  | writes commit decs held read => exact recorded.writes ctl held read
  | approved commit held hwr own =>
    obtain ⟨hm, hu⟩ := ctl.held commit held
    exact (recorded.resolve ctl held hwr).confirm
      (future_setResult (s := { s with holder := none }) hm hu)
  | retired commit gen held hwr own =>
    exact { recorded.resolve ctl held hwr with }
  | offered _ ps gateId queue hd hf hou xs gen waiters ha =>
    exact recorded.offer (future_offered (s := s) rfl rfl) rfl rfl rfl
  | offering ps gateId hi busy => exact { recorded with }
  | recorded gen hr => exact { recorded with }
  | event st hi => exact { recorded with }
  | answered wait ids queue hw turn => exact { recorded with }
  | again wait wait' queue hw turn => exact { recorded with }
  | expired wait hw hd => exact { recorded with }
  | retires wait gate hw ho hf ha => exact recorded.take hf rfl (by simp) _ _
  | retireWaits wait gate hw ho hta => exact { recorded with }
  | retireLate gate gen rest hf first => exact { recorded with }
  | bridge bridge => exact { recorded with }
  | forwards gate i ids hfo hd => exact { recorded with }

namespace Delivered

variable (delivered : s.Delivered)

include delivered

theorem send {gen : Nat} {ids : List String} (here : s.AtPrompt gen)
    (ha : s.IsAnswer (gen, ids)) : (s.send gen ids).Delivered := by
  refine ⟨nofun, ?_, ?_, ?_, fun _ _ => id⟩
  · intro req hm
    obtain hb | rfl := mem_append.mp hm |>.imp_right mem_singleton.mp
    · exact delivered.sent req hb
    · exact ha
  · intro i made
    obtain ht | ⟨req, hm, hp⟩ := delivered.covered i made
    · exact .inr ⟨_, mem_append_right _ (mem_singleton_self _), here.unique ht⟩
    · exact .inr ⟨req, mem_append_left _ hm, hp⟩
  · rw [OperationRun.send, map_append, nodup_append]
    refine ⟨delivered.single, by simp, ?_⟩
    intro own hm o hN hs
    obtain ⟨req, hb, rfl⟩ := mem_map.mp hm
    rw [map_singleton, mem_singleton] at hN
    exact delivered.outside req hb (hs.trans hN ▸ here)

theorem resolve (ctl : s.Controlled) {commit : GateCommit} (held : s.holder = some commit) :
    ({ s with holder := none }.setResult commit.gate commit.approved).Delivered := by
  have hl : ({ s with holder := none }.setResult commit.gate commit.approved).gates.length =
      s.gates.length := length_setResult
  obtain ⟨hm, hu⟩ := ctl.held commit held
  have last := (ctl.prompt _ (ctl.pending commit.gate hm hu).1).1
  refine ⟨fun gen hr => ⟨?_, nofun⟩, ?_, ?_, delivered.single, delivered.outside⟩
  · intro ids hk
    rw [hl, show s.gates.length - 1 = commit.gate by omega,
      future_setResult (s := { s with holder := none }) hm hu] at hk
    rw [← Option.some.inj hk]
    exact (delivered.retiring gen hr).2 commit held
  · intro req mem
    obtain ⟨i, hp, hk⟩ := delivered.sent req mem
    exact ⟨i, hp, ctl.future_kept held hk⟩
  · rw [hl]
    exact delivered.covered

theorem move (hg : t.gates = s.gates) (sent : t.sent = s.sent)
    (hs : ∀ gen, t.AtPrompt gen ↔ s.AtPrompt gen)
    (hr : ∀ gen, t.driver = .retiring gen →
      (∀ ids, t.future (t.gates.length - 1) = some ids → ids = []) ∧
        ∀ commit, t.holder = some commit → commit.approved = []) : t.Delivered := by
  refine ⟨hr, ?_, ?_, ?_, ?_⟩
  · intro req mem
    rw [sent] at mem
    obtain ⟨i, hP, hk⟩ := delivered.sent req mem
    exact ⟨i, hP, by rw [future, hg]; exact hk⟩
  · intro i hm
    rw [hg] at hm
    rw [sent, hs]
    exact delivered.covered i hm
  · rw [sent]
    exact delivered.single
  · intro req mem
    rw [sent] at mem
    rw [hs]
    exact delivered.outside req mem

end Delivered

theorem Delivered.quiet (delivered : s.Delivered) (ho : ∀ gen, ¬ s.AtPrompt gen)
    (hg : t.gates = s.gates) (hs : t.sent = s.sent) (ho' : ∀ gen, ¬ t.AtPrompt gen)
    (hi : ∀ gen, t.driver ≠ .retiring gen) : t.Delivered :=
  delivered.move hg hs (fun gen => iff_of_false (ho' gen) (ho gen)) fun gen hr => absurd hr (hi gen)

theorem Controlled.last_answer (ctl : s.Controlled) {gen : Nat}
    (here : s.AtPrompt gen) (hd : s.Resolved) :
    ∃ ids, s.future (s.gates.length - 1) = some ids ∧ s.IsAnswer (gen, ids) := by
  obtain ⟨last, hm, -⟩ := ctl.prompt gen here
  obtain ⟨ids, hk⟩ := Option.ne_none_iff_exists'.mp (hd (s.gates.length - 1) (by omega))
  exact ⟨ids, hk, s.gates.length - 1, by simp only; omega, hk⟩

theorem Unapproved.eq_nil {gen : Nat} (hu : s.Unapproved gen)
    (ctl : s.Controlled) {ids : List String} (ha : s.IsAnswer (gen, ids)) : ids = [] := by
  obtain ⟨i, hP, hk⟩ := ha
  obtain ⟨gate, hf, hd⟩ := Option.bind_eq_some_iff.mp hk
  have own := hu.1 gate (mem_of_getElem? hf) ((ctl.generations i gate hf).trans hP.symm)
  simpa [hd] using own

theorem delivered_of_effect {label : Label} (ctl : s.Controlled) (delivered : s.Delivered)
    (ht : s.Timely label) (he : Effect s label t) : t.Delivered := by
  cases he with
  | refused req conflict => exact { delivered with }
  | accepted req gate ho hf hal =>
    refine { delivered with retiring := fun gen retiring => ?_ }
    obtain ⟨commit, held, -⟩ := ctl.retiring gen retiring (by simp [driverWaiters, hal])
    cases held.symm.trans hf
  | waits req gate ho hta => exact { delivered with }
  | late gate req rest conflict hf first => exact { delivered with }
  | readRows rows commit held hb =>
    refine { delivered with retiring := fun gen retiring => ?_ }
    refine ⟨(delivered.retiring gen retiring).1, ?_⟩
    rintro _ ⟨⟩
    exact (delivered.retiring gen retiring).2 commit held
  | writes commit decs held read =>
    refine { delivered with retiring := fun gen retiring => ?_ }
    refine ⟨(delivered.retiring gen retiring).1, ?_⟩
    rintro _ ⟨⟩
    exact (delivered.retiring gen retiring).2 commit held
  | approved commit held hwr own => exact { delivered.resolve ctl held with }
  | retired commit gen held hwr own =>
    obtain ⟨made, hu⟩ := ctl.held commit held
    obtain ⟨retiring, hd, -⟩ := ctl.timeout commit gen held own
    have here : s.AtPrompt gen := by simp [AtPrompt, retiring]
    have last := (ctl.prompt _ (ctl.pending commit.gate made hu).1).1
    have hl' := (ctl.prompt _ here).1
    refine (delivered.resolve ctl held).send here ⟨commit.gate, by simp only; omega, ?_⟩
    rw [future_setResult (s := { s with holder := none }) made hu, hd]
  | offered _ ps gateId queue done hf hou xs gen waiters hal =>
    refine ⟨?_, ?_, ?_, delivered.single, ?_⟩
    · rintro _ ⟨⟩
    · intro req mem
      obtain ⟨i, hp, hk⟩ := delivered.sent req mem
      exact ⟨i, hp, (future_offered (s := s) rfl rfl i).trans hk⟩
    · intro i made
      rw [length_append] at made
      by_cases old : i < s.gates.length
      · exact .inr ((delivered.covered i old).resolve_left (hou _))
      · obtain rfl : i = s.gates.length := by
          simp only [length_singleton] at made
          omega
        exact .inl rfl
    · intro req mem hs
      obtain ⟨i, hp, hk⟩ := delivered.sent req mem
      have hi := made_of_future hk
      have hn : s.gates.length + 1 = req.generation := hs
      simp only at hp
      omega
  | offering ps gateId idle busy =>
    exact delivered.quiet (by simp [AtPrompt, idle]) rfl rfl (by simp [AtPrompt]) (by simp)
  | recorded gen hr =>
    refine delivered.move rfl rfl (fun own => ?_) (by simp)
    simp [AtPrompt, hr]
  | event st idle =>
    refine delivered.quiet (by simp [AtPrompt, idle]) rfl rfl ?_ ?_
    · intro gen
      by_cases hterm : st ∈ terminalStatuses <;> simp [AtPrompt, hterm]
    · intro gen
      by_cases hterm : st ∈ terminalStatuses <;> simp [hterm]
  | answered wait ids queue hw turn =>
    have here : s.AtPrompt wait.promptGeneration := by simp [AtPrompt, hw]
    have ans := ctl.answers
    rw [stash, hw] at ans
    obtain ⟨ha, -⟩ := ans.answered turn
    have hm : Delivered { s with queue } := { delivered with }
    exact hm.send here ha
  | again wait wait' queue hw turn =>
    have ans := ctl.answers
    rw [stash, hw] at ans
    obtain ⟨gen, -⟩ := ans.again turn
    refine delivered.move rfl rfl (fun own => ?_) (by simp)
    simp [AtPrompt, hw, gen]
  | expired wait hw done =>
    have here : s.AtPrompt wait.promptGeneration := by simp [AtPrompt, hw]
    simp only [Timely, hw] at ht
    obtain ⟨ids, -, ha⟩ := ctl.last_answer here done
    obtain rfl := ht.eq_nil ctl ha
    have hm : Delivered { s with queue := s.queue.expire wait } := { delivered with }
    exact hm.send here ha
  | retires wait gate hw ho hf hal =>
    obtain ⟨cur, hu⟩ := Controlled.openGate_eq ho
    have last := ctl.current gate cur
    refine delivered.move rfl rfl (fun own => by simp [AtPrompt, hw]) ?_
    intro gen retiring
    refine ⟨fun ids hk => ?_, ?_⟩
    · have hk : s.future (s.gates.length - 1) = some ids := hk
      rw [show s.gates.length - 1 = gate by omega, hu] at hk
      cases hk
    · rintro _ ⟨⟩
      rfl
  | retireWaits wait gate hw ho hta =>
    obtain ⟨cur, hu⟩ := Controlled.openGate_eq ho
    have last := ctl.current gate cur
    simp only [Timely, hw] at ht
    refine delivered.move rfl rfl (fun own => by simp [AtPrompt, hw]) ?_
    intro gen retiring
    refine ⟨fun ids hk => ?_, fun commit held => ?_⟩
    · have hk : s.future (s.gates.length - 1) = some ids := hk
      rw [show s.gates.length - 1 = gate by omega, hu] at hk
      cases hk
    · have hd := ht.2
      rw [show s.holder = some commit from held] at hd
      simpa using hd
  | retireLate gate gen rest hf first =>
    obtain ⟨retiring, -⟩ := ctl.retiring_of_first first
    have here : s.AtPrompt gen := by simp [AtPrompt, retiring]
    obtain ⟨ids, hk, ha⟩ := ctl.last_answer here (ctl.unqueued hf (by simp [first]))
    obtain rfl := (delivered.retiring gen retiring).1 ids hk
    have hm : Delivered { s with waiters := rest } := { delivered with }
    exact hm.send here ha
  | bridge bridge => exact { delivered with }
  | forwards gate i ids hfo done => exact { delivered with }

end Records

/-- What an operation keeps while every step is timely. -/
structure Sound (s : OperationRun) : Prop where
  control : s.Controlled
  recorded : s.Recorded
  delivered : s.Delivered

theorem start_sound (status : OperationStatus) : Sound { status } := by
  refine ⟨start_controlled status, ⟨nofun, nofun, nofun, ?_⟩, ⟨nofun, nofun, nofun, .nil, nofun⟩⟩
  intro i _
  exact ⟨nofun, fun id => by simp [committedApproved]⟩

theorem Sound.step {s t : OperationRun} {label : Label} (hs : s.Sound) (hti : s.Timely label)
    (ht : Gateway.step s label = some t) : t.Sound := by
  have he := step_effect hs.control ht
  exact ⟨he.controlled hs.control, recorded_of_effect hs.control hs.recorded hti he,
    delivered_of_effect hs.control hs.delivered hti he⟩

theorem Sound.agreement {s : OperationRun} (hso : s.Sound) : s.Agreement := by
  refine ⟨hso.delivered.single, ?_, ?_⟩
  · intro index gate req hf hm hP
    obtain ⟨own, hO, hk⟩ := hso.delivered.sent req hm
    have gen := hso.control.generations index gate hf
    obtain rfl : own = index := by
      simp only at hO
      omega
    exact (hso.recorded.resolved own _ hk).1
  · intro index gate ids hf hc
    have gen := hso.control.generations index gate hf
    have made : index < s.gates.length := (List.getElem?_eq_some_iff.mp hf).1
    rw [gen]
    obtain here | ⟨req, hm, hP⟩ := hso.delivered.covered index made
    · exact .inl ⟨here, fun req hm hs =>
        hso.delivered.outside req hm (hs ▸ here)⟩
    · obtain ⟨own, hO, hk⟩ := hso.delivered.sent req hm
      obtain rfl : own = index := by
        simp only at hO
        omega
      obtain rfl := (hso.recorded.resolved own _ hk).2 ids hc
      refine .inr ?_
      rw [← hP]
      exact hm

end OperationRun

open OperationRun

/-- In every run in which no wait ends after an approval was accepted, and every commit finds
the rows it approves, the gateway's decisions are the engine's. -/
theorem decisions_agree (status : OperationStatus) (s : OperationRun)
    (run : Reaches step Timely { status } s) : s.Agreement :=
  (run.invariant (fun _ _ _ sound timely taken => sound.step timely taken) (start_sound status)).agreement

/-- A run in which the operator approves the only proposal in time. -/
def promptApproval : List Label :=
  [.event .applying, .proposalsReady ["t1-0001"] "gate", .bridge, .stubsRecorded,
    .approve { approvedIds := ["t1-0001"] }, .readRows [some "t1-0001"], .commit, .resume, .bridge,
    .take]

theorem promptApproval_agrees :
    ∃ s, follow step Timely promptApproval { status := .scanning } = some s ∧
      s.sent = [⟨1, ["t1-0001"]⟩] ∧ s.committedApproved 0 = ["t1-0001"] ∧ s.Agreement :=
  ⟨_, rfl, by decide, by decide, decisions_agree .scanning _ (reaches_of_follow promptApproval rfl)⟩

/-- The wait ends while the request holds the lock for its commit. -/
def lateApproval : List Label :=
  [.proposalsReady ["t1-0001"] "gate", .stubsRecorded, .bridge,
    .approve { approvedIds := ["t1-0001"] }, .expire, .readRows [some "t1-0001"], .commit, .resume,
    .grant]

/-- The request is confirmed and its approval committed, but the engine gets an
empty approval. -/
theorem lateApproval_declined :
    ∃ s, Reaches step (fun _ _ => True) { status := .scanning } s ∧
      s.sent = [⟨1, []⟩] ∧ s.committedApproved 0 = ["t1-0001"] ∧
      s.replies = [.approved 0 ["t1-0001"]] ∧ ¬ s.Agreement := by
  refine ⟨_, reaches_of_follow lateApproval rfl, by decide, by decide,
    by decide, fun agreement => ?_⟩
  have committed := agreement.committed 0 _ ⟨1, []⟩ rfl (by decide) rfl "t1-0001"
  exact absurd (committed.mp (by decide)) (by decide)

end Apme.Gateway
