import Apme.Gateway.Registry

/-!
# What a subscriber learns of the end

A subscriber's queue is bounded.  An ordinary message that finds it full
detaches the subscriber, a message that must be delivered makes room for itself,
and the close message is given up.  While no ordinary message finds a queue
full, every stream gets to know how its operation has ended.  `Backlog` follows
one queue of any capacity.
-/

set_option autoImplicit false

namespace Apme.Gateway

open Apme.Lib List Option Subscriber Message Transition

namespace Subscriber

/-- A message that tells the end is queued, or the stream has taken it. -/
def Learnt (sub : Subscriber) : Prop :=
  ∃ msg ∈ sub.queue ++ sub.delivered, msg.isMustDeliver ∨ msg = .close

end Subscriber

namespace Registry

/-- Every stream that has not ended knows the end of its operation when there is
one, and is not left with a queue that nobody writes to. -/
structure Informed (r : Registry) : Prop where
  outcome : ∀ sub ∈ r.subscribers, sub.stream ≠ .closed →
    r.op.status ∈ terminalStatuses ∨ r.registered = false → sub.Learnt
  written : ∀ sub ∈ r.subscribers, sub.stream ≠ .closed → sub.attached ∧ r.registered ∨ sub.Learnt

/-- No ordinary message finds a queue full, an operation that has not ended is
removed only when the close message finds room, and nobody subscribes to an
operation that has ended. -/
def Attentive (r : Registry) : RegistryLabel → Prop
  | .call call =>
    ∀ sub ∈ r.subscribers, sub.attached →
      sub.queue.length + (r.messages call).length ≤ maxsize ∨
        ∀ msg ∈ r.messages call, msg.isMustDeliver
  | .remove =>
    r.op.status ∈ terminalStatuses ∨
      ∀ sub ∈ r.subscribers, sub.attached → sub.queue.length + 1 ≤ maxsize
  | .subscribe => r.op.status ∉ terminalStatuses
  | _ => True

instance (r : Registry) (label : RegistryLabel) : Decidable (r.Attentive label) :=
  match label with
  | .call call =>
    inferInstanceAs (Decidable (∀ sub ∈ r.subscribers, sub.attached →
      sub.queue.length + (r.messages call).length ≤ maxsize ∨
        ∀ msg ∈ r.messages call, msg.isMustDeliver))
  | .remove =>
    inferInstanceAs (Decidable (r.op.status ∈ terminalStatuses ∨
      ∀ sub ∈ r.subscribers, sub.attached → sub.queue.length + 1 ≤ maxsize))
  | .subscribe => inferInstanceAs (Decidable (r.op.status ∉ terminalStatuses))
  | .assign _ => isTrue trivial
  | .stream _ _ => isTrue trivial

end Registry

namespace Subscriber

variable {sub : Subscriber}

theorem Learnt.offer (hl : sub.Learnt) (msg : Message) : (sub.offer msg).Learnt := by
  obtain ⟨told, held, ht⟩ := hl
  simp only [Subscriber.offer]
  split
  · exact ⟨told, held, ht⟩
  split
  · exact ⟨told, by simp only [mem_append] at held ⊢; tauto, ht⟩
  split
  · -- the message that makes room tells the end itself
    next hm => exact ⟨msg, by simp, .inl hm⟩
  · exact ⟨told, held, ht⟩

variable {msg : Message}

theorem learnt_offer (ha : sub.attached)
    (hm : msg.isMustDeliver) : (sub.offer msg).Learnt := by
  simp only [offer, ha, not_true_eq_false, if_false, hm, if_true]
  split <;> exact ⟨msg, by simp, .inl hm⟩

theorem stream_offer (msg : Message) : (sub.offer msg).stream = sub.stream := by
  simp only [offer]
  repeat' split
  all_goals rfl

theorem attached_offer (ha : sub.attached)
    (hm : msg.isMustDeliver) : (sub.offer msg).attached := by
  simp only [offer, ha, not_true_eq_false, if_false, hm, if_true]
  split <;> rfl

theorem attached_of_offer (hl : (sub.offer msg).attached) : sub.attached := by
  by_contra hd
  simp [offer, hd] at hl

theorem Learnt.offerAll (hl : sub.Learnt) (msgs : List Message) :
    (sub.offerAll msgs).Learnt := by
  induction msgs generalizing sub with
  | nil => exact hl
  | cons msg rest ih => exact ih (hl.offer msg)

theorem stream_offerAll (msgs : List Message) : (sub.offerAll msgs).stream = sub.stream := by
  induction msgs generalizing sub with
  | nil => rfl
  | cons msg rest ih => exact ih.trans (stream_offer msg)

variable {msgs : List Message}

theorem attached_of_offerAll (hl : (sub.offerAll msgs).attached) : sub.attached := by
  induction msgs generalizing sub with
  | nil => exact hl
  | cons msg rest ih => exact attached_of_offer (ih hl)

theorem attached_offerAll (hl : sub.attached)
    (hk : sub.queue.length + msgs.length ≤ maxsize ∨ ∀ msg ∈ msgs, msg.isMustDeliver) :
    (sub.offerAll msgs).attached := by
  rcases hk with hr | hm
  · rw [offerAll_of_room hl hr]
    exact hl
  · induction msgs generalizing sub with
    | nil => exact hl
    | cons msg rest ih =>
      exact ih (attached_offer hl (hm msg mem_cons_self)) fun o held =>
        hm o (mem_cons_of_mem _ held)

theorem learnt_offerAll (hl : sub.attached)
    (hk : sub.queue.length + msgs.length ≤ maxsize ∨ ∀ msg ∈ msgs, msg.isMustDeliver)
    (held : msg ∈ msgs) (hm : msg.isMustDeliver) : (sub.offerAll msgs).Learnt := by
  obtain ⟨first, rest, rfl⟩ := append_of_mem held
  have old : (sub.offerAll first).attached := by
    refine attached_offerAll hl ?_
    rcases hk with hr | all
    · exact .inl (by simp only [length_append] at hr; omega)
    · exact .inr fun o he => all o (mem_append_left _ he)
  have ht : ((sub.offerAll first).offer msg).Learnt := learnt_offer old hm
  simpa [offerAll] using ht.offerAll rest

end Subscriber

namespace Subscriber

variable {sub sub' : Subscriber}

theorem Learnt.shut (hl : sub.Learnt) : sub.shut.Learnt := by
  obtain ⟨told, held, ht⟩ := hl
  simp only [Subscriber.shut]
  split
  · exact ⟨told, held, ht⟩
  · refine ⟨told, ?_, ht⟩
    dsimp only
    split
    · simp only [mem_append] at held ⊢
      tauto
    · exact held

theorem learnt_shut (ha : sub.attached) (hr : sub.queue.length < maxsize) :
    sub.shut.Learnt :=
  ⟨.close, by simp [shut, ha, hr], .inr rfl⟩

theorem stream_shut : sub.shut.stream = sub.stream := by
  simp only [shut]
  split <;> rfl

theorem attached_shut : sub.shut.attached = false := by
  simp only [shut]
  split
  · simp_all
  · rfl

/-- A turn that leaves the stream open leaves it attached and knowing what it
knew: it passes on what tells the end and drops nothing else. -/
theorem turn_open {op : OperationState} {turn : StreamTurn} (ht : sub.turn op turn = some sub')
    (hs : sub'.stream ≠ .closed) :
    sub.stream ≠ .closed ∧ sub'.attached = sub.attached ∧ (sub.Learnt → sub'.Learnt) := by
  cases turn with
  | snapshot =>
    simp only [turn, takeSnapshot] at ht
    split at ht
    next hp =>
      cases ht
      refine ⟨by simp [hp], rfl, fun ⟨told, held, hte⟩ => ⟨told, ?_, hte⟩⟩
      simp only [mem_append] at held ⊢
      tauto
    next => cases ht
  | resume =>
    simp only [turn, resume] at ht
    split at ht
    next hp =>
      split at ht
      · cases ht
        exact absurd rfl hs
      · cases ht
        exact ⟨by simp [hp], rfl, id⟩
    next => cases ht
  | read =>
    simp only [turn, read] at ht
    split at ht
    next =>
      cases ht
      exact absurd rfl hs
    next msg rest _ hp hq =>
      cases ht
      refine ⟨by simp [hp], rfl, fun ⟨told, held, hte⟩ => ⟨told, ?_, hte⟩⟩
      simp only [hq, mem_append, mem_cons] at held ⊢
      tauto
    next => cases ht
  | trail =>
    simp only [turn, trail] at ht
    split at ht
    next =>
      cases ht
      exact absurd rfl hs
    next =>
      cases ht
      exact absurd rfl hs
    next msg rest o hp hq =>
      split at ht
      next hm =>
        cases ht
        refine ⟨by simp [hp], rfl, fun ⟨told, held, hte⟩ => ⟨told, ?_, hte⟩⟩
        simp only [hq, mem_append, mem_cons] at held ⊢
        tauto
      next ho =>
        cases ht
        refine ⟨by simp [hp], rfl, fun ⟨told, held, hte⟩ => ⟨told, ?_, hte⟩⟩
        simp only [hq, mem_append, mem_cons] at held ⊢
        rcases held with (rfl | hl) | hb
        · exact absurd hte (by simp_all)
        · exact .inl hl
        · exact .inr hb
    next => cases ht
  | disconnect =>
    simp only [turn, disconnect] at ht
    split at ht
    · cases ht
    · cases ht
      exact absurd rfl hs

end Subscriber

namespace Registry

/-- What the steps keep of each stream that has not ended: it is attached as
long as it does not know the end. -/
structure Watched (r : Registry) (sub : Subscriber) : Prop where
  written : sub.attached ∨ sub.Learnt
  registered : sub.attached → r.registered
  outcome : r.op.status ∈ terminalStatuses → sub.Learnt

def Watching (r : Registry) : Prop := ∀ sub ∈ r.subscribers, sub.stream ≠ .closed → r.Watched sub

section

variable {r : Registry} (watching : r.Watching)

include watching

theorem Watching.informed : r.Informed := by
  refine ⟨fun sub held hs he => ?_, fun sub held hs => ?_⟩
  · obtain ⟨hwr, hr, ho⟩ := watching sub held hs
    rcases he with ht | hg
    · exact ho ht
    · exact hwr.resolve_left fun hl => by simp [hr hl] at hg
  · obtain ⟨hwr, hr, _⟩ := watching sub held hs
    exact hwr.imp (fun hl => ⟨hl, hr hl⟩) id

theorem Watching.call {call : Call}
    (attentive : r.Attentive (.call call)) : (r.call call).Watching := by
  intro sub' held hst
  rw [call_subscribers] at held
  obtain ⟨sub, hk, rfl⟩ := mem_map.mp held
  have he := r.call_effect call
  have hs : (sub.offerAll (r.messages call)).stream = sub.stream :=
    stream_offerAll (r.messages call)
  obtain ⟨hwr, hr, ho⟩ := watching sub hk (hs ▸ hst)
  refine ⟨?_, ?_, ?_⟩
  · refine hwr.imp (fun hat => ?_) fun hl => hl.offerAll _
    exact attached_offerAll hat (attentive sub hk hat)
  · intro hat
    rw [he.registered]
    exact hr (attached_of_offerAll hat)
  · intro hterm
    rw [he.status] at hterm
    cases ha : r.target call with
    | none =>
      rw [ha] at hterm
      exact (ho hterm).offerAll _
    | some st =>
      rw [ha] at hterm
      obtain ⟨msg, sent, hn⟩ := r.status_mem_messages ha
      have hm : msg.isMustDeliver := by
        cases msg <;> simp_all [status, isMustDeliver]
      rcases hwr with hat | hl
      · exact learnt_offerAll hat (attentive sub hk hat) sent hm
      · exact hl.offerAll _

theorem Watching.remove (hat : r.Attentive .remove) : r.remove.Watching := by
  simp only [Registry.remove]
  split
  next here =>
    intro sub' held hs
    obtain ⟨sub, hk, rfl⟩ := mem_map.mp held
    obtain ⟨hw, _, ho⟩ := watching sub hk (stream_shut ▸ hs)
    have hl : sub.shut.Learnt := by
      rcases hw with ha | hl
      · rcases hat with ht | hr
        · exact (ho ht).shut
        · exact learnt_shut ha (hr sub hk ha)
      · exact hl.shut
    exact ⟨.inr hl, fun ha => by simp [attached_shut] at ha, fun _ => hl⟩
  next => exact watching

end

theorem Watching.step {r t : Registry} {label : RegistryLabel} (watching : r.Watching)
    (ha : r.Attentive label) (ht : r.step label = some t) : t.Watching := by
  cases label with
  | call call =>
    cases ht
    exact watching.call ha
  | assign values =>
    cases ht
    exact fun sub held hs => { watching sub held hs with }
  | subscribe =>
    obtain ⟨here, ⟨⟩⟩ := ite_none_right_eq_some.mp ht
    intro sub held hs
    rcases mem_append.mp held with old | new
    · exact { watching sub old hs with }
    · cases mem_singleton.mp new
      exact ⟨.inl rfl, fun _ => here, fun hterm => absurd hterm ha⟩
  | stream i turn =>
    obtain ⟨sub, hf, ht⟩ := bind_eq_some_iff.mp ht
    obtain ⟨sub', htu, rfl⟩ := map_eq_some_iff.mp ht
    intro o held hs
    rcases mem_or_eq_of_mem_set held with old | rfl
    · exact { watching o old hs with }
    · obtain ⟨hb, hat, hl⟩ := turn_open htu hs
      obtain ⟨hwr, hr, ho⟩ := watching sub (mem_of_getElem? hf) hb
      exact ⟨hat ▸ hwr.imp id hl, hat ▸ hr, fun hterm => hl (ho hterm)⟩
  | remove =>
    cases ht
    exact watching.remove ha

end Registry

open Registry in
/-- In every run of attentive steps each stream that has not ended knows how its
operation has ended, and none is left with a queue that nobody writes to. -/
theorem subscribers_informed (op : OperationState) (r : Registry)
    (reached : Reaches Registry.step Attentive { op } r) : r.Informed := by
  have watching : r.Watching := by
    refine reached.invariant (P := Watching) ?_ (by simp [Watching])
    intro _ _ _ watching attentive taken
    exact watching.step attentive taken
  exact watching.informed

/-- A subscriber that reads what it is sent, of an operation that completes. -/
def promptReader : List RegistryLabel :=
  [.subscribe, .stream 0 .snapshot, .stream 0 .resume,
    .call (.addProgress { phase := "scan", message := "", timestamp := "" }), .stream 0 .read,
    .call (.transition .completed none none)]

theorem promptReader_informed :
    ∃ r, follow Registry.step Registry.Attentive promptReader { op := { scanType := "check" } } =
        some r ∧ r.op.status = .completed ∧ r.Informed :=
  ⟨_, rfl, by decide, subscribers_informed { scanType := "check" } _
    (reaches_of_follow promptReader rfl)⟩

/-- A subscriber that has read nothing since its snapshot, after as many
progress entries. -/
def slowReader (attached : Bool) (entry : ProgressEntry) (unread told : Nat) : Registry :=
  { op := { scanType := "check", progress := List.replicate told entry }
    subscribers :=
      [{ attached
         queue := List.replicate unread (.progress entry)
         stream := .live
         delivered := [.snapshot (OperationState.toSnapshot { scanType := "check" })] }] }

theorem slowReader_reached (e : ProgressEntry) {told : Nat} (hr : told ≤ maxsize) :
    Reaches Registry.step (fun _ _ => True) { op := { scanType := "check" } }
      (slowReader true e told told) := by
  induction told with
  | zero =>
    exact reaches_of_follow [.subscribe, .stream 0 .snapshot, .stream 0 .resume] rfl
  | succ told ih =>
    refine (ih (by omega)).tail ⟨.call (.addProgress e), trivial, ?_⟩
    simp [slowReader, Registry.step, Registry.call, Registry.addProgress, Registry.broadcast,
      offer, replicate_succ', show told < maxsize by omega]

theorem slowReader_uninformed :
    ∃ r, Reaches Registry.step (fun _ _ => True) { op := { scanType := "check" } } r ∧
      r.op.status = .completed ∧ (∃ sub ∈ r.subscribers, sub.stream = .live ∧ sub.attached = false) ∧
      ¬ r.Informed := by
  let entry : ProgressEntry := { phase := "scan", message := "", timestamp := "" }
  have full := slowReader_reached entry le_rfl
  have dropped := full.tail (c := slowReader false entry maxsize (maxsize + 1))
    ⟨.call (.addProgress entry), trivial, by
      simp [slowReader, Registry.step, Registry.call, Registry.addProgress, Registry.broadcast,
        offer, replicate_succ', isMustDeliver, status]⟩
  have ended := dropped.tail ⟨.call (.transition .completed none none), trivial, rfl⟩
  refine ⟨_, ended, rfl, ⟨_, mem_singleton_self _, rfl, rfl⟩, fun informed => ?_⟩
  obtain ⟨msg, held, tells⟩ :=
    informed.outcome _ (mem_singleton_self _) (by simp [offer]) (.inl (by decide))
  rcases mem_append.mp held with unread | sent
  · obtain rfl : msg = .progress entry := eq_of_mem_replicate unread
    simp [isMustDeliver, status] at tells
  · obtain rfl := mem_singleton.mp sent
    simp [isMustDeliver, status, OperationState.toSnapshot, terminalStatuses] at tells

/-- A subscriber's queue of any capacity, with what the stream has taken from it
and what was broadcast while the subscriber was attached. -/
structure Backlog where
  attached : Bool := true
  queue : List Message := []
  consumed : List Message := []
  sent : List Message := []

namespace Backlog

variable (capacity : Nat) (b : Backlog)

def broadcast (msg : Message) : Backlog :=
  if ¬ b.attached then b
  else if b.queue.length < capacity then
    { b with queue := b.queue ++ [msg], sent := b.sent ++ [msg] }
  else if msg.isMustDeliver then
    { b with
      queue := dropOldest^[b.queue.length + 1 - capacity] b.queue ++ [msg]
      sent := b.sent ++ [msg] }
  else { b with attached := false }

def consume : Backlog :=
  match b.queue with
  | [] => b
  | msg :: rest => { b with queue := rest, consumed := b.consumed ++ [msg] }

/-- A message is broadcast, or the stream takes one. -/
def turn : Option Message → Backlog
  | some msg => b.broadcast capacity msg
  | none => b.consume

def after (events : List (Option Message)) : Backlog := events.foldl (turn capacity) {}

/-- The queue of a registry's subscriber is one of capacity `maxsize`. -/
theorem offer_eq_broadcast (sub : Subscriber) (msg : Message) : (sub.offer msg).queue =
    (Backlog.broadcast maxsize { attached := sub.attached, queue := sub.queue } msg).queue := by
  simp only [Subscriber.offer, broadcast, makeRoom]
  repeat' split
  all_goals rfl

/-- What a run keeps.  The messages that must be delivered are gone only from
the front, so the last ones that fill a queue are all there. -/
structure Kept : Prop where
  bounded : b.queue.length ≤ capacity
  ordered : b.consumed ++ b.queue <+ b.sent
  survives : ∀ late, late <:+ b.sent.filter isMustDeliver → late.length ≤ capacity →
    late <:+ (b.consumed ++ b.queue).filter isMustDeliver

variable {capacity b} {queue taken late : List Message}

theorem dropOldest_sublist : dropOldest queue <+ queue := by
  unfold dropOldest
  split
  · exact eraseP_sublist
  · exact tail_sublist queue

theorem length_dropOldest : (dropOldest queue).length = queue.length - 1 := by
  unfold dropOldest
  split
  next hl =>
    obtain ⟨msg, mem, may⟩ := any_eq_true.mp hl
    exact length_eraseP_of_mem mem may
  next => exact length_tail

theorem suffix_dropOldest (here : late <:+ (taken ++ queue).filter isMustDeliver)
    (hs : late.length < queue.length) :
    late <:+ (taken ++ dropOldest queue).filter isMustDeliver := by
  unfold dropOldest
  split
  next hl =>
    obtain ⟨msg, mem, may⟩ := any_eq_true.mp hl
    obtain ⟨gone, f, rest, -, hG, rfl, he⟩ :=
      exists_of_eraseP (p := (!isMustDeliver ·)) mem may
    rw [Bool.not_eq_true'] at hG
    rw [he]
    simpa [filter_cons, hG] using here
  next hm =>
    have all : queue.filter isMustDeliver = queue := by simpa [filter_eq_self] using hm
    have ho : queue.tail.filter isMustDeliver = queue.tail :=
      filter_eq_self.mpr fun msg mem => filter_eq_self.mp all msg (mem_of_mem_tail mem)
    rw [filter_append, all] at here
    rw [filter_append, ho]
    refine (suffix_of_suffix_length_le here ?_ ?_).trans (suffix_append _ _)
    · exact (tail_suffix queue).trans (suffix_append _ _)
    · rw [length_tail]
      omega

theorem Kept.push (hk : Kept capacity b) {old : List Message} (sub : old <+ b.queue)
    (hr : old.length < capacity) (msg : Message)
    (survives : ∀ late, late <:+ b.sent.filter isMustDeliver →
      (late ++ [msg].filter isMustDeliver).length ≤ capacity →
        late <:+ (b.consumed ++ old).filter isMustDeliver) :
    Kept capacity { b with queue := old ++ [msg], sent := b.sent ++ [msg] } where
  bounded := by simpa using Nat.succ_le_of_lt hr
  ordered := by
    rw [← append_assoc]
    exact ((sub.append_left _).trans hk.ordered).append_right [msg]
  survives := by
    intro late here hs
    rw [filter_append] at here
    rw [← append_assoc, filter_append]
    by_cases hm : msg.isMustDeliver
    · simp only [filter_cons_of_pos hm, filter_nil] at here survives ⊢
      obtain rfl | ⟨front, rfl, hl⟩ := suffix_concat_iff.mp here
      · exact nil_suffix
      · exact suffix_concat_iff.mpr (.inr ⟨front, rfl, survives front hl hs⟩)
    · simp only [filter_cons_of_neg hm, filter_nil, append_nil] at here survives ⊢
      exact survives late here hs

theorem Kept.broadcast (hpos : 0 < capacity) (hk : Kept capacity b) (msg : Message) :
    Kept capacity (b.broadcast capacity msg) := by
  have hb := hk.bounded
  unfold Backlog.broadcast
  split
  next => exact hk
  split
  next hr =>
    refine hk.push (.refl _) hr msg fun late here hs => hk.survives late here ?_
    exact (Nat.le_add_right ..).trans (length_append ▸ hs)
  next hf =>
    have ho : b.queue.length + 1 - capacity = 1 := by omega
    split
    next hm =>
      rw [ho]
      refine hk.push dropOldest_sublist ?_ msg fun late here hs => ?_
      · rw [length_dropOldest]
        omega
      · rw [filter_cons_of_pos hm, length_append] at hs
        simp at hs
        exact suffix_dropOldest (hk.survives late here (by omega)) (by omega)
    next => exact { hk with }

theorem Kept.consume (hk : Kept capacity b) : Kept capacity b.consume := by
  unfold Backlog.consume
  split
  next => exact hk
  next msg rest hq =>
    obtain ⟨hb, ho, hs⟩ := hk
    rw [hq] at hb ho hs
    refine ⟨Nat.le_of_succ_le hb, ?_, ?_⟩
    · simpa using ho
    · simpa using hs

theorem kept_after (hpos : 0 < capacity) (events : List (Option Message)) :
    Kept capacity (after capacity events) := by
  induction events using reverseRecOn with
  | nil => exact ⟨Nat.zero_le _, .refl _, fun late here _ => here⟩
  | append_singleton events event ih =>
    rw [after, foldl_append]
    cases event with
    | none => exact ih.consume
    | some msg => exact ih.broadcast hpos msg

theorem mustDeliver_survives (positive : 0 < capacity) {events : List (Option Message)}
    (run : after capacity events = b) :
    b.queue.length ≤ capacity ∧ b.consumed ++ b.queue <+ b.sent ∧
    (∀ before msg later, b.sent = before ++ msg :: later → msg.isMustDeliver →
      later.countP isMustDeliver < capacity →
        msg :: later.filter isMustDeliver <:+ (b.consumed ++ b.queue).filter isMustDeliver) ∧
    ∀ msg, msg.isMustDeliver → b.attached → ∃ old,
      (b.broadcast capacity msg).queue = old ++ [msg] ∧ old <+ b.queue ∧
        b.queue.length ≤ old.length + 1 := by
  have kept : Kept capacity b := run ▸ kept_after positive events
  have bounded := kept.bounded
  refine ⟨bounded, kept.ordered, ?_, ?_⟩
  · intro before msg later isSent must few
    refine kept.survives _ ?_ ?_
    · rw [isSent, filter_append, filter_cons_of_pos must]
      exact suffix_append ..
    · rw [length_cons, ← countP_eq_length_filter]
      exact few
  · intro msg must attached
    by_cases room : b.queue.length < capacity
    · exact ⟨_, by simp [broadcast, attached, room], .refl _, Nat.le_succ _⟩
    · have once : b.queue.length + 1 - capacity = 1 := by omega
      refine ⟨dropOldest b.queue, ?_, dropOldest_sublist, ?_⟩
      · simp [broadcast, attached, room, must, once]
      · rw [length_dropOldest]
        omega

/-- A line of progress and three results, for a queue of two that nobody reads. -/
def threeResults : List (Option Message) :=
  [some (.progress { phase := "scan", message := "", timestamp := "" }),
    some (.prCreated "first"), some (.prCreated "second"), some (.prCreated "third")]

/-- The line makes room for the second result, the first result for the third. -/
theorem threeResults_survive :
    (after 2 threeResults).queue = [.prCreated "second", .prCreated "third"] ∧
      [.prCreated "second", .prCreated "third"] <:+
        ((after 2 threeResults).consumed ++ (after 2 threeResults).queue).filter
          isMustDeliver := by
  refine ⟨rfl, ?_⟩
  obtain ⟨-, -, survives, -⟩ :=
    mustDeliver_survives (show 0 < 2 by decide) (rfl : after 2 threeResults = _)
  exact survives [_, .prCreated "first"] (.prCreated "second") [.prCreated "third"] rfl rfl
    (by decide)

end Backlog

end Apme.Gateway
