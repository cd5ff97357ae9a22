import Apme.Graph.Frame

/-!
# The life of a ledger record

`Evolves R new g h` says that `h` has all records of `g`, each related by `R` to
what it was, and that the records it has besides are `new`.  What an operation
can do to one record is said once per operation; runs of operations follow by
composition.
-/

set_option autoImplicit false

namespace Apme.Graph

open Apme.Lib List Option ViolationRecord Status ContentNode

variable (g : ContentGraph)

def recordAt (nodeId : String) (key : ViolationKey) : Option ViolationRecord :=
  (g.getNode nodeId).bind fun node => node.violationLedger.get? key

structure Evolves (R : ViolationRecord → ViolationRecord → Prop) (new : ViolationRecord → Prop)
    (g h : ContentGraph) : Prop where
  kept : ∀ nodeId key old, recordAt g nodeId key = some old →
    ∃ record, recordAt h nodeId key = some record ∧ R old record
  added : ∀ nodeId key record, recordAt h nodeId key = some record →
    recordAt g nodeId key = none → new record

section Evolution

variable {R : ViolationRecord → ViolationRecord → Prop} {new : ViolationRecord → Prop}
variable {g h k : ContentGraph}

theorem Evolves.refl (hr : ∀ r, R r r) (g : ContentGraph) :
    Evolves R new g g where
  kept _ _ old found := ⟨old, found, hr old⟩
  added id key r found absent := by
    rw [absent] at found
    cases found

theorem Evolves.trans (ht : ∀ a b c, R a b → R b c → R a c)
    (hs : ∀ a b, new a → R a b → new b) (first : Evolves R new g h)
    (hse : Evolves R new h k) : Evolves R new g k where
  kept id key old found := by
    obtain ⟨hb, hfb, step⟩ := first.kept id key old found
    obtain ⟨r, hr, hn⟩ := hse.kept id key hb hfb
    exact ⟨r, hr, ht old hb r step hn⟩
  added id key r found absent := by
    cases hb : recordAt h id key with
    | none => exact hse.added id key r found hb
    | some middle =>
      have hN := first.added id key middle hb absent
      obtain ⟨o, ho, step⟩ := hse.kept id key middle hb
      rw [found] at ho
      cases some.inj ho
      exact hs middle r hN step

theorem Evolves.foldl {α : Type} (hr : ∀ r, R r r)
    (ht : ∀ a b c, R a b → R b c → R a c) (hst : ∀ a b, new a → R a b → new b)
    {step : ContentGraph → α → ContentGraph} {xs : List α}
    (hs : ∀ g x, x ∈ xs → Evolves R new g (step g x)) (g : ContentGraph) :
    Evolves R new g (xs.foldl step g) := by
  refine foldl_invariant (I := Evolves R new g) ?_ g (Evolves.refl hr g)
  intro st x mem hf
  exact hf.trans ht hst (hs st x mem)

theorem recordAt_modifyNode (id o : String) (m : ContentNode → ContentNode)
    (key : ViolationKey) :
    recordAt (g.modifyNode id m) o key =
      if o = id then (g.getNode id).bind fun n => (m n).violationLedger.get? key
      else recordAt g o key := by
  unfold recordAt
  rw [ContentGraph.getNode_modifyNode]
  split
  · rw [bind_map]
    rfl
  · rfl

theorem recordAt_updateLedger (id o : String)
    (f : ViolationKey → ViolationRecord → ViolationRecord) (key : ViolationKey) :
    recordAt (g.modifyNode id (updateLedger f)) o key =
      if o = id then (recordAt g id key).map (f key) else recordAt g o key := by
  rw [recordAt_modifyNode]
  split
  · unfold recordAt updateLedger
    cases g.getNode id with
    | none => rfl
    | some n => exact Dict.get?_update n.violationLedger f key
  · rfl

theorem recordAt_keeps (hk : Keeps violationLedger g h) (id : String)
    (key : ViolationKey) : recordAt h id key = recordAt g id key := by
  have hs := congrArg (fun ledger => ledger.bind fun ledger => ledger.get? key) (hk id)
  simp only [bind_map] at hs
  exact hs

theorem mem_queryViolations_iff (st : Status) (v : Violation) :
    v ∈ g.queryViolations st ↔ ∃ id key record, recordAt g id key = some record ∧
      record.status = st ∧ record.report = v := by
  constructor
  · intro mem
    obtain ⟨record, hq, rfl⟩ := mem_map.mp mem
    obtain ⟨n, hg, hl⟩ := mem_flatMap.mp hq
    obtain ⟨id, hf⟩ := (Dict.mem_values_iff _ _).mp hg
    obtain ⟨hv, hS⟩ := mem_filter.mp hl
    obtain ⟨key, hk⟩ := (Dict.mem_values_iff _ _).mp hv
    refine ⟨id, key, record, ?_, by simpa using hS, rfl⟩
    exact bind_eq_some_iff.mpr ⟨n, hf, hk⟩
  · rintro ⟨id, key, record, hf, hS, rfl⟩
    obtain ⟨n, hg, hk⟩ := bind_eq_some_iff.mp hf
    refine mem_map.mpr ⟨record, mem_flatMap.mpr ⟨n, ?_, ?_⟩, rfl⟩
    · exact (Dict.mem_values_iff _ _).mpr ⟨id, hg⟩
    · exact mem_filter.mpr ⟨(Dict.mem_values_iff _ _).mpr ⟨key, hk⟩, by simpa using hS⟩

theorem Evolves.updateLedger (hr : ∀ r, R r r) (id : String)
    (f : ViolationKey → ViolationRecord → ViolationRecord)
    (hs : ∀ k r, R r (f k r)) :
    Evolves R new g (g.modifyNode id (updateLedger f)) where
  kept other k old found := by
    rw [recordAt_updateLedger]
    split
    next here =>
      subst here
      exact ⟨f k old, by rw [found, map_some], hs k old⟩
    next => exact ⟨old, found, hr old⟩
  added other k r found absent := by
    rw [recordAt_updateLedger] at found
    split at found
    next here =>
      subst here
      rw [absent] at found
      cases found
    next =>
      rw [absent] at found
      cases found

/-- The record that registering a violation leaves under its key. -/
def registered (v : Violation) (passNumber : Nat) : Option ViolationRecord → ViolationRecord
  | none => { violation := v, status := .opened, discoveredInPass := passNumber }
  | some existing => existing.reconfirm v

@[simp]
theorem violation_registered (v : Violation) (pass : Nat) (old : Option ViolationRecord) :
    (registered v pass old).violation = v := by
  cases old with
  | none => rfl
  | some r =>
    rw [registered, reconfirm]
    split <;> rfl

@[simp]
theorem violation_abstain (reason : Option (String × String)) (r : ViolationRecord) :
    (r.abstain reason).violation = r.violation := by
  cases reason <;> rfl

theorem recordAt_register (pass : Nat) (v : Violation) (id : String) (key : ViolationKey) :
    recordAt (ContentGraph.registerViolation pass g v) id key =
      if id = v.path ∧ key = violationKey v ∧ (g.getNode v.path).isSome then
        some (registered v pass (recordAt g id key))
      else recordAt g id key := by
  unfold ContentGraph.registerViolation
  rw [recordAt_modifyNode]
  by_cases here : id = v.path
  · subst here
    unfold recordAt register
    cases g.getNode v.path with
    | none => simp
    | some n =>
      simp only [bind_some, isSome_some, true_and, and_true, if_true,
        Dict.get?_insert]
      split
      next hs =>
        subst hs
        cases n.violationLedger.get? (violationKey v) <;> rfl
      next => rfl
  · simp [here]

theorem Evolves.register (hr : ∀ r, R r r)
    (hre : ∀ v r, R r (r.reconfirm v))
    (ho : ∀ v pass, new (registered v pass none)) (vs : List Violation) (pass : Nat)
    (ht : ∀ a b c, R a b → R b c → R a c) (hs : ∀ a b, new a → R a b → new b) :
    Evolves R new g (g.registerViolations vs pass) := by
  refine Evolves.foldl hr ht hs ?_ g
  intro st v _
  constructor
  · intro id k old hf
    rw [recordAt_register]
    split
    · exact ⟨_, rfl, by rw [hf]; exact hre v old⟩
    · exact ⟨old, hf, hr old⟩
  · intro id k r hf ha
    rw [recordAt_register, ha] at hf
    split at hf
    · cases some.inj hf
      exact ho v pass
    · cases hf

end Evolution

def documentedStatuses : List Status :=
  [.opened, .fixed, .pendingReview, .proposed, .declined, .aiAbstained]

/-- A fix for the violation is there, reviewed or not. -/
def Status.isResolved (status : Status) : Bool :=
  status = .fixed || status = .pendingReview || status = .proposed

/-- The user or the AI has said no. -/
def Status.isSticky (status : Status) : Bool := status = .declined || status = .aiAbstained

theorem sticky_ne_opened {st : Status} (hs : st.isSticky) : st ≠ .opened := by
  intro ho
  rw [ho] at hs
  cases hs

/-- What fixed the violation, and when, is known exactly while a fix is there. -/
def ViolationRecord.Attributed (record : ViolationRecord) : Prop :=
  record.fixedBy.isSome = record.status.isResolved ∧
    record.fixedInPass.isSome = record.status.isResolved

structure Lawful (old record : ViolationRecord) : Prop where
  attributed : old.Attributed → record.Attributed
  sticky : old.status.isSticky → record.status = old.status

/-- Every record is filed under its violation's node and rule. -/
def Keyed : Prop :=
  ∀ nodeId key record, recordAt g nodeId key = some record →
    nodeId = record.violation.path ∧ key = violationKey record.violation

/-- The record is not opened again. -/
def StaysClosed (old record : ViolationRecord) : Prop :=
  old.status ≠ .opened → record.status ≠ .opened

variable (record : ViolationRecord)

theorem Lawful.refl : Lawful record record := ⟨id, fun _ => rfl⟩

theorem Lawful.trans (a b c : ViolationRecord) (first : Lawful a b) (hse : Lawful b c) :
    Lawful a c where
  attributed known := hse.attributed (first.attributed known)
  sticky closed := by
    have hs := first.sticky closed
    rw [← hs] at closed
    rw [hse.sticky closed, hs]

theorem lawful_reconfirm (v : Violation) (r : ViolationRecord) :
    Lawful r (r.reconfirm v) := by
  unfold reconfirm
  constructor
  · intro hk
    unfold Attributed at hk ⊢
    cases st : r.status <;> simp_all [isResolved]
  · intro hc
    cases st : r.status <;> simp_all [isSticky]

theorem lawful_resolve (fixedBy : FixedBy) (pass : Nat) {st : Status}
    (hd : st.isResolved) {r : ViolationRecord}
    (ho : r.status = .opened) : Lawful r (r.resolve fixedBy pass st) := by
  constructor
  · intro _
    simp [Attributed, resolve, hd]
  · intro hc
    simp [ho, isSticky] at hc

theorem lawful_abstain (reason : Option (String × String)) (r : ViolationRecord)
    (ho : r.status = .opened) : Lawful r (r.abstain reason) := by
  constructor
  · intro hk
    unfold Attributed at hk ⊢
    cases reason <;> simpa [abstain, ho, isResolved] using hk
  · intro hc
    simp [ho, isSticky] at hc

theorem lawful_promote (hd : record.status.isResolved) :
    Lawful record (record.moveTo .fixed false) := by
  constructor
  · intro hk
    unfold Attributed at hk ⊢
    rw [hd] at hk
    simpa [moveTo, isResolved] using hk
  · intro hc
    cases st : record.status <;> simp_all [isSticky, isResolved]

theorem lawful_decline (ho' : record.status.isSticky = false) :
    Lawful record (record.moveTo .declined true) := by
  constructor
  · intro _
    simp [Attributed, moveTo, isResolved]
  · intro hc
    rw [ho'] at hc
    cases hc

/-- The statuses a rescan gives to what it no longer finds. -/
inductive Resolution
  | fixed | pendingReview | proposed

def Resolution.status : Resolution → Status
  | .fixed => .fixed
  | .pendingReview => .pendingReview
  | .proposed => .proposed

inductive LedgerOp
  | register (violations : List Violation) (passNumber : Nat)
  | resolve (nodeId : String) (remaining : List String) (fixedBy : FixedBy) (passNumber : Nat)
      (resolution : Resolution)
  | abstain (nodeId : String) (ruleIds : List String) (reasons : Dict String (String × String))
  | approvePendingReview (nodeId : String)
  | declinePendingReview (nodeId : String)
  | approveProposed (nodeId : String)
  | declineProposed (nodeId : String)
  | declineOpen (violations : List Violation)

namespace LedgerOp

def apply : LedgerOp → ContentGraph
  | .register violations passNumber => g.registerViolations violations passNumber
  | .resolve nodeId remaining fixedBy passNumber resolution =>
    g.resolveViolations nodeId remaining fixedBy passNumber resolution.status
  | .abstain nodeId ruleIds reasons => g.abstainViolations nodeId ruleIds reasons
  | .approvePendingReview nodeId => g.approvePendingReview nodeId
  | .declinePendingReview nodeId => g.declinePendingReview nodeId
  | .approveProposed nodeId => g.approveProposed nodeId
  | .declineProposed nodeId => g.declineProposed nodeId
  | .declineOpen violations => g.declineOpenViolations violations

def isRegister : LedgerOp → Bool
  | .register _ _ => true
  | _ => false

end LedgerOp

def runLedger (ops : List LedgerOp) : ContentGraph := ops.foldl LedgerOp.apply g

/-- All operations but registering rewrite records of single nodes, and they
rewrite open records or records with a fix. -/
theorem evolves_of_moves {R : ViolationRecord → ViolationRecord → Prop}
    {new : ViolationRecord → Prop} (reflexive : ∀ record, R record record)
    (transitive : ∀ a b c, R a b → R b c → R a c) (stays : ∀ a b, new a → R a b → new b)
    (resolve : ∀ fixedBy pass (resolution : Resolution) record, record.status = .opened →
      R record (record.resolve fixedBy pass resolution.status))
    (abstain : ∀ reason record, record.status = .opened → R record (record.abstain reason))
    (promote : ∀ record, record.status.isResolved → R record (record.moveTo .fixed false))
    (decline : ∀ record, record.status.isSticky = false → R record (record.moveTo .declined true))
    (g : ContentGraph) {op : LedgerOp} (other : op.isRegister = false) :
    Evolves R new g (op.apply g) := by
  have transition : ∀ id fromStatus dst clear,
      (∀ record, record.status = fromStatus → R record (record.moveTo dst clear)) →
        Evolves R new g (g.transitionViolations id fromStatus dst clear) := by
    intro id fromStatus dst clear moves
    apply Evolves.updateLedger reflexive
    intro k record
    split
    next here => exact moves record here
    next => exact reflexive record
  cases op with
  | register vs pass => cases other
  | resolve id rem fixedBy pass resolution =>
    apply Evolves.updateLedger reflexive
    intro k record
    split
    next gone => exact resolve fixedBy pass resolution record gone.1
    next => exact reflexive record
  | abstain id ruleIds reasons =>
    apply Evolves.updateLedger reflexive
    intro k record
    split
    next hl => exact abstain _ record hl.1
    next => exact reflexive record
  | approvePendingReview id =>
    apply transition
    intro record here
    exact promote record (by rw [here]; rfl)
  | declinePendingReview id =>
    apply transition
    intro record here
    exact decline record (by rw [here]; rfl)
  | approveProposed id =>
    apply transition
    intro record here
    exact promote record (by rw [here]; rfl)
  | declineProposed id =>
    apply transition
    intro record here
    exact decline record (by rw [here]; rfl)
  | declineOpen vs =>
    refine Evolves.foldl reflexive transitive stays ?_ g
    intro st v _
    apply Evolves.updateLedger reflexive
    intro k record
    split
    next hl => exact decline record (by rw [hl.2]; rfl)
    next => exact reflexive record

variable (g : ContentGraph)

theorem apply_lawful (op : LedgerOp) : Evolves Lawful Attributed g (op.apply g) := by
  have hs : ∀ a b : ViolationRecord, a.Attributed → Lawful a b → b.Attributed :=
    fun a b hkn step => step.attributed hkn
  cases hk : op.isRegister with
  | true =>
    cases op with
    | register vs pass =>
      refine Evolves.register Lawful.refl lawful_reconfirm ?_ vs pass Lawful.trans hs
      intro v pass
      exact ⟨rfl, rfl⟩
    | _ => cases hk
  | false =>
    refine evolves_of_moves Lawful.refl Lawful.trans hs ?_ lawful_abstain lawful_promote
      lawful_decline g hk
    intro fixedBy pass resolution r ho
    exact lawful_resolve fixedBy pass (by cases resolution <;> rfl) ho

theorem apply_staysClosed {op : LedgerOp} (ho : op.isRegister = false) :
    Evolves StaysClosed (fun r => r.status ≠ .opened) g (op.apply g) := by
  refine evolves_of_moves (fun _ => id) (fun _ _ _ first hs hc => hs (first hc))
    (fun _ _ hc step => step hc) ?_ ?_ ?_ ?_ g ho
  · intro fixedBy pass resolution r _ _
    cases resolution <;> simp [resolve, Resolution.status]
  · intro reason r _ _
    cases reason <;> simp [abstain]
  · intro r _ _
    simp [moveTo]
  · intro r _ _
    simp [moveTo]

theorem run_lawful (ops : List LedgerOp) :
    Evolves Lawful Attributed g (runLedger g ops) := by
  refine Evolves.foldl Lawful.refl Lawful.trans (fun a b hk hs => hs.attributed hk) ?_ g
  intro st op _
  exact apply_lawful st op

/-- The laws of the ledger over every run of its operations.  What is attributed
at the start stays so, and so does what a run registers. -/
theorem ledger_lifecycle (g : ContentGraph) (ops : List LedgerOp) :
    (∀ nodeId key record, recordAt (runLedger g ops) nodeId key = some record →
      record.status ∈ documentedStatuses ∧
        ((∀ old, recordAt g nodeId key = some old → old.Attributed) → record.Attributed)) ∧
    (∀ before after, ops = before ++ after → ∀ nodeId key old,
      recordAt (runLedger g before) nodeId key = some old → old.status.isSticky →
        ∃ record, recordAt (runLedger g ops) nodeId key = some record ∧
          record.status = old.status) ∧
    ∀ before op after, ops = before ++ op :: after → op.isRegister = false →
      ∀ nodeId key old record, recordAt (runLedger g before) nodeId key = some old →
        recordAt (runLedger g (before ++ [op])) nodeId key = some record →
          old.status.isResolved → record.status ≠ .opened := by
  refine ⟨?_, ?_, ?_⟩
  · intro nodeId key record found
    refine ⟨by cases record.status <;> decide, ?_⟩
    intro known
    have run := run_lawful g ops
    cases before : recordAt g nodeId key with
    | none => exact run.added nodeId key record found before
    | some old =>
      obtain ⟨other, foundOther, step⟩ := run.kept nodeId key old before
      rw [found] at foundOther
      cases some.inj foundOther
      exact step.attributed (known old before)
  · intro before after split nodeId key old found closed
    have run := run_lawful (runLedger g before) after
    obtain ⟨record, foundRecord, step⟩ := run.kept nodeId key old found
    refine ⟨record, ?_, step.sticky closed⟩
    rw [split, runLedger, foldl_append]
    exact foundRecord
  · intro before op after _ other nodeId key old record found foundRecord resolved
    have step := apply_staysClosed (runLedger g before) other
    obtain ⟨next, foundNext, closed⟩ := step.kept nodeId key old found
    rw [runLedger, foldl_append] at foundRecord
    have same : record = next := some.inj (foundRecord.symm.trans foundNext)
    rw [same]
    apply closed
    intro opened
    rw [opened] at resolved
    cases resolved

end Apme.Graph
