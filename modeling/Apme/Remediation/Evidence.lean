import Apme.Graph.Frame
import Apme.Remediation.Engine

/-!
# What a rescan takes as evidence

A rescan closes the open entries of the dirty nodes whose rules it does not
report.  `statusAt_rescan` says so for every answer; the theorem of this file
asks when that means that the rule was evaluated.
-/

set_option autoImplicit false

namespace Apme.Remediation

open Apme.Lib Apme.Graph List ContentNode ContentGraph ViolationRecord

section Status

/-- The status of a ledger entry. -/
def statusAt (g : ContentGraph) (nodeId : String) (key : ViolationKey) : Option Status :=
  ((g.getNode nodeId).map violationLedger).bind fun ledger =>
    (ledger.get? key).map status

variable {g h : ContentGraph} (id : String) (key : ViolationKey)

theorem statusAt_keeps (hk : Keeps violationLedger g h) :
    statusAt h id key = statusAt g id key := by
  rw [statusAt, hk id, statusAt]

theorem statusAt_modifyNode (o : String) (m : ContentNode → ContentNode) :
    statusAt (g.modifyNode o m) id key =
      if id = o then
        (g.getNode o).bind fun n =>
          ((m n).violationLedger.get? key).map status
      else statusAt g id key := by
  rw [statusAt, getNode_modifyNode]
  split
  · cases g.getNode o <;> rfl
  · rfl

theorem statusAt_resolveViolations (o : String) (rem : List String) (fixedBy : FixedBy)
    (pass : Nat) (st : Status) :
    statusAt (g.resolveViolations o rem fixedBy pass st) id key =
      (statusAt g id key).map fun old =>
        if id = o ∧ old = .opened ∧ key.2 ∉ rem then st else old := by
  rw [resolveViolations, statusAt_modifyNode]
  split
  next hs =>
    subst hs
    rw [statusAt]
    cases g.getNode id with
    | none => rfl
    | some n =>
      rw [Option.map_some, Option.bind_some, Option.bind_some, updateLedger,
        Dict.get?_update, Option.map_map, Option.map_map]
      congr 1
      funext record
      simp only [Function.comp_apply, true_and]
      split <;> rfl
  next hd => simp [hd]

section

variable (violations : List Violation) (dirty : List String) (fixedBy : FixedBy) (pass : Nat)

theorem statusAt_resolveDirty_of_closed (st old : Status) (hc : old ≠ .opened)
    (hb : statusAt g id key = some old) :
    statusAt (resolveDirtyViolations g violations dirty fixedBy pass st) id key = some old := by
  refine foldl_invariant (I := fun h => statusAt h id key = some old) (fun h o _ hf => ?_) g hb
  rw [statusAt_resolveViolations, hf]
  simp [hc]

theorem statusAt_resolveDirty {st : Status} (hcl : st ≠ .opened)
    (old : statusAt g id key = some .opened) :
    statusAt (resolveDirtyViolations g violations dirty fixedBy pass st) id key =
      some (if id ∈ dirty ∧ key.2 ∉ remainingRuleIds violations id then st
        else .opened) := by
  induction dirty generalizing g with
  | nil => simpa [resolveDirtyViolations] using old
  | cons first rest ih =>
    have hs := statusAt_resolveViolations id key (g := g) first
      (remainingRuleIds violations first) fixedBy pass st
    rw [old, Option.map_some] at hs
    rw [resolveDirtyViolations, foldl_cons]
    by_cases hc : id = first ∧ key.2 ∉ remainingRuleIds violations first
    · obtain ⟨rfl, ha⟩ := hc
      rw [if_pos ⟨rfl, rfl, ha⟩] at hs
      rw [if_pos ⟨mem_cons_self, ha⟩]
      exact statusAt_resolveDirty_of_closed id key violations rest fixedBy pass st st hcl hs
    · rw [if_neg fun all => hc ⟨all.1, all.2.2⟩] at hs
      refine (ih hs).trans (congrArg some (if_congr ?_ rfl rfl))
      constructor
      · rintro ⟨mem, ha⟩
        exact ⟨mem_cons_of_mem first mem, ha⟩
      · rintro ⟨mem, ha⟩
        rcases mem_cons.mp mem with rfl | hl
        · exact absurd ⟨rfl, ha⟩ hc
        · exact ⟨hl, ha⟩

end

theorem statusAt_register (v : Violation) (pass : Nat) (old : statusAt g id key = some .opened) :
    statusAt (registerViolation pass g v) id key = some .opened := by
  rw [registerViolation, statusAt_modifyNode]
  split
  next hs =>
    subst hs
    rw [statusAt] at old
    obtain ⟨ledger, hf, hk⟩ := Option.bind_eq_some_iff.mp old
    obtain ⟨n, hn, rfl⟩ := Option.map_eq_some_iff.mp hf
    obtain ⟨r, hr, hO⟩ := Option.map_eq_some_iff.mp hk
    rw [hn, Option.bind_some, register, Dict.get?_insert]
    split
    next here =>
      subst here
      rw [Option.map_some, hr]
      simp only [reconfirm, hO]
    next => rw [hr, Option.map_some, hO]
  next => exact old

variable (s : Engine)

theorem record_keeps_ledger (o : String) (pass : Nat) (phase : Phase) (src : Source) :
    Keeps violationLedger s.graph (s.record o pass phase src).graph := by
  unfold Engine.record
  split
  · exact Keeps.refl _
  · exact Keeps.modifyNode o fun _ => rfl

theorem recordAll_keeps_ledger (ids : List String) (pass : Nat) (phase : Phase) (src : Source) :
    Keeps violationLedger s.graph (s.recordAll ids pass phase src).graph :=
  foldl_invariant (I := fun t : Engine => Keeps violationLedger s.graph t.graph)
    (fun t o _ hf => hf.trans (record_keeps_ledger t o pass phase src))
    s (Keeps.refl _)

variable (violations : List Violation)

theorem statusAt_recordViolations (pass : Nat)
    (phase : Phase) (dirty : List String) (old : statusAt s.graph id key = some .opened) :
    statusAt (recordViolations s violations pass phase dirty).graph id key = some .opened := by
  refine foldl_invariant (I := fun h => statusAt h id key = some .opened)
    (fun h v _ hf => statusAt_register id key v pass hf) _ ?_
  exact (statusAt_keeps id key ((recordAll_keeps_ledger _ _ _ _ _).trans
    (recordAll_keeps_ledger _ _ _ _ _))).trans old

/-- After a rescan an entry that was open is closed exactly if its node is dirty
and its rule is not reported on the node. -/
theorem statusAt_rescan {cfg : EngineConfig} {pass : Nat} {fixedBy : FixedBy}
    {st : Status} (hc : st ≠ .opened) {s t : Engine} {answer : List Violation}
    (ht : rescanAnswer cfg s.rescans s.graph
      (s.graph.expandDirtyNodeIds cfg.rules s.graph.dirtyNodes) = some answer)
    (run : rescanAndRecord cfg pass fixedBy st s = .ok t)
    (old : statusAt s.graph id key = some .opened) :
    statusAt t.graph id key =
      some (if id ∈ s.graph.expandDirtyNodeIds cfg.rules s.graph.dirtyNodes ∧
        key.2 ∉ remainingRuleIds answer id then st else .opened) := by
  unfold rescanAndRecord at run
  simp only [ht] at run
  cases run
  exact statusAt_resolveDirty id key answer _ fixedBy pass hc
    (statusAt_recordViolations id key s answer pass .scanned _ old)

theorem mem_remainingRuleIds (ruleId : String) : ruleId ∈ remainingRuleIds violations id ↔
      id ≠ "" ∧ ∃ v ∈ violations, violationKey v = (id, ruleId) := by
  simp only [remainingRuleIds, mem_map, mem_filter, decide_eq_true_eq, violationKey, Prod.mk.injEq]
  constructor
  · intro hr
    obtain ⟨v, ⟨hm, hP, hp⟩, rule⟩ := hr
    exact ⟨hp ▸ hP, v, hm, hp, rule⟩
  · intro hr
    obtain ⟨hN, v, hm, hp, rule⟩ := hr
    exact ⟨v, ⟨hm, hp.symm ▸ hN, hp⟩, rule⟩

end Status

def closedStatuses : List Status := [.fixed, .pendingReview, .proposed]

/-- The entry goes from open to one of the closed statuses. -/
def Closes (g h : ContentGraph) (nodeId : String) (key : ViolationKey) : Prop :=
  statusAt g nodeId key = some .opened ∧ ∃ status ∈ closedStatuses, statusAt h nodeId key = some status

variable (rules : List GraphRule)

/-- Some enabled rule with this id is run on the node: the node is scanned, no
comment of the node skips the rule, and the rule does not raise. -/
def EvaluatedOn (g : ContentGraph) (nodeId ruleId : String) : Prop :=
  ∃ node, g.getNode nodeId = some node ∧ node.scannable ∧
    ∃ rule ∈ rules, rule.enabled ∧ normalizeRuleId rule.ruleId = ruleId ∧
      upper rule.ruleId.toList ∉ parseNoqa node.yamlLines ∧ rule.evaluate g nodeId ≠ .raised

theorem evaluatedOn_of_reported {g : ContentGraph} {ids : List String}
    {v : Violation} (hre : v ∈ graphReportToViolations (evaluateIds g rules ids)) :
    v.path ∈ ids ∧ EvaluatedOn rules g v.path (normalizeRuleId v.ruleId) := by
  obtain ⟨nodeResult, hir, hin⟩ := mem_flatMap.mp hre
  obtain ⟨⟨rule, r⟩, hr, inRule⟩ := mem_flatMap.mp hin
  obtain ⟨id, hii, he⟩ := mem_filterMap.mp hir
  obtain ⟨n, hf, he⟩ := Option.bind_eq_some_iff.mp he
  split at he
  next hsc =>
    cases Option.some.inj he
    obtain ⟨o, hru, ha⟩ := mem_filterMap.mp hr
    obtain ⟨hie, hu⟩ := mem_filter.mp hru
    obtain ⟨hm, hen⟩ := mem_filter.mp hie
    obtain ⟨res, ho, hs⟩ := Option.map_eq_some_iff.mp ha
    cases hs
    obtain ⟨here, hi, ran⟩ := mem_resultViolations ho inRule
    rw [here, hi]
    refine ⟨(mem_insertionSort _).mp hii, n, hf, hsc, rule, hm, hen, rfl, of_decide_eq_true hu, ?_⟩
    rw [ran]
    exact fun heq => by cases heq
  next => cases he

/-- The nodes a rescan without rescan function goes through. -/
def rescannedIds (cfg : EngineConfig) (g : ContentGraph) : List String :=
  g.expandDirtyNodeIds (cfg.rules.filter GraphRule.enabled)
    (g.expandDirtyNodeIds cfg.rules g.dirtyNodes)

theorem closes_rescan_iff {cfg : EngineConfig} {pass : Nat} {fixedBy : FixedBy}
    {st : Status} (hc : st ∈ closedStatuses) {s t : Engine} {answer : List Violation}
    (ht : rescanAnswer cfg s.rescans s.graph
      (s.graph.expandDirtyNodeIds cfg.rules s.graph.dirtyNodes) = some answer)
    (run : rescanAndRecord cfg pass fixedBy st s = .ok t) (id : String)
    (key : ViolationKey) :
    Closes s.graph t.graph id key ↔
      statusAt s.graph id key = some .opened ∧
        id ∈ s.graph.expandDirtyNodeIds cfg.rules s.graph.dirtyNodes ∧
          ¬ (id ≠ "" ∧ ∃ v ∈ answer, violationKey v = (id, key.2)) := by
  have ho : st ≠ .opened := by
    rintro rfl
    exact absurd hc (by decide)
  refine and_congr_right fun hop => ?_
  rw [← mem_remainingRuleIds id answer key.2, statusAt_rescan id key ho ht run hop]
  constructor
  · intro hcl
    obtain ⟨closed, hC, now⟩ := hcl
    split at now
    next hb => exact hb
    next =>
      cases Option.some.inj now
      exact absurd hC (by decide)
  · intro hb
    exact ⟨st, hc, by rw [if_pos hb]⟩

/-- A built-in rescan closes entries on evidence alone exactly if, for every open
entry of the nodes in question, a rule of that id is run on the node; findings
on a node without a name are not heard. -/
theorem builtin_rescan_evidence_iff (cfg : EngineConfig) (builtin : cfg.rescanFn = none)
    (passNumber : Nat) (fixedBy : FixedBy) (status : Status) (closing : status ∈ closedStatuses)
    (s t : Engine) (run : rescanAndRecord cfg passNumber fixedBy status s = .ok t) :
    (∀ nodeId key, Closes s.graph t.graph nodeId key →
      (nodeId ∈ rescannedIds cfg s.graph ∧ EvaluatedOn cfg.rules s.graph nodeId key.2) ∧
        ∀ v ∈ graphReportToViolations (rescanDirty s.graph cfg.rules
          (s.graph.expandDirtyNodeIds cfg.rules s.graph.dirtyNodes)),
            violationKey v ≠ (nodeId, key.2)) ↔
      ∀ nodeId ∈ s.graph.expandDirtyNodeIds cfg.rules s.graph.dirtyNodes, ∀ key,
        statusAt s.graph nodeId key = some .opened →
          EvaluatedOn cfg.rules s.graph nodeId key.2 ∧
            (nodeId = "" → ∀ v ∈ graphReportToViolations (rescanDirty s.graph cfg.rules
              (s.graph.expandDirtyNodeIds cfg.rules s.graph.dirtyNodes)),
                violationKey v ≠ (nodeId, key.2)) := by
  have closes := closes_rescan_iff closing (by rw [rescanAnswer, builtin]) run
  constructor
  · intro evidence nodeId dirty key isOpen
    by_cases heard : nodeId ≠ "" ∧ ∃ v ∈ graphReportToViolations (rescanDirty s.graph cfg.rules
        (s.graph.expandDirtyNodeIds cfg.rules s.graph.dirtyNodes)),
        violationKey v = (nodeId, key.2)
    · -- the rule reports the node, so it was run
      obtain ⟨hasName, v, inReport, same⟩ := heard
      obtain ⟨path, ruleId⟩ := Prod.mk.inj same
      have ran := (evaluatedOn_of_reported _ inReport).2
      rw [path, ruleId] at ran
      exact ⟨ran, fun noName => absurd noName hasName⟩
    · obtain ⟨evaluated, unreported⟩ :=
        evidence nodeId key ((closes nodeId key).mpr ⟨isOpen, dirty, heard⟩)
      exact ⟨evaluated.2, fun _ => unreported⟩
  · intro condition nodeId key closed
    obtain ⟨isOpen, dirty, unheard⟩ := (closes nodeId key).mp closed
    obtain ⟨evaluated, silent⟩ := condition nodeId dirty key isOpen
    refine ⟨⟨mem_expandDirtyNodeIds _ _ dirty, evaluated⟩, ?_⟩
    intro v inReport same
    by_cases noName : nodeId = ""
    · exact silent noName v inReport same
    · exact unheard ⟨noName, v, inReport, same⟩

def plainTask : ContentGraph :=
  { nodes := Dict.ofList [("task", { nodeType := .task, yamlLines := "- shell: ls\n".toList })] }

/-- A task with open findings whose text has just been changed. -/
def editedTask (findings : List Violation) : Engine :=
  { graph := (plainTask.registerViolations findings 0).rewrite "task" "- command: ls\n".toList }

def openFinding : Violation := { ruleId := "L030", path := "task" }

/-- A rule that finds nothing. -/
def satisfiedRule : GraphRule :=
  { ruleId := "L030", evaluate := fun _ _ => .notMatched
    names_node := fun _ _ _ found => by cases found }

/-- A rule that raises on every node. -/
def raisingRule : GraphRule :=
  { ruleId := "L030", evaluate := fun _ _ => .raised
    names_node := fun _ _ _ found => by cases found }

def rescanWith (rule : GraphRule) : EngineConfig := { registry := fun _ => none, rules := [rule] }

theorem editedTask_open {id : String} {k : ViolationKey}
    (ho : statusAt (editedTask [openFinding]).graph id k = some .opened) :
    id = "task" ∧ k = ("task", "L030") := by
  obtain ⟨ledger, hf, hk⟩ := Option.bind_eq_some_iff.mp ho
  obtain ⟨n, hn, rfl⟩ := Option.map_eq_some_iff.mp hf
  obtain ⟨r, hr, -⟩ := Option.map_eq_some_iff.mp hk
  obtain ⟨rfl, rfl⟩ := Prod.mk.inj (mem_singleton.mp ((Dict.get?_eq_some_iff _ _ _).mp hn))
  exact ⟨rfl, (Prod.mk.inj (mem_singleton.mp ((Dict.get?_eq_some_iff _ _ _).mp hr))).1⟩

theorem satisfiedRule_evaluated :
    EvaluatedOn [satisfiedRule] (editedTask [openFinding]).graph "task" "L030" := by
  cases hf : (editedTask [openFinding]).graph.getNode "task" with
  | none => exact absurd hf (by decide)
  | some n =>
    obtain ⟨-, rfl⟩ := Prod.mk.inj (mem_singleton.mp ((Dict.get?_eq_some_iff _ _ _).mp hf))
    exact ⟨_, hf, by decide, satisfiedRule, mem_singleton.mpr rfl, rfl, by decide,
      by decide, by decide⟩

/-- The entry of a rule that is run and finds nothing is closed. -/
theorem satisfiedRule_closes_on_evidence :
    Holds
      (fun t => Closes (editedTask [openFinding]).graph t.graph "task" ("task", "L030") ∧
        ∀ nodeId key, Closes (editedTask [openFinding]).graph t.graph nodeId key →
          (nodeId ∈ rescannedIds (rescanWith satisfiedRule) (editedTask [openFinding]).graph ∧
            EvaluatedOn [satisfiedRule] (editedTask [openFinding]).graph nodeId key.2) ∧
          ∀ v ∈ graphReportToViolations (rescanDirty (editedTask [openFinding]).graph
              [satisfiedRule] ["task"]), violationKey v ≠ (nodeId, key.2))
      (fun _ => False)
      (rescanAndRecord (rescanWith satisfiedRule) 1 .deterministic .fixed
        (editedTask [openFinding])) := by
  have facts : Holds
      (fun t => statusAt t.graph "task" ("task", "L030") = some .fixed) (fun _ => False)
      (rescanAndRecord (rescanWith satisfiedRule) 1 .deterministic .fixed
        (editedTask [openFinding])) := by
    decide
  cases run : rescanAndRecord (rescanWith satisfiedRule) 1 .deterministic .fixed
      (editedTask [openFinding]) with
  | error failed => rwa [run] at facts
  | ok t =>
    rw [run] at facts
    refine ⟨⟨by decide, .fixed, by decide, facts⟩, ?_⟩
    refine (builtin_rescan_evidence_iff (rescanWith satisfiedRule) rfl 1 .deterministic .fixed
      (by decide) (editedTask [openFinding]) t run).mpr fun nodeId _ key isOpen => ?_
    obtain ⟨rfl, rfl⟩ := editedTask_open isOpen
    exact ⟨satisfiedRule_evaluated, fun noName => absurd noName (by decide)⟩

/-- The entry of a rule that raises and the entry of a rule of another validator
are both marked fixed, though neither rule was run. -/
theorem raisingRule_closes_without_evidence :
    (∀ ruleId ∈ ["L030", "L003"], ¬ EvaluatedOn (rescanWith raisingRule).rules
      (editedTask [openFinding, { ruleId := "L003", path := "task" }]).graph "task" ruleId) ∧
    Holds
      (fun t => ∀ ruleId ∈ ["L030", "L003"],
        statusAt (editedTask [openFinding, { ruleId := "L003", path := "task" }]).graph "task"
          ("task", ruleId) = some .opened ∧
        statusAt t.graph "task" ("task", ruleId) = some .fixed)
      (fun _ => False)
      (rescanAndRecord (rescanWith raisingRule) 1 .deterministic .fixed
        (editedTask [openFinding, { ruleId := "L003", path := "task" }])) := by
  refine ⟨?_, by decide⟩
  rintro ruleId - ⟨node, -, -, rule, member, -, -, -, ran⟩
  rw [mem_singleton.mp member] at ran
  exact ran rfl

end Apme.Remediation
