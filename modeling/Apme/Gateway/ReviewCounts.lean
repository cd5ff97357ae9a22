import Mathlib.Algebra.BigOperators.Group.List.Basic
import Mathlib.Algebra.Group.Prod
import Mathlib.Data.List.Perm.Basic
import Apme.Gateway.Durability

/-!
# Every decision is counted once

A decision is counted when the gate commits it or when the row is flushed, and a
flag on the row says that this has happened.  The flag goes from an earlier row
to the rebuilt one over the bridge.  The counters then are what the flushed and
the flagged rows amount to, as long as no flag gets lost or doubled and no flagged
row changes its decision or its rules.
-/

set_option autoImplicit false

namespace Apme.Gateway.Proposals

open Apme.Lib List Row Transition Batch

/-- The accepted and the declined count of a rule, over all its counters. -/
def counted (table : List Counter) (rule : Text) : Nat × Nat :=
  ((table.filter fun counter => counter.key.ruleId = rule && !counter.key.isGroup).map
    fun counter => (counter.accepted, counter.declined)).sum

variable (row : Row)

/-- What a proposal counts for a rule: one for its decision, if the rule is one of
its own. -/
def Row.votes (rule : Text) : Nat × Nat :=
  if rule ∈ row.rules then decisionDelta row.status else 0

/-- What a row has been counted for. -/
def Row.contribution (rule : Text) : Nat × Nat := if row.flushed then row.votes rule else 0

variable (rows : List Row)

def totalVotes (rule : Text) : Nat × Nat := (rows.map (votes · rule)).sum

def totalContribution (rule : Text) : Nat × Nat := (rows.map (contribution · rule)).sum

/-- Over the counters of before, each ended proposal is counted once, and each row
of the working set once if it is flagged. -/
def Scan.Exact (base : List Counter) (s : Scan) : Prop :=
  ∀ rule, counted s.analytics rule =
    counted base rule + totalVotes s.ended rule + totalContribution s.rows rule

theorem counted_nil (rule : Text) : counted [] rule = 0 := rfl

theorem counted_cons (counter : Counter) (table : List Counter) (rule : Text) :
    counted (counter :: table) rule =
      (if counter.key.ruleId = rule ∧ counter.key.isGroup = false then
        (counter.accepted, counter.declined) else 0) + counted table rule := by
  unfold counted
  rw [filter_cons]
  by_cases own : counter.key.ruleId = rule ∧ counter.key.isGroup = false
  · rw [if_pos own, if_pos (by simp [own])]
    rw [map_cons, sum_cons]
  · rw [if_neg own, if_neg (by simpa using own), zero_add]

theorem counted_addIncrement (i : Counter) (table : List Counter) (rule : Text) :
    counted (addIncrement i table) rule = counted [i] rule + counted table rule := by
  induction table with
  | nil => rw [addIncrement, counted_nil, add_zero]
  | cons counter rest ih =>
    rw [addIncrement]
    split
    next hs =>
      have sums : (counter.accepted + i.accepted, counter.declined + i.declined) =
          (i.accepted, i.declined) + (counter.accepted, counter.declined) := by
        rw [Prod.mk_add_mk, Nat.add_comm, Nat.add_comm counter.declined]
      simp only [counted_cons, counted_nil, add_zero, ← hs]
      split
      next => rw [sums, add_assoc]
      next => rw [zero_add, zero_add]
    next =>
      rw [counted_cons, ih, counted_cons counter rest, add_left_comm]

theorem counted_append (first second : List Counter) (rule : Text) :
    counted (first ++ second) rule = counted first rule + counted second rule := by
  induction first with
  | nil => rw [nil_append, counted_nil, zero_add]
  | cons counter rest ih => rw [cons_append, counted_cons, counted_cons, ih, add_assoc]

theorem counted_record (increments table : List Counter) (rule : Text) :
    counted (record increments table) rule = counted increments rule + counted table rule := by
  unfold record
  induction increments generalizing table with
  | nil => rw [foldl_nil, counted_nil, zero_add]
  | cons increment rest ih =>
    rw [foldl_cons, ih, counted_addIncrement, counted_cons increment rest, counted_cons,
      counted_nil, add_zero, ← add_assoc, add_comm (counted rest rule)]

variable (rows : List Row)

theorem counted_flatMap (i : Row → List Counter) (rule : Text) :
    counted (rows.flatMap i) rule = (rows.map fun r => counted (i r) rule).sum := by
  induction rows with
  | nil => rfl
  | cons r rest ih => rw [flatMap_cons, counted_append, ih, map_cons, sum_cons]

theorem counted_map (make : Text → Counter) (delta : Nat × Nat)
    (hm : ∀ rule, (make rule).key.ruleId = rule ∧ (make rule).key.isGroup = false ∧
      ((make rule).accepted, (make rule).declined) = delta)
    {rules : List Text} (distinct : rules.Nodup) (rule : Text) :
    counted (rules.map make) rule = if rule ∈ rules then delta else 0 := by
  induction rules with
  | nil => rfl
  | cons first rest ih =>
    obtain ⟨ha, hot⟩ := nodup_cons.mp distinct
    obtain ⟨hn, hsi, hD⟩ := hm first
    rw [map_cons, counted_cons, ih hot, hn, hsi, hD]
    by_cases hF : first = rule
    · subst hF
      simp [ha]
    · have ho : ¬ rule = first := fun hs => hF hs.symm
      simp [hF, ho]

theorem counted_increments (project : Text) {r : Row} (distinct : r.rules.Nodup) (rule : Text) :
    counted (r.increments project) rule = r.votes rule := by
  unfold increments votes
  split
  next hu =>
    rw [hu, counted_nil]
    split
    next => rfl
    next => rfl
  next =>
    have own := counted_map (fun rule => r.counter project rule r.coupled false)
      (decisionDelta r.status) (fun _ => ⟨rfl, rfl, rfl⟩) distinct rule
    rw [counted_append, own]
    -- The counter of the group is not one of a rule.
    have hg : ∀ (condition : Prop) [Decidable condition] (counter : Counter),
        counter.key.isGroup → counted (if condition then [counter] else []) rule = 0 := by
      intro condition _ counter hG
      split
      next => rw [counted_cons, counted_nil, hG]; simp
      next => rfl
    rw [hg _ _ rfl, add_zero]

variable (first second : List Row)

theorem totalVotes_append (rule : Text) :
    totalVotes (first ++ second) rule = totalVotes first rule + totalVotes second rule := by
  rw [totalVotes, map_append, sum_append, totalVotes, totalVotes]

theorem totalContribution_cons (rows : List Row) (rule : Text) :
    totalContribution (row :: rows) rule = row.contribution rule + totalContribution rows rule := by
  rw [totalContribution, map_cons, sum_cons, totalContribution]

theorem totalContribution_append (rule : Text) : totalContribution (first ++ second) rule =
      totalContribution first rule + totalContribution second rule := by
  rw [totalContribution, map_append, sum_append, totalContribution, totalContribution]

theorem totalContribution_filter {k : Row → Bool} {rows : List Row}
    (kept : ∀ r ∈ rows, r.flushed → k r) (rule : Text) :
    totalContribution (rows.filter k) rule = totalContribution rows rule := by
  induction rows with
  | nil => rfl
  | cons r rest ih =>
    have ho := ih fun o mem => kept o (mem_cons_of_mem _ mem)
    rw [filter_cons, totalContribution_cons]
    split
    next => rw [totalContribution_cons, ho]
    next cut =>
      have hu : r.flushed = false := by
        rw [← Bool.not_eq_true]
        intro hf
        exact cut (kept r mem_cons_self hf)
      rw [ho, contribution, hu]
      simp

theorem totalContribution_map {change : Row → Row} {rows : List Row}
    (hs : ∀ r ∈ rows, ∀ rule, (change r).contribution rule = r.contribution rule)
    (rule : Text) : totalContribution (rows.map change) rule = totalContribution rows rule := by
  unfold totalContribution
  rw [map_map]
  congr 1
  exact map_congr_left fun r mem => hs r mem rule

theorem totalVotes_split (rule : Text) : totalVotes rows rule = totalContribution rows rule +
      totalVotes (rows.filter fun row => !row.flushed) rule := by
  induction rows with
  | nil => rfl
  | cons row rest ih =>
    have cons : ∀ (first : Row) (others : List Row),
        totalVotes (first :: others) rule = first.votes rule + totalVotes others rule := by
      intro first others
      rw [totalVotes, map_cons, sum_cons, totalVotes]
    rw [cons, ih, totalContribution_cons, filter_cons, contribution]
    cases row.flushed with
    | true => simp [add_assoc]
    | false => simp [cons, add_left_comm]

/-- A row that a payload may be written to. -/
def Tied (item : StubPayload) (row : Row) : Prop :=
  row.engineId = some item.engineId ∨ row.proposalId = item.archivalId

/-- Two rows that an upsert takes for duplicates. -/
def Doubles (row other : Row) : Prop :=
  row.engineKey ≠ none ∧ other.engineKey = row.engineKey ∨ other.proposalId = row.proposalId

def SameRules (rules others : List Text) : Prop :=
  (∀ rule ∈ rules, rule ∈ others) ∧ ∀ rule ∈ others, rule ∈ rules

/-- The same decision for the same rules. -/
def Agrees (status : Text) (rules : List Text) (row : Row) : Prop :=
  decisionDelta status = decisionDelta row.status ∧ SameRules rules row.rules

/-- A payload gives the flagged rows it may be written to what they have. -/
def FairItem (s : Scan) (item : StubPayload) : Prop :=
  ∀ row ∈ s.rows, row.flushed → Tied item row →
    decisionDelta item.status = decisionDelta row.status ∧
      (item.ruleParts = [] ∨ SameRules item.ruleParts row.rules)

/-- The groups that are bridged to a flagged row, with it. -/
def carried (groups : List Group) : List (Group × Row) :=
  groups.filterMap fun group =>
    ((bridgedRow rows group).filter flushed).map fun row => (group, row)

/-- Each flagged row is carried to one group, which has its decision and its
rules. -/
def FairRebuild (groups : List Group) : Prop :=
  (∀ group ∈ groups, (countedRules group.ruleIds group.ruleId).Nodup) ∧
  ((carried rows groups).map Prod.snd).Perm (rows.filter flushed) ∧
  ∀ pair ∈ carried rows groups,
    Agrees (rebuiltStatus (some pair.2) pair.1) (countedRules pair.1.ruleIds pair.1.ruleId) pair.2

/-- A flagged row has no duplicate and keeps its decision and its rules, also over
a rebuild, and no rule is repeated. -/
def Fair (digest : Text → Text) (s : Scan) : Label → Prop
  | .upsert proposals =>
    (∀ item ∈ proposals.filterMap (prepareStubPayload digest),
      item.ruleParts.Nodup ∧ FairItem s item) ∧
    ∀ row ∈ s.rows, row.flushed → ∀ other ∈ s.rows, Doubles row other → other = row
  | .commit _ approvedIds offeredIds =>
    ∀ row ∈ s.rows, row.isOffered offeredIds → row.flushed →
      decisionDelta row.status = if row.engine ∈ approvedIds then (1, 0) else (0, 1)
  | .replace proposals => FairRebuild s.rows (proposals.filterMap id)
  | .flush _ => True

instance (item : StubPayload) (row : Row) : Decidable (Tied item row) :=
  inferInstanceAs (Decidable (_ ∨ _))

instance (row other : Row) : Decidable (Doubles row other) :=
  inferInstanceAs (Decidable (_ ∨ _))

instance (rules others : List Text) : Decidable (SameRules rules others) :=
  inferInstanceAs (Decidable (_ ∧ _))

instance (status : Text) (rules : List Text) (row : Row) : Decidable (Agrees status rules row) :=
  inferInstanceAs (Decidable (_ ∧ _))

instance (s : Scan) (item : StubPayload) : Decidable (FairItem s item) :=
  inferInstanceAs (Decidable (∀ row ∈ s.rows, _ → _ → _))

instance (rows : List Row) (groups : List Group) : Decidable (FairRebuild rows groups) :=
  inferInstanceAs (Decidable (_ ∧ _ ∧ _))

instance (digest : Text → Text) (s : Scan) (label : Label) : Decidable (Fair digest s label) :=
  match label with
  | .upsert proposals =>
    inferInstanceAs (Decidable ((∀ item ∈ proposals.filterMap (prepareStubPayload digest), _) ∧
      ∀ row ∈ s.rows, _ → ∀ other ∈ s.rows, _ → _))
  | .commit _ _ _ => inferInstanceAs (Decidable (∀ row ∈ s.rows, _ → _ → _))
  | .replace proposals => inferInstanceAs (Decidable (FairRebuild s.rows (proposals.filterMap id)))
  | .flush _ => inferInstanceAs (Decidable True)

theorem SameRules.refl (rules : List Text) : SameRules rules rules :=
  ⟨fun _ mem => mem, fun _ mem => mem⟩

theorem SameRules.mem_iff {rules others : List Text} (hs : SameRules rules others) (rule : Text) :
    rule ∈ rules ↔ rule ∈ others :=
  ⟨hs.1 rule, hs.2 rule⟩

section Flush

variable {base : List Counter} {s : Scan}

/-- What holds in a run of fair steps. -/
structure Scan.Tallied (base : List Counter) (s : Scan) : Prop where
  exact : s.Exact base
  distinct : (s.rows.map Row.id).Nodup
  fresh : ∀ row ∈ s.rows, row.id < s.nextId
  rules : ∀ row ∈ s.rows, row.rules.Nodup

theorem Scan.Tallied.flush (ht : s.Tallied base) (project : Text) :
    (flushProposals s project).Tallied base := by
  refine ⟨?_, nodup_nil, ?_, ?_⟩
  · intro rule
    have hc : counted ((s.rows.filter fun r => !r.flushed).flatMap (increments project))
        rule = totalVotes (s.rows.filter fun r => !r.flushed) rule := by
      rw [counted_flatMap]
      unfold totalVotes
      congr 1
      refine map_congr_left ?_
      intro r mem
      exact counted_increments project (ht.rules r (mem_of_mem_filter mem)) rule
    change counted (record _ s.analytics) rule =
      counted base rule + totalVotes (s.ended ++ s.rows) rule + 0
    rw [counted_record, hc, ht.exact rule, totalVotes_append, totalVotes_split s.rows,
      add_zero, add_comm]
    simp only [add_assoc]
  · intro r mem
    cases mem
  · intro r mem
    cases mem

end Flush

section Commits

variable {base : List Counter} {s : Scan} {digest : Text → Text}

section

variable (approvedIds : List Text) (offeredIds : Option (List Text)) (row : Row)

theorem rules_commit : (row.commit approvedIds offeredIds).rules = row.rules := by
  unfold commit
  split
  next => rfl
  next => rfl

theorem id_commit : (row.commit approvedIds offeredIds).id = row.id := by
  unfold commit
  split
  next => rfl
  next => rfl

end

theorem decisionDelta_answered (ids : List Text) (r : Row) :
    decisionDelta (r.answered ids).status =
      if r.engine ∈ ids then (1, 0) else (0, 1) := by
  unfold answered
  simp only
  split
  next => decide
  next => decide

variable {approvedIds : List Text} {offeredIds : Option (List Text)}

theorem contribution_commit (project : Text) {r : Row} (distinct : r.rules.Nodup)
    (ha : r.isOffered offeredIds → r.flushed →
      decisionDelta r.status = if r.engine ∈ approvedIds then (1, 0) else (0, 1))
    (rule : Text) :
    (r.commit approvedIds offeredIds).contribution rule =
      counted (r.commitIncrements project approvedIds offeredIds) rule + r.contribution rule := by
  by_cases ho : r.isOffered offeredIds
  · have hv : (r.commit approvedIds offeredIds).contribution rule =
        (r.answered approvedIds).votes rule := by
      rw [commit, if_pos ho]
      rfl
    rw [hv]
    cases hf : r.flushed with
    | true =>
      have none : r.commitIncrements project approvedIds offeredIds = [] := by
        simp [commitIncrements, hf]
      rw [none, counted_nil, zero_add, Row.contribution, if_pos hf, Row.votes, Row.votes,
        decisionDelta_answered, ha ho hf]
      rfl
    | false =>
      have all : r.commitIncrements project approvedIds offeredIds =
          (r.answered approvedIds).increments project := by
        simp [commitIncrements, hf, ho]
      have hu : r.contribution rule = 0 := by
        simp [contribution, hf]
      have own : (r.answered approvedIds).rules.Nodup := distinct
      rw [all, counted_increments project own, hu, add_zero]
  · have none : r.commitIncrements project approvedIds offeredIds = [] := by
      simp [commitIncrements, ho]
    rw [commit, if_neg ho, none, counted_nil, zero_add]

theorem Scan.Tallied.commit (ht : s.Tallied base) {project : Text}
    (hf : Fair digest s (.commit project approvedIds offeredIds)) :
    (commitGateDecisions s project approvedIds offeredIds).Tallied base := by
  refine ⟨?_, ?_, ?_, ?_⟩
  · intro rule
    have rows : ∀ rows : List Row, (∀ r ∈ rows, r ∈ s.rows) →
        totalContribution (rows.map (Row.commit approvedIds offeredIds)) rule =
          counted (rows.flatMap (commitIncrements project approvedIds offeredIds)) rule +
            totalContribution rows rule := by
      intro rows hi
      induction rows with
      | nil => rfl
      | cons r rest ih =>
        have hR := hi r mem_cons_self
        have one := contribution_commit project (ht.rules r hR) (hf r hR) rule
        rw [map_cons, totalContribution_cons, one, flatMap_cons, counted_append,
          totalContribution_cons, ih fun o mem => hi o (mem_cons_of_mem _ mem)]
        exact add_add_add_comm _ _ _ _
    change counted (record _ s.analytics) rule =
      counted base rule + totalVotes s.ended rule + totalContribution (s.rows.map _) rule
    rw [counted_record, ht.exact rule, rows s.rows fun _ mem => mem]
    exact add_left_comm _ _ _
  · change ((s.rows.map (Row.commit approvedIds offeredIds)).map Row.id).Nodup
    have ids : s.rows.map (Row.id ∘ Row.commit approvedIds offeredIds) = s.rows.map Row.id :=
      map_congr_left fun r _ => id_commit approvedIds offeredIds r
    rw [map_map, ids]
    exact ht.distinct
  · intro committed hc
    obtain ⟨r, hR, rfl⟩ := mem_map.mp hc
    rw [id_commit]
    exact ht.fresh r hR
  · intro committed hc
    obtain ⟨r, hR, rfl⟩ := mem_map.mp hc
    rw [rules_commit]
    exact ht.rules r hR

end Commits

section Rebuilds

variable {base : List Counter} {s : Scan} {digest : Text → Text}

theorem carried_cons (group : Group) (rest : List Group) : carried rows (group :: rest) =
      (((bridgedRow rows group).filter flushed).map fun r => (group, r)).toList ++
        carried rows rest := by
  unfold carried
  rw [filterMap_cons]
  cases (((bridgedRow rows group).filter flushed).map fun r => (group, r)) with
  | none => rfl
  | some pair => rfl

theorem contribution_rebuild {rows : List Row} {group : Group}
    (ha : ∀ row, (bridgedRow rows group).filter flushed = some row →
      Agrees (rebuiltStatus (some row) group) (countedRules group.ruleIds group.ruleId) row)
    (id : Nat) (rule : Text) :
    (rebuild rows id group).contribution rule =
      totalContribution ((bridgedRow rows group).filter flushed).toList rule := by
  cases hb : bridgedRow rows group with
  | none =>
    have hu : (rebuild rows id group).flushed = false := by
      simp [rebuild, hb]
    simp [contribution, hu, totalContribution]
  | some row =>
    have flag : (rebuild rows id group).flushed = row.flushed := by
      simp [rebuild, hb]
    cases flushed : row.flushed with
    | false =>
      have hg : (some row).filter Row.flushed = none := by simp [Option.filter, flushed]
      rw [hg, contribution, flag, flushed]
      rfl
    | true =>
      have hf : (some row).filter Row.flushed = some row := by simp [flushed]
      rw [hb] at ha
      obtain ⟨hd, hr⟩ := ha row hf
      have hs : (rebuild rows id group).status = rebuiltStatus (some row) group := by
        simp only [rebuild, hb]
      rw [hf, contribution, flag, flushed, if_pos rfl, Option.toList_some, totalContribution,
        map_singleton, sum_singleton, contribution, flushed, if_pos rfl, votes,
        votes, hs, hd]
      exact if_congr (hr.mem_iff rule) rfl rfl

theorem totalContribution_rebuildAll {rows : List Row} {groups : List Group}
    (ha : ∀ pair ∈ carried rows groups,
      Agrees (rebuiltStatus (some pair.2) pair.1) (countedRules pair.1.ruleIds pair.1.ruleId) pair.2)
    (id : Nat) (rule : Text) :
    totalContribution (rebuildAll rows id groups) rule =
      totalContribution ((carried rows groups).map Prod.snd) rule := by
  induction groups generalizing id with
  | nil => rfl
  | cons group rest ih =>
    rw [carried_cons] at ha
    have own : ∀ row, (bridgedRow rows group).filter flushed = some row →
        Agrees (rebuiltStatus (some row) group) (countedRules group.ruleIds group.ruleId) row := by
      intro row hf
      refine ha (group, row) (mem_append_left _ ?_)
      rw [hf]
      exact mem_singleton.mpr rfl
    have first : (((bridgedRow rows group).filter flushed).map
        fun row => (group, row)).toList.map Prod.snd =
          ((bridgedRow rows group).filter flushed).toList := by
      cases (bridgedRow rows group).filter flushed with
      | none => rfl
      | some row => rfl
    rw [rebuildAll, totalContribution_cons, contribution_rebuild own,
      ih fun pair mem => ha pair (mem_append_right _ mem), carried_cons,
      map_append, totalContribution_append, first]

theorem totalContribution_perm {first second : List Row} (hp : first.Perm second) (rule : Text) :
    totalContribution first rule = totalContribution second rule :=
  (hp.map _).sum_eq

theorem ids_rebuildAll (id : Nat) (groups : List Group) :
    (rebuildAll rows id groups).map Row.id = List.range' id groups.length := by
  induction groups generalizing id with
  | nil => rfl
  | cons group rest ih =>
    rw [rebuildAll, map_cons, ih, length_cons, List.range'_succ]
    rfl

theorem Scan.Tallied.replace (ht : s.Tallied base) {ps : List (Option Group)}
    (fair : Fair digest s (.replace ps)) : (replaceScanProposals s ps).Tallied base := by
  obtain ⟨distinct, ho, ha⟩ := fair
  unfold replaceScanProposals
  simp only
  split
  next => exact ht
  next =>
    refine ⟨?_, ?_, ?_, ?_⟩
    · intro rule
      change counted s.analytics rule = counted base rule + totalVotes s.ended rule +
        totalContribution (rebuildAll s.rows s.nextId _) rule
      rw [ht.exact rule, totalContribution_rebuildAll ha,
        totalContribution_perm ho, totalContribution_filter fun _ _ hf => hf]
    · change ((rebuildAll s.rows s.nextId _).map Row.id).Nodup
      rw [ids_rebuildAll]
      exact nodup_range' _
    · intro r mem
      have hI : r.id ∈ (rebuildAll s.rows s.nextId (ps.filterMap id)).map Row.id :=
        mem_map_of_mem mem
      rw [ids_rebuildAll, mem_range'_1] at hI
      exact hI.2
    · intro r mem
      obtain ⟨group, hG, id, rfl⟩ := mem_rebuildAll mem
      exact distinct group hG

end Rebuilds

section Upserts

variable {rows : List Row} {row : Row}

theorem newest_mem (hN : newest rows = some row) : row ∈ rows := by
  induction rows generalizing row with
  | nil => cases hN
  | cons first rest ih =>
    rw [newest] at hN
    split at hN
    next =>
      cases hN
      exact mem_cons_self
    next best hb =>
      split at hN
      next =>
        cases hN
        exact mem_cons_self
      next =>
        cases hN
        exact mem_cons_of_mem _ (ih hb)

theorem newest_isSome (mem : row ∈ rows) : ∃ best, newest rows = some best := by
  cases rows with
  | nil => cases mem
  | cons first rest =>
    rw [newest]
    split
    next => exact ⟨first, rfl⟩
    next best _ =>
      split
      next => exact ⟨first, rfl⟩
      next => exact ⟨best, rfl⟩

variable {key : Row → Option Text}

theorem reconcile_keeps (hd : ∀ o ∈ rows, o.id = row.id → o = row)
    (ha : ∀ o ∈ rows, ∀ k, key row = some k → key o = some k → o = row) :
    row.id ∉ (reconcile key rows).2 := by
  intro cut
  obtain ⟨k, -, hg⟩ := mem_flatMap.mp cut
  obtain ⟨isId, hn⟩ := mem_filter.mp hg
  obtain ⟨mem, hM, hsi⟩ := mem_map.mp isId
  obtain ⟨hr, hke⟩ := mem_filter.mp hM
  have hR : mem = row := hd mem hr hsi
  subst hR
  obtain ⟨best, hB⟩ := newest_isSome hM
  obtain ⟨hi, hk⟩ := mem_filter.mp (newest_mem hB)
  have hs : best = mem := ha best hi k (of_decide_eq_true hke) (of_decide_eq_true hk)
  rw [hB, hs] at hn
  simp at hn

variable {entry : Text × Nat}

theorem mem_reconcile (mem : entry ∈ (reconcile key rows).1) :
    ∃ row ∈ rows, key row = some entry.1 ∧ row.id = entry.2 := by
  obtain ⟨k, -, he⟩ := mem_filterMap.mp mem
  obtain ⟨row, hN, rfl⟩ := Option.map_eq_some_iff.mp he
  obtain ⟨hr, hk⟩ := mem_filter.mp (newest_mem hN)
  exact ⟨row, hr, of_decide_eq_true hk, rfl⟩

/-- The rows before an upsert, with distinct ids and no duplicate of a flagged
row. -/
structure Clean (rows : List Row) : Prop where
  distinct : ∀ row ∈ rows, ∀ other ∈ rows, other.id = row.id → other = row
  single : ∀ row ∈ rows, row.flushed → ∀ other ∈ rows, Doubles row other → other = row

/-- What the queries of an upsert have found. -/
structure Preload.Sound (rows : List Row) (p : Preload) : Prop where
  subset : ∀ row ∈ p.rows, row ∈ rows
  flagged : ∀ rule, totalContribution p.rows rule = totalContribution rows rule
  ids : (p.rows.map Row.id).Sublist (rows.map Row.id)
  byEngine : ∀ entry ∈ p.byEngine, ∃ row ∈ rows, row.engineId = some entry.1 ∧ row.id = entry.2
  byArchival : ∀ entry ∈ p.byArchival, ∃ row ∈ rows, row.proposalId = entry.1 ∧ row.id = entry.2

theorem engineId_of_engineKey {engine : Text} (hK : row.engineKey = some engine) :
    row.engineId = some engine := by
  obtain ⟨hE, -⟩ := Option.filter_eq_some_iff.mp hK
  exact hE

variable {p : Preload}

theorem Preload.Sound.batch (hc : Clean rows)
    (sound : p.Sound rows) (batch : List StubPayload) : (preloadBatch batch p).Sound rows := by
  unfold preloadBatch
  simp only
  generalize hF : (p.rows.filter fun row =>
    (batch.any fun x => row.engineId = some x.engineId) ||
      batch.any fun x => row.proposalId = x.archivalId) = found
  have hi : ∀ row ∈ found, row ∈ rows := by
    intro row mem
    rw [← hF] at mem
    exact sound.subset row (mem_of_mem_filter mem)
  refine ⟨?_, ?_, ?_, ?_, ?_⟩
  · intro row mem
    exact sound.subset row (mem_of_mem_filter mem)
  · intro rule
    rw [← sound.flagged rule]
    refine totalContribution_filter ?_ rule
    intro row mem hf
    have hR := sound.subset row mem
    have hd : ∀ o ∈ found, o.id = row.id → o = row := fun o ho =>
      hc.distinct row hR o (hi o ho)
    have hs := hc.single row hR hf
    have he : row.id ∉ (reconcile engineKey found).2 := by
      refine reconcile_keeps hd ?_
      intro o ho k hK hk
      refine hs o (hi o ho) (.inl ⟨?_, hk.trans hK.symm⟩)
      rw [hK]
      exact Option.some_ne_none k
    have ha : row.id ∉ (reconcile (fun row => some row.proposalId) found).2 := by
      refine reconcile_keeps hd ?_
      intro o ho k hK hk
      exact hs o (hi o ho) (.inr (Option.some.inj (hk.trans hK.symm)))
    rw [decide_eq_true_eq]
    intro cut
    exact (mem_append.mp cut).elim he ha
  · exact (filter_sublist.map Row.id).trans sound.ids
  · intro e mem
    rcases mem_append.mp mem with new | old
    · obtain ⟨row, hR, hK, isId⟩ := mem_reconcile new
      exact ⟨row, hi row hR, engineId_of_engineKey hK, isId⟩
    · exact sound.byEngine e old
  · intro e mem
    rcases mem_append.mp mem with new | old
    · obtain ⟨row, hR, hK, isId⟩ := mem_reconcile new
      exact ⟨row, hi row hR, Option.some.inj hK, isId⟩
    · exact sound.byArchival e old

theorem Preload.Sound.from (hc : Clean rows) {limit fuel : Nat} {xs : List StubPayload}
    (hs : p.Sound rows) : (preloadFrom limit fuel xs p).Sound rows := by
  induction fuel generalizing xs p with
  | zero => exact hs
  | succ fuel ih =>
    cases xs with
    | nil => exact hs
    | cons x rest => exact ih (hs.batch hc _)

/-- What the loop over the payloads keeps, for the rows of before. -/
structure Batch.Sound (s : Scan) (b : Batch) : Prop where
  total : ∀ rule, totalContribution b.rows rule = totalContribution s.rows rule
  origin : ∀ row ∈ b.rows, row.flushed → ∃ origin ∈ s.rows,
    origin.flushed ∧ origin.id = row.id ∧ Agrees row.status row.rules origin
  byEngine : ∀ entry ∈ b.byEngine, ∀ origin ∈ s.rows, origin.id = entry.2 →
    origin.engineId = some entry.1
  byArchival : ∀ entry ∈ b.byArchival, ∀ origin ∈ s.rows, origin.id = entry.2 →
    origin.proposalId = entry.1
  later : s.nextId ≤ b.nextId
  distinct : (b.rows.map Row.id).Nodup
  fresh : ∀ row ∈ b.rows, row.id < b.nextId
  rules : ∀ row ∈ b.rows, row.rules.Nodup

variable {other : Row}

theorem eq_of_id (distinct : (rows.map Row.id).Nodup)
    (hR : row ∈ rows) (hO : other ∈ rows) (hs : other.id = row.id) : other = row :=
  inj_on_of_nodup_map distinct hO hR hs

variable {base : List Counter} {s : Scan} {digest : Text → Text}

theorem preload_sound (ht : s.Tallied base)
    (hsi : ∀ r ∈ s.rows, r.flushed → ∀ o ∈ s.rows, Doubles r o →
      o = r) (chunk : Nat) (items : List StubPayload) :
    (preload chunk items s.rows s.nextId).Sound s := by
  have hc : Clean s.rows := ⟨fun r hR o hot =>
    eq_of_id ht.distinct hR hot, hsi⟩
  have hi : Preload.Sound s.rows { rows := s.rows } := by
    refine ⟨fun _ mem => mem, fun _ => rfl, List.Sublist.refl _, ?_, ?_⟩
    · intro e mem
      cases mem
    · intro e mem
      cases mem
  have hs : (preloadFrom (preloadLimit chunk) items.length items { rows := s.rows }).Sound
      s.rows := hi.from hc
  refine ⟨hs.flagged, ?_, ?_, ?_, le_rfl, ht.distinct.sublist hs.ids, ?_, ?_⟩
  · intro r mem hf
    exact ⟨r, hs.subset r mem, hf, rfl, rfl, SameRules.refl _⟩
  · intro e mem origin ho hI
    obtain ⟨r, hR, he, hri⟩ := hs.byEngine e (mem_of_mem_filter mem)
    rw [eq_of_id ht.distinct hR ho (hI.trans hri.symm)]
    exact he
  · intro e mem origin ho hI
    obtain ⟨r, hR, ha, hri⟩ := hs.byArchival e (mem_of_mem_filter mem)
    rw [eq_of_id ht.distinct hR ho (hI.trans hri.symm)]
    exact ha
  · intro r mem
    exact ht.fresh r (hs.subset r mem)
  · intro r mem
    exact ht.rules r (hs.subset r mem)

/-- How the rules of a payload are given. -/
structure WellRuled (item : StubPayload) : Prop where
  primary : item.primaryRule = item.ruleParts.headD []
  named : ∀ rule ∈ item.ruleParts, rule ≠ []

variable {item : StubPayload}

theorem wellRuled_prepare {raw : RawProposal}
    (hp : prepareStubPayload digest raw = some item) : WellRuled item := by
  unfold prepareStubPayload at hp
  simp only at hp
  split at hp
  next => cases hp
  next =>
    cases hp
    refine ⟨rfl, ?_⟩
    intro rule mem
    change rule ∈ ruleParts raw.ruleId at mem
    unfold ruleParts at mem
    split at mem
    next hs =>
      rw [mem_singleton.mp mem]
      exact hs.2
    next => exact of_decide_eq_true (mem_filter.mp mem).2

theorem countedRules_of_named {rules : List Text} (hn : ∀ rule ∈ rules, rule ≠ [])
    (some : rules ≠ []) (ruleId : Text) : countedRules rules ruleId = rules := by
  have all : rules.filter (· ≠ []) = rules := filter_eq_self.mpr fun rule mem =>
    decide_eq_true (hn rule mem)
  unfold countedRules
  simp only [all]
  exact if_neg fun hb => some hb.1

theorem rules_refresh (well : WellRuled item) (r : Row) :
    (refresh item r).rules = if item.ruleParts = [] then r.rules else item.ruleParts := by
  unfold rules refresh
  simp only
  split
  next none =>
    have hp : item.primaryRule = [] := by rw [well.primary, none]; rfl
    rw [hp]
    rfl
  next some => exact countedRules_of_named well.named some _

theorem rules_stubRow (well : WellRuled item) (id : Nat) :
    (stubRow id item).rules = item.ruleParts := by
  unfold rules stubRow
  simp only
  by_cases none : item.ruleParts = []
  · have hp : item.primaryRule = [] := by rw [well.primary, none]; rfl
    rw [none, hp]
    rfl
  · exact countedRules_of_named well.named none _

variable {b : Batch} {id : Nat}

theorem Batch.row_eq_some (hf : b.row id = some row) : row ∈ b.rows ∧ row.id = id := by
  have hI := List.find?_some hf
  exact ⟨mem_of_find?_eq_some hf, of_decide_eq_true hI⟩

theorem Batch.existing_eq_some (hf : b.existing item = some row) :
    (item.engineId, row.id) ∈ b.byEngine ∨ (item.archivalId, row.id) ∈ b.byArchival := by
  unfold existing at hf
  split at hf
  next i hh =>
    cases hf
    obtain ⟨id, hI, hr⟩ := Option.bind_eq_some_iff.mp hh
    rw [(row_eq_some hr).2]
    exact .inl (Dict.mem_of_lookup hI)
  next =>
    obtain ⟨hh, -⟩ := Option.filter_eq_some_iff.mp hf
    obtain ⟨id, hI, hr⟩ := Option.bind_eq_some_iff.mp hh
    rw [(row_eq_some hr).2]
    exact .inr (Dict.mem_of_lookup hI)

variable {origin : Row}

theorem Agrees.refresh (well : WellRuled item)
    (ha : Agrees row.status row.rules origin)
    (hf : decisionDelta item.status = decisionDelta origin.status ∧
      (item.ruleParts = [] ∨ SameRules item.ruleParts origin.rules)) :
    Agrees (refresh item row).status (refresh item row).rules origin := by
  refine ⟨?_, ?_⟩
  · change decisionDelta (if row.draft then row.status else item.status) = _
    split
    next => exact ha.1
    next => exact hf.1
  · rw [rules_refresh well]
    split
    next => exact ha.2
    next some => exact hf.2.resolve_left some

theorem contribution_of_agrees (hfl : other.flushed = row.flushed)
    (ha : row.flushed → Agrees row.status row.rules origin ∧
      Agrees other.status other.rules origin) (rule : Text) :
    other.contribution rule = row.contribution rule := by
  rw [contribution, contribution, hfl]
  split
  next hf =>
    obtain ⟨⟨hde, hru⟩, ⟨hd, hr⟩⟩ := ha hf
    rw [votes, votes, hde, hd]
    exact if_congr ((hr.mem_iff rule).trans (hru.mem_iff rule).symm) rfl rfl
  next => rfl

theorem mem_setDefault {k : Text} {map : List (Text × Nat)}
    (mem : entry ∈ setDefault k id map) : entry ∈ map ∨ entry.2 = id := by
  unfold setDefault at mem
  split at mem
  next => exact .inl mem
  next =>
    refine (mem_append.mp mem).imp (fun old => old) ?_
    intro new
    rw [mem_singleton.mp new]

/-- What a row becomes when the found row is written again. -/
def rewritten (item : StubPayload) (id : Nat) (row : Row) : Row :=
  if row.id = id then refresh item row else row

theorem rewritten_fixed (x : StubPayload) (id : Nat) (r : Row) :
    (rewritten x id r).id = r.id ∧ (rewritten x id r).flushed = r.flushed := by
  unfold rewritten
  split
  next => exact ⟨rfl, rfl⟩
  next => exact ⟨rfl, rfl⟩

theorem rules_rewritten (well : WellRuled item) (hd : item.ruleParts.Nodup)
    (hr : row.rules.Nodup) (id : Nat) : (rewritten item id row).rules.Nodup := by
  unfold rewritten
  split
  next =>
    rw [rules_refresh well]
    split
    next => exact hr
    next => exact hd
  next => exact hr

theorem Agrees.rewritten (well : WellRuled item) (fair : FairItem s item)
    (ht : ∀ origin ∈ s.rows, origin.id = id → Tied item origin)
    (hO : origin ∈ s.rows) (hf : origin.flushed) (hs : origin.id = row.id)
    (ha : Agrees row.status row.rules origin) :
    Agrees (rewritten item id row).status (rewritten item id row).rules origin := by
  unfold Proposals.rewritten
  split
  next hI =>
    exact ha.refresh well (fair origin hO hf (ht origin hO (hs.trans hI)))
  next => exact ha

theorem Batch.Sound.rewrite (sound : b.Sound s)
    (well : WellRuled item) (distinct : item.ruleParts.Nodup) (fair : FairItem s item)
    (ht : ∀ origin ∈ s.rows, origin.id = id → Tied item origin) :
    Sound s { b with rows := b.rows.map (rewritten item id) } where
  total := by
    intro rule
    rw [← sound.total rule]
    refine totalContribution_map ?_ rule
    intro r hr rule
    by_cases hfl : r.flushed
    · obtain ⟨origin, hO, hf, hs, ha⟩ := sound.origin r hr hfl
      exact contribution_of_agrees (rewritten_fixed item id r).2 (fun _ =>
        ⟨ha, ha.rewritten well fair ht hO hf hs⟩) rule
    · rw [contribution, contribution, (rewritten_fixed item id r).2, if_neg hfl,
        if_neg hfl]
  origin := by
    intro r hr hfl
    obtain ⟨old, hOl, rfl⟩ := mem_map.mp hr
    obtain ⟨hi, hsf⟩ := rewritten_fixed item id old
    obtain ⟨origin, hO, hf, hs, ha⟩ :=
      sound.origin old hOl (hsf.symm.trans hfl)
    exact ⟨origin, hO, hf, hs.trans hi.symm, ha.rewritten well fair ht hO hf hs⟩
  byEngine := sound.byEngine
  byArchival := sound.byArchival
  later := sound.later
  distinct := by
    have ids : b.rows.map (Row.id ∘ rewritten item id) = b.rows.map Row.id :=
      map_congr_left fun r _ => (rewritten_fixed item id r).1
    rw [map_map, ids]
    exact sound.distinct
  fresh := by
    intro r hr
    obtain ⟨old, hOl, rfl⟩ := mem_map.mp hr
    rw [(rewritten_fixed item id old).1]
    exact sound.fresh old hOl
  rules := by
    intro r hr
    obtain ⟨old, hOl, rfl⟩ := mem_map.mp hr
    exact rules_rewritten well distinct (sound.rules old hOl) id

section

variable (older : ∀ row ∈ s.rows, row.id < s.nextId) (sound : b.Sound s) (well : WellRuled item)
  (distinct : item.ruleParts.Nodup)

include older sound well distinct

theorem Batch.Sound.insert :
    Sound s
      { rows := b.rows ++ [stubRow b.nextId item], nextId := b.nextId + 1,
        byEngine := setDefault item.engineId b.nextId b.byEngine,
        byArchival := setDefault item.archivalId b.nextId b.byArchival } := by
  -- The new id is none of before.
  have hu : ∀ origin ∈ s.rows, origin.id ≠ b.nextId := by
    intro origin ho hs
    have := older origin ho
    have := sound.later
    omega
  refine ⟨?_, ?_, ?_, ?_, Nat.le_succ_of_le sound.later, ?_, ?_, ?_⟩
  · intro rule
    rw [totalContribution_append, sound.total rule]
    exact add_zero _
  · intro r hR hf
    rcases mem_append.mp hR with old | new
    · exact sound.origin r old hf
    · rw [mem_singleton.mp new] at hf
      cases hf
  · intro e mem origin ho hI
    rcases mem_setDefault mem with old | new
    · exact sound.byEngine e old origin ho hI
    · exact absurd (hI.trans new) (hu origin ho)
  · intro e mem origin ho hI
    rcases mem_setDefault mem with old | new
    · exact sound.byArchival e old origin ho hI
    · exact absurd (hI.trans new) (hu origin ho)
  · rw [map_append]
    refine nodup_append.mpr ⟨sound.distinct, nodup_singleton _, ?_⟩
    intro id hol newId hn hs
    obtain ⟨r, hR, rfl⟩ := mem_map.mp hol
    have hN : newId = b.nextId := mem_singleton.mp hn
    have := sound.fresh r hR
    omega
  · intro r hR
    rcases mem_append.mp hR with old | new
    · exact Nat.lt_succ_of_lt (sound.fresh r old)
    · rw [mem_singleton.mp new]
      exact Nat.lt_succ_self _
  · intro r hR
    rcases mem_append.mp hR with old | new
    · exact sound.rules r old
    · rw [mem_singleton.mp new, rules_stubRow well]
      exact distinct

theorem Batch.Sound.upsertOne (hf : FairItem s item) : (upsertOne b item).Sound s := by
  unfold Proposals.upsertOne
  split
  next found hit =>
    refine sound.rewrite well distinct hf ?_
    intro origin ho hi
    rcases existing_eq_some hit with he | ha
    · exact .inl (sound.byEngine _ he origin ho hi)
    · exact .inr (sound.byArchival _ ha origin ho hi)
  next => exact sound.insert older well distinct

end

theorem Scan.Tallied.upsert (ht : s.Tallied base) (chunk : Nat) {ps : List RawProposal}
    (hf : Fair digest s (.upsert ps)) : (upsert digest chunk s ps).Tallied base := by
  obtain ⟨xs, hsi⟩ := hf
  have hl : ∀ (xs : List StubPayload) (b : Batch), b.Sound s →
      (∀ x ∈ xs, WellRuled x ∧ x.ruleParts.Nodup ∧ FairItem s x) →
        (xs.foldl Proposals.upsertOne b).Sound s := by
    intro xs
    induction xs with
    | nil =>
      intro b hs _
      exact hs
    | cons x rest ih =>
      intro b hs all
      obtain ⟨well, hd, hi⟩ := all x mem_cons_self
      exact ih _ (hs.upsertOne ht.fresh well hd hi) fun o mem => all o (mem_cons_of_mem _ mem)
  have hs : (upsertLiveProposalStubs digest chunk ps s.rows s.nextId).Sound s := by
    refine hl _ _ (preload_sound ht hsi chunk _) ?_
    intro x mem
    obtain ⟨raw, -, hp⟩ := mem_filterMap.mp mem
    exact ⟨wellRuled_prepare hp, xs x mem⟩
  refine ⟨?_, hs.distinct, hs.fresh, hs.rules⟩
  intro r
  change counted s.analytics r = counted base r + totalVotes s.ended r +
    totalContribution (upsertLiveProposalStubs digest chunk ps s.rows s.nextId).rows r
  rw [hs.total r]
  exact ht.exact r

end Upserts

section Runs

variable {base : List Counter} {s : Scan} {digest : Text → Text} {chunk : Nat}

theorem Scan.Tallied.step (hta : s.Tallied base) {label : Label} (hf : Fair digest s label)
    {t : Scan} (ht : step digest chunk s label = some t) : t.Tallied base := by
  cases label with
  | upsert ps =>
    cases ht
    exact hta.upsert chunk hf
  | commit project ids offeredIds =>
    cases ht
    exact hta.commit hf
  | replace ps =>
    cases ht
    exact hta.replace hf
  | flush project =>
    cases ht
    exact hta.flush project

/-- In every run of fair steps from an empty working set, each ended proposal has
been counted once for each of its rules, and each row that is still there once if
it is flagged. -/
theorem fair_runs_count_once {start : Scan} (empty : start.rows = [] ∧ start.ended = [])
    (reached : Reaches (step digest chunk) (Fair digest) start s) :
    s.Exact start.analytics := by
  have initially : start.Tallied start.analytics := by
    refine ⟨?_, ?_, ?_, ?_⟩
    · intro rule
      rw [empty.1, empty.2]
      exact (add_zero _).symm
    · rw [empty.1]
      exact nodup_nil
    · rw [empty.1]
      intro row member
      cases member
    · rw [empty.1]
      intro row member
      cases member
  exact (reached.invariant (fun _ _ _ tallied fair taken => tallied.step fair taken) initially).exact

/-- A proposal is approved, rebuilt and flushed. -/
def approvedAndFlushed : List Label :=
  [.upsert [tidyTask], .commit [] ["p1".toList] none, .replace [some tidyGroup], .flush []]

theorem tidyTask_counted_once :
    ∃ s, follow (step id 900) (Fair id) approvedAndFlushed {} = some s ∧
      s.ended.map status = [approved] ∧ counted s.analytics "L007".toList = (1, 0) ∧
        s.Exact [] := by
  have runs : ∃ s, follow (step id 900) (Fair id) approvedAndFlushed {} = some s ∧
      s.ended.map status = [approved] ∧ counted s.analytics "L007".toList = (1, 0) :=
    ⟨_, rfl, by decide, by decide⟩
  obtain ⟨s, followed, ended, counts⟩ := runs
  have start : ({} : Scan).rows = [] ∧ ({} : Scan).ended = [] := ⟨rfl, rfl⟩
  exact ⟨s, followed, ended, counts, fair_runs_count_once start
    (reaches_of_follow approvedAndFlushed followed)⟩

/-- A block that starts on the line of its first task, with the same finding. -/
def tidyBlock : RawProposal := { tidyTask with id := "p2".toList, lineEnd := some 9 }

def fixedGroup : Group := { tidyGroup with fixedYaml := "name: a".toList }

def blockGroup : Group :=
  { fixedGroup with proposalId := "g2".toList, path := "site.yml/play[0]/block[0]".toList }

/-- Two approved proposals start on one line, and the fix is rebuilt for both. -/
def ambiguousRebuild : List Label :=
  [.upsert [tidyTask, tidyBlock], .commit [] ["p1".toList, "p2".toList] none,
    .replace [some fixedGroup, some blockGroup], .flush []]

theorem ambiguous_rebuild_counts_twice :
    ∃ s, follow (step id 900) (fun _ _ => True) ambiguousRebuild {} = some s ∧
      s.rows = [] ∧ s.ended.map status = [approved, approved] ∧
      totalVotes s.ended "L007".toList = (2, 0) ∧ counted s.analytics "L007".toList = (4, 0) ∧
      ¬ s.Exact [] := by
  refine ⟨_, rfl, by decide, by decide, by decide, by decide, ?_⟩
  intro exact
  exact absurd (exact "L007".toList) (by decide)

end Runs

end Apme.Gateway.Proposals
