import Apme.Gateway.Proposals
import Apme.Lib.Dict
import Apme.Lib.Transition

/-!
# Gate decisions last until the flush

A decision of the gate is stored in the row of an engine proposal.  Later the row
is written again when the engine sends the proposal again, and it is replaced
when the rows are rebuilt.  Neither step knows of the decision as such: a row
that is not a draft takes the status that the engine sends, and a rebuilt row
takes the earlier status only if it is found under an unambiguous key and the
group has no status of its own.
-/

set_option autoImplicit false

namespace Apme.Gateway.Proposals

open Apme.Lib List Row Bridges Transition

/-- The same node path and the same rules. -/
def SameGroup (decision row : Row) : Prop :=
  decision.path ≠ [] ∧ row.path = decision.path ∧ row.ruleIds = decision.ruleIds

/-- The row is that of the engine proposal that was decided, or of the group of
its node path and rules. -/
def StandsFor (decision row : Row) : Prop :=
  row.engineId = decision.engineId ∨ SameGroup decision row

instance (decision row : Row) : Decidable (SameGroup decision row) :=
  inferInstanceAs (Decidable (_ ∧ _))

instance (decision row : Row) : Decidable (StandsFor decision row) :=
  inferInstanceAs (Decidable (_ ∨ _))

/-- Every row that stands for a decision has its status. -/
def Scan.Durable (s : Scan) : Prop :=
  ∀ decision ∈ s.decided, ∀ row ∈ s.rows, StandsFor decision row → row.status = decision.status

instance (s : Scan) : Decidable s.Durable :=
  inferInstanceAs (Decidable (∀ decision ∈ s.decided, ∀ row ∈ s.rows, _ → _))

/-- A payload that is written to a row of the decision, or makes a row one. -/
def Concerns (decision : Row) (item : StubPayload) : Prop :=
  decision.engineId = some item.engineId ∨
    decision.path ≠ [] ∧ (item.raw.path = [] ∨ item.raw.path = decision.path) ∧
      (item.ruleParts = [] ∨ item.ruleParts = decision.ruleIds)

/-- A group whose row stands for the decision. -/
def Continues (rows : List Row) (decision : Row) (group : Group) : Prop :=
  decision.path ≠ [] ∧ group.path = decision.path ∧ group.ruleIds = decision.ruleIds ∨
    ∃ row ∈ bridgedRow rows group, row.engineId = decision.engineId

/-- The group has the decided status, or no status and a bridge to a row of the
decision. -/
def Restores (rows : List Row) (decision : Row) (group : Group) : Prop :=
  group.ownStatus = decision.status ∨
    isOpen group.ownStatus ∧ ∃ row ∈ bridgedRow rows group, StandsFor decision row

/-- A proposal that is sent again comes with its decision, an answer that is given
again is the same, rows of one group are answered together, and a rebuilt group
finds the row of its decision. -/
def Steady (digest : Text → Text) (s : Scan) : Label → Prop
  | .upsert proposals =>
    ∀ item ∈ proposals.filterMap (prepareStubPayload digest), ∀ decision ∈ s.decided,
      Concerns decision item → item.status = decision.status
  | .commit _ approvedIds offeredIds =>
    ∀ row ∈ s.rows, row.isOffered offeredIds →
      (∀ decision ∈ s.decided, StandsFor decision row →
        (decision.status = approved ↔ row.engine ∈ approvedIds)) ∧
      ∀ other ∈ s.rows, SameGroup row other →
        other.isOffered offeredIds ∧ (other.engine ∈ approvedIds ↔ row.engine ∈ approvedIds)
  | .replace proposals =>
    ∀ group ∈ proposals.filterMap id, ∀ decision ∈ s.decided,
      Continues s.rows decision group → Restores s.rows decision group
  | .flush _ => True

instance (decision : Row) (item : StubPayload) : Decidable (Concerns decision item) :=
  inferInstanceAs (Decidable (_ ∨ _))

instance (rows : List Row) (decision : Row) (group : Group) :
    Decidable (Continues rows decision group) :=
  inferInstanceAs (Decidable (_ ∨ _))

instance (rows : List Row) (decision : Row) (group : Group) :
    Decidable (Restores rows decision group) :=
  inferInstanceAs (Decidable (_ ∨ _))

instance (digest : Text → Text) (s : Scan) (label : Label) : Decidable (Steady digest s label) :=
  match label with
  | .upsert proposals =>
    inferInstanceAs (Decidable (∀ item ∈ proposals.filterMap (prepareStubPayload digest),
      ∀ decision ∈ s.decided, _ → _))
  | .commit _ _ _ =>
    inferInstanceAs (Decidable (∀ row ∈ s.rows, _ →
      (∀ decision ∈ s.decided, _ → _) ∧ ∀ other ∈ s.rows, _ → _))
  | .replace proposals =>
    inferInstanceAs (Decidable (∀ group ∈ proposals.filterMap id, ∀ decision ∈ s.decided, _ → _))
  | .flush _ => inferInstanceAs (Decidable True)

theorem preloadFrom_rows {limit fuel : Nat} {items : List StubPayload} {p : Preload} :
    ∀ r ∈ (preloadFrom limit fuel items p).rows, r ∈ p.rows := by
  induction fuel generalizing items p with
  | zero =>
    intro r mem
    exact mem
  | succ fuel ih =>
    cases items with
    | nil =>
      intro r mem
      exact mem
    | cons x rest =>
      intro r mem
      exact mem_of_mem_filter (ih r mem)

variable {row : Row} {item : StubPayload}

theorem mem_upsertOne {b : Batch} (mem : row ∈ (upsertOne b item).rows) :
    row ∈ b.rows ∨ row = stubRow b.nextId item ∨ ∃ old ∈ b.rows, row = refresh item old := by
  unfold upsertOne at mem
  split at mem
  next found _ =>
    obtain ⟨old, hO, hR⟩ := mem_map.mp mem
    split at hR
    next => exact .inr (.inr ⟨old, hO, hR.symm⟩)
    next => exact .inl (hR ▸ hO)
  next => exact (mem_append.mp mem).imp id fun new => .inl (mem_singleton.mp new)

variable {rows : List Row} {ps : List RawProposal}

theorem forall_upsert {P : Row → Prop} {digest : Text → Text} {chunk : Nat} {nextId : Nat}
    (hi : ∀ row ∈ rows, P row)
    (new : ∀ x ∈ ps.filterMap (prepareStubPayload digest), ∀ id, P (stubRow id x))
    (ha : ∀ x ∈ ps.filterMap (prepareStubPayload digest), ∀ row, P row → P (refresh x row))
    : ∀ row ∈ (upsertLiveProposalStubs digest chunk ps rows nextId).rows, P row := by
  unfold upsertLiveProposalStubs
  generalize ps.filterMap (prepareStubPayload digest) = xs at new ha
  have hl : ∀ row ∈ (preload chunk xs rows nextId).rows, P row := fun row mem =>
    hi row (preloadFrom_rows row mem)
  simp only
  generalize preload chunk xs rows nextId = b at hl
  induction xs generalizing b with
  | nil => exact hl
  | cons x rest ih =>
    refine ih (fun o mem => new o (mem_cons_of_mem _ mem))
      (fun o mem => ha o (mem_cons_of_mem _ mem)) (upsertOne b x) ?_
    intro row mem
    rcases mem_upsertOne mem with old | rfl | ⟨old, hO, rfl⟩
    · exact hl row old
    · exact new x mem_cons_self _
    · exact ha x mem_cons_self old (hl old hO)

section Steps

/-- What holds of the rows and decisions in a steady run. -/
structure Scan.Kept (s : Scan) : Prop where
  durable : s.Durable
  terminal : ∀ decision ∈ s.decided, decision.status = approved ∨ decision.status = declined
  known : ∀ decision ∈ s.decided, decision.engineId ≠ none
  noDraft : ∀ row ∈ s.rows, row.draft = false

variable {digest : Text → Text} {chunk : Nat} {s : Scan}

theorem orElse_eq {t o res : Text} (hR : orElse t o = res) :
    t = [] ∨ t = res := by
  unfold orElse at hR
  split at hR
  next he => exact .inl he
  next => exact .inr hR

theorem concerns_of_refresh {dec r : Row}
    (hs : StandsFor dec (refresh item r)) : Concerns dec item := by
  rcases hs with he | ⟨hpa, hp, hr⟩
  · exact .inl he.symm
  · refine .inr ⟨hpa, orElse_eq hp, ?_⟩
    change (if item.ruleParts = [] then r.ruleIds else item.ruleParts) = dec.ruleIds at hr
    split at hr
    next hem => exact .inl hem
    next => exact .inr hr

theorem concerns_of_stubRow {dec : Row} {id : Nat}
    (hs : StandsFor dec (stubRow id item)) : Concerns dec item := by
  rcases hs with he | ⟨hpa, hp, hr⟩
  · exact .inl he.symm
  · exact .inr ⟨hpa, .inr hp, .inr hr⟩

theorem Scan.Kept.upsert (hk : s.Kept)
    (hst : Steady digest s (.upsert ps)) : (upsert digest chunk s ps).Kept := by
  have rows : ∀ r ∈ (upsertLiveProposalStubs digest chunk ps s.rows s.nextId).rows,
      r.draft = false ∧ ∀ dec ∈ s.decided, StandsFor dec r → r.status = dec.status := by
    refine forall_upsert ?_ ?_ ?_
    · intro r mem
      exact ⟨hk.noDraft r mem, fun dec hd =>
        hk.durable dec hd r mem⟩
    · intro x hi id
      refine ⟨rfl, ?_⟩
      intro dec hd hs
      exact hst x hi dec hd (concerns_of_stubRow hs)
    · intro x hi r holds
      refine ⟨holds.1, ?_⟩
      intro dec hd hs
      have hf : (refresh x r).status = x.status := by
        simp only [refresh, holds.1]
        rfl
      rw [hf]
      exact hst x hi dec hd (concerns_of_refresh hs)
  exact ⟨fun dec hd r mem => (rows r mem).2 dec hd,
    hk.terminal, hk.known, fun r mem => (rows r mem).1⟩

section

variable {approvedIds : List Text} {offeredIds : Option (List Text)}

theorem standsFor_commit {dec row : Row} :
    StandsFor dec (row.commit approvedIds offeredIds) ↔ StandsFor dec row := by
  unfold commit
  split
  next => exact Iff.rfl
  next => exact Iff.rfl

theorem status_commit (ho : row.isOffered offeredIds) :
    (row.commit approvedIds offeredIds).status =
      if row.engine ∈ approvedIds then approved else declined := by
  rw [commit, if_pos ho]
  rfl

end

theorem isOffered_of_engineId (offeredIds : Option (List Text)) {r o : Row}
    (hs : o.engineId = r.engineId) :
    o.isOffered offeredIds = r.isOffered offeredIds ∧ o.engine = r.engine := by
  have engine : o.engine = r.engine := by rw [engine, hs, ← engine]
  refine ⟨?_, engine⟩
  rw [isOffered, engine, ← isOffered]

theorem Scan.Kept.commit (hk : s.Kept) {project : Text} {ids : List Text}
    {offeredIds : Option (List Text)}
    (hst : Steady digest s (.commit project ids offeredIds)) :
    (commitGateDecisions s project ids offeredIds).Kept := by
  refine ⟨?_, ?_, ?_, ?_⟩
  · intro dec hd committed hc hs
    obtain ⟨r, hR, rfl⟩ := mem_map.mp hc
    rw [standsFor_commit] at hs
    rcases mem_append.mp hd with hea | new
    · by_cases ho : r.isOffered offeredIds
      · have ha := (hst r hR ho).1 dec hea hs
        rw [status_commit ho]
        split
        next hA => exact (ha.mpr hA).symm
        next hD =>
          refine ((hk.terminal dec hea).resolve_left ?_).symm
          intro hA
          exact hD (ha.mp hA)
      · rw [Row.commit, if_neg ho]
        exact hk.durable dec hea r hR hs
    · obtain ⟨src, hS, rfl⟩ := mem_map.mp new
      obtain ⟨hr, ho⟩ := mem_filter.mp hS
      -- The row has the engine proposal of the decision, or it is in its group.
      have ht : r.isOffered offeredIds ∧
          (r.engine ∈ ids ↔ src.engine ∈ ids) := by
        rcases hs with engine | hg
        · obtain ⟨hso, he⟩ := isOffered_of_engineId offeredIds engine
          exact ⟨hso.trans ho, by rw [he]; rfl⟩
        · exact (hst src hr ho).2 r hR hg
      rw [status_commit ht.1]
      exact if_congr ht.2 rfl rfl
  · intro dec hd
    rcases mem_append.mp hd with hea | new
    · exact hk.terminal dec hea
    · obtain ⟨src, -, rfl⟩ := mem_map.mp new
      by_cases hA : src.engine ∈ ids
      · exact .inl (if_pos hA)
      · exact .inr (if_neg hA)
  · intro dec hd
    rcases mem_append.mp hd with hea | new
    · exact hk.known dec hea
    · obtain ⟨src, hS, rfl⟩ := mem_map.mp new
      intro hn
      have ho := (mem_filter.mp hS).2
      have hne : src.engine = [] := by
        rw [engine, show src.engineId = none from hn]
        rfl
      simp [isOffered, hne] at ho
  · intro committed hc
    obtain ⟨r, hR, rfl⟩ := mem_map.mp hc
    unfold Row.commit
    split
    next => rfl
    next => exact hk.noDraft r hR

theorem mem_rebuildAll {id : Nat} {groups : List Group}
    (mem : row ∈ rebuildAll rows id groups) : ∃ group ∈ groups, ∃ id, row = rebuild rows id group := by
  induction groups generalizing id with
  | nil => cases mem
  | cons group rest ih =>
    rcases mem_cons.mp mem with rfl | hl
    · exact ⟨group, mem_cons_self, id, rfl⟩
    · obtain ⟨o, hO, id, hr⟩ := ih hl
      exact ⟨o, mem_cons_of_mem _ hO, id, hr⟩

variable {entry : BridgeKey × Row}

theorem Bridges.mem_register {k : BridgeKey} {b : Bridges}
    (mem : entry ∈ (b.register k row).prior) : entry ∈ b.prior ∨ entry = (k, row) := by
  unfold register at mem
  split at mem
  next => exact .inl mem
  split at mem
  next => exact .inl (mem_of_mem_filter mem)
  next => exact (mem_append.mp mem).imp id mem_singleton.mp

theorem Bridges.mem_add {b : Bridges}
    (mem : entry ∈ (b.add row).prior) : entry ∈ b.prior ∨ entry.2 = row := by
  unfold add at mem
  split at mem
  next =>
    simp only at mem
    split at mem
    next =>
      rcases mem_register mem with first | rfl
      · rcases mem_register first with old | rfl
        · exact .inl old
        · exact .inr rfl
      · exact .inr rfl
    next =>
      rcases mem_register mem with old | rfl
      · exact .inl old
      · exact .inr rfl
  next => exact .inl mem

theorem mem_bridges (mem : entry ∈ (bridges rows).prior) : entry.2 ∈ rows := by
  have hg : ∀ (rows : List Row) (b : Bridges), entry ∈ (rows.foldl add b).prior →
      entry ∈ b.prior ∨ entry.2 ∈ rows := by
    intro rows
    induction rows with
    | nil =>
      intro b mem
      exact .inl mem
    | cons r rest ih =>
      intro b mem
      rcases ih (b.add r) mem with ha | hl
      · rcases mem_add ha with old | rfl
        · exact .inl old
        · exact .inr mem_cons_self
      · exact .inr (mem_cons_of_mem _ hl)
  exact (hg rows {} mem).resolve_left not_mem_nil

theorem bridgedRow_mem {group : Group} (hb : bridgedRow rows group = some row) : row ∈ rows := by
  rcases Option.or_eq_some_iff.mp hb with hf | ⟨-, hf⟩
  · exact mem_bridges (Dict.mem_of_lookup hf)
  · exact mem_bridges (Dict.mem_of_lookup hf)

theorem Scan.Kept.status_rebuild (hk : s.Kept) {dec : Row} (hDe : dec ∈ s.decided)
    {group : Group} (hr : Restores s.rows dec group) :
    rebuiltStatus (bridgedRow s.rows group) group = dec.status := by
  have hterm : isTerminal dec.status ∧ isOpen dec.status = false := by
    rcases hk.terminal dec hDe with hA | hD
    · rw [hA]
      decide
    · rw [hD]
      decide
  rcases hr with own | ⟨isOpen, row, hb, hst⟩
  · unfold rebuiltStatus
    split
    next => exact own
    next row _ =>
      rw [own, hterm.2, Bool.and_false]
      rfl
  · rw [Option.mem_def.mp hb]
    have hs := hk.durable dec hDe row (bridgedRow_mem hb) hst
    simp only [rebuiltStatus, hs, hterm.1, isOpen]
    rfl

theorem Scan.Kept.replace (hk : s.Kept) {ps : List (Option Group)}
    (hst : Steady digest s (.replace ps)) : (replaceScanProposals s ps).Kept := by
  unfold replaceScanProposals
  simp only
  split
  next => exact hk
  next =>
    refine ⟨?_, hk.terminal, hk.known, ?_⟩
    · intro dec hd r hr hs
      obtain ⟨group, hG, id, rfl⟩ := mem_rebuildAll hr
      refine hk.status_rebuild hd (hst group hG dec hd ?_)
      rcases hs with he | hg
      · -- A row without a bridge has no engine proposal, and the decision has one.
        change (bridgedRow s.rows group).bind Row.engineId = dec.engineId at he
        cases hb : bridgedRow s.rows group with
        | none =>
          rw [hb] at he
          exact absurd he.symm (hk.known dec hd)
        | some r =>
          rw [hb] at he
          exact .inr ⟨r, hb, he⟩
      · exact .inl hg
    · intro r hr
      obtain ⟨group, -, id, rfl⟩ := mem_rebuildAll hr
      change (bridgedRow s.rows group).any draft = false
      cases hb : bridgedRow s.rows group with
      | none => rfl
      | some r => exact hk.noDraft r (bridgedRow_mem hb)

theorem Scan.Kept.step (hk : s.Kept) {label : Label} (hs : Steady digest s label) {t : Scan}
    (ht : step digest chunk s label = some t) : t.Kept := by
  cases label with
  | upsert ps =>
    cases ht
    exact hk.upsert hs
  | commit project ids offeredIds =>
    cases ht
    exact hk.commit hs
  | replace ps =>
    cases ht
    exact hk.replace hs
  | flush project =>
    cases ht
    refine ⟨?_, ?_, ?_, ?_⟩
    · intro dec hd
      cases hd
    · intro dec hd
      cases hd
    · intro dec hd
      cases hd
    · intro r hr
      cases hr

/-- In every run of steady steps the decisions last. -/
theorem steady_runs_keep_decisions {start : Scan} (undecided : start.decided = [])
    (noDraft : ∀ row ∈ start.rows, row.draft = false)
    (reached : Reaches (step digest chunk) (Steady digest) start s) : s.Durable := by
  have initially : start.Kept := by
    refine ⟨?_, ?_, ?_, noDraft⟩
    · intro decision isDecision
      rw [undecided] at isDecision
      cases isDecision
    · intro decision isDecision
      rw [undecided] at isDecision
      cases isDecision
    · intro decision isDecision
      rw [undecided] at isDecision
      cases isDecision
  exact (reached.invariant (fun _ _ _ kept steady taken => kept.step steady taken) initially).durable

/-- A proposal as the engine sends it at the gate. -/
def tidyTask : RawProposal :=
  { id := "p1".toList, file := "site.yml".toList, ruleId := "L007".toList, tier := some 1,
    status := proposed, lineStart := some 3, lineEnd := some 5 }

/-- The group of the same task after the fix. -/
def tidyGroup : Group :=
  { proposalId := "g1".toList, ruleId := "L007".toList, ruleIds := ["L007".toList],
    file := "site.yml".toList, path := "site.yml/play[0]/task[0]".toList, lineStart := 3,
    lineEnd := 0, tier := 1, source := sourceDeterministic, gate := gateTier1, status := pending,
    fixedYaml := [] }

/-- The engine sends a proposal, the gate declines it, and the rows are rebuilt. -/
def declinedAndRebuilt : List Label :=
  [.upsert [tidyTask], .commit [] [] none, .replace [some tidyGroup]]

theorem tidyTask_stays_declined :
    ∃ s, follow (step id 900) (Steady id) declinedAndRebuilt {} = some s ∧
      s.rows.map status = [declined] ∧ s.decided.map status = [declined] ∧ s.Durable := by
  have runs : ∃ s, follow (step id 900) (Steady id) declinedAndRebuilt {} = some s ∧
      s.rows.map status = [declined] ∧ s.decided.map status = [declined] :=
    ⟨_, rfl, by decide, by decide⟩
  obtain ⟨s, followed, rows, decided⟩ := runs
  exact ⟨s, followed, rows, decided, steady_runs_keep_decisions rfl (fun _ member => by cases member)
    (reaches_of_follow declinedAndRebuilt followed)⟩

/-- The gate approves a proposal, and the engine sends it once more. -/
def approvedAndSentAgain : List Label :=
  [.upsert [tidyTask], .commit [] ["p1".toList] none, .upsert [tidyTask]]

theorem approval_undone_by_reemit :
    ∃ s, follow (step id 900) (fun _ _ => True) approvedAndSentAgain {} = some s ∧
      s.decided.map status = [approved] ∧ s.rows.map status = [pending] ∧ ¬ s.Durable :=
  ⟨_, rfl, by decide, by decide, by decide⟩

end Steps

end Apme.Gateway.Proposals
