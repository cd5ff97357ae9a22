import Apme.Remediation.Snapshots
import Apme.Remediation.Splice

/-!
# What is written out while AI edits await review

Without review the engine approves every snapshot that is not the AI's at the
end of a run.  The snapshots a rescan takes after an AI edit hold the AI's text
and are among them, so a node with a pending AI edit is written out as it was
before the edit only if the run takes no later snapshot of it.  A long run evicts
the edit itself and writes its text all the same.
-/

set_option autoImplicit false

namespace Apme.Remediation

open Apme.Lib Apme.Graph List NodeState

def pendingAi (entry : NodeState) : Bool := !entry.approved && entry.source = .ai

def lastApprovedIndex : List NodeState → Option Nat
  | [] => none
  | entry :: rest =>
    match lastApprovedIndex rest with
    | some index => some (index + 1)
    | none => if entry.approved then some 0 else none

variable (progression : List NodeState)

/-- The index of the snapshot that is written out. -/
def effectiveIndex : Nat := (lastApprovedIndex progression).getD 0

variable (entry : NodeState) (rest : List NodeState)

theorem lastApproved_cons : lastApproved (entry :: rest) =
      (lastApproved rest).or (if entry.approved then some entry else none) := by
  unfold lastApproved
  cases ha : entry.approved with
  | false => simp [ha]
  | true =>
    rw [filter_cons, if_pos ha, List.getLast?_cons]
    cases (rest.filter NodeState.approved).getLast? <;> rfl

variable (steps : List NodeState)

theorem lastApprovedIndex_spec : match lastApprovedIndex steps with
    | some i => steps[i]? = lastApproved steps ∧ (lastApproved steps).isSome
    | none => lastApproved steps = none := by
  induction steps with
  | nil => rfl
  | cons e rest ih =>
    rw [lastApproved_cons, lastApprovedIndex]
    cases hf : lastApprovedIndex rest with
    | some i =>
      simp only [hf] at ih ⊢
      obtain ⟨last, he⟩ := Option.isSome_iff_exists.mp ih.2
      rw [List.getElem?_cons_succ, ih.1, he]
      exact ⟨rfl, rfl⟩
    | none =>
      simp only [hf] at ih ⊢
      rw [ih]
      cases ha : e.approved with
      | false => rfl
      | true => exact ⟨rfl, rfl⟩

theorem lastApprovedIndex_append (first second : List NodeState) :
    lastApprovedIndex (first ++ second) =
      match lastApprovedIndex second with
      | some i => some (first.length + i)
      | none => lastApprovedIndex first := by
  induction first with
  | nil =>
    rw [nil_append]
    cases lastApprovedIndex second <;> simp [lastApprovedIndex]
  | cons e rest ih =>
    rw [cons_append, lastApprovedIndex, ih]
    cases lastApprovedIndex second with
    | some i =>
      simp only [length_cons, Option.some.injEq]
      omega
    | none => rfl

theorem lastApprovedIndex_eq_none
    (hp : ∀ e ∈ steps, e.approved = false) : lastApprovedIndex steps = none := by
  induction steps with
  | nil => rfl
  | cons e rest ih =>
    rw [lastApprovedIndex, ih fun later mem => hp later (mem_cons_of_mem _ mem),
      hp e mem_cons_self]
    rfl

theorem lastApprovedIndex_lt (i : Nat)
    (hf : lastApprovedIndex steps = some i) : i < steps.length := by
  have hs := lastApprovedIndex_spec steps
  simp only [hf] at hs
  obtain ⟨last, he⟩ := Option.isSome_iff_exists.mp hs.2
  rw [he] at hs
  exact (List.getElem?_eq_some_iff.mp hs.1).1

/-- The written snapshot is older than every AI edit that awaits review. -/
def HoldsBack : Prop :=
  ∀ first, progression.findIdx? pendingAi = some first → effectiveIndex progression < first

instance (progression : List NodeState) : Decidable (HoldsBack progression) :=
  match found : progression.findIdx? pendingAi with
  | none => isTrue fun first same => by
      rw [found] at same
      cases same
  | some index =>
    if less : effectiveIndex progression < index then
      isTrue fun first same => by
        rw [found] at same
        cases same
        exact less
    else isFalse fun holds => less (holds index found)

def pendingMark : Bool × Source := (false, .ai)

variable (ms : List (Bool × Source))

/-- The pending AI edits are at the end of the progression, and not all of it. -/
def TailPending : Prop :=
  ms.head? ≠ some pendingMark ∧ ∀ m ∈ ms.dropWhile (· ≠ pendingMark), m = pendingMark

instance (ms : List (Bool × Source)) : Decidable (TailPending ms) :=
  inferInstanceAs (Decidable (_ ∧ _))

theorem approveIf_cases : (pendingAi entry ∧ entry.approveIf (some .deterministic) = entry) ∨
      (pendingAi entry = false ∧ pendingAi (entry.approveIf (some .deterministic)) = false ∧
        (entry.approveIf (some .deterministic)).approved) := by
  unfold pendingAi approveIf passesFilter
  cases ha : entry.approved <;> cases src : entry.source <;> simp [ha, src]

theorem pendingAi_iff : pendingAi entry ↔ (entry.approved, entry.source) = pendingMark := by
  unfold pendingAi pendingMark
  simp

theorem pendingAi_approveIf : pendingAi (entry.approveIf (some .deterministic)) = pendingAi entry := by
  rcases approveIf_cases entry with ⟨-, hs⟩ | ⟨hb, ha, -⟩
  · rw [hs]
  · rw [hb, ha]

theorem lastApprovedIndex_eq_none_iff :
    lastApprovedIndex steps = none ↔ ∀ e ∈ steps, e.approved = false := by
  refine ⟨fun none e mem => ?_, lastApprovedIndex_eq_none steps⟩
  have hs := lastApprovedIndex_spec steps
  simp only [none] at hs
  rw [lastApproved, List.getLast?_eq_none_iff, filter_eq_nil_iff] at hs
  exact Bool.eq_false_iff.mpr (hs e mem)

variable (old rest : List NodeState)

theorem findIdx?_split (hea : ∀ e ∈ old, pendingAi e = false)
    (first : ∀ e, rest.head? = some e → pendingAi e) :
    (old ++ rest).findIdx? pendingAi = if rest = [] then none else some old.length := by
  have he : old.findIdx? pendingAi = none := by
    rw [List.findIdx?_eq_none_iff]
    exact hea
  rw [List.findIdx?_append, he]
  cases rest with
  | nil => rfl
  | cons e later =>
    rw [List.findIdx?_cons, first e rfl]
    simp

theorem exists_pending_split : ∃ old rest, steps = old ++ rest ∧
      (∀ entry ∈ old, pendingAi entry = false) ∧
      ∀ entry, rest.head? = some entry → pendingAi entry := by
  refine ⟨steps.takeWhile fun entry => !pendingAi entry,
    steps.dropWhile fun entry => !pendingAi entry,
    takeWhile_append_dropWhile.symm, fun entry mem => ?_, fun entry head => ?_⟩
  · simpa using mem_takeWhile_imp mem
  · have hs := List.head?_dropWhile_not (fun entry => !pendingAi entry) steps
    rw [head] at hs
    simpa using hs

theorem tailPending_split (he : ∀ entry ∈ old, pendingAi entry = false)
    (first : ∀ entry, rest.head? = some entry → pendingAi entry) :
    TailPending ((old ++ rest).map fun entry => (entry.approved, entry.source)) ↔
      (rest ≠ [] → old ≠ []) ∧ ∀ entry ∈ rest, pendingAi entry := by
  have cut : ((old ++ rest).map fun entry => (entry.approved, entry.source)).dropWhile
      (· ≠ pendingMark) = rest.map fun entry => (entry.approved, entry.source) := by
    rw [map_append, dropWhile_append_of_pos]
    · cases rest with
      | nil => rfl
      | cons entry later =>
        have hp := (pendingAi_iff entry).mp (first entry rfl)
        rw [map_cons, dropWhile_cons_of_neg]
        simp [hp]
    · intro m mem
      obtain ⟨entry, hb, rfl⟩ := mem_map.mp mem
      have hd : (entry.approved, entry.source) ≠ pendingMark := fun hs =>
        absurd ((pendingAi_iff entry).mpr hs) (by rw [he entry hb]; exact Bool.noConfusion)
      exact decide_eq_true hd
  unfold TailPending
  rw [cut]
  refine and_congr ?_ ?_
  · cases old with
    | cons entry later =>
      have hd : (entry.approved, entry.source) ≠ pendingMark := fun hs =>
        absurd ((pendingAi_iff entry).mpr hs)
          (by rw [he entry mem_cons_self]; exact Bool.noConfusion)
      simpa using hd
    | nil =>
      cases rest with
      | nil => simp
      | cons entry later =>
        have hp := (pendingAi_iff entry).mp (first entry rfl)
        simp [hp]
  · constructor
    · intro all entry mem
      exact (pendingAi_iff entry).mpr (all _ (mem_map_of_mem mem))
    · intro all m mem
      obtain ⟨entry, hr, rfl⟩ := mem_map.mp mem
      exact (pendingAi_iff entry).mp (all entry hr)

theorem all_pending_iff : (∀ e ∈ rest, pendingAi e) ↔
      lastApprovedIndex (rest.map (approveIf (some .deterministic))) = none := by
  rw [lastApprovedIndex_eq_none_iff, forall_mem_map]
  refine forall₂_congr fun e _ => ?_
  rcases approveIf_cases e with ⟨hp, hs⟩ | ⟨hnp, -, ha⟩
  · have hu : e.approved = false := by
      simp only [pendingAi, Bool.and_eq_true, Bool.not_eq_true'] at hp
      exact hp.1
    rw [hs]
    exact iff_of_true hp hu
  · rw [hnp, ha]
    simp

variable (node : ContentNode)

/-- Once everything but the AI's edits is approved, the written snapshot is
older than the pending edits exactly when those are at the end. -/
theorem holdsBack_approved_iff :
    HoldsBack (node.progression.map (approveIf (some .deterministic))) ↔
      TailPending (marks node) := by
  obtain ⟨old, rest, hs, hea, first⟩ := exists_pending_split node.progression
  have idx : (node.progression.map (approveIf (some .deterministic))).findIdx? pendingAi =
      if rest = [] then none else some old.length := by
    rw [List.findIdx?_map, ← findIdx?_split old rest hea first, hs]
    congr 1
    funext e
    exact pendingAi_approveIf e
  have he := lastApprovedIndex_append (old.map (approveIf (some .deterministic)))
    (rest.map (approveIf (some .deterministic)))
  rw [marks, hs, tailPending_split old rest hea first, ← hs]
  unfold HoldsBack
  rw [idx, effectiveIndex, hs, map_append, he, length_map]
  cases rest with
  | nil => simp
  | cons e later =>
    rw [if_neg (cons_ne_nil e later)]
    simp only [Option.some.injEq, forall_eq', ne_eq, reduceCtorEq, not_false_eq_true,
      forall_const, all_pending_iff]
    cases hf : lastApprovedIndex
        ((e :: later).map (approveIf (some .deterministic))) with
    | some i => simp
    | none =>
      simp only [and_true]
      cases old with
      | nil => simp
      | cons oldest others =>
        have hb : effectiveIndex
            ((oldest :: others).map (approveIf (some .deterministic))) <
              (oldest :: others).length := by
          unfold effectiveIndex
          cases last : lastApprovedIndex
              ((oldest :: others).map (approveIf (some .deterministic))) with
          | none => simp
          | some i => simpa using lastApprovedIndex_lt _ _ last
        simpa [effectiveIndex] using hb

theorem tailPending_iff_of_last (m : Bool × Source)
    (last : ms.getLast? = some m) (ho : m ≠ pendingMark) :
    TailPending ms ↔ pendingMark ∉ ms := by
  constructor
  · intro tail mem
    have hf : ms.dropWhile (· ≠ pendingMark) ≠ [] := by
      rw [ne_eq, dropWhile_eq_nil_iff]
      intro all
      simpa using all pendingMark mem
    have hi : m ∈ ms.dropWhile (· ≠ pendingMark) := by
      obtain ⟨old, hsp⟩ := dropWhile_suffix (l := ms) fun m => decide (m ≠ pendingMark)
      have hd := List.getLast?_append_of_ne_nil old hf
      rw [hsp, last] at hd
      exact mem_of_getLast? hd.symm
    exact ho (tail.2 m hi)
  · intro ha
    refine ⟨fun head => ha (mem_of_mem_head? head), fun x mem => ?_⟩
    have none : ms.dropWhile (· ≠ pendingMark) = [] := by
      rw [dropWhile_eq_nil_iff]
      intro x hm
      exact decide_eq_true fun hs => ha (hs ▸ hm)
    rw [none] at mem
    cases mem

section Run

variable {cfg : EngineConfig} {opts : RemediateOptions} {g : ContentGraph}

/-- No node's last snapshot of the run is the AI's. -/
def AiRescanned (g : ContentGraph) (s : Engine) : Prop :=
  Tracked g s ∧ ∀ nodeId, s.lastSource nodeId ≠ some .ai

theorem AiRescanned.runs {may : EngineOp → Prop} {src : Source} {s t : Engine}
    (holds : AiRescanned g s)
    (hr : Runs may s t)
    (hta : ∀ id pass phase o, may (.record id pass phase o) → o = src)
    (hc : ∀ event, may (.log event) → ∀ id, event.snapshotOf id = none) (ha : src ≠ .ai) :
    AiRescanned g t := by
  obtain ⟨ht, last⟩ := hr.snapshots hta hc holds.1
  refine ⟨ht, fun id hla => ?_⟩
  rcases last id with own | hs
  · exact ha (Option.some.inj (own.symm.trans hla))
  · exact holds.2 id (hs.symm.trans hla)

theorem startRun_rescanned (init : Option (List Violation)) :
    AiRescanned g (startRun cfg g init) := by
  have hf : AiRescanned g { graph := g } := by
    refine ⟨fun id => ?_, by simp [Engine.lastSource, Engine.snapshots]⟩
    cases g.getNode id <;> rfl
  have hr := recordViolations_runs { graph := g } (initialViolations cfg g init) 0 .scanned []
  have hk := hf.runs hr (fun _ _ _ _ => id) (fun _ => False.elim) (by decide)
  exact hk

theorem aiRound_rescanned (prov : AIProvider) (tier2 : List Violation) (pass : Nat)
    (l : LoopVars) (s : Engine) (holds : AiRescanned g s) :
    Holds (fun r => AiRescanned g r.1) (fun _ => True) (aiRound cfg prov tier2 pass l s) := by
  have hb : AiNodesDirty s := fun id ha => absurd ha (holds.2 id)
  have ht := ((applyAiTransforms_runs prov tier2 pass l.aiAttempts l.aiFeedback s).snapshots
    (fun _ _ _ _ => id) (by rintro ⟨⟩ <;> simp [AiOp, EngineEvent.snapshotOf]) holds.1).1
  have hd := applyAiTransforms_snapshots prov tier2 pass l.aiAttempts l.aiFeedback s hb
  simp only [aiRound]
  split
  next none =>
    refine ⟨ht, fun id ha => ?_⟩
    have mem := (hd id ha).1
    rw [none] at mem
    cases mem
  next =>
    refine Holds.map (rescanAndCollect_snapshots pass .ai .proposed _ ht)
      fun t hag => ⟨hag.1, fun id ha => ?_⟩
    rcases hag.2 id with hu | ⟨hs, hc⟩
    · rw [hu] at ha
      cases ha
    · rw [hs] at ha
      exact hc (hd id ha)

theorem rescanned_invariant :
    RunInvariant cfg opts (AiRescanned g) (fun _ => True) where
  tier1 tier1 pass s _ holds := by
    refine (applyTier1_runs cfg tier1 pass s).mono (fun r hr => ?_) fun _ _ => trivial
    exact holds.runs hr (fun _ _ _ _ => id) (by rintro ⟨⟩ <;> simp [Tier1Op, EngineEvent.snapshotOf]) (by decide)
  rescan pass s holds := by
    refine rescanAndCollect_runs cfg pass _ _ s trivial fun _ answer t _ hr => ?_
    have hk := holds.runs hr (fun _ _ _ _ => id) (fun _ => False.elim) (by decide)
    have hq := Quiet.log t [.rescan answer] fun _ => rfl
    exact ⟨hq.tracked hk.1, fun id ha => hk.2 id ((hq.lastSource id).symm.trans ha)⟩
  ai provider tier2 pass l s _ _ holds := aiRound_rescanned provider tier2 pass l s holds

/-- What a run that took snapshots of sources `taken` of a node may leave: if it
took none, pending AI edits of before at the end of the progression; else no
pending AI edit among the entries that still fit into the progression. -/
def NoAiEditLeft (taken : List Source) : Prop :=
  if taken = [] then TailPending (marks node)
  else
    let room := max maxProgression node.progression.length
    pendingMark ∉ (marks node).drop (node.progression.length + taken.length - room) ∧
      Source.ai ∉ taken.drop (taken.length - room)

instance (node : ContentNode) (taken : List Source) : Decidable (NoAiEditLeft node taken) :=
  inferInstanceAs (Decidable (if taken = [] then _ else _ ∧ _))

theorem tailPending_pushed_iff (taken : List Source) (last : taken.getLast? ≠ some .ai) :
    TailPending ((taken.map fun src => (false, src)).foldl (pushBounded maxProgression)
        (marks node)) ↔ NoAiEditLeft node taken := by
  unfold NoAiEditLeft
  split
  next none => rw [none]; rfl
  next some =>
    obtain ⟨src, hi⟩ := Option.ne_none_iff_exists'.mp (mt List.getLast?_eq_none_iff.mp some)
    have ho : (false, src) ≠ pendingMark := by
      intro same
      rw [hi] at last
      exact last (congrArg Option.some (Prod.mk.inj same).2)
    have he : ((taken.map fun src => (false, src)).foldl (pushBounded maxProgression)
        (marks node)).getLast? = Option.some (false, src) := by
      obtain ⟨earlier, split⟩ := List.getLast?_eq_some_iff.mp hi
      rw [split, map_append, foldl_append]
      exact getLast?_pushBounded _ _ _
    have hl : (marks node).length = node.progression.length := length_map _
    have hr : pendingMark ∈ (taken.map fun src => (false, src)).drop
        (taken.length - max maxProgression node.progression.length) ↔
          Source.ai ∈ taken.drop (taken.length - max maxProgression node.progression.length) := by
      rw [← map_drop, mem_map]
      simp [pendingMark]
    rw [tailPending_iff_of_last _ _ he ho, foldl_pushBounded _ (by decide), hl,
      length_map, mem_append, not_or, hr]

/-- The snapshots of a node up to the end of a run, with those that were evicted. -/
def history (taken : List Source) : List (Bool × Source) :=
  marks node ++ taken.map fun source => (false, source)

/-- The written snapshot of `node` is older than every AI edit of its history
that awaits review. -/
def WrittenBefore (start node : ContentNode) (taken : List Source) : Prop :=
  ∀ index, (history start taken)[index]? = some pendingMark →
    (history start taken).length - node.progression.length + effectiveIndex node.progression < index

/-- Nothing the AI wrote is written out without approval: neither by a node that
has a pending AI edit, nor by an edit of a file, nor in a patch, which is made of
such edits. -/
structure HeldBack (g : ContentGraph) (s : Engine) : Prop where
  nodes : ∀ nodeId node, s.graph.getNode nodeId = some node → HoldsBack node.progression
  edits : ∀ nodeId start node edit, g.getNode nodeId = some start →
    s.graph.getNode nodeId = some node → nodeEdit false node = some edit →
      WrittenBefore start node (s.snapshots nodeId)
  patches : ∀ originals patch, patch ∈ spliceModifications s.graph originals false →
    patch.patched = ((markedSplice (fileLines patch.original)
      (fileEdits s.graph false patch.path)).map Prod.fst).flatten ∧
    ∀ e ∈ fileEdits s.graph false patch.path, ∃ nodeId start node snapshot,
      g.getNode nodeId = some start ∧ s.graph.getNode nodeId = some node ∧
        node.progression[effectiveIndex node.progression]? = some snapshot ∧
          e.new = fileLines snapshot.yamlLines ∧ WrittenBefore start node (s.snapshots nodeId)

/-- No pending AI edit is left, and none was made: unless the run has left the
node alone, or what is kept of it holds no change that would be written. -/
def NoAiTextWritten (start node : ContentNode) (taken : List Source) : Prop :=
  NoAiEditLeft start taken ∧
    (taken = [] ∨ (pendingMark ∉ marks start ∧ .ai ∉ taken) ∨ nodeEdit false node = none)

theorem effectiveState_eq :
    effectiveState false steps = steps[effectiveIndex steps]? := by
  have hs := lastApprovedIndex_spec steps
  unfold effectiveState effectiveIndex
  cases hf : lastApprovedIndex steps with
  | some i =>
    simp only [hf] at hs
    obtain ⟨e, he⟩ := Option.isSome_iff_exists.mp hs.2
    simp [hs.1, he]
  | none =>
    simp only [hf] at hs
    simp [hs, head?_eq_getElem?]

theorem nodeEdit_new {node : ContentNode} {made : NodeEdit} (hm : nodeEdit false node = some made) :
    ∃ snapshot, node.progression[effectiveIndex node.progression]? = some snapshot ∧
      made.edit.new = fileLines snapshot.yamlLines := by
  unfold nodeEdit at hm
  split at hm
  · cases hm
  · split at hm
    · split at hm
      next original effective _ he =>
        split at hm
        · cases hm
        · cases Option.some.inj hm
          exact ⟨effective, (effectiveState_eq _).symm.trans he, rfl⟩
      next => cases hm
    · cases hm

section Node

variable {start final : ContentNode} {taken : List Source}
  (tracked : marks final = (taken.map fun src => (false, src)).foldl (pushBounded maxProgression)
    (marks start))

include tracked

theorem length_tracked : final.progression.length ≤ (history start taken).length := by
  have hl := congrArg List.length tracked
  rw [foldl_pushBounded_append _ (by decide), length_drop, marks, length_map] at hl
  rw [hl]
  exact Nat.sub_le _ _

/-- The last snapshot of a run is approved and written. -/
theorem writtenBefore_iff (ne : taken ≠ []) (last : taken.getLast? ≠ some .ai) :
    WrittenBefore start (final.approvePending (some .deterministic)) taken ↔
      pendingMark ∉ history start taken := by
  obtain ⟨src, hi⟩ := Option.ne_none_iff_exists'.mp (mt List.getLast?_eq_none_iff.mp ne)
  obtain ⟨earlier, split⟩ := List.getLast?_eq_some_iff.mp hi
  have hl : (marks final).getLast? = some (false, src) := by
    rw [tracked, split, map_append, foldl_append]
    exact getLast?_pushBounded _ _ _
  rw [marks, List.getLast?_map] at hl
  obtain ⟨e, he, mark⟩ := Option.map_eq_some_iff.mp hl
  obtain ⟨old, hs⟩ := List.getLast?_eq_some_iff.mp he
  have ha : (e.approveIf (some .deterministic)).approved := by
    rcases approveIf_cases e with ⟨hp, -⟩ | ⟨-, -, ha⟩
    · rw [(pendingAi_iff e).mp hp] at mark
      rw [hi, ← (Prod.mk.inj mark).2] at last
      exact absurd rfl last
    · exact ha
  have index : effectiveIndex (final.approvePending (some .deterministic)).progression =
      old.length := by
    rw [ContentNode.approvePending, hs, map_append, effectiveIndex, lastApprovedIndex_append]
    simp [lastApprovedIndex, ha]
  have long := length_tracked tracked
  have size : (final.approvePending (some .deterministic)).progression.length =
      final.progression.length := length_map _
  rw [hs, length_append, length_singleton] at long size
  unfold WrittenBefore
  rw [index, size]
  constructor
  · intro older mem
    obtain ⟨i, hlt, hi⟩ := List.getElem_of_mem mem
    have := older i (List.getElem?_eq_some_iff.mpr ⟨hlt, hi⟩)
    omega
  · intro none i hi
    exact absurd (mem_of_getElem? hi) none

theorem held_iff (last : taken.getLast? ≠ some .ai) :
    (HoldsBack (final.approvePending (some .deterministic)).progression ∧
      ∀ made, nodeEdit false (final.approvePending (some .deterministic)) = some made →
        WrittenBefore start (final.approvePending (some .deterministic)) taken) ↔
      NoAiTextWritten start (final.approvePending (some .deterministic)) taken := by
  have holds : HoldsBack (final.approvePending (some .deterministic)).progression ↔
      NoAiEditLeft start taken := by
    rw [← tailPending_pushed_iff start taken last, ← tracked]
    exact holdsBack_approved_iff final
  unfold NoAiTextWritten
  rw [← holds]
  refine and_congr_right fun held => ?_
  cases hm : nodeEdit false (final.approvePending (some .deterministic)) with
  | none => simp
  | some made =>
    simp only [Option.some.injEq, forall_eq', reduceCtorEq, or_false]
    by_cases none : taken = []
    · subst none
      refine iff_of_true (fun index pending => ?_) (.inl rfl)
      have same : history start [] = marks final := (append_nil _).trans tracked.symm
      rw [same, marks, getElem?_map] at pending
      obtain ⟨e, he, mark⟩ := Option.map_eq_some_iff.mp pending
      have hp : pendingAi (e.approveIf (some .deterministic)) := by
        rw [pendingAi_approveIf]
        exact (pendingAi_iff e).mpr mark
      have found : (final.approvePending (some .deterministic)).progression[index]? =
          some (e.approveIf (some .deterministic)) := by
        rw [ContentNode.approvePending, getElem?_map, he]
        rfl
      cases first : (final.approvePending (some .deterministic)).progression.findIdx? pendingAi with
      | none =>
        rw [List.findIdx?_eq_none_iff] at first
        rw [first _ (mem_of_getElem? found)] at hp
        cases hp
      | some i =>
        have size : (marks final).length =
            (final.approvePending (some .deterministic)).progression.length := by
          rw [marks, ContentNode.approvePending, length_map, length_map]
        have le : i ≤ index := by
          by_contra lt
          have no := (List.findIdx?_eq_some_iff_getElem.mp first).2.2 index (Nat.lt_of_not_le lt)
          rw [(List.getElem?_eq_some_iff.mp found).2] at no
          exact no hp
        have := held i first
        rw [same, size]
        omega
    · rw [writtenBefore_iff tracked none last]
      simp [none, history, pendingMark]

end Node

/-- Without review, a run writes out no text of the AI exactly when it leaves no
AI edit pending that it took a later snapshot of, nor evicts one that it writes. -/
theorem remediate_holdsBack_iff (cfg : EngineConfig) (opts : RemediateOptions) (g : ContentGraph)
    (initial : Option (List Violation)) (s : Engine) (fixReport : GraphFixReport)
    (automatic : opts.interactive = false)
    (run : remediate cfg opts g initial = .ok (s, fixReport)) :
    HeldBack g s ↔
      ∀ nodeId start node, g.getNode nodeId = some start → s.graph.getNode nodeId = some node →
        NoAiTextWritten start node (s.snapshots nodeId) := by
  have invariant : RunInvariant cfg opts (AiRescanned g) fun _ => True := rescanned_invariant
  have ended := invariant.remediate_good (startRun_rescanned initial)
  rw [run] at ended
  obtain ⟨before, l, ⟨tracked, last⟩, same⟩ := ended
  obtain ⟨rfl, -⟩ := Prod.mk.inj same
  have snapshots : ∀ nodeId, (autoApprove opts before).snapshots nodeId = before.snapshots nodeId := by
    intro nodeId
    rw [autoApprove, automatic]
    rfl
  have nodes : ∀ nodeId node, (autoApprove opts before).graph.getNode nodeId = some node →
      ∃ start final, g.getNode nodeId = some start ∧
        node = final.approvePending (some .deterministic) ∧
          marks final = ((before.snapshots nodeId).map fun src => (false, src)).foldl
            (pushBounded maxProgression) (marks start) := by
    intro nodeId node found
    rw [autoApprove, automatic] at found
    obtain ⟨final, isFinal, rfl⟩ := Option.map_eq_some_iff.mp
      ((ContentGraph.getNode_mapNodes _ _ _).symm.trans found)
    have history := tracked nodeId
    rw [isFinal] at history
    obtain ⟨start, isStart, pushed⟩ := Option.map_eq_some_iff.mp history.symm
    exact ⟨start, final, isStart, rfl, pushed.symm⟩
  constructor
  · intro held nodeId start node isStart found
    obtain ⟨_, final, isStart', rfl, pushed⟩ := nodes nodeId node found
    cases Option.some.inj (isStart.symm.trans isStart')
    rw [snapshots]
    refine (held_iff pushed (last nodeId)).mp ⟨held.nodes nodeId _ found, fun made hm => ?_⟩
    rw [← snapshots]
    exact held.edits nodeId start _ made isStart found hm
  · intro written
    have both : ∀ nodeId start node, g.getNode nodeId = some start →
        (autoApprove opts before).graph.getNode nodeId = some node →
          HoldsBack node.progression ∧ ∀ made, nodeEdit false node = some made →
            WrittenBefore start node ((autoApprove opts before).snapshots nodeId) := by
      intro nodeId start node isStart found
      obtain ⟨_, final, isStart', rfl, pushed⟩ := nodes nodeId node found
      cases Option.some.inj (isStart.symm.trans isStart')
      have clean := written nodeId start _ isStart found
      rw [snapshots] at clean ⊢
      exact (held_iff pushed (last nodeId)).mpr clean
    refine ⟨fun nodeId node found => ?_, fun nodeId start node made isStart found hm => ?_,
      fun originals patch produced => ⟨(patched_eq_markedSplice _ _ produced).2, fun e mem => ?_⟩⟩
    · obtain ⟨start, _, isStart, -⟩ := nodes nodeId node found
      exact (both nodeId start node isStart found).1
    · exact (both nodeId start node isStart found).2 made hm
    · obtain ⟨entry, inFile, rfl⟩ := mem_map.mp ((perm_insertionSort _ _).subset mem)
      obtain ⟨node, isNode, isEntry⟩ := mem_filterMap.mp (mem_filter.mp inFile).1
      obtain ⟨made, hm, rfl⟩ := Option.map_eq_some_iff.mp isEntry
      obtain ⟨nodeId, found⟩ := (Dict.mem_values_iff _ _).mp isNode
      obtain ⟨start, _, isStart, -⟩ := nodes nodeId node found
      obtain ⟨snapshot, written, new⟩ := nodeEdit_new hm
      exact ⟨nodeId, start, node, snapshot, isStart, found, written, new,
        (both nodeId start node isStart found).2 made hm⟩

end Run

/-- A playbook whose second line is a task with one finding that has no transform. -/
def shellTaskId : String := "site.yml/plays[0]/tasks[0]"

def shellTaskGraph : ContentGraph :=
  { nodes := Dict.ofList
      [(shellTaskId,
        { nodeType := .task, filePath := "site.yml", lineStart := 2, lineEnd := 2
          yamlLines := "- shell: ls\n".toList })] }

def shellTaskFile : Text := "---\n- shell: ls\n".toList

def shellFinding : Violation := { ruleId := "L030", path := shellTaskId, file := "site.yml" }

/-- The provider proposes a fix, and every rescan finds nothing. -/
def cleanRescanConfig : EngineConfig :=
  { registry := fun _ => none
    rescanFn := some fun _ _ _ => some []
    aiProvider := some fun _ _ => .fix { fixedSnippet := "- command: ls\n".toList } }

/-- The scan snapshot taken after the AI edit is approved by its empty source, so the splice
writes the text that only the unapproved entry below it accounts for. -/
theorem cleanRescan_writes_pending_ai :
    Holds
      (fun ended =>
        ((ended.1.graph.getNode shellTaskId).any fun node =>
          node.progression.any pendingAi && !decide (HoldsBack node.progression)) ∧
        spliceModifications ended.1.graph (Dict.ofList [("site.yml", shellTaskFile)]) false =
          [{ path := "site.yml", original := shellTaskFile
             patched := "---\n- command: ls\n".toList, ruleIds := ["L030"] }])
      (fun _ => False)
      (remediate cleanRescanConfig {} shellTaskGraph (some [shellFinding])) := by
  decide

def withoutProvider : EngineConfig := { cleanRescanConfig with aiProvider := none }

/-- Without a provider the same run takes no AI snapshot and holds nothing back. -/
theorem withoutProvider_holdsBack :
    ∃ s fixReport,
      remediate withoutProvider {} shellTaskGraph (some [shellFinding]) = .ok (s, fixReport) ∧
        HeldBack shellTaskGraph s := by
  refine ⟨_, _, rfl, (remediate_holdsBack_iff withoutProvider {} shellTaskGraph
    (some [shellFinding]) _ _ rfl rfl).mpr ?_⟩
  intro nodeId start node isStart found
  have entry := (Dict.get?_eq_some_iff _ _ _).mp isStart
  obtain ⟨rfl, rfl⟩ := Prod.mk.inj (mem_singleton.mp entry)
  exact ⟨by decide, .inr (.inl (by decide))⟩

end Apme.Remediation
