import Apme.Gateway.Proposals
import Apme.Lib.StableSort

/-!
# Groups of violations

`group_violations` makes one approval unit of the violations of a node path and
class lane, and one of each violation without a path.  The path is read back from
the bucket's key: the lanes have no `:lane:`, so the last one in a key is where
the path ends, whatever the path contains.
-/

set_option autoImplicit false

namespace Apme.Gateway.Proposals

open Apme.Lib List

/-- What groups depend on; `remediationClass` is after `_to_int`, and ids are keys. -/
structure Violation where
  id : Nat
  path : Text
  remediationClass : Nat
  fixedYaml : Text
  id_pos : 0 < id

inductive Lane
  | tier1
  | ai
  | other
  deriving DecidableEq

def Lane.text : Lane → Text
  | .tier1 => "tier1".toList
  | .ai => "ai".toList
  | .other => "other".toList

def classLane (v : Violation) : Lane :=
  if v.remediationClass = 2 then .ai
  else if v.remediationClass = 1 ∨ Text.strip v.fixedYaml ≠ [] then .tier1
  else .other

def groupKey (v : Violation) : Text :=
  let path := Text.strip v.path
  if path ≠ [] then "path:".toList ++ (path ++ (":lane:".toList ++ (classLane v).text))
  else "singleton:id:".toList ++ v.id.repr.toList

/-- Source, gate and tier. -/
def classify (items : List Violation) : Text × Text × Nat :=
  if ∃ v ∈ items, v.remediationClass = 1 then (sourceDeterministic, gateTier1, 1)
  else if ∃ v ∈ items, v.remediationClass = 2 then (sourceAiCandidate, gateAi, 2)
  else if ∃ v ∈ items, Text.strip v.fixedYaml ≠ [] then (sourceDeterministic, gateTier1, 1)
  else (sourceOutcome, [], 0)

variable (digest : Text → Text)

def proposalId (gate key : Text) : Text :=
  "prop-".toList ++ (orElse gate "na".toList ++ '-' :: digest key)

/-- `text.rsplit(sep, 1)[0]`, if the separator is in the text. -/
def beforeLast (sep : Text) : Text → Option Text
  | [] => none
  | c :: rest =>
    match beforeLast sep rest with
    | some found => some (c :: found)
    | none => if sep <+: c :: rest then some [] else none

def groupPath (key : Text) : Text :=
  if "path:".toList <+: key then
    let rest := key.drop "path:".toList.length
    (beforeLast ":lane:".toList rest).getD rest
  else []

structure GroupedProposal where
  proposalId : Text
  violationIds : List Nat
  path : Text
  source : Text
  gate : Text
  tier : Nat
  deriving DecidableEq

variable (vs : List Violation)

def bucket (key : Text) : List Violation := vs.filter fun v => groupKey v = key

def grouped (key : Text) : GroupedProposal :=
  let (source, gate, tier) := classify (bucket vs key)
  { proposalId := proposalId digest gate key,
    violationIds := sortOn id ((bucket vs key).map (·.id)),
    path := groupPath key, source, gate, tier }

/-- The groups, before they are sorted for display. -/
def groupViolations : List GroupedProposal := (firsts (vs.map groupKey)).map (grouped digest vs)

variable {digest vs} {v w : Violation}

theorem beforeLast_append {sep t found : Text} (path : Text) (h : beforeLast sep t = some found) :
    beforeLast sep (path ++ t) = some (path ++ found) := by
  induction path with
  | nil => exact h
  | cons c path ih => simp only [cons_append, beforeLast, ih]

theorem groupPath_groupKey (hv : Text.strip v.path ≠ []) :
    groupPath (groupKey v) = Text.strip v.path := by
  have hl : ∀ lane : Lane, beforeLast ":lane:".toList (":lane:".toList ++ lane.text) = some [] := by
    rintro (_ | _ | _) <;> decide
  rw [groupKey, if_pos hv, groupPath, if_pos ( prefix_append ..), drop_left]
  simp only [beforeLast_append _ (hl _), append_nil, Option.getD_some]

theorem groupKey_eq_iff (hv : Text.strip v.path ≠ []) : groupKey v = groupKey w ↔
    Text.strip v.path = Text.strip w.path ∧ classLane v = classLane w := by
  constructor
  · intro h
    by_cases hw : Text.strip w.path = []
    · rw [groupKey, groupKey, if_pos hv, if_neg (not_not.mpr hw)] at h
      exact absurd (cons.inj h).1 (by decide)
    · have hp : Text.strip v.path = Text.strip w.path := by
        rw [← groupPath_groupKey hv, ← groupPath_groupKey hw, h]
      have ht : ∀ a b : Lane, a.text = b.text → a = b := by
        rintro (_ | _ | _) (_ | _ | _) <;> decide
      rw [groupKey, groupKey, if_pos hv, if_pos hw, hp] at h
      exact ⟨hp, ht _ _ (append_cancel_left (append_cancel_left (append_cancel_left h)))⟩
  · rintro ⟨hp, hl⟩
    rw [groupKey, groupKey, if_pos hv, if_pos (hp ▸ hv), hp, hl]

theorem mem_groupViolations {g : GroupedProposal} :
    g ∈ groupViolations digest vs ↔ ∃ v ∈ vs, grouped digest vs (groupKey v) = g := by
  simp [groupViolations, mem_firsts]

theorem mem_violationIds (hn : (vs.map (·.id)).Nodup) (hv : v ∈ vs) (key : Text) :
    v.id ∈ (grouped digest vs key).violationIds ↔ groupKey v = key := by
  have hm : v.id ∈ (grouped digest vs key).violationIds ↔ ∃ w ∈ vs, groupKey w = key ∧ w.id = v.id := by
    simp [grouped, (sortOn_perm ..).mem_iff, bucket, and_assoc]
  rw [hm]
  constructor
  · rintro ⟨w, hw, hk, hi⟩
    rwa [inj_on_of_nodup_map hn hw hv hi] at hk
  · intro hk
    exact ⟨v, hv, hk, rfl⟩

theorem grouped_perm {ws : List Violation} (h : vs.Perm ws) (key : Text) :
    grouped digest vs key = grouped digest ws key := by
  have hb : (bucket vs key).Perm (bucket ws key) := h.filter _
  have hc : classify (bucket vs key) = classify (bucket ws key) := by
    simp only [classify, hb.mem_iff]
  have hs : sortOn id ((bucket vs key).map (·.id)) = sortOn id ((bucket ws key).map (·.id)) :=
    (((sortOn_perm ..).trans (hb.map _)).trans (sortOn_perm ..).symm).eq_of_pairwise
      (fun _ _ _ _ => le_antisymm) (sortedOn_sortOn ..) (sortedOn_sortOn ..)
  simp only [grouped, hc, hs]

theorem groupViolations_perm {ws : List Violation} (h : vs.Perm ws) :
    (groupViolations digest vs).Perm (groupViolations digest ws) := by
  have hk : (firsts (vs.map groupKey)).Perm (firsts (ws.map groupKey)) :=
    (perm_ext_iff_of_nodup (nodup_firsts _) (nodup_firsts _)).mpr fun key => by
      rw [mem_firsts, mem_firsts, (h.map _).mem_iff]
  rw [groupViolations, groupViolations, funext (grouped_perm h)]
  exact hk.map _

theorem digest_of_proposalId {gate gate' key key' : Text}
    (hg : '-' ∉ orElse gate "na".toList) (hg' : '-' ∉ orElse gate' "na".toList)
    (h : proposalId digest gate key = proposalId digest gate' key') : digest key = digest key' :=
  (Text.append_cons_inj (append_cancel_left h) hg hg').2

theorem classify_gate (items : List Violation) : '-' ∉ orElse (classify items).2.1 "na".toList := by
  unfold classify
  split_ifs <;> decide

theorem groupViolations_partition (digest : Text → Text) (hn : (vs.map (·.id)).Nodup) :
    (∀ v ∈ vs, ∃! g, g ∈ groupViolations digest vs ∧ v.id ∈ g.violationIds) ∧
    (∀ v ∈ vs, ∀ w ∈ vs, Text.strip v.path ≠ [] → Text.strip w.path ≠ [] →
      ((∃ g ∈ groupViolations digest vs, v.id ∈ g.violationIds ∧ w.id ∈ g.violationIds) ↔
        Text.strip v.path = Text.strip w.path ∧ classLane v = classLane w)) ∧
    (∀ v ∈ vs, Text.strip v.path ≠ [] → ∀ g ∈ groupViolations digest vs, v.id ∈ g.violationIds →
      g.path = Text.strip v.path) ∧
    ((∀ v ∈ vs, ∀ w ∈ vs, digest (groupKey v) = digest (groupKey w) → groupKey v = groupKey w) →
      ((groupViolations digest vs).map (·.proposalId)).Nodup) ∧
    ∀ ws, vs.Perm ws → (groupViolations digest vs).Perm (groupViolations digest ws) := by
  refine ⟨fun v hv => ?_, fun v hv w hw hp _ => ?_, fun v hv hp g hg hi => ?_, fun hd => ?_,
    fun ws => groupViolations_perm⟩
  · refine ⟨grouped digest vs (groupKey v),
      ⟨mem_groupViolations.mpr ⟨v, hv, rfl⟩, (mem_violationIds hn hv _).mpr rfl⟩, ?_⟩
    rintro g ⟨hg, hi⟩
    obtain ⟨w, -, rfl⟩ := mem_groupViolations.mp hg
    rw [(mem_violationIds hn hv _).mp hi]
  · rw [← groupKey_eq_iff hp]
    constructor
    · rintro ⟨g, hg, hi, hi'⟩
      obtain ⟨u, -, rfl⟩ := mem_groupViolations.mp hg
      exact ((mem_violationIds hn hv _).mp hi).trans ((mem_violationIds hn hw _).mp hi').symm
    · intro hk
      exact ⟨_, mem_groupViolations.mpr ⟨v, hv, rfl⟩, (mem_violationIds hn hv _).mpr rfl,
        (mem_violationIds hn hw _).mpr hk.symm⟩
  · obtain ⟨w, -, rfl⟩ := mem_groupViolations.mp hg
    rw [← groupPath_groupKey hp, (mem_violationIds hn hv _).mp hi]
    rfl
  · rw [groupViolations, map_map]
    refine (nodup_firsts _).map_on fun key hk key' hk' he => ?_
    obtain ⟨v, hv, rfl⟩ := mem_map.mp (mem_firsts.mp hk)
    obtain ⟨w, hw, rfl⟩ := mem_map.mp (mem_firsts.mp hk')
    exact hd v hv w hw (digest_of_proposalId (classify_gate _) (classify_gate _) he)

/-- Two findings of one lane on one path, one of another lane there, and one of
that lane on another path. -/
def webAndDb : List Violation :=
  [⟨1, "roles/web".toList, 1, [], by decide⟩, ⟨2, " roles/web".toList, 1, [], by decide⟩,
    ⟨3, "roles/web".toList, 2, [], by decide⟩, ⟨4, "roles/db".toList, 1, [], by decide⟩]

theorem webAndDb_partition :
    (∀ v ∈ webAndDb, ∃! g, g ∈ groupViolations id webAndDb ∧ v.id ∈ g.violationIds) ∧
    (∃ g ∈ groupViolations id webAndDb, 1 ∈ g.violationIds ∧ 2 ∈ g.violationIds) ∧
    (¬ ∃ g ∈ groupViolations id webAndDb, 1 ∈ g.violationIds ∧ 3 ∈ g.violationIds) ∧
    (¬ ∃ g ∈ groupViolations id webAndDb, 1 ∈ g.violationIds ∧ 4 ∈ g.violationIds) ∧
    ((groupViolations id webAndDb).map (·.proposalId)).Nodup ∧
    (groupViolations id webAndDb).Perm (groupViolations id webAndDb.reverse) := by
  obtain ⟨one, together, -, ids, order⟩ :=
    groupViolations_partition id (show (webAndDb.map (·.id)).Nodup by decide)
  -- Of the first finding and another one, the paths and lanes decide.
  have web : ∀ w ∈ webAndDb, (∃ g ∈ groupViolations id webAndDb, 1 ∈ g.violationIds ∧
      w.id ∈ g.violationIds) ↔
        "roles/web".toList = Text.strip w.path ∧ Lane.tier1 = classLane w := by
    intro w isListed
    have filled : ∀ w ∈ webAndDb, Text.strip w.path ≠ [] := by decide
    exact together ⟨1, "roles/web".toList, 1, [], by decide⟩ mem_cons_self w isListed (by decide)
      (filled w isListed)
  refine ⟨one, ?_, ?_, ?_, ids fun v _ w _ same => same, order _ (reverse_perm _).symm⟩
  · exact (web ⟨2, " roles/web".toList, 1, [], by decide⟩ (by simp [webAndDb])).mpr (by decide)
  · rw [web ⟨3, "roles/web".toList, 2, [], by decide⟩ (by simp [webAndDb])]
    decide
  · rw [web ⟨4, "roles/db".toList, 1, [], by decide⟩ (by simp [webAndDb])]
    decide

theorem blank_paths_apart : ∃ v w : Violation, v.path ≠ [] ∧ w.path ≠ [] ∧
    Text.strip v.path = Text.strip w.path ∧ classLane v = classLane w ∧ v.id ≠ w.id ∧
    ¬ ∃ g ∈ groupViolations id [v, w], v.id ∈ g.violationIds ∧ w.id ∈ g.violationIds :=
  ⟨⟨1, [' '], 0, [], by decide⟩, ⟨2, [' '], 0, [], by decide⟩, by decide +kernel⟩

end Apme.Gateway.Proposals
