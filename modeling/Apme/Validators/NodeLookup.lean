import Apme.Graph.Serialization
import Apme.Lib.StableSort

/-!
# The node of a line

Validators that report a file and a line look the node up in the serialized
graph.  The ranges of a file are sorted by their first line only, so the search
stops at the first range that starts after the line and remembers the shortest
range seen until then.
-/

set_option autoImplicit false

namespace Apme.Validators

open Apme.Lib Apme.Graph List Dict

structure NodeRange where
  lineStart : Int
  lineEnd : Int
  nodeId : String

def NodeRange.span (range : NodeRange) : Int := range.lineEnd - range.lineStart

def NodeRange.Contains (range : NodeRange) (line : Int) : Prop :=
  range.lineStart ≤ line ∧ line ≤ range.lineEnd

instance (range : NodeRange) (line : Int) : Decidable (range.Contains line) :=
  inferInstanceAs (Decidable (_ ∧ _))

/-- A node of a file with a valid span; an entry without an id or a path is not one. -/
def Ranged (entry : String × NodeDict) : Prop :=
  entry.1 ≠ "" ∧ entry.2.filePath ≠ "" ∧ 0 < entry.2.lineStart ∧ 0 < entry.2.lineEnd

instance : DecidablePred Ranged := fun _ => inferInstanceAs (Decidable (_ ∧ _))

def rangeOf (entry : String × NodeDict) : NodeRange := ⟨entry.2.lineStart, entry.2.lineEnd, entry.1⟩

def buildNodeLookup (graph : GraphDict) : Dict String (List NodeRange) :=
  let entries := graph.nodes.filter fun entry => Ranged entry
  let lookup := entries.foldl (fun d entry => d.push entry.2.filePath (rangeOf entry)) empty
  lookup.update fun _ ranges => sortOn NodeRange.lineStart ranges

/-- The loop over the ranges of a file; no best range yet is an infinite span. -/
def narrowest (line : Int) : List NodeRange → Option NodeRange → Option NodeRange
  | [], best => best
  | range :: rest, best =>
    if line < range.lineStart then best
    else if range.Contains line ∧ ∀ shortest ∈ best, range.span < shortest.span then
      narrowest line rest (some range)
    else narrowest line rest best

def resolveFileLineToNode (lookup : Dict String (List NodeRange)) (file : String) (line : Int) :
    String :=
  (narrowest line ((lookup.get? file).getD []) none).elim "" NodeRange.nodeId

/-- A shortest of the ranges that contain the line, or none of them does. -/
def Shortest (line : Int) (ranges : List NodeRange) (found : Option NodeRange) : Prop :=
  (∀ range ∈ found, range ∈ ranges ∧ range.Contains line) ∧
    ∀ other ∈ ranges, other.Contains line → ∃ range ∈ found, range.span ≤ other.span

theorem Shortest.append {ln : Int} {seen more : List NodeRange} {best : Option NodeRange}
    (hs : Shortest ln seen best)
    (hl : ∀ o ∈ more, o.Contains ln → ∃ range ∈ best, range.span ≤ o.span) :
    Shortest ln (seen ++ more) best := by
  refine ⟨fun found eq => ?_, fun o mem => ?_⟩
  · exact ⟨mem_append_left _ (hs.1 found eq).1, (hs.1 found eq).2⟩
  · exact (mem_append.mp mem).elim (hs.2 o) (hl o)

/-- Given the shortest of the ranges seen so far, the loop finds the shortest of all. -/
theorem narrowest_shortest {ln : Int} {ranges seen : List NodeRange} {best : Option NodeRange}
    (hso : SortedOn NodeRange.lineStart ranges) (hs : Shortest ln seen best) :
    Shortest ln (seen ++ ranges) (narrowest ln ranges best) := by
  fun_induction narrowest ln ranges best generalizing seen with
  | case1 => simpa using hs
  | case2 range rest best hl =>
    -- the ranges ahead start after this one, and so after the line
    refine hs.append fun o mem hc => absurd hc.1 ?_
    obtain rfl | mem := mem_cons.mp mem
    · exact not_le.mpr hl
    · exact not_le.mpr (hl.trans_le (rel_of_pairwise_cons hso mem))
  | case3 range rest best hr ht ih =>
    rw [append_cons]
    refine ih hso.of_cons ⟨fun found eq => ?_, fun o mem hc => ⟨range, rfl, ?_⟩⟩
    · cases eq
      exact ⟨mem_append_right _ mem_cons_self, ht.1⟩
    · obtain mem | mem := mem_append.mp mem
      · obtain ⟨best, eq, le⟩ := hs.2 o mem hc
        exact le_trans (le_of_lt (ht.2 best eq)) le
      · rw [mem_singleton.mp mem]
  | case4 range rest best hr hk ih =>
    rw [append_cons]
    refine ih hso.of_cons (hs.append fun o mem hc => ?_)
    rw [mem_singleton.mp mem] at hc ⊢
    by_contra hsh
    refine hk ⟨hc, fun best eq => ?_⟩
    exact not_le.mp fun le => hsh ⟨best, eq, le⟩

/-- The entry is a node of the file with a valid span, and contains the line. -/
def Holds (entry : String × NodeDict) (file : String) (line : Int) : Prop :=
  Ranged entry ∧ entry.2.filePath = file ∧ (rangeOf entry).Contains line

section

variable (graph : GraphDict) (file : String) (line : Int)

theorem mem_lookup {range : NodeRange} : range ∈ ((buildNodeLookup graph).get? file).getD [] ↔
      ∃ e ∈ graph.nodes, (Ranged e ∧ e.2.filePath = file) ∧ rangeOf e = range := by
  have hp := getD_foldl_push (fun e : String × NodeDict => e.2.filePath)
    (graph.nodes.filter fun e => Ranged e) file rangeOf empty
  have hm : (∃ e ∈ graph.nodes, (Ranged e ∧ e.2.filePath = file) ∧
      rangeOf e = range) ↔ range ∈ ((graph.nodes.filter fun e => Ranged e).filter
        fun e => e.2.filePath = file).map rangeOf := by
    simp [and_assoc, and_left_comm]
  rw [get?_empty, Option.getD_none, nil_append] at hp
  rw [hm, ← hp, buildNodeLookup, get?_update]
  cases get? _ file with
  | none => rfl
  | some ranges => exact (sortOn_perm _ ranges).mem_iff

theorem sortedOn_lookup :
    SortedOn NodeRange.lineStart (((buildNodeLookup graph).get? file).getD []) := by
  rw [buildNodeLookup, get?_update]
  cases get? _ file with
  | none => exact .nil
  | some ranges => exact sortedOn_sortOn _ ranges

theorem resolveFileLineToNode_narrowest :
    (resolveFileLineToNode (buildNodeLookup graph) file line ≠ "" ↔
      ∃ entry ∈ graph.nodes, Holds entry file line) ∧
    (resolveFileLineToNode (buildNodeLookup graph) file line ≠ "" →
      ∃ entry ∈ graph.nodes, entry.1 = resolveFileLineToNode (buildNodeLookup graph) file line ∧
        Holds entry file line ∧ ∀ other ∈ graph.nodes, Holds other file line →
          (rangeOf entry).span ≤ (rangeOf other).span) := by
  have shortest := narrowest_shortest (sortedOn_lookup graph file)
    (show Shortest line [] none by simp [Shortest])
  have reached : ∀ entry ∈ graph.nodes, Holds entry file line → ∃ range ∈ narrowest line _ none,
      range.span ≤ (rangeOf entry).span := fun entry mem holds =>
    shortest.2 _ ((mem_lookup graph file).mpr ⟨entry, mem, ⟨holds.1, holds.2.1⟩, rfl⟩) holds.2.2
  rw [resolveFileLineToNode]
  cases found : narrowest line (((buildNodeLookup graph).get? file).getD []) none with
  | none =>
    refine ⟨⟨fun named => absurd rfl named, ?_⟩, fun named => absurd rfl named⟩
    rintro ⟨entry, mem, holds⟩
    simpa [found] using reached entry mem holds
  | some range =>
    obtain ⟨listed, contains⟩ := shortest.1 range found
    obtain ⟨entry, mem, ⟨ranged, same⟩, rfl⟩ := (mem_lookup graph file).mp listed
    have holds : Holds entry file line := ⟨ranged, same, contains⟩
    refine ⟨⟨fun _ => ⟨entry, mem, holds⟩, fun _ => ranged.1⟩, fun _ => ⟨entry, mem, rfl, holds, ?_⟩⟩
    intro other memOther holdsOther
    simpa [found] using reached other memOther holdsOther

end

end Apme.Validators
