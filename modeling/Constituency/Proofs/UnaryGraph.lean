import Mathlib.Data.List.Chain
import Mathlib.Data.List.TakeWhile
import Mathlib.Data.Fintype.Card
import Mathlib.Logic.Relation
import Constituency.Grammar.UnaryGraph
import Constituency.Proofs.Fold
import Constituency.Proofs.Numbering

/-!
The walk through the graph of unary rules. It leaves every label after the labels below it, or it
stops with a cycle; so labels without a cycle have ranks that fall along every edge.
-/

namespace Constituency.UnaryGraph

open Fold

variable {count : Nat} {children : Label → List Label}

/-- A closed chain of edges that meets no label twice on its way round. -/
structure IsCycle (children : Label → List Label) (cycle : List Label) : Prop where
  linked : cycle.IsChain fun parent child => child ∈ children parent
  closed : cycle.head? = cycle.getLast?
  distinct : cycle.dropLast.Nodup
  long : 2 ≤ cycle.length

/-- Labels below the count that are numbered after all that is below them. -/
structure Settled (count : Nat) (children : Label → List Label) (left : Numbering Label) :
    Prop where
  sound : left.Sound
  bounded : ∀ label ∈ left.toList, label.toNat < count
  ordered : ∀ label number, left.find? label = some number → ∀ child ∈ children label,
    child.toNat < count → ∃ earlier < number, left.find? child = some earlier

/-- A way down the graph, without a repeated label and apart from the labels left so far. -/
structure Descent (count : Nat) (children : Label → List Label) (path : List Label)
    (left : Numbering Label) : Prop where
  linked : path.IsChain fun parent child => child ∈ children parent
  distinct : path.Nodup
  bounded : ∀ label ∈ path, label.toNat < count
  apart : ∀ label ∈ path, label ∉ left.toList

theorem length_le_of_distinct {labels : List Label} (distinct : labels.Nodup)
    (bounded : ∀ label ∈ labels, label.toNat < count) : labels.length ≤ count := by
  have numbers : (labels.map UInt16.toNat).Nodup :=
    distinct.map fun _ _ same => UInt16.toNat_inj.mp same
  have within : labels.map UInt16.toNat ⊆ List.range count := by
    intro number member
    obtain ⟨label, inside, rfl⟩ := List.mem_map.mp member
    exact List.mem_range.mpr (bounded label inside)
  simpa using (numbers.subperm within).length_le

theorem isCycle_cycleAt {path : List Label} {label child : Label}
    (linked : path.IsChain fun parent child => child ∈ children parent) (distinct : path.Nodup)
    (last : path.getLast? = some label) (edge : child ∈ children label)
    (met : child ∈ path) : IsCycle children (cycleAt path child) := by
  obtain ⟨above, below, rfl, first⟩ := List.eq_append_cons_of_mem met
  have round : cycleAt (above ++ child :: below) child = (child :: below) ++ [child] := by
    have skipped : above.dropWhile (· != child) = [] := by
      rw [List.dropWhile_eq_nil_iff]
      intro label member
      have differ : label ≠ child := by
        intro same
        obtain rfl := same
        exact first member
      simpa using differ
    simp [cycleAt, List.dropWhile_append, skipped]
  have last' : (child :: below).getLast? = some label := by simpa using last
  rw [round]
  constructor
  · refine linked.right_of_append.append (.singleton child) ?_
    intro parent ends child' starts
    rw [last'] at ends
    cases ends
    cases starts
    exact edge
  · rw [List.getLast?_concat]
    rfl
  · rw [List.dropLast_concat]
    exact (List.nodup_append.mp distinct).2.1
  · simp

theorem IsCycle.transGen {cycle : List Label} (isCycle : IsCycle children cycle) :
    ∃ label, Relation.TransGen (fun parent child => child ∈ children parent) label label := by
  obtain ⟨linked, closed, _, long⟩ := isCycle
  match cycle, long with
  | first :: second :: rest, _ =>
    rw [List.isChain_cons_cons] at linked
    have last : (second :: rest).getLast (by simp) = first := by
      simpa [List.getLast?_eq_some_getLast] using closed.symm
    exact ⟨first, .head' linked.1
      (List.relationReflTransGen_of_exists_isChain_cons _ linked.2 last)⟩

namespace Settled

theorem empty : Settled count children .empty :=
  ⟨.empty, by simp, by simp⟩

theorem push {left : Numbering Label} (settled : Settled count children left) {label : Label}
    (new : label ∉ left.toList) (bound : label.toNat < count)
    (below : ∀ child ∈ children label, child.toNat < count → child ∈ left.toList) :
    Settled count children (left.push label) := by
  have unnumbered : left.find? label = none := by
    rw [← settled.sound.find?_isSome_iff] at new
    simpa using new
  have number_of_mem {child : Label} (member : child ∈ left.toList) :
      ∃ number < left.size, left.find? child = some number := by
    obtain ⟨number, found⟩ := Option.isSome_iff_exists.mp
      ((settled.sound.find?_isSome_iff child).mpr member)
    exact ⟨number, settled.sound.lt_size found, found⟩
  have kept {child : Label} {number : Nat} (found : left.find? child = some number) :
      (left.push label).find? child = some number := by
    rw [Numbering.find?_push]
    by_cases same : label = child
    · rw [← same, unnumbered] at found
      cases found
    · simpa [same] using found
  refine ⟨settled.sound.push unnumbered, ?_, ?_⟩
  · intro other member
    rw [Numbering.mem_toList_push] at member
    rcases member with earlier | rfl
    · exact settled.bounded other earlier
    · exact bound
  · intro parent number found child edge within
    rw [Numbering.find?_push] at found
    by_cases same : label = parent
    · subst same
      obtain ⟨earlier, before, foundChild⟩ := number_of_mem (below child edge within)
      have last : left.size = number := by simpa using found
      exact ⟨earlier, last ▸ before, kept foundChild⟩
    · have foundParent : left.find? parent = some number := by simpa [same] using found
      obtain ⟨earlier, before, foundChild⟩ :=
        settled.ordered parent number foundParent child edge within
      exact ⟨earlier, before, kept foundChild⟩

end Settled

namespace Descent

theorem single {left : Numbering Label} {label : Label} (bound : label.toNat < count)
    (new : label ∉ left.toList) : Descent count children [label] left :=
  ⟨.singleton label, by simp, by simpa using bound, by simpa using new⟩

theorem step {path : List Label} {left : Numbering Label} {label child : Label}
    (descent : Descent count children path left) (last : path.getLast? = some label)
    (edge : child ∈ children label) (bound : child.toNat < count) (unmet : child ∉ path)
    (new : child ∉ left.toList) : Descent count children (path ++ [child]) left := by
  constructor
  · refine descent.linked.append (.singleton child) ?_
    intro parent ends child' starts
    rw [last] at ends
    cases ends
    cases starts
    exact edge
  · refine List.nodup_append.mpr ⟨descent.distinct, by simp, ?_⟩
    intro other member child' last' same
    rw [List.mem_singleton] at last'
    rw [same, last'] at member
    exact unmet member
  · intro other member
    rw [List.mem_append, List.mem_singleton] at member
    rcases member with above | rfl
    · exact descent.bounded other above
    · exact bound
  · intro other member
    rw [List.mem_append, List.mem_singleton] at member
    rcases member with above | rfl
    · exact descent.apart other above
    · exact new

end Descent

/-- What has been left grows from `left` and takes in `labels`, but nothing of `path`. -/
structure Leaves (count : Nat) (children : Label → List Label) (path : List Label)
    (left : Numbering Label) (labels : List Label) (result : Numbering Label) : Prop where
  settled : Settled count children result
  kept : ∀ label ∈ left.toList, label ∈ result.toList
  taken : ∀ label ∈ labels, label.toNat < count → label ∈ result.toList
  apart : ∀ label ∈ path, label ∉ result.toList

namespace Leaves

variable {path : List Label} {left middle result : Numbering Label}

theorem skip {labels : List Label} {label : Label}
    (leaves : Leaves count children path left labels result)
    (done : label.toNat < count → label ∈ result.toList) :
    Leaves count children path left (labels ++ [label]) result := by
  refine ⟨leaves.settled, leaves.kept, ?_, leaves.apart⟩
  intro other member bound
  rw [List.mem_append, List.mem_singleton] at member
  rcases member with earlier | rfl
  · exact leaves.taken other earlier bound
  · exact done bound

theorem append {labels more : List Label} (leaves : Leaves count children path left labels middle)
    (next : Leaves count children path middle more result) :
    Leaves count children path left (labels ++ more) result := by
  refine ⟨next.settled, fun label old => next.kept label (leaves.kept label old), ?_, next.apart⟩
  intro label member bound
  rw [List.mem_append] at member
  rcases member with earlier | later
  · exact next.kept label (leaves.taken label earlier bound)
  · exact next.taken label later bound

theorem push {label : Label} (leaves : Leaves count children (path ++ [label]) left
    (children label) result) (bound : label.toNat < count) (unmet : label ∉ path) :
    Leaves count children path left [label] (result.push label) := by
  have new : label ∉ result.toList := leaves.apart label (by simp)
  refine ⟨leaves.settled.push new bound leaves.taken, ?_, by simp, ?_⟩
  · intro other old
    simp [leaves.kept other old]
  · intro other member
    have apart := leaves.apart other (by simp [member])
    have differ : other ≠ label := by
      intro same
      obtain rfl := same
      exact unmet member
    simp [apart, differ]

end Leaves

theorem visit_ends (depth : Nat) {path : List Label} {label : Label} {left : Numbering Label}
    (descent : Descent count children (path ++ [label]) left)
    (settled : Settled count children left) (room : path.length + depth = count) :
    Ends (Leaves count children path left [label]) (IsCycle children)
      (visit count children depth (path ++ [label]) label left) := by
  induction depth generalizing path label left with
  | zero =>
    -- The path would hold more labels than there are.
    have short := length_le_of_distinct descent.distinct descent.bounded
    rw [List.length_append, List.length_singleton] at short
    omega
  | succ depth ih =>
    have last : (path ++ [label]).getLast? = some label := List.getLast?_concat
    -- What the children leave stays apart from the path, so that the label itself can be left last.
    have loop : Ends (Leaves count children (path ++ [label]) left (children label))
        (IsCycle children)
        ((children label).foldlM
          (fun left child =>
            if count ≤ child.toNat then .ok left
            else if (path ++ [label]).contains child then
              .error (cycleAt (path ++ [label]) child)
            else if left.contains child then .ok left
            else visit count children depth (path ++ [label] ++ [child]) child left) left) := by
      refine foldlM_ends (Leaves count children (path ++ [label]) left)
        ⟨settled, fun _ => id, by simp, descent.apart⟩ ?_
      intro earlier child later state whole leaves
      have edge : child ∈ children label := by simp [whole]
      have descent' : Descent count children (path ++ [label]) state :=
        ⟨descent.linked, descent.distinct, descent.bounded, leaves.apart⟩
      by_cases outside : count ≤ child.toNat
      · rw [if_pos outside]
        exact leaves.skip fun bound => absurd outside (Nat.not_le.mpr bound)
      rw [if_neg outside]
      by_cases met : (path ++ [label]).contains child = true
      · rw [if_pos met]
        exact isCycle_cycleAt descent.linked descent.distinct last edge (by simpa using met)
      rw [if_neg met]
      by_cases done : state.contains child = true
      · rw [if_pos done]
        exact leaves.skip fun _ => (leaves.settled.sound.contains_iff child).mp done
      rw [if_neg done]
      have deeper : Descent count children (path ++ [label] ++ [child]) state :=
        descent'.step last edge (Nat.not_le.mp outside) (by simpa using met)
          fun member => done ((leaves.settled.sound.contains_iff child).mpr member)
      exact (ih deeper leaves.settled (by simp; omega)).mono (fun _ => leaves.append) fun _ => id
    rw [visit]
    refine loop.bind fun below leaves => leaves.push (descent.bounded label (by simp)) ?_
    intro met
    exact (List.nodup_append.mp descent.distinct).2.2 label met label (by simp) rfl

theorem leavingOrder_ends (count : Nat) (children : Label → List Label) :
    Ends (fun left => Settled count children left ∧
        ∀ label : Label, label.toNat < count → label ∈ left.toList)
      (IsCycle children) (leavingOrder count children) := by
  have loop : Ends (Leaves count children [] .empty (Label.first count)) (IsCycle children)
      (leavingOrder count children) := by
    refine foldlM_ends (Leaves count children [] .empty) ⟨.empty, by simp, by simp, by simp⟩ ?_
    intro earlier label later left whole leaves
    have bound : label.toNat < count := by
      rw [← Label.mem_first, whole]
      simp
    by_cases done : left.contains label = true
    · rw [if_pos done]
      exact leaves.skip fun _ => (leaves.settled.sound.contains_iff label).mp done
    · rw [if_neg done]
      have new : label ∉ left.toList := fun member =>
        done ((leaves.settled.sound.contains_iff label).mpr member)
      have below : Ends (Leaves count children [] left [label]) (IsCycle children)
          (visit count children count [label] label left) :=
        visit_ends count (.single bound new) leaves.settled (by simp)
      exact below.mono (fun _ => leaves.append) fun _ => id
  refine loop.mono (fun left leaves => ⟨leaves.settled, fun label bound => ?_⟩) fun _ => id
  exact leaves.taken label ((Label.mem_first count label).mpr bound) bound

end Constituency.UnaryGraph
