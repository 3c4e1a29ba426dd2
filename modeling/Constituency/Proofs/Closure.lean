import Mathlib
import Constituency.Proofs.ExtendedReal
import Constituency.Proofs.Settling

/-!
Closing a cell under unary rules in bottom-up order. One sweep brings every label to its best score
and leaves links that account for it.
-/

namespace Constituency.Cell

open Score ExtendedReal

variable {count : Nat} {floor : EReal} {start : Cell EReal}

/-- How a label comes by its score after some unary rules. -/
def Accounted (cell : Cell EReal) (floor : EReal) (edges : List (UnaryEdge EReal))
    (label : Label) : Link → Prop
  | .none => cell.after label = ⊥
  | .keep => cell.after label = (cell.entry label).before ∧ cell.after label ≠ ⊥
  | .unary child => ∃ edge ∈ edges, edge.rule = ⟨label, child⟩ ∧ cell.after child ≠ ⊥ ∧
      floor ≤ cell.after child ∧ cell.after label = cell.after child + edge.score

def Relaxed (cell : Cell EReal) (floor : EReal) (edge : UnaryEdge EReal) : Prop :=
  cell.after edge.rule.child = ⊥ ∨ cell.after edge.rule.child < floor ∨
    cell.after edge.rule.child + edge.score ≤ cell.after edge.rule.parent

/-- A cell that started from `start`, after some rules have been applied. -/
structure Closing (start : Cell EReal) (floor : EReal) (edges : List (UnaryEdge EReal))
    (cell : Cell EReal) : Prop where
  size : cell.size = start.size
  before : ∀ label, (cell.entry label).before = (start.entry label).before
  origin : ∀ label, (cell.entry label).origin = (start.entry label).origin
  above : ∀ label, (cell.entry label).before ≤ cell.after label
  accounted : ∀ label, cell.Accounted floor edges label (cell.link label)
  relaxed : ∀ edge ∈ edges, cell.Relaxed floor edge

/-- Nothing has been built over the items of a cell. -/
def Fresh (cell : Cell EReal) : Prop :=
  ∀ label, cell.after label = ⊥ ∧ cell.link label = .none

theorem Fresh.falls (fresh : start.Fresh) (rank : Label → Nat) : start.Falls rank := by
  intro label child linked
  rw [(fresh label).2] at linked
  cases linked

theorem entry_keepAll_eq (fits : count < numberLimit) (size : start.size = count) (label : Label) :
    (start.keepAll count).entry label = (start.entry label).kept := by
  rw [entry_keepAll fits size]
  split
  · rfl
  · rename_i outside
    have missing : start.entry label = .absent := by
      rw [entry, Array.getD_eq_getD_getElem?, Array.getElem?_eq_none (by omega)]
      rfl
    rw [missing]
    simp [Entry.kept, Entry.absent]

theorem closing_keepAll (fits : count < numberLimit) (size : start.size = count)
    (fresh : start.Fresh) : Closing start floor [] (start.keepAll count) := by
  have kept := entry_keepAll_eq fits size
  have before (label : Label) :
      ((start.keepAll count).entry label).before = (start.entry label).before := by
    rw [kept, before_kept]
  have cases (label : Label) :
      (start.keepAll count).link label = .none ∧ (start.keepAll count).after label = ⊥ ∧
          (start.entry label).before = ⊥ ∨
        (start.keepAll count).link label = .keep ∧
          (start.keepAll count).after label = (start.entry label).before ∧
          (start.entry label).before ≠ ⊥ := by
    obtain ⟨after, link⟩ := fresh label
    simp only [Cell.after, Cell.link] at after link ⊢
    rw [kept]
    by_cases present : (start.entry label).before = ⊥
    · left
      simp [Entry.kept, present, after, link]
    · right
      simp [Entry.kept, bot_lt_iff_ne_bot, present]
  constructor
  · exact size_keepAll start count
  · exact before
  · intro label
    rw [kept, origin_kept]
  · intro label
    rcases cases label with ⟨_, _, none⟩ | ⟨_, after, _⟩
    · simp [before, none]
    · rw [before, after]
  · intro label
    rcases cases label with ⟨link, after, _⟩ | ⟨link, after, present⟩
    · rw [link]
      exact after
    · rw [link]
      exact ⟨after.trans (before label).symm, after ▸ present⟩
  · simp

theorem relaxed_iff_idle {cell : Cell EReal} {edge : UnaryEdge EReal} :
    cell.Relaxed floor edge ↔ cell.Idle floor edge := by
  simp [Relaxed, Idle]

section Pass

variable {rank : Label → Nat} {edges : List (UnaryEdge EReal)}

theorem Closing.rank_lt {cell : Cell EReal} (closing : Closing start floor edges cell)
    (falls : ∀ edge ∈ edges, rank edge.rule.child < rank edge.rule.parent) {label child : Label}
    (link : cell.link label = .unary child) : rank child < rank label := by
  have accounted := closing.accounted label
  rw [link] at accounted
  obtain ⟨edge, member, rule, _⟩ := accounted
  have lower := falls edge member
  rwa [rule] at lower

theorem Accounted.mono {cell : Cell EReal} {label : Label} {link : Link}
    {more : List (UnaryEdge EReal)} (accounted : cell.Accounted floor edges label link)
    (within : ∀ edge ∈ edges, edge ∈ more) : cell.Accounted floor more label link := by
  cases link with
  | none => exact accounted
  | keep => exact accounted
  | unary child =>
    obtain ⟨edge, member, rest⟩ := accounted
    exact ⟨edge, within edge member, rest⟩

namespace Improved

variable {cell next : Cell EReal} {edge : UnaryEdge EReal}

theorem rises (improved : Improved cell edge next)
    (improves : cell.after edge.rule.parent ≤ cell.after edge.rule.child + edge.score)
    (label : Label) : cell.after label ≤ after next label := by
  by_cases same : edge.rule.parent = label
  · rw [← same, improved.after_new]
    exact improves
  · rw [improved.after_kept same]

theorem accounted (improved : Improved cell edge next)
    (apart : edge.rule.parent ≠ edge.rule.child) (present : cell.after edge.rule.child ≠ ⊥)
    (floored : floor ≤ cell.after edge.rule.child) {earlier : List (UnaryEdge EReal)}
    (unused : ∀ other ∈ earlier, edge.rule.parent ≠ other.rule.child)
    (old : ∀ label, cell.Accounted floor earlier label (cell.link label)) (label : Label) :
    Accounted next floor (earlier ++ [edge]) label (link next label) := by
  by_cases same : edge.rule.parent = label
  · subst same
    have child := improved.after_kept apart
    rw [link, improved.new]
    exact ⟨edge, by simp, rfl, child ▸ present, child ▸ floored, child ▸ improved.after_new⟩
  · have accounted := old label
    rw [link, improved.kept label same]
    rw [link] at accounted
    cases linked : (cell.entry label).link with
    | none =>
      rw [linked] at accounted
      exact (improved.after_kept same).trans accounted
    | keep =>
      rw [linked] at accounted
      simp only [Accounted, after, improved.kept label same]
      exact accounted
    | unary lower =>
      rw [linked] at accounted
      obtain ⟨other, member, rule, present', floored', sum⟩ := accounted
      have differ : edge.rule.parent ≠ lower := by
        have used := unused other member
        rwa [rule] at used
      refine ⟨other, by simp [member], rule, ?_⟩
      rw [improved.after_kept same, improved.after_kept differ]
      exact ⟨present', floored', sum⟩

theorem relaxed (improved : Improved cell edge next)
    (apart : edge.rule.parent ≠ edge.rule.child)
    (improves : cell.after edge.rule.parent ≤ cell.after edge.rule.child + edge.score)
    {earlier : List (UnaryEdge EReal)}
    (unused : ∀ other ∈ earlier, edge.rule.parent ≠ other.rule.child)
    (old : ∀ other ∈ earlier, cell.Relaxed floor other) :
    ∀ other ∈ earlier ++ [edge], Relaxed next floor other := by
  intro other member
  rcases List.mem_append.mp member with seen | last
  · have relaxed := old other seen
    rw [Relaxed, improved.after_kept (unused other seen)]
    exact relaxed.imp_right fun more => more.imp_right fun sum =>
      sum.trans (improved.rises improves _)
  · rw [List.mem_singleton.mp last, Relaxed, improved.after_kept apart, improved.after_new]
    exact .inr (.inr le_rfl)

end Improved

theorem Closing.improve (bottomUp : BottomUp rank count edges)
    {earlier later : List (UnaryEdge EReal)} {edge : UnaryEdge EReal}
    (whole : edges = earlier ++ edge :: later) {cell next : Cell EReal}
    (closing : Closing start floor earlier cell) (improved : Improved cell edge next)
    (present : cell.after edge.rule.child ≠ ⊥) (floored : floor ≤ cell.after edge.rule.child)
    (improves : cell.after edge.rule.parent ≤ cell.after edge.rule.child + edge.score) :
    Closing start floor (earlier ++ [edge]) next := by
  have member : edge ∈ edges := by simp [whole]
  have apart := bottomUp.apart member
  have unused := bottomUp.unused whole
  constructor
  · exact improved.size.trans closing.size
  · intro label
    exact (improved.before label).trans (closing.before label)
  · intro label
    exact (improved.origin label).trans (closing.origin label)
  · intro label
    rw [improved.before label]
    exact (closing.above label).trans (improved.rises improves label)
  · exact improved.accounted apart present floored unused closing.accounted
  · exact improved.relaxed apart improves unused closing.relaxed

theorem Closing.relax (bottomUp : BottomUp rank count edges) (size : start.size = count)
    {earlier later : List (UnaryEdge EReal)} {edge : UnaryEdge EReal}
    (whole : edges = earlier ++ edge :: later) {pass : Pass EReal}
    (closing : Closing start floor earlier pass.cell) :
    Closing start floor (earlier ++ [edge]) (Cell.relax count floor pass edge).cell := by
  have extend (relaxed : pass.cell.Relaxed floor edge) :
      Closing start floor (earlier ++ [edge]) pass.cell :=
    { closing with
      accounted := fun label => (closing.accounted label).mono fun other member => by
        simp [member]
      relaxed := fun other member => by
        rcases List.mem_append.mp member with old | new
        · exact closing.relaxed other old
        · rw [List.mem_singleton.mp new]
          exact relaxed }
  by_cases relaxed : pass.cell.Relaxed floor edge
  · rw [relax_of_idle (relaxed_iff_idle.mp relaxed)]
    exact extend relaxed
  · have member : edge ∈ edges := by simp [whole]
    have falls : pass.cell.Falls rank := fun label child => closing.rank_lt fun other member =>
      bottomUp.falls other (by simp [whole, member])
    have inside : edge.rule.parent.toNat < pass.cell.size := by
      rw [closing.size, size]
      exact (bottomUp.bounded edge member).1
    have improved := improved_relax inside (relaxed_iff_idle.not.mp relaxed)
      (unmet_of_falls bottomUp falls member)
    simp only [Relaxed, not_or, not_lt, not_le] at relaxed
    obtain ⟨present, floored, improves⟩ := relaxed
    exact closing.improve bottomUp whole improved present floored improves.le

theorem exists_close (floor : EReal) (fits : count < numberLimit)
    (bottomUp : BottomUp rank count edges) (size : start.size = count) (fresh : start.Fresh) :
    ∃ cell updates, start.close count floor edges = (cell, .ok updates) ∧
      Closing start floor edges cell := by
  have closing : Closing start floor edges
      (edges.foldl (Cell.relax count floor) { cell := start.keepAll count }).cell :=
    Fold.foldl_holds (fun earlier (pass : Pass EReal) => Closing start floor earlier pass.cell)
      (closing_keepAll fits size fresh)
      fun _ _ _ _ whole closing => closing.relax bottomUp size whole
  exact ⟨_, _, close_eq bottomUp size (fresh.falls rank), closing⟩

end Pass

end Constituency.Cell
