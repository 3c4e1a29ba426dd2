import Constituency.Search.Beam
import Constituency.Proofs.BestCells
import Constituency.Proofs.ReadOff
import Constituency.Proofs.ScoreOrder

/-!
The links of a chart. Whatever scores are compared and whatever a search leaves out, a label gets a
link only if what the link names is there; so the links of a label lead down to the words, and
along them a tree is read off within the limit on its spans.
-/

namespace Constituency

open Score

variable {α : Type} [Score α]

namespace Cell

variable {grammar : Grammar} {cell : Cell α}

/-- A label without a production or a link scores nothing, one that is kept has a production, and
one that is built has a rule and a child with a link. -/
structure Linked (grammar : Grammar) (cell : Cell α) : Prop where
  before : ∀ label, (cell.entry label).origin = .none → (cell.entry label).before = absent
  after : ∀ label, cell.link label = .none → cell.after label = absent
  keep : ∀ label, cell.link label = .keep → (cell.entry label).origin ≠ .none
  unary : ∀ label child, cell.link label = .unary child →
    grammar.UnaryStep label child ∧ cell.link child ≠ .none

/-- The entry of a label as it is, or with a link that may be set. -/
inductive Relinks (grammar : Grammar) (cell : Cell α) (label : Label) : Entry α → Prop
  | same : Relinks grammar cell label (cell.entry label)
  | keep (after : α) (origin : (cell.entry label).origin ≠ .none) :
    Relinks grammar cell label { cell.entry label with after := after, link := .keep }
  | unary (after : α) {child : Label} (step : grammar.UnaryStep label child)
    (linked : cell.link child ≠ .none) :
    Relinks grammar cell label { cell.entry label with after := after, link := .unary child }

/-- The cell `next` has the productions of `cell` and the labels with links that it has, or more. -/
structure Continues (grammar : Grammar) (cell next : Cell α) : Prop where
  linked : next.Linked grammar
  size : next.size = cell.size
  origin : ∀ label, (next.entry label).origin = (cell.entry label).origin
  kept : ∀ label, cell.link label ≠ .none → next.link label ≠ .none

namespace Continues

theorem refl (linked : cell.Linked grammar) : Continues grammar cell cell :=
  ⟨linked, rfl, fun _ => rfl, fun _ => id⟩

theorem trans {middle next : Cell α} (first : Continues grammar cell middle)
    (second : Continues grammar middle next) : Continues grammar cell next :=
  ⟨second.linked, second.size.trans first.size,
    fun label => (second.origin label).trans (first.origin label),
    fun label present => second.kept label (first.kept label present)⟩

end Continues

namespace Relinks

variable {label : Label} {entry : Entry α}

theorem production (relinks : cell.Relinks grammar label entry) :
    entry.origin = (cell.entry label).origin ∧ entry.before = (cell.entry label).before := by
  cases relinks with
  | same => exact ⟨rfl, rfl⟩
  | keep => exact ⟨rfl, rfl⟩
  | unary => exact ⟨rfl, rfl⟩

theorem kept (relinks : cell.Relinks grammar label entry) (present : cell.link label ≠ .none) :
    entry.link ≠ .none := by
  cases relinks with
  | same => exact present
  | keep => simp
  | unary => simp

theorem after_absent (relinks : cell.Relinks grammar label entry) (linked : cell.Linked grammar)
    (none : entry.link = .none) : entry.after = absent := by
  cases relinks with
  | same => exact linked.after label none
  | keep => cases none
  | unary => cases none

theorem produced (relinks : cell.Relinks grammar label entry) (linked : cell.Linked grammar)
    (keeps : entry.link = .keep) : (cell.entry label).origin ≠ .none := by
  cases relinks with
  | same => exact linked.keep label keeps
  | keep _ origin => exact origin
  | unary => cases keeps

theorem built (relinks : cell.Relinks grammar label entry) (linked : cell.Linked grammar)
    {child : Label} (builds : entry.link = .unary child) :
    grammar.UnaryStep label child ∧ cell.link child ≠ .none := by
  cases relinks with
  | same => exact linked.unary label child builds
  | keep => cases builds
  | unary _ step present =>
    obtain rfl := Link.unary.inj builds
    exact ⟨step, present⟩

end Relinks

theorem Linked.continues (linked : cell.Linked grammar) {next : Cell α}
    (size : next.size = cell.size)
    (relinks : ∀ label, cell.Relinks grammar label (next.entry label)) :
    Continues grammar cell next := by
  refine ⟨⟨?_, ?_, ?_, ?_⟩, size, fun label => (relinks label).production.1,
    fun label => (relinks label).kept⟩
  · intro label none
    obtain ⟨origin, before⟩ := (relinks label).production
    rw [origin] at none
    rw [before]
    exact linked.before label none
  · intro label none
    exact (relinks label).after_absent linked none
  · intro label keeps
    rw [(relinks label).production.1]
    exact (relinks label).produced linked keeps
  · intro label child builds
    obtain ⟨step, present⟩ := (relinks label).built linked builds
    exact ⟨step, (relinks child).kept present⟩

theorem Linked.produce (linked : cell.Linked grammar) {next : Cell α} {origin : Origin}
    (produced : origin ≠ .none)
    (entries : ∀ label, next.entry label = cell.entry label ∨
      ∃ score, next.entry label = { cell.entry label with before := score, origin := origin }) :
    next.Linked grammar := by
  have same (label : Label) :
      next.link label = cell.link label ∧ next.after label = cell.after label := by
    rw [link, Cell.after]
    rcases entries label with old | ⟨score, new⟩
    · rw [old]
      exact ⟨rfl, rfl⟩
    · rw [new]
      exact ⟨rfl, rfl⟩
  constructor
  · intro label none
    rcases entries label with old | ⟨score, new⟩
    · rw [old] at none ⊢
      exact linked.before label none
    · rw [new] at none
      exact absurd none produced
  · intro label none
    rw [(same label).1] at none
    rw [(same label).2]
    exact linked.after label none
  · intro label keeps
    rw [(same label).1] at keeps
    rcases entries label with old | ⟨score, new⟩
    · rw [old]
      exact linked.keep label keeps
    · rw [new]
      exact produced
  · intro label child builds
    rw [(same label).1] at builds
    rw [(same child).1]
    exact linked.unary label child builds

theorem Linked.falls {rank : Label → Nat} (linked : cell.Linked grammar)
    (ranked : grammar.Ranked rank) : cell.Falls rank :=
  fun label child builds => ranked.falls _ (linked.unary label child builds).1

variable [Score.Ordered α]

theorem Linked.keep_continues (linked : cell.Linked grammar) (label : Label) :
    Continues grammar cell (cell.keep label) := by
  refine linked.continues (by rw [Cell.keep, Array.size_modify]) fun other => ?_
  rw [entry_keep]
  split
  · rw [Entry.kept]
    split
    · rename_i present
      refine .keep _ fun none => ?_
      rw [linked.before other none] at present
      exact Ordered.lt_irrefl _ present
    · exact .same
  · exact .same

section Close

variable {rank : Label → Nat} {count : Nat} {floor : α} {edges : List (UnaryEdge α)}

theorem Linked.relax_continues {pass : Pass α} (linked : pass.cell.Linked grammar)
    (ranked : grammar.Ranked rank) (bottomUp : BottomUp rank count edges)
    (size : pass.cell.size = count) {edge : UnaryEdge α} (member : edge ∈ edges)
    (step : grammar.UnaryStep edge.rule.parent edge.rule.child) :
    Continues grammar pass.cell (relax count floor pass edge).cell := by
  by_cases idle : pass.cell.Idle floor edge
  · rw [relax_of_idle idle]
    exact .refl linked
  · have improved := improved_relax (size ▸ (bottomUp.bounded edge member).1) idle
      (unmet_of_falls bottomUp (linked.falls ranked) member)
    have child : pass.cell.link edge.rule.child ≠ .none := by
      intro none
      refine idle (.inl ?_)
      rw [linked.after _ none]
      exact Ordered.absent_beq
    refine linked.continues improved.size fun label => ?_
    by_cases same : edge.rule.parent = label
    · subst same
      rw [improved.new]
      exact .unary _ step child
    · rw [improved.kept label same]
      exact .same

theorem Linked.exists_close (linked : cell.Linked grammar) (ranked : grammar.Ranked rank)
    (bottomUp : BottomUp rank count edges) (size : cell.size = count)
    (steps : ∀ edge ∈ edges, grammar.UnaryStep edge.rule.parent edge.rule.child) (floor : α) :
    ∃ next updates, cell.close count floor edges = (next, .ok updates) ∧
      Continues grammar cell next := by
  refine ⟨_, _, close_eq bottomUp size (linked.falls ranked), ?_⟩
  have kept : Continues grammar cell (cell.keepAll count) :=
    keepAll_holds (Continues grammar cell) (.refl linked)
      (fun middle label continues => continues.trans (continues.linked.keep_continues label)) count
  refine List.foldlRecOn (motive := fun pass : Pass α => Continues grammar cell pass.cell)
    edges _ kept ?_
  intro pass continues edge member
  exact continues.trans (continues.linked.relax_continues ranked bottomUp
    (continues.size.trans size) member (steps edge member))

end Close

end Cell

namespace BestChart

variable {problem : Problem α} {chart : BestChart α} {start stop : Nat}

/-- How an item may end in its interval, below all unary rules. -/
inductive Grounds (problem : Problem α) (chart : BestChart α) (start stop : Nat)
    (label : Label) : Origin → Prop
  | none : Grounds problem chart start stop label .none
  | terminal (single : stop = start + 1) (inside : start < problem.length)
    (allowed : label ∈ problem.terminalsAt start) : Grounds problem chart start stop label .terminal
  | binary (split : Nat) (rule : BinaryRule) (number : Nat) (inside : start < split ∧ split < stop)
    (found : problem.grammar.binaryRule? number = some rule) (parent : rule.parent = label)
    (left : (chart.cell start split).link rule.left ≠ .none)
    (right : (chart.cell split stop).link rule.right ≠ .none) :
    Grounds problem chart start stop label (.binary number split)

/-- A chart whose links all lead on. -/
structure Linked (problem : Problem α) (chart : BestChart α) : Prop where
  sized : chart.Sized problem.length problem.grammar.labelCount
  cells : ∀ start stop, start ≤ problem.length ∧ stop ≤ problem.length →
    (chart.cell start stop).Linked problem.grammar
  grounds : ∀ start stop, start ≤ problem.length ∧ stop ≤ problem.length → ∀ label,
    Grounds problem chart start stop label ((chart.cell start stop).entry label).origin

theorem Grounds.mono {next : BestChart α}
    (kept : ∀ start stop, start ≤ problem.length ∧ stop ≤ problem.length → ∀ label,
      (chart.cell start stop).link label ≠ .none → (next.cell start stop).link label ≠ .none)
    (within : start ≤ problem.length ∧ stop ≤ problem.length) {label : Label} {origin : Origin}
    (grounds : Grounds problem chart start stop label origin) :
    Grounds problem next start stop label origin := by
  cases grounds with
  | none => exact .none
  | terminal single inside allowed => exact .terminal single inside allowed
  | binary split rule number inside found parent left right =>
    exact .binary split rule number inside found parent
      (kept start split (by omega) rule.left left) (kept split stop (by omega) rule.right right)

namespace Linked

theorem create (problem : Problem α) :
    Linked problem (BestChart.create problem.length problem.grammar.labelCount) := by
  have entries (start stop : Nat) (within : start ≤ problem.length ∧ stop ≤ problem.length)
      (label : Label) :
      ((BestChart.create problem.length problem.grammar.labelCount : BestChart α).cell start
        stop).entry label = .absent := entry_create within label
  refine ⟨sized_create _ _, fun start stop within => ?_, fun start stop within label => ?_⟩
  · constructor <;> intro label <;>
      simp [Cell.link, Cell.after, entries start stop within, Entry.absent]
  · rw [entries start stop within]
    exact .none

theorem modify (linked : Linked problem chart)
    (within : start ≤ problem.length ∧ stop ≤ problem.length) {label : Label}
    (registered : problem.grammar.Registered label) {origin : Origin} (produced : origin ≠ .none)
    (grounds : Grounds problem chart start stop label origin) {change : Entry α → Entry α}
    (changes : ∀ entry, change entry = entry ∨
      ∃ score, change entry = { entry with before := score, origin := origin }) :
    Linked problem ⟨chart.entries.modify start stop label change⟩ := by
  have entries (start' stop' : Nat) (within' : start' ≤ problem.length ∧ stop' ≤ problem.length)
      (other : Label) :
      ((⟨chart.entries.modify start stop label change⟩ : BestChart α).cell start' stop').entry
          other = (chart.cell start' stop').entry other ∨
        ((start, stop) = (start', stop') ∧ label = other) ∧ ∃ score,
          ((⟨chart.entries.modify start stop label change⟩ : BestChart α).cell start' stop').entry
            other = { (chart.cell start' stop').entry other with
              before := score, origin := origin } := by
    rw [linked.sized.entry_modify within within' registered change other]
    split
    · rename_i here
      exact (changes _).imp_right fun changed => ⟨here, changed⟩
    · exact .inl rfl
  have sized : BestChart.Sized ⟨chart.entries.modify start stop label change⟩ problem.length
      problem.grammar.labelCount := linked.sized.modify start stop label change
  generalize (⟨chart.entries.modify start stop label change⟩ : BestChart α) = next at entries sized
  refine ⟨sized, fun start' stop' within' => ?_, fun start' stop' within' other => ?_⟩
  · apply (linked.cells start' stop' within').produce produced
    intro other
    exact (entries start' stop' within' other).imp_right And.right
  · have kept : ∀ start stop, start ≤ problem.length ∧ stop ≤ problem.length → ∀ label,
        (chart.cell start stop).link label ≠ .none → (next.cell start stop).link label ≠ .none := by
      intro start' stop' within' other present
      rw [Cell.link]
      rcases entries start' stop' within' other with old | ⟨_, score, new⟩
      · rw [old]
        exact present
      · rw [new]
        exact present
    rcases entries start' stop' within' other with old | ⟨⟨here, rfl⟩, score, new⟩
    · rw [old]
      exact (linked.grounds start' stop' within' other).mono kept within'
    · obtain ⟨rfl, rfl⟩ := Prod.mk.inj here
      rw [new]
      exact grounds.mono kept within

theorem offer [Score.Ordered α] (linked : Linked problem chart)
    (coherent : problem.grammar.Coherent) {split : Nat} {rule : BinaryRule} {number : Nat}
    (member : (split, rule, number) ∈ offers problem start stop) (bound : stop ≤ problem.length)
    (left : (chart.after start split rule.left == absent) = false)
    (right : (chart.after split stop rule.right == absent) = false) (score : α) :
    Linked problem (chart.offer start stop rule.parent score number split) := by
  obtain ⟨inside, found⟩ := mem_offers.mp member
  obtain ⟨parent, first, second⟩ := coherent.registered_of_binaryRule? found
  have present {start' stop' : Nat} (within : start' ≤ problem.length ∧ stop' ≤ problem.length)
      {label : Label} (known : problem.grammar.Registered label)
      (scored : (chart.after start' stop' label == absent) = false) :
      (chart.cell start' stop').link label ≠ .none := by
    intro none
    rw [linked.sized.after_eq within known, (linked.cells start' stop' within).after label none,
      Ordered.absent_beq] at scored
    cases scored
  refine linked.modify (by omega) parent (by simp) (.binary split rule number inside found rfl
    (present (by omega) first left) (present (by omega) second right)) ?_
  intro entry
  split
  · exact .inr ⟨score, rfl⟩
  · exact .inl rfl

theorem setTerminals (linked : Linked problem chart) (coherent : problem.grammar.Coherent) :
    Linked problem (chart.setTerminals problem) := by
  rw [setTerminals_eq_foldl]
  refine List.foldlRecOn (motive := Linked problem) _ _ linked ?_
  intro next linked place member
  obtain ⟨position, label⟩ := place
  obtain ⟨inside, allowed⟩ := mem_terminalPlaces.mp member
  exact linked.modify ⟨inside.le, inside⟩
    (coherent.terminals_registered label (coherent.mem_terminalsFor allowed)) (by simp)
    (.terminal rfl inside allowed) fun _ => .inr ⟨_, rfl⟩

end Linked

namespace Linked

variable [Score.Ordered α] {rank : Label → Nat}

theorem exists_closed (linked : Linked problem chart) (coherent : problem.grammar.Coherent)
    (ranked : problem.grammar.Ranked rank)
    (within : start ≤ problem.length ∧ stop ≤ problem.length) (floor : α) :
    ∃ next, chart.closed problem start stop floor = .ok next ∧ Linked problem next := by
  obtain ⟨cell, updates, settled, continues⟩ :=
    (linked.cells start stop within).exists_close ranked
      (bottomUp_unaryEdges coherent ranked start stop) (linked.sized.size_cell within)
      (fun edge member => ((mem_unaryEdges coherent.unaryTables).mp member).1) floor
  obtain ⟨next, ok, sized, others, rfl⟩ := linked.sized.exists_closed within settled
    (continues.size.trans (linked.sized.size_cell within))
  have cells (start' stop' : Nat) (within' : start' ≤ problem.length ∧ stop' ≤ problem.length) :
      (chart.cell start' stop').Continues problem.grammar (next.cell start' stop') := by
    by_cases same : (start, stop) = (start', stop')
    · obtain ⟨rfl, rfl⟩ := Prod.mk.inj same
      exact continues
    · rw [others start' stop' within' same]
      exact .refl (linked.cells start' stop' within')
  refine ⟨next, ok, sized, fun start' stop' within' => (cells start' stop' within').linked,
    fun start' stop' within' label => ?_⟩
  rw [(cells start' stop' within').origin]
  exact (linked.grounds start' stop' within' label).mono
    (fun start' stop' within' => (cells start' stop' within').kept) within'

end Linked

end BestChart

end Constituency
