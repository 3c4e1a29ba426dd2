import Constituency.Proofs.UnaryChains
import Constituency.Proofs.UnaryRules

/-!
Closing a cell under unary rules that may form cycles. At every step the links of the cell lead
down without a loop, and the look along a chain decides just what lies on it. Once no rule improves
anything, every link accounts for the score of its label to the full, and a rule that would still
improve its parent is one whose child is built from that parent.
-/

namespace Constituency

open Score

namespace Cell

section Links

variable {α : Type} [Score α] {cell next : Cell α} {count : Nat}

/-- A unary rule builds a label from a child. -/
def Builds (cell : Cell α) (label child : Label) : Prop := cell.link label = .unary child

/-- A label is another one, or is built from it by one unary rule after another. -/
def Through (cell : Cell α) : Label → Label → Prop := Relation.ReflTransGen cell.Builds

/-- The links of a cell lead over its labels, and to an end from each of them. -/
structure Straight (count : Nat) (cell : Cell α) : Prop where
  inside : ∀ label child, cell.Builds label child → label.toNat < count ∧ child.toNat < count
  ends : WellFounded fun child label => cell.Builds label child

namespace Straight

theorem loopFree (straight : Straight count cell) (label : Label) :
    ¬ Relation.TransGen cell.Builds label label := by
  intro loop
  have down := Relation.transGen_swap.mpr loop
  exact straight.ends.transGen.asymmetric _ _ down down

theorem of_bare (bare : ∀ label child, ¬ cell.Builds label child) : Straight count cell :=
  ⟨fun label child builds => absurd builds (bare label child),
    ⟨fun label => ⟨label, fun child builds => absurd builds (bare label child)⟩⟩⟩

/-- A way along the links meets no label twice, so that it is no longer than there are labels. -/
theorem length_le (straight : Straight count cell) {label : Label} (bound : label.toNat < count)
    {below : List Label} (way : (label :: below).IsChain cell.Builds) : below.length < count := by
  have falls : (label :: below).Pairwise (Relation.TransGen cell.Builds) :=
    (way.imp fun _ _ => .single).pairwise
  have distinct : (label :: below).Nodup := by
    refine falls.imp fun {above lower} down same => ?_
    exact straight.loopFree lower (same ▸ down)
  have bounded : ∀ other ∈ label :: below, other.toNat < count := by
    have follow : ∀ (below : List Label) (label : Label), label.toNat < count →
        (label :: below).IsChain cell.Builds → ∀ other ∈ label :: below, other.toNat < count := by
      intro below
      induction below with
      | nil => simp
      | cons child below ih =>
        intro label bound way other member
        rw [List.isChain_cons_cons] at way
        rcases List.mem_cons.mp member with rfl | lower
        · exact bound
        · exact ih child (straight.inside label child way.1).2 way.2 other lower
    exact follow below label bound way
  exact UnaryGraph.length_le_of_distinct distinct bounded

end Straight

theorem not_through_of_no_link {label target : Label}
    (stuck : ∀ child, ¬ cell.Builds label child) (apart : label ≠ target) :
    ¬ cell.Through label target := by
  intro through
  rcases Relation.ReflTransGen.cases_head through with same | ⟨child, builds, _⟩
  · exact apart same
  · exact stuck child builds

theorem through_iff_of_builds {label child target : Label} (builds : cell.Builds label child)
    (apart : label ≠ target) : cell.Through label target ↔ cell.Through child target := by
  refine ⟨fun through => ?_, fun through => .head builds through⟩
  rcases Relation.ReflTransGen.cases_head through with same | ⟨other, builds', rest⟩
  · exact absurd same apart
  · obtain rfl := Link.unary.inj (builds.symm.trans builds')
    exact rest

/-- Given steps for all labels of a way from a label, the look along its chain finds just what is on
it. -/
theorem chainMeets_iff (target : Label) {steps : Nat} {label : Label}
    (room : ∀ below, (label :: below).IsChain cell.Builds → below.length < steps) :
    cell.chainMeets target steps label = true ↔ cell.Through label target := by
  induction steps generalizing label with
  | zero => exact absurd (room [] (.singleton label)) (Nat.not_lt_zero _)
  | succ steps ih =>
    rw [chainMeets, Bool.or_eq_true, beq_iff_eq]
    by_cases same : label = target
    · rw [same]
      exact iff_of_true (.inl rfl) .refl
    · cases linked : cell.link label with
      | unary child =>
        have builds : cell.Builds label child := linked
        rw [through_iff_of_builds builds same, ← ih fun below way =>
          Nat.lt_of_succ_lt_succ (room (child :: below) (.cons_cons builds way))]
        simp [same]
      | none =>
        have stuck : ∀ child, ¬ cell.Builds label child := by simp [Builds, linked]
        simp [same, not_through_of_no_link stuck same]
      | keep =>
        have stuck : ∀ child, ¬ cell.Builds label child := by simp [Builds, linked]
        simp [same, not_through_of_no_link stuck same]

theorem Straight.chainMeets_iff (straight : Straight count cell) {label : Label}
    (bound : label.toNat < count) (target : Label) {steps : Nat} (enough : count ≤ steps) :
    cell.chainMeets target steps label = true ↔ cell.Through label target :=
  Cell.chainMeets_iff target fun _ way => (straight.length_le bound way).trans_le enough

/-- Links stay straight when a label is built from a child whose chain does not come through it. -/
theorem Straight.improve {edge : UnaryEdge α} (straight : Straight count cell)
    (bounded : edge.rule.parent.toNat < count ∧ edge.rule.child.toNat < count)
    (unmet : ¬ cell.Through edge.rule.child edge.rule.parent)
    (improved : Improved cell edge next) : Straight count next := by
  have old {label child : Label} (apart : edge.rule.parent ≠ label)
      (builds : next.Builds label child) : cell.Builds label child :=
    (improved.link_kept apart).symm.trans builds
  have new {child : Label} (builds : next.Builds edge.rule.parent child) :
      child = edge.rule.child :=
    Link.unary.inj (builds.symm.trans improved.link_new)
  -- First the labels that do not come through the parent, then the parent, then all others.
  have clear (label : Label) (unmet : ¬ cell.Through label edge.rule.parent) :
      Acc (fun child label => next.Builds label child) label := by
    induction label using straight.ends.induction with
    | _ label ih =>
      have apart : edge.rule.parent ≠ label := fun same => unmet (same ▸ .refl)
      refine ⟨label, fun child builds => ih child (old apart builds) fun through => ?_⟩
      exact unmet (.head (old apart builds) through)
  have parent : Acc (fun child label => next.Builds label child) edge.rule.parent :=
    ⟨_, fun child builds => new builds ▸ clear _ unmet⟩
  constructor
  · intro label child builds
    by_cases same : edge.rule.parent = label
    · subst same
      exact ⟨bounded.1, new builds ▸ bounded.2⟩
    · exact straight.inside label child (old same builds)
  · constructor
    intro label
    induction label using straight.ends.induction with
    | _ label ih =>
      by_cases same : edge.rule.parent = label
      · exact same ▸ parent
      · exact ⟨label, fun child builds => ih child (old same builds)⟩

end Links

section Steps

variable {α : Type} [Score α] {count : Nat} {floor : α} {edges : List (UnaryEdge α)}
  {start : Cell α} {pass : Pass α} {edge : UnaryEdge α}

/-- A rule that leaves a cell as it is: it does not improve its parent, or its child is built from
that. -/
def Passive (count : Nat) (floor : α) (cell : Cell α) (edge : UnaryEdge α) : Prop :=
  cell.Idle floor edge ∨ cell.chainMeets edge.rule.parent (count + 1) edge.rule.child = true

theorem relax_cases (count : Nat) (floor : α) (pass : Pass α) (edge : UnaryEdge α) :
    relax count floor pass edge = pass ∧ Passive count floor pass.cell edge ∨
      ¬ Passive count floor pass.cell edge ∧ (relax count floor pass edge).changed ≠ [] := by
  by_cases idle : pass.cell.Idle floor edge
  · exact .inl ⟨relax_of_idle idle, .inl idle⟩
  · have busy := idle
    simp only [Idle, not_or, not_not] at busy
    obtain ⟨present, floored, improves⟩ := busy
    cases meets : pass.cell.chainMeets edge.rule.parent (count + 1) edge.rule.child with
    | true => exact .inl ⟨by simp [relax, meets], .inr meets⟩
    | false =>
      refine .inr ⟨by simp [Passive, idle, meets], ?_⟩
      have changed : (relax count floor pass edge).changed =
          if pass.changed.contains edge.rule.parent then pass.changed
          else pass.changed ++ [edge.rule.parent] := by
        simp [relax, present, floored, improves, meets]
      rw [changed]
      split
      · rename_i noted
        exact List.ne_nil_of_mem (List.contains_iff_mem.mp noted)
      · exact List.concat_ne_nil _ _

theorem improved_of_active (inside : edge.rule.parent.toNat < pass.cell.size)
    (active : ¬ Passive count floor pass.cell edge) :
    Improved pass.cell edge (relax count floor pass edge).cell := by
  rw [Passive, not_or, Bool.not_eq_true] at active
  exact improved_relax inside active.1 active.2

/-- What has been noted as changed stays noted, so that a sweep after which nothing is noted has
changed nothing. -/
theorem foldl_relax_unchanged (rules : List (UnaryEdge α))
    (quiet : (rules.foldl (relax count floor) pass).changed = []) :
    rules.foldl (relax count floor) pass = pass ∧
      ∀ edge ∈ rules, Passive count floor pass.cell edge := by
  have noted (rules : List (UnaryEdge α)) (pass : Pass α) (some : pass.changed ≠ []) :
      (rules.foldl (relax count floor) pass).changed ≠ [] := by
    refine List.foldlRecOn (motive := fun pass : Pass α => pass.changed ≠ []) rules _ some ?_
    intro pass some edge _
    rcases relax_cases count floor pass edge with ⟨same, _⟩ | ⟨_, more⟩
    · rw [same]
      exact some
    · exact more
  induction rules with
  | nil => exact ⟨rfl, by simp⟩
  | cons edge rules ih =>
    rw [List.foldl_cons] at quiet ⊢
    rcases relax_cases count floor pass edge with ⟨same, passive⟩ | ⟨_, some⟩
    · rw [same] at quiet ⊢
      obtain ⟨rest, others⟩ := ih quiet
      exact ⟨rest, List.forall_mem_cons.mpr ⟨passive, others⟩⟩
    · exact absurd quiet (noted rules _ some)

theorem passive_of_settle {passes updates : Nat} {cell : Cell α}
    (settled : settle count floor edges passes pass = (cell, .ok updates)) :
    ∀ edge ∈ edges, Passive count floor cell edge := by
  induction passes generalizing pass with
  | zero => cases settled
  | succ passes ih =>
    rw [settle] at settled
    split at settled
    · rename_i quiet
      obtain ⟨same, passive⟩ := foldl_relax_unchanged edges (List.isEmpty_iff.mp quiet)
      obtain ⟨rfl, _⟩ := Prod.mk.inj settled
      rw [same]
      exact passive
    · exact ih settled

theorem bare_keep {cell : Cell α} (bare : ∀ label child, ¬ cell.Builds label child) (kept : Label) :
    ∀ label child, ¬ (cell.keep kept).Builds label child := by
  intro label child builds
  simp only [Builds, link, entry_keep, Entry.kept] at builds
  split at builds
  · split at builds
    · cases builds
    · exact bare label child builds
  · exact bare label child builds

/-- The states that closing a cell comes to, with the labels whose scores are still to be kept and
the rules still to be applied in the pass under way. -/
inductive Comes (count : Nat) (floor : α) (edges : List (UnaryEdge α)) (start : Cell α) :
    Pass α → List Label → List (UnaryEdge α) → Prop
  | start : Comes count floor edges start { cell := start } (Label.below count.toUInt16) edges
  | keep {pass : Pass α} {label : Label} {labels : List Label} {rules : List (UnaryEdge α)} :
    Comes count floor edges start pass (label :: labels) rules →
      Comes count floor edges start { pass with cell := pass.cell.keep label } labels rules
  | rule {pass : Pass α} {edge : UnaryEdge α} {rules : List (UnaryEdge α)} :
    Comes count floor edges start pass [] (edge :: rules) →
      Comes count floor edges start (relax count floor pass edge) [] rules
  | again {pass : Pass α} :
    Comes count floor edges start pass [] [] →
      Comes count floor edges start { pass with changed := [] } [] edges

namespace Comes

theorem keeping {labels : List Label} {rules : List (UnaryEdge α)}
    (comes : Comes count floor edges start pass labels rules) :
    Comes count floor edges start { pass with cell := labels.foldl Cell.keep pass.cell } []
      rules := by
  induction labels generalizing pass with
  | nil => exact comes
  | cons label labels ih => exact ih comes.keep

theorem sweeping {rules : List (UnaryEdge α)}
    (comes : Comes count floor edges start pass [] rules) :
    Comes count floor edges start (rules.foldl (relax count floor) pass) [] [] := by
  induction rules generalizing pass with
  | nil => exact comes
  | cons edge rules ih => exact ih comes.rule

theorem settling (passes : Nat)
    (comes : Comes count floor edges start { pass with changed := [] } [] edges) :
    ∃ last rules, Comes count floor edges start last [] rules ∧
      (settle count floor edges passes pass).1 = last.cell := by
  induction passes generalizing pass with
  | zero => exact ⟨_, _, comes, rfl⟩
  | succ passes ih =>
    rw [settle]
    split
    · exact ⟨_, _, comes.sweeping, rfl⟩
    · exact ih comes.sweeping.again

theorem closing (count : Nat) (floor : α) (edges : List (UnaryEdge α)) (start : Cell α) :
    ∃ last rules, Comes count floor edges start last [] rules ∧
      (start.close count floor edges).1 = last.cell :=
  settling passLimit Comes.start.keeping

section Holds

variable (size : start.size = count) (bare : ∀ label child, ¬ start.Builds label child)
  (bounded : ∀ edge ∈ edges, edge.rule.parent.toNat < count ∧ edge.rule.child.toNat < count)
  {labels : List Label} {rules : List (UnaryEdge α)}

include size bare bounded

/-- What keeping a score in a cell without unary links preserves, and a rule that improves its
parent, holds of every state. -/
theorem holds (kept : Cell α → Prop) (first : kept start)
    (keeps : ∀ (cell : Cell α) label, (∀ label child, ¬ cell.Builds label child) → kept cell →
      kept (cell.keep label))
    (improves : ∀ (cell next : Cell α), ∀ edge ∈ edges, ¬ Passive count floor cell edge →
      Improved cell edge next → kept cell → kept next)
    (comes : Comes count floor edges start pass labels rules) : kept pass.cell := by
  have general : pass.cell.size = count ∧ rules ⊆ edges ∧
      (labels ≠ [] → ∀ label child, ¬ pass.cell.Builds label child) ∧ kept pass.cell := by
    induction comes with
    | start => exact ⟨size, List.Subset.refl _, fun _ => bare, first⟩
    | keep _ ih =>
      obtain ⟨size, within, bare, held⟩ := ih
      have bare := bare (List.cons_ne_nil _ _)
      refine ⟨?_, within, fun _ => bare_keep bare _, keeps _ _ bare held⟩
      rw [Cell.keep, Array.size_modify, size]
    | @rule pass edge rules _ ih =>
      obtain ⟨size, within, _, held⟩ := ih
      have member := within List.mem_cons_self
      have rest : rules ⊆ edges := fun other later => within (List.mem_cons_of_mem _ later)
      rcases relax_cases count floor pass edge with ⟨same, _⟩ | ⟨active, _⟩
      · rw [same]
        exact ⟨size, rest, fun some => absurd rfl some, held⟩
      · have improved := improved_of_active (size ▸ (bounded edge member).1) active
        exact ⟨improved.size.trans size, rest, fun some => absurd rfl some,
          improves _ _ edge member active improved held⟩
    | again _ ih => exact ⟨ih.1, List.Subset.refl _, fun some => absurd rfl some, ih.2.2.2⟩
  exact general.2.2.2

theorem straight (comes : Comes count floor edges start pass labels rules) :
    Straight count pass.cell := by
  refine comes.holds size bare bounded (Straight count) (.of_bare bare) ?_ ?_
  · intro cell label bare _
    exact .of_bare (bare_keep bare label)
  · intro cell next edge member active improved straight
    have within := bounded edge member
    refine straight.improve within (fun through => active (.inr ?_)) improved
    exact (straight.chainMeets_iff within.2 _ (Nat.le_succ count)).mpr through

end Holds

end Comes

end Steps

section Scores

variable {count : Nat} {floor : EReal} {edges : List (UnaryEdge EReal)}
  {start cell next : Cell EReal} {edge : UnaryEdge EReal}

/-- What the link of a label says about its score between two rules. The child of a rule that has
built the label may have risen since. -/
def Backed (cell : Cell EReal) (floor : EReal) (edges : List (UnaryEdge EReal)) (label : Label) :
    Link → Prop
  | .none => cell.after label = ⊥
  | .keep => cell.after label = (cell.entry label).before
  | .unary child => ∃ edge ∈ edges, edge.rule = ⟨label, child⟩ ∧ cell.after child ≠ ⊥ ∧
      floor ≤ cell.after child ∧ cell.after label ≤ cell.after child + edge.score

theorem backed_keep (bare : ∀ label child, ¬ cell.Builds label child)
    (old : ∀ label, cell.Backed floor edges label (cell.link label)) (kept label : Label) :
    (cell.keep kept).Backed floor edges label ((cell.keep kept).link label) := by
  have same (entry : (cell.keep kept).entry label = cell.entry label) :
      (cell.keep kept).Backed floor edges label ((cell.keep kept).link label) := by
    have backed := old label
    have after : (cell.keep kept).after label = cell.after label := congrArg Entry.after entry
    have link : (cell.keep kept).link label = cell.link label := congrArg Entry.link entry
    rw [link]
    cases linked : cell.link label with
    | none =>
      rw [linked] at backed
      exact after.trans backed
    | keep =>
      rw [linked] at backed
      rw [Backed, after, entry]
      exact backed
    | unary child => exact absurd linked (bare label child)
  by_cases here : kept = label ∧ kept.toNat < cell.size
  · by_cases scored : ⊥ < (cell.entry label).before
    · have entry : (cell.keep kept).entry label =
          { cell.entry label with after := (cell.entry label).before, link := .keep } := by
        rw [entry_keep, if_pos here, Entry.kept, ExtendedReal.absent_eq_bot, if_pos scored]
      rw [Cell.link, entry, Backed, Cell.after, entry]
    · apply same
      rw [entry_keep, if_pos here, Entry.kept, ExtendedReal.absent_eq_bot, if_neg scored]
  · apply same
    rw [entry_keep, if_neg here]

namespace Improved

theorem backed (improved : Improved cell edge next) (apart : edge.rule.parent ≠ edge.rule.child)
    (member : edge ∈ edges) (active : ¬ cell.Relaxed floor edge)
    (old : ∀ label, cell.Backed floor edges label (cell.link label)) (label : Label) :
    Backed next floor edges label (link next label) := by
  simp only [Relaxed, not_or, not_lt, not_le] at active
  obtain ⟨present, floored, improves⟩ := active
  have rises := improved.rises improves.le
  by_cases same : edge.rule.parent = label
  · subst same
    have child := improved.after_kept apart
    rw [improved.link_new]
    refine ⟨edge, member, rfl, child ▸ present, child ▸ floored, ?_⟩
    rw [improved.after_new, child]
  · have backed := old label
    rw [improved.link_kept same]
    cases linked : cell.link label with
    | none =>
      rw [linked] at backed
      exact (improved.after_kept same).trans backed
    | keep =>
      rw [linked] at backed
      rw [Backed, improved.after_kept same, improved.before]
      exact backed
    | unary child =>
      rw [linked] at backed
      obtain ⟨other, member', rule, present', floored', most⟩ := backed
      refine ⟨other, member', rule, ?_, floored'.trans (rises child), ?_⟩
      · exact fun none => present' (le_bot_iff.mp (none ▸ rises child))
      · rw [improved.after_kept same]
        exact most.trans (add_le_add (rises child) le_rfl)

end Improved

theorem Fresh.not_builds (fresh : start.Fresh) (label child : Label) :
    ¬ start.Builds label child := by
  rw [Builds, (fresh label).2]
  exact fun builds => by cases builds

theorem Comes.backed (size : start.size = count) (fresh : start.Fresh)
    (bounded : ∀ edge ∈ edges, edge.rule.parent.toNat < count ∧ edge.rule.child.toNat < count)
    {pass : Pass EReal} {labels : List Label} {rules : List (UnaryEdge EReal)}
    (comes : Comes count floor edges start pass labels rules) :
    ∀ label, pass.cell.Backed floor edges label (pass.cell.link label) := by
  refine comes.holds size fresh.not_builds bounded
    (fun cell : Cell EReal => ∀ label, cell.Backed floor edges label (cell.link label)) ?_ ?_ ?_
  · intro label
    rw [(fresh label).2]
    exact (fresh label).1
  · intro cell kept bare backed
    exact backed_keep bare backed kept
  · intro cell next edge member active improved backed
    rw [Passive, not_or] at active
    have apart : edge.rule.parent ≠ edge.rule.child := by
      intro same
      exact active.2 (by simp [chainMeets, same])
    exact improved.backed apart member (relaxed_iff_idle.not.mpr active.1) backed

/-- A cell that no rule changes any more. -/
structure Settled (count : Nat) (floor : EReal) (edges : List (UnaryEdge EReal))
    (cell : Cell EReal) : Prop where
  straight : Straight count cell
  backed : ∀ label, cell.Backed floor edges label (cell.link label)
  passive : ∀ edge ∈ edges, Passive count floor cell edge
  bounded : ∀ edge ∈ edges, edge.rule.child.toNat < count

namespace Settled

variable (settled : Settled count floor edges cell)

include settled

theorem through (member : edge ∈ edges) (floored : floor ≤ cell.after edge.rule.child)
    (improves : cell.after edge.rule.parent < cell.after edge.rule.child + edge.score) :
    cell.Through edge.rule.child edge.rule.parent := by
  rcases settled.passive edge member with idle | meets
  · exfalso
    rcases relaxed_iff_idle.mpr idle with absent | low | enough
    · rw [absent, EReal.bot_add] at improves
      exact not_lt_bot improves
    · exact absurd low (not_lt.mpr floored)
    · exact absurd improves (not_lt.mpr enough)
  · exact (settled.straight.chainMeets_iff (settled.bounded edge member) _
      (Nat.le_succ count)).mp meets

theorem after_eq {label child : Label} (builds : cell.Builds label child) :
    ∃ edge ∈ edges, edge.rule = ⟨label, child⟩ ∧
      cell.after label = cell.after child + edge.score := by
  have backed := settled.backed label
  rw [show cell.link label = .unary child from builds] at backed
  obtain ⟨edge, member, rule, _, floored, most⟩ := backed
  refine ⟨edge, member, rule, most.antisymm (not_lt.mp fun improves => ?_)⟩
  have through := settled.through member
  rw [rule] at through
  -- The rule has built the label, so that the label would lie on its own chain.
  exact settled.straight.loopFree label (.head' builds (through floored improves))

theorem exists_keep {label : Label} (present : cell.link label ≠ .none) :
    ∃ last, cell.Through label last ∧ cell.link last = .keep ∧
      cell.after last = (cell.entry last).before := by
  induction label using settled.straight.ends.induction with
  | _ label ih =>
    have backed := settled.backed label
    cases linked : cell.link label with
    | none => exact absurd linked present
    | keep =>
      rw [linked] at backed
      exact ⟨label, .refl, linked, backed⟩
    | unary child =>
      rw [linked] at backed
      obtain ⟨_, _, _, present', _⟩ := backed
      have scored : cell.link child ≠ .none := by
        intro none
        have backed := settled.backed child
        rw [none] at backed
        exact present' backed
      obtain ⟨last, through, rest⟩ := ih child linked scored
      exact ⟨last, .head linked through, rest⟩

end Settled

theorem Comes.settled (size : start.size = count) (fresh : start.Fresh)
    (bounded : ∀ edge ∈ edges, edge.rule.parent.toNat < count ∧ edge.rule.child.toNat < count)
    {updates : Nat} (ok : start.close count floor edges = (cell, .ok updates)) :
    Settled count floor edges cell := by
  obtain ⟨last, rules, comes, same⟩ := Comes.closing count floor edges start
  obtain rfl : cell = last.cell := by rw [← same, ok]
  exact ⟨comes.straight size fresh.not_builds bounded, comes.backed size fresh bounded,
    passive_of_settle ok, fun edge member => (bounded edge member).2⟩

end Scores

end Cell

namespace BestChart

open Relation

variable {problem : Problem EReal} {chart : BestChart EReal} {start stop : Nat}

theorem Sized.settles {words labels : Nat} {floor : EReal} {closed : BestChart EReal}
    {updates : Nat} (sized : chart.Sized words labels) (within : start ≤ words ∧ stop ≤ words)
    (ok : chart.close problem start stop floor = (closed, .ok updates)) :
    (chart.cell start stop).close labels floor (unaryEdges problem start stop) =
      (closed.cell start stop, .ok updates) := by
  have count : chart.labels = labels := sized.labels_eq
  have same := sized.cell_close problem within floor
  have outcome := congrArg Prod.snd ok
  rw [ok] at same
  simp only [close, count] at outcome
  cases result : ((chart.cell start stop).close labels floor (unaryEdges problem start stop)).2 with
  | error names =>
    rw [result] at outcome
    cases outcome
  | ok number =>
    rw [result] at outcome
    cases outcome
    exact Prod.ext same.symm result

/-- Closing a fresh cell never builds a loop, also where the unary rules form cycles: in every state
that the cell comes to, the look along a chain stays within its limit and finds just what is on the
chain. If the cell settles, every link accounts for the score of its label to the full, every chain
ends where a score is kept, and a rule improves nothing more unless its child is built from its
parent. -/
theorem close_loopFree (served : problem.grammar.Served)
    (registered : problem.grammar.UnaryRegistered)
    (sized : chart.Sized problem.length problem.grammar.labelCount)
    (within : start ≤ problem.length ∧ stop ≤ problem.length)
    (fresh : (chart.cell start stop).Fresh) (floor : EReal) :
    (∀ pass labels rules,
      Cell.Comes problem.grammar.labelCount floor (unaryEdges problem start stop)
          (chart.cell start stop) pass labels rules →
        (∀ label, ¬ TransGen pass.cell.Builds label label) ∧
        ∀ label, problem.grammar.Registered label →
          (∀ below, (label :: below).IsChain pass.cell.Builds →
            below.length < problem.grammar.labelCount) ∧
          ∀ target, pass.cell.chainMeets target (problem.grammar.labelCount + 1) label = true ↔
            pass.cell.Through label target) ∧
      (∃ last rules,
        Cell.Comes problem.grammar.labelCount floor (unaryEdges problem start stop)
            (chart.cell start stop) last [] rules ∧
          (chart.close problem start stop floor).1.cell start stop = last.cell) ∧
      ∀ closed updates, chart.close problem start stop floor = (closed, .ok updates) →
        let cell := closed.cell start stop
        (∀ label child, cell.Builds label child → cell.after label =
          cell.after child + problem.spanScore (.unary start stop ⟨label, child⟩)) ∧
        (∀ label, cell.link label ≠ .none → ∃ last, cell.Through label last ∧
          cell.link last = .keep ∧
          cell.after last = ((chart.cell start stop).entry last).before) ∧
        ∀ rule ∈ problem.grammar.unaryRules.toList, floor ≤ cell.after rule.child →
          cell.after rule.parent <
              cell.after rule.child + problem.spanScore (.unary start stop rule) →
            cell.Through rule.child rule.parent := by
  have tables := served.unaryTables
  have size := sized.size_cell within
  have bounded : ∀ edge ∈ unaryEdges problem start stop,
      edge.rule.parent.toNat < problem.grammar.labelCount ∧
        edge.rule.child.toNat < problem.grammar.labelCount :=
    fun edge member => registered edge.rule ((mem_unaryEdges tables).mp member).1
  refine ⟨?_, ?_, ?_⟩
  · intro pass labels rules comes
    have straight := comes.straight size fresh.not_builds bounded
    exact ⟨straight.loopFree, fun label known => ⟨fun _ way => straight.length_le known way,
      fun target => straight.chainMeets_iff known target (Nat.le_succ _)⟩⟩
  · obtain ⟨last, rules, comes, closed⟩ := Cell.Comes.closing problem.grammar.labelCount floor
      (unaryEdges problem start stop) (chart.cell start stop)
    exact ⟨last, rules, comes, (sized.cell_close problem within floor).trans closed⟩
  · intro closed updates ok cell
    have settles := sized.settles within ok
    have settled := Cell.Comes.settled size fresh bounded settles
    refine ⟨?_, ?_, ?_⟩
    · intro label child builds
      obtain ⟨edge, member, rule, sum⟩ := settled.after_eq builds
      rw [sum, ((mem_unaryEdges tables).mp member).2, rule]
    · intro label present
      obtain ⟨last, through, keeps, score⟩ := settled.exists_keep present
      refine ⟨last, through, keeps, score.trans ?_⟩
      have before := Cell.before_close (chart.cell start stop) problem.grammar.labelCount floor
        (unaryEdges problem start stop) last
      rw [settles] at before
      exact before
    · intro rule known floored improves
      have member : ⟨rule, problem.spanScore (.unary start stop rule)⟩ ∈
          unaryEdges problem start stop := (mem_unaryEdges tables).mpr ⟨known, rfl⟩
      exact settled.through member floored improves

section Loop

open Grammar Score

theorem perm_unaryEdges_loop :
    (unaryEdges (.uniform loop twoWords) 0 1).Perm [⟨⟨0, 1⟩, 0⟩, ⟨⟨1, 0⟩, 0⟩] := by
  have order : loop.unaryOrder.Perm [0, 1] := by
    have order := loop_built.coherent.unaryTables.order
    rw [loop_unaryRules] at order
    exact order
  have down : loop.unaryRule? 0 = some ⟨0, 1⟩ := by
    rw [unaryRule?, loop_unaryRules]
    rfl
  have up : loop.unaryRule? 1 = some ⟨1, 0⟩ := by
    rw [unaryRule?, loop_unaryRules]
    rfl
  have score (rule : UnaryRule) (number : Nat) :
      (Problem.uniform loop twoWords).unaryScore 0 1 rule number = 0 := by
    rw [Problem.unaryScore, Problem.costOf, Cost.orZero, Problem.uniform]
    exact (congrArg₂ (· + ·) ExtendedReal.zero_eq_zero ExtendedReal.zero_eq_zero).trans (add_zero 0)
  refine (order.filterMap _).trans (.of_eq ?_)
  change List.filterMap (fun number => (loop.unaryRule? number).map _) _ = _
  simp [down, up, score]

theorem settles_both_ways {edges : List (UnaryEdge EReal)}
    (both : edges.Perm [⟨⟨0, 1⟩, 0⟩, ⟨⟨1, 0⟩, 0⟩]) :
    Cell.close #[.absent, ⟨0, .none, ⊥, .none⟩] 2 ⊥ edges =
      (#[⟨⊥, .none, 0, .unary 1⟩, ⟨0, .none, 0, .keep⟩], .ok 1) := by
  have labels : Label.below (2 : Nat).toUInt16 = [0, 1] := by decide
  have kept : Cell.keepAll (#[.absent, ⟨0, .none, ⊥, .none⟩] : Cell EReal) 2 =
      #[.absent, ⟨0, .none, 0, .keep⟩] := by
    rw [Cell.keepAll, labels]
    simp [Cell.keep, Entry.absent]
  rw [Cell.close, kept, Cell.passLimit]
  rcases List.perm_pair.mp both with rfl | rfl
  all_goals
    simp [Cell.settle, Cell.relax, Cell.after, Cell.entry, Entry.absent, Cell.chainMeets, Cell.link]

theorem close_loopFree_loop : ∃ closed,
    (lone 2 2 1).close (.uniform loop twoWords) 0 1 ⊥ = (closed, .ok 1) ∧
      (closed.cell 0 1).Builds 0 1 ∧ (closed.cell 0 1).after 0 = (closed.cell 0 1).after 1 ∧
      ¬ TransGen (closed.cell 0 1).Builds 0 0 := by
  have within : 0 ≤ 2 ∧ 1 ≤ 2 := by decide
  have some : (1 : Label).toNat < 2 := by decide
  have labels : loop.labelCount = 2 := by rw [loop, labelCount_addUnary, row_labelCount]
  have sized : (lone 2 2 1).Sized twoWords.length loop.labelCount := by
    rw [labels]
    exact sized_lone 2 2 1
  obtain ⟨always, ⟨last, rules, comes, same⟩, settled⟩ :=
    @close_loopFree (.uniform loop twoWords) _ 0 1 loop_built.served
      loop_built.coherent.unary.registered sized within (fresh_lone within some) ⊥
  have settles := settles_both_ways perm_unaryEdges_loop
  have cell := (sized_lone 2 2 1).cell_close (.uniform loop twoWords) within ⊥
  have start : (lone 2 2 1).cell 0 1 = #[.absent, ⟨0, .none, ⊥, .none⟩] := rfl
  rw [start, settles] at cell
  have ok : (lone 2 2 1).close (.uniform loop twoWords) 0 1 ⊥ =
      (((lone 2 2 1).close (.uniform loop twoWords) 0 1 ⊥).1, .ok 1) := by
    have count : (lone 2 2 1).labels = 2 := rfl
    simp only [close, count, start, settles]
    rfl
  have builds : ((((lone 2 2 1).close (.uniform loop twoWords) 0 1 ⊥).1).cell 0 1).Builds 0 1 := by
    rw [cell]
    rfl
  refine ⟨_, ok, builds, ?_, ?_⟩
  · exact ((settled _ 1 ok).1 0 1 builds).trans (by rw [Problem.uniform_spanScore, add_zero])
  · rw [same]
    exact (always last [] rules comes).1 0

end Loop

end BestChart

end Constituency
