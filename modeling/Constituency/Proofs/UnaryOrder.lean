import Constituency.Proofs.UnaryRules

/-!
The order of the unary rules after any requests. Only a new unary rule makes it anew, by the labels
that are registered then; labels and other rules that come later leave it right.
-/

namespace Constituency.Grammar

open Text

variable {grammar next : Grammar}

/-- The unary rules in an order that no rule is in ahead of one that builds its child; as they were
added where they form a cycle. -/
structure Ordered (grammar : Grammar) : Prop where
  labels : grammar.labels.Sound
  filed : grammar.UnaryFiled
  perm : grammar.unaryOrder.Perm (List.range grammar.unaryRules.size)
  ascends : grammar.Acyclic → grammar.Ascends grammar.unaryOrder
  as_added : ¬ grammar.Acyclic → grammar.unaryOrder = List.range grammar.unaryRules.size

theorem UnaryFiled.bottomUpOrder_of_cyclic (filed : grammar.UnaryFiled)
    (cyclic : ¬ grammar.Acyclic) :
    grammar.bottomUpOrder = List.range grammar.unaryRules.size := by
  rcases filed.unaryCycle?_ends with ⟨acyclic, _⟩ | ⟨_, cycle, _, found⟩
  · exact absurd acyclic cyclic
  · rw [unaryCycle?] at found
    rw [bottomUpOrder]
    split at found
    · cases found
    · rename_i result
      rw [result]

namespace Ordered

theorem empty : Ordered empty where
  labels := .empty
  filed := ⟨.empty, by simp [Grammar.empty, Numbering.toList]⟩
  perm := .refl _
  ascends _ := .nil
  as_added _ := rfl

theorem of_unary_eq (ordered : grammar.Ordered) (labels : next.labels.Sound)
    (longer : grammar.labelCount ≤ next.labelCount)
    (rules : next.unaryRules = grammar.unaryRules)
    (index : next.unaryByParent = grammar.unaryByParent)
    (order : next.unaryOrder = grammar.unaryOrder) : next.Ordered := by
  have step : next.UnaryStep = grammar.UnaryStep := by
    funext parent child
    rw [UnaryStep, UnaryStep, rules]
  have acyclic : next.Acyclic ↔ grammar.Acyclic := by rw [Acyclic, Acyclic, step]
  have registered {label : Label} (old : grammar.Registered label) : next.Registered label :=
    Nat.lt_of_lt_of_le old longer
  refine ⟨labels, ⟨?_, ?_⟩, ?_, ?_, ?_⟩
  · rw [rules, index]
    exact ordered.filed.filed
  · intro rule member
    rw [rules] at member
    exact (ordered.filed.registered rule member).imp registered registered
  · rw [rules, order]
    exact ordered.perm
  · intro none
    simp only [Ascends, unaryRule?, rules, order]
    exact ordered.ascends (acyclic.mp none)
  · intro cyclic
    rw [rules, order]
    exact ordered.as_added (acyclic.not.mp cyclic)

theorem addLabel (ordered : grammar.Ordered) (name : String) :
    ((addLabel name).grow grammar).Ordered := by
  have longer := labelCount_le_addLabel name grammar
  rw [Edit.grow] at longer ⊢
  rcases run_addLabel name grammar with ⟨_, _, result⟩ | ⟨new, _, result⟩ | ⟨_, result⟩
  · rwa [result]
  · rw [result] at longer ⊢
    exact ordered.of_unary_eq (ordered.labels.push new) longer rfl rfl rfl
  · rwa [result]

theorem addWord (ordered : grammar.Ordered) (text : String) :
    ((addWord text).grow grammar).Ordered := by
  rw [Edit.grow]
  rcases run_addWord text grammar with ⟨_, _, result⟩ | ⟨_, result⟩
  · rwa [result]
  · rw [result]
    exact ordered.of_unary_eq ordered.labels le_rfl rfl rfl rfl

theorem addBinary (ordered : grammar.Ordered) (rule : BinaryRule) :
    ((addBinary rule).grow grammar).Ordered := by
  simp only [Edit.grow, Grammar.addBinary, ExceptT.run, ExceptT.mk]
  split
  · exact ordered
  split
  · exact ordered
  · exact ordered.of_unary_eq ordered.labels le_rfl rfl rfl rfl

theorem addTerminal (ordered : grammar.Ordered) (parent : Label) :
    ((addTerminal parent).grow grammar).Ordered :=
  ordered.of_unary_eq ordered.labels le_rfl rfl rfl rfl

theorem addRoot (ordered : grammar.Ordered) (top : Label) :
    ((addRoot top).grow grammar).Ordered :=
  ordered.of_unary_eq ordered.labels le_rfl rfl rfl rfl

theorem addEntry (ordered : grammar.Ordered) (word : Nat) (parent : Label) :
    ((addEntry word parent).grow grammar).Ordered :=
  ordered.of_unary_eq ordered.labels le_rfl rfl rfl rfl

theorem addLexical (ordered : grammar.Ordered) (parent : Label) (text : String) :
    ((addLexical parent text).grow grammar).Ordered := by
  obtain ⟨number, result⟩ := run_addLexical parent text grammar
  rw [Edit.grow, result]
  exact ((ordered.addTerminal parent).addWord text).addEntry number parent

theorem addUnary (ordered : grammar.Ordered) (rule : UnaryRule)
    (registered : ∀ label ∈ (Rule.unary rule).labels, grammar.Registered label) :
    ((addUnary rule).grow grammar).Ordered := by
  simp only [Edit.grow, Grammar.addUnary, ExceptT.run, ExceptT.mk]
  split
  · exact ordered
  split
  · exact ordered
  rename_i new
  split
  · exact ordered
  rename_i room
  let grown : Grammar :=
    { grammar with
      unaryRules := grammar.unaryRules.push rule
      unaryByParent := fileUnder grammar.unaryByParent rule.parent grammar.unaryRules.size }
  have filed : grown.UnaryFiled := by
    refine ⟨ordered.filed.filed.push new (Nat.not_le.mp room), fun other member => ?_⟩
    rcases (Numbering.mem_toList_push _ _ _).mp member with old | rfl
    · exact ordered.filed.registered other old
    · exact ⟨registered other.parent (by simp [Rule.labels, Rule.parent]),
        registered other.child (by simp [Rule.labels, Rule.children])⟩
  exact
    { labels := ordered.labels
      filed := ⟨filed.filed, filed.registered⟩
      perm := bottomUpOrder_perm grown
      ascends := filed.ascends_bottomUpOrder
      as_added := filed.bottomUpOrder_of_cyclic }

theorem guarded : Guarded Ordered where
  sound ordered := ordered.labels
  label name _ ordered _ := ordered.addLabel name
  word text _ ordered _ := ordered.addWord text
  binary rule _ ordered _ := ordered.addBinary rule
  unary rule _ ordered registered := ordered.addUnary rule registered
  terminal parent _ ordered _ := ordered.addTerminal parent
  root top _ ordered _ := ordered.addRoot top
  lexical parent text _ ordered _ := ordered.addLexical parent text

theorem idxOf_lt_idxOf (ordered : grammar.Ordered) (acyclic : grammar.Acyclic)
    {number lower : Nat} {rule below : UnaryRule} (found : grammar.unaryRule? number = some rule)
    (found' : grammar.unaryRule? lower = some below) (builds : below.parent = rule.child) :
    grammar.unaryOrder.idxOf lower < grammar.unaryOrder.idxOf number := by
  have listed {number : Nat} {rule : UnaryRule} (found : grammar.unaryRule? number = some rule) :
      grammar.unaryOrder.idxOf number < grammar.unaryOrder.length := by
    rw [List.idxOf_lt_length_iff, ordered.perm.mem_iff, List.mem_range]
    exact Numbering.lt_size_of_get? found
  have apart : number ≠ lower := by
    rintro rfl
    obtain rfl := Option.some.inj (found.symm.trans found')
    have step : grammar.UnaryStep rule.parent rule.child :=
      (Numbering.mem_toList_iff _ _).mpr ⟨number, found⟩
    rw [builds] at step
    exact acyclic rule.child (.single step)
  by_contra late
  have ahead : grammar.unaryOrder.idxOf number < grammar.unaryOrder.idxOf lower := by
    refine lt_of_le_of_ne (Nat.not_lt.mp late) fun same => apart ?_
    exact (List.idxOf_inj (List.idxOf_lt_length_iff.mp (listed found))).mp same
  have ascends := List.pairwise_iff_getElem.mp (ordered.ascends acyclic) _ _ (listed found)
    (listed found') ahead
  rw [List.getElem_idxOf, List.getElem_idxOf] at ascends
  exact ascends rule below found found' builds

end Ordered

/-- Requests each of which gives for a unary rule numbers only of labels that the grammar has by
then. -/
def UnaryPermitted (grammar : Grammar) : List Request → Prop
  | [] => True
  | request :: rest =>
    (∀ rule, request = .one (.unary rule) →
      grammar.Registered rule.parent ∧ grammar.Registered rule.child) ∧
    UnaryPermitted (request.grow grammar) rest

theorem Ordered.request (ordered : grammar.Ordered) (request : Request)
    (registered : ∀ rule, request = .one (.unary rule) →
      grammar.Registered rule.parent ∧ grammar.Registered rule.child) :
    (request.grow grammar).Ordered := by
  cases request with
  | text lines =>
    rw [Request.grow, run_addText]
    exact Ordered.guarded.additions _ ordered
  | one call =>
    cases call with
    | label name => exact Edit.Keeps.discard (fun _ held => held.addLabel name) grammar ordered
    | word text => exact Edit.Keeps.discard (fun _ held => held.addWord text) grammar ordered
    | binary rule => exact Edit.Keeps.discard (fun _ held => held.addBinary rule) grammar ordered
    | unary rule =>
      refine (Ordered.guarded.unary rule).discard grammar ordered ?_
      have known := registered rule rfl
      simpa [Rule.labels, Rule.parent, Rule.children] using known
    | terminal parent => exact ordered.addTerminal parent
    | root top => exact ordered.addRoot top
    | lexical parent text =>
      exact Edit.Keeps.discard (fun _ held => held.addLexical parent text) grammar ordered
    | named addition => exact Ordered.guarded.named addition grammar ordered (by simp)

theorem Ordered.serve (ordered : grammar.Ordered) (requests : List Request)
    (permitted : grammar.UnaryPermitted requests) : (serve grammar requests).Ordered := by
  induction requests generalizing grammar with
  | nil => exact ordered
  | cons request rest ih =>
    obtain ⟨registered, later⟩ := permitted
    exact ih (ordered.request request registered) later

/-- Whatever is asked of a grammar, its order of the unary rules has each of them once. Where they
form no cycle, what builds the child of a rule is ahead of it; where they do, they are in the order
in which they were added. -/
theorem unaryOrder_bottomUp (requests : List Request)
    (permitted : empty.UnaryPermitted requests) :
    let grammar := serve empty requests
    grammar.unaryOrder.Perm (List.range grammar.unaryRules.size) ∧
      (grammar.Acyclic → ∀ number lower rule below,
        grammar.unaryRule? number = some rule → grammar.unaryRule? lower = some below →
        below.parent = rule.child →
        grammar.unaryOrder.idxOf lower < grammar.unaryOrder.idxOf number) ∧
      (¬ grammar.Acyclic → grammar.unaryOrder = List.range grammar.unaryRules.size) := by
  intro grammar
  have ordered : grammar.Ordered := Ordered.empty.serve requests permitted
  refine ⟨ordered.perm, ?_, ordered.as_added⟩
  intro acyclic number lower rule below found found' builds
  exact ordered.idxOf_lt_idxOf acyclic found found' builds

section Ladder

/-- Two labels one over the other, and a third one that comes later below them. -/
def ladder : List Request :=
  [.one (.label "row"), .one (.label "word"), .one (.unary ⟨0, 1⟩), .one (.label "letter"),
    .one (.unary ⟨1, 2⟩)]

theorem grow_label (name : String) (grammar : Grammar) :
    Request.grow grammar (.one (.label name)) = (addLabel name).grow grammar :=
  Edit.grow_discard _ grammar

theorem grow_unary (rule : UnaryRule) (grammar : Grammar) :
    Request.grow grammar (.one (.unary rule)) = (addUnary rule).grow grammar :=
  Edit.grow_discard _ grammar

theorem rung_eq : (addUnary ⟨0, 1⟩).grow twoLabels = reorder
    { labels := (Numbering.empty.push "row").push "word"
      unaryRules := Numbering.empty.push ⟨0, 1⟩
      unaryByParent := fileUnder {} 0 0 } := by
  rw [twoLabels_eq]
  exact grow_addUnary_of_new (by decide) (Numbering.find?_empty _) (by decide)

theorem letter_eq : (addLabel "letter").grow ((addUnary ⟨0, 1⟩).grow twoLabels) =
    { (addUnary ⟨0, 1⟩).grow twoLabels with
      labels := ((Numbering.empty.push "row").push "word").push "letter" } := by
  rw [rung_eq]
  refine grow_addLabel_of_new ?_ (by decide)
  change ((Numbering.empty.push "row").push "word").find? "letter" = none
  rw [Numbering.find?_push, Numbering.find?_push, Numbering.find?_empty]
  decide

theorem letter_labelCount :
    ((addLabel "letter").grow ((addUnary ⟨0, 1⟩).grow twoLabels)).labelCount = 3 := by
  rw [letter_eq]
  rfl

theorem serve_ladder : serve empty ladder =
    (addUnary ⟨1, 2⟩).grow ((addLabel "letter").grow ((addUnary ⟨0, 1⟩).grow twoLabels)) := by
  simp only [serve, ladder, List.foldl_cons, List.foldl_nil, grow_label, grow_unary, twoLabels]

theorem ladder_unaryRules :
    (serve empty ladder).unaryRules = (Numbering.empty.push ⟨0, 1⟩).push ⟨1, 2⟩ := by
  have before : ((addLabel "letter").grow ((addUnary ⟨0, 1⟩).grow twoLabels)).unaryRules =
      Numbering.empty.push ⟨0, 1⟩ := by
    rw [letter_eq, rung_eq]
    rfl
  have new : (Numbering.empty.push (⟨0, 1⟩ : UnaryRule)).find? ⟨1, 2⟩ = none := by
    rw [Numbering.find?_push, Numbering.find?_empty]
    decide
  rw [serve_ladder, grow_addUnary_of_new (by decide) (by rw [before]; exact new)
    (by rw [before]; decide), before]
  rfl

theorem ladder_permitted : empty.UnaryPermitted ladder := by
  have two : twoLabels.labelCount = 2 := by
    rw [twoLabels_eq]
    rfl
  simp only [ladder, UnaryPermitted, grow_label, grow_unary]
  refine ⟨by simp, by simp, ?_, by simp, ?_, trivial⟩
  · rintro rule same
    obtain rfl : (⟨0, 1⟩ : UnaryRule) = rule := by simpa using same
    change twoLabels.Registered 0 ∧ twoLabels.Registered 1
    rw [Registered, Registered, two]
    decide
  · rintro rule same
    obtain rfl : (⟨1, 2⟩ : UnaryRule) = rule := by simpa using same
    change Registered ((addLabel "letter").grow ((addUnary ⟨0, 1⟩).grow twoLabels)) 1 ∧
      Registered ((addLabel "letter").grow ((addUnary ⟨0, 1⟩).grow twoLabels)) 2
    rw [Registered, Registered, letter_labelCount]
    decide

theorem ladder_acyclic : (serve empty ladder).Acyclic := by
  have ranked : (serve empty ladder).Ranked fun label => 2 - label.toNat := by
    refine ⟨fun label _ => ?_, ?_⟩
    · rw [serve_ladder, labelCount_addUnary, letter_labelCount]
      omega
    · rw [ladder_unaryRules]
      decide
  exact ranked.acyclic

theorem unaryOrder_bottomUp_ladder :
    (serve empty ladder).unaryOrder.idxOf 1 < (serve empty ladder).unaryOrder.idxOf 0 := by
  obtain ⟨_, ascends, _⟩ := unaryOrder_bottomUp ladder ladder_permitted
  exact ascends ladder_acyclic 0 1 ⟨0, 1⟩ ⟨1, 2⟩ (by rw [unaryRule?, ladder_unaryRules]; rfl)
    (by rw [unaryRule?, ladder_unaryRules]; rfl) rfl

end Ladder

end Constituency.Grammar
