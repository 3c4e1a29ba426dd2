import Constituency.Proofs.BottomUp

/-!
Grammars as they come about: from the empty one by additions whose labels are in the label table.
Whatever is added, in whatever order, the tables of a grammar fit together.
-/

namespace Constituency.Grammar

/-- The grammar that an addition leaves behind, also where it fails. -/
def Edit.grow {β : Type} (edit : Edit β) (grammar : Grammar) : Grammar := (edit.run grammar).2

theorem Edit.bind_grow {β γ : Type} {kept : Grammar → Prop} {grammar : Grammar} {first : Edit β}
    {rest : β → Edit γ} (half : kept (first.grow grammar))
    (whole : ∀ value, (first.run grammar).1 = .ok value →
      kept ((rest value).grow (first.grow grammar))) :
    kept (Edit.grow (first >>= rest) grammar) := by
  have opened : Edit.grow (first >>= rest) grammar =
      (ExceptT.bindCont rest (first.run grammar).1 (first.run grammar).2).2 := rfl
  rw [opened]
  cases result : (first.run grammar).1 with
  | error error => exact half
  | ok value => exact whole value result

/-- Grammars built by additions of which each names only labels that the label table has by then. -/
inductive Built : Grammar → Prop
  | empty : Built empty
  | addLabel {grammar : Grammar} (name : String) :
    Built grammar → Built ((addLabel name).grow grammar)
  | addWord {grammar : Grammar} (word : String) :
    Built grammar → Built ((addWord word).grow grammar)
  | addBinary {grammar : Grammar} (rule : BinaryRule) :
    Built grammar → (∀ label ∈ (Rule.binary rule).labels, grammar.Registered label) →
      Built ((addBinary rule).grow grammar)
  | addUnary {grammar : Grammar} (rule : UnaryRule) :
    Built grammar → (∀ label ∈ (Rule.unary rule).labels, grammar.Registered label) →
      Built ((addUnary rule).grow grammar)
  | addTerminal {grammar : Grammar} (label : Label) :
    Built grammar → grammar.Registered label → Built ((addTerminal label).grow grammar)
  | addRoot {grammar : Grammar} (label : Label) :
    Built grammar → grammar.Registered label → Built ((addRoot label).grow grammar)
  | addLexical {grammar : Grammar} (label : Label) (word : String) :
    Built grammar → grammar.Registered label → Built ((addLexical label word).grow grammar)

/-- The tables of a grammar fit together. -/
structure Coherent (grammar : Grammar) : Prop where
  labels : grammar.labels.Sound
  labels_le : grammar.labels.size ≤ numberLimit
  words : grammar.words.Sound
  binary : Filed BinaryRule.parent grammar.binaryRules grammar.binaryByParent
  binary_registered : ∀ rule ∈ grammar.binaryRules.toList,
    ∀ label ∈ (Rule.binary rule).labels, grammar.Registered label
  unary : grammar.UnaryFiled
  unary_apart : ∀ rule ∈ grammar.unaryRules.toList, rule.parent ≠ rule.child
  order : grammar.unaryOrder.Perm (List.range grammar.unaryRules.size)
  ascends : grammar.Acyclic → grammar.Ascends grammar.unaryOrder
  terminals : grammar.terminals.Sound
  terminals_registered : ∀ label ∈ grammar.terminals.toList, grammar.Registered label
  roots : grammar.roots.Sound
  roots_registered : ∀ label ∈ grammar.roots.toList, grammar.Registered label
  entries : ∀ (word : Nat) (named : List Label), grammar.dictionary[word]? = some named →
    named.Nodup ∧ ∀ label ∈ named, label ∈ grammar.terminals.toList

variable {grammar : Grammar}

namespace Coherent

theorem empty : Coherent empty where
  labels := .empty
  labels_le := by decide
  words := .empty
  binary := .empty
  binary_registered := by simp [Grammar.empty, Numbering.toList]
  unary := ⟨.empty, by simp [Grammar.empty, Numbering.toList]⟩
  unary_apart := by simp [Grammar.empty, Numbering.toList]
  order := .refl _
  ascends := fun _ => .nil
  terminals := .empty
  terminals_registered := by simp [Grammar.empty, Numbering.toList]
  roots := .empty
  roots_registered := by simp [Grammar.empty, Numbering.toList]
  entries := by simp [Grammar.empty]

theorem withLabels (coherent : grammar.Coherent) {labels : Numbering String}
    (sound : labels.Sound) (room : labels.size ≤ numberLimit)
    (longer : grammar.labels.size ≤ labels.size) :
    Coherent { grammar with labels := labels } := by
  have registered {label : Label} (old : grammar.Registered label) :
      Registered { grammar with labels := labels } label := Nat.lt_of_lt_of_le old longer
  exact
    { coherent with
      labels := sound
      labels_le := room
      binary_registered := fun rule member label inside =>
        registered (coherent.binary_registered rule member label inside)
      unary := ⟨coherent.unary.filed, fun rule member =>
        (coherent.unary.registered rule member).imp registered registered⟩
      terminals_registered := fun label member =>
        registered (coherent.terminals_registered label member)
      roots_registered := fun label member =>
        registered (coherent.roots_registered label member) }

theorem addLabel (coherent : grammar.Coherent) (name : String) :
    ((addLabel name).grow grammar).Coherent := by
  simp only [Edit.grow, Grammar.addLabel, ExceptT.run, ExceptT.mk]
  split
  · exact coherent
  · rename_i new
    split
    · exact coherent
    · rename_i room
      exact coherent.withLabels (coherent.labels.push new)
        (by rw [Numbering.size_push]; omega) (by simp)

theorem addWord (coherent : grammar.Coherent) (word : String) :
    ((addWord word).grow grammar).Coherent := by
  simp only [Edit.grow, Grammar.addWord, ExceptT.run, ExceptT.mk]
  split
  · exact coherent
  · rename_i new
    exact
      { coherent with
        words := coherent.words.push new
        unary := ⟨coherent.unary.filed, coherent.unary.registered⟩ }

omit grammar in
theorem terminals_addWord (grammar : Grammar) (word : String) :
    ((Grammar.addWord word).grow grammar).terminals = grammar.terminals := by
  simp only [Edit.grow, Grammar.addWord, ExceptT.run, ExceptT.mk]
  split <;> rfl

theorem addBinary (coherent : grammar.Coherent) (rule : BinaryRule)
    (registered : ∀ label ∈ (Rule.binary rule).labels, grammar.Registered label) :
    ((addBinary rule).grow grammar).Coherent := by
  simp only [Edit.grow, Grammar.addBinary, ExceptT.run, ExceptT.mk]
  split
  · exact coherent
  · rename_i new
    split
    · exact coherent
    · rename_i room
      refine
        { coherent with
          binary := coherent.binary.push new (Nat.not_le.mp room)
          binary_registered := ?_
          unary := ⟨coherent.unary.filed, coherent.unary.registered⟩ }
      intro other member
      rw [Numbering.mem_toList_push] at member
      rcases member with old | rfl
      · exact coherent.binary_registered other old
      · exact registered

theorem addUnary (coherent : grammar.Coherent) (rule : UnaryRule)
    (registered : ∀ label ∈ (Rule.unary rule).labels, grammar.Registered label) :
    ((addUnary rule).grow grammar).Coherent := by
  simp only [Edit.grow, Grammar.addUnary, ExceptT.run, ExceptT.mk]
  split
  · exact coherent
  rename_i apart
  split
  · exact coherent
  rename_i new
  split
  · exact coherent
  rename_i room
  have unary : UnaryFiled
      { grammar with
        unaryRules := grammar.unaryRules.push rule
        unaryByParent :=
          fileUnder grammar.unaryByParent rule.parent grammar.unaryRules.size } := by
    refine ⟨coherent.unary.filed.push new (Nat.not_le.mp room), ?_⟩
    intro other member
    rw [Numbering.mem_toList_push] at member
    rcases member with old | rfl
    · exact coherent.unary.registered other old
    · exact ⟨registered other.parent (by simp [Rule.labels, Rule.parent]),
        registered other.child (by simp [Rule.labels, Rule.children])⟩
  refine
    { coherent with
      unary := ⟨unary.filed, unary.registered⟩
      unary_apart := ?_
      order := bottomUpOrder_perm _
      ascends := fun acyclic => unary.ascends_bottomUpOrder acyclic }
  intro other member
  rcases (Numbering.mem_toList_push _ _ _).mp member with old | rfl
  · exact coherent.unary_apart other old
  · exact apart

theorem addTerminal (coherent : grammar.Coherent) (label : Label)
    (registered : grammar.Registered label) : ((addTerminal label).grow grammar).Coherent := by
  simp only [Edit.grow, Grammar.addTerminal, ExceptT.run, ExceptT.mk]
  refine
    { coherent with
      unary := ⟨coherent.unary.filed, coherent.unary.registered⟩
      terminals := coherent.terminals.insert label
      terminals_registered := ?_
      entries := ?_ }
  · intro other member
    rw [coherent.terminals.mem_toList_insert] at member
    rcases member with rfl | old
    · exact registered
    · exact coherent.terminals_registered other old
  · intro word named found
    obtain ⟨distinct, terminal⟩ := coherent.entries word named found
    refine ⟨distinct, fun other member => ?_⟩
    rw [coherent.terminals.mem_toList_insert]
    exact .inr (terminal other member)

theorem addRoot (coherent : grammar.Coherent) (label : Label)
    (registered : grammar.Registered label) : ((addRoot label).grow grammar).Coherent := by
  simp only [Edit.grow, Grammar.addRoot, ExceptT.run, ExceptT.mk]
  refine
    { coherent with
      unary := ⟨coherent.unary.filed, coherent.unary.registered⟩
      roots := coherent.roots.insert label
      roots_registered := ?_ }
  intro other member
  rw [coherent.roots.mem_toList_insert] at member
  rcases member with rfl | old
  · exact registered
  · exact coherent.roots_registered other old

theorem addEntry (coherent : grammar.Coherent) (word : Nat) (label : Label)
    (terminal : label ∈ grammar.terminals.toList) :
    ((addEntry word label).grow grammar).Coherent := by
  simp only [Edit.grow, Grammar.addEntry, ExceptT.run, ExceptT.mk]
  refine
    { coherent with
      unary := ⟨coherent.unary.filed, coherent.unary.registered⟩
      entries := ?_ }
  intro other named found
  by_cases same : word = other
  · subst same
    rw [Std.HashMap.getElem?_alter_self, Option.some_inj] at found
    subst found
    have old : (grammar.dictionary[word]?.getD []).Nodup ∧
        ∀ label ∈ grammar.dictionary[word]?.getD [], label ∈ grammar.terminals.toList := by
      cases present : grammar.dictionary[word]? with
      | none => simp
      | some labels => exact coherent.entries word labels present
    split
    · exact old
    · rename_i new
      have fresh : label ∉ grammar.dictionary[word]?.getD [] := by simpa using new
      refine ⟨by simpa using old.1.concat fresh, fun other member => ?_⟩
      rw [List.mem_append, List.mem_singleton] at member
      rcases member with earlier | rfl
      · exact old.2 other earlier
      · exact terminal
  · rw [Std.HashMap.getElem?_alter, if_neg (by simpa using same)] at found
    exact coherent.entries other named found

theorem addLexical (coherent : grammar.Coherent) (label : Label) (word : String)
    (registered : grammar.Registered label) :
    ((addLexical label word).grow grammar).Coherent := by
  have withTerminal := coherent.addTerminal label registered
  have terminal : label ∈
      ((Grammar.addWord word).grow
        ((Grammar.addTerminal label).grow grammar)).terminals.toList := by
    rw [terminals_addWord]
    exact (coherent.terminals.mem_toList_insert label label).mpr (.inl rfl)
  refine Edit.bind_grow withTerminal fun _ _ => ?_
  refine Edit.bind_grow (withTerminal.addWord word) fun number _ => ?_
  have withEntry := (withTerminal.addWord word).addEntry number label terminal
  exact Edit.bind_grow withEntry fun _ _ => withEntry

end Coherent

section Registered

variable (coherent : grammar.Coherent) {number : Nat}

include coherent

theorem Coherent.registered_of_unaryRule? {rule : UnaryRule}
    (found : grammar.unaryRule? number = some rule) :
    grammar.Registered rule.parent ∧ grammar.Registered rule.child :=
  coherent.unary.registered rule ((Numbering.mem_toList_iff _ _).mpr ⟨number, found⟩)

theorem Coherent.registered_of_mem_binaryRules {rule : BinaryRule}
    (member : rule ∈ grammar.binaryRules.toList) :
    grammar.Registered rule.parent ∧ grammar.Registered rule.left ∧
      grammar.Registered rule.right := by
  have registered := coherent.binary_registered rule member
  simpa [Rule.labels, Rule.parent, Rule.children] using registered

theorem Coherent.registered_of_binaryRule? {rule : BinaryRule}
    (found : grammar.binaryRule? number = some rule) :
    grammar.Registered rule.parent ∧ grammar.Registered rule.left ∧
      grammar.Registered rule.right :=
  coherent.registered_of_mem_binaryRules ((Numbering.mem_toList_iff _ _).mpr ⟨number, found⟩)

end Registered

theorem Coherent.unaryTables (coherent : grammar.Coherent) : grammar.UnaryTables :=
  ⟨coherent.unary.filed, coherent.unary_apart, coherent.order⟩

theorem Built.coherent (built : grammar.Built) : grammar.Coherent := by
  induction built with
  | empty => exact .empty
  | addLabel name _ coherent => exact coherent.addLabel name
  | addWord word _ coherent => exact coherent.addWord word
  | addBinary rule _ registered coherent => exact coherent.addBinary rule registered
  | addUnary rule _ registered coherent => exact coherent.addUnary rule registered
  | addTerminal label _ registered coherent => exact coherent.addTerminal label registered
  | addRoot label _ registered coherent => exact coherent.addRoot label registered
  | addLexical label word _ registered coherent => exact coherent.addLexical label word registered

section Row

theorem grow_addLabel_of_new {name : String} (new : grammar.labels.find? name = none)
    (room : grammar.labels.size < numberLimit) :
    (addLabel name).grow grammar = { grammar with labels := grammar.labels.push name } := by
  simp only [Edit.grow, addLabel, ExceptT.run, ExceptT.mk, new, if_neg (Nat.not_le.mpr room)]

theorem grow_addBinary_of_new {rule : BinaryRule} (new : grammar.binaryRules.find? rule = none)
    (room : grammar.binaryRules.size < numberLimit) :
    (addBinary rule).grow grammar =
      { grammar with
        binaryRules := grammar.binaryRules.push rule
        binaryByParent :=
          fileUnder grammar.binaryByParent rule.parent grammar.binaryRules.size } := by
  simp only [Edit.grow, addBinary, ExceptT.run, ExceptT.mk, new, if_neg (Nat.not_le.mpr room)]

theorem grow_addUnary_of_new {rule : UnaryRule} (apart : rule.parent ≠ rule.child)
    (new : grammar.unaryRules.find? rule = none)
    (room : grammar.unaryRules.size < numberLimit) :
    (addUnary rule).grow grammar = reorder
      { grammar with
        unaryRules := grammar.unaryRules.push rule
        unaryByParent :=
          fileUnder grammar.unaryByParent rule.parent grammar.unaryRules.size } := by
  simp only [Edit.grow, addUnary, ExceptT.run, ExceptT.mk, new, if_neg (Nat.not_le.mpr room),
    if_neg apart]

theorem grow_addTerminal (grammar : Grammar) (label : Label) :
    (addTerminal label).grow grammar =
      { grammar with terminals := grammar.terminals.insert label } := rfl

theorem grow_addRoot (grammar : Grammar) (label : Label) :
    (addRoot label).grow grammar = { grammar with roots := grammar.roots.insert label } := rfl

theorem labelCount_addBinary (grammar : Grammar) (rule : BinaryRule) :
    ((addBinary rule).grow grammar).labelCount = grammar.labelCount := by
  simp only [Edit.grow, addBinary, ExceptT.run, ExceptT.mk]
  split
  · rfl
  · split <;> rfl

theorem labelCount_addUnary (grammar : Grammar) (rule : UnaryRule) :
    ((addUnary rule).grow grammar).labelCount = grammar.labelCount := by
  simp only [Edit.grow, addUnary, ExceptT.run, ExceptT.mk]
  split
  · rfl
  · split
    · rfl
    · split <;> rfl

def twoLabels : Grammar := (addLabel "word").grow ((addLabel "row").grow empty)

theorem twoLabels_eq : twoLabels = { labels := (Numbering.empty.push "row").push "word" } := by
  have first : (addLabel "row").grow empty = { labels := Numbering.empty.push "row" } :=
    grow_addLabel_of_new (Numbering.find?_empty _) (by decide)
  have new : (Numbering.empty.push "row").find? "word" = none := by
    rw [Numbering.find?_push, Numbering.find?_empty]
    decide
  rw [twoLabels, first]
  exact grow_addLabel_of_new new (by simp [numberLimit])

/-- Rows of words: a word, or a word and the rest of the row. -/
def row : Grammar :=
  (addUnary ⟨0, 1⟩).grow ((addBinary ⟨0, 1, 0⟩).grow
    ((addRoot 0).grow ((addTerminal 1).grow twoLabels)))

theorem row_eq : row = reorder
    { labels := (Numbering.empty.push "row").push "word"
      binaryRules := Numbering.empty.push ⟨0, 1, 0⟩
      binaryByParent := fileUnder {} 0 0
      unaryRules := Numbering.empty.push ⟨0, 1⟩
      unaryByParent := fileUnder {} 0 0
      terminals := Numbering.empty.insert 1
      roots := Numbering.empty.insert 0 } := by
  rw [row, twoLabels_eq, grow_addTerminal, grow_addRoot,
    grow_addBinary_of_new (Numbering.find?_empty _) (by decide),
    grow_addUnary_of_new (by decide) (Numbering.find?_empty _) (by decide)]
  rfl

theorem row_labelCount : row.labelCount = 2 := by
  rw [row, labelCount_addUnary, labelCount_addBinary, twoLabels_eq]
  rfl

theorem row_fits : row.labelCount < numberLimit := by
  rw [row_labelCount]
  decide

theorem row_built : row.Built := by
  have names : twoLabels.Built := .addLabel "word" (.addLabel "row" .empty)
  have known {label : Label} (named : label.toNat < 2) : twoLabels.Registered label := by
    rw [Registered, labelCount, twoLabels_eq]
    exact named
  have words := Built.addRoot 0 (.addTerminal 1 names (known (by decide))) (known (by decide))
  refine .addUnary _ (.addBinary _ words ?_) ?_
  · intro label member
    have either : label = 0 ∨ label = 1 ∨ label = 0 := by
      simpa [Rule.labels, Rule.parent, Rule.children] using member
    rcases either with rfl | rfl | rfl <;> exact known (by decide)
  · intro label member
    have either : label = 0 ∨ label = 1 := by
      simpa [Rule.labels, Rule.parent, Rule.children] using member
    rw [Registered, labelCount_addBinary]
    rcases either with rfl | rfl <;> exact known (by decide)

theorem row_acyclic : row.Acyclic := by
  have step {parent child : Label} (step : row.UnaryStep parent child) :
      parent = 0 ∧ child = 1 := by
    rw [UnaryStep, row_eq] at step
    simpa [reorder] using step
  intro label cycle
  obtain ⟨_, first, _⟩ := Relation.TransGen.head'_iff.mp cycle
  obtain ⟨_, _, last⟩ := Relation.TransGen.tail'_iff.mp cycle
  have parent := (step first).1
  rw [(step last).2] at parent
  cases parent

/-- Rows in which a word may also be a row by itself, without the rule that makes it one. -/
def twofold : Grammar := (addTerminal 0).grow row

theorem twofold_fits : twofold.labelCount < numberLimit := row_fits

theorem twofold_built : twofold.Built := by
  refine .addTerminal 0 row_built ?_
  rw [Registered, row_labelCount]
  decide

theorem twofold_acyclic : twofold.Acyclic := row_acyclic

/-- Rows with a rule that leads back. -/
def loop : Grammar := (addUnary ⟨1, 0⟩).grow row

theorem loop_fits : loop.labelCount < numberLimit := by
  rw [loop, labelCount_addUnary]
  exact row_fits

theorem loop_built : loop.Built := by
  refine .addUnary _ row_built ?_
  intro label member
  have either : label = 1 ∨ label = 0 := by
    simpa [Rule.labels, Rule.parent, Rule.children] using member
  rw [Registered, row_labelCount]
  rcases either with rfl | rfl <;> decide

theorem loop_unaryRules : loop.unaryRules = (Numbering.empty.push ⟨0, 1⟩).push ⟨1, 0⟩ := by
  have before : row.unaryRules = Numbering.empty.push ⟨0, 1⟩ := by
    rw [row_eq]
    rfl
  have new : row.unaryRules.find? ⟨1, 0⟩ = none := by
    rw [before, Numbering.find?_push, Numbering.find?_empty]
    decide
  rw [loop, grow_addUnary_of_new (by decide) new (by rw [before]; decide), before]
  rfl

theorem loop_cyclic : ¬ loop.Acyclic := by
  have down : loop.UnaryStep 0 1 := by
    rw [UnaryStep, loop_unaryRules]
    decide
  have up : loop.UnaryStep 1 0 := by
    rw [UnaryStep, loop_unaryRules]
    decide
  exact fun acyclic => acyclic 0 (.tail (.single down) up)

end Row

end Constituency.Grammar
