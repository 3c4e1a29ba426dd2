import Constituency.Proofs.ParseScore

/-!
Codes of rules. A code is the shape of a rule over its number within the shape, so that the rules of
a grammar and their codes are in one-to-one correspondence, and a search that makes a code from a
place in a table has the code of the rule there.
-/

namespace Constituency

theorem Shape.ofRank?_eq_some_iff {rank : Nat} {shape : Shape} :
    ofRank? rank = some shape ↔ shape.rank = rank := by
  constructor
  · intro found
    match rank with
    | 0 | 1 | 2 =>
      cases found
      rfl
    | _ + 3 => cases found
  · rintro rfl
    cases shape <;> rfl

namespace RuleCode

theorem pack_lt (shape : Shape) (number : Nat) : pack shape number < 1048576 := by
  have high : shape.rank ≤ 2 := by cases shape <;> decide
  change shape.rank * 65536 + number % 65536 < 1048576
  omega

theorem unpack?_eq_some_iff {shape : Shape} {number code : Nat} :
    unpack? code = some (shape, number) ↔ number < numberLimit ∧ pack shape number = code := by
  have parts : unpack? code = some (shape, number) ↔
      shape.rank = code / 65536 ∧ code % 65536 = number := by
    simp only [unpack?, Option.map_eq_some_iff, Prod.mk.injEq, Shape.ofRank?_eq_some_iff]
    constructor
    · rintro ⟨_, high, rfl, low⟩
      exact ⟨high, low⟩
    · rintro ⟨high, low⟩
      exact ⟨shape, high, rfl, low⟩
  rw [parts]
  change _ ↔ number < 65536 ∧ shape.rank * 65536 + number % 65536 = code
  omega

end RuleCode

namespace Grammar

variable {grammar : Grammar}

def rules (grammar : Grammar) : List Rule :=
  grammar.terminals.toList.map .terminal ++
    (grammar.unaryRules.toList.map .unary ++ grammar.binaryRules.toList.map .binary)

/-- The rule with a number within its shape; a terminal rule is the one of the label. -/
def numberedRule? (grammar : Grammar) (number : Nat) : Shape → Option Rule
  | .terminal =>
    let label := number.toUInt16
    if grammar.isTerminal label then some (.terminal label) else none
  | .unary => (grammar.unaryRule? number).map .unary
  | .binary => (grammar.binaryRule? number).map .binary

theorem ruleOfCode?_eq_some_iff {code : RuleCode} {rule : Rule} :
    grammar.ruleOfCode? code = some rule ↔
      ∃ shape number, code.unpack? = some (shape, number) ∧
        grammar.numberedRule? number shape = some rule := by
  have opened : grammar.ruleOfCode? code =
      code.unpack?.bind fun parts => grammar.numberedRule? parts.2 parts.1 := by
    rw [ruleOfCode?]
    cases code.unpack? with
    | none => rfl
    | some parts =>
      obtain ⟨shape, number⟩ := parts
      cases shape <;> rfl
  rw [opened, Option.bind_eq_some_iff, Prod.exists]

theorem shape_of_numberedRule? {number : Nat} {shape : Shape} {rule : Rule}
    (found : grammar.numberedRule? number shape = some rule) : rule.shape = shape := by
  cases shape with
  | terminal =>
    obtain ⟨_, same⟩ := Option.ite_none_right_eq_some.mp found
    obtain rfl := Option.some.inj same
    rfl
  | unary | binary =>
    obtain ⟨_, _, rfl⟩ := Option.map_eq_some_iff.mp found
    rfl

theorem Filed.find?_eq_some_iff {R : Type} [BEq R] [Hashable R] {parentOf : R → Label}
    {rules : Numbering R} {index : Std.HashMap Label (Array Nat)}
    (filed : Filed parentOf rules index) (rule : R) (number : Nat) :
    rules.find? rule = some number ↔ number < numberLimit ∧ rules.get? number = some rule := by
  rw [filed.sound rule number]
  exact ⟨fun found => ⟨(Numbering.lt_size_of_get? found).trans_le filed.size_le, found⟩, And.right⟩

namespace Coherent

variable (coherent : grammar.Coherent)

include coherent

theorem contains_iff (rule : Rule) : grammar.contains rule = true ↔ rule ∈ grammar.rules := by
  cases rule with
  | terminal label => simp [coherent.contains_terminal_iff, rules]
  | unary rule => simp [coherent.contains_unary_iff, rules]
  | binary rule => simp [coherent.contains_binary_iff, rules]

theorem ruleNumber?_eq_some_iff (rule : Rule) (number : Nat) :
    grammar.ruleNumber? rule = some number ↔
      number < numberLimit ∧ grammar.numberedRule? number rule.shape = some rule := by
  cases rule with
  | terminal label =>
    simp only [ruleNumber?, numberedRule?, Rule.shape, Option.ite_none_right_eq_some,
      Option.some.injEq, Rule.terminal.injEq]
    constructor
    · rintro ⟨terminal, rfl⟩
      have same : label.toNat.toUInt16 = label := by simp
      exact ⟨label.toNat_lt, by rwa [same], same⟩
    · rintro ⟨small, terminal, rfl⟩
      exact ⟨terminal, Nat.mod_eq_of_lt small⟩
  | unary rule =>
    simp [ruleNumber?, numberedRule?, Rule.shape, unaryRule?,
      coherent.unary.filed.find?_eq_some_iff]
  | binary rule =>
    simp [ruleNumber?, numberedRule?, Rule.shape, binaryRule?,
      coherent.binary.find?_eq_some_iff]

theorem ruleCode?_eq_some_iff (rule : Rule) (code : RuleCode) :
    grammar.ruleCode? rule = some code ↔ grammar.ruleOfCode? code = some rule := by
  simp only [ruleCode?, Option.map_eq_some_iff, ruleOfCode?_eq_some_iff,
    coherent.ruleNumber?_eq_some_iff, RuleCode.unpack?_eq_some_iff]
  constructor
  · rintro ⟨number, ⟨small, found⟩, packed⟩
    exact ⟨rule.shape, number, ⟨small, packed⟩, found⟩
  · rintro ⟨shape, number, ⟨small, packed⟩, found⟩
    obtain rfl := shape_of_numberedRule? found
    exact ⟨number, ⟨small, found⟩, packed⟩

theorem ruleCode?_of_numberedRule? {number : Nat} {shape : Shape} {rule : Rule}
    (small : number < numberLimit) (found : grammar.numberedRule? number shape = some rule) :
    grammar.ruleCode? rule = some (.pack shape number) := by
  obtain rfl := shape_of_numberedRule? found
  rw [ruleCode?, (coherent.ruleNumber?_eq_some_iff rule number).mpr ⟨small, found⟩]
  rfl

theorem ruleCode?_of_terminal {word : Option Nat} {label : Label}
    (member : label ∈ grammar.terminalsFor word) :
    grammar.ruleCode? (.terminal label) = some (.pack .terminal label.toNat) := by
  have allowed := (coherent.terminals.contains_iff label).mpr (coherent.mem_terminalsFor member)
  refine coherent.ruleCode?_of_numberedRule? label.toNat_lt ?_
  simpa [numberedRule?, isTerminal] using allowed

theorem ruleCode?_of_unaryRule? {number : Nat} {rule : UnaryRule}
    (found : grammar.unaryRule? number = some rule) :
    grammar.ruleCode? (.unary rule) = some (.pack .unary number) :=
  coherent.ruleCode?_of_numberedRule?
    ((Numbering.lt_size_of_get? found).trans_le coherent.unary.filed.size_le)
    (Option.map_eq_some_iff.mpr ⟨rule, found, rfl⟩)

theorem ruleCode?_of_binaryRule? {number : Nat} {rule : BinaryRule}
    (found : grammar.binaryRule? number = some rule) :
    grammar.ruleCode? (.binary rule) = some (.pack .binary number) :=
  coherent.ruleCode?_of_numberedRule?
    ((Numbering.lt_size_of_get? found).trans_le coherent.binary.size_le)
    (Option.map_eq_some_iff.mpr ⟨rule, found, rfl⟩)

end Coherent

end Grammar

/-- Searches score a place in a table of rules as the rule there is scored by the code that the
grammar has for it. -/
structure Problem.ScoresByCode {α : Type} [Score α] (problem : Problem α) : Prop where
  terminal : ∀ position, ∀ label ∈ problem.terminalsAt position,
    problem.terminalScore position label = problem.spanScore (.terminal position label)
  unary : ∀ start stop number rule, problem.grammar.unaryRule? number = some rule →
    problem.unaryScore start stop rule number = problem.spanScore (.unary start stop rule)
  binary : ∀ start split stop number rule, problem.grammar.binaryRule? number = some rule →
    problem.binaryModelScore start split stop number + problem.costOf ⟨start, stop, rule.parent⟩ =
      problem.spanScore (.binary start split stop rule)

theorem Grammar.Coherent.scoresByCode {α : Type} [Score α] {problem : Problem α}
    (coherent : problem.grammar.Coherent) : problem.ScoresByCode where
  terminal position _ member :=
    (Problem.spanScore_terminal coherent (coherent.mem_terminalsFor member) position).symm
  unary start stop _ _ found :=
    (Problem.spanScore_unary coherent.unaryTables found start stop).symm
  binary start split stop _ _ found :=
    (Problem.spanScore_binary coherent found start split stop).symm

namespace Grammar

/-- The rules of a grammar and their codes, all below twenty bits, are in one-to-one correspondence,
and no other number is a code. What a search packs of the shape and the place of a rule in its
table, or of the label of a terminal rule, is the code of that rule, so that it scores it alike. -/
theorem ruleCode?_exact {α : Type} [Score α] (problem : Problem α)
    (built : problem.grammar.Built) :
    let grammar := problem.grammar
    (∀ rule, (grammar.ruleCode? rule).isSome ↔ rule ∈ grammar.rules) ∧
      (∀ rule other code, grammar.ruleCode? rule = some code →
        grammar.ruleCode? other = some code → rule = other) ∧
      (∀ rule code, grammar.ruleCode? rule = some code →
        code < 2 ^ 20 ∧ grammar.ruleOfCode? code = some rule) ∧
      (∀ code rule, grammar.ruleOfCode? code = some rule → grammar.ruleCode? rule = some code) ∧
      (∀ code, (∀ rule ∈ grammar.rules, grammar.ruleCode? rule ≠ some code) →
        grammar.ruleOfCode? code = none) ∧
      (∀ word, ∀ label ∈ grammar.terminalsFor word,
        grammar.ruleCode? (.terminal label) = some (.pack .terminal label.toNat)) ∧
      (∀ number rule, grammar.unaryRule? number = some rule →
        grammar.ruleCode? (.unary rule) = some (.pack .unary number)) ∧
      (∀ number rule, grammar.binaryRule? number = some rule →
        grammar.ruleCode? (.binary rule) = some (.pack .binary number)) ∧
      problem.ScoresByCode := by
  intro grammar
  have coherent := built.coherent
  have codes := coherent.ruleCode?_eq_some_iff
  have known (rule : Rule) : (grammar.ruleCode? rule).isSome ↔ rule ∈ grammar.rules := by
    rw [ruleCode?, Option.isSome_map]
    exact coherent.contains_iff rule
  refine ⟨known, ?_, ?_, fun code rule => (codes rule code).mpr, ?_,
    fun _ _ => coherent.ruleCode?_of_terminal, fun _ _ => coherent.ruleCode?_of_unaryRule?,
    fun _ _ => coherent.ruleCode?_of_binaryRule?, coherent.scoresByCode⟩
  · intro rule other code found found'
    exact Option.some.inj (((codes rule code).mp found).symm.trans ((codes other code).mp found'))
  · intro rule code found
    obtain ⟨number, _, packed⟩ := Option.map_eq_some_iff.mp found
    exact ⟨packed ▸ RuleCode.pack_lt _ _, (codes rule code).mp found⟩
  · intro code none
    by_contra some
    obtain ⟨rule, found⟩ := Option.ne_none_iff_exists'.mp some
    have code_eq := (codes rule code).mpr found
    exact none rule ((known rule).mp (by rw [code_eq]; rfl)) code_eq

theorem ruleCode?_exact_row :
    row.ruleCode? (.terminal 1) = some 1 ∧ row.ruleCode? (.unary ⟨0, 1⟩) = some 65536 ∧
      row.ruleCode? (.binary ⟨0, 1, 0⟩) = some 131072 ∧
      row.ruleOfCode? 65536 = some (.unary ⟨0, 1⟩) := by
  obtain ⟨_, _, decoded, _, _, terminal, unary, binary, _⟩ :=
    ruleCode?_exact (.uniform row {}) row_built
  have word : (1 : Label) ∈ row.terminalsFor none := by
    rw [row_eq]
    simp [terminalsFor, reorder, Numbering.insert, Numbering.contains, Numbering.empty,
      Numbering.toList, Numbering.push]
  have cap : row.ruleCode? (.unary ⟨0, 1⟩) = some 65536 := unary 0 ⟨0, 1⟩ (by rw [row_eq]; rfl)
  exact ⟨terminal none 1 word, cap, binary 0 ⟨0, 1, 0⟩ (by rw [row_eq]; rfl), (decoded _ _ cap).2⟩

end Grammar

end Constituency
