import Mathlib.Tactic.Ring
import Constituency.Derivation.Parse
import Constituency.Proofs.Built
import Constituency.Proofs.FlatParse

/-!
Parses that a problem admits, over a grammar whose tables fit together: their labels and rules are
known, and no item repeats in them if unary rules form no cycle, or if none stands on another.
-/

namespace Constituency

namespace Grammar.Coherent

variable {grammar : Grammar} (coherent : grammar.Coherent)

include coherent

theorem contains_terminal_iff (label : Label) :
    grammar.contains (.terminal label) = true ↔ label ∈ grammar.terminals.toList := by
  rw [← coherent.terminals.contains_iff]
  simp only [contains, ruleNumber?, isTerminal]
  by_cases known : grammar.terminals.contains label = true <;> simp [known]

theorem contains_unary_iff (rule : UnaryRule) :
    grammar.contains (.unary rule) = true ↔ rule ∈ grammar.unaryRules.toList :=
  coherent.unaryTables.contains_iff rule

theorem contains_binary_iff (rule : BinaryRule) :
    grammar.contains (.binary rule) = true ↔ rule ∈ grammar.binaryRules.toList :=
  coherent.binary.sound.find?_isSome_iff rule

theorem isRoot_iff (label : Label) :
    grammar.isRoot label = true ↔ label ∈ grammar.roots.toList :=
  coherent.roots.contains_iff label

theorem mem_terminalsFor {word : Option Nat} {label : Label}
    (member : label ∈ grammar.terminalsFor word) : label ∈ grammar.terminals.toList := by
  rw [terminalsFor] at member
  cases entry : word.bind (grammar.dictionary[·]?) with
  | none => simpa [entry] using member
  | some named =>
    obtain ⟨number, _, found⟩ := Option.bind_eq_some_iff.mp entry
    rw [entry, Option.getD_some] at member
    exact (coherent.entries number named found).2 label member

theorem terminalsFor_nodup (word : Option Nat) : (grammar.terminalsFor word).Nodup := by
  rw [terminalsFor]
  cases entry : word.bind (grammar.dictionary[·]?) with
  | none => exact coherent.terminals.toList_nodup
  | some named =>
    obtain ⟨number, _, found⟩ := Option.bind_eq_some_iff.mp entry
    exact (coherent.entries number named found).1

end Grammar.Coherent

theorem Grammar.UnaryTables.item_not_mem_slots {grammar : Grammar}
    (tables : grammar.UnaryTables) {parse : Parse} (contiguous : parse.Contiguous)
    (known : ∀ span ∈ parse.spans, grammar.contains span.rule = true) :
    ∀ span ∈ parse.spans, span.item ∉ span.slots := by
  induction parse with
  | word label position => simp [Parse.spans, Parse.top, Span.slots, Span.terminal]
  | unary label child ih =>
    intro span member
    rcases List.mem_cons.mp member with rfl | below
    · intro slot
      have apart := tables.apart _ ((tables.contains_iff _).mp
        (known _ List.mem_cons_self))
      exact apart (congrArg Item.label (List.mem_singleton.mp slot))
    · exact ih contiguous (fun span below => known span (List.mem_cons_of_mem _ below)) span below
  | binary label left right ihLeft ihRight =>
    obtain ⟨meet, onLeft, onRight⟩ := contiguous
    have first := onLeft.start_lt_stop
    have second := onRight.start_lt_stop
    intro span member
    rcases List.mem_cons.mp member with rfl | below
    · simp only [Parse.top, Span.binary, Span.slots, Span.item, List.mem_cons, Item.mk.injEq,
        List.not_mem_nil, or_false, not_or, not_and]
      omega
    · rcases List.mem_append.mp below with inLeft | inRight
      · exact ihLeft onLeft (fun span inside => known span (by simp [Parse.spans, inside])) span inLeft
      · exact ihRight onRight (fun span inside => known span (by simp [Parse.spans, inside])) span
          inRight

namespace Problem.Admits

open Grammar

variable {α : Type} {problem : Problem α} {parse : Parse}

theorem contiguous (admits : problem.Admits parse) : parse.Contiguous := by
  induction parse with
  | word label position => trivial
  | unary label child ih => exact ih admits.2
  | binary label left right ihLeft ihRight =>
    obtain ⟨_, meet, onLeft, onRight⟩ := admits
    exact ⟨meet, ihLeft onLeft, ihRight onRight⟩

theorem stop_le (admits : problem.Admits parse) : parse.stop ≤ problem.length := by
  induction parse with
  | word label position => exact admits.1
  | unary label child ih => exact ih admits.2
  | binary label left right _ ihRight => exact ihRight admits.2.2.2

theorem registered (coherent : problem.grammar.Coherent) (admits : problem.Admits parse) :
    problem.grammar.Registered parse.label := by
  cases parse with
  | word label position =>
    exact coherent.terminals_registered label (coherent.mem_terminalsFor admits.2)
  | unary label child =>
    exact (coherent.unary.registered _ ((coherent.contains_unary_iff _).mp admits.1)).1
  | binary label left right =>
    exact (coherent.registered_of_mem_binaryRules ((coherent.contains_binary_iff _).mp admits.1)).1

theorem contains_rule (coherent : problem.grammar.Coherent) (admits : problem.Admits parse) :
    ∀ span ∈ parse.spans, problem.grammar.contains span.rule = true := by
  induction parse with
  | word label position =>
    intro span member
    rw [Parse.spans, List.mem_singleton] at member
    subst member
    exact (coherent.contains_terminal_iff label).mpr (coherent.mem_terminalsFor admits.2)
  | unary label child ih =>
    intro span member
    rcases List.mem_cons.mp member with rfl | below
    · exact admits.1
    · exact ih admits.2 span below
  | binary label left right ihLeft ihRight =>
    obtain ⟨known, _, onLeft, onRight⟩ := admits
    intro span member
    rcases List.mem_cons.mp member with rfl | below
    · exact known
    · rcases List.mem_append.mp below with inLeft | inRight
      · exact ihLeft onLeft span inLeft
      · exact ihRight onRight span inRight

theorem allows_word (admits : problem.Admits parse) :
    ∀ span ∈ parse.spans, span.isTerminal = true → span.label ∈ problem.terminalsAt span.start := by
  induction parse with
  | word label position =>
    intro span member _
    rw [List.mem_singleton.mp member]
    exact admits.2
  | unary label child ih =>
    intro span member terminal
    rcases List.mem_cons.mp member with rfl | below
    · cases terminal
    · exact ih admits.2 span below terminal
  | binary label left right ihLeft ihRight =>
    obtain ⟨_, _, onLeft, onRight⟩ := admits
    intro span member terminal
    rcases List.mem_cons.mp member with rfl | below
    · cases terminal
    · rcases List.mem_append.mp below with inLeft | inRight
      · exact ihLeft onLeft span inLeft terminal
      · exact ihRight onRight span inRight terminal

theorem of_spans (contiguous : parse.Contiguous) (inside : parse.stop ≤ problem.length)
    (known : ∀ span ∈ parse.spans, problem.grammar.contains span.rule = true)
    (words : ∀ span ∈ parse.spans, span.isTerminal = true →
      span.label ∈ problem.terminalsAt span.start) : problem.Admits parse := by
  induction parse with
  | word label position => exact ⟨inside, words _ (List.mem_singleton_self _) rfl⟩
  | unary label child ih =>
    exact ⟨known _ List.mem_cons_self, ih contiguous inside
      (fun span below => known span (List.mem_cons_of_mem _ below))
      (fun span below => words span (List.mem_cons_of_mem _ below))⟩
  | binary label left right ihLeft ihRight =>
    obtain ⟨meet, onLeft, onRight⟩ := contiguous
    have second := onRight.start_lt_stop
    have before : left.stop ≤ problem.length := by
      have last : right.stop ≤ problem.length := inside
      omega
    exact ⟨known _ List.mem_cons_self, meet,
      ihLeft onLeft before (fun span below => known span (by simp [Parse.spans, below]))
        (fun span below => words span (by simp [Parse.spans, below])),
      ihRight onRight inside (fun span below => known span (by simp [Parse.spans, below]))
        (fun span below => words span (by simp [Parse.spans, below]))⟩

section Ranked

variable {rank : Label → Nat}

theorem rank_le (coherent : problem.grammar.Coherent) (ranked : problem.grammar.Ranked rank)
    (admits : problem.Admits parse) {span : Span} (member : span ∈ parse.spans)
    (starts : span.start = parse.start) (stops : span.stop = parse.stop) :
    rank span.label ≤ rank parse.label := by
  induction parse with
  | word label position =>
    rw [Parse.spans, List.mem_singleton] at member
    subst member
    exact Nat.le_refl _
  | unary label child ih =>
    rcases List.mem_cons.mp member with rfl | below
    · exact Nat.le_refl _
    · have falls := ranked.falls _ ((coherent.contains_unary_iff _).mp admits.1)
      exact Nat.le_trans (ih admits.2 below starts stops) (Nat.le_of_lt falls)
  | binary label left right _ _ =>
    rcases List.mem_cons.mp member with rfl | below
    · exact Nat.le_refl _
    · obtain ⟨_, meet, onLeft, onRight⟩ := admits
      have first := onLeft.contiguous.start_lt_stop
      have second := onRight.contiguous.start_lt_stop
      simp only [Parse.start, Parse.stop] at starts stops
      rcases List.mem_append.mp below with inLeft | inRight
      · have within := onLeft.contiguous.mem_spans inLeft
        omega
      · have within := onRight.contiguous.mem_spans inRight
        omega

theorem nodup_of_ranked (coherent : problem.grammar.Coherent)
    (ranked : problem.grammar.Ranked rank) (admits : problem.Admits parse) :
    (parse.spans.map Span.item).Nodup := by
  induction parse with
  | word label position => simp [Parse.spans]
  | unary label child ih =>
    refine List.nodup_cons.mpr ⟨?_, ih admits.2⟩
    intro member
    obtain ⟨span, below, same⟩ := List.mem_map.mp member
    have falls := ranked.falls _ ((coherent.contains_unary_iff _).mp admits.1)
    have low := rank_le coherent ranked admits.2 below (congrArg Item.start same)
      (congrArg Item.stop same)
    have label : span.label = label := congrArg Item.label same
    rw [label] at low
    exact Nat.not_lt.mpr low falls
  | binary label left right ihLeft ihRight =>
    exact Parse.Contiguous.nodup_binary admits.contiguous (ihLeft admits.2.2.1)
      (ihRight admits.2.2.2)

/-- A parse over `width` words has `2 * width - 1` constituents, and at each of them a chain of at
most all labels. -/
theorem length_spans_le (coherent : problem.grammar.Coherent)
    (ranked : problem.grammar.Ranked rank) (admits : problem.Admits parse) :
    parse.spans.length ≤
      2 * (parse.stop - parse.start - 1) * problem.grammar.labelCount + rank parse.label + 1 := by
  induction parse with
  | word label position => simp [Parse.spans]
  | unary label child ih =>
    have falls : rank child.label < rank label :=
      ranked.falls _ ((coherent.contains_unary_iff _).mp admits.1)
    have below := ih admits.2
    change ((Parse.unary label child).top :: child.spans).length ≤
      2 * (child.stop - child.start - 1) * problem.grammar.labelCount + rank label + 1
    rw [List.length_cons]
    omega
  | binary label left right ihLeft ihRight =>
    obtain ⟨_, meet, onLeft, onRight⟩ := admits
    have first := onLeft.contiguous.start_lt_stop
    have second := onRight.contiguous.start_lt_stop
    have lowLeft := ranked.bounded _ (onLeft.registered coherent)
    have lowRight := ranked.bounded _ (onRight.registered coherent)
    have inLeft := ihLeft onLeft
    have inRight := ihRight onRight
    have width : right.stop - left.start - 1 =
        (left.stop - left.start - 1) + (right.stop - right.start - 1) + 1 := by omega
    change ((Parse.binary label left right).top :: (left.spans ++ right.spans)).length ≤
      2 * (right.stop - left.start - 1) * problem.grammar.labelCount + rank label + 1
    rw [List.length_cons, List.length_append, width]
    generalize problem.grammar.labelCount = count at *
    generalize left.stop - left.start - 1 = a at *
    generalize right.stop - right.start - 1 = b at *
    have room : 2 * (a + b + 1) * count = 2 * a * count + 2 * b * count + 2 * count := by ring
    omega

end Ranked

theorem nodup_of_flat (coherent : problem.grammar.Coherent) (flat : parse.Flat)
    (admits : problem.Admits parse) : (parse.spans.map Span.item).Nodup :=
  admits.contiguous.nodup_items flat
    (coherent.unaryTables.item_not_mem_slots admits.contiguous (admits.contains_rule coherent))

end Problem.Admits

theorem Parse.of_one_word {parse : Parse} (contiguous : parse.Contiguous)
    (starts : parse.start = 0) (stops : parse.stop = 1) :
    (∃ label, parse = .word label 0) ∨ ∃ label child, parse = .unary label child := by
  cases parse with
  | word label position =>
    obtain rfl : position = 0 := starts
    exact .inl ⟨label, rfl⟩
  | unary label child => exact .inr ⟨label, child, rfl⟩
  | binary label left right =>
    obtain ⟨meet, onLeft, onRight⟩ := contiguous
    change left.start = 0 at starts
    change right.stop = 1 at stops
    have first := onLeft.start_lt_stop
    have second := onRight.start_lt_stop
    omega

section Row

open Grammar

theorem row_unaryRules : row.unaryRules.toList = [⟨0, 1⟩] := by
  rw [row_eq]
  rfl

theorem mem_row_roots (label : Label) : label ∈ row.roots.toList ↔ label = 0 := by
  rw [row_eq]
  change label ∈ (Numbering.empty.insert 0).toList ↔ _
  simpa using Numbering.Sound.empty.mem_toList_insert 0 label

theorem mem_row_terminals (label : Label) : label ∈ row.terminals.toList ↔ label = 1 := by
  rw [row_eq]
  change label ∈ (Numbering.empty.insert 1).toList ↔ _
  simpa using Numbering.Sound.empty.mem_toList_insert 1 label

theorem mem_twofold_terminals (label : Label) :
    label ∈ twofold.terminals.toList ↔ label = 0 ∨ label = 1 := by
  have sound := row_built.coherent.terminals
  rw [twofold, grow_addTerminal, sound.mem_toList_insert, mem_row_terminals]

def twoWords : Sentence := ⟨#[⟨"one", none⟩, ⟨"two", none⟩]⟩

theorem Problem.row_parses {α : Type} (model : Model α) (cost : Option (Cost α)) :
    Problem.Parses ⟨row, twoWords, model, cost⟩
      (.binary 0 (.word 1 0) (.unary 0 (.word 1 1))) := by
  have coherent := row_built.coherent
  have terminal : 1 ∈ row.terminals.toList := (mem_row_terminals 1).mpr rfl
  have root : 0 ∈ row.roots.toList := (mem_row_roots 0).mpr rfl
  have binary : ⟨0, 1, 0⟩ ∈ row.binaryRules.toList := by
    rw [row_eq]
    decide
  have unary : ⟨0, 1⟩ ∈ row.unaryRules.toList := by simp [row_unaryRules]
  refine ⟨⟨?_, rfl, ⟨Nat.zero_lt_two, terminal⟩, ?_, Nat.one_lt_two, terminal⟩, rfl, rfl, ?_⟩
  · exact (coherent.contains_binary_iff _).mpr binary
  · exact (coherent.contains_unary_iff _).mpr unary
  · exact (coherent.isRoot_iff _).mpr root

def oneWord : Sentence := ⟨#[⟨"one", none⟩]⟩

/-- One word is a row in two ways: by itself, and by the rule that makes a row of a word. -/
theorem Problem.twofold_parses_iff {α : Type} (model : Model α) (cost : Option (Cost α))
    (parse : Parse) :
    Problem.Parses ⟨twofold, oneWord, model, cost⟩ parse ↔
      parse = .word 0 0 ∨ parse = .unary 0 (.word 1 0) := by
  have coherent := twofold_built.coherent
  have root (label : Label) : twofold.isRoot label = true ↔ label = 0 :=
    (coherent.isRoot_iff label).trans (mem_row_roots label)
  have known (rule : UnaryRule) : twofold.contains (.unary rule) = true ↔ rule = ⟨0, 1⟩ := by
    rw [coherent.contains_unary_iff]
    change rule ∈ row.unaryRules.toList ↔ _
    rw [row_unaryRules, List.mem_singleton]
  constructor
  · intro parses
    have contiguous := parses.admits.contiguous
    rcases Parse.of_one_word contiguous parses.start_eq parses.stop_eq with
      ⟨label, rfl⟩ | ⟨label, child, rfl⟩
    · obtain rfl : label = 0 := (root label).mp parses.root
      exact .inl rfl
    · obtain ⟨rfl, below⟩ := UnaryRule.mk.inj ((known _).mp parses.admits.1)
      rcases @Parse.of_one_word child contiguous parses.start_eq parses.stop_eq with
        ⟨label, rfl⟩ | ⟨label, lower, rfl⟩
      · obtain rfl : label = 1 := below
        exact .inr rfl
      · -- No rule leads on from the word.
        obtain ⟨again, -⟩ := UnaryRule.mk.inj ((known _).mp parses.admits.2.1)
        exact absurd (again.symm.trans below) (by decide)
  · rintro (rfl | rfl)
    · have own := (mem_twofold_terminals 0).mpr (.inl rfl)
      exact ⟨⟨Nat.zero_lt_one, own⟩, rfl, rfl, (root 0).mpr rfl⟩
    · have own := (mem_twofold_terminals 1).mpr (.inr rfl)
      exact ⟨⟨(known _).mpr rfl, Nat.zero_lt_one, own⟩, rfl, rfl, (root 0).mpr rfl⟩

theorem Problem.flat_of_twofold {α : Type} {model : Model α} {cost : Option (Cost α)}
    {parse : Parse} (parses : Problem.Parses ⟨twofold, oneWord, model, cost⟩ parse) :
    parse.Flat := by
  rcases (twofold_parses_iff model cost parse).mp parses with rfl | rfl
  · trivial
  · exact ⟨rfl, trivial⟩

end Row

end Constituency
