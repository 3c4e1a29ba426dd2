import Constituency.Proofs.Calls

/-!
The unary rules of a grammar after any requests, also such that give labels by number before the
grammar has them. Their tables fit together, and a cycle among them is found just if there is one.
-/

namespace Constituency.Grammar

open Text

variable {grammar : Grammar} {kept : Grammar → Prop}

/-- What an addition keeps in whatever grammar it is made. -/
def Edit.Keeps {β : Type} (kept : Grammar → Prop) (edit : Edit β) : Prop :=
  ∀ grammar : Grammar, kept grammar → kept (edit.grow grammar)

namespace Edit.Keeps

variable {β γ : Type} {edit : Edit β}

theorem bind {rest : β → Edit γ} (first : edit.Keeps kept)
    (later : ∀ value, (rest value).Keeps kept) : Edit.Keeps kept (edit >>= rest) :=
  fun grammar held =>
    Edit.bind_grow (first grammar held) fun value _ => later value _ (first grammar held)

theorem pure (value : β) : Edit.Keeps kept (pure value) := fun _ held => held

theorem discard (keeps : edit.Keeps kept) : Edit.Keeps kept (discard edit) := by
  intro grammar held
  rw [grow_discard]
  exact keeps grammar held

end Edit.Keeps

structure Preserved (kept : Grammar → Prop) : Prop where
  label : ∀ name, (addLabel name).Keeps kept
  word : ∀ text, (addWord text).Keeps kept
  binary : ∀ rule, (addBinary rule).Keeps kept
  unary : ∀ rule, (addUnary rule).Keeps kept
  terminal : ∀ parent, (addTerminal parent).Keeps kept
  root : ∀ top, (addRoot top).Keeps kept
  entry : ∀ word parent, (addEntry word parent).Keeps kept

namespace Preserved

variable (preserved : Preserved kept)

include preserved

theorem lexical (parent : Label) (text : String) : (addLexical parent text).Keeps kept :=
  (preserved.terminal parent).bind fun _ => (preserved.word text).bind fun number =>
    (preserved.entry number parent).bind fun _ => .pure number

theorem named (addition : Addition) : addition.apply.Keeps kept := by
  cases addition with
  | root label =>
    exact ((preserved.label label).bind fun top => (preserved.root top).bind fun _ =>
      .pure top).discard
  | binary parent left right =>
    exact ((preserved.label parent).bind fun _ => (preserved.label left).bind fun _ =>
      (preserved.label right).bind fun _ => preserved.binary _).discard
  | unary parent child =>
    exact ((preserved.label parent).bind fun _ => (preserved.label child).bind fun _ =>
      preserved.unary _).discard
  | terminal label =>
    exact ((preserved.label label).bind fun parent => (preserved.terminal parent).bind fun _ =>
      .pure parent).discard
  | lexical label word =>
    exact ((preserved.label label).bind fun parent => preserved.lexical parent word).discard

theorem call (call : Call) : call.edit.Keeps kept := by
  cases call with
  | label name => exact (preserved.label name).discard
  | word text => exact (preserved.word text).discard
  | binary rule => exact (preserved.binary rule).discard
  | unary rule => exact (preserved.unary rule).discard
  | terminal parent => exact preserved.terminal parent
  | root top => exact preserved.root top
  | lexical parent text => exact (preserved.lexical parent text).discard
  | named addition => exact preserved.named addition

theorem serve (held : kept grammar) (requests : List Request) : kept (serve grammar requests) := by
  rw [← perform_callsOf]
  exact List.foldlRecOn _ _ held fun grammar held call _ => preserved.call call grammar held

end Preserved

/-- The grammars that requests leave, whatever labels they give by number. -/
def Served (grammar : Grammar) : Prop := ∃ requests, serve empty requests = grammar

theorem Served.labels_sound (served : grammar.Served) : grammar.labels.Sound := by
  obtain ⟨requests, rfl⟩ := served
  have seen := seen_perform .empty (callsOf empty requests)
  rw [perform_callsOf] at seen
  exact seen.labels_sound

theorem Served.call (served : grammar.Served) (call : Call) : (call.edit.grow grammar).Served := by
  obtain ⟨requests, rfl⟩ := served
  refine ⟨requests ++ [.one call], ?_⟩
  rw [serve, List.foldl_append]
  rfl

theorem Served.edit {β : Type} {edit : Edit β} (served : grammar.Served) (call : Call)
    (same : call.edit = discard edit) : (edit.grow grammar).Served := by
  have grown : call.edit.grow grammar = edit.grow grammar := by rw [same, Edit.grow_discard]
  exact grown ▸ served.call call

theorem Built.served (built : grammar.Built) : grammar.Served := by
  induction built with
  | empty => exact ⟨[], rfl⟩
  | addLabel name _ served => exact served.edit (.label name) rfl
  | addWord word _ served => exact served.edit (.word word) rfl
  | addBinary rule _ _ served => exact served.edit (.binary rule) rfl
  | addUnary rule _ _ served => exact served.edit (.unary rule) rfl
  | addTerminal label _ _ served => exact served.call (.terminal label)
  | addRoot label _ _ served => exact served.call (.root label)
  | addLexical label word _ _ served => exact served.edit (.lexical label word) rfl

namespace UnaryTables

theorem addUnary (tables : grammar.UnaryTables) (rule : UnaryRule) :
    ((addUnary rule).grow grammar).UnaryTables := by
  simp only [Edit.grow, Grammar.addUnary, ExceptT.run, ExceptT.mk]
  split
  · exact tables
  rename_i apart
  split
  · exact tables
  rename_i new
  split
  · exact tables
  rename_i room
  refine ⟨tables.filed.push new (Nat.not_le.mp room), ?_, bottomUpOrder_perm _⟩
  intro other member
  rcases (Numbering.mem_toList_push _ _ _).mp member with old | rfl
  · exact tables.apart other old
  · exact apart

theorem preserved : Preserved UnaryTables := by
  have same {grammar next : Grammar} (tables : grammar.UnaryTables)
      (rules : next.unaryRules = grammar.unaryRules)
      (index : next.unaryByParent = grammar.unaryByParent)
      (order : next.unaryOrder = grammar.unaryOrder) : next.UnaryTables :=
    ⟨by rw [rules, index]; exact tables.filed, by rw [rules]; exact tables.apart,
      by rw [rules, order]; exact tables.order⟩
  constructor
  · intro name grammar tables
    simp only [Edit.grow]
    rcases run_addLabel name grammar with ⟨_, _, result⟩ | ⟨_, _, result⟩ | ⟨_, result⟩
    all_goals
      rw [result]
      exact same tables rfl rfl rfl
  · intro text grammar tables
    simp only [Edit.grow, Grammar.addWord, ExceptT.run, ExceptT.mk]
    split <;> exact same tables rfl rfl rfl
  · intro rule grammar tables
    simp only [Edit.grow, Grammar.addBinary, ExceptT.run, ExceptT.mk]
    split
    · exact tables
    · split <;> exact same tables rfl rfl rfl
  · exact fun rule grammar tables => tables.addUnary rule
  · exact fun parent grammar tables => same tables rfl rfl rfl
  · exact fun top grammar tables => same tables rfl rfl rfl
  · exact fun word parent grammar tables => same tables rfl rfl rfl

end UnaryTables

theorem Served.unaryTables (served : grammar.Served) : grammar.UnaryTables := by
  obtain ⟨requests, rfl⟩ := served
  refine UnaryTables.preserved.serve ?_ requests
  exact ⟨.empty, by simp [empty, Numbering.toList], .refl _⟩

def UnaryRegistered (grammar : Grammar) : Prop :=
  ∀ rule ∈ grammar.unaryRules.toList,
    grammar.Registered rule.parent ∧ grammar.Registered rule.child

/-- A cycle of unary rules is found just if there is one. What is found has at least three labels,
of which the last one is the first one again and the others are distinct, and a unary rule leads
from each to the next. -/
theorem unaryCycle?_exact (served : grammar.Served) (registered : grammar.UnaryRegistered) :
    (grammar.unaryCycle? = none ↔ grammar.Acyclic) ∧
      ∀ cycle, grammar.unaryCycle? = some cycle →
        3 ≤ cycle.length ∧ cycle.head? = cycle.getLast? ∧ cycle.dropLast.Nodup ∧
          cycle.IsChain grammar.UnaryStep := by
  have tables := served.unaryTables
  have filed : grammar.UnaryFiled := ⟨tables.filed, registered⟩
  rcases filed.unaryCycle?_ends with ⟨acyclic, none⟩ | ⟨cyclic, cycle, isCycle, found⟩
  · refine ⟨iff_of_true none acyclic, fun cycle found => ?_⟩
    rw [none] at found
    cases found
  · refine ⟨iff_of_false (by simp [found]) cyclic, fun cycle' found' => ?_⟩
    obtain rfl := Option.some.inj (found.symm.trans found')
    have linked : cycle.IsChain grammar.UnaryStep :=
      isCycle.linked.imp fun parent child => (filed.mem_unaryChildren parent child).mp
    refine ⟨?_, isCycle.closed, isCycle.distinct, linked⟩
    -- A closed chain of two labels would be a rule from a label to itself.
    match cycle, isCycle.long with
    | [first, last], _ =>
      have step : grammar.UnaryStep first last := by simpa using linked
      have closed : first = last := by simpa using isCycle.closed
      exact absurd closed (tables.apart _ step)
    | _ :: _ :: _ :: _, _ => simp

theorem unaryCycle?_exact_loop : ∃ cycle, loop.unaryCycle? = some cycle ∧ 3 ≤ cycle.length := by
  obtain ⟨none, found⟩ := unaryCycle?_exact loop_built.served loop_built.coherent.unary.registered
  obtain ⟨cycle, some⟩ := Option.ne_none_iff_exists'.mp (none.not.mpr loop_cyclic)
  exact ⟨cycle, some, (found cycle some).1⟩

end Constituency.Grammar
