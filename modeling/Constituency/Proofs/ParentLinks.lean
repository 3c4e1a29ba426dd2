import Constituency.Proofs.SpanOrder

/-!
Parents found again. The spans of a parse without a repeated item, in whatever order they are
listed, have just the parents that they have in the parse, and what they score depends on the order
only where some rule is unknown: then the first one listed is reported.
-/

namespace Constituency

namespace Parse

/-- The spans of a parse, each with the one right above it. -/
def linksUnder (above : Option Span) : Parse → List (Span × Option Span)
  | word label position => [(top (word label position), above)]
  | unary label child =>
    let own := top (unary label child)
    (own, above) :: child.linksUnder (some own)
  | binary label left right =>
    let own := top (binary label left right)
    (own, above) :: (left.linksUnder (some own) ++ right.linksUnder (some own))

def links (parse : Parse) : List (Span × Option Span) := parse.linksUnder none

/-- Parents of spans, as these are listed, that are the ones they have in a parse. -/
structure Linked (parse : Parse) (spans : List Span) (parents : Parents) : Prop where
  length_eq : parents.length = spans.length
  parent_eq : ∀ span above, (span, above) ∈ parse.links →
    parents[spans.idxOf span]? = some (above.map spans.idxOf)

variable {parse : Parse} {spans : List Span}

theorem map_linksUnder (parse : Parse) (above : Option Span) :
    (parse.linksUnder above).map Prod.fst = parse.spans := by
  induction parse generalizing above with
  | word label position => rfl
  | unary label child ih => rw [linksUnder, List.map_cons, ih, spans]
  | binary label left right ihLeft ihRight =>
    rw [linksUnder, List.map_cons, List.map_append, ihLeft, ihRight, spans]

theorem exists_linksUnder (contiguous : parse.Contiguous) (above : Option Span) :
    ∃ later, parse.linksUnder above = (parse.top, above) :: later ∧
      ∀ link ∈ later, ∃ upper ∈ parse.spans, link.2 = some upper ∧ link.1.item ∈ upper.slots := by
  induction parse generalizing above with
  | word label position => exact ⟨[], rfl, by simp⟩
  | unary label child ih =>
    obtain ⟨later, whole, waits⟩ := ih contiguous (some (unary label child).top)
    refine ⟨_, by rw [linksUnder, whole], fun link member => ?_⟩
    rcases List.mem_cons.mp member with rfl | below
    · exact ⟨_, top_mem_spans _, rfl, child.top_item ▸ List.mem_singleton_self _⟩
    · obtain ⟨upper, inside, parent, slot⟩ := waits link below
      exact ⟨upper, List.mem_cons_of_mem _ inside, parent, slot⟩
  | binary label left right ihLeft ihRight =>
    obtain ⟨meet, onLeft, onRight⟩ := contiguous
    obtain ⟨inLeft, wholeLeft, waitsLeft⟩ := ihLeft onLeft (some (binary label left right).top)
    obtain ⟨inRight, wholeRight, waitsRight⟩ := ihRight onRight (some (binary label left right).top)
    refine ⟨_, by rw [linksUnder, wholeLeft, wholeRight], fun link member => ?_⟩
    rcases List.mem_append.mp member with member | member
    · rcases List.mem_cons.mp member with rfl | below
      · exact ⟨_, top_mem_spans _, rfl, by simp [slots_top_binary meet]⟩
      · obtain ⟨upper, inside, parent, slot⟩ := waitsLeft link below
        exact ⟨upper, List.mem_cons_of_mem _ (List.mem_append_left _ inside), parent, slot⟩
    · rcases List.mem_cons.mp member with rfl | below
      · exact ⟨_, top_mem_spans _, rfl, by simp [slots_top_binary meet]⟩
      · obtain ⟨upper, inside, parent, slot⟩ := waitsRight link below
        exact ⟨upper, List.mem_cons_of_mem _ (List.mem_append_right _ inside), parent, slot⟩

theorem linked_bySlot (contiguous : parse.Contiguous)
    (distinct : (parse.spans.map Span.item).Nodup) (perm : spans.Perm parse.spans) :
    parse.Linked spans (Parents.bySlot spans) := by
  have treelike := (treelike contiguous distinct).perm perm
  have at_idxOf {span : Span} (member : span ∈ parse.spans) :
      spans[spans.idxOf span]? = some span := List.getElem?_idxOf (perm.mem_iff.mpr member)
  refine ⟨by simp [Parents.bySlot], fun span above link => ?_⟩
  have member : span ∈ parse.spans := by
    rw [← map_linksUnder parse none]
    exact List.mem_map_of_mem link
  rw [Parents.bySlot, List.getElem?_map, at_idxOf member, Option.map_some]
  refine congrArg some ?_
  obtain ⟨later, whole, waits⟩ := exists_linksUnder contiguous none
  rw [links, whole] at link
  rcases List.mem_cons.mp link with root | below
  · cases root
    have free := (List.nodup_cons.mp (contiguous.items_perm.nodup_iff.mp distinct)).1
    rw [Option.map_none, List.findIdx?_eq_none_iff]
    intro upper inside
    rw [decide_eq_false_iff_not, top_item]
    exact fun slot => free (List.mem_flatMap.mpr ⟨upper, perm.mem_iff.mp inside, slot⟩)
  · obtain ⟨upper, inside, parent, slot⟩ := waits _ below
    rw [show above = some upper from parent]
    exact treelike.findIdx?_eq (at_idxOf inside) slot

theorem rootLabel?_eq (contiguous : parse.Contiguous)
    (distinct : (parse.spans.map Span.item).Nodup) (perm : spans.Perm parse.spans)
    (starts : parse.start = 0) :
    Derivation.rootLabel? spans = some parse.label := by
  have found := Parents.ofSpans_eq ((treelike contiguous distinct).perm perm)
  obtain ⟨_, root, span, only, here, _⟩ := Parents.of_ofTree
    (ofTree_eq contiguous distinct perm starts rfl)
  have tops := Parents.roots_bySlot spans
  rw [filter_root_of_perm contiguous distinct perm, only] at tops
  obtain rfl : span = parse.top := by simpa [here] using tops
  have label : parse.top.label = parse.label := congrArg Item.label parse.top_item
  simp [Derivation.rootLabel?, found, Parents.root?, only, here, label]

end Parse

namespace Problem

section Unknown

variable {α : Type} [Score α]

theorem addSpan_of_unknown (problem : Problem α) (total : α) {span : Span}
    (unknown : problem.grammar.contains span.rule = false) (parent : Option Label) :
    problem.addSpan total span parent =
      .error (.unknownRule (problem.grammar.describe span.rule)) := by
  have none : problem.grammar.ruleCode? span.rule = none := by
    rw [Grammar.ruleCode?, Option.map_eq_none_iff]
    simpa [Grammar.contains] using unknown
  rw [addSpan, none]

theorem foldlM_addSpan_of_unknown (problem : Problem α) {β : Type} (label : β → Option Label)
    {entries : List (Span × β)} {span : Span}
    (first : (entries.map Prod.fst).find? (fun span => !problem.grammar.contains span.rule) =
      some span) (total : α) :
    entries.foldlM (fun total entry => problem.addSpan total entry.1 (label entry.2)) total =
      .error (.unknownRule (problem.grammar.describe span.rule)) := by
  induction entries generalizing total with
  | nil => cases first
  | cons entry entries ih =>
    rw [List.foldlM_cons]
    cases known : problem.grammar.contains entry.1.rule with
    | true =>
      obtain ⟨next, ok⟩ := problem.exists_addSpan total known (label entry.2)
      rw [List.map_cons, List.find?_cons_of_neg (by simp [known])] at first
      rw [ok]
      exact ih first next
    | false =>
      rw [List.map_cons, List.find?_cons_of_pos (by simp [known])] at first
      obtain rfl := Option.some.inj first
      rw [problem.addSpan_of_unknown total known]
      rfl

theorem scoreWith_of_unknown (problem : Problem α) (secondOrder : Bool) {spans : List Span}
    {parents : Parents} (length : parents.length = spans.length) {span : Span}
    (first : spans.find? (fun span => !problem.grammar.contains span.rule) = some span) :
    problem.scoreWith secondOrder spans parents =
      .error (.unknownRule (problem.grammar.describe span.rule)) := by
  refine problem.foldlM_addSpan_of_unknown
    (fun (parent : Option Nat) =>
      if secondOrder then parent.bind fun p => spans[p]?.map Span.label else none)
    ?_ Score.zero
  rw [List.map_fst_zip length.ge]
  exact first

end Unknown

variable {problem : Problem EReal} {parse : Parse}

theorem exists_score_of_listing (problem : Problem EReal) (contiguous : parse.Contiguous)
    (starts : parse.start = 0) (stops : parse.stop = problem.length)
    (distinct : (parse.spans.map Span.item).Nodup) (secondOrder : Bool) :
    ∃ total, ∀ spans, spans.Perm parse.spans → problem.score secondOrder spans =
      match spans.find? fun span => !problem.grammar.contains span.rule with
      | none => .ok total
      | some span => .error (.unknownRule (problem.grammar.describe span.rule)) := by
  have accepted {spans : List Span} (perm : spans.Perm parse.spans) :=
    parse.ofTree_eq contiguous distinct perm starts stops
  by_cases known : ∀ span ∈ parse.spans, problem.grammar.contains span.rule = true
  · obtain ⟨total, ok⟩ : ∃ total, problem.score secondOrder parse.spans = .ok total := by
      rw [score, accepted (.refl _)]
      exact ⟨_, problem.scoreWith_bySlot secondOrder known⟩
    refine ⟨total, fun spans perm => ?_⟩
    have none : spans.find? (fun span => !problem.grammar.contains span.rule) = none := by
      rw [List.find?_eq_none]
      intro span member
      simpa using known span (perm.mem_iff.mp member)
    rw [none, problem.score_perm secondOrder contiguous distinct starts stops known perm, ok]
  · refine ⟨0, fun spans perm => ?_⟩
    push Not at known
    obtain ⟨span, member, unknown⟩ := known
    have some : (spans.find? fun span => !problem.grammar.contains span.rule).isSome := by
      rw [List.find?_isSome]
      exact ⟨span, perm.mem_iff.mpr member, by simpa using unknown⟩
    obtain ⟨first, found⟩ := Option.isSome_iff_exists.mp some
    rw [found, score, accepted perm]
    exact problem.scoreWith_of_unknown secondOrder (by simp [Parents.bySlot]) found

/-- The spans of a parse without a repeated item, however they are listed, are accepted with just
the parents that they have in the parse and have its label at the root. They score alike, also below
the labels of parents, where all of their rules are known; where not, the first unknown one is
reported. -/
theorem score_of_listing (problem : Problem EReal) {parse : Parse}
    (contiguous : parse.Contiguous) (starts : parse.start = 0)
    (stops : parse.stop = problem.length) (distinct : (parse.spans.map Span.item).Nodup)
    (secondOrder : Bool) :
    ∃ total, ∀ spans, spans.Perm parse.spans →
      (∃ parents, Parents.ofTree spans problem.length = .ok parents ∧
        parse.Linked spans parents) ∧
      Derivation.rootLabel? spans = some parse.label ∧
      problem.score secondOrder spans =
        match spans.find? fun span => !problem.grammar.contains span.rule with
        | none => .ok total
        | some span => .error (.unknownRule (problem.grammar.describe span.rule)) := by
  obtain ⟨total, scores⟩ :=
    problem.exists_score_of_listing contiguous starts stops distinct secondOrder
  refine ⟨total, fun spans perm => ⟨⟨.bySlot spans, ?_, ?_⟩, ?_, scores spans perm⟩⟩
  · exact parse.ofTree_eq contiguous distinct perm starts stops
  · exact Parse.linked_bySlot contiguous distinct perm
  · exact Parse.rootLabel?_eq contiguous distinct perm starts

theorem score_of_listing_row :
    let problem : Problem EReal := .uniform Grammar.row twoWords
    let spans := (Parse.binary 0 (.word 1 0) (.unary 0 (.word 1 1))).spans
    Derivation.rootLabel? spans.reverse = some 0 ∧
      ∃ total, problem.score true spans = .ok total ∧
        problem.score true spans.reverse = .ok total := by
  intro problem spans
  have parses : problem.Parses _ := row_parses problem.model problem.cost
  have known := parses.admits.contains_rule Grammar.row_built.coherent
  obtain ⟨total, listed⟩ := problem.score_of_listing parses.admits.contiguous parses.start_eq
    parses.stop_eq (by decide) true
  obtain ⟨_, _, first⟩ := listed spans (.refl _)
  obtain ⟨_, root, second⟩ := listed spans.reverse (List.reverse_perm _)
  rw [List.find?_eq_none.mpr fun span member => by simp [known span member]] at first
  rw [List.find?_eq_none.mpr fun span member => by
    simp [known span (List.mem_reverse.mp member)]] at second
  exact ⟨root, total, first, second⟩

theorem contains_twoLabels (rule : Rule) : Grammar.twoLabels.contains rule = false := by
  have coherent : Grammar.twoLabels.Coherent :=
    (Grammar.Built.addLabel "word" (.addLabel "row" .empty)).coherent
  rw [← Bool.not_eq_true]
  cases rule with
  | terminal label =>
    rw [coherent.contains_terminal_iff, Grammar.twoLabels_eq]
    exact List.not_mem_nil
  | unary rule =>
    rw [coherent.contains_unary_iff, Grammar.twoLabels_eq]
    exact List.not_mem_nil
  | binary rule =>
    rw [coherent.contains_binary_iff, Grammar.twoLabels_eq]
    exact List.not_mem_nil

/-- Which unknown rule is reported depends on the order in which the spans are listed. -/
theorem score_depends_on_listing :
    ¬ ∀ (problem : Problem EReal) (parse : Parse) (secondOrder : Bool) (spans others : List Span),
      parse.Contiguous → parse.start = 0 → parse.stop = problem.length →
      (parse.spans.map Span.item).Nodup → spans.Perm parse.spans → others.Perm parse.spans →
      problem.score secondOrder spans = problem.score secondOrder others := by
  intro alike
  let problem : Problem EReal := .uniform Grammar.twoLabels ⟨#[⟨"w", none⟩]⟩
  let top := Span.unary 0 1 ⟨0, 1⟩
  let word := Span.terminal 0 1
  have contiguous : (Parse.unary 0 (.word 1 0)).Contiguous := trivial
  have perm : [word, top].Perm (Parse.unary 0 (.word 1 0)).spans := .swap _ _ _
  have first (span : Span) (rest : List Span) :
      (span :: rest).find? (fun span => !problem.grammar.contains span.rule) = some span :=
    List.find?_cons_of_pos (by simp [problem, uniform, contains_twoLabels])
  obtain ⟨total, scores⟩ :=
    problem.exists_score_of_listing contiguous rfl rfl (by decide) false
  have same := alike problem _ false [top, word] [word, top] contiguous rfl rfl (by decide)
    (.refl _) perm
  rw [scores [top, word] (.refl _), scores [word, top] perm, first, first] at same
  have told : Grammar.twoLabels.describe top.rule = Grammar.twoLabels.describe word.rule :=
    DecodeError.unknownRule.inj (Except.error.inj same)
  rw [Grammar.twoLabels_eq] at told
  exact absurd told (by decide)

end Problem

end Constituency
