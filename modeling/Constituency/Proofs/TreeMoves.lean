import Mathlib
import Constituency.Tree.Moves
import Constituency.Proofs.Admitted
import Constituency.Proofs.GrownTree

/-!
Moves. Taking a subtree out and putting it beside an adjacent one leaves the words in their order,
so that every move leads to a contiguous tree; what the grammar admits of these is a parse of the
sentence whose spans and parents are accepted and make the same tree again.
-/

namespace Constituency.Tree

section Leaves

variable {tree node base : Tree} {path : Path}

@[simp] theorem leaves_setHead (head : Head) (tree : Tree) : (setHead head tree).leaves = tree.leaves := by
  cases tree <;> rfl

@[simp] theorem head_setHead (head : Head) (tree : Tree) : (setHead head tree).head = head := by
  cases tree <;> rfl

@[simp] theorem at?_nil (tree : Tree) : tree.at? [] = some tree := by
  cases tree <;> rfl

theorem eq_of_at?_nil {tree node : Tree} (here : tree.at? [] = some node) : tree = node :=
  Option.some.inj ((at?_nil tree).symm.trans here)

@[simp] theorem modify_nil (change : Tree → Tree) (tree : Tree) :
    tree.modify change [] = change tree := by
  cases tree <;> rfl

theorem mem_paths : path ∈ tree.paths ↔ ∃ node, tree.at? path = some node := by
  induction tree generalizing path with
  | leaf head position => cases path <;> simp [paths, at?]
  | branch head left right ihLeft ihRight =>
    cases path with
    | nil => simp [paths]
    | cons side path => cases side <;> simp [paths, at?, ihLeft, ihRight]

theorem length_paths (tree : Tree) : tree.paths.length = tree.nodeCount := by
  induction tree with
  | leaf head position => rfl
  | branch head left right ihLeft ihRight => simp [paths, nodeCount, ihLeft, ihRight]

theorem at?_modify (change : Tree → Tree) (here : tree.at? path = some node) :
    (tree.modify change path).at? path = some (change node) := by
  induction path generalizing tree with
  | nil =>
    obtain rfl := eq_of_at?_nil here
    simp
  | cons side path ih =>
    cases tree with
    | leaf => cases here
    | branch head left right => cases side <;> exact ih here

theorem exists_leaves_at (here : tree.at? path = some node) :
    ∃ front back, tree.leaves = front ++ node.leaves ++ back ∧
      ∀ change : Tree → Tree,
        (tree.modify change path).leaves = front ++ (change node).leaves ++ back := by
  induction path generalizing tree with
  | nil =>
    obtain rfl := eq_of_at?_nil here
    exact ⟨[], [], by simp, by simp⟩
  | cons side path ih =>
    cases tree with
    | leaf => cases here
    | branch head left right =>
      cases side with
      | left =>
        have below : left.at? path = some node := here
        obtain ⟨front, back, whole, changed⟩ := ih below
        exact ⟨front, back ++ right.leaves, by simp [leaves, whole],
          fun change => by simp [modify, leaves, changed]⟩
      | right =>
        have below : right.at? path = some node := here
        obtain ⟨front, back, whole, changed⟩ := ih below
        exact ⟨left.leaves ++ front, back, by simp [leaves, whole],
          fun change => by simp [modify, leaves, changed]⟩

theorem exists_leaves_remove (here : tree.at? path = some node)
    (out : tree.remove? path = some base) :
    ∃ front back, tree.leaves = front ++ node.leaves ++ back ∧ base.leaves = front ++ back := by
  induction path generalizing tree base with
  | nil => cases tree <;> cases out
  | cons side path ih =>
    cases tree with
    | leaf => cases here
    | branch head left right =>
      cases path with
      | nil =>
        cases side with
        | left =>
          obtain rfl := eq_of_at?_nil here
          cases out
          exact ⟨[], base.leaves, by simp [leaves], rfl⟩
        | right =>
          obtain rfl := eq_of_at?_nil here
          cases out
          exact ⟨base.leaves, [], by simp [leaves], by simp⟩
      | cons next path =>
        cases side with
        | left =>
          obtain ⟨left', out', rfl⟩ := Option.map_eq_some_iff.mp out
          have below : left.at? (next :: path) = some node := here
          obtain ⟨front, back, whole, rest⟩ := ih below out'
          exact ⟨front, back ++ right.leaves, by simp [leaves, whole], by simp [leaves, rest]⟩
        | right =>
          obtain ⟨right', out', rfl⟩ := Option.map_eq_some_iff.mp out
          have below : right.at? (next :: path) = some node := here
          obtain ⟨front, back, whole, rest⟩ := ih below out'
          exact ⟨left.leaves ++ front, back, by simp [leaves, whole], by simp [leaves, rest]⟩

theorem mem_adjacent {start stop : Nat} {anchor : Path} (next : anchor ∈ base.adjacent start stop) :
    ∃ beside, base.at? anchor = some beside ∧ (beside.stop = start ∨ beside.start = stop) := by
  obtain ⟨_, adjacent⟩ := List.mem_filter.mp next
  cases here : base.at? anchor with
  | none => simp [here] at adjacent
  | some beside => exact ⟨beside, rfl, by simpa [here] using adjacent⟩

theorem eq_of_append_cons {β : Type} {front back front' back' : List β} {pivot : β}
    (distinct : (front ++ pivot :: back).Nodup)
    (same : front ++ pivot :: back = front' ++ pivot :: back') : front = front' ∧ back = back' := by
  have new := (List.nodup_cons.mp (List.nodup_middle.mp distinct)).1
  rw [List.mem_append, not_or] at new
  have parts := (List.append_cons_inj_of_notMem new.1 new.2).mp same
  exact ⟨parts.1, parts.2.2⟩

/-- Beside an adjacent subtree the leaves of a subtree stand where they stood before. -/
theorem leaves_insertBeside {count : Nat} {anchor : Path} (whole : tree.leaves = List.range' 0 count)
    (here : tree.at? path = some node) (out : tree.remove? path = some base)
    (next : anchor ∈ base.adjacent node.start node.stop) (head : Head) :
    (base.insertBeside anchor node head).leaves = tree.leaves := by
  obtain ⟨front, back, parts, rest⟩ := exists_leaves_remove here out
  obtain ⟨beside, there, adjacent⟩ := mem_adjacent next
  obtain ⟨front', back', parts', changed⟩ := exists_leaves_at there
  have distinct : (front ++ back).Nodup := by
    have all : tree.leaves.Nodup := whole ▸ List.nodup_range'
    rw [parts, List.append_assoc] at all
    exact all.sublist (by simp)
  have same : front ++ back = front' ++ beside.leaves ++ back' := rest.symm.trans parts'
  obtain ⟨last, _, ahead, behind⟩ := List.range'_eq_append_iff.mp (whole.symm.trans parts)
  obtain ⟨first, _, before, own⟩ := List.range'_eq_append_iff.mp ahead.symm
  obtain ⟨_, starts, stops⟩ := contiguous_of_leaves own
  simp only [Nat.zero_add, Nat.mul_one] at starts stops behind
  rw [insertBeside, changed, parts]
  split
  · rename_i meets
    -- The last word before the node is the last leaf of both the words before it and `beside`.
    obtain ⟨earlier, word, concat, ends⟩ := beside.exists_leaves_concat
    have split : front = List.range' 0 word ++ [word] := by
      rw [before, show first = word + 1 by omega, List.range'_concat, Nat.zero_add, Nat.one_mul]
    rw [split, List.append_assoc, List.singleton_append] at distinct
    rw [split, concat, List.append_assoc, List.singleton_append, ← List.append_assoc front',
      List.append_assoc _ [word], List.singleton_append] at same
    obtain ⟨start, finish⟩ := eq_of_append_cons distinct same
    rw [leaves, split, concat, start, finish]
    simp
  · rename_i apart
    -- The first word after the node is the first leaf of both the words after it and `beside`.
    have begins : beside.start = node.stop := adjacent.resolve_left apart
    obtain ⟨later, cons⟩ := beside.exists_leaves_cons
    have inside : node.stop ∈ front ++ back := by
      rw [same, cons, begins]
      simp
    have after : node.stop ∈ back := by
      refine (List.mem_append.mp inside).resolve_left fun early => ?_
      rw [before, List.mem_range'_1] at early
      omega
    obtain ⟨more, split⟩ : ∃ more, back = node.stop :: more := by
      rw [behind] at after ⊢
      cases size : count - last with
      | zero => simp [size] at after
      | succ size => exact ⟨_, by rw [List.range'_succ, show last = node.stop by omega]⟩
    rw [split] at distinct
    rw [split, cons, begins, List.append_assoc, List.cons_append] at same
    obtain ⟨start, finish⟩ := eq_of_append_cons distinct same
    rw [leaves, split, cons, begins, start, finish]
    simp

end Leaves

section Admitted

variable {grammar : Grammar} {sentence : Sentence} {tree : Tree}

theorem admits_iff (contiguous : tree.parse.Contiguous) :
    tree.admits grammar sentence = true ↔
      (∀ span ∈ tree.parse.spans, grammar.contains span.rule = true ∧
        (span.isTerminal = true →
          span.label ∈ grammar.terminalsFor (sentence.number? span.start))) ∧
      grammar.isRoot tree.parse.label = true := by
  have top : tree.parse.top.label = tree.parse.label := congrArg Item.label tree.parse.top_item
  have spans : tree.linkedSpans.map Prod.fst = tree.parse.spans := spans_eq contiguous
  have whole := linkedSpans_eq contiguous
  have opened (span : Span) (parent : Option Nat) :
      (grammar.contains span.rule &&
        (!span.isTerminal ||
          (grammar.terminalsFor (sentence.number? span.start)).contains span.label) &&
        (parent.isSome || grammar.isRoot span.label)) = true ↔
      (grammar.contains span.rule = true ∧ (span.isTerminal = true →
        span.label ∈ grammar.terminalsFor (sentence.number? span.start))) ∧
        (parent.isSome = true ∨ grammar.isRoot span.label = true) := by
    cases span.isTerminal <;> simp
  simp only [admits, List.all_eq_true, opened]
  constructor
  · intro all
    refine ⟨fun span member => ?_, ?_⟩
    · rw [← spans] at member
      obtain ⟨entry, inside, rfl⟩ := List.mem_map.mp member
      exact (all entry inside).1
    · have root := (all (tree.parse.top, none) (by rw [whole]; exact List.mem_cons_self)).2
      exact top ▸ root.resolve_left (by simp)
  · rintro ⟨known, root⟩ entry member
    refine ⟨known entry.1 (spans ▸ List.mem_map_of_mem member), ?_⟩
    rw [whole] at member
    rcases List.mem_cons.mp member with rfl | below
    · exact .inr (top ▸ root)
    · obtain ⟨link, _, rfl⟩ := List.mem_map.mp below
      exact .inl rfl

theorem admits_iff_parses {α : Type} {problem : Problem α} (coherent : problem.grammar.Coherent)
    (contiguous : tree.parse.Contiguous) (starts : tree.start = 0)
    (stops : tree.stop = problem.length) :
    tree.admits problem.grammar problem.sentence = true ↔ problem.Parses tree.parse := by
  rw [admits_iff contiguous]
  constructor
  · rintro ⟨spans, root⟩
    exact
      { admits := .of_spans contiguous (by rw [stop_parse, stops])
          (fun span member => (spans span member).1) (fun span member => (spans span member).2)
        start_eq := tree.start_parse.trans starts
        stop_eq := tree.stop_parse.trans stops
        root := root }
  · intro parses
    exact ⟨fun span member => ⟨parses.admits.contains_rule coherent span member,
      parses.admits.allows_word span member⟩, parses.root⟩

theorem nodup_of_admits (coherent : grammar.Coherent) (contiguous : tree.parse.Contiguous)
    (admitted : tree.admits grammar sentence = true) : (tree.parse.spans.map Span.item).Nodup :=
  contiguous.nodup_items tree.flat_parse (coherent.unaryTables.item_not_mem_slots contiguous
    fun span member => (((admits_iff contiguous).mp admitted).1 span member).1)

end Admitted

section Moves

variable {grammar : Grammar} {sentence : Sentence} {tree other : Tree} {path : Path}

theorem of_mem_relabelings (member : other ∈ relabelings grammar sentence tree path) :
    other.leaves = tree.leaves ∧ other.admits grammar sentence = true ∧ other ≠ tree := by
  rw [relabelings] at member
  cases here : tree.at? path with
  | none => simp [here] at member
  | some node =>
    rw [here] at member
    obtain ⟨made, admitted⟩ := List.mem_filter.mp member
    obtain ⟨head, option, rfl⟩ := List.mem_map.mp made
    obtain ⟨front, back, whole, changed⟩ := exists_leaves_at here
    refine ⟨by rw [changed, leaves_setHead, whole], admitted, fun same => ?_⟩
    have there := at?_modify (setHead head) here
    rw [same, here, Option.some_inj] at there
    have heads : head ≠ node.head := by simpa using (List.mem_filter.mp option).2
    exact heads ((head_setHead head node).symm.trans (congrArg Tree.head there.symm))

theorem of_mem_reattachments {count : Nat} (whole : tree.leaves = List.range' 0 count)
    (member : other ∈ reattachments grammar sentence tree path) :
    other.leaves = tree.leaves ∧ other.admits grammar sentence = true ∧ other ≠ tree := by
  rw [reattachments] at member
  split at member
  · rename_i node base here out
    obtain ⟨anchor, next, inside⟩ := List.mem_flatMap.mp member
    obtain ⟨made, kept⟩ := List.mem_filter.mp inside
    obtain ⟨head, _, rfl⟩ := List.mem_map.mp made
    rw [Bool.and_eq_true, bne_iff_ne] at kept
    exact ⟨leaves_insertBeside whole here out next head, kept.1, fun same => kept.2 (by rw [same])⟩
  · cases member

theorem of_mem_moves {count : Nat} (contiguous : tree.parse.Contiguous) (starts : tree.start = 0)
    (stops : tree.stop = count) (member : other ∈ tree.moves grammar sentence path) :
    other.leaves = List.range' 0 count ∧ other.admits grammar sentence = true ∧ other ≠ tree := by
  have whole : tree.leaves = List.range' 0 count := by
    rw [leaves_of_contiguous contiguous, starts, stops, Nat.sub_zero]
  rw [← whole]
  exact (List.mem_append.mp member).elim of_mem_relabelings (of_mem_reattachments whole)

/-- Every move from a tree over a sentence leads to one tree that the grammar admits: its spans
stand parents first over contiguous children, they are accepted with the parents that the tree keeps
and make the tree again, its nodes and words are as many and in the same order, and it has other
spans than the tree before. -/
theorem moves_legal {spans : List Span} (built : grammar.Built)
    (made : Tree.ofSpans spans sentence.length = .ok tree)
    (member : other ∈ tree.moves grammar sentence path) :
    Parents.ofTree other.spans sentence.length = .ok other.parents ∧
      other.admits grammar sentence = true ∧
      other.parse.Contiguous ∧ other.spans = other.parse.spans ∧
      Tree.ofSpans other.spans sentence.length = .ok other ∧
      other.nodeCount = 2 * sentence.length - 1 ∧
      (other.spans.filter Span.isTerminal).map Span.start = List.range sentence.length ∧
      ¬ ∀ span, span ∈ other.spans ↔ span ∈ tree.spans := by
  obtain ⟨contiguous, starts, stops⟩ := of_ofSpans made
  obtain ⟨leaves, admitted, differ⟩ := of_mem_moves contiguous starts stops member
  obtain ⟨contiguous', starts', stops'⟩ := contiguous_of_leaves leaves
  rw [Nat.zero_add] at stops'
  have distinct := nodup_of_admits built.coherent contiguous' admitted
  have spans := spans_eq contiguous'
  refine ⟨ofTree_spans contiguous' distinct starts' stops', admitted, contiguous', spans,
    ofSpans_spans contiguous' distinct starts' stops', ?_, ?_, fun same => ?_⟩
  · have count := other.nodeCount_eq
    rw [leaves, List.length_range'] at count
    omega
  · rw [spans, contiguous'.starts_of_words, start_parse, stop_parse, starts', stops',
      List.range_eq_range']
    rfl
  · rw [spans, spans_eq contiguous] at same
    exact differ (parse_injective
      (contiguous'.eq_of_mem_spans_iff other.flat_parse contiguous tree.flat_parse same))

theorem exists_place_of_mem_moves (member : other ∈ tree.moves grammar sentence path) :
    ∃ place < tree.nodeCount, tree.paths[place]? = some path := by
  have listed : path ∈ tree.paths := by
    rw [mem_paths, ← Option.isSome_iff_exists, Option.isSome_iff_ne_none]
    intro missing
    simp [moves, relabelings, reattachments, missing] at member
  obtain ⟨place, here⟩ := List.mem_iff_getElem?.mp listed
  exact ⟨place, tree.length_paths ▸ (List.getElem?_eq_some_iff.mp here).1, here⟩

end Moves

section Row

/-- Two words under labels that make a row, below a label that does not. -/
def mislabelled : Tree := branch ⟨1, none⟩ (leaf ⟨1, none⟩ 0) (leaf ⟨1, some 0⟩ 1)

def relabelled : Tree := branch ⟨0, none⟩ (leaf ⟨1, none⟩ 0) (leaf ⟨1, some 0⟩ 1)

theorem mislabelled_made : Tree.ofSpans mislabelled.spans twoWords.length = .ok mislabelled := by
  have contiguous : mislabelled.parse.Contiguous := contiguous_branch.mpr ⟨rfl, trivial, trivial⟩
  exact ofSpans_spans contiguous (by decide) rfl rfl

theorem relabelled_mem : relabelled ∈ mislabelled.moves Grammar.row twoWords [] := by
  have contiguous : relabelled.parse.Contiguous := contiguous_branch.mpr ⟨rfl, trivial, trivial⟩
  have parses := Problem.row_parses (α := Unit) ⟨fun _ _ => (), fun _ _ _ => ()⟩ none
  have admitted : relabelled.admits Grammar.row twoWords = true :=
    (admits_iff_parses Grammar.row_built.coherent contiguous rfl rfl).mpr parses
  have registered : (0 : Label) ∈ Grammar.row.allLabels :=
    Grammar.mem_allLabels.mpr (parses.admits.registered Grammar.row_built.coherent)
  have option : (⟨0, none⟩ : Head) ∈ heads Grammar.row true :=
    List.mem_filter.mpr
      ⟨List.mem_append_left _ (List.mem_map_of_mem registered), parses.root⟩
  exact List.mem_append_left _ (List.mem_filter.mpr ⟨List.mem_map.mpr
    ⟨⟨0, none⟩, List.mem_filter.mpr ⟨option, by decide⟩, rfl⟩, admitted⟩)

theorem moves_legal_row :
    Parents.ofTree relabelled.spans 2 = .ok relabelled.parents ∧
      Tree.ofSpans relabelled.spans 2 = .ok relabelled ∧ relabelled.nodeCount = 3 := by
  obtain ⟨accepted, _, _, _, made, count, _⟩ :=
    moves_legal Grammar.row_built mislabelled_made relabelled_mem
  exact ⟨accepted, made, count⟩

end Row

end Constituency.Tree
