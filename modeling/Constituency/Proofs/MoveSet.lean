import Mathlib
import Constituency.Proofs.TreeMoves

/-!
The whole set of moves. A tree is known from its leaves and from the heads at all its places, and a
node of a contiguous tree from its interval. So new heads at a node lead to all admitted trees that
differ there only, and hanging a node beside its neighbours leads to all admitted trees that are the
same without it; either way to each of them once.
-/

namespace Constituency.Tree

section Places

variable {tree node : Tree} {path rest : Path}

theorem paths_nodup (tree : Tree) : tree.paths.Nodup := by
  induction tree with
  | leaf head position => simp [paths]
  | branch head left right ihLeft ihRight =>
    have side (side : Side) : Function.Injective (side :: · : Path → Path) :=
      fun _ _ same => (List.cons.inj same).2
    have apart : List.Disjoint (left.paths.map (Side.left :: ·))
        (right.paths.map (Side.right :: ·)) := by
      simp [List.disjoint_left]
    refine List.nodup_cons.mpr ⟨by simp, ?_⟩
    exact (ihLeft.map (side .left)).append (ihRight.map (side .right)) apart

theorem at?_append (tree : Tree) (path rest : Path) :
    tree.at? (path ++ rest) = (tree.at? path).bind fun node => node.at? rest := by
  induction path generalizing tree with
  | nil => simp
  | cons side path ih =>
    cases tree with
    | leaf => rfl
    | branch head left right => cases side <;> exact ih _

theorem remove?_append {side : Side} (here : tree.at? path = some node) :
    tree.remove? (path ++ side :: rest) =
      (node.remove? (side :: rest)).map fun less => tree.modify (fun _ => less) path := by
  induction path generalizing tree with
  | nil =>
    obtain rfl := eq_of_at?_nil here
    simp
  | cons first path ih =>
    cases tree with
    | leaf => cases here
    | branch head left right =>
      obtain ⟨next, later, more⟩ := List.exists_cons_of_ne_nil
        (List.append_ne_nil_of_right_ne_nil path (List.cons_ne_nil side rest))
      cases first with
      | left =>
        have onLeft : left.at? path = some node := here
        have below := ih onLeft
        rw [more] at below
        have opened : (branch head left right).remove? (.left :: next :: later) =
          (left.remove? (next :: later)).map (branch head · right) := rfl
        rw [List.cons_append, more, opened, below, Option.map_map]
        rfl
      | right =>
        have onRight : right.at? path = some node := here
        have below := ih onRight
        rw [more] at below
        have opened : (branch head left right).remove? (.right :: next :: later) =
          (right.remove? (next :: later)).map (branch head left ·) := rfl
        rw [List.cons_append, more, opened, below, Option.map_map]
        rfl

theorem modify_modify (change change' : Tree → Tree) (tree : Tree) (path : Path) :
    (tree.modify change path).modify change' path = tree.modify (change' ∘ change) path := by
  induction path generalizing tree with
  | nil => simp
  | cons side path ih =>
    cases tree with
    | leaf => rfl
    | branch head left right => cases side <;> simp [modify, ih]

theorem modify_eq_self {change : Tree → Tree} (here : tree.at? path = some node)
    (same : change node = node) : tree.modify change path = tree := by
  induction path generalizing tree with
  | nil =>
    obtain rfl := eq_of_at?_nil here
    simpa using same
  | cons side path ih =>
    cases tree with
    | leaf => rfl
    | branch head left right =>
      cases side with
      | left => rw [modify, ih here]
      | right => rw [modify, ih here]

theorem contiguous_at (contiguous : tree.parse.Contiguous) (here : tree.at? path = some node) :
    node.parse.Contiguous ∧ tree.start ≤ node.start ∧ node.start < node.stop ∧
      node.stop ≤ tree.stop := by
  induction path generalizing tree with
  | nil =>
    obtain rfl := eq_of_at?_nil here
    have less := contiguous.start_lt_stop
    rw [start_parse, stop_parse] at less
    exact ⟨contiguous, le_rfl, less, le_rfl⟩
  | cons side path ih =>
    cases tree with
    | leaf => cases here
    | branch head left right =>
      obtain ⟨meet, onLeft, onRight⟩ := contiguous_branch.mp contiguous
      have first := onLeft.start_lt_stop
      have second := onRight.start_lt_stop
      simp only [start_parse, stop_parse] at first second
      cases side with
      | left =>
        obtain ⟨within, starts, less, stops⟩ := ih onLeft here
        exact ⟨within, starts, less, by simp only [stop]; omega⟩
      | right =>
        obtain ⟨within, starts, less, stops⟩ := ih onRight here
        exact ⟨within, by simp only [start]; omega, less, stops⟩

theorem narrower_at {side : Side} (contiguous : tree.parse.Contiguous)
    (here : tree.at? (side :: path) = some node) :
    node.stop - node.start < tree.stop - tree.start := by
  cases tree with
  | leaf => cases here
  | branch head left right =>
    obtain ⟨meet, onLeft, onRight⟩ := contiguous_branch.mp contiguous
    have first := (contiguous_at onLeft (at?_nil left)).2.2.1
    have second := (contiguous_at onRight (at?_nil right)).2.2.1
    simp only [start, stop]
    cases side with
    | left =>
      have within := contiguous_at onLeft here
      omega
    | right =>
      have within := contiguous_at onRight here
      omega

/-- In a contiguous tree no two places have subtrees over the same interval. -/
theorem path_unique {node' : Tree} {path' : Path} (contiguous : tree.parse.Contiguous)
    (here : tree.at? path = some node) (there : tree.at? path' = some node')
    (starts : node.start = node'.start) (stops : node.stop = node'.stop) : path = path' := by
  -- Below a node all intervals are narrower, and those on its two sides are apart.
  induction path generalizing tree path' with
  | nil =>
    cases path' with
    | nil => rfl
    | cons =>
      have less := narrower_at contiguous there
      rw [eq_of_at?_nil here, starts, stops] at less
      exact absurd less (Nat.lt_irrefl _)
  | cons side path ih =>
    cases path' with
    | nil =>
      have less := narrower_at contiguous here
      rw [eq_of_at?_nil there, starts, stops] at less
      exact absurd less (Nat.lt_irrefl _)
    | cons side' path' =>
      cases tree with
      | leaf => cases here
      | branch head left right =>
        obtain ⟨meet, onLeft, onRight⟩ := contiguous_branch.mp contiguous
        cases side with
        | left =>
          cases side' with
          | left => rw [ih onLeft here there]
          | right =>
            have within := contiguous_at onLeft here
            have within' := contiguous_at onRight there
            omega
        | right =>
          cases side' with
          | left =>
            have within := contiguous_at onRight here
            have within' := contiguous_at onLeft there
            omega
          | right => rw [ih onRight here there]

theorem spans_at (contiguous : tree.parse.Contiguous) (here : tree.at? path = some node) :
    ∀ span ∈ node.parse.spans, span ∈ tree.parse.spans := by
  induction path generalizing tree with
  | nil =>
    obtain rfl := eq_of_at?_nil here
    exact fun _ => id
  | cons side path ih =>
    cases tree with
    | leaf => cases here
    | branch head left right =>
      obtain ⟨meet, onLeft, onRight⟩ := contiguous_branch.mp contiguous
      intro span member
      cases side with
      | left => exact mem_spans_branch (List.mem_append_left _ (ih onLeft here span member))
      | right => exact mem_spans_branch (List.mem_append_right _ (ih onRight here span member))

end Places

section Heads

variable {grammar : Grammar} {sentence : Sentence} {tree node : Tree} {path : Path}

theorem allLabels_nodup (coherent : grammar.Coherent) : grammar.allLabels.Nodup := by
  refine List.Nodup.map_on ?_ List.nodup_range
  intro first inside second inside' same
  have number {number : Nat} (inside : number ∈ List.range grammar.labelCount) :
      number.toUInt16.toNat = number :=
    Nat.mod_eq_of_lt (Nat.lt_of_lt_of_le (List.mem_range.mp inside) coherent.labels_le)
  rw [← number inside, same, number inside']

theorem heads_nodup (coherent : grammar.Coherent) (root : Bool) : (heads grammar root).Nodup := by
  have plain : Function.Injective fun label : Label => (⟨label, none⟩ : Head) :=
    fun _ _ same => (Head.mk.inj same).1
  have topped : Function.Injective fun rule : UnaryRule =>
      (⟨rule.child, some rule.parent⟩ : Head) := by
    intro rule other same
    obtain ⟨children, parents⟩ := Head.mk.inj same
    cases rule
    cases other
    simp_all
  have apart : List.Disjoint (grammar.allLabels.map fun label => (⟨label, none⟩ : Head))
      (grammar.unaryRules.toList.map fun rule => (⟨rule.child, some rule.parent⟩ : Head)) := by
    simp [List.disjoint_left]
  have all := ((allLabels_nodup coherent).map plain).append
    (coherent.unary.filed.sound.toList_nodup.map topped) apart
  exact all.filter _

theorem head_mem_heads (coherent : grammar.Coherent) (contiguous : tree.parse.Contiguous)
    (admitted : tree.admits grammar sentence = true) (here : tree.at? path = some node) :
    node.head ∈ heads grammar path.isEmpty := by
  obtain ⟨known, accepted⟩ := (admits_iff contiguous).mp admitted
  have rule {span : Span} (member : span ∈ node.parse.spans) :
      grammar.contains span.rule = true := (known span (spans_at contiguous here span member)).1
  have root : (!path.isEmpty || grammar.isRoot node.head.outer) = true := by
    cases path with
    | nil =>
      obtain rfl := eq_of_at?_nil here
      rw [label_parse] at accepted
      simp [accepted]
    | cons side path => rfl
  have option : node.head ∈ grammar.allLabels.map (fun label => (⟨label, none⟩ : Head)) ++
      grammar.unaryRules.toList.map fun rule => (⟨rule.child, some rule.parent⟩ : Head) := by
    have topped {label top : Label} (below : Parse) (under : below.label = label)
        (member : (Parse.unary top below).top ∈ node.parse.spans) :
        (⟨label, some top⟩ : Head) ∈ grammar.unaryRules.toList.map
          fun rule => (⟨rule.child, some rule.parent⟩ : Head) := by
      have listed := (coherent.contains_unary_iff ⟨top, below.label⟩).mp (rule member)
      rw [← under]
      exact List.mem_map_of_mem listed
    have plain {label : Label} (registered : grammar.Registered label) :
        (⟨label, none⟩ : Head) ∈ grammar.allLabels.map fun label => (⟨label, none⟩ : Head) :=
      List.mem_map_of_mem (Grammar.mem_allLabels.mpr registered)
    rw [List.mem_append]
    rcases node with ⟨⟨label, _ | top⟩, position⟩ | ⟨⟨label, _ | top⟩, left, right⟩
    · have terminal := (coherent.contains_terminal_iff label).mp (rule List.mem_cons_self)
      exact .inl (plain (coherent.terminals_registered label terminal))
    · exact .inr (topped (.word label position) rfl List.mem_cons_self)
    · have listed := (coherent.contains_binary_iff ⟨label, left.parse.label, right.parse.label⟩).mp
        (rule List.mem_cons_self)
      exact .inl (plain (coherent.binary_registered _ listed _ List.mem_cons_self))
    · exact .inr (topped (.binary label left.parse right.parse) rfl List.mem_cons_self)
  exact List.mem_filter.mpr ⟨option, root⟩

end Heads

section Alike

/-- The same words, and the same heads at all places but one. -/
def AlikeBut (path : Path) (tree other : Tree) : Prop :=
  other.leaves = tree.leaves ∧
    ∀ place, place ≠ path → (other.at? place).map head = (tree.at? place).map head

variable {tree other node : Tree} {path : Path}

theorem eq_of_heads (heads : ∀ place, (other.at? place).map head = (tree.at? place).map head) :
    other.leaves.length = tree.leaves.length ∧ (other.leaves = tree.leaves → other = tree) := by
  induction tree generalizing other with
  | leaf own position =>
    cases other with
    | branch => simpa [at?] using heads [.left]
    | leaf own' position' =>
      have same : own' = own := Option.some.inj (heads [])
      exact ⟨rfl, fun words => by rw [same, (List.cons.inj words).1]⟩
  | branch own left right ihLeft ihRight =>
    cases other with
    | leaf => simpa [at?] using heads [.left]
    | branch own' left' right' =>
      have same : own' = own := Option.some.inj (heads [])
      obtain ⟨first, onLeft⟩ := @ihLeft left' fun place => heads (.left :: place)
      obtain ⟨second, onRight⟩ := @ihRight right' fun place => heads (.right :: place)
      refine ⟨by simp only [leaves, List.length_append, first, second], fun words => ?_⟩
      obtain ⟨before, after⟩ := List.append_inj words first
      rw [same, onLeft before, onRight after]

theorem AlikeBut.exists_head (alike : AlikeBut path tree other)
    (here : tree.at? path = some node) : ∃ head, other = tree.modify (setHead head) path := by
  induction path generalizing tree other with
  | nil =>
    obtain ⟨words, heads⟩ := alike
    refine ⟨other.head, ?_⟩
    rw [modify_nil]
    -- A place that only one of the trees has would have a head in that tree only.
    cases tree with
    | leaf own position =>
      cases other with
      | branch => simpa [at?] using heads [.left] (by simp)
      | leaf own' position' => rw [(List.cons.inj words).1]; rfl
    | branch own left right =>
      cases other with
      | leaf => simpa [at?] using heads [.left] (by simp)
      | branch own' left' right' =>
        obtain ⟨first, onLeft⟩ :=
          @eq_of_heads left left' fun place => heads (.left :: place) (by simp)
        obtain ⟨_, onRight⟩ :=
          @eq_of_heads right right' fun place => heads (.right :: place) (by simp)
        obtain ⟨before, after⟩ := List.append_inj words first
        rw [onLeft before, onRight after]
        rfl
  | cons side path ih =>
    obtain ⟨words, heads⟩ := alike
    cases tree with
    | leaf => cases here
    | branch own left right =>
      cases other with
      | leaf =>
        cases side with
        | left => simpa [at?] using heads [.right] (by simp)
        | right => simpa [at?] using heads [.left] (by simp)
      | branch own' left' right' =>
        -- On the side that the path does not take all heads are the same, and so is the subtree.
        have same : own' = own := Option.some.inj (heads [] (by simp))
        cases side with
        | left =>
          obtain ⟨second, onRight⟩ :=
            @eq_of_heads right right' fun place => heads (.right :: place) (by simp)
          obtain ⟨before, after⟩ := List.append_inj' words second
          have alike : AlikeBut path left left' :=
            ⟨before, fun place apart => heads (.left :: place) (by simpa using apart)⟩
          obtain ⟨head, changed⟩ := ih alike here
          exact ⟨head, by rw [same, onRight after, changed]; rfl⟩
        | right =>
          obtain ⟨first, onLeft⟩ :=
            @eq_of_heads left left' fun place => heads (.left :: place) (by simp)
          obtain ⟨before, after⟩ := List.append_inj words first
          have alike : AlikeBut path right right' :=
            ⟨after, fun place apart => heads (.right :: place) (by simpa using apart)⟩
          obtain ⟨head, changed⟩ := ih alike here
          exact ⟨head, by rw [same, onLeft before, changed]; rfl⟩

theorem head_at_modify {place : Path} (head : Head) (apart : place ≠ path) :
    ((tree.modify (setHead head) path).at? place).map Tree.head =
      (tree.at? place).map Tree.head := by
  induction path generalizing tree place with
  | nil =>
    obtain ⟨side, rest, rfl⟩ := List.exists_cons_of_ne_nil apart
    cases tree with
    | leaf => simp [setHead, at?]
    | branch => cases side <;> simp [setHead, at?]
  | cons side path ih =>
    cases tree with
    | leaf => rfl
    | branch own left right =>
      cases place with
      | nil => cases side <;> rfl
      | cons side' place =>
        cases side <;> cases side'
        case left.left => exact ih fun same => apart (congrArg _ same)
        case right.right => exact ih fun same => apart (congrArg _ same)
        all_goals rfl

/-- A new head at a node makes just the trees that are alike but for that node. -/
theorem alikeBut_iff (here : tree.at? path = some node) :
    AlikeBut path tree other ↔ ∃ head, other = tree.modify (setHead head) path := by
  constructor
  · exact fun alike => alike.exists_head here
  · rintro ⟨head, rfl⟩
    obtain ⟨front, back, whole, changed⟩ := exists_leaves_at here
    refine ⟨by rw [changed, leaves_setHead, whole], fun place apart => head_at_modify head apart⟩

end Alike

section Hanging

variable {tree other node base beside : Tree} {path place anchor : Path}

theorem exists_insertBeside (there : base.at? anchor = some beside) (head : Head) :
    ∃ side, (base.insertBeside anchor node head).at? (anchor ++ [side]) = some node ∧
      (base.insertBeside anchor node head).remove? (anchor ++ [side]) = some base := by
  have joined := at?_modify
    (fun beside => if beside.stop = node.start then branch head beside node
      else branch head node beside) there
  have back (change : Tree → Tree) :
      (base.modify change anchor).modify (fun _ => beside) anchor = base := by
    rw [modify_modify]
    exact modify_eq_self there rfl
  by_cases meets : beside.stop = node.start
  · rw [if_pos meets] at joined
    refine ⟨.right, ?_, ?_⟩
    · rw [insertBeside, at?_append, joined]
      exact at?_nil node
    · rw [insertBeside, remove?_append joined]
      exact congrArg some (back _)
  · rw [if_neg meets] at joined
    refine ⟨.left, ?_, ?_⟩
    · rw [insertBeside, at?_append, joined]
      exact at?_nil node
    · rw [insertBeside, remove?_append joined]
      exact congrArg some (back _)

/-- Wherever a subtree hangs in a contiguous tree, it hangs beside a node that is adjacent to it
in the tree without it. -/
theorem exists_anchor (contiguous : other.parse.Contiguous) (here : other.at? place = some node)
    (out : other.remove? place = some base) :
    ∃ anchor above, other.at? anchor = some above ∧
      anchor ∈ base.adjacent node.start node.stop ∧
      other = base.insertBeside anchor node above.head := by
  obtain rfl | ⟨anchor, side, rfl⟩ := place.eq_nil_or_concat'
  · cases other <;> cases out
  obtain ⟨above, there, below⟩ := Option.bind_eq_some_iff.mp ((at?_append ..).symm.trans here)
  rw [remove?_append there] at out
  have within := (contiguous_at contiguous there).1
  -- The sibling stands at the anchor of the tree without the node, and joining the two gives back
  -- what stands there in the whole tree.
  have joins {beside : Tree} (sibling : above.remove? [side] = some beside)
      (adjacent : beside.stop = node.start ∨ beside.start = node.stop)
      (joined : (if beside.stop = node.start then branch above.head beside node
        else branch above.head node beside) = above) :
      anchor ∈ base.adjacent node.start node.stop ∧
        other = base.insertBeside anchor node above.head := by
    rw [sibling] at out
    obtain rfl := Option.some.inj out
    have stands := at?_modify (fun _ => beside) there
    refine ⟨List.mem_filter.mpr ⟨mem_paths.mpr ⟨_, stands⟩, by simpa [stands] using adjacent⟩, ?_⟩
    rw [insertBeside, modify_modify]
    exact (modify_eq_self there joined).symm
  refine ⟨anchor, above, there, ?_⟩
  cases above with
  | leaf => cases below
  | branch head left right =>
    obtain ⟨meet, onLeft, onRight⟩ := contiguous_branch.mp within
    cases side with
    | left =>
      obtain rfl := eq_of_at?_nil below
      have first := (contiguous_at onLeft (at?_nil _)).2.2.1
      have second := (contiguous_at onRight (at?_nil right)).2.2.1
      exact joins rfl (.inr meet.symm) (if_neg (by omega))
    | right =>
      obtain rfl := eq_of_at?_nil below
      exact joins rfl (.inl meet) (if_pos meet)

end Hanging

section MoveSet

variable {grammar : Grammar} {sentence : Sentence} {tree other node base : Tree} {path : Path}

theorem eq_of_sorted_spans (contiguous : tree.parse.Contiguous)
    (contiguous' : other.parse.Contiguous)
    (same : Span.sorted tree.spans = Span.sorted other.spans) : tree = other := by
  rw [spans_eq contiguous, spans_eq contiguous'] at same
  apply parse_injective
  exact contiguous.eq_of_sorted_eq tree.flat_parse contiguous' other.flat_parse same

theorem sorted_spans_nodup {trees : List Tree} (distinct : trees.Nodup)
    (contiguous : ∀ tree ∈ trees, tree.parse.Contiguous) :
    (trees.map fun tree => Span.sorted tree.spans).Nodup := by
  refine distinct.map_on ?_
  intro tree member other member' same
  exact eq_of_sorted_spans (contiguous tree member) (contiguous other member') same

theorem mem_relabelings (coherent : grammar.Coherent) (contiguous : tree.parse.Contiguous)
    (here : tree.at? path = some node) :
    other ∈ relabelings grammar sentence tree path ↔
      other.admits grammar sentence = true ∧ other ≠ tree ∧ AlikeBut path tree other := by
  rw [alikeBut_iff here]
  constructor
  · intro member
    obtain ⟨_, admitted, differs⟩ := of_mem_relabelings member
    rw [relabelings, here] at member
    obtain ⟨head, _, rfl⟩ := List.mem_map.mp (List.mem_filter.mp member).1
    exact ⟨admitted, differs, head, rfl⟩
  · rintro ⟨admitted, differs, head, rfl⟩
    have changed := at?_modify (setHead head) here
    obtain ⟨front, back, whole, words⟩ := exists_leaves_at here
    have leaves : (tree.modify (setHead head) path).leaves = tree.leaves := by
      rw [words, leaves_setHead, whole]
    rw [leaves_of_contiguous contiguous] at leaves
    have option := head_mem_heads coherent (contiguous_of_leaves leaves).1 admitted changed
    rw [head_setHead] at option
    have new : (head != node.head) = true := by
      rw [bne_iff_ne]
      rintro rfl
      apply differs
      exact modify_eq_self here (by cases node <;> rfl)
    rw [relabelings, here]
    exact List.mem_filter.mpr
      ⟨List.mem_map_of_mem (List.mem_filter.mpr ⟨option, new⟩), admitted⟩

theorem relabelings_nodup (coherent : grammar.Coherent) (here : tree.at? path = some node) :
    (relabelings grammar sentence tree path).Nodup := by
  rw [relabelings, here]
  refine List.Nodup.filter _ (List.Nodup.map ?_ ((heads_nodup coherent _).filter _))
  intro head head' same
  have stands (head : Head) : ((tree.modify (setHead head) path).at? path).map Tree.head =
      some head := by
    rw [at?_modify _ here, Option.map_some, head_setHead]
  have first := congrArg (fun other : Tree => (other.at? path).map Tree.head) same
  simp only [stands] at first
  exact Option.some.inj first

theorem mem_reattachments (coherent : grammar.Coherent) {count : Nat}
    (whole : tree.leaves = List.range' 0 count) (here : tree.at? path = some node) :
    other ∈ reattachments grammar sentence tree path ↔
      other.leaves = tree.leaves ∧ other.admits grammar sentence = true ∧ other ≠ tree ∧
        ∃ base place, tree.remove? path = some base ∧ other.at? place = some node ∧
          other.remove? place = some base := by
  constructor
  · intro member
    obtain ⟨leaves, admitted, differs⟩ := of_mem_reattachments whole member
    rw [reattachments, here] at member
    cases out : tree.remove? path with
    | none => simp [out] at member
    | some base =>
      simp only [out] at member
      obtain ⟨anchor, next, inside⟩ := List.mem_flatMap.mp member
      obtain ⟨head, _, rfl⟩ := List.mem_map.mp (List.mem_filter.mp inside).1
      obtain ⟨beside, there, _⟩ := mem_adjacent next
      obtain ⟨side, hangs, rest⟩ := exists_insertBeside there head
      exact ⟨leaves, admitted, differs, base, _, rfl, hangs, rest⟩
  · rintro ⟨leaves, admitted, differs, base, place, out, hangs, rest⟩
    have contiguous := (contiguous_of_leaves whole).1
    have contiguous' := (contiguous_of_leaves (leaves.trans whole)).1
    obtain ⟨anchor, above, there, next, made⟩ := exists_anchor contiguous' hangs rest
    have option := head_mem_heads coherent contiguous' admitted there
    have new : (Span.sorted other.spans != Span.sorted tree.spans) = true := by
      rw [bne_iff_ne]
      exact fun same => differs (eq_of_sorted_spans contiguous' contiguous same)
    rw [reattachments, here, out]
    refine List.mem_flatMap.mpr ⟨anchor, next, List.mem_filter.mpr ⟨?_, by simp [admitted, new]⟩⟩
    rw [made]
    exact List.mem_map_of_mem option

theorem reattachments_nodup (coherent : grammar.Coherent) {count : Nat}
    (whole : tree.leaves = List.range' 0 count) (here : tree.at? path = some node) :
    (reattachments grammar sentence tree path).Nodup := by
  have all {other : Tree} (member : other ∈ reattachments grammar sentence tree path) :
      other.parse.Contiguous :=
    (contiguous_of_leaves ((of_mem_reattachments whole member).1.trans whole)).1
  rw [reattachments, here] at all ⊢
  cases out : tree.remove? path with
  | none => exact List.nodup_nil
  | some base =>
    simp only [out] at all ⊢
    rw [List.nodup_flatMap]
    constructor
    · intro anchor next
      obtain ⟨beside, there, _⟩ := mem_adjacent next
      refine List.Nodup.filter _ ((heads_nodup coherent _).map ?_)
      intro head head' same
      have joined (head : Head) : ((base.insertBeside anchor node head).at? anchor).map Tree.head =
          some head := by
        rw [insertBeside, at?_modify _ there, Option.map_some]
        split <;> rfl
      have first := congrArg (fun other : Tree => (other.at? anchor).map Tree.head) same
      simp only [joined] at first
      exact Option.some.inj first
    · -- The node hangs at one place only, so that the anchor can be read off the whole tree.
      have distinct : (base.adjacent node.start node.stop).Nodup := base.paths_nodup.filter _
      refine distinct.pairwise_of_forall_ne ?_
      intro anchor next anchor' next' apart
      rw [Function.onFun, List.disjoint_left]
      intro other inside inside'
      apply apart
      have contiguous := all (List.mem_flatMap.mpr ⟨anchor, next, inside⟩)
      have hangs {anchor : Path} (next : anchor ∈ base.adjacent node.start node.stop)
          {heads : List Head}
          (inside : other ∈ (heads.map (base.insertBeside anchor node)).filter fun other =>
            admits grammar sentence other && Span.sorted other.spans != Span.sorted tree.spans) :
          ∃ side, other.at? (anchor ++ [side]) = some node := by
        obtain ⟨head, _, rfl⟩ := List.mem_map.mp (List.mem_filter.mp inside).1
        obtain ⟨beside, there, _⟩ := mem_adjacent next
        obtain ⟨side, hangs, _⟩ := exists_insertBeside there head
        exact ⟨side, hangs⟩
      obtain ⟨side, first⟩ := hangs next inside
      obtain ⟨side', second⟩ := hangs next' inside'
      exact (List.append_inj' (path_unique contiguous first second rfl rfl) rfl).1

/-- The moves at a node are complete and free of repeats. New heads lead to just the admitted trees
that differ from the tree at that node only; and hanging the node elsewhere leads to just the other
admitted trees over the sentence in which the node hangs somewhere, as it is, and which are the same
as the tree once the node has been taken out of both. Neither list has two trees with the same
spans. -/
theorem moves_complete {spans : List Span} (built : grammar.Built)
    (made : Tree.ofSpans spans sentence.length = .ok tree) (here : tree.at? path = some node) :
    (∀ other, other ∈ relabelings grammar sentence tree path ↔
      other.admits grammar sentence = true ∧ other ≠ tree ∧ AlikeBut path tree other) ∧
    (∀ other, other ∈ reattachments grammar sentence tree path ↔
      (∃ spans', Tree.ofSpans spans' sentence.length = .ok other) ∧
        other.admits grammar sentence = true ∧ other ≠ tree ∧
        ∃ base place, place ≠ [] ∧ other.at? place = some node ∧
          tree.remove? path = some base ∧ other.remove? place = some base) ∧
    ((relabelings grammar sentence tree path).map fun other => Span.sorted other.spans).Nodup ∧
    ((reattachments grammar sentence tree path).map
      fun other => Span.sorted other.spans).Nodup := by
  obtain ⟨contiguous, starts, stops⟩ := of_ofSpans made
  have coherent := built.coherent
  have whole : tree.leaves = List.range' 0 sentence.length := by
    rw [leaves_of_contiguous contiguous, starts, stops, Nat.sub_zero]
  have within {other : Tree} (leaves : other.leaves = tree.leaves) :
      other.parse.Contiguous ∧ other.start = 0 ∧ other.stop = 0 + sentence.length :=
    contiguous_of_leaves (leaves.trans whole)
  refine ⟨fun other => mem_relabelings coherent contiguous here, fun other => ?_, ?_, ?_⟩
  · rw [mem_reattachments coherent whole here]
    constructor
    · rintro ⟨leaves, admitted, differs, base, place, out, hangs, rest⟩
      obtain ⟨contiguous', starts', stops'⟩ := within leaves
      rw [Nat.zero_add] at stops'
      have distinct := nodup_of_admits coherent contiguous' admitted
      refine ⟨⟨_, ofSpans_spans contiguous' distinct starts' stops'⟩, admitted, differs, base,
        place, ?_, hangs, out, rest⟩
      rintro rfl
      cases other <;> cases rest
    · rintro ⟨⟨_, made'⟩, admitted, differs, base, place, _, hangs, out, rest⟩
      obtain ⟨contiguous', starts', stops'⟩ := of_ofSpans made'
      have leaves : other.leaves = tree.leaves := by
        rw [whole, leaves_of_contiguous contiguous', starts', stops', Nat.sub_zero]
      exact ⟨leaves, admitted, differs, base, place, out, hangs, rest⟩
  · exact sorted_spans_nodup (relabelings_nodup coherent here)
      fun other member => (within (of_mem_relabelings member).1).1
  · exact sorted_spans_nodup (reattachments_nodup coherent whole here)
      fun other member => (within (of_mem_reattachments whole member).1).1

end MoveSet

section Row

theorem moves_complete_row :
    relabelled ∈ relabelings Grammar.row twoWords mislabelled [] ∧
      relabelled ∈ reattachments Grammar.row twoWords mislabelled [.left] := by
  obtain ⟨contiguous, starts, stops⟩ := of_ofSpans mislabelled_made
  obtain ⟨_, admitted, differs⟩ := of_mem_moves contiguous starts stops relabelled_mem
  have alike : AlikeBut [] mislabelled relabelled := (alikeBut_iff rfl).mpr ⟨⟨0, none⟩, rfl⟩
  have contiguous' : relabelled.parse.Contiguous := contiguous_branch.mpr ⟨rfl, trivial, trivial⟩
  have made : Tree.ofSpans relabelled.spans twoWords.length = .ok relabelled :=
    ofSpans_spans contiguous' (nodup_of_admits Grammar.row_built.coherent contiguous' admitted)
      rfl rfl
  obtain ⟨relabelings, _⟩ := moves_complete Grammar.row_built mislabelled_made (at?_nil _)
  have left : mislabelled.at? [.left] = some (leaf ⟨1, none⟩ 0) := rfl
  obtain ⟨_, reattachments, _⟩ := moves_complete Grammar.row_built mislabelled_made left
  exact ⟨(relabelings relabelled).mpr ⟨admitted, differs, alike⟩,
    (reattachments relabelled).mpr ⟨⟨_, made⟩, admitted, differs, leaf ⟨1, some 0⟩ 1, [.left],
      by decide, rfl, rfl, rfl⟩⟩

end Row

end Constituency.Tree
