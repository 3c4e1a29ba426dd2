import Constituency.Derivation.Basic
import Constituency.Tree.Binary

/-!
Moves from a tree to its neighbours: a node takes another head, or it is taken out and put beside
an adjacent node under a new parent. A move has to lead to a tree that the grammar admits.
-/

namespace Constituency.Tree

/-- Whether the grammar has every rule, lets every label at a leaf stand over its word, and accepts
the label at the root. -/
def admits (grammar : Grammar) (sentence : Sentence) (tree : Tree) : Bool :=
  tree.linkedSpans.all fun (span, parent) =>
    grammar.contains span.rule &&
      (!span.isTerminal ||
        (grammar.terminalsFor (sentence.number? span.start)).contains span.label) &&
      (parent.isSome || grammar.isRoot span.label)

/-- The heads that a node may take: each label alone, then each unary rule. A root shows an accepted
label. -/
def heads (grammar : Grammar) (root : Bool) : List Head :=
  let plain := grammar.allLabels.map fun label => (⟨label, none⟩ : Head)
  let topped := grammar.unaryRules.toList.map fun rule => (⟨rule.child, some rule.parent⟩ : Head)
  (plain ++ topped).filter fun head => !root || grammar.isRoot head.outer

/-- The admitted trees in which the node has another head. -/
def relabelings (grammar : Grammar) (sentence : Sentence) (tree : Tree) (path : Path) :
    List Tree :=
  match tree.at? path with
  | none => []
  | some node =>
    (((heads grammar path.isEmpty).filter (· != node.head)).map fun head =>
      tree.modify (setHead head) path).filter (admits grammar sentence)

/-- Puts a subtree beside the subtree at a node, on the side where it is adjacent. -/
def insertBeside (base : Tree) (anchor : Path) (node : Tree) (head : Head) : Tree :=
  base.modify
    (fun beside =>
      if beside.stop = node.start then branch head beside node else branch head node beside)
    anchor

/-- The nodes of a tree next to an interval. -/
def adjacent (base : Tree) (start stop : Nat) : List Path :=
  base.paths.filter fun path =>
    match base.at? path with
    | some node => node.stop == start || node.start == stop
    | none => false

/-- The admitted trees in which the node hangs beside an adjacent node, other than the tree
itself. -/
def reattachments (grammar : Grammar) (sentence : Sentence) (tree : Tree) (path : Path) :
    List Tree :=
  match tree.at? path, tree.remove? path with
  | some node, some base =>
    let current := Span.sorted tree.spans
    (base.adjacent node.start node.stop).flatMap fun anchor =>
      ((heads grammar anchor.isEmpty).map (base.insertBeside anchor node)).filter fun other =>
        admits grammar sentence other && Span.sorted other.spans != current
  | _, _ => []

def moves (grammar : Grammar) (sentence : Sentence) (tree : Tree) (path : Path) : List Tree :=
  relabelings grammar sentence tree path ++ reattachments grammar sentence tree path

end Constituency.Tree
