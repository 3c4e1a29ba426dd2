import Constituency.Tree.Parents

/-!
Binary trees over a sentence, with at most one unary rule over each node, and their spans.
-/

namespace Constituency

/-- The label of a node and that of a unary rule over it, if there is one. -/
structure Head where
  label : Label
  top : Option Label := none
deriving DecidableEq, Repr

namespace Head

/-- The label that a node shows to its parent. -/
def outer (head : Head) : Label := head.top.getD head.label

end Head

inductive Tree
  | leaf (head : Head) (position : Nat)
  | branch (head : Head) (left right : Tree)
deriving DecidableEq, Repr

inductive Side
  | left
  | right
deriving DecidableEq, Repr

/-- The way from the root of a tree to a node. -/
abbrev Path := List Side

namespace Tree

def head : Tree → Head
  | leaf head _ => head
  | branch head _ _ => head

def setHead (head : Head) : Tree → Tree
  | leaf _ position => leaf head position
  | branch _ left right => branch head left right

def start : Tree → Nat
  | leaf _ position => position
  | branch _ left _ => left.start

def stop : Tree → Nat
  | leaf _ position => position + 1
  | branch _ _ right => right.stop

def nodeCount : Tree → Nat
  | leaf _ _ => 1
  | branch _ left right => left.nodeCount + right.nodeCount + 1

/-- The ways to all nodes, parents first and left before right. -/
def paths : Tree → List Path
  | leaf _ _ => [[]]
  | branch _ left right =>
    [] :: (left.paths.map (.left :: ·) ++ right.paths.map (.right :: ·))

def at? : Tree → Path → Option Tree
  | tree, [] => some tree
  | leaf _ _, _ :: _ => none
  | branch _ left _, .left :: path => left.at? path
  | branch _ _ right, .right :: path => right.at? path

def modify (change : Tree → Tree) : Tree → Path → Tree
  | tree, [] => change tree
  | leaf head position, _ :: _ => leaf head position
  | branch head left right, .left :: path => branch head (left.modify change path) right
  | branch head left right, .right :: path => branch head left (right.modify change path)

/-- The tree without the subtree at a node: its sibling takes the place of their parent. -/
def remove? : Tree → Path → Option Tree
  | branch _ _ right, [.left] => some right
  | branch _ left _, [.right] => some left
  | branch head left right, .left :: path =>
    (left.remove? path).map fun left => branch head left right
  | branch head left right, .right :: path =>
    (right.remove? path).map fun right => branch head left right
  | _, _ => none

def spanCount : Tree → Nat
  | leaf head _ => head.top.toList.length + 1
  | branch head left right => head.top.toList.length + 1 + left.spanCount + right.spanCount

/-- The span of a node below its unary rule. -/
def ownSpan : Tree → Span
  | leaf head position => .terminal position head.label
  | branch head left right =>
    .binary left.start right.start right.stop ⟨head.label, left.head.outer, right.head.outer⟩

/-- The spans of a node with their parents, when its parent is at `parent` in a list of spans and
the node's first span comes at `place`. -/
def nodeSpans (tree : Tree) (parent : Option Nat) (place : Nat) : List (Span × Option Nat) :=
  match tree.head.top with
  | none => [(tree.ownSpan, parent)]
  | some top =>
    [(.unary tree.start tree.stop ⟨top, tree.head.label⟩, parent), (tree.ownSpan, some place)]

/-- The spans of a tree with their parents, in the same situation; parents come first and left
before right. -/
def linkedSpansFrom (parent : Option Nat) (place : Nat) : Tree → List (Span × Option Nat)
  | leaf head position => nodeSpans (leaf head position) parent place
  | branch head left right =>
    let own := place + head.top.toList.length
    nodeSpans (branch head left right) parent place ++
      left.linkedSpansFrom (some own) (own + 1) ++
      right.linkedSpansFrom (some own) (own + 1 + left.spanCount)

def linkedSpans (tree : Tree) : List (Span × Option Nat) := tree.linkedSpansFrom none 0

def spans (tree : Tree) : List Span := tree.linkedSpans.map Prod.fst

def parents (tree : Tree) : Parents := tree.linkedSpans.map Prod.snd

/-- Builds the tree below a place in a list of spans whose parents are known; `top` is the label of
a unary rule just above. `depth` bounds the levels still to come, and the number of spans is enough
for it. -/
def grow (spans : List Span) (parents : Parents) :
    Nat → Option Label → Nat → Except TreeError Tree
  | 0, _, _ => throw .noRoot
  | depth + 1, top, place =>
    match spans[place]? with
    | none => throw .noRoot
    | some span =>
      let start (child : Nat) : Nat := (spans[child]?.map Span.start).getD 0
      let children := (parents.childrenOf place).mergeSort fun a b => start a ≤ start b
      match span.rule, children with
      | .terminal label, _ => return leaf ⟨label, top⟩ span.start
      | .unary rule, [child] => grow spans parents depth (some rule.parent) child
      | .binary rule, [left, right] =>
        return branch ⟨rule.parent, top⟩ (← grow spans parents depth none left)
          (← grow spans parents depth none right)
      | _, _ => throw (.missingChild span.item)

/-- The first unary span over another unary span. -/
def stacked? (spans : List Span) (parents : Parents) : Option Span :=
  (spans.zipIdx.find? fun (span, place) =>
    span.isUnary && (parents.childrenOf place).any fun child =>
      (spans[child]?.map Span.isUnary).getD false).map Prod.fst

def ofSpans (spans : List Span) (length : Nat) : Except TreeError Tree := do
  let parents ← Parents.ofTree spans length
  match stacked? spans parents, parents.root? with
  | some span, _ => throw (.stackedUnary span.start span.stop)
  | none, some root => grow spans parents spans.length none root
  | none, none => throw .noRoot

end Tree

end Constituency
