import Constituency.Tree.Span

/-!
Parents. A list of spans does not say which span hangs below which: the parent of a span is one
whose rule needs a child with just its interval and label.
-/

namespace Constituency

inductive TreeError
  | empty
  | noRoot
  | manyRoots (count : Nat)
  | missingChild (child : Item)
  | badInterval (start stop split : Nat)
  | partialCover (start stop length : Nat)
  | stackedUnary (start stop : Nat)
deriving DecidableEq, Repr

namespace TreeError

private def interval (start stop : Nat) : String :=
  "[" ++ toString start ++ ", " ++ toString stop ++ ")"

def message : TreeError → String
  | empty => "derivation has no spans"
  | noRoot => "derivation has no top-level span"
  | manyRoots count => "derivation has " ++ toString count ++ " top-level spans"
  | missingChild child =>
    "no span fills child slot " ++ interval child.start child.stop ++ " label " ++
      toString child.label.toNat
  | badInterval start stop split =>
    "span " ++ interval start stop ++ " split " ++ toString split ++ " has an invalid interval"
  | partialCover start stop length =>
    "root span " ++ interval start stop ++ " does not cover a sentence of " ++ toString length ++
      " words"
  | stackedUnary start stop => "stacked unary rules at " ++ interval start stop

end TreeError

/-- The place of each span's parent in the list; a span at the top has none. -/
abbrev Parents := List (Option Nat)

namespace Parents

/-- The places of the spans that wait for a child, by what the child must be. An earlier row hides
the later ones of the same child. -/
abbrev Waiting := List (Item × List Nat)

namespace Waiting

def get (waiting : Waiting) (slot : Item) : List Nat := (waiting.lookup slot).getD []

/-- Changes which spans wait for one child. -/
def put (waiting : Waiting) (slot : Item) (places : List Nat) : Waiting :=
  (slot, places) :: waiting

@[simp] theorem get_put (waiting : Waiting) (slot : Item) (places : List Nat) (item : Item) :
    (waiting.put slot places).get item = if item = slot then places else waiting.get item := by
  by_cases same : item = slot
  · simp [get, put, same]
  · have differ : (item == slot) = false := by simpa using same
    simp [get, put, List.lookup_cons, same, differ]

def await (waiting : Waiting) (span : Span) (place : Nat) : Waiting :=
  span.slots.foldl (fun waiting slot => waiting.put slot (waiting.get slot ++ [place])) waiting

/-- Lets every span wait for its children, unless some rule does not fit over its interval. -/
def ofSpans (spans : List Span) : Except TreeError Waiting :=
  spans.zipIdx.foldlM
    (fun waiting (span, place) =>
      if span.isProper then .ok (waiting.await span place)
      else .error (.badInterval span.start span.stop span.split))
    []

end Waiting

/-- The same list with its last element in front. -/
def lastFirst (places : List Nat) : List Nat := (places.getLast?).toList ++ places.dropLast

/-- The first place other than `own`, and those left, where the last one takes its turn. -/
def takeOther (own : Nat) (places : List Nat) : Option (Nat × List Nat) :=
  match places.dropWhile (· == own) with
  | [] => none
  | place :: rest => some (place, places.takeWhile (· == own) ++ lastFirst rest)

/-- Gives each span, in turn, to a span that waits for it. -/
def claim : List (Span × Nat) → Waiting → Parents × Waiting
  | [], waiting => ([], waiting)
  | (span, place) :: rest, waiting =>
    match takeOther place (waiting.get span.item) with
    | none =>
      let (parents, waiting) := claim rest waiting
      (none :: parents, waiting)
    | some (parent, others) =>
      let (parents, waiting) := claim rest (waiting.put span.item others)
      (some parent :: parents, waiting)

def ofSpans (spans : List Span) : Except TreeError Parents := do
  let waiting ← Waiting.ofSpans spans
  let (parents, waiting) := claim spans.zipIdx waiting
  match (spans.flatMap Span.slots).find? fun slot => !(waiting.get slot).isEmpty with
  | some slot => throw (.missingChild slot)
  | none => return parents

def roots (parents : Parents) : List Nat :=
  parents.zipIdx.filterMap fun (parent, place) => if parent.isNone then some place else none

def root? (parents : Parents) : Option Nat :=
  match parents.roots with
  | [root] => some root
  | _ => none

def childrenOf (parents : Parents) (place : Nat) : List Nat :=
  parents.zipIdx.filterMap fun (parent, child) => if parent = some place then some child else none

/-- The parents of spans that have one root, over the whole of a sentence. -/
def ofTree (spans : List Span) (length : Nat) : Except TreeError Parents := do
  if spans.isEmpty then throw .empty
  let parents ← ofSpans spans
  match parents.roots.filterMap (spans[·]?) with
  | [] => throw .noRoot
  | [root] =>
    if root.start = 0 ∧ root.stop = length then return parents
    else throw (.partialCover root.start root.stop length)
  | roots => throw (.manyRoots roots.length)

end Parents

end Constituency
