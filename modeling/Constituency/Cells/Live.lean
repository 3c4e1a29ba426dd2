import Constituency.Cells.Table

/-!
Which items of a chart are live. An item takes part before the unary rules of its interval are
applied, after them, or both; at first no item is live.
-/

namespace Constituency

inductive Phase
  | beforeUnary
  | afterUnary
deriving DecidableEq, Repr

structure Live where
  before : Table Bool
  after : Table Bool

namespace Live

def none (words labels : Nat) : Live :=
  ⟨.create words labels false, .create words labels false⟩

def words (live : Live) : Nat := live.before.words

def table (live : Live) : Phase → Table Bool
  | .beforeUnary => live.before
  | .afterUnary => live.after

def isLive (live : Live) (start stop : Nat) (label : Label) (phase : Phase) : Bool :=
  (live.table phase).get start stop label

def set (live : Live) (start stop : Nat) (label : Label) (phase : Phase) (value : Bool) : Live :=
  match phase with
  | .beforeUnary => { live with before := live.before.set start stop label value }
  | .afterUnary => { live with after := live.after.set start stop label value }

def count (live : Live) (start stop : Nat) (phase : Phase) : Nat :=
  ((live.table phase).cell start stop).countP id

end Live

end Constituency
