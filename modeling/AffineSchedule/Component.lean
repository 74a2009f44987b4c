import AffineSchedule.Word

namespace AffineSchedule

/-- A depth-first search under way. -/
structure Search where
  /-- The nodes entered so far, the latest first. -/
  entered : List Nat
  /-- The nodes whose component is open, the latest first, each with the number of nodes entered before it. -/
  stack : List (Nat × Nat)
  /-- The components closed so far, the latest first. -/
  closed : List (List Nat)
deriving DecidableEq, Repr

namespace Search

def start : Search := { entered := [], stack := [], closed := [] }

def enter (search : Search) (node : Nat) : Search :=
  { search with
    entered := node :: search.entered
    stack := (node, search.entered.length) :: search.stack }

/-- How low a node leads that has a successor entered before. Only a successor with an open component counts. -/
def lower (search : Search) (low next : Nat) : Nat :=
  match search.stack.lookup next with
  | some number => min low number
  | none => low

def close (search : Search) (node : Nat) : Search :=
  let above := search.stack.takeWhile (·.1 ≠ node)
  { search with
    stack := search.stack.drop (above.length + 1)
    closed := (node :: above.map (·.1)) :: search.closed }

/-- Visits a new node: enters it, goes on along its successors, and closes its component if it leads no lower
    than to itself. Tells how low it leads. Every level enters a new node, so the number of nodes is depth
    enough. -/
def visit (successors : Nat → List Nat) : Nat → Search → Nat → Search × Nat
  | 0, search, _ => (search, 0)
  | depth + 1, search, node =>
      let number := search.entered.length
      let follow (state : Search × Nat) (next : Nat) : Search × Nat :=
        if next ∈ state.1.entered then (state.1, state.1.lower state.2 next)
        else
          let below := visit successors depth state.1 next
          (below.1, min state.2 below.2)
      let final := (successors node).foldl follow (search.enter node, number)
      (if final.2 = number then final.1.close node else final.1, final.2)

/-- Visits a node unless it was entered before. -/
def explore (successors : Nat → List Nat) (depth : Nat) (search : Search) (node : Nat) : Search :=
  if node ∈ search.entered then search else (visit successors depth search node).1

end Search

/-- A partition of the nodes below a bound into numbered components. -/
structure Components where
  labels : List Nat
  count : Nat
deriving DecidableEq, Repr

namespace Components

/-- The other nodes below a bound that a node depends on. -/
def successors (size : Nat) (follows : Nat → Nat → Bool) (node : Nat) : List Nat :=
  (List.range size).filter fun next => next != node && follows node next

/-- The components of the graph in which node `i` depends on node `j` if `follows i j`. -/
def compute (size : Nat) (follows : Nat → Nat → Bool) : Components :=
  let nodes := List.range size
  let order := (nodes.foldl (Search.explore (successors size follows) size) Search.start).closed.reverse
  { labels := nodes.map fun node => order.findIdx (·.contains node)
    count := order.length }

/-- The components of a graph with a declared number of nodes. -/
def ofGraph (size : Nat) (follows : Nat → Nat → Bool) : Checked Components :=
  Size.make (compute · follows) size

end Components

end AffineSchedule
