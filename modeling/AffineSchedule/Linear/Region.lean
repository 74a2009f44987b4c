import AffineSchedule.Linear.Lexmin

namespace AffineSchedule

namespace Linear

/-- Variables that may not all be zero, each given by the columns of its negative and positive part. -/
structure Region where
  pairs : List (Nat × Nat)
deriving DecidableEq, Repr

namespace Region

/-- Every listed variable is zero at the point, tried from left to right. -/
def areEqual (point : Point) : List (Nat × Nat) → Checked Bool
  | [] => .ok true
  | (negative, positive) :: later => do
      let negativePart ← Checked.ofOption point[negative]?
      let positivePart ← Checked.ofOption point[positive]?
      if negativePart = positivePart then areEqual point later else return false

def isTrivial (region : Region) (point : Point) : Checked Bool := areEqual point region.pairs

/-- The first region that is trivial at the point. -/
def firstTrivial (point : Point) : List Region → Checked (Option Region)
  | [] => .ok none
  | region :: later => do
      if ← region.isTrivial point then return some region else firstTrivial point later

/-- `larger` exceeds `smaller` by at least one. -/
def exceeds (larger smaller : Nat) : Checked Row :=
  Row.make .nonnegative { terms := [(larger, 1), (smaller, -1)], constant := -1 }

/-- The rows of the branches of a region, on top of given rows: for every variable in turn, the earlier
    ones are zero and it is positive, then negative. -/
def branches (rows : List Row) : List (Nat × Nat) → Checked (List (List Row))
  | [] => .ok []
  | (negative, positive) :: later => do
      let above ← exceeds positive negative
      let below ← exceeds negative positive
      let equal ← Row.make .zero (Form.difference positive negative)
      return (rows ++ [above]) :: (rows ++ [below]) :: (← branches (rows ++ [equal]) later)

end Region

structure NonTrivialOutcome where
  /-- The least integral point at which every region is non-trivial. -/
  solution : Option Point
  /-- The first row of the problem that conflicts, when there is no solution and one could be found. -/
  conflictRow : Option Nat
deriving DecidableEq, Repr

/-- What a non-trivial search has found so far. -/
structure RegionSearch where
  best : Option (List Rat × Point)
  /-- The rows of the first branch whose relaxation had no point. -/
  firstInfeasible : Option (List Row)
deriving DecidableEq, Repr

namespace Problem

/-- Explores the branch with the given rows, to a given depth. -/
def exploreRegions (problem : Problem) (objectives : List Objective) (regions : List Region)
    (limit : Nat) : Nat → List Row → RegionSearch → Checked RegionSearch
  | 0, _, _ => .error (.unfinished .regions)
  | depth + 1, rows, search => do
      let outcome ← problem.integerLexmin rows objectives (search.best.map (·.1)) limit
      match outcome.solution with
      | none =>
          if outcome.relaxationInfeasible && search.firstInfeasible.isNone then
            return { search with firstInfeasible := some rows }
          else return search
      | some point =>
          match ← Region.firstTrivial point regions with
          | none =>
              let key ← Objective.evaluateAll objectives point
              return { search with best := some (key, point) }
          | some region =>
              (← Region.branches rows region.pairs).foldlM
                (fun found branch => problem.exploreRegions objectives regions limit depth branch found)
                search

/-- The lexicographically least integral point at which every region is non-trivial. When there is none,
    the outcome names the first row that conflicts with the earliest infeasible branch. -/
def nonTrivialLexmin (problem : Problem) (objectives : List Objective) (regions : List Region)
    (limit : Nat) : Checked NonTrivialOutcome := do
  let search ← problem.exploreRegions objectives regions limit (regions.length + 1) []
    { best := none, firstInfeasible := none }
  match search.best, search.firstInfeasible with
  | some (_, point), _ => return { solution := some point, conflictRow := none }
  | none, some rows => return { solution := none, conflictRow := ← problem.firstConflict rows }
  | none, none => return { solution := none, conflictRow := none }

end Problem

end Linear

end AffineSchedule
