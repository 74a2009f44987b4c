import AffineSchedule.Dependence.Kind
import AffineSchedule.Relation.Tuple

namespace AffineSchedule

/-- Which last resort gave up when the constraints admit no schedule. -/
inductive Unschedulable where
  /-- No remaining dependence can be carried by a single row. -/
  | cannotCarry
  /-- The carrying row adds nothing new and there is nothing left to split. -/
  | noNonTrivialSolution
deriving DecidableEq, Repr

/-- What stopped the exact arithmetic layer. -/
inductive SolverFailure where
  | nodeLimit (limit : Nat)
  | matrixOverflow
  | boundOverflow
  | coefficientOverflow
  | unbounded
deriving DecidableEq, Repr

/-- What is wrong with the scheduling problem handed in. -/
inductive InputFault where
  | unnamedParameter (position : Nat)
  | unknownParameter (name : String)
  | disjunctShape (source target : Tuple) (inputs outputs : Nat)
  | constraintLayout (source target : Tuple)
  | domainMismatch (kind : Kind) (source target : Tuple)
deriving DecidableEq, Repr

/-- A contract between two parts of the scheduler that did not hold. -/
inductive BrokenContract where
  | tooManyRows
  | rowCountMismatch
  | backwardValidityEdge
  | duplicateEdge (kind : Kind) (source target : String)
  | intraDimensions (inputs outputs : Nat)
  | mappingLength (given expected : Nat)
  | fractionalCoefficient (value : Rat)
  | carryInfeasible
  | splitWithoutConflict
deriving DecidableEq, Repr

/-- A loop that runs on a step allowance computed from its input. -/
inductive Loop where
  /-- Column operations that clear a matrix row. -/
  | columnReduction
  | pivots
  /-- Nested branches on trivial regions. -/
  | regions
  | rows
  /-- Nested bands and parts of a graph. -/
  | bands
deriving DecidableEq, Repr

/-- Every way in which a computation can fail. -/
inductive Fault where
  | overflow
  /-- An index, a slice or a layout precondition was out of range. -/
  | precondition
  | unfinished (loop : Loop)
  | internal (cause : BrokenContract)
  | unschedulable (cause : Unschedulable)
  | solver (cause : SolverFailure)
  | input (cause : InputFault)
deriving DecidableEq, Repr

/-- A computation that either delivers a value or names the fault that stopped it. -/
abbrev Checked (α : Type) : Type := Except Fault α

/-- The text of a rational: `n` when it is integral, `n/d` in lowest terms otherwise. -/
def renderRat (value : Rat) : String :=
  if value.den = 1 then toString value.num else toString value.num ++ "/" ++ toString value.den

def Unschedulable.message : Unschedulable → String
  | .cannotCarry => "unable to carry dependences"
  | .noNonTrivialSolution => "unable to construct non-trivial solution"

def SolverFailure.message : SolverFailure → String
  | .nodeLimit limit => "branch and bound exceeded " ++ toString limit ++ " nodes"
  | .matrixOverflow => "integer overflow in matrix arithmetic"
  | .boundOverflow => "branching bound does not fit in i64"
  | .coefficientOverflow => "schedule coefficient does not fit in i64"
  | .unbounded => "objective is unbounded below"

def InputFault.message : InputFault → String
  | .unnamedParameter position => "parameter " ++ toString position ++ " has no name"
  | .unknownParameter name => "unknown parameter '" ++ name ++ "'"
  | .disjunctShape source target inputs outputs =>
      "disjunct of " ++ source.render ++ " -> " ++ target.render ++ " has "
        ++ toString inputs ++ " -> " ++ toString outputs ++ " columns"
  | .constraintLayout source target =>
      "constraints of " ++ source.render ++ " -> " ++ target.render
        ++ " do not match the relation layout"
  | .domainMismatch kind source target =>
      kind.label ++ " relation " ++ source.render ++ " -> " ++ target.render
        ++ " does not match the domain"

def BrokenContract.message : BrokenContract → String
  | .tooManyRows => "too many schedule rows"
  | .rowCountMismatch => "schedule row count does not match the node count"
  | .backwardValidityEdge => "backward (conditional) validity edge"
  | .duplicateEdge kind source target =>
      "more than one " ++ kind.label ++ " edge between " ++ source ++ " and " ++ target
  | .intraDimensions inputs outputs =>
      "intra-statement relation with " ++ toString inputs ++ " source and " ++ toString outputs
        ++ " destination dims"
  | .mappingLength given expected =>
      "coefficient mapping has " ++ toString given ++ " entries, expected " ++ toString expected
  | .fractionalCoefficient value => "non-integral schedule coefficient " ++ renderRat value
  | .carryInfeasible => "carrying problem is infeasible"
  | .splitWithoutConflict => "split requested without a conflicting component"

/-- The text a fault is reported with: the wording of its cause behind a heading for its layer. -/
def Fault.message : Fault → String
  | .overflow => "Arithmetic overflow"
  | .precondition => "Precondition violated"
  | .unfinished _ => "Step allowance exhausted"
  | .internal cause => "Internal error: " ++ cause.message
  | .unschedulable cause => "No schedule exists: " ++ cause.message
  | .solver cause => "Solver error: " ++ cause.message
  | .input cause => "Invalid input: " ++ cause.message

/-- The value of an optional lookup whose absence breaks a precondition. -/
def Checked.ofOption {α : Type} : Option α → Checked α
  | some value => .ok value
  | none => .error .precondition

/-- Succeeds exactly when the precondition holds. -/
def Checked.require (condition : Prop) [Decidable condition] : Checked Unit :=
  if condition then .ok () else .error .precondition

end AffineSchedule
