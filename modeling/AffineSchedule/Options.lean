import AffineSchedule.Json.Record

namespace AffineSchedule

/-- How rows are searched for. -/
inductive Algorithm where
  /-- Permutable bands first, carrying rows as a fallback. -/
  | banded
  /-- Rows that carry as many dependences as possible. -/
  | carrying
deriving DecidableEq, Repr

/-- How eagerly statements share bands. -/
inductive Fusion where
  /-- Weakly connected statements stay together. -/
  | maximal
  /-- Strongly connected components are separated. -/
  | minimal
deriving DecidableEq, Repr

/-- The options of schedule construction. -/
structure Options where
  /-- An upper bound on the absolute value of every coefficient. -/
  maxCoefficient : Option Nat := none
  /-- An upper bound on the constant of every row. -/
  maxConstantTerm : Option Nat := none
  /-- A common factor is split off the constants after a carrying row. -/
  splitScaled : Bool := true
  algorithm : Algorithm := .banded
  fuse : Fusion := .maximal
  /-- The graph is split in preference to closing a band early. -/
  maximizeBandDepth : Bool := false
  /-- The first row of every band has to be coincident. -/
  outerCoincidence : Bool := false
  /-- Independent components are ordered by a row of their own. -/
  separateComponents : Bool := false
  /-- The search budget of every linear problem. -/
  branchNodeLimit : Nat := 20000
deriving DecidableEq, Repr

namespace Algorithm

def named : List (String × Algorithm) := [("isl", banded), ("feautrier", carrying)]

def label : Algorithm → String
  | banded => "isl"
  | carrying => "feautrier"

end Algorithm

namespace Fusion

def named : List (String × Fusion) := [("max", maximal), ("min", minimal)]

def label : Fusion → String
  | maximal => "max"
  | minimal => "min"

end Fusion

namespace Options

/-- A bound on coefficients or constants: a natural number that fits in 32 bits. -/
def bound? (value : Json) : Option Nat := value.natBelow? (Nat.pow 2 32)

def fieldNames : List String :=
  ["max_coefficient", "max_constant_term", "split_scaled", "algorithm", "fuse", "maximize_band_depth",
    "outer_coincidence", "separate_components", "branch_node_limit"]

/-- Reads options. Every field may be missing and then keeps its default. -/
def ofJson? (value : Json) : Option Options := do
  let defaults : Options := {}
  match ← value.record? fieldNames with
  | [coefficient, constant, split, algorithm, fuse, depth, outer, separate, limit] =>
      return {
        maxCoefficient := ← Json.optional? none (Json.option? bound?) coefficient
        maxConstantTerm := ← Json.optional? none (Json.option? bound?) constant
        splitScaled := ← Json.optional? defaults.splitScaled Json.bool? split
        algorithm := ← Json.optional? defaults.algorithm (Json.choice? .null Algorithm.named) algorithm
        fuse := ← Json.optional? defaults.fuse (Json.choice? .null Fusion.named) fuse
        maximizeBandDepth := ← Json.optional? defaults.maximizeBandDepth Json.bool? depth
        outerCoincidence := ← Json.optional? defaults.outerCoincidence Json.bool? outer
        separateComponents := ← Json.optional? defaults.separateComponents Json.bool? separate
        branchNodeLimit := ← Json.optional? defaults.branchNodeLimit Json.count? limit }
  | _ => none

def toJson (options : Options) : Json :=
  let bound : Option Nat → Json
    | none => .null
    | some value => .integer value
  .object [
    ("max_coefficient", bound options.maxCoefficient),
    ("max_constant_term", bound options.maxConstantTerm),
    ("split_scaled", .bool options.splitScaled),
    ("algorithm", .string options.algorithm.label),
    ("fuse", .string options.fuse.label),
    ("maximize_band_depth", .bool options.maximizeBandDepth),
    ("outer_coincidence", .bool options.outerCoincidence),
    ("separate_components", .bool options.separateComponents),
    ("branch_node_limit", .integer options.branchNodeLimit)]

end Options

end AffineSchedule
