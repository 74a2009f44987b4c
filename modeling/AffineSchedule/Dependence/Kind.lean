
namespace AffineSchedule

/-- What a dependence asks of a schedule. -/
inductive Kind where
  /-- Every row must order the source no later than the target. -/
  | validity
  /-- The distance should be zero. -/
  | coincidence
  /-- The condition half of a conditional validity pair. -/
  | condition
  /-- Validity that may be broken while every adjacent condition stays local. -/
  | conditionalValidity
  /-- The distance should be small. -/
  | proximity
deriving DecidableEq, Repr

namespace Kind

/-- All kinds, in graph extraction order. -/
def all : List Kind :=
  [validity, coincidence, condition, conditionalValidity, proximity]

def label : Kind → String
  | validity => "Validity"
  | coincidence => "Coincidence"
  | condition => "Condition"
  | conditionalValidity => "ConditionalValidity"
  | proximity => "Proximity"

theorem mem_all (kind : Kind) : kind ∈ all := by
  cases kind <;> simp [all]

end Kind

end AffineSchedule
