import AffineSchedule.Json.Reader
import AffineSchedule.Schedule.Forest
import AffineSchedule.SchedulingProblem

namespace AffineSchedule

namespace Json

def ofList {α : Type} (write : α → Json) (items : List α) : Json := .array (items.map write)

def ofStrings (items : List String) : Json := ofList .string items

def ofInts (items : List Int) : Json := ofList .integer items

def ofNat (number : Nat) : Json := .integer number

end Json

namespace Space

def ofJson? (value : Json) : Option Space := do
  match ← value.record? ["name", "n_dim", "n_param", "dim_names", "param_names"] with
  | [name, dim, params, dimNames, paramNames] =>
      return {
        name := ← Json.required? Json.string? name
        dim := ← Json.required? Json.count? dim
        params := ← Json.required? Json.count? params
        dimNames := ← Json.optional? [] (Json.list? Json.string?) dimNames
        paramNames := ← Json.optional? [] (Json.list? Json.string?) paramNames }
  | _ => none

def toJson (space : Space) : Json :=
  .object [("name", .string space.name), ("n_dim", .ofNat space.dim), ("n_param", .ofNat space.params),
    ("dim_names", .ofStrings space.dimNames), ("param_names", .ofStrings space.paramNames)]

end Space

namespace AffineForm

def ofJson? (value : Json) : Option AffineForm := do
  match ← value.record? ["constant", "coeffs", "param_coeffs"] with
  | [constant, coeffs, params] =>
      return {
        constant := ← Json.required? Json.word? constant
        coeffs := ← Json.required? (Json.list? Json.word?) coeffs
        params := ← Json.required? (Json.list? Json.word?) params }
  | _ => none

def toJson (form : AffineForm) : Json :=
  .object [("constant", .integer form.constant), ("coeffs", .ofInts form.coeffs),
    ("param_coeffs", .ofInts form.params)]

end AffineForm

namespace Constraint

def senses : List (String × Sense) := [("Inequality", .nonnegative), ("Equality", .zero)]

def ofJson? (empty : Json.EmptyContent) (value : Json) : Option Constraint := do
  match ← value.record? ["expr", "kind"] with
  | [form, sense] =>
      return {
        form := ← Json.required? AffineForm.ofJson? form
        sense := ← Json.required? (Json.choice? empty senses) sense }
  | _ => none

def toJson (constraint : Constraint) : Json :=
  let kind := match constraint.sense with
    | .nonnegative => "Inequality"
    | .zero => "Equality"
  .object [("expr", constraint.form.toJson), ("kind", .string kind)]

end Constraint

namespace Polyhedron

def ofJson? (empty : Json.EmptyContent) (value : Json) : Option Polyhedron := do
  match ← value.record? ["constraints", "n_dim", "n_param"] with
  | [constraints, dim, params] =>
      return {
        constraints := ← Json.required? (Json.list? (Constraint.ofJson? empty)) constraints
        dim := ← Json.required? Json.count? dim
        params := ← Json.required? Json.count? params }
  | _ => none

def toJson (system : Polyhedron) : Json :=
  .object [("constraints", .ofList Constraint.toJson system.constraints),
    ("n_dim", .ofNat system.dim), ("n_param", .ofNat system.params)]

end Polyhedron

namespace Domain

def ofJson? (empty : Json.EmptyContent) (value : Json) : Option Domain := do
  match ← value.record? ["space", "constraints"] with
  | [space, region] =>
      return {
        space := ← Json.required? Space.ofJson? space
        region := ← Json.required? (Polyhedron.ofJson? empty) region }
  | _ => none

def toJson (domain : Domain) : Json :=
  .object [("space", domain.space.toJson), ("constraints", domain.region.toJson)]

end Domain

def TimeMap.toJson (map : TimeMap) : Json :=
  .object [("space", map.space.toJson), ("outputs", .ofList AffineForm.toJson map.outputs)]

namespace Tag

def ofJson? (value : Json) : Option Tag := do
  match ← value.record? ["name", "n_dim"] with
  | [name, dim] =>
      return { name := ← Json.required? Json.string? name, dim := ← Json.required? Json.count? dim }
  | _ => none

def toJson (tag : Tag) : Json := .object [("name", .string tag.name), ("n_dim", .ofNat tag.dim)]

end Tag

namespace Tuple

def ofJson? (value : Json) : Option Tuple := do
  match ← value.record? ["name", "n_dim", "tag"] with
  | [name, dim, tag] =>
      return {
        name := ← Json.required? Json.string? name
        dim := ← Json.required? Json.count? dim
        tag := ← Json.optional? none (Json.option? Tag.ofJson?) tag }
  | _ => none

def toJson (tuple : Tuple) : Json :=
  let tag := match tuple.tag with
    | none => Json.null
    | some tag => tag.toJson
  .object [("name", .string tuple.name), ("n_dim", .ofNat tuple.dim), ("tag", tag)]

end Tuple

namespace Conjunct

def ofJson? (empty : Json.EmptyContent) (value : Json) : Option Conjunct := do
  match ← value.record? ["n_in", "n_out", "n_local", "constraints"] with
  | [inputs, outputs, locals, system] =>
      return {
        inputs := ← Json.required? Json.count? inputs
        outputs := ← Json.required? Json.count? outputs
        locals := ← Json.optional? 0 Json.count? locals
        system := ← Json.required? (Polyhedron.ofJson? empty) system }
  | _ => none

def toJson (conjunct : Conjunct) : Json :=
  .object [("n_in", .ofNat conjunct.inputs), ("n_out", .ofNat conjunct.outputs),
    ("n_local", .ofNat conjunct.locals), ("constraints", conjunct.system.toJson)]

end Conjunct

namespace Relation

def ofJson? (empty : Json.EmptyContent) (value : Json) : Option Relation := do
  match ← value.record? ["src", "dst", "params", "disjuncts"] with
  | [source, target, params, disjuncts] =>
      return {
        source := ← Json.required? Tuple.ofJson? source
        target := ← Json.required? Tuple.ofJson? target
        params := ← Json.optional? [] (Json.list? Json.string?) params
        disjuncts := ← Json.required? (Json.list? (Conjunct.ofJson? empty)) disjuncts }
  | _ => none

def toJson (relation : Relation) : Json :=
  .object [("src", relation.source.toJson), ("dst", relation.target.toJson),
    ("params", .ofStrings relation.params), ("disjuncts", .ofList Conjunct.toJson relation.disjuncts)]

end Relation

namespace SchedulingProblem

def fieldNames : List String :=
  ["params", "domain", "validity", "coincidence", "proximity", "condition", "conditional_validity"]

/-- Reads a problem. Only the domain has to be present. -/
def ofJson? (empty : Json.EmptyContent) (value : Json) : Option SchedulingProblem := do
  let relations : Option Json → Option (List Relation) :=
    Json.optional? [] (Json.list? (Relation.ofJson? empty))
  match ← value.record? fieldNames with
  | [params, domain, validity, coincidence, proximity, condition, conditionalValidity] =>
      return {
        params := ← Json.optional? [] (Json.list? Json.string?) params
        domain := ← Json.required? (Json.list? (Domain.ofJson? empty)) domain
        validity := ← relations validity
        coincidence := ← relations coincidence
        proximity := ← relations proximity
        condition := ← relations condition
        conditionalValidity := ← relations conditionalValidity }
  | _ => none

def toJson (problem : SchedulingProblem) : Json :=
  let relations := Json.ofList Relation.toJson
  .object [
    ("params", .ofStrings problem.params),
    ("domain", .ofList Domain.toJson problem.domain),
    ("validity", relations problem.validity),
    ("coincidence", relations problem.coincidence),
    ("proximity", relations problem.proximity),
    ("condition", relations problem.condition),
    ("conditional_validity", relations problem.conditionalValidity)]

end SchedulingProblem

/-- A problem with the options to solve it with. -/
structure ProblemFile where
  problem : SchedulingProblem
  options : Options
deriving DecidableEq, Repr

namespace ProblemFile

/-- Reads an object with the fields of a problem and an optional `options` field. In such an object the
    empty content of a named alternative may also be written as an empty object. -/
def ofJson? (value : Json) : Option ProblemFile := do
  let fields ← value.fields?
  let options ← Json.optional? none (Json.option? Options.ofJson?) (← Json.lookup? fields "options")
  let problem ← SchedulingProblem.ofJson? .nullOrObject value
  return { problem := problem, options := options.getD {} }

/-- What is read of a problem file: everything, except that unknown options are skipped. -/
def outline : Json.Outline :=
  .fields fun name => if name = "options" then .listed Options.fieldNames else .whole

def parse? (text : String) : Option ProblemFile := do ofJson? (← Json.read outline text)

end ProblemFile

def StatementSchedule.toJson (statement : StatementSchedule) : Json :=
  .object [("space", statement.space.toJson), ("map", statement.map.toJson),
    ("band_end", .ofList .ofNat statement.bandEnds), ("band_id", .ofList .ofNat statement.bandIds),
    ("coincident", .ofList .bool statement.coincident)]

def Schedule.toJson (schedule : Schedule) : Json :=
  .object [("params", .ofStrings schedule.params),
    ("statements", .ofList StatementSchedule.toJson schedule.statements),
    ("n_band", .ofNat schedule.bandCount), ("n_total_row", .ofNat schedule.totalRows)]

namespace Band

mutual

def toJson : Band → Json
  | node rows children =>
      .object [("members", .ofList .ofNat rows.members), ("start", .ofNat rows.start),
        ("len", .ofNat rows.length), ("coincident", .ofList .bool rows.coincident),
        ("partial", .ofList TimeMap.toJson rows.partialMaps), ("children", .array (toJsonAll children))]

def toJsonAll : List Band → List Json
  | [] => []
  | band :: later => toJson band :: toJsonAll later

end

end Band

end AffineSchedule
