import AffineSchedule.Proofs.Construction.Contracts

namespace AffineSchedule

open Checked List Node

/-- A fault other than that of a construction which does not end. -/
def Fault.Timely (fault : Fault) : Prop := fault ≠ .unfinished .rows ∧ fault ≠ .unfinished .bands

namespace Checked

variable {α : Type}

/-- The computation is not stopped by a construction that does not end. -/
abbrev Timely (computed : Checked α) : Prop := FaultsIn Fault.Timely computed

@[simp low] theorem Routine.timely {computed : Checked α} (routine : Routine computed) : Timely computed := by
  refine routine.mono fun fault is_routine => ⟨?_, ?_⟩
  · rintro rfl
    exact is_routine
  · rintro rfl
    exact is_routine

end Checked

open Checked AffineSchedule.Graph

/-! ### Computations that end -/

variable {graph : Graph} {cache : ConeCache}

namespace Cone

@[simp] theorem timely_ofConjunct (kind : ConeKind) (conjunct : Conjunct) : Timely (ofConjunct kind conjunct) := by
  by_cases same_sides : kind = .distance → conjunct.inputs = conjunct.outputs
  · exact (routine_ofConjunct same_sides).timely
  · rw [Classical.not_imp] at same_sides
    simp [ofConjunct, same_sides.1, same_sides.2, Fault.Timely]

@[simp] theorem timely_plugInto (cone : Cone) (problem : Linear.Problem) (mapping : List Linear.Form) :
    Timely (cone.plugInto problem mapping) := by
  by_cases length_eq : mapping.length = cone.dim
  · exact (routine_plugInto length_eq problem).timely
  · simp [plugInto, instantiate, length_eq, Fault.Timely]

end Cone

@[simp] theorem ConeCache.timely_get (cache : ConeCache) (kind : ConeKind) (conjunct : Conjunct) :
    Timely (cache.get kind conjunct) := by
  unfold ConeCache.get
  split <;> simp

namespace ConeProblem

@[simp] theorem timely_addEdge (state : ConeProblem) (edge : Edge) (mapping : List Linear.Form) :
    Timely (state.addEdge edge mapping) := by
  simp [addEdge, addDisjunct]

@[simp] theorem timely_addForward (forms : List RowForms) (paramCount : ℕ) (state : ConeProblem) (edge : Edge) :
    Timely (state.addForward forms paramCount edge) := by
  simp [ConeProblem.addForward]

end ConeProblem

@[simp] theorem timely_addForwardInter (forms : List RowForms) (coincide : Bool) (edges : List Edge)
    (state : ConeProblem) : Timely (addForwardInter forms coincide edges state) := by
  induction edges generalizing state with
  | nil => simp [addForwardInter]
  | cons edge later ih => simp [addForwardInter, ih]

@[simp] theorem Node.timely_readRow (node : Node) (point : Linear.Point) (useBasis : Bool) :
    Timely (node.readRow point useBasis) := by
  have integral : ∀ value, Timely (integralWord value) := by
    intro value
    simp [integralWord, Fault.Timely]
  have pairs : ∀ pair, Timely (pairValue point pair) := by
    intro pair
    simp [pairValue, integral]
  cases useBasis <;> simp [readRow, integral, pairs]

theorem timely_nonTrivialLexmin {objectives : List Linear.Objective} (nonneg : ∀ objective ∈ objectives, objective.Nonnegative)
    (problem : Linear.Problem) (regions : List Linear.Region) (limit : ℕ) :
    Timely (problem.nonTrivialLexmin objectives regions limit) := by
  have explored : ∀ depth rows search, Timely (problem.exploreRegions objectives regions limit depth rows search) := by
    intro depth
    induction depth with
    | zero => simp [Linear.Problem.exploreRegions, Fault.Timely]
    | succ depth ih =>
      intro rows search
      simp only [Linear.Problem.exploreRegions, faultsIn_bind_iff]
      refine ⟨(Linear.Problem.routine_integerLexmin nonneg _ _ _ _).timely, fun outcome _ => ?_⟩
      split
      case h_1 => simp
      case h_2 =>
        rw [faultsIn_bind_iff]
        refine ⟨by simp, fun found _ => ?_⟩
        cases found <;> simp [ih]
  simp only [Linear.Problem.nonTrivialLexmin, faultsIn_bind_iff, explored, true_and]
  intro search _
  split <;> simp

namespace Graph

section

variable (graph : Graph) (cache : ConeCache) (options : Options)

@[simp] theorem timely_rowProblem (coincide : Bool) : Timely (graph.rowProblem cache options coincide) := by
  have bounded : ∀ forms count state edge, Timely (ConeProblem.addBounded forms count coincide state edge) := by
    simp [ConeProblem.addBounded]
  simp [rowProblem, Graph.addForward, Graph.addBounded, bounded]

@[simp] theorem timely_nextRow (coincide : Bool) : Timely (graph.nextRow cache options coincide) := by
  simp only [nextRow, faultsIn_bind_iff, timely_rowProblem, true_and]
  rintro ⟨noted, complete, columns⟩ _
  refine ⟨timely_nonTrivialLexmin (Linear.nonnegative_of_columns columns) _ _ _, fun outcome _ => ?_⟩
  split <;> simp [readRows]

@[simp] theorem timely_carryingRow :
    Timely (graph.carryingRow cache options) := by
  have problem_timely : Timely (graph.carryingProblem cache options) := by
    have carried : ∀ forms count state entry, Timely (ConeProblem.addCarried forms count state entry) := by
      simp [ConeProblem.addCarried]
    simp [carryingProblem, carried]
  simp only [carryingRow, faultsIn_bind_iff, problem_timely, true_and]
  rintro ⟨placed, complete, columns⟩ _
  refine ⟨(Linear.routine_lexmin (Linear.nonnegative_of_columns columns) _ _).timely, fun answer _ => ?_⟩
  cases answer <;> simp [readRows, Fault.Timely]

end

section

variable (graph : Graph)

@[simp] theorem timely_withEdges (edges : List Edge) : Timely (graph.withEdges edges) := by
  simp [withEdges, enterEdge, Graph.node, Fault.Timely]

@[simp] theorem timely_narrowEdges : Timely graph.narrowEdges := by
  have edges : ∀ edge, Timely (graph.narrowEdge edge) := by
    intro edge
    simp [narrowEdge, narrowAll]
  simp [narrowEdges, edges]

@[simp] theorem timely_extract (filter : ComponentFilter) : Timely (graph.extract filter) := by
  have edges : ∀ edge, Timely (graph.extractEdge filter edge) := by
    intro edge
    simp only [extractEdge, faultsIn_bind_iff, Graph.node, routine_ofOption, Routine.timely, true_and]
    intro _ _ _ _
    split
    · simp
    · split <;> simp [Fault.Timely]
  simp [extract, edges]

@[simp] theorem timely_checkCapacity : Timely graph.checkCapacity := by
  simp [checkCapacity, Fault.Timely]

@[simp] theorem timely_appendRow (rows : List (List ℤ)) (flag : Bool) :
    Timely (graph.appendRow rows flag) := by
  simp [appendRow, Fault.Timely]

@[simp] theorem timely_appendConstantRow (value : Node → ℤ) :
    Timely (graph.appendConstantRow value) := by
  simp [appendConstantRow]

@[simp] theorem timely_splitFactor : Timely graph.splitFactor := by
  simp [splitFactor, rowFactor, divideRow]

@[simp] theorem timely_sortStatements : Timely (sortStatements graph) := by
  simp [sortStatements]

end

end Graph

/-! ### Later states -/

variable {after before : Node} {flag : Bool} {rows : List (List ℤ)}

namespace Node

/-- The node is a later state of another one: its bands and flags begin with those it had. -/
structure Resumes (after before : Node) : Prop where
  space : after.space = before.space
  bands : before.bands <+: after.bands
  coincident : before.coincident <+: after.coincident

theorem Resumes.trans {last middle first : Node} (after : last.Resumes middle) (before : middle.Resumes first) :
    last.Resumes first :=
  ⟨after.space.trans before.space, before.bands.trans after.bands, before.coincident.trans after.coincident⟩

theorem SameBooks.resumes (same : after.SameBooks before) : after.Resumes before :=
  ⟨same.space, same.bands ▸ prefix_refl _, same.coincident ▸ prefix_refl _⟩

theorem Advances.resumes {label : Option ℕ} (advances : after.Advances before label flag) : after.Resumes before :=
  ⟨advances.space, advances.bands ▸ prefix_append _ _, advances.coincident ▸ prefix_append _ _⟩

section

variable {count row : ℕ} (resumes : after.Resumes before) (has_rows : before.HasRows count) (inside : row < count)
include resumes has_rows inside

/-- The first rows of a later state are those of the earlier one. -/
theorem Resumes.getElem?_bands :
    after.bands[row]? = before.bands[row]? :=
  getElem?_eq_of_front resumes.bands (inside.trans_eq has_rows.bands.symm)

theorem Resumes.getElem?_coincident :
    after.coincident[row]? = before.coincident[row]? :=
  getElem?_eq_of_front resumes.coincident (inside.trans_eq has_rows.coincident.symm)

end

end Node

namespace Graph

variable {unsatisfied : Bool} {drawn : Graph}

/-- Rows have been added to a graph, in bands from its current one on, and the identifiers have been kept. -/
structure Continues (start graph : Graph) : Prop where
  nodes : Forall₂ (fun before after : Node => after.Resumes before ∧ after.bandIds = before.bandIds)
    start.nodes graph.nodes
  rows_le : start.counters.totalRows ≤ graph.counters.totalRows
  max_rows : graph.counters.maxRows = start.counters.maxRows
  band_le : start.counters.band ≤ graph.counters.band
  labels : ∀ node ∈ graph.nodes, ∀ row label, start.counters.totalRows ≤ row → node.bands[row]? = some (some label) →
    start.counters.band ≤ label

theorem Uniform.continues (uniform : graph.Uniform) : Continues graph graph := by
  refine ⟨forall₂_same.mpr fun node _ => ⟨(Node.SameBooks.refl node).resumes, rfl⟩, le_rfl, rfl, le_rfl, ?_⟩
  intro node node_mem row label beyond label_at
  have inside := (List.getElem?_eq_some_iff.mp label_at).1
  rw [(uniform.has_rows node node_mem).bands] at inside
  exact absurd inside (Nat.not_lt.mpr beyond)

section Continues

variable {start next : Graph} (continues : Continues start graph)
include continues

theorem Continues.of_sameBooks (same : next.SameBooks graph) : Continues start next := by
  refine ⟨?_, ?_, ?_, ?_, ?_⟩
  · refine forall₂_trans (fun before middle after earlier later => ?_) continues.nodes same.nodes
    exact ⟨later.resumes.trans earlier.1, later.ids.trans earlier.2⟩
  · rw [same.counters]
    exact continues.rows_le
  · rw [same.counters]
    exact continues.max_rows
  · rw [same.counters]
    exact continues.band_le
  · refine same.nodes.forall_mem (fun before after _ node_same labels => ?_) continues.labels
    rw [node_same.bands]
    exact labels

/-- A new row of the current band. -/
theorem Continues.advance {rows : ℕ} (uniform : graph.Uniform) (room : graph.counters.totalRows < graph.counters.maxRows)
    (counters_eq : next.counters = { graph.counters with rows := rows, totalRows := graph.counters.totalRows + 1 })
    (nodes : Forall₂ (fun before after : Node => after.Advances before (some graph.counters.band) flag)
      graph.nodes next.nodes) : Continues start next ∧ next.Uniform ∧ next.counters.bandStart < next.counters.totalRows := by
  refine ⟨⟨?_, ?_, ?_, ?_, ?_⟩, uniform.advance room counters_eq nodes, ?_⟩
  · refine forall₂_trans (fun before middle after earlier later => ?_) continues.nodes nodes
    exact ⟨later.resumes.trans earlier.1, later.ids.trans earlier.2⟩
  · rw [counters_eq]
    exact continues.rows_le.trans (Nat.le_succ _)
  · rw [counters_eq]
    exact continues.max_rows
  · rw [counters_eq]
    exact continues.band_le
  · refine nodes.forall_mem (fun before after _ advances labels => ?_) continues.labels
    intro row found beyond found_at
    rw [advances.bands, getElem?_append] at found_at
    split at found_at
    case isTrue => exact labels row found beyond found_at
    case isFalse =>
      obtain rfl := Option.some.inj (mem_singleton.mp (mem_of_getElem? found_at))
      exact continues.band_le
  · rw [counters_eq]
    exact Nat.lt_succ_of_le uniform.start_le

theorem Continues.appendRow (uniform : graph.Uniform) (done : graph.appendRow rows flag = .ok next) :
    Continues start next ∧ next.Uniform ∧ next.counters.bandStart < next.counters.totalRows := by
  obtain ⟨room, next_eq, advances⟩ := advances_of_appendRow done
  exact continues.advance uniform room (congrArg (·.counters) next_eq) advances

theorem Continues.appendConstantRow {value : Node → ℤ} (uniform : graph.Uniform)
    (done : graph.appendConstantRow value = .ok next) :
    Continues start next ∧ next.Uniform ∧ next.counters.bandStart < next.counters.totalRows := by
  obtain ⟨room, next_eq, advances⟩ := advances_of_appendConstantRow done
  exact continues.advance uniform room (congrArg (·.counters) next_eq) advances

theorem Continues.nextBand : Continues start graph.nextBand :=
  ⟨continues.nodes, continues.rows_le, continues.max_rows, continues.band_le.trans (Nat.le_succ _), continues.labels⟩

/-- Dropping the band that began where the graph started. -/
theorem Continues.resetBand (uniform : start.Uniform) (start_eq : graph.counters.bandStart = start.counters.totalRows)
    (done : graph.resetBand = .ok next) : Continues start next := by
  have nodes := books_of_resetBand done
  have counters_eq := congrArg (·.counters) (resetBand_ok done).1
  dsimp only at counters_eq
  refine ⟨?_, ?_, ?_, ?_, ?_⟩
  · refine continues.nodes.trans_of_mem nodes fun before before_mem _ _ _ _ ⟨resumes, ids_eq⟩ ⟨same, _⟩ => ?_
    have has_rows := uniform.has_rows before before_mem
    refine ⟨⟨same.space.trans resumes.space, ?_, ?_⟩, same.ids.trans ids_eq⟩
    · rw [same.bands, takeRows, start_eq]
      exact prefix_take_iff.mpr ⟨resumes.bands, has_rows.bands.le⟩
    · rw [same.coincident, takeRows, start_eq]
      exact prefix_take_iff.mpr ⟨resumes.coincident, has_rows.coincident.le⟩
  · rw [counters_eq]
    exact start_eq.ge
  · rw [counters_eq]
    exact continues.max_rows
  · rw [counters_eq]
    exact continues.band_le
  · refine nodes.forall_mem (fun before after _ related (_ : True) => ?_) (fun _ _ => trivial)
    intro row label beyond label_at
    rw [related.1.bands, takeRows, start_eq, getElem?_take_eq_none beyond] at label_at
    cases label_at

end Continues

/-! ### The band in progress -/

/-- The rows of a band in progress, as far as the books of the graph go. -/
structure Gathers (start graph : Graph) : Prop where
  uniform : graph.Uniform
  continues : Continues start graph
  parts : start.SameParts graph
  needed : graph.rowsNeeded = start.rowsNeeded
  counters : ∃ added, graph.counters = { start.counters with
    rows := start.counters.rows + added, totalRows := start.counters.totalRows + added }

theorem Uniform.gathers (uniform : graph.Uniform) : Gathers graph graph :=
  ⟨uniform, uniform.continues, .refl graph, rfl, 0, rfl⟩

theorem Redrawn.sameBooks (redrawn : drawn.Redrawn graph) : drawn.SameBooks graph := by
  refine ⟨redrawn.nodes.imp fun before after after_eq => ?_, congrArg (·.counters) redrawn.rest⟩
  rw [after_eq]
  exact ⟨rfl, rfl, rfl, rfl, rfl, fun framed => framed.congr rfl rfl rfl rfl rfl⟩

section Gathers

variable {start next : Graph} (gathers : Gathers start graph)
include gathers

/-- A change of what the books do not cover. -/
theorem Gathers.of_sameBooks (same : next.SameBooks graph) (core_eq : next.core = graph.core) : Gathers start next := by
  refine ⟨gathers.uniform.of_sameBooks same, gathers.continues.of_sameBooks same,
    gathers.parts.trans (sameParts_of_core_eq core_eq), (congrArg (·.rowsNeeded) core_eq).trans gathers.needed, ?_⟩
  rw [same.counters]
  exact gathers.counters

theorem Gathers.redrawn (redrawn : next.Redrawn graph) : Gathers start next :=
  gathers.of_sameBooks redrawn.sameBooks redrawn.core_eq

theorem Gathers.clearConflict : Gathers start { graph with conflict := none } :=
  gathers.of_sameBooks (.of_nodes rfl rfl) rfl

theorem Gathers.appendRow (done : graph.appendRow rows flag = .ok next) :
    Gathers start next := by
  obtain ⟨_, next_eq, _⟩ := advances_of_appendRow done
  obtain ⟨continues, uniform, _⟩ := gathers.continues.appendRow gathers.uniform done
  refine ⟨uniform, continues, gathers.parts.trans (sameParts_of_appendRow done),
    (congrArg (·.rowsNeeded) next_eq).trans gathers.needed, ?_⟩
  obtain ⟨added, graph_counters⟩ := gathers.counters
  refine ⟨added + 1, ?_⟩
  rw [congrArg (·.counters) next_eq, graph_counters]
  rfl

theorem Gathers.checkConditional {violated : Bool} (done : graph.checkConditional = .ok (violated, next)) :
    Gathers start next := by
  have next_eq := (localizes_of_checkConditional done).1
  exact gathers.of_sameBooks (.of_nodes (congrArg (·.nodes) next_eq) (congrArg (·.counters) next_eq))
    (core_of_checkConditional done)

theorem Gathers.start_eq (orderly : start.Orderly) : graph.counters.bandStart = start.counters.totalRows := by
  obtain ⟨added, counters_eq⟩ := gathers.counters
  rw [counters_eq]
  exact orderly.band_start

theorem Gathers.resetBand (orderly : start.Orderly) (done : graph.resetBand = .ok next) :
    Gathers start next ∧ next.counters = start.counters := by
  have start_eq := gathers.start_eq orderly
  obtain ⟨next_eq, _⟩ := resetBand_ok done
  obtain ⟨added, graph_counters⟩ := gathers.counters
  have counters_eq : next.counters = start.counters := by
    rw [congrArg (·.counters) next_eq, start_eq, graph_counters]
    simp only [Nat.add_sub_cancel_left, Nat.add_sub_cancel]
  exact ⟨⟨(gathers.uniform.resetBand done).toUniform, gathers.continues.resetBand orderly.toUniform start_eq done,
    gathers.parts.trans (sameParts_of_resetBand done), (congrArg (·.rowsNeeded) next_eq).trans gathers.needed, 0, counters_eq⟩,
    counters_eq⟩

end Gathers

/-! ### Conditions that may still become local -/

/-- The condition of the edge is not local yet. -/
def opensCondition (edge : Edge) : Bool := edge.has .condition && !edge.isLocal

/-- The number of conditions that are not local yet. -/
def openConditions (graph : Graph) : ℕ := graph.edges.countP opensCondition

theorem Redrawn.openConditions_eq (redrawn : drawn.Redrawn graph) : drawn.openConditions = graph.openConditions := by
  have opens_eq : graph.edges.map opensCondition = drawn.edges.map opensCondition := by
    refine redrawn.edges.map_eq fun before after noted => ?_
    rw [noted]
    rfl
  have counted := congrArg (List.countP id) opens_eq
  rw [countP_map, countP_map] at counted
  exact counted.symm

theorem countP_of_localizes {violated : List Relation} {edges localized : List Edge}
    (localizes : Forall₂ (Localizes graph violated unsatisfied) edges localized) :
    localized.countP opensCondition ≤ edges.countP opensCondition
      ∧ (localized ≠ edges → localized.countP opensCondition < edges.countP opensCondition) := by
  induction localizes with
  | nil => exact ⟨le_rfl, fun changed => absurd rfl changed⟩
  | @cons before after edges localized step _ ih =>
    obtain ⟨fewer, strictly⟩ := ih
    cases step with
    | kept =>
      simp only [countP_cons]
      refine ⟨Nat.add_le_add_right fewer _, fun changed => Nat.add_lt_add_right (strictly fun same => ?_) _⟩
      exact changed (congrArg (before :: ·) same)
    | localized is_condition _ is_open =>
      have opens : opensCondition before = true := by rw [opensCondition, is_condition, is_open]; rfl
      have closed : ¬opensCondition { before with isLocal := true } = true := by simp [opensCondition]
      rw [countP_cons_of_pos opens, countP_cons_of_neg closed]
      exact ⟨fewer.trans (Nat.le_succ _), fun _ => Nat.lt_succ_of_le fewer⟩

theorem openConditions_of_checkConditional {checked : Graph}
    (done : graph.checkConditional = .ok (unsatisfied, checked)) : checked.openConditions ≤ graph.openConditions
      ∧ (unsatisfied = true → checked.openConditions < graph.openConditions) := by
  obtain ⟨_, changed, _, _, localizes⟩ := localizes_of_checkConditional done
  obtain ⟨fewer, strictly⟩ := countP_of_localizes localizes
  exact ⟨fewer, fun is_unsatisfied => strictly (changed is_unsatisfied)⟩

end Graph

/-! ### The loop -/

section Runs

variable {coincide : Bool} {state : Construction} {search : RowSearch} {steps : ℕ} {appended : Graph}
  {options : Options} {hasCoincidence checksConditional : Bool} {start : Graph} {before after : Bool × Construction}

theorem Searched.gathers (searched : Searched options coincide state search) (gathers : Gathers start state.graph) :
    Gathers start search.graph := gathers.clearConflict.redrawn searched.redrawn

theorem Extends.gathers (extends_band : Extends options hasCoincidence coincide state search rows appended)
    (gathers : Gathers start state.graph) : Gathers start appended :=
  (extends_band.searched.gathers gathers).appendRow extends_band.done

/-- A step keeps the books of the band in progress. -/
theorem BandStep.gathers (step : BandStep options hasCoincidence checksConditional before after) (orderly : start.Orderly)
    (gathers : Gathers start before.2.graph) : Gathers start after.2.graph := by
  cases step with
  | relaxed searched => exact searched.gathers gathers
  | extended extends_band => exact extends_band.gathers gathers
  | checked extends_band check_ok => exact (extends_band.gathers gathers).checkConditional check_ok
  | restarted extends_band check_ok reset_ok =>
    exact (((extends_band.gathers gathers).checkConditional check_ok).resetBand orderly reset_ok).1

theorem gathers_of_runs (runs : BandRuns options hasCoincidence checksConditional before after) (orderly : start.Orderly)
    (gathers : Gathers start before.2.graph) : Gathers start after.2.graph := by
  induction runs with
  | refl => exact gathers
  | tail _ step ih => exact step.gathers orderly ih

/-- Filling a band keeps its books. It ends with a closed reason: enough rows, or a search without result, whose conflict
    is one between different components. -/
theorem gathers_of_fillBand {final : Construction} {bandEnd : BandEnd} (orderly : start.Orderly) (parted : start.Parted)
    (done : fillBand options hasCoincidence checksConditional steps coincide ⟨start, cache⟩ = .ok (bandEnd, final)) :
    Gathers start final.graph ∧ (bandEnd = .stuck → final.graph.ConflictOrdered) := by
  obtain ⟨use, last, runs, ends⟩ := runs_of_fillBand done
  have gathers := gathers_of_runs runs orderly orderly.toUniform.gathers
  cases ends with
  | complete _ => exact ⟨gathers, fun impossible => by cases impossible⟩
  | stuck searched none_found _ =>
    exact ⟨searched.gathers gathers, fun _ =>
      conflict_of_nextRow (parted.of_parts gathers.clearConflict.parts).partitioned rfl searched.done⟩

/-- What is still open in a band: the conditions that are not local, with a band each, the rows that are missing, and
    the coincidence that may be given up. -/
def Graph.patience (start : Graph) (band : Bool × Construction) : ℕ :=
  band.2.graph.openConditions * (start.rowsNeeded - start.counters.rows + 2)
    + (start.rowsNeeded - band.2.graph.counters.rows) + band.1.toNat

/-- A new row is one less that is missing. -/
theorem Extends.rows_missing (extends_band : Extends options hasCoincidence coincide state search rows appended)
    (gathers : Gathers start state.graph) :
    start.rowsNeeded - appended.counters.rows + 1 = start.rowsNeeded - state.graph.counters.rows
      ∧ appended.openConditions = state.graph.openConditions := by
  obtain ⟨_, appended_eq, _⟩ := advances_of_appendRow extends_band.done
  have redrawn := extends_band.searched.redrawn
  have search_counters : search.graph.counters = state.graph.counters := redrawn.sameBooks.counters
  have rows_eq : appended.counters.rows = state.graph.counters.rows + 1 := by
    rw [congrArg (·.counters.rows) appended_eq, search_counters]
  have incomplete := extends_band.searched.incomplete
  rw [gathers.needed] at incomplete
  refine ⟨by omega, ?_⟩
  calc appended.openConditions = search.graph.openConditions := by
        rw [openConditions, openConditions, congrArg (·.edges) appended_eq]
    _ = state.graph.openConditions := redrawn.openConditions_eq

theorem BandStep.patience_lt (step : BandStep options hasCoincidence checksConditional before after) (orderly : start.Orderly)
    (gathers : Gathers start before.2.graph) : start.patience after < start.patience before := by
  cases step with
  | relaxed searched =>
    have redrawn := searched.redrawn
    have open_eq := redrawn.openConditions_eq
    have counters_eq := redrawn.sameBooks.counters
    unfold patience
    dsimp only at open_eq counters_eq ⊢
    rw [open_eq, counters_eq]
    exact Nat.lt_succ_self _
  | extended extends_band =>
    obtain ⟨missing, open_eq⟩ := extends_band.rows_missing gathers
    unfold patience
    dsimp only at missing ⊢
    rw [open_eq, ← missing]
    omega
  | checked extends_band check_ok =>
    obtain ⟨missing, open_eq⟩ := extends_band.rows_missing gathers
    have fewer := (openConditions_of_checkConditional check_ok).1
    have counters_eq := counters_of_core_eq (core_of_checkConditional check_ok)
    rw [open_eq] at fewer
    unfold patience
    dsimp only at missing ⊢
    rw [counters_eq, ← missing]
    have rounds := Nat.mul_le_mul_right (start.rowsNeeded - start.counters.rows + 2) fewer
    omega
  | @restarted coincide state search rows appended graph reset extends_band check_ok reset_ok =>
    -- The band starts over, with one condition less that can make it do so.
    obtain ⟨missing, open_eq⟩ := extends_band.rows_missing gathers
    have fewer := (openConditions_of_checkConditional check_ok).2 rfl
    have checked_gathers := (extends_band.gathers gathers).checkConditional check_ok
    have reset_counters := (checked_gathers.resetBand orderly reset_ok).2
    have reset_open : reset.openConditions = graph.openConditions := by
      rw [openConditions, openConditions, congrArg (·.edges) (resetBand_ok reset_ok).1]
    rw [open_eq] at fewer
    have rounds := Nat.mul_le_mul_right (start.rowsNeeded - start.counters.rows + 2) (Nat.succ_le_of_lt fewer)
    rw [Nat.succ_mul] at rounds
    have used := Bool.toNat_le hasCoincidence
    unfold patience
    dsimp only at missing ⊢
    rw [reset_counters, reset_open, ← missing]
    omega

theorem BandTakes.patience
    (takes : BandTakes options hasCoincidence checksConditional steps before after) (orderly : start.Orderly)
    (gathers : Gathers start before.2.graph) : start.patience after + steps ≤ start.patience before := by
  induction takes with
  | none => exact le_rfl
  | more first later ih =>
    have later_le := ih (first.gathers orderly gathers)
    have first_lt := first.patience_lt orderly gathers
    omega

/-- The steps granted to a band are enough. -/
theorem timely_fillBand (orderly : start.Orderly) :
    Timely (fillBand options hasCoincidence checksConditional start.bandSteps coincide ⟨start, cache⟩) := by
  have check_faults (graph : Graph) : Timely graph.checkConditional := (routine_checkConditional graph).timely
  have reset_faults (graph : Graph) : Timely graph.resetBand := (routine_resetBand graph).timely
  refine (meets_fillBand start.bandSteps ?_ (fun _ _ _ _ => timely_nextRow _ _ _ _) (fun _ _ _ _ _ _ _ => timely_appendRow _ _ _)
    check_faults reset_faults).faults
  intro last takes
  have spent := takes.patience orderly orderly.toUniform.gathers
  have few : start.openConditions ≤ start.edges.length := countP_le_length
  have rounds := Nat.mul_le_mul few (Nat.add_le_add_right (Nat.sub_le start.rowsNeeded start.counters.rows) 2)
  have used := Bool.toNat_le coincide
  unfold bandSteps at spent
  rw [Nat.succ_mul] at spent
  have granted : start.patience (coincide, ⟨start, cache⟩)
      = start.openConditions * (start.rowsNeeded - start.counters.rows + 2)
        + (start.rowsNeeded - start.counters.rows) + coincide.toNat := rfl
  omega

omit start in
theorem fillBand_add (more : ℕ)
    (in_time : fillBand options hasCoincidence checksConditional steps coincide state ≠ .error (.unfinished .rows)) :
    fillBand options hasCoincidence checksConditional (steps + more) coincide state
      = fillBand options hasCoincidence checksConditional steps coincide state := by
  induction steps generalizing coincide state with
  | zero => exact absurd rfl in_time
  | succ steps ih =>
    rw [Nat.succ_add]
    rw [fillBand] at in_time ⊢
    rw [fillBand]
    split at in_time
    case isTrue enough => rw [if_pos enough, if_pos enough]
    case isFalse incomplete =>
      rw [if_neg incomplete, if_neg incomplete]
      refine bind_congr_of_ne in_time fun search _ in_time => ?_
      split at in_time
      case h_1 none_found =>
        dsimp only at in_time ⊢
        split at in_time
        case isTrue relaxes => 
          rw [if_pos relaxes, if_pos relaxes]
          exact ih in_time
        case isFalse stays => rw [if_neg stays, if_neg stays]
      case h_2 rows found =>
        refine bind_congr_of_ne in_time fun appended _ in_time => ?_
        split at in_time
        case isTrue unchecked =>
          rw [if_pos unchecked, if_pos unchecked]
          exact ih in_time
        case isFalse checks =>
          rw [if_neg checks, if_neg checks]
          refine bind_congr_of_ne in_time ?_
          rintro ⟨violated, checked⟩ _ in_time
          cases violated with
          | false => exact ih in_time
          | true => exact bind_congr_of_ne in_time fun reset _ in_time => ih in_time

end Runs

end AffineSchedule
