import AffineSchedule.Proofs.Construction.AdmissibleRows
import AffineSchedule.Proofs.Construction.Readiness
import AffineSchedule.Proofs.Dependence.Origin

namespace AffineSchedule

open Checked AffineSchedule.Graph Finset AffineSchedule.Relation

variable {target source : Space} {gathering : Gathering} {graph : Graph} {after before : Bool × Construction}

/-! ### Placements -/

/-- Statements placed on common axes, by the weights of their dimensions on each axis. -/
structure Placement where
  axes : ℕ
  weight : String → ℕ → ℕ → ℤ

namespace Placement

/-- Where an instance of a statement is on an axis. -/
def offset (placement : Placement) (statement : String) (dim axis : ℕ) (point : ℕ → ℚ) : ℚ :=
  ∑ d ∈ Finset.range dim, (placement.weight statement axis d : ℚ) * point d

/-- No two instances of the statement are in the same place. -/
def Separates (placement : Placement) (statement : String) (dim : ℕ) : Prop :=
  ∀ point : ℕ → ℚ, (∀ axis < placement.axes, placement.offset statement dim axis point = 0) → ∀ d < dim, point d = 0

/-- The axes combined into one row. -/
def combine (placement : Placement) (factor : ℕ → ℤ) (statement : String) (d : ℕ) : ℤ :=
  ∑ axis ∈ Finset.range placement.axes, factor axis * placement.weight statement axis d

theorem sum_combine (placement : Placement) (factor : ℕ → ℤ) (statement : String) (dim : ℕ) (point : ℕ → ℚ) :
    ∑ d ∈ Finset.range dim, (placement.combine factor statement d : ℚ) * point d
      = ∑ axis ∈ Finset.range placement.axes, (factor axis : ℚ) * placement.offset statement dim axis point := by
  simp only [combine, offset, Int.cast_sum, Int.cast_mul, sum_mul, mul_sum, mul_assoc]
  exact sum_comm

end Placement

/-- The ends of all pairs are within a distance of each other on every axis, a form of the parameters. -/
def Conjunct.Gathered (disjunct : Conjunct) (placement : Placement) (reach : ℤ) (slope : ℕ → ℤ) (source target : Space) :
    Prop :=
  ∀ dims params : ℕ → ℚ, disjunct.system.HoldsAt dims params → ∀ axis < placement.axes,
    |placement.offset target.name target.dim axis (fun d => dims (disjunct.inputs + d))
      - placement.offset source.name source.dim axis dims|
    ≤ reach + ∑ i ∈ Finset.range disjunct.params, (slope i : ℚ) * params i

/-! ### General position -/

namespace Node

/-- The last coordinate of a row in the basis of a node. -/
def lastCoordinate (node : Node) (row : ℕ → ℚ) : ℚ :=
  ∑ e ∈ Finset.range node.space.dim, (entryAt node.coordinates.rows (node.space.dim - 1) e : ℚ) * row e

/-- The last column of the basis has the last coordinate one. -/
theorem Framed.lastCoordinate_basis {node : Node} (framed : node.Framed) (positive : 0 < node.space.dim) :
    node.lastCoordinate (fun e => entryAt node.basis.rows e (node.space.dim - 1)) = 1 := by
  have last_lt : node.space.dim - 1 < node.space.dim := by omega
  have turned : squareOf node.space.dim node.coordinates * squareOf node.space.dim node.basis = 1 :=
    mul_eq_one_comm.mp framed.inverse
  have product := congrFun (congrFun turned ⟨_, last_lt⟩) ⟨_, last_lt⟩
  rw [Matrix.mul_apply, Matrix.one_apply_eq] at product
  rw [lastCoordinate, sum_range]
  exact_mod_cast product

end Node

theorem Placement.lastCoordinate_combine (placement : Placement) (factor : ℕ → ℤ) (node : Node) :
    node.lastCoordinate (placement.combine factor node.space.name ·) = ∑ axis ∈ Finset.range placement.axes, (factor axis : ℚ)
          * placement.offset node.space.name node.space.dim axis (entryAt node.coordinates.rows (node.space.dim - 1) ·) := by
  rw [← placement.sum_combine, Node.lastCoordinate]
  exact sum_congr rfl fun e _ => mul_comm _ _

theorem Placement.exists_factors (placement : Placement) {nodes : List Node} (framed : ∀ node ∈ nodes, node.Framed) :
    ∃ factor : ℕ → ℤ, ∀ node ∈ nodes, 0 < node.space.dim → placement.Separates node.space.name node.space.dim →
      node.lastCoordinate (placement.combine factor node.space.name ·) ≠ 0 := by
  let place (node : Node) (axis : ℕ) : ℚ :=
    placement.offset node.space.name node.space.dim axis (entryAt node.coordinates.rows (node.space.dim - 1) ·)
  let functional (node : Node) : Module.Dual ℚ (ℕ → ℚ) :=
    ∑ axis ∈ Finset.range placement.axes, place node axis • LinearMap.proj axis
  have functional_apply : ∀ node factor, functional node factor
      = ∑ axis ∈ Finset.range placement.axes, factor axis * place node axis := by
    intro node factor
    simp [functional, mul_comm]
  let separated : Set Node :=
    { node | node ∈ nodes ∧ 0 < node.space.dim ∧ placement.Separates node.space.name node.space.dim }
  have : Finite separated := (nodes.finite_toSet.subset fun node separates => separates.1).to_subtype
  -- a separated node is not in place zero on all axes
  obtain ⟨factor, factor_ne⟩ := Module.Dual.exists_forall_ne_zero_of_forall_exists
    (fun node : separated => functional node) fun ⟨node, node_mem, positive, separates⟩ => by
      by_contra vanishes
      have placed_zero : ∀ axis < placement.axes, place node axis = 0 := by
        intro axis axis_lt
        by_contra place_ne
        refine vanishes ⟨Pi.single axis 1, ?_⟩
        rw [functional_apply]
        simpa [Pi.single_apply, axis_lt] using place_ne
      have row_zero := separates _ placed_zero
      have one_eq := (framed node node_mem).lastCoordinate_basis positive
      rw [Node.lastCoordinate, sum_eq_zero] at one_eq
      · exact zero_ne_one one_eq
      · intro e e_mem
        rw [row_zero e (mem_range.mp e_mem), zero_mul]
  obtain ⟨denominator, numerator, positive, numerator_eq⟩ := exists_numerators factor (Finset.range placement.axes)
  refine ⟨numerator, fun node node_mem dim_pos separates vanishes => factor_ne ⟨node, node_mem, dim_pos, separates⟩ ?_⟩
  rw [placement.lastCoordinate_combine] at vanishes
  have scaled : (denominator : ℚ) * functional node factor = 0 := by
    rw [functional_apply, mul_sum, ← vanishes]
    refine sum_congr rfl fun axis axis_mem => ?_
    rw [← numerator_eq axis axis_mem, mul_assoc]
  have denominator_ne : (denominator : ℚ) ≠ 0 := by exact_mod_cast positive.ne'
  exact (mul_eq_zero.mp scaled).resolve_left denominator_ne

/-! ### Gathered graphs -/

/-- A placement with a common bound on the distance of related instances on its axes. -/
structure Gathering where
  placement : Placement
  reach : ℤ
  slope : ℕ → ℤ

/-- A dependence between two statements that constrains no order, and gathers its pairs if they should be near. -/
structure Gathering.Suits (gathering : Gathering) (source target : Space) (edge : Edge) : Prop where
  no_validity : edge.has .validity = false
  no_conditional : edge.has .conditionalValidity = false
  separates : edge.has .proximity = true → gathering.placement.Separates source.name source.dim
    ∧ gathering.placement.Separates target.name target.dim
  gathered : edge.has .proximity = true → ∀ disjunct ∈ edge.relation.disjuncts,
    disjunct.Gathered gathering.placement gathering.reach gathering.slope source target

theorem Conjunct.Gathered.of_equateRows {conjunct result : Conjunct} {rows : List (List ℤ × List ℤ)} {placement : Placement}
    {reach : ℤ} {slope : ℕ → ℤ} (gathered : conjunct.Gathered placement reach slope source target)
    (done : rows.foldlM equateRows conjunct = .ok result) :
    result.Gathered placement reach slope source target := by
  refine foldlM_invariant (fun grown : Conjunct => grown.Gathered placement reach slope source target) done gathered ?_
  intro grown pair next _ grown_gathered step
  simp only [equateRows, Conjunct.add, bind_ok, pure_ok] at step
  obtain ⟨form, _, system, system_ok, rfl⟩ := step
  intro dims params holds axis axis_lt
  have within := grown_gathered dims params (Polyhedron.holdsAt_of_add system_ok holds) axis axis_lt
  have params_eq : system.params = grown.system.params := (Polyhedron.add_ok system_ok).2.1
  simpa only [Conjunct.params, params_eq] using within

theorem Gathering.Suits.narrow {edge narrowed : Edge} (suits : gathering.Suits source target edge.unplaced)
    (narrow_ok : graph.narrowEdge edge = .ok narrowed) : gathering.Suits source target narrowed.unplaced := by
  obtain ⟨_, _, _, _, narrowed_eq, relation_ok, _⟩ := narrowEdge_parts narrow_ok
  have kinds_eq : narrowed.kinds = edge.kinds := congrArg (·.kinds) narrowed_eq
  have has_eq : ∀ kind, narrowed.unplaced.has kind = edge.unplaced.has kind := fun kind => congrArg (·.contains kind) kinds_eq
  refine ⟨has_eq _ ▸ suits.no_validity, has_eq _ ▸ suits.no_conditional, fun near => suits.separates (has_eq _ ▸ near),
    fun near disjunct disjunct_mem => ?_⟩
  simp only [narrowRelation, onEqualRows, bind_ok, pure_ok, mapM_ok] at relation_ok
  obtain ⟨_, ⟨disjuncts, each, rfl⟩, dropped⟩ := relation_ok
  obtain ⟨restricted_mem, _⟩ := mem_of_dropEmpty dropped disjunct_mem
  obtain ⟨conjunct, conjunct_mem, equated⟩ := each.exists_left restricted_mem
  exact (suits.gathered (has_eq _ ▸ near) conjunct conjunct_mem).of_equateRows equated

namespace Graph

/-- A graph that needs a row has admissible ones, if all its dependences are gathered and no distance is forced to zero. -/
theorem exists_admissible_of_gathered {options : Options} (suited : graph.Suited gathering.Suits)
    (well_formed : graph.WellFormed) (ranked : graph.Ranked) (incomplete : graph.counters.rows < graph.rowsNeeded)
    (unbounded : options.maxCoefficient = none) (unforced : ∀ edge ∈ graph.edges, edge.forcesZero false = false) :
    ∃ rows limit, graph.Admissible options false rows limit := by
  classical
  obtain ⟨placement, reach, slope⟩ := gathering
  have framed : ∀ node ∈ graph.nodes, node.Framed := by
    intro node node_mem
    have laid_out := well_formed.nodes node node_mem
    exact (ranked node node_mem).1.framed (laid_out.params.symm ▸ laid_out)
  obtain ⟨factor, factor_ne⟩ := placement.exists_factors framed
  let row (node : Node) (e : ℕ) : ℤ :=
    if placement.Separates node.space.name node.space.dim then placement.combine factor node.space.name e
    else entryAt node.basis.rows e (node.space.dim - 1)
  let rows (index : ℕ) : AffineRow ℤ :=
    { constant := 0, params := 0, dims := fun e => graph.nodes[index]?.elim 0 (row · e) }
  have dims_eq : ∀ {index : ℕ} {node : Node}, graph.nodes[index]? = some node →
      (rows index).cast.dims = fun e => (row node e : ℚ) := by
    intro index node node_at
    simp only [rows, AffineRow.cast, node_at, Option.elim_some]
  let spread : ℤ := ∑ axis ∈ Finset.range placement.axes, |factor axis|
  have spread_nonneg : 0 ≤ spread := sum_nonneg fun _ _ => abs_nonneg _
  refine ⟨rows, { constant := (spread * |reach|).toNat, params := fun i => spread * slope i }, fun edge edge_mem disjunct disjunct_mem
    columns params holds => ?_, ⟨fun _ _ => le_rfl, fun bound _ _ _ => ?_, fun bound limit => ?_⟩, ?_⟩
  · obtain ⟨source, target, source_at, target_at⟩ := well_formed.exists_ends edge_mem
    obtain ⟨_, _, laid_out⟩ := well_formed.laidOut_ends edge_mem source_at target_at disjunct_mem
    have suits := suited edge edge_mem source target source_at target_at
    have no_validity : edge.has .validity = false := suits.no_validity
    refine ⟨fun ordered => ?_, fun forced => ?_, fun near _ => ?_⟩
    · rw [no_validity] at ordered
      cases ordered
    · rw [unforced edge edge_mem] at forced
      cases forced
    · obtain ⟨source_separated, target_separated⟩ := suits.separates near
      have gathered := suits.gathered near disjunct disjunct_mem columns params holds
      have distance_eq : disjunct.distance (rows edge.source).cast (rows edge.target).cast columns params
          = ∑ axis ∈ Finset.range placement.axes, (factor axis : ℚ)
            * (placement.offset target.space.name target.space.dim axis (fun d => columns (disjunct.inputs + d))
              - placement.offset source.space.name source.space.dim axis columns) := by
        rw [Conjunct.distance, AffineRow.time, AffineRow.time, dims_eq source_at, dims_eq target_at, laid_out.inputs,
          laid_out.outputs]
        simp only [row, if_pos source_separated, if_pos target_separated, mul_sub, sum_sub_distrib,
          ← placement.sum_combine]
        simp [rows, AffineRow.cast, mul_comm]
      have within : |disjunct.distance (rows edge.source).cast (rows edge.target).cast columns params|
          ≤ DistanceLimit.value { constant := (spread * |reach|).toNat, params := fun i => spread * slope i }
              graph.params.length params := by
        calc _ ≤ ∑ axis ∈ Finset.range placement.axes, |(factor axis : ℚ)|
                * (reach + ∑ i ∈ Finset.range graph.params.length, (slope i : ℚ) * params i) := by
              rw [distance_eq, ← laid_out.params]
              refine (abs_sum_le_sum_abs _ _).trans (sum_le_sum fun axis axis_mem => ?_)
              rw [abs_mul]
              exact mul_le_mul_of_nonneg_left (gathered axis (mem_range.mp axis_mem)) (abs_nonneg _)
          _ = spread * reach + ∑ i ∈ Finset.range graph.params.length, params i * (spread * slope i : ℤ) := by
              rw [← sum_mul, mul_add, mul_sum]
              push_cast [spread]
              exact congrArg _ (sum_congr rfl fun i _ => by ring)
          _ ≤ _ := by
              have constant_eq : (((spread * |reach|).toNat : ℕ) : ℚ) = spread * |(reach : ℚ)| := by
                rw [← Int.cast_natCast, Int.toNat_of_nonneg (mul_nonneg spread_nonneg (abs_nonneg reach))]
                push_cast
                rfl
              rw [DistanceLimit.value, constant_eq]
              exact add_le_add_left (mul_le_mul_of_nonneg_left (le_abs_self _) (by exact_mod_cast spread_nonneg)) _
      exact ⟨(abs_le.mp within).2, fun _ => (abs_le.mp within).1⟩
  · exact Nat.cast_nonneg bound
  · rw [unbounded] at limit
    cases limit
  · intro index node node_at needs_row dependent
    have node_mem := List.mem_of_getElem? node_at
    have laid_out := well_formed.nodes node node_mem
    obtain ⟨based, enough⟩ := ranked node node_mem
    have below : node.rank < node.space.dim := by
      have needs := of_decide_eq_true needs_row
      omega
    have last_zero : node.lastCoordinate (row node ·) = 0 := by
      have vanishes := (Node.mem_rowSpace_iff based (laid_out.params.symm ▸ laid_out) (rows index).cast).mp dependent
        (node.space.dim - 1) (by omega) (by omega)
      rwa [Node.coordinate, if_pos rfl, dims_eq node_at] at vanishes
    by_cases separated : placement.Separates node.space.name node.space.dim
    · simp only [row, if_pos separated] at last_zero
      exact factor_ne node node_mem (by omega) separated last_zero
    · simp only [row, if_neg separated] at last_zero
      rw [(framed node node_mem).lastCoordinate_basis (by omega)] at last_zero
      exact one_ne_zero last_zero

/-- No distance is forced to zero, or can come to be so. -/
def Unforced (graph : Graph) : Prop :=
  ∀ edge ∈ graph.edges, edge.isLocal = false ∧ edge.has .conditionalValidity = false

theorem violatedRelations_eq_nil {edges : List Edge} {violated : List Relation}
    (none_conditional : ∀ edge ∈ edges, edge.has .conditionalValidity = false)
    (done : graph.violatedRelations edges = .ok violated) : violated = [] := by
  induction edges generalizing violated with
  | nil =>
    cases done
    rfl
  | cons edge later ih =>
    obtain ⟨edge_plain, later_plain⟩ := List.forall_mem_cons.mp none_conditional
    rw [violatedRelations, edge_plain] at done
    exact ih later_plain (by simpa using done)

section

variable {next : Graph} (unforced : graph.Unforced)
include unforced

theorem unforced_of_noted (noted : List.Forall₂ Edge.Noted graph.edges next.edges) : next.Unforced := by
  refine noted.forall_mem (fun _ _ _ note kept => ?_) unforced
  rw [note]
  exact kept

theorem unforced_of_checkConditional {violated : Bool} (done : graph.checkConditional = .ok (violated, next)) :
    next.Unforced := by
  obtain ⟨relations, relations_ok, done⟩ := bind_ok.mp done
  rw [violatedRelations_eq_nil (fun edge edge_mem => (unforced edge edge_mem).2) relations_ok] at done
  cases pure_ok.mp done
  exact unforced

end

end Graph

/-- A band of a gathered graph is filled completely, unless rows have to be coincident or coefficients are bounded. -/
theorem not_stuck_of_gathered {options : Options} {start : Graph} {filled : Construction}
    (relaxed : options.outerCoincidence = false) (unbounded : options.maxCoefficient = none)
    (suited : start.Suited gathering.Suits) : ¬ Fills options start .stuck filled := by
  intro fills
  obtain ⟨cache, steps, sound, done⟩ := fills.done
  obtain ⟨use, last, runs, ends⟩ := runs_of_fillBand done
  obtain ⟨last_filling, last_sound⟩ := filling_of_runs runs fills.at_start fills.ranked
    (fills.at_start.filling fills.partitioned fills.ranked) sound
  have still_suited : ∀ {graph : Graph}, Filling start graph → graph.Suited gathering.Suits := fun filling =>
    suited.of_prolongs filling.stage.grows.nodes filling.stage.edges
  cases ends with
  | stuck searched none_found insists =>
    cases use with
    | true =>
      have insisted := insists rfl
      rw [relaxed] at insisted
      cases insisted
    | false =>
      have fresh : Filling start { last.graph with conflict := none } := last_filling.of_core_eq rfl
      have start_unforced : start.Unforced := by
        intro edge edge_mem
        obtain ⟨a, b, a_at, b_at⟩ := fills.at_start.well_formed.exists_ends edge_mem
        exact ⟨fills.nothing_local edge edge_mem, (suited edge edge_mem a b a_at b_at).no_conditional⟩
      have last_unforced : last.graph.Unforced :=
        keeps_of_runs Unforced unforced_of_noted (unforced_of_checkConditional ·) runs start_unforced
      have unforced : ∀ edge ∈ last.graph.edges, edge.forcesZero false = false := by
        intro edge edge_mem
        rw [Edge.forcesZero, (last_unforced edge edge_mem).1]
        rfl
      obtain ⟨rows, limit, admissible⟩ := exists_admissible_of_gathered (still_suited fresh) fresh.stage.well_formed
        fresh.ranked searched.incomplete unbounded unforced
      exact rows_ne_none_of_admissible fresh.stage.well_formed (fun node node_mem => (fresh.ranked node node_mem).1)
        fresh.partitioned last_sound searched.done admissible none_found

end AffineSchedule
