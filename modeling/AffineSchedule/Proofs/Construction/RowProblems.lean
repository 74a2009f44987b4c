import AffineSchedule.Proofs.Construction.Demands

namespace AffineSchedule

open Checked Linear Cone List Form Row ConeProblem

/-! ### Sums and bounds -/

variable {graph : Graph} {options : Options} {useBasis : Bool} {columns bound : ℕ} {node : Node} {rows : List Row}

/-- Columns with a common coefficient. -/
theorem termsValue_columns (columns : List ℕ) (coefficient : ℤ) (σ : Assignment) :
    termsValue (columns.map (·, coefficient)) σ = coefficient * (columns.map σ).sum := by
  induction columns with
  | nil => simp
  | cons column later ih =>
    rw [map_cons, termsValue_cons, ih, map_cons, sum_cons]
    ring

/-- A sum row holds where the column is the sum of the others. -/
theorem sumRow_holds_iff {sum : ℕ} {columns : List ℕ} {row : Row} (made : sumRow sum columns = .ok row)
    (σ : Assignment) : row.Holds σ ↔ σ sum = (columns.map σ).sum := by
  rw [make_holds_iff made, Sense.Admits, Form.value, termsValue_cons, termsValue_columns]
  push_cast
  constructor <;> intro holds <;> linarith

/-- The rows that bound both parts of a coefficient. -/
def pairBounds (bound : ℕ) (pair : ℕ × ℕ) : Checked (List Row) := do
  return [← atMost pair.1 bound, ← atMost pair.2 bound]

theorem pairBounds_hold_iff {pair : ℕ × ℕ} (made : pairBounds bound pair = .ok rows) (σ : Assignment) :
    (∀ row ∈ rows, row.Holds σ) ↔ σ pair.1 ≤ bound ∧ σ pair.2 ≤ bound := by
  simp only [pairBounds, bind_ok, pure_ok] at made
  obtain ⟨first, first_ok, second, second_ok, rfl⟩ := made
  simp [atMost_holds_iff first_ok, atMost_holds_iff second_ok]

/-- The rows that bound the absolute value of a form. -/
def formBounds (bound : ℕ) (form : Form) : Checked (List Row) := do
  let negated ← form.scaled (-1)
  let upper ← Row.make .nonnegative { negated with constant := ← Word.add negated.constant bound }
  let lower ← Row.make .nonnegative { form with constant := ← Word.add form.constant bound }
  return [upper, lower]

theorem formBounds_hold_iff {form : Form} (made : formBounds bound form = .ok rows) (σ : Assignment) :
    (∀ row ∈ rows, row.Holds σ) ↔ |form.value σ| ≤ bound := by
  simp only [formBounds, bind_ok, pure_ok, Word.add_ok_iff] at made
  obtain ⟨negated, negated_ok, _, ⟨_, rfl⟩, upper, upper_ok, _, ⟨_, rfl⟩, lower, lower_ok, rfl⟩ := made
  have negated_value := value_scaled σ negated_ok
  have shifted : ∀ start : Form, Form.value { start with constant := start.constant + bound } σ = start.value σ + bound := by
    intro start
    simp only [Form.value]
    push_cast
    ring
  simp only [forall_mem_cons, not_mem_nil, false_implies, implies_true, and_true,
    make_holds_iff upper_ok, make_holds_iff lower_ok, Sense.Admits, shifted, negated_value, abs_le]
  push_cast
  constructor
  · rintro ⟨above, below⟩
    constructor <;> linarith
  · rintro ⟨below, above⟩
    constructor <;> linarith

/-- The bounds on the coefficients of a node hold at an assignment. -/
structure Node.WithinBounds (node : Node) (options : Options) (useBasis : Bool)
    (σ : Assignment) : Prop where
  constant : ∀ bound : ℕ, options.maxConstantTerm = some bound → σ node.firstColumn ≤ bound
  params : ∀ bound : ℕ, options.maxCoefficient = some bound →
    ∀ pair ∈ node.paramPairs, σ pair.1 ≤ bound ∧ σ pair.2 ≤ bound
  dims : ∀ bound : ℕ, options.maxCoefficient = some bound → ∀ k, |(node.rowAt useBasis σ).dims k| ≤ bound

theorem boundRows_ok (made : boundRows node options useBasis = .ok rows) :
    ∃ constants coefficients, rows = constants ++ coefficients
      ∧ (options.maxConstantTerm = none ∧ constants = [] ∨ ∃ (bound : ℕ) (row : Row),
          options.maxConstantTerm = some bound ∧ atMost node.firstColumn bound = .ok row ∧ constants = [row])
      ∧ (options.maxCoefficient = none ∧ coefficients = [] ∨ ∃ (bound : ℕ) (forms : RowForms)
          (paramRows dimRows : List (List Row)), options.maxCoefficient = some bound
          ∧ RowForms.ofNode node useBasis = .ok forms ∧ node.paramPairs.mapM (pairBounds bound) = .ok paramRows
          ∧ forms.dims.mapM (formBounds bound) = .ok dimRows ∧ coefficients = paramRows.flatten ++ dimRows.flatten) := by
  cases constant_limit : options.maxConstantTerm with
  | none =>
    cases limit : options.maxCoefficient with
    | none =>
      simp only [boundRows, constant_limit, limit, bind_ok, pure_ok] at made
      obtain ⟨_, rfl, _, rfl, rfl⟩ := made
      exact ⟨[], [], rfl, Or.inl ⟨rfl, rfl⟩, Or.inl ⟨rfl, rfl⟩⟩
    | some bound =>
      simp only [boundRows, constant_limit, limit, bind_ok, pure_ok] at made
      obtain ⟨_, rfl, paramRows, params_ok, forms, formed, dimRows, dims_ok, _, rfl, rfl⟩ := made
      exact ⟨[], _, rfl, Or.inl ⟨rfl, rfl⟩, Or.inr ⟨bound, forms, paramRows, dimRows, rfl, formed, params_ok, dims_ok, rfl⟩⟩
  | some constantBound =>
    cases limit : options.maxCoefficient with
    | none =>
      simp only [boundRows, constant_limit, limit, bind_ok, pure_ok] at made
      obtain ⟨row, row_ok, _, rfl, _, rfl, rfl⟩ := made
      exact ⟨[row], [], rfl, Or.inr ⟨constantBound, row, rfl, row_ok, rfl⟩, Or.inl ⟨rfl, rfl⟩⟩
    | some bound =>
      simp only [boundRows, constant_limit, limit, bind_ok, pure_ok] at made
      obtain ⟨row, row_ok, _, rfl, paramRows, params_ok, forms, formed, dimRows, dims_ok, _, rfl, rfl⟩ := made
      exact ⟨[row], _, rfl, Or.inr ⟨constantBound, row, rfl, row_ok, rfl⟩,
        Or.inr ⟨bound, forms, paramRows, dimRows, rfl, formed, params_ok, dims_ok, rfl⟩⟩

theorem boundRows_hold_iff (made : boundRows node options useBasis = .ok rows) (σ : Assignment) :
    (∀ row ∈ rows, row.Holds σ) ↔ node.WithinBounds options useBasis σ := by
  obtain ⟨constants, coefficients, rfl, constants_spec, coefficients_spec⟩ := boundRows_ok made
  have constants_iff : (∀ row ∈ constants, row.Holds σ) ↔
      ∀ bound : ℕ, options.maxConstantTerm = some bound → σ node.firstColumn ≤ bound := by
    rcases constants_spec with ⟨unbounded, rfl⟩ | ⟨bound, row, limit, row_ok, rfl⟩
    · simp [unbounded]
    · simp [limit, atMost_holds_iff row_ok]
  have coefficients_iff : (∀ row ∈ coefficients, row.Holds σ) ↔
      (∀ bound : ℕ, options.maxCoefficient = some bound → ∀ pair ∈ node.paramPairs, σ pair.1 ≤ bound ∧ σ pair.2 ≤ bound)
        ∧ ∀ bound : ℕ, options.maxCoefficient = some bound → ∀ k, |(node.rowAt useBasis σ).dims k| ≤ bound := by
    rcases coefficients_spec with ⟨unbounded, rfl⟩ | ⟨bound, forms, paramRows, dimRows, limit, formed, params_ok, dims_ok, rfl⟩
    · simp [unbounded]
    · have dims_iff : (∀ form ∈ forms.dims, |form.value σ| ≤ bound) ↔ ∀ k, |(node.rowAt useBasis σ).dims k| ≤ bound := by
        rw [← (RowForms.row_ofNode formed).2.2 σ, RowForms.row]
        constructor
        · intro all k
          dsimp only [coefficient]
          rw [getD_eq_getElem?_getD]
          cases form_at : forms.dims[k]? with
          | none => simp
          | some form => exact all form (mem_of_getElem? form_at)
        · intro all form form_mem
          obtain ⟨k, form_at⟩ := getElem?_of_mem form_mem
          simpa [coefficient, getD_eq_getElem?_getD, form_at] using all k
      rw [forall_mem_append, forall_mem_flatten, forall_mem_flatten,
        (mapM_ok.mp params_ok).forall_mem_iff fun _ _ _ made => pairBounds_hold_iff made σ,
        (mapM_ok.mp dims_ok).forall_mem_iff fun _ _ _ made => formBounds_hold_iff made σ, dims_iff]
      simp [limit]
  rw [forall_mem_append, constants_iff, coefficients_iff]
  exact ⟨fun within => ⟨within.1, within.2.1, within.2.2⟩, fun within => ⟨within.constant, within.params, within.dims⟩⟩

/-- Some rows and the bounds of all nodes make a problem that is satisfied exactly where they hold. -/
theorem satisfies_addBounds_iff {base given problem : Problem} {integer : Bool}
    (base_ok : Problem.ofColumns columns integer = .ok base) (given_ok : base.addRows rows = .ok given)
    (bounds_ok : given.addBounds graph options useBasis = .ok problem) :
    problem.integer = List.replicate columns integer ∧ problem.Bounded
      ∧ ∀ σ, Satisfies σ problem.rows ↔ (∀ column, 0 ≤ σ column) ∧ (∀ row ∈ rows, row.Holds σ)
          ∧ ∀ node ∈ graph.nodes, node.WithinBounds options useBasis σ := by
  obtain rfl := Problem.ofColumns_ok base_ok
  obtain ⟨rfl, within⟩ := Problem.addRows_ok given_ok
  obtain ⟨groups, groups_ok, rfl, bounds_within⟩ := Problem.foldlM_addRows_ok bounds_ok
  refine ⟨rfl, forall_mem_append.mpr ⟨within, bounds_within⟩, fun σ => ?_⟩
  have bounds_iff := (mapM_ok.mp groups_ok).forall_mem_iff fun _ _ _ made => boundRows_hold_iff made σ
  rw [← forall_mem_flatten] at bounds_iff
  rw [← bounds_iff, ← forall_mem_append]
  exact ⟨fun satisfied => ⟨satisfied.nonneg, satisfied.holds⟩, fun ⟨nonneg, holds⟩ => ⟨nonneg, holds⟩⟩

/-! ### Columns of the nodes -/

namespace Graph

variable {coincide : Bool} {cache : ConeCache} {edge : Edge} {σ τ : Assignment} {demand : Demand} {search : RowSearch}
  {complete : ConeProblem} {noted placed : Graph}

/-- The nodes at the listed positions take separate ranges of columns; the other nodes keep theirs. -/
theorem placeNodes_spec (positions : List ℕ) (first : ℕ) (nodes : List Node) :
    first ≤ (placeNodes first nodes positions).2
      ∧ (∀ index ∉ positions, (placeNodes first nodes positions).1[index]? = nodes[index]?)
      ∧ (∀ index ∈ positions, ∀ node, (placeNodes first nodes positions).1[index]? = some node →
          first ≤ node.firstColumn ∧ node.firstColumn + node.columnCount ≤ (placeNodes first nodes positions).2)
      ∧ ∀ index ∈ positions, ∀ other ∈ positions, index ≠ other → ∀ a b,
          (placeNodes first nodes positions).1[index]? = some a → (placeNodes first nodes positions).1[other]? = some b →
          a.firstColumn + a.columnCount ≤ b.firstColumn ∨ b.firstColumn + b.columnCount ≤ a.firstColumn := by
  induction positions generalizing first nodes with
  | nil => simp [placeNodes]
  | cons head later ih =>
    unfold placeNodes
    split
    next absent =>
      obtain ⟨first_le, others, inside, apart⟩ := ih first nodes
      -- a index without a node stays without one
      have still_absent : (placeNodes first nodes later).1[head]? = none := by
        have length_eq := (redrawn_placeNodes later first nodes).length_eq
        rw [getElem?_eq_none_iff] at absent ⊢
        omega
      have in_later : ∀ index ∈ head :: later, ∀ node,
          (placeNodes first nodes later).1[index]? = some node → index ∈ later := by
        intro index position_mem node node_at
        rcases mem_cons.mp position_mem with rfl | position_mem
        · rw [still_absent] at node_at
          cases node_at
        · exact position_mem
      refine ⟨first_le, fun index outside => others index (fun found => outside (mem_cons_of_mem _ found)),
        fun index position_mem node node_at => inside index (in_later index position_mem node node_at) node node_at,
        ?_⟩
      intro index position_mem other other_mem different a b a_at b_at
      exact apart index (in_later index position_mem a a_at) other (in_later other other_mem b b_at) different
        a b a_at b_at
    next node node_at =>
      obtain ⟨first_le, others, inside, apart⟩ :=
        ih (first + node.columnCount) (nodes.set head { node with firstColumn := first })
      have head_at : head ∉ later → (placeNodes (first + node.columnCount)
          (nodes.set head { node with firstColumn := first }) later).1[head]? = some { node with firstColumn := first } := by
        intro fresh
        rw [others head fresh, getElem?_set_self (List.getElem?_eq_some_iff.mp node_at).1]
      refine ⟨by omega, ?_, ?_, ?_⟩
      · intro index outside
        rw [others index fun found => outside (mem_cons_of_mem _ found)]
        exact getElem?_set_ne fun same : head = index => outside (same ▸ mem_cons_self)
      · intro index position_mem found found_at
        by_cases in_later : index ∈ later
        · obtain ⟨behind, within⟩ := inside index in_later found found_at
          exact ⟨by omega, within⟩
        · obtain rfl := (mem_cons.mp position_mem).resolve_right in_later
          obtain rfl := Option.some.inj ((head_at in_later).symm.trans found_at)
          exact ⟨le_rfl, first_le⟩
      · intro index position_mem other other_mem different a b a_at b_at
        by_cases position_later : index ∈ later
        · by_cases other_later : other ∈ later
          · exact apart index position_later other other_later different a b a_at b_at
          · obtain rfl := (mem_cons.mp other_mem).resolve_right other_later
            obtain rfl := Option.some.inj ((head_at other_later).symm.trans b_at)
            exact Or.inr (inside index position_later a a_at).1
        · obtain rfl := (mem_cons.mp position_mem).resolve_right position_later
          have other_later : other ∈ later := (mem_cons.mp other_mem).resolve_left (Ne.symm different)
          obtain rfl := Option.some.inj ((head_at position_later).symm.trans a_at)
          exact Or.inl (inside other other_later b b_at).1

/-- Every node of a graph has its columns between two bounds. -/
def ColumnsWithin (graph : Graph) (first after : ℕ) : Prop :=
  ∀ node ∈ graph.nodes, first ≤ node.firstColumn ∧ node.firstColumn + node.columnCount ≤ after

theorem columnsWithin_placeColumns (sorted : ∀ index < graph.nodes.length, index ∈ graph.sorted) (first : ℕ) :
    (graph.placeColumns first).1.ColumnsWithin first (graph.placeColumns first).2 := by
  intro node node_mem
  obtain ⟨index, node_at⟩ := getElem?_of_mem node_mem
  have inside : index < graph.nodes.length := by
    rw [← length_nodes_of_core_eq (core_placeColumns graph first)]
    exact (List.getElem?_eq_some_iff.mp node_at).1
  exact (placeNodes_spec graph.sorted first graph.nodes).2.2.1 index (sorted index inside) node node_at

theorem rowsAt_congr {first after : ℕ} (within : graph.ColumnsWithin first after) (agree : ∀ column < after, τ column = σ column) :
    graph.rowsAt useBasis τ = graph.rowsAt useBasis σ := by
  funext index
  unfold rowsAt
  cases node_at : graph.nodes[index]? with
  | none => rfl
  | some node =>
    have last_le := (within node (mem_of_getElem? node_at)).2
    exact Node.rowAt_congr fun offset inside => agree _ (by omega)

/-! ### The problems -/

/-- A problem over the columns that the nodes of a graph get from `first` on: what is given about other columns, and the
    bounds on the coefficients. -/
structure NodeProblem (graph drawn : Graph) (options : Options) (useBasis integer : Bool)
    (first columns : ℕ) (given : Assignment → Prop) (problem : Problem) : Prop where
  redrawn : drawn.Redrawn graph
  conflict : drawn.conflict = graph.conflict
  nodes_eq : (graph.placeColumns first).1.nodes = drawn.nodes
  columns_eq : (graph.placeColumns first).2 = columns
  integer_eq : problem.integer = List.replicate columns integer
  bounded : problem.Bounded
  satisfies_iff : ∀ σ, Satisfies σ problem.rows ↔ (∀ column, 0 ≤ σ column) ∧ given σ
    ∧ ∀ node ∈ drawn.nodes, node.WithinBounds options useBasis σ

namespace NodeProblem

variable {drawn : Graph} {integer : Bool} {first : ℕ} {given : Assignment → Prop}
  {problem : Problem} (parts : NodeProblem graph drawn options useBasis integer first columns given problem)
include parts

theorem columns_problem : problem.columns = columns := by
  rw [Problem.columns, parts.integer_eq, length_replicate]

theorem first_le : first ≤ columns := by
  rw [← parts.columns_eq]
  exact (placeNodes_spec graph.sorted first graph.nodes).1

theorem columnsWithin (partitioned : graph.Partitioned) : drawn.ColumnsWithin first columns := by
  have within := columnsWithin_placeColumns partitioned.sorted first
  rwa [ColumnsWithin, parts.nodes_eq, parts.columns_eq] at within

theorem wellFormed (well_formed : graph.WellFormed) : drawn.WellFormed :=
  wellFormed_of_core_eq parts.redrawn.core_eq.symm well_formed

theorem based (based : ∀ node ∈ graph.nodes, node.Based) : ∀ node ∈ drawn.nodes, node.Based :=
  forall_node_of_core_eq parts.redrawn.core_eq.symm (fun _ _ core_eq => Node.based_of_core_eq core_eq) based

/-- The columns before the multipliers are integer columns where the problem asks for it, and the others are not. -/
theorem integer_iff {demands : List Demand}
    (met : ConeProblem.Met drawn useBasis demands { problem := problem, cache := cache } complete) (is_integer : integer = true)
    {column : ℕ} : complete.problem.integer[column]? = some true ↔ column < columns := by
  refine ⟨fun integral => parts.columns_problem ▸ met.rational column integral, fun inside => ?_⟩
  have front := met.continues.integer
  rw [parts.integer_eq, is_integer] at front
  rw [Node.getElem?_eq_of_front front (by simpa using inside), getElem?_replicate_of_lt inside]

end NodeProblem

/-- The sums of the problem of the next row. -/
structure RowSums (graph : Graph) (paramCount : ℕ) (σ : Assignment) : Prop where
  bound : σ 0 = (((List.range (2 * paramCount)).map (4 + ·)).map σ).sum
  params : σ 2 = (graph.paramColumns.map σ).sum
  dims : σ 3 = (graph.dimColumns.map σ).sum

/-- The problem of the next row: sums and bounds over the columns of the nodes, and a cone for every demand. -/
theorem rowProblem_ok (done : graph.rowProblem cache options coincide = .ok (noted, complete, columns)) :
    ∃ bounded forms, graph.NodeProblem noted options true true (4 + 2 * graph.params.length) columns
        (noted.RowSums graph.params.length) bounded ∧ noted.coefficientForms true = .ok forms
      ∧ ((∀ form ∈ forms, form.params.length = graph.params.length) →
          (rowDemands graph.edges graph.params.length coincide).foldlM (ConeProblem.meet forms)
            { problem := bounded, cache := cache } = .ok complete) := by
  simp only [rowProblem, bind_ok, pure_ok, Prod.mk.injEq] at done
  obtain ⟨boundSum, boundSum_ok, paramSum, paramSum_ok, dimSum, dimSum_ok, base, base_ok, summed, summed_ok, bounded,
    bounded_ok, ⟨marked, forward⟩, forward_ok, final, final_ok, rfl, rfl, rfl⟩ := done
  have demands_ok : (_ >>= fun result : Graph × ConeProblem => result.1.addBounded coincide result.2) = _ :=
    bind_ok.mpr ⟨_, forward_ok, final_ok⟩
  simp only [Graph.addForward, bind_ok, pure_ok, Prod.mk.injEq] at forward_ok
  obtain ⟨forms, formed, _, _, _, inter_ok, rfl, _⟩ := forward_ok
  obtain ⟨integer_eq, is_bounded, satisfies_iff⟩ := satisfies_addBounds_iff base_ok summed_ok bounded_ok
  refine ⟨bounded, forms, ⟨⟨rfl, (redrawn_placeColumns graph _).nodes, noted_of_addForwardInter inter_ok⟩, rfl, rfl, rfl,
    integer_eq, is_bounded, fun σ => ?_⟩, formed, fun params_eq => (cuts_addDemands formed params_eq).of_ok demands_ok⟩
  rw [satisfies_iff]
  simp only [forall_mem_cons, not_mem_nil, false_implies, implies_true, and_true, sumRow_holds_iff boundSum_ok,
    sumRow_holds_iff paramSum_ok, sumRow_holds_iff dimSum_ok]
  exact and_congr_right fun _ => and_congr_left fun _ =>
    ⟨fun sums => ⟨sums.1, sums.2.1, sums.2.2⟩, fun sums => ⟨sums.bound, sums.params, sums.dims⟩⟩

/-- The demands of the next row are laid out as the edges are. -/
theorem laidOut_of_mem_rowDemands (well_formed : graph.WellFormed)
    (demand_mem : demand ∈ rowDemands graph.edges graph.params.length coincide) :
    demand.LaidOut graph.dims graph.params.length ∧ ∀ columns, 4 + 2 * graph.params.length ≤ columns → demand.bound.LocalTo columns := by
  obtain ⟨edge_mem, disjunct_mem, asked⟩ := of_mem_rowDemands demand_mem
  have bound_cases : demand.bound = DistanceBound.zero graph.params.length
      ∨ demand.bound = DistanceBound.inColumns graph.params.length := by
    rcases asked with ⟨_, bound_eq, _⟩ | ⟨_, bound_eq⟩ | ⟨_, _, bound_eq, _⟩
    · exact Or.inl bound_eq
    · exact Or.inl bound_eq
    · exact Or.inr bound_eq
  refine ⟨⟨well_formed.edges demand.edge edge_mem, disjunct_mem, ?_⟩, fun columns behind σ τ agree => ?_⟩
  · rcases bound_cases with bound_eq | bound_eq <;> simp [bound_eq, DistanceBound.zero, DistanceBound.inColumns]
  · rcases bound_cases with bound_eq | bound_eq
    · rw [bound_eq]
      exact ⟨by simp [DistanceBound.zero], coefficient_congr fun form form_mem => by
        rw [eq_of_mem_replicate form_mem, value_zero, value_zero]⟩
    · rw [bound_eq]
      refine ⟨?_, coefficient_congr fun form form_mem => ?_⟩
      · simp only [DistanceBound.inColumns, value_column]
        exact agree 1 (by omega)
      · simp only [DistanceBound.inColumns, mem_map, mem_range] at form_mem
        obtain ⟨index, inside, rfl⟩ := form_mem
        rw [RowForms.ofPair, value_difference, value_difference, agree _ (by dsimp only; omega),
          agree _ (by dsimp only; omega)]

/-- At the problem of the next row, all its demands have been met. -/
theorem met_of_rowProblem (well_formed : graph.WellFormed) (based : ∀ node ∈ graph.nodes, node.Based) (sound : cache.Sound)
    (done : graph.rowProblem cache options coincide = .ok (noted, complete, columns)) :
    ∃ bounded, graph.NodeProblem noted options true true (4 + 2 * graph.params.length) columns
        (noted.RowSums graph.params.length) bounded
      ∧ ConeProblem.Met noted true (rowDemands graph.edges graph.params.length coincide)
          { problem := bounded, cache := cache } complete := by
  obtain ⟨bounded, forms, parts, formed, folded⟩ := rowProblem_ok done
  have fit := formsLaidOut (parts.wellFormed well_formed) (fun _ => parts.based based) formed
  refine ⟨bounded, parts, (meets_demands ⟨parts.bounded, sound⟩ fit formed fun demand demand_mem => ?_).result
    complete (folded (parts.redrawn.params_eq ▸ fit.params))⟩
  rw [parts.redrawn.dims_eq, parts.redrawn.params_eq]
  exact (laidOut_of_mem_rowDemands well_formed demand_mem).1

/-- The search for the next row: its problem is solved, and a solution is read off. -/
theorem nextRow_ok (done : graph.nextRow cache options coincide = .ok search) :
    ∃ noted complete columns outcome, graph.rowProblem cache options coincide = .ok (noted, complete, columns)
      ∧ complete.problem.nonTrivialLexmin ((List.range columns).map fun column => [(column, 1)])
          noted.independenceRegions options.branchNodeLimit = .ok outcome
      ∧ search.cache = complete.cache ∧ (∃ conflict, search.graph = { noted with conflict := conflict })
      ∧ (∀ rows, search.rows = some rows → ∃ point, outcome.solution = some point ∧ noted.readRows point true = .ok rows)
      ∧ (search.rows = none → outcome.solution = none) := by
  simp only [nextRow, bind_ok] at done
  obtain ⟨⟨noted, complete, columns⟩, problem_ok, outcome, outcome_ok, done⟩ := done
  refine ⟨noted, complete, columns, outcome, problem_ok, outcome_ok, ?_⟩
  split at done
  next point solution =>
    obtain ⟨rows, read, done⟩ := bind_ok.mp done
    obtain rfl := pure_ok.mp done
    refine ⟨rfl, ⟨noted.conflict, rfl⟩, ?_, fun none_found => by cases none_found⟩
    rintro _ ⟨⟩
    exact ⟨point, solution, read⟩
  next no_solution =>
    obtain rfl := pure_ok.mp done
    exact ⟨rfl, ⟨_, rfl⟩, fun rows found => (by cases found), fun _ => no_solution⟩

theorem redrawn_of_nextRow (done : graph.nextRow cache options coincide = .ok search) : search.graph.Redrawn graph := by
  obtain ⟨noted, complete, columns, outcome, problem_ok, _, _, ⟨conflict, search_eq⟩, _⟩ := nextRow_ok done
  obtain ⟨_, _, parts, _⟩ := rowProblem_ok problem_ok
  rw [search_eq]
  exact ⟨congrArg (fun drawn => { drawn with conflict := conflict }) parts.redrawn.rest, parts.redrawn.nodes,
    parts.redrawn.edges⟩

/-- The sums and caps of the carrying problem. -/
structure CarrySums (graph : Graph) (count : ℕ) (σ : Assignment) : Prop where
  missing : σ 0 + (((List.range count).map (3 + ·)).map σ).sum = count
  params : σ 1 = (graph.paramColumns.map σ).sum
  dims : σ 2 = (graph.dimColumns.map σ).sum
  caps : ∀ number < count, σ (3 + number) ≤ 1

/-- The demands of the carrying problem: every disjunct of any validity has a distance of at least its own column. -/
def carriedDemands (graph : Graph) : List Demand :=
  graph.validityDisjuncts.zipIdx.map fun entry =>
    { edge := entry.1.1
      disjunct := entry.1.2
      bound :=
        { constant := { terms := [(3 + entry.2, -1)], constant := 0 }
          params := List.replicate graph.params.length Form.zero }
      scale := 1 }

theorem carryingProblem_ok (done : graph.carryingProblem cache options = .ok (placed, complete, columns)) :
    ∃ bounded forms, graph.NodeProblem placed options false false (3 + graph.validityDisjuncts.length) columns
        (placed.CarrySums graph.validityDisjuncts.length) bounded ∧ placed.coefficientForms false = .ok forms
      ∧ placed.edges = graph.edges ∧ graph.validityDisjuncts.zipIdx.foldlM (addCarried forms graph.params.length)
          { problem := bounded, cache := cache } = .ok complete := by
  simp only [carryingProblem, bind_ok, pure_ok, Prod.mk.injEq] at done
  obtain ⟨carried, carried_ok, paramSum, paramSum_ok, dimSum, dimSum_ok, caps, caps_ok, base, base_ok, capped, capped_ok,
    bounded, bounded_ok, forms, formed, final, folded, rfl, rfl, rfl⟩ := done
  obtain ⟨integer_eq, is_bounded, satisfies_iff⟩ := satisfies_addBounds_iff base_ok capped_ok bounded_ok
  refine ⟨bounded, forms, ⟨redrawn_placeColumns graph _, rfl, rfl, rfl, integer_eq, is_bounded, fun σ => ?_⟩, formed, rfl, folded⟩
  have caps_iff := (mapM_ok.mp caps_ok).forall_mem_iff fun _ _ _ made => atMost_holds_iff made σ
  have carried_iff : carried.Holds σ ↔ σ 0 + (((List.range graph.validityDisjuncts.length).map (3 + ·)).map σ).sum
      = graph.validityDisjuncts.length := by
    rw [make_holds_iff carried_ok, Sense.Admits, Form.value, termsValue_cons, termsValue_columns]
    push_cast
    constructor <;> intro holds <;> linarith
  rw [satisfies_iff, forall_mem_append, caps_iff]
  simp only [forall_mem_cons, not_mem_nil, false_implies, implies_true, and_true, carried_iff,
    sumRow_holds_iff paramSum_ok, sumRow_holds_iff dimSum_ok, forall_mem_map, mem_range]
  exact and_congr_right fun _ => and_congr_left fun _ => ⟨fun sums => ⟨sums.1.1, sums.1.2.1, sums.1.2.2, sums.2⟩,
    fun sums => ⟨⟨sums.missing, sums.params, sums.dims⟩, sums.caps⟩⟩

/-- The rows leave every disjunct of any validity a distance of at least its column. -/
def CarriesAt (graph : Graph) (rows : ℕ → AffineRow ℚ) (σ : Assignment) : Prop :=
  ∀ number edge disjunct, graph.validityDisjuncts[number]? = some (edge, disjunct) → disjunct.MayHold →
    ∀ columns params : ℕ → ℚ, disjunct.system.HoldsAt columns params →
      σ (3 + number) ≤ disjunct.distance (rows edge.source) (rows edge.target) columns params

theorem keptAt_carriedDemands_iff {rows : ℕ → AffineRow ℚ} :
    (∀ demand ∈ graph.carriedDemands, demand.KeptAt rows σ) ↔ graph.CarriesAt rows σ := by
  have bound_value : ∀ (number : ℕ) (params : ℕ → ℚ), DistanceBound.value { constant := { terms := [(3 + number, -1)], constant := 0 }, params := List.replicate graph.params.length Form.zero } σ params = -σ (3 + number) := by
    intro number params
    have zero_value := DistanceBound.value_zero graph.params.length σ params
    simp only [DistanceBound.value, DistanceBound.zero, value_zero, zero_add] at zero_value ⊢
    rw [zero_value]
    simp [Form.value]
  simp only [carriedDemands, forall_mem_map, Demand.KeptAt, bound_value, CarriesAt]
  constructor
  · intro kept number edge disjunct entry_at may_hold columns params holds
    have nonneg := kept ((edge, disjunct), number) (mem_zipIdx_iff_getElem?.mpr entry_at) may_hold columns params holds
    push_cast at nonneg
    linarith
  · rintro carries ⟨⟨edge, disjunct⟩, number⟩ entry_mem may_hold columns params holds
    have least := carries number edge disjunct (mem_zipIdx_iff_getElem?.mp entry_mem) may_hold columns params holds
    push_cast
    linarith

theorem mem_validityDisjuncts_iff {disjunct : Conjunct} : (edge, disjunct) ∈ graph.validityDisjuncts ↔
    edge ∈ graph.edges ∧ edge.isAnyValidity = true ∧ disjunct ∈ edge.relation.disjuncts := by
  simp only [validityDisjuncts, mem_flatMap, mem_filter, mem_map, Prod.mk.injEq]
  constructor
  · rintro ⟨_, ⟨edge_mem, any_validity⟩, _, disjunct_mem, rfl, rfl⟩
    exact ⟨edge_mem, any_validity, disjunct_mem⟩
  · rintro ⟨edge_mem, any_validity, disjunct_mem⟩
    exact ⟨edge, ⟨edge_mem, any_validity⟩, disjunct, disjunct_mem, rfl, rfl⟩

/-- The demands of the carrying problem are laid out as the edges are. -/
theorem laidOut_of_mem_carriedDemands (well_formed : graph.WellFormed) (demand_mem : demand ∈ graph.carriedDemands) :
    demand.LaidOut graph.dims graph.params.length
      ∧ ∀ columns, 3 + graph.validityDisjuncts.length ≤ columns → demand.bound.LocalTo columns := by
  obtain ⟨⟨⟨edge, disjunct⟩, number⟩, entry_mem, rfl⟩ := mem_map.mp demand_mem
  have entry_at := mem_zipIdx_iff_getElem?.mp entry_mem
  obtain ⟨edge_mem, _, disjunct_mem⟩ := mem_validityDisjuncts_iff.mp (mem_of_getElem? entry_at)
  refine ⟨⟨well_formed.edges edge edge_mem, disjunct_mem, length_replicate⟩, fun columns behind σ τ agree => ⟨?_, ?_⟩⟩
  · have inside := (List.getElem?_eq_some_iff.mp entry_at).1
    simp [Form.value, agree (3 + number) (by dsimp only at inside; omega)]
  · exact coefficient_congr fun form form_mem => by
      rw [eq_of_mem_replicate form_mem, value_zero, value_zero]

/-- The rows of the carrying problem plug in its demands. -/
theorem cuts_carriedDemands {forms : List RowForms} {state : ConeProblem} (well_formed : graph.WellFormed) :
    Cuts Fault.Routine (graph.validityDisjuncts.zipIdx.foldlM (addCarried forms graph.params.length) state)
      (graph.carriedDemands.foldlM (ConeProblem.meet forms) state) := by
  rw [carriedDemands, foldlM_map]
  refine .foldlM ?_ state
  rintro grown ⟨⟨edge, disjunct⟩, number⟩ entry_mem
  obtain ⟨edge_mem, _, disjunct_mem⟩ :=
    mem_validityDisjuncts_iff.mp (mem_of_getElem? (mem_zipIdx_iff_getElem?.mp entry_mem))
  exact cuts_addCarried number (well_formed.edges edge edge_mem) disjunct_mem

/-- At the carrying problem, all its demands have been met. -/
theorem met_of_carryingProblem (well_formed : graph.WellFormed) (sound : cache.Sound)
    (done : graph.carryingProblem cache options = .ok (placed, complete, columns)) :
    ∃ bounded, graph.NodeProblem placed options false false (3 + graph.validityDisjuncts.length) columns
        (placed.CarrySums graph.validityDisjuncts.length) bounded ∧ placed.edges = graph.edges
      ∧ ConeProblem.Met placed false graph.carriedDemands { problem := bounded, cache := cache } complete := by
  obtain ⟨bounded, forms, parts, formed, edges_eq, folded⟩ := carryingProblem_ok done
  have fit := formsLaidOut (parts.wellFormed well_formed) (fun impossible => absurd impossible Bool.false_ne_true) formed
  refine ⟨bounded, parts, edges_eq, (meets_demands ⟨parts.bounded, sound⟩ fit formed fun demand demand_mem =>
    ?_).result complete ((cuts_carriedDemands well_formed).of_ok folded)⟩
  rw [parts.redrawn.dims_eq, parts.redrawn.params_eq]
  exact (laidOut_of_mem_carriedDemands well_formed demand_mem).1

end Graph

end AffineSchedule
