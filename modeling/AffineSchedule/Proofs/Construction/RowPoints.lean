import AffineSchedule.Proofs.Construction.RowProblems
import AffineSchedule.Proofs.Dependence.Bookkeeping

namespace AffineSchedule

open Checked Linear List Finset Node Lattice

/-! ### Rows of the sizes of the nodes -/

variable {node : Node} {graph : Graph} {options : Options} {rows : ℕ → AffineRow ℚ} {useBasis : Bool}
  {first columns column k : ℕ} {base : Assignment} {cache : ConeCache} {complete : ConeProblem} {edge : Edge}

/-- The row without entries beyond the parameters and the dimensions. -/
def AffineRow.trimmed (row : AffineRow ℚ) (paramCount dim : ℕ) : AffineRow ℚ where
  constant := row.constant
  params i := if i < paramCount then row.params i else 0
  dims k := if k < dim then row.dims k else 0

theorem AffineRow.time_trimmed (row : AffineRow ℚ) (paramCount dim : ℕ) (params point : ℕ → ℚ) :
    (row.trimmed paramCount dim).time paramCount dim params point = row.time paramCount dim params point := by
  have params_eq : ∀ i ∈ Finset.range paramCount, params i * (row.trimmed paramCount dim).params i = params i * row.params i :=
    fun i i_mem => congrArg _ (if_pos (Finset.mem_range.mp i_mem))
  have dims_eq : ∀ k ∈ Finset.range dim, point k * (row.trimmed paramCount dim).dims k = point k * row.dims k :=
    fun k k_mem => congrArg _ (if_pos (Finset.mem_range.mp k_mem))
  rw [time, time, sum_congr rfl params_eq, sum_congr rfl dims_eq, trimmed]

namespace Graph

/-- The rows without entries beyond the sizes of the nodes. -/
def trimmed (graph : Graph) (rows : ℕ → AffineRow ℚ) (place : ℕ) : AffineRow ℚ :=
  graph.nodes[place]?.elim AffineRow.zero fun node => (rows place).trimmed node.space.params node.space.dim

theorem distance_trimmed (well_formed : graph.WellFormed) (edge_mem : edge ∈ graph.edges) {disjunct : Conjunct}
    (disjunct_mem : disjunct ∈ edge.relation.disjuncts) (rows : ℕ → AffineRow ℚ) (columns params : ℕ → ℚ) :
    disjunct.distance (graph.trimmed rows edge.source) (graph.trimmed rows edge.target) columns params
      = disjunct.distance (rows edge.source) (rows edge.target) columns params := by
  obtain ⟨source, target, source_at, target_at⟩ := well_formed.exists_ends edge_mem
  obtain ⟨_, _, laid_out⟩ := well_formed.laidOut_ends edge_mem source_at target_at disjunct_mem
  have source_params := (well_formed.nodes source (mem_of_getElem? source_at)).params
  have target_params := (well_formed.nodes target (mem_of_getElem? target_at)).params
  rw [trimmed, trimmed, source_at, target_at, Conjunct.distance, Conjunct.distance, laid_out.params, laid_out.inputs,
    laid_out.outputs, Option.elim_some, Option.elim_some, source_params, target_params, AffineRow.time_trimmed,
    AffineRow.time_trimmed]

end Graph

theorem sum_mul_sum_of_mul_eq_one {left right : RowMatrix} {width : ℕ} (inverse : squareOf width left * squareOf width right = 1)
    (vector : ℕ → ℚ) (inside : k < width) : ∑ d ∈ Finset.range width, (entryAt left.rows k d : ℚ)
      * ∑ e ∈ Finset.range width, (entryAt right.rows d e : ℚ) * vector e = vector k := by
  have product : ∀ e < width, ∑ d ∈ Finset.range width, (entryAt left.rows k d : ℚ) * entryAt right.rows d e
      = if k = e then 1 else 0 := by
    intro e e_lt
    have entry_eq := congrFun (congrFun inverse ⟨k, inside⟩) ⟨e, e_lt⟩
    rw [Matrix.mul_apply, Matrix.one_apply] at entry_eq
    rw [sum_range]
    simp only [squareOf, Fin.mk.injEq] at entry_eq
    exact_mod_cast entry_eq
  calc _ = ∑ e ∈ Finset.range width, (∑ d ∈ Finset.range width,
          (entryAt left.rows k d : ℚ) * entryAt right.rows d e) * vector e := by
        simp only [mul_sum, sum_mul, mul_assoc]
        exact sum_comm
    _ = ∑ e ∈ Finset.range width, (if k = e then 1 else 0) * vector e :=
        sum_congr rfl fun e e_mem => by rw [product e (Finset.mem_range.mp e_mem)]
    _ = vector k := by simp [inside]

namespace Node

variable {d : ℕ}

/-- The node has the column. -/
def HasColumn (node : Node) (column : ℕ) : Prop :=
  node.firstColumn ≤ column ∧ column < node.firstColumn + node.columnCount

instance (node : Node) (column : ℕ) : Decidable (node.HasColumn column) := by
  unfold HasColumn
  infer_instance

/-- The coordinate of a row in a dimension, by the inverse of the basis or directly. -/
def coordinate (node : Node) (useBasis : Bool) (row : AffineRow ℚ) (d : ℕ) : ℚ :=
  if useBasis then ∑ e ∈ Finset.range node.space.dim, (entryAt node.coordinates.rows d e : ℚ) * row.dims e else row.dims d

/-- The coefficients of a row by pairs of columns: the parameters, then the coordinates from the last to the first. -/
def pairEntry (node : Node) (useBasis : Bool) (row : AffineRow ℚ) (index : ℕ) : ℚ :=
  if index < node.space.params then row.params index
  else node.coordinate useBasis row (node.space.dim - 1 - (index - node.space.params))

theorem pairEntry_dim {row : AffineRow ℚ} (inside : d < node.space.dim) :
    node.pairEntry useBasis row (node.space.params + (node.space.dim - 1 - d)) = node.coordinate useBasis row d := by
  rw [pairEntry, if_neg (by omega), Nat.add_sub_cancel_left, show node.space.dim - 1 - (node.space.dim - 1 - d) = d by omega]

/-- The columns of a node at a row, counted from its first one. -/
def columnEntry (node : Node) (useBasis : Bool) (row : AffineRow ℚ) : ℕ → ℚ
  | 0 => row.constant
  | offset + 1 => Lattice.parts (node.pairEntry useBasis row) offset

/-- A row is the combination of the basis by its coordinates. -/
theorem sum_basis_coordinate (based : node.Based) (laid_out : node.LaidOut node.space.params) (row : AffineRow ℚ) (k : ℕ) :
    ∑ d ∈ Finset.range node.space.dim, (entryAt node.basis.rows k d : ℚ) * node.coordinate true row d
      = if k < node.space.dim then row.dims k else 0 := by
  split_ifs with inside
  · exact sum_mul_sum_of_mul_eq_one (based.framed laid_out).inverse row.dims inside
  · have no_row : node.basis.rows.getD k [] = [] :=
      getD_eq_default _ _ ((based.height_basis laid_out).trans_le (not_lt.mp inside))
    refine Finset.sum_eq_zero fun d _ => ?_
    rw [entryAt, no_row, getD_nil, Int.cast_zero, zero_mul]

section ColumnsAt

variable {index : ℕ} {σ : Assignment} {row : AffineRow ℚ}
  (columns_eq : ∀ offset < node.columnCount, σ (node.firstColumn + offset) = node.columnEntry useBasis row offset)
include columns_eq

/-- A pair of columns holds the parts of its coefficient. -/
theorem pair_of_columns (inside : index < node.space.params + node.space.dim) :
    σ (node.pairAt index).1 = Lattice.parts (node.pairEntry useBasis row) (2 * index)
      ∧ σ (node.pairAt index).2 = Lattice.parts (node.pairEntry useBasis row) (2 * index + 1) := by
  have count_eq : node.columnCount = 1 + 2 * node.space.params + 2 * node.space.dim := rfl
  have negative := columns_eq (2 * index + 1) (by omega)
  have positive := columns_eq (2 * index + 1 + 1) (by omega)
  rw [show node.firstColumn + (2 * index + 1) = (node.pairAt index).1 by simp only [pairAt]; omega] at negative
  rw [show node.firstColumn + (2 * index + 1 + 1) = (node.pairAt index).2 by simp only [pairAt]; omega] at positive
  exact ⟨negative, positive⟩

theorem part_of_columns (inside : index < node.space.params + node.space.dim) :
    node.part σ index = node.pairEntry useBasis row index := by
  obtain ⟨negative, positive⟩ := pair_of_columns columns_eq inside
  rw [part, negative, positive, parts_sub]

theorem coordinateAt_of_columns (inside : d < node.space.dim) : node.coordinateAt σ d = node.coordinate useBasis row d := by
  rw [coordinateAt, if_pos inside, part_of_columns columns_eq (by omega), pairEntry_dim inside]

theorem rowAt_of_columns (based : useBasis = true → node.Based) (laid_out : node.LaidOut node.space.params) :
    node.rowAt useBasis σ = row.trimmed node.space.params node.space.dim := by
  unfold rowAt AffineRow.trimmed
  congr 1
  · exact columns_eq 0 (by unfold columnCount; omega)
  · funext i
    split_ifs with inside
    · rw [part_of_columns columns_eq (by omega), pairEntry, if_pos inside]
    · rfl
  · funext k
    cases useBasis with
    | false =>
      rw [if_neg Bool.false_ne_true]
      split_ifs with inside
      · exact coordinateAt_of_columns columns_eq inside
      · exact if_neg inside
    | true =>
      rw [if_pos rfl, ← sum_basis_coordinate (based rfl) laid_out row k]
      exact sum_congr rfl fun d d_mem => by
        rw [coordinateAt_of_columns columns_eq (Finset.mem_range.mp d_mem)]

end ColumnsAt

end Node

/-- No two nodes of the list share a column. -/
def Node.Apart (nodes : List Node) : Prop :=
  ∀ (i j : ℕ) (a b : Node), nodes[i]? = some a → nodes[j]? = some b → i ≠ j →
    a.firstColumn + a.columnCount ≤ b.firstColumn ∨ b.firstColumn + b.columnCount ≤ a.firstColumn

namespace Graph

variable {place : ℕ}

/-- The columns of the nodes at rows for them, behind the first columns, which are given. -/
def spread (graph : Graph) (useBasis : Bool) (rows : ℕ → AffineRow ℚ) (first : ℕ) (base : Assignment) : Assignment :=
  fun column =>
    if column < first then base column
    else match graph.nodes.zipIdx.find? (·.1.HasColumn column) with
      | none => 0
      | some (node, place) => node.columnEntry useBasis (rows place) (column - node.firstColumn)

theorem spread_of_lt (graph : Graph) (useBasis : Bool) (rows : ℕ → AffineRow ℚ) (base : Assignment)
    (before : column < first) : graph.spread useBasis rows first base column = base column := if_pos before

theorem spread_invariant (holds : ℚ → Prop) (zero : holds 0) (given : ∀ column < first, holds (base column))
    (at_node : ∀ (place : ℕ) (node : Node), graph.nodes[place]? = some node →
      ∀ offset, holds (node.columnEntry useBasis (rows place) offset)) (column : ℕ) :
    holds (graph.spread useBasis rows first base column) := by
  unfold spread
  split_ifs with before
  · exact given column before
  · split
    next => exact zero
    next node place found =>
      exact at_node place node (mem_zipIdx_iff_getElem?.mp (mem_of_find?_eq_some found)) _

/-- A column of a node holds the entry of its row. -/
theorem spread_of_node (apart : Node.Apart graph.nodes) (node_at : graph.nodes[place]? = some node)
    (behind : first ≤ node.firstColumn) {offset : ℕ} (inside : offset < node.columnCount) :
    graph.spread useBasis rows first base (node.firstColumn + offset) = node.columnEntry useBasis (rows place) offset := by
  have has : node.HasColumn (node.firstColumn + offset) := ⟨by omega, by omega⟩
  have found : graph.nodes.zipIdx.find? (·.1.HasColumn (node.firstColumn + offset)) = some (node, place) := by
    obtain ⟨⟨owner, index⟩, owner_found⟩ := Option.isSome_iff_exists.mp
      (find?_isSome.mpr ⟨(node, place), mem_zipIdx_iff_getElem?.mpr node_at, decide_eq_true has⟩ :
        (graph.nodes.zipIdx.find? (·.1.HasColumn (node.firstColumn + offset))).isSome)
    have owner_at : graph.nodes[index]? = some owner := mem_zipIdx_iff_getElem?.mp (mem_of_find?_eq_some owner_found)
    obtain ⟨owner_from, owner_to⟩ : owner.HasColumn (node.firstColumn + offset) := by
      simpa using find?_some owner_found
    rcases eq_or_ne place index with rfl | different
    · rw [owner_found, Option.mem_unique owner_at node_at]
    · have separate := apart place index node owner node_at owner_at different
      omega
  rw [spread, if_neg (by omega), found]
  dsimp only
  rw [Nat.add_sub_cancel_left]

/-- The rows at the columns that hold them. -/
theorem rowsAt_spread (well_formed : graph.WellFormed) (based : useBasis = true → ∀ node ∈ graph.nodes, node.Based)
    (apart : Node.Apart graph.nodes) (within : graph.ColumnsWithin first columns) :
    graph.rowsAt useBasis (graph.spread useBasis rows first base) = graph.trimmed rows := by
  funext place
  unfold rowsAt trimmed
  cases node_at : graph.nodes[place]? with
  | none => rfl
  | some node =>
    have node_mem := mem_of_getElem? node_at
    have laid_out := well_formed.nodes node node_mem
    exact rowAt_of_columns (fun _ inside => spread_of_node apart node_at (within node node_mem).1 inside)
      (fun uses => based uses node node_mem) (laid_out.params.symm ▸ laid_out)

/-! ### Costs -/

/-- The sum of the absolute values of the parameter coefficients. -/
def paramCost (graph : Graph) (rows : ℕ → AffineRow ℚ) : ℚ :=
  ∑ place : Fin graph.nodes.length, ∑ i ∈ Finset.range graph.nodes[place].space.params, |(rows place).params i|

/-- The sum of the absolute values of the coordinates of the dimensions. -/
def coordinateCost (graph : Graph) (useBasis : Bool) (rows : ℕ → AffineRow ℚ) : ℚ :=
  ∑ place : Fin graph.nodes.length, ∑ d ∈ Finset.range graph.nodes[place].space.dim,
    |graph.nodes[place].coordinate useBasis (rows place) d|

/-- The sum of the columns of pairs, node by node. -/
theorem sum_pairColumns (pairs : Node → List (ℕ × ℕ)) (σ : Assignment) :
    ((graph.nodes.flatMap fun node => (pairs node).flatMap fun pair => [pair.1, pair.2]).map σ).sum
      = ∑ place : Fin graph.nodes.length, ((pairs graph.nodes[place]).map fun pair => σ pair.1 + σ pair.2).sum := by
  have of_pairs : ∀ list : List (ℕ × ℕ), ((list.flatMap fun pair => [pair.1, pair.2]).map σ).sum
      = (list.map fun pair => σ pair.1 + σ pair.2).sum := by
    intro list
    induction list with
    | nil => rfl
    | cons pair later ih => simp [ih, add_assoc]
  refine Eq.trans ?_ (Fin.sum_univ_fun_getElem graph.nodes fun node => ((pairs node).map fun pair => σ pair.1 + σ pair.2).sum).symm
  induction graph.nodes with
  | nil => rfl
  | cons node later ih => simp [ih, of_pairs]

end Graph

namespace Node

theorem sum_paramPairs (node : Node) (f : ℕ × ℕ → ℚ) :
    (node.paramPairs.map f).sum = ∑ i ∈ Finset.range node.space.params, f (node.pairAt i) := by
  rw [paramPairs, List.map_map]
  rfl

theorem sum_dimPairs (node : Node) (f : ℕ × ℕ → ℚ) : (node.dimPairs.map f).sum
    = ∑ d ∈ Finset.range node.space.dim, f (node.pairAt (node.space.params + (node.space.dim - 1 - d))) := by
  rw [dimPairs, List.map_map]
  rfl

end Node

namespace Graph

theorem sum_columns_spread (apart : Node.Apart graph.nodes) (within : graph.ColumnsWithin first columns) :
    (graph.paramColumns.map (graph.spread useBasis rows first base)).sum = graph.paramCost rows
      ∧ (graph.dimColumns.map (graph.spread useBasis rows first base)).sum = graph.coordinateCost useBasis rows := by
  have pair_sum : ∀ (place : Fin graph.nodes.length) (index : ℕ),
      index < graph.nodes[place].space.params + graph.nodes[place].space.dim →
      graph.spread useBasis rows first base (graph.nodes[place].pairAt index).1
        + graph.spread useBasis rows first base (graph.nodes[place].pairAt index).2
      = |graph.nodes[place].pairEntry useBasis (rows place) index| := by
    intro place index inside
    have node_at : graph.nodes[place.val]? = some graph.nodes[place] := getElem?_eq_getElem place.isLt
    have columns_eq : ∀ offset < graph.nodes[place].columnCount,
        graph.spread useBasis rows first base (graph.nodes[place].firstColumn + offset)
          = graph.nodes[place].columnEntry useBasis (rows place) offset :=
      fun _ within_node => spread_of_node apart node_at (within _ (mem_of_getElem? node_at)).1 within_node
    obtain ⟨negative, positive⟩ := pair_of_columns columns_eq inside
    rw [negative, positive, parts_add]
  constructor
  · rw [paramColumns, sum_pairColumns]
    refine sum_congr rfl fun place _ => ?_
    rw [sum_paramPairs]
    refine sum_congr rfl fun i i_mem => ?_
    have inside := Finset.mem_range.mp i_mem
    rw [pair_sum place i (by omega), pairEntry, if_pos inside]
  · rw [dimColumns, sum_pairColumns]
    refine sum_congr rfl fun place _ => ?_
    rw [sum_dimPairs]
    refine sum_congr rfl fun d d_mem => ?_
    have inside := Finset.mem_range.mp d_mem
    rw [pair_sum place _ (by omega), pairEntry_dim inside]

theorem Redrawn.costs_eq {drawn : Graph} (redrawn : drawn.Redrawn graph) (useBasis : Bool) (rows : ℕ → AffineRow ℚ) :
    drawn.paramCost rows = graph.paramCost rows ∧ drawn.coordinateCost useBasis rows = graph.coordinateCost useBasis rows := by
  have length_eq : graph.nodes.length = drawn.nodes.length := redrawn.nodes.length_eq
  have node_eq : ∀ place : Fin graph.nodes.length, drawn.nodes[finCongr length_eq place]
      = { graph.nodes[place] with firstColumn := drawn.nodes[finCongr length_eq place].firstColumn } :=
    fun place => redrawn.nodes.get place.isLt (finCongr length_eq place).isLt
  constructor
  all_goals
    refine (Fintype.sum_equiv (finCongr length_eq) _ _ fun place => ?_).symm
    rw [node_eq]
    rfl

/-! ### Bounds -/

/-- No constant is negative, and the entries of the rows keep to the bounds of the options. -/
structure RowsWithin (graph : Graph) (options : Options) (rows : ℕ → AffineRow ℚ) : Prop where
  nonneg : ∀ place < graph.nodes.length, 0 ≤ (rows place).constant
  constant : ∀ bound : ℕ, options.maxConstantTerm = some bound → ∀ place < graph.nodes.length, (rows place).constant ≤ bound
  coefficients : ∀ bound : ℕ, options.maxCoefficient = some bound → ∀ (place : ℕ) (node : Node),
    graph.nodes[place]? = some node → (∀ i < node.space.params, |(rows place).params i| ≤ bound)
      ∧ ∀ k < node.space.dim, |(rows place).dims k| ≤ bound

theorem RowsWithin.of_core_eq {other : Graph} (core_eq : graph.core = other.core) (within : graph.RowsWithin options rows) :
    other.RowsWithin options rows := by
  have length_eq := length_nodes_of_core_eq core_eq
  refine ⟨fun place inside => within.nonneg place (length_eq ▸ inside),
    fun bound limit place inside => within.constant bound limit place (length_eq ▸ inside), ?_⟩
  intro bound limit place node node_at
  obtain ⟨twin, twin_at, twin_eq⟩ := (nodes_of_core_eq core_eq).getElem?_left node_at
  have space_eq : twin.space = node.space := congrArg (·.space) twin_eq
  exact space_eq ▸ within.coefficients bound limit place twin twin_at

theorem rowsWithin_rowsAt {σ : Assignment} (nonneg : ∀ column, 0 ≤ σ column)
    (within : ∀ node ∈ graph.nodes, node.WithinBounds options useBasis σ) :
    graph.RowsWithin options (graph.rowsAt useBasis σ) := by
  have row_eq : ∀ {place : ℕ} {node : Node}, graph.nodes[place]? = some node →
      graph.rowsAt useBasis σ place = node.rowAt useBasis σ := fun node_at => by rw [rowsAt, node_at]; rfl
  refine ⟨fun place inside => ?_, fun bound limit place inside => ?_, fun bound limit place node node_at => ?_⟩
  · rw [row_eq (getElem?_eq_getElem inside)]
    exact nonneg _
  · rw [row_eq (getElem?_eq_getElem inside)]
    exact (within _ (getElem_mem inside)).constant bound limit
  · rw [row_eq node_at]
    have node_within := within node (mem_of_getElem? node_at)
    refine ⟨fun i inside => ?_, fun k _ => node_within.dims bound limit k⟩
    have pair_mem : node.pairAt i ∈ node.paramPairs := List.mem_map.mpr ⟨i, List.mem_range.mpr inside, rfl⟩
    obtain ⟨negative_le, positive_le⟩ := node_within.params bound limit _ pair_mem
    have entry_eq : (node.rowAt useBasis σ).params i = node.part σ i := if_pos inside
    have negative := nonneg (node.pairAt i).1
    have positive := nonneg (node.pairAt i).2
    rw [entry_eq, Node.part, abs_le]
    constructor <;> linarith

/-! ### Points -/

theorem apart_placeColumns (sorted : ∀ place < graph.nodes.length, place ∈ graph.sorted)
    (first : ℕ) : Node.Apart (graph.placeColumns first).1.nodes := by
  have length_eq : (graph.placeColumns first).1.nodes.length = graph.nodes.length :=
    length_nodes_of_core_eq (core_placeColumns graph first)
  intro i j a b a_at b_at different
  have i_lt := length_eq ▸ (List.getElem?_eq_some_iff.mp a_at).1
  have j_lt := length_eq ▸ (List.getElem?_eq_some_iff.mp b_at).1
  exact (placeNodes_spec graph.sorted first graph.nodes).2.2.2 i (sorted i i_lt) j (sorted j j_lt) different a b a_at b_at

namespace NodeProblem

variable {drawn : Graph} {integer : Bool} {given : Assignment → Prop} {problem : Problem}
  (parts : graph.NodeProblem drawn options useBasis integer first columns given problem) (partitioned : graph.Partitioned)
include parts partitioned

theorem apart : Node.Apart drawn.nodes := by
  rw [← parts.nodes_eq]
  exact apart_placeColumns partitioned.sorted first

variable (well_formed : graph.WellFormed) (based : useBasis = true → ∀ node ∈ graph.nodes, node.Based)
include well_formed based

theorem rowsAt_spread (rows : ℕ → AffineRow ℚ) (base : Assignment) :
    drawn.rowsAt useBasis (drawn.spread useBasis rows first base) = drawn.trimmed rows :=
  Graph.rowsAt_spread (parts.wellFormed well_formed) (fun uses => parts.based (based uses)) (parts.apart partitioned)
    (parts.columnsWithin partitioned)

/-- Rows within the bounds make a point of the problem, if what is given holds there. -/
theorem satisfies_spread (base_nonneg : ∀ column < first, 0 ≤ base column) (rows_within : graph.RowsWithin options rows)
    (holds : given (drawn.spread useBasis rows first base)) :
    Satisfies (drawn.spread useBasis rows first base) problem.rows := by
  have apart := parts.apart partitioned
  have within := parts.columnsWithin partitioned
  have drawn_within := rows_within.of_core_eq parts.redrawn.core_eq.symm
  have rows_eq := parts.rowsAt_spread partitioned well_formed based rows base
  refine (parts.satisfies_iff _).mpr ⟨spread_invariant (0 ≤ ·) le_rfl base_nonneg ?_, holds, fun node node_mem => ?_⟩
  · intro place node node_at offset
    cases offset with
    | zero => exact drawn_within.nonneg place (List.getElem?_eq_some_iff.mp node_at).1
    | succ offset => exact parts_nonneg _ offset
  · obtain ⟨place, node_at⟩ := getElem?_of_mem node_mem
    have columns_eq : ∀ offset < node.columnCount, drawn.spread useBasis rows first base (node.firstColumn + offset)
        = node.columnEntry useBasis (rows place) offset :=
      fun _ inside => spread_of_node apart node_at (within node node_mem).1 inside
    have row_eq : node.rowAt useBasis (drawn.spread useBasis rows first base) = (rows place).trimmed node.space.params node.space.dim := by
      have at_position := congrFun rows_eq place
      rwa [rowsAt, trimmed, node_at] at at_position
    refine ⟨fun bound limit => ?_, fun bound limit pair pair_mem => ?_, fun bound limit k => ?_⟩
    · rw [← Nat.add_zero node.firstColumn, columns_eq 0 (by unfold columnCount; omega)]
      exact drawn_within.constant bound limit place (List.getElem?_eq_some_iff.mp node_at).1
    · obtain ⟨i, i_mem, rfl⟩ := mem_map.mp pair_mem
      have inside := List.mem_range.mp i_mem
      obtain ⟨negative, positive⟩ := pair_of_columns columns_eq (Nat.lt_add_right _ inside)
      have entry_le := (drawn_within.coefficients bound limit place node node_at).1 i inside
      have entry_eq : node.pairEntry useBasis (rows place) i = (rows place).params i := if_pos inside
      rw [negative, positive, parts_even, parts_odd, entry_eq]
      exact ⟨max_le ((neg_le_abs _).trans entry_le) (Nat.cast_nonneg bound), max_le ((le_abs_self _).trans entry_le) (Nat.cast_nonneg bound)⟩
    · rw [row_eq, AffineRow.trimmed]
      dsimp only
      split_ifs with inside
      · exact (drawn_within.coefficients bound limit place node node_at).2 k inside
      · exact abs_zero.trans_le (Nat.cast_nonneg bound)

/-- Such a point lifts over the cones of demands that the rows keep. -/
theorem lifts_spread {demands : List Demand}
    (met : ConeProblem.Met drawn useBasis demands { problem := problem, cache := cache } complete)
    (base_nonneg : ∀ column < first, 0 ≤ base column) (rows_within : graph.RowsWithin options rows)
    (holds : given (drawn.spread useBasis rows first base)) (kept : ∀ demand ∈ demands, demand.bound.LocalTo columns
      ∧ demand.KeptAt (drawn.trimmed rows) (drawn.spread useBasis rows first base)) :
    complete.problem.Lifts columns (drawn.spread useBasis rows first base) := by
  refine met.lifts columns parts.columns_problem.ge _
    ⟨_, fun _ _ => rfl, parts.satisfies_spread partitioned well_formed based base_nonneg rows_within holds⟩
    (fun _ agree => rowsAt_congr (parts.columnsWithin partitioned) agree) ?_
  rwa [parts.rowsAt_spread partitioned well_formed based rows base]

end NodeProblem

end Graph

/-! ### Points of the next row -/

variable {coincide : Bool}

/-- A limit of distances: an affine form of the parameters. -/
structure DistanceLimit where
  constant : ℕ
  params : ℕ → ℤ

namespace DistanceLimit

/-- The limit at given parameters. -/
def value (limit : DistanceLimit) (paramCount : ℕ) (params : ℕ → ℚ) : ℚ :=
  limit.constant + ∑ i ∈ Finset.range paramCount, params i * limit.params i

/-- The sum of the absolute values of the parameter coefficients. -/
def weight (limit : DistanceLimit) (paramCount : ℕ) : ℚ := ∑ i ∈ Finset.range paramCount, |(limit.params i : ℚ)|

end DistanceLimit

theorem DistanceBound.value_inColumns (count : ℕ) (σ : Assignment) (params : ℕ → ℚ) : (inColumns count).value σ params
      = σ 1 + ∑ i ∈ Finset.range count, params i * (σ (5 + 2 * i) - σ (4 + 2 * i)) := by
  have length_eq : (inColumns count).params.length = count := by simp [inColumns]
  rw [value, length_eq]
  congr 1
  · exact Form.value_column 1 σ
  · refine sum_congr rfl fun i i_mem => ?_
    have form_at : (inColumns count).params[i]? = some (RowForms.ofPair (4 + 2 * i, 5 + 2 * i)) := by
      simp [inColumns, Finset.mem_range.mp i_mem]
    rw [Cone.coefficient, getD_eq_getElem?_getD, form_at, Option.getD_some, RowForms.ofPair,
      Form.value_difference]

theorem sum_range_two_mul (f : ℕ → ℚ) (count : ℕ) :
    ∑ k ∈ Finset.range (2 * count), f k = ∑ i ∈ Finset.range count, (f (2 * i) + f (2 * i + 1)) := by
  induction count with
  | zero => rfl
  | succ count ih => rw [Nat.mul_succ, Finset.sum_range_succ, Finset.sum_range_succ, ih, Finset.sum_range_succ, add_assoc]

theorem Graph.Redrawn.trimmed_eq {drawn : Graph} (redrawn : drawn.Redrawn graph) (rows : ℕ → AffineRow ℚ) :
    drawn.trimmed rows = graph.trimmed rows := by
  have spaces_eq : graph.nodes.map (·.space) = drawn.nodes.map (·.space) :=
    redrawn.nodes.map_eq fun _ _ after_eq => congrArg (·.space) after_eq.symm
  funext place
  have space_eq := congrArg (·[place]?) spaces_eq
  simp only [getElem?_map] at space_eq
  unfold trimmed
  revert space_eq
  cases graph.nodes[place]? <;> cases drawn.nodes[place]? <;> simp_all

theorem Edge.Respected.trimmed {bound : (ℕ → ℚ) → ℚ} (respected : edge.Respected coincide rows bound)
    (well_formed : graph.WellFormed) (edge_mem : edge ∈ graph.edges) :
    edge.Respected coincide (graph.trimmed rows) bound := by
  intro disjunct disjunct_mem may_hold columns params holds
  rw [Graph.distance_trimmed well_formed edge_mem disjunct_mem]
  exact respected disjunct disjunct_mem may_hold columns params holds

namespace Graph

theorem paramCost_nonneg (graph : Graph) (rows : ℕ → AffineRow ℚ) : 0 ≤ graph.paramCost rows :=
  sum_nonneg fun _ _ => sum_nonneg fun _ _ => abs_nonneg _

theorem coordinateCost_nonneg (graph : Graph) (useBasis : Bool) (rows : ℕ → AffineRow ℚ) :
    0 ≤ graph.coordinateCost useBasis rows := sum_nonneg fun _ _ => sum_nonneg fun _ _ => abs_nonneg _

/-- The first columns of the problem of the next row, at rows and at a limit of the distances. -/
def rowBase (graph : Graph) (rows : ℕ → AffineRow ℚ) (limit : DistanceLimit) : Assignment
  | 0 => limit.weight graph.params.length
  | 1 => limit.constant
  | 2 => graph.paramCost rows
  | 3 => graph.coordinateCost true rows
  | column + 4 => Lattice.parts (limit.params ·) column

/-- The columns of the problem of the next row before the multipliers. -/
def rowColumns (graph : Graph) (rows : ℕ → AffineRow ℚ) (limit : DistanceLimit) : Assignment :=
  graph.spread true rows (4 + 2 * graph.params.length) (graph.rowBase rows limit)

section

variable (graph : Graph) (rows : ℕ → AffineRow ℚ) (limit : DistanceLimit)

theorem rowBase_nonneg (column : ℕ) :
    0 ≤ graph.rowBase rows limit column := by
  match column with
  | 0 =>
    rw [rowBase, DistanceLimit.weight]
    exact sum_nonneg fun _ _ => abs_nonneg _
  | 1 => exact Nat.cast_nonneg limit.constant
  | 2 => exact paramCost_nonneg graph rows
  | 3 => exact coordinateCost_nonneg graph true rows
  | column + 4 => exact parts_nonneg _ _

theorem rowColumns_of_lt
    (before : column < 4 + 2 * graph.params.length) : graph.rowColumns rows limit column = graph.rowBase rows limit column :=
  graph.spread_of_lt true rows _ before

theorem rowColumns_limit
    (inside : k < 2 * graph.params.length) : graph.rowColumns rows limit (4 + k) = Lattice.parts (limit.params ·) k := by
  rw [rowColumns_of_lt _ _ _ (by omega), Nat.add_comm, rowBase]

theorem value_rowColumns :
    (DistanceBound.inColumns graph.params.length).value (graph.rowColumns rows limit) = limit.value graph.params.length := by
  funext params
  rw [DistanceBound.value_inColumns, DistanceLimit.value, rowColumns_of_lt _ _ _ (by omega), rowBase]
  congr 1
  refine sum_congr rfl fun i i_mem => ?_
  have inside := Finset.mem_range.mp i_mem
  rw [rowColumns_limit _ _ _ (by omega), show 5 + 2 * i = 4 + (2 * i + 1) by omega, rowColumns_limit _ _ _ (by omega),
    parts_sub]

end

theorem rowSums_rowColumns (apart : Node.Apart graph.nodes)
    (within : graph.ColumnsWithin (4 + 2 * graph.params.length) columns) (rows : ℕ → AffineRow ℚ) (limit : DistanceLimit) :
    graph.RowSums graph.params.length (graph.rowColumns rows limit) := by
  obtain ⟨param_sum, dim_sum⟩ := sum_columns_spread apart within
  refine ⟨?_, ?_, ?_⟩
  · have parts_eq : (List.range (2 * graph.params.length)).map (graph.rowColumns rows limit ∘ (4 + ·))
        = (List.range (2 * graph.params.length)).map (Lattice.parts (limit.params ·)) :=
      map_congr_left fun k k_mem => rowColumns_limit graph rows limit (List.mem_range.mp k_mem)
    have weight_eq := sum_range_two_mul (Lattice.parts (limit.params ·)) graph.params.length
    simp only [parts_add] at weight_eq
    rw [rowColumns_of_lt _ _ _ (by omega), rowBase, DistanceLimit.weight, ← weight_eq, List.map_map, parts_eq]
    rfl
  · rw [rowColumns_of_lt _ _ _ (by omega)]
    exact param_sum.symm
  · rw [rowColumns_of_lt _ _ _ (by omega)]
    exact dim_sum.symm

theorem den_rowColumns (graph : Graph) (rows : ℕ → AffineRow ℤ) (limit : DistanceLimit) (column : ℕ) :
    (graph.rowColumns (fun place => (rows place).cast) limit column).den = 1 := by
  have den_eq_one_iff : ∀ value : ℚ, value.den = 1 ↔ value ∈ (Int.castRingHom ℚ).range := by
    intro value
    rw [Rat.den_eq_one_iff]
    exact ⟨fun same => ⟨value.num, same⟩, fun ⟨number, same⟩ => by rw [← same]; simp⟩
  have parts_mem : ∀ {entry : ℕ → ℚ}, (∀ k, entry k ∈ (Int.castRingHom ℚ).range) → ∀ column,
      Lattice.parts entry column ∈ (Int.castRingHom ℚ).range := by
    intro entry entry_mem column
    unfold Lattice.parts
    split_ifs
    · exact max_rec' (· ∈ (Int.castRingHom ℚ).range) (neg_mem (entry_mem _)) (zero_mem _)
    · exact max_rec' (· ∈ (Int.castRingHom ℚ).range) (entry_mem _) (zero_mem _)
  have abs_mem : ∀ {value : ℚ}, value ∈ (Int.castRingHom ℚ).range → |value| ∈ (Int.castRingHom ℚ).range := by
    intro value value_mem
    rw [abs_eq_max_neg]
    exact max_rec' (· ∈ (Int.castRingHom ℚ).range) value_mem (neg_mem value_mem)
  have coordinate_mem : ∀ (node : Node) (place d : ℕ),
      node.coordinate true (rows place).cast d ∈ (Int.castRingHom ℚ).range := by
    intro node place d
    rw [Node.coordinate, if_pos rfl]
    exact sum_mem fun e _ => mul_mem ⟨_, rfl⟩ ⟨_, rfl⟩
  rw [den_eq_one_iff]
  refine spread_invariant (· ∈ (Int.castRingHom ℚ).range) (zero_mem _) (fun column _ => ?_) (fun place node _ offset => ?_) column
  · match column with
    | 0 =>
      rw [rowBase, DistanceLimit.weight]
      exact sum_mem fun i _ => abs_mem ⟨limit.params i, rfl⟩
    | 1 => exact natCast_mem _ limit.constant
    | 2 =>
      rw [rowBase, paramCost]
      exact sum_mem fun place _ => sum_mem fun i _ => abs_mem ⟨(rows place).params i, rfl⟩
    | 3 =>
      rw [rowBase, coordinateCost]
      exact sum_mem fun _ _ => sum_mem fun _ _ => abs_mem (coordinate_mem _ _ _)
    | column + 4 => exact parts_mem (fun k => ⟨limit.params k, rfl⟩) column
  · cases offset with
    | zero => exact ⟨(rows place).constant, rfl⟩
    | succ offset =>
      refine parts_mem (fun index => ?_) offset
      unfold pairEntry
      split_ifs
      · exact ⟨(rows place).params index, rfl⟩
      · exact coordinate_mem node place _

/-- A point of the problem of the next row with given integer rows and a given limit of the distances. -/
structure RowPoint (graph noted : Graph) (complete : ConeProblem) (rows : ℕ → AffineRow ℤ) (limit : DistanceLimit)
    (τ : Assignment) : Prop where
  satisfied : Satisfies τ complete.problem.rows
  whole : ∀ column : ℕ, complete.problem.integer[column]? = some true → (τ column).den = 1
  front : ∀ column < 4, τ column = graph.rowBase (fun place => (rows place).cast) limit column
  coordinates : ∀ (place : ℕ) (node : Node), noted.nodes[place]? = some node → ∀ d < node.space.dim,
    node.coordinateAt τ d = node.coordinate true (rows place).cast d

theorem exists_rowPoint {noted : Graph} (well_formed : graph.WellFormed) (based : ∀ node ∈ graph.nodes, node.Based)
    (partitioned : graph.Partitioned) (sound : cache.Sound)
    (done : graph.rowProblem cache options coincide = .ok (noted, complete, columns)) {rows : ℕ → AffineRow ℤ}
    {limit : DistanceLimit} (rows_within : graph.RowsWithin options fun place => (rows place).cast)
    (respected : ∀ edge ∈ graph.edges,
      edge.Respected coincide (fun place => (rows place).cast) (limit.value graph.params.length)) :
    ∃ τ, RowPoint graph noted complete rows limit τ := by
  obtain ⟨bounded, parts, met⟩ := met_of_rowProblem well_formed based sound done
  obtain ⟨param_cost, coordinate_cost⟩ := parts.redrawn.costs_eq true fun place => (rows place).cast
  have params_eq := parts.redrawn.params_eq
  have value_eq := value_rowColumns noted (fun place => (rows place).cast) limit
  rw [params_eq] at value_eq
  have kept := keptAt_rowDemands_iff.mpr (value_eq.symm ▸ fun edge edge_mem => (respected edge edge_mem).trimmed well_formed edge_mem)
  rw [← parts.redrawn.trimmed_eq] at kept
  rw [← params_eq] at parts
  have within := parts.columnsWithin partitioned
  have apart := parts.apart partitioned
  obtain ⟨τ, agree, satisfied⟩ := parts.lifts_spread partitioned well_formed (fun _ => based) met
    (fun column _ => noted.rowBase_nonneg _ limit column) rows_within (rowSums_rowColumns apart within _ limit)
    (fun demand demand_mem =>
      ⟨(laidOut_of_mem_rowDemands well_formed demand_mem).2 _ (params_eq ▸ parts.first_le), kept demand demand_mem⟩)
  have front_lt : 4 ≤ columns := (Nat.le_add_right _ _).trans parts.first_le
  refine ⟨τ, satisfied, fun column integral => ?_, fun column before => ?_, fun place node node_at d inside => ?_⟩
  · rw [agree column ((parts.integer_iff met rfl).mp integral)]
    exact noted.den_rowColumns rows limit column
  · rw [agree column (before.trans_le front_lt), spread_of_lt _ _ _ _ (before.trans_le (Nat.le_add_right _ _))]
    match column with
    | 0 => rw [rowBase, rowBase, params_eq]
    | 1 => rfl
    | 2 => exact param_cost
    | 3 => exact coordinate_cost
  · have node_within := within node (mem_of_getElem? node_at)
    refine coordinateAt_of_columns (fun offset offset_lt => ?_) inside
    rw [agree _ (by omega), spread_of_node apart node_at node_within.1 offset_lt]

/-! ### Points of the carrying problem -/

/-- The first columns of the carrying problem, at rows and at given columns of the disjuncts. -/
def carryBase (graph : Graph) (rows : ℕ → AffineRow ℚ) (σ : Assignment) : Assignment
  | 0 => graph.validityDisjuncts.length - ∑ number ∈ Finset.range graph.validityDisjuncts.length, σ (3 + number)
  | 1 => graph.paramCost rows
  | 2 => graph.coordinateCost false rows
  | number + 3 => σ (3 + number)

section

variable {placed : Graph} (well_formed : graph.WellFormed) (partitioned : graph.Partitioned)
include well_formed partitioned

theorem exists_carryPoint {cache : ConeCache} {complete : ConeProblem} (sound : cache.Sound)
    (done : graph.carryingProblem cache options = .ok (placed, complete, columns)) (rows_within : graph.RowsWithin options rows)
    {σ : Assignment} (capped : ∀ number < graph.validityDisjuncts.length, 0 ≤ σ (3 + number) ∧ σ (3 + number) ≤ 1)
    (carries : graph.CarriesAt rows σ) : ∃ τ, Satisfies τ complete.problem.rows
      ∧ τ 0 = graph.validityDisjuncts.length - ∑ number ∈ Finset.range graph.validityDisjuncts.length, σ (3 + number) := by
  obtain ⟨bounded, parts, _, met⟩ := met_of_carryingProblem well_formed sound done
  obtain ⟨param_cost, coordinate_cost⟩ := parts.redrawn.costs_eq false rows
  have no_basis : false = true → ∀ node ∈ graph.nodes, node.Based := fun impossible => absurd impossible Bool.false_ne_true
  set spreads := placed.spread false rows (3 + graph.validityDisjuncts.length) (graph.carryBase rows σ)
  have base_eq : ∀ column < 3 + graph.validityDisjuncts.length, spreads column = graph.carryBase rows σ column :=
    fun _ before => spread_of_lt _ _ _ _ before
  have amount_eq : ∀ number < graph.validityDisjuncts.length, spreads (3 + number) = σ (3 + number) := by
    intro number inside
    rw [base_eq _ (by omega), Nat.add_comm, carryBase, Nat.add_comm]
  have base_nonneg : ∀ column < 3 + graph.validityDisjuncts.length, 0 ≤ graph.carryBase rows σ column := by
    intro column before
    match column with
    | 0 =>
      have sum_le : ∑ number ∈ Finset.range graph.validityDisjuncts.length, σ (3 + number) ≤ _ :=
        Finset.sum_le_card_nsmul _ _ 1 fun number number_mem => (capped number (Finset.mem_range.mp number_mem)).2
      simp only [carryBase, sub_nonneg]
      simpa using sum_le
    | 1 => exact paramCost_nonneg graph rows
    | 2 => exact coordinateCost_nonneg graph false rows
    | number + 3 => exact (capped number (by omega)).1
  have sums : placed.CarrySums graph.validityDisjuncts.length spreads := by
    obtain ⟨param_sum, dim_sum⟩ := sum_columns_spread (parts.apart partitioned) (parts.columnsWithin partitioned)
    refine ⟨?_, ?_, ?_, fun number inside => ?_⟩
    · have sum_eq : (List.range graph.validityDisjuncts.length).map (spreads ∘ (3 + ·))
          = (List.range graph.validityDisjuncts.length).map fun number => σ (3 + number) :=
        map_congr_left fun number number_mem => amount_eq number (List.mem_range.mp number_mem)
      rw [List.map_map, sum_eq, base_eq 0 (by omega), carryBase]
      exact sub_add_cancel _ _
    · rw [base_eq 1 (by omega), param_sum, carryBase, param_cost]
    · rw [base_eq 2 (by omega), dim_sum, carryBase, coordinate_cost]
    · rw [amount_eq number inside]
      exact (capped number inside).2
  have kept : graph.CarriesAt (placed.trimmed rows) spreads := by
    intro number edge disjunct entry_at may_hold columns params holds
    obtain ⟨edge_mem, _, disjunct_mem⟩ := mem_validityDisjuncts_iff.mp (mem_of_getElem? entry_at)
    rw [parts.redrawn.trimmed_eq, distance_trimmed well_formed edge_mem disjunct_mem, amount_eq number (List.getElem?_eq_some_iff.mp entry_at).1]
    exact carries number edge disjunct entry_at may_hold columns params holds
  have demands_kept := keptAt_carriedDemands_iff.mpr kept
  obtain ⟨τ, agree, satisfied⟩ := parts.lifts_spread partitioned well_formed no_basis met base_nonneg rows_within sums
    fun demand demand_mem => ⟨(laidOut_of_mem_carriedDemands well_formed demand_mem).2 _ parts.first_le,
      demands_kept demand demand_mem⟩
  have first_le := parts.first_le
  exact ⟨τ, satisfied, (agree 0 (by omega)).trans (base_eq 0 (by omega))⟩

theorem carryingProblem_feasible
    (sound : cache.Sound) (done : graph.carryingProblem cache options = .ok (placed, complete, columns)) :
    ∃ τ, Satisfies τ complete.problem.rows := by
  have no_rows : graph.RowsWithin options fun _ => AffineRow.zero := by
    refine ⟨fun _ _ => le_rfl, fun bound _ _ _ => Nat.cast_nonneg bound, fun bound _ _ _ _ => ⟨fun _ _ => ?_, fun _ _ => ?_⟩⟩ <;>
      exact abs_zero.trans_le (Nat.cast_nonneg bound)
  have none_carried : graph.CarriesAt (fun _ => AffineRow.zero) 0 := by
    intro number edge disjunct _ _ columns params _
    simp [Conjunct.distance, AffineRow.time, AffineRow.zero]
  obtain ⟨τ, satisfied, _⟩ := exists_carryPoint well_formed partitioned sound done no_rows (fun _ _ => ⟨le_rfl, zero_le_one⟩) none_carried
  exact ⟨τ, satisfied⟩

end

end Graph

end AffineSchedule
