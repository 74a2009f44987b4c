import AffineSchedule.Proofs.Construction.NextRow
import AffineSchedule.Proofs.Construction.RowPoints

namespace AffineSchedule

open Checked Linear List Node

variable {node : Node} {graph : Graph} {options : Options} {coincide : Bool} {cache : ConeCache}
  {search : RowSearch} {columns : ℕ} {complete : ConeProblem} {noted : Graph} {σ : Assignment}

/-! ### Independence -/

theorem Node.mem_rowSpace_iff (based : node.Based) (laid_out : node.LaidOut node.space.params) (row : AffineRow ℚ) :
    (fun k : Fin node.space.dim => row.dims k) ∈ rowSpace node.space.dim node.linearRows ↔
      ∀ d, node.rank ≤ d → d < node.space.dim → node.coordinate true row d = 0 := by
  have framed := based.framed laid_out
  have inverse : squareOf node.space.dim node.coordinates * squareOf node.space.dim node.basis = 1 :=
    mul_eq_one_comm.mp framed.inverse
  have column_eq : ∀ k : Fin node.space.dim, rowVector node.space.dim (node.basis.column k)
      = fun j : Fin node.space.dim => (entryAt node.basis.rows j k : ℚ) := fun k => funext fun j => rowVector_column _ _ _ _
  rw [← framed.basis, basisSpace]
  constructor
  · intro row_mem d behind inside
    -- a coordinate is a linear form, and vanishes on the vectors of the basis before the rank
    let form : (Fin node.space.dim → ℚ) →ₗ[ℚ] ℚ :=
      ∑ e : Fin node.space.dim, (entryAt node.coordinates.rows d e : ℚ) • LinearMap.proj e
    have form_apply : ∀ vector, form vector = ∑ e : Fin node.space.dim, (entryAt node.coordinates.rows d e : ℚ) * vector e := by
      intro vector
      simp [form]
    have vanishes : Submodule.span ℚ (Set.range fun k : Fin node.rank => rowVector node.space.dim (node.basis.column k))
        ≤ LinearMap.ker form := by
      rw [Submodule.span_le]
      rintro _ ⟨k, rfl⟩
      have k_lt : k.val < node.space.dim := by omega
      have entry_eq := congrFun (congrFun inverse ⟨d, inside⟩) ⟨k, k_lt⟩
      rw [Matrix.mul_apply, Matrix.one_apply, if_neg (by simp; omega)] at entry_eq
      rw [SetLike.mem_coe, LinearMap.mem_ker, form_apply]
      simp only [rowVector_column]
      exact_mod_cast entry_eq
    have zero_eq := LinearMap.mem_ker.mp (vanishes row_mem)
    rwa [form_apply, ← Finset.sum_range fun e => (entryAt node.coordinates.rows d e : ℚ) * row.dims e] at zero_eq
  · intro vanishes
    have row_eq : (fun k : Fin node.space.dim => row.dims k) = ∑ d : Fin node.space.dim, node.coordinate true row d
        • rowVector node.space.dim (node.basis.column d) := by
      funext k
      have sum_eq := sum_basis_coordinate based laid_out row k
      rw [if_pos k.isLt, Finset.sum_range] at sum_eq
      rw [Finset.sum_apply, ← sum_eq]
      refine Finset.sum_congr rfl fun d _ => ?_
      rw [Pi.smul_apply, rowVector_column, smul_eq_mul, mul_comm]
    rw [row_eq]
    refine sum_mem fun d _ => ?_
    rcases lt_or_ge d.val node.rank with before | behind
    · exact Submodule.smul_mem _ _ (Submodule.subset_span ⟨⟨d, before⟩, rfl⟩)
    · rw [vanishes d behind d.isLt, zero_smul]
      exact zero_mem _

/-! ### Costs -/

theorem abs_sub_le_add {negative positive : ℚ} (negative_nonneg : 0 ≤ negative) (positive_nonneg : 0 ≤ positive) :
    |positive - negative| ≤ negative + positive := by
  rw [abs_le]
  constructor <;> linarith

/-- Entry by entry smaller lists come first. -/
theorem le_of_forall₂_le {first second : List ℚ} (each : Forall₂ (· ≤ ·) first second) : first ≤ second := by
  induction each with
  | nil => exact le_rfl
  | @cons a b later rest le _ ih =>
    rw [← not_lt, cons_lt_cons_iff]
    rintro (before | ⟨_, before⟩)
    · exact le.not_gt before
    · exact ih.not_gt before

/-- The first entries of a list that comes first come first. -/
theorem le_of_append_le {first second later rest : List ℚ} (length_eq : first.length = second.length)
    (le : first ++ later ≤ second ++ rest) : first ≤ second := by
  rw [← not_lt] at le ⊢
  intro before
  apply le
  clear le
  induction first generalizing second with
  | nil =>
    rw [eq_nil_of_length_eq_zero length_eq.symm] at before
    exact absurd before (lt_irrefl _)
  | cons a first ih =>
    obtain ⟨b, second, rfl⟩ := exists_cons_of_length_eq_add_one length_eq.symm
    rw [cons_append, cons_append, cons_lt_cons_iff]
    rw [cons_lt_cons_iff] at before
    exact before.imp_right fun ⟨same, behind⟩ => ⟨same, ih (Nat.succ.inj length_eq) behind⟩

theorem map_range_le_of_le {count : ℕ} {τ : Assignment} (inside : count ≤ columns)
    (le : (List.range columns).map σ ≤ (List.range columns).map τ) : (List.range count).map σ ≤ (List.range count).map τ := by
  obtain ⟨more, rfl⟩ := Nat.exists_eq_add_of_le inside
  rw [range_add, map_append, map_append] at le
  exact le_of_append_le (by simp) le

/-- The coordinates of the row at columns are those that the columns hold. -/
theorem Node.coordinate_rowAt (based : node.Based) (laid_out : node.LaidOut node.space.params) {d : ℕ}
    (inside : d < node.space.dim) : node.coordinate true (node.rowAt true σ) d = node.coordinateAt σ d :=
  sum_mul_sum_of_mul_eq_one (mul_eq_one_comm.mp (based.framed laid_out).inverse) (node.coordinateAt σ) inside

namespace Graph

/-- The costs of the rows at columns are no more than the sums of the columns. -/
theorem costs_rowsAt_le (well_formed : graph.WellFormed) (based : ∀ node ∈ graph.nodes, node.Based) (nonneg : ∀ column, 0 ≤ σ column) :
    graph.paramCost (graph.rowsAt true σ) ≤ (graph.paramColumns.map σ).sum
      ∧ graph.coordinateCost true (graph.rowsAt true σ) ≤ (graph.dimColumns.map σ).sum := by
  have row_eq : ∀ place : Fin graph.nodes.length, graph.rowsAt true σ place = graph.nodes[place].rowAt true σ := by
    intro place
    rw [rowsAt, getElem?_eq_getElem place.isLt]
    rfl
  have part_le : ∀ (node : Node) (index : ℕ), |node.part σ index| ≤ σ (node.pairAt index).1 + σ (node.pairAt index).2 :=
    fun _ _ => abs_sub_le_add (nonneg _) (nonneg _)
  rw [paramColumns, dimColumns, sum_pairColumns, sum_pairColumns]
  refine ⟨Finset.sum_le_sum fun place _ => ?_, Finset.sum_le_sum fun place _ => ?_⟩
  · rw [sum_paramPairs, row_eq]
    refine Finset.sum_le_sum fun i i_mem => ?_
    exact (congrArg abs (if_pos (Finset.mem_range.mp i_mem))).trans_le (part_le _ i)
  · have node_mem : graph.nodes[place] ∈ graph.nodes := getElem_mem place.isLt
    have laid_out := well_formed.nodes _ node_mem
    rw [sum_dimPairs, row_eq]
    refine Finset.sum_le_sum fun d d_mem => ?_
    have inside := Finset.mem_range.mp d_mem
    rw [coordinate_rowAt (based _ node_mem) (laid_out.params.symm ▸ laid_out) inside, coordinateAt, if_pos inside]
    exact part_le _ _

end Graph

/-- The limit of the distances that integer columns hold. -/
def DistanceLimit.inColumns (σ : Assignment) : DistanceLimit where
  constant := (σ 1).num.toNat
  params i := (σ (5 + 2 * i)).num - (σ (4 + 2 * i)).num

theorem DistanceLimit.inColumns_spec {count : ℕ} (nonneg : ∀ column, 0 ≤ σ column)
    (whole : ∀ column < 4 + 2 * count, (σ column).den = 1) :
    (inColumns σ).constant = σ 1 ∧ (inColumns σ).value count = (DistanceBound.inColumns count).value σ
      ∧ (inColumns σ).weight count ≤ (((List.range (2 * count)).map (4 + ·)).map σ).sum := by
  have num_eq : ∀ column < 4 + 2 * count, ((σ column).num : ℚ) = σ column :=
    fun column inside => (Rat.den_eq_one_iff _).mp (whole column inside)
  have constant_eq : ((inColumns σ).constant : ℚ) = σ 1 := by
    rw [inColumns, ← Int.cast_natCast, Int.toNat_of_nonneg (Rat.num_nonneg.mpr (nonneg 1)), num_eq 1 (by omega)]
  have params_eq : ∀ i < count, ((inColumns σ).params i : ℚ) = σ (5 + 2 * i) - σ (4 + 2 * i) := by
    intro i inside
    rw [inColumns, Int.cast_sub, num_eq _ (by omega), num_eq _ (by omega)]
  refine ⟨constant_eq, ?_, ?_⟩
  · funext params
    rw [DistanceBound.value_inColumns, value, constant_eq]
    exact congrArg _ (Finset.sum_congr rfl fun i i_mem => by rw [params_eq i (Finset.mem_range.mp i_mem)])
  · rw [map_map]
    refine le_of_le_of_eq ?_ (sum_range_two_mul (fun k => σ (4 + k)) count).symm
    refine Finset.sum_le_sum fun i i_mem => ?_
    rw [params_eq i (Finset.mem_range.mp i_mem), show 5 + 2 * i = 4 + (2 * i + 1) by omega]
    exact abs_sub_le_add (nonneg _) (nonneg _)

/-! ### Admissible rows -/

namespace Graph

/-- Integer rows, one per node, that can be the next rows of a band. All edges allow their distances at rational points, within a
    common limit. -/
structure Admissible (graph : Graph) (options : Options) (coincide : Bool) (rows : ℕ → AffineRow ℤ)
    (limit : DistanceLimit) : Prop where
  allowed : ∀ edge ∈ graph.edges, ∀ disjunct ∈ edge.relation.disjuncts, ∀ columns params : ℕ → ℚ,
    disjunct.system.HoldsAt columns params → edge.Allows coincide
      (disjunct.distance (rows edge.source).cast (rows edge.target).cast columns params) (limit.value graph.params.length params)
  within : graph.RowsWithin options fun index => (rows index).cast
  independent : ∀ (index : ℕ) (node : Node), graph.nodes[index]? = some node → graph.needsRow node = true →
    (fun k : Fin node.space.dim => (rows index).cast.dims k) ∉ rowSpace node.space.dim node.linearRows

/-- What the search for the next row minimizes, the first entry first: the parameter coefficients and the constant of the
    limit of the distances, then the parameter coefficients of the rows and their coordinates. -/
def rowCost (graph : Graph) (rows : ℕ → AffineRow ℤ) (limit : DistanceLimit) : List ℚ :=
  [limit.weight graph.params.length, limit.constant, graph.paramCost fun place => (rows place).cast,
    graph.coordinateCost true fun place => (rows place).cast]

section Search

variable (well_formed : graph.WellFormed) (based : ∀ node ∈ graph.nodes, node.Based) (partitioned : graph.Partitioned)
  (cache_sound : cache.Sound) {rows : ℕ → AffineRow ℤ} {limit : DistanceLimit}
include well_formed based partitioned cache_sound

section

variable (done : graph.rowProblem cache options coincide = .ok (noted, complete, columns))
include done

theorem exists_point_of_admissible (admissible : graph.Admissible options coincide rows limit) :
    ∃ τ, RowPoint graph noted complete rows limit τ ∧ ∀ region ∈ noted.independenceRegions, region.NonTrivial τ := by
  obtain ⟨τ, point⟩ := exists_rowPoint well_formed based partitioned cache_sound done admissible.within
    fun edge edge_mem disjunct disjunct_mem _ => admissible.allowed edge edge_mem disjunct disjunct_mem
  refine ⟨τ, point, fun region region_mem => ?_⟩
  obtain ⟨_, parts, _⟩ := met_of_rowProblem well_formed based cache_sound done
  simp only [independenceRegions, mem_map, mem_filter, mem_filterMap] at region_mem
  obtain ⟨node, ⟨⟨index, _, node_at⟩, needs_row⟩, rfl⟩ := region_mem
  obtain ⟨original, original_at, node_eq⟩ := parts.redrawn.nodes.getElem?_left node_at
  have original_mem := mem_of_getElem? original_at
  have laid_out := well_formed.nodes original original_mem
  have needs : graph.needsRow original = true := by
    rw [parts.redrawn.rest, node_eq] at needs_row
    exact needs_row
  have independent := admissible.independent index original original_at needs
  rw [mem_rowSpace_iff (based original original_mem) (laid_out.params.symm ▸ laid_out)] at independent
  simp only [not_forall] at independent
  obtain ⟨d, behind, inside, coordinate_ne⟩ := independent
  rw [nonTrivial_iff]
  have space_eq : node.space = original.space := congrArg (·.space) node_eq
  have coordinates_eq : node.coordinates = original.coordinates := congrArg (·.coordinates) node_eq
  have rank_eq : node.rank = original.rank := congrArg (·.rank) node_eq
  refine ⟨d, rank_eq ▸ behind, space_eq ▸ inside, ?_⟩
  rw [point.coordinates index node node_at d (space_eq ▸ inside), Node.coordinate, space_eq, coordinates_eq]
  exact coordinate_ne

theorem integer_of_region :
    ∀ region ∈ noted.independenceRegions, ∀ pair ∈ region.pairs,
      complete.problem.integer[pair.1]? = some true ∧ complete.problem.integer[pair.2]? = some true := by
  obtain ⟨_, parts, met⟩ := met_of_rowProblem well_formed based cache_sound done
  intro region region_mem pair pair_mem
  simp only [independenceRegions, mem_map, mem_filter, mem_filterMap] at region_mem
  obtain ⟨node, ⟨⟨index, _, node_at⟩, _⟩, rfl⟩ := region_mem
  have in_dims : pair ∈ node.dimPairs := mem_of_mem_drop (mem_reverse.mp pair_mem)
  obtain ⟨_, second_eq, second_lt⟩ := pair_bounds (mem_append_right node.paramPairs in_dims)
  have last_le := (parts.columnsWithin partitioned node (mem_of_getElem? node_at)).2
  rw [parts.integer_iff met rfl, parts.integer_iff met rfl]
  omega

end

/-- A search without rows means that no rows are admissible. -/
theorem rows_ne_none_of_admissible (done : graph.nextRow cache options coincide = .ok search)
    (admissible : graph.Admissible options coincide rows limit) : search.rows ≠ none := by
  intro none_found
  obtain ⟨noted, complete, columns, outcome, problem_ok, outcome_ok, _, _, _, of_none⟩ := nextRow_ok done
  obtain ⟨_, _, met⟩ := met_of_rowProblem well_formed based cache_sound problem_ok
  obtain ⟨τ, point, nontrivial⟩ := exists_point_of_admissible well_formed based partitioned cache_sound problem_ok admissible
  exact Problem.solution_ne_none_of_nonTrivialLexmin met.sound.bounded
    (integer_of_region well_formed based partitioned cache_sound problem_ok) point.satisfied point.whole nontrivial outcome_ok
    (of_none none_found)

omit cache_sound in
/-- The rows of a solution are independent of the earlier rows where rows are needed. -/
theorem RowSolution.not_mem_rowSpace {found : List (List ℤ)} {point : Point} (solution : RowSolution graph noted options coincide found point)
    (index : ℕ) (node : Node) (node_at : graph.nodes[index]? = some node) (needs_row : graph.needsRow node = true) :
    (fun k : Fin node.space.dim => (rowsOf graph.params.length found index).cast.dims k) ∉ rowSpace node.space.dim node.linearRows := by
  intro row_mem
  have core_eq := solution.redrawn.core_eq
  obtain ⟨_, twin_at, first, rfl⟩ : ∃ twin, noted.nodes[index]? = some twin ∧ ∃ first, twin = { node with firstColumn := first } := by
    obtain ⟨twin, twin_at, twin_eq⟩ := solution.redrawn.nodes.getElem?_right node_at
    exact ⟨twin, twin_at, _, twin_eq⟩
  have laid_out := (wellFormed_of_core_eq core_eq.symm well_formed).nodes _ (mem_of_getElem? twin_at)
  have noted_needs : noted.needsRow { node with firstColumn := first } = true := by
    rw [solution.redrawn.rest]
    exact needs_row
  have noted_sorted := (partitioned_of_core_eq core_eq.symm partitioned).sorted
  obtain ⟨d, behind, inside, coordinate_ne⟩ :=
    (nonTrivial_iff _ _).mp (solution.independent _ (region_mem noted_sorted twin_at noted_needs))
  have row_eq : (rowsOf graph.params.length found index).cast
      = Node.rowAt { node with firstColumn := first } true (Point.assignment point) := by
    rw [solution.rows_eq, rowsAt, twin_at]
    rfl
  rw [row_eq] at row_mem
  have twin_based : Node.Based { node with firstColumn := first } :=
    based_of_core_eq (rfl : node.core = _) (based node (mem_of_getElem? node_at))
  have vanishes := (mem_rowSpace_iff twin_based (laid_out.params.symm ▸ laid_out) _).mp row_mem d behind inside
  rw [coordinate_rowAt twin_based (laid_out.params.symm ▸ laid_out) inside] at vanishes
  exact coordinate_ne vanishes

/-- The rows that a search finds are admissible, with a limit at which they cost the least. -/
theorem least_of_nextRow {found : List (List ℤ)}
    (holding : ∀ edge ∈ graph.edges, ∀ disjunct ∈ edge.relation.disjuncts, disjunct.MayHold)
    (done : graph.nextRow cache options coincide = .ok search) (is_found : search.rows = some found) :
    ∃ limit, graph.Admissible options coincide (rowsOf graph.params.length found) limit
      ∧ ∀ others other_limit, graph.Admissible options coincide others other_limit →
        graph.rowCost (rowsOf graph.params.length found) limit ≤ graph.rowCost others other_limit := by
  obtain ⟨noted, complete, columns, outcome, problem_ok, outcome_ok, _, _, read, _⟩ := nextRow_ok done
  obtain ⟨point, solution, rows_ok⟩ := read found is_found
  obtain ⟨_, parts, met⟩ := met_of_rowProblem well_formed based cache_sound problem_ok
  obtain ⟨solved, nontrivial⟩ := Problem.solvedBy_of_nonTrivialLexmin met.sound.bounded outcome_ok solution
  have solves := solution_of_rowProblem well_formed based cache_sound problem_ok solved nontrivial rows_ok
  have noted_well_formed := parts.wellFormed well_formed
  have rows_eq : (fun place => (rowsOf graph.params.length found place).cast) = noted.rowsAt true (Point.assignment point) :=
    funext solves.rows_eq
  obtain ⟨constant_eq, value_eq, weight_le⟩ := DistanceLimit.inColumns_spec solves.nonneg fun column before =>
    solved.whole column ((parts.integer_iff met rfl).mpr (before.trans_le parts.first_le))
  refine ⟨.inColumns (Point.assignment point), ⟨fun edge edge_mem disjunct disjunct_mem => ?_, ?_, ?_⟩, ?_⟩
  · intro columns params holds
    rw [solves.rows_eq, solves.rows_eq, value_eq]
    exact solves.respected edge edge_mem disjunct disjunct_mem (holding edge edge_mem disjunct disjunct_mem) columns params holds
  · rw [rows_eq]
    exact (rowsWithin_rowsAt solves.nonneg solves.within).of_core_eq parts.redrawn.core_eq
  · exact solves.not_mem_rowSpace well_formed based partitioned
  · intro others other_limit admissible
    obtain ⟨τ, other, other_nontrivial⟩ := exists_point_of_admissible well_formed based partitioned cache_sound problem_ok admissible
    have not_below := Problem.not_below_of_nonTrivialLexmin met.sound.bounded
      (integer_of_region well_formed based partitioned cache_sound problem_ok) outcome_ok
      ⟨by rw [append_nil]; exact other.satisfied, other.whole⟩ other_nontrivial
    rw [solution, Option.map_some, below_some_iff, not_lt] at not_below
    have front_le : 4 ≤ columns := (Nat.le_add_right _ _).trans parts.first_le
    obtain ⟨param_eq, coordinate_eq⟩ := parts.redrawn.costs_eq true fun place => (rowsOf graph.params.length found place).cast
    obtain ⟨param_le, coordinate_le⟩ := costs_rowsAt_le noted_well_formed (parts.based based) solves.nonneg
    rw [← rows_eq, param_eq, ← solves.sums.params] at param_le
    rw [← rows_eq, coordinate_eq, ← solves.sums.dims] at coordinate_le
    calc graph.rowCost (rowsOf graph.params.length found) (.inColumns (Point.assignment point))
        ≤ (List.range 4).map (Point.assignment point) := le_of_forall₂_le (.cons (weight_le.trans_eq solves.sums.bound.symm)
          (.cons constant_eq.le (.cons param_le (.cons coordinate_le .nil))))
      _ ≤ (List.range 4).map τ := map_range_le_of_le front_le (by simpa [Objective.values, Function.comp_def] using not_below)
      _ = graph.rowCost others other_limit :=
        map_congr_left fun column column_mem => other.front column (mem_range.mp column_mem)

end Search

end Graph

end AffineSchedule
