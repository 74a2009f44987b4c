import AffineSchedule.Proofs.Construction.RowProblems

namespace AffineSchedule

open Checked List AffineForm Node

variable {coincide : Bool} {graph : Graph} {cache : ConeCache} {search : RowSearch} {point : Linear.Point}
  {node : Node} {rows : List (List ℤ)} {options : Options}

namespace Graph

/-- Rows, one per node, that respect the dependences of the graph and are independent of the earlier rows
    where rows are needed. -/
structure FoundRows (graph : Graph) (coincide : Bool) (rows : List (List ℤ)) : Prop where
  validity : ∀ i j params x y, graph.Links .validity i j params x y → ∀ rowI rowJ, rows[i]? = some rowI →
    rows[j]? = some rowJ → rowValue rowI graph.params.length x params
      ≤ rowValue rowJ graph.params.length y params
  coincidence : coincide = true → ∀ i j params x y, graph.Links .coincidence i j params x y → ∀ rowI rowJ,
    rows[i]? = some rowI → rows[j]? = some rowJ → rowValue rowI graph.params.length x params
      = rowValue rowJ graph.params.length y params
  locals : ∀ edge ∈ graph.edges, edge.isLocal = true → ∀ params x y, edge.relation.Relates params x y → ∀ rowI rowJ,
    rows[edge.source]? = some rowI → rows[edge.target]? = some rowJ → rowValue rowI graph.params.length x params
      = rowValue rowJ graph.params.length y params
  independent : ∀ (i : ℕ) (node : Node) (row : List ℤ), graph.nodes[i]? = some node → rows[i]? = some row →
    graph.needsRow node = true → ∃ coordinate k, node.basis.mulVec coordinate = .ok (row.drop (1 + node.space.params))
      ∧ node.rank ≤ k ∧ k < node.space.dim ∧ coordinate.getD k 0 ≠ 0

/-- The region of a node is not trivial where a coordinate behind the rank is not zero. -/
theorem nonTrivial_iff (node : Node) (σ : Linear.Assignment) :
    Linear.Region.NonTrivial { pairs := (node.dimPairs.drop node.rank).reverse } σ ↔
      ∃ d, node.rank ≤ d ∧ d < node.space.dim ∧ node.coordinateAt σ d ≠ 0 := by
  have pair_at : ∀ d < node.space.dim, node.dimPairs[d]? = some (node.pairAt (node.space.params + (node.space.dim - 1 - d))) := by
    intro d inside
    simp [dimPairs, inside]
  have coordinate_ne_iff : ∀ d < node.space.dim, node.coordinateAt σ d ≠ 0 ↔
      σ (node.pairAt (node.space.params + (node.space.dim - 1 - d))).1
        ≠ σ (node.pairAt (node.space.params + (node.space.dim - 1 - d))).2 := by
    intro d inside
    rw [coordinateAt, if_pos inside, Node.part, sub_ne_zero, ne_comm]
  constructor
  · rintro ⟨pair, pair_mem, different⟩
    obtain ⟨offset, offset_at⟩ := getElem?_of_mem (mem_reverse.mp pair_mem)
    rw [getElem?_drop] at offset_at
    have inside : node.rank + offset < node.space.dim := by
      simpa [dimPairs] using (List.getElem?_eq_some_iff.mp offset_at).1
    obtain rfl := Option.some.inj ((pair_at _ inside).symm.trans offset_at)
    exact ⟨_, Nat.le_add_right _ _, inside, (coordinate_ne_iff _ inside).mpr different⟩
  · rintro ⟨d, behind, inside, coordinate_ne⟩
    refine ⟨_, mem_reverse.mpr (mem_of_getElem? (i := d - node.rank) ?_), (coordinate_ne_iff d inside).mp coordinate_ne⟩
    rw [getElem?_drop, Nat.add_sub_cancel' behind, pair_at d inside]

/-- A coordinate that is not zero in the region of a node is a later coordinate of the row read for it. -/
theorem exists_coordinate {row : List ℤ} (read : node.readRow point true = .ok row)
    (nontrivial : Linear.Region.NonTrivial { pairs := (node.dimPairs.drop node.rank).reverse } (Linear.Point.assignment point)) :
    ∃ coordinate k, node.basis.mulVec coordinate = .ok (row.drop (1 + node.space.params)) ∧ node.rank ≤ k
      ∧ k < node.space.dim ∧ coordinate.getD k 0 ≠ 0 := by
  obtain ⟨_, _, _, coordinate, dims, _, _, _, coordinate_ok, dims_ok, _, row_drop⟩ := readRow_ok read
  obtain ⟨d, behind, inside, coordinate_ne⟩ := (nonTrivial_iff node _).mp nontrivial
  refine ⟨coordinate, d, row_drop ▸ dims_ok, behind, inside, fun vanishes => coordinate_ne ?_⟩
  have value_eq := (getD_of_pairValues (unscaled_assignment point) coordinate_ok).2 d
  rw [vanishes, node.coefficient_dimPairs, one_mul, Int.cast_zero] at value_eq
  exact value_eq.symm

/-- The node at every position has its region among those of the search. -/
theorem region_mem (sorted : ∀ index < graph.nodes.length, index ∈ graph.sorted) {index : ℕ}
    (node_at : graph.nodes[index]? = some node) (needs_row : graph.needsRow node = true) :
    ({ pairs := (node.dimPairs.drop node.rank).reverse } : Linear.Region) ∈ graph.independenceRegions := by
  have inside := (List.getElem?_eq_some_iff.mp node_at).1
  simp only [independenceRegions, mem_map, mem_filter, mem_filterMap]
  exact ⟨node, ⟨⟨index, sorted index inside, node_at⟩, needs_row⟩, rfl⟩

/-- A solution of the problem of the next row, with the rows that are read from it, one per node. -/
structure RowSolution (graph noted : Graph) (options : Options) (coincide : Bool)
    (rows : List (List ℤ)) (point : Linear.Point) : Prop where
  redrawn : noted.Redrawn graph
  laid_out : noted.RowsLaidOut rows
  read : noted.readRows point true = .ok rows
  nonneg : ∀ column, 0 ≤ Linear.Point.assignment point column
  rows_eq : ∀ index, (rowsOf graph.params.length rows index).cast
    = noted.rowsAt true (Linear.Point.assignment point) index
  respected : ∀ edge ∈ graph.edges, edge.Respected coincide (noted.rowsAt true (Linear.Point.assignment point))
    ((DistanceBound.inColumns graph.params.length).value (Linear.Point.assignment point))
  within : ∀ node ∈ noted.nodes, node.WithinBounds options true (Linear.Point.assignment point)
  sums : noted.RowSums graph.params.length (Linear.Point.assignment point)
  independent : ∀ region ∈ noted.independenceRegions, region.NonTrivial (Linear.Point.assignment point)

section

variable (well_formed : graph.WellFormed) (based : ∀ node ∈ graph.nodes, node.Based)
include well_formed based

theorem solution_of_rowProblem {noted : Graph} {complete : ConeProblem} {columns : ℕ} (cache_sound : cache.Sound)
    (done : graph.rowProblem cache options coincide = .ok (noted, complete, columns))
    (solved : complete.problem.SolvedBy [] point)
    (nontrivial : ∀ region ∈ noted.independenceRegions, region.NonTrivial (Linear.Point.assignment point))
    (read : noted.readRows point true = .ok rows) : RowSolution graph noted options coincide rows point := by
  obtain ⟨bounded, parts, met⟩ := met_of_rowProblem well_formed based cache_sound done
  have satisfied : Linear.Satisfies (Linear.Point.assignment point) complete.problem.rows :=
    ⟨solved.satisfies.nonneg, fun row row_mem => solved.satisfies.holds row (mem_append_left _ row_mem)⟩
  obtain ⟨_, sums, within⟩ := (parts.satisfies_iff _).mp (met.continues.satisfies satisfied)
  have noted_well_formed := parts.wellFormed well_formed
  refine ⟨parts.redrawn, rowsLaidOut_of_readRows noted_well_formed (fun _ => parts.based based) read, read, satisfied.nonneg,
    fun index => ?_, keptAt_rowDemands_iff.mp (met.kept _ satisfied), within, sums, nontrivial⟩
  rw [← parts.redrawn.params_eq, rowsOf_readRows noted_well_formed (unscaled_assignment point) read, AffineRow.scaled_one]

theorem solution_of_nextRow
    (cache_sound : cache.Sound) (done : graph.nextRow cache options coincide = .ok search) (found : search.rows = some rows) :
    ∃ (noted : Graph) (conflict : Option (ℕ × ℕ)) (point : Linear.Point),
      search.graph = { noted with conflict := conflict } ∧ RowSolution graph noted options coincide rows point := by
  obtain ⟨noted, complete, columns, outcome, problem_ok, outcome_ok, _, ⟨conflict, graph_eq⟩, read, _⟩ := nextRow_ok done
  obtain ⟨_, _, met⟩ := met_of_rowProblem well_formed based cache_sound problem_ok
  obtain ⟨point, solution, rows_ok⟩ := read rows found
  obtain ⟨solved, nontrivial⟩ := Linear.Problem.solvedBy_of_nonTrivialLexmin met.sound.bounded outcome_ok solution
  exact ⟨noted, conflict, point, graph_eq, solution_of_rowProblem well_formed based cache_sound problem_ok solved nontrivial rows_ok⟩

/-- What the search for the next row delivers. -/
theorem sound_of_nextRow
    (partitioned : graph.Partitioned) (cache_sound : cache.Sound) (done : graph.nextRow cache options coincide = .ok search) :
    search.graph.core = graph.core ∧ search.cache.Sound
      ∧ ∀ rows, search.rows = some rows → search.graph.FoundRows coincide rows := by
  have core_eq := (redrawn_of_nextRow done).core_eq
  obtain ⟨noted, complete, columns, outcome, problem_ok, _, cache_eq, _⟩ := nextRow_ok done
  obtain ⟨_, _, met⟩ := met_of_rowProblem well_formed based cache_sound problem_ok
  refine ⟨core_eq, cache_eq ▸ met.sound.cache, fun rows found => ?_⟩
  obtain ⟨noted, conflict, point, graph_eq, solution⟩ := solution_of_nextRow well_formed based cache_sound done found
  have params_eq := solution.redrawn.params_eq
  have noted_well_formed := wellFormed_of_core_eq solution.redrawn.core_eq.symm well_formed
  -- a related pair is a point of a disjunct of its edge
  have at_pair : ∀ edge ∈ noted.edges, ∀ params x y, edge.relation.Relates params x y → ∀ rowI rowJ,
      rows[edge.source]? = some rowI → rows[edge.target]? = some rowJ →
      (edge.has .validity = true → rowValue rowI noted.params.length x params
        ≤ rowValue rowJ noted.params.length y params)
      ∧ (edge.forcesZero coincide = true → rowValue rowI noted.params.length x params
        = rowValue rowJ noted.params.length y params) := by
    intro edge edge_mem params x y related rowI rowJ rowI_at rowJ_at
    obtain ⟨disjunct, disjunct_mem, may_hold, columns, holds, distance_eq⟩ :=
      exists_distance noted_well_formed solution.laid_out edge_mem related rowI_at rowJ_at
    obtain ⟨original, original_mem, note⟩ := solution.redrawn.edges.exists_left edge_mem
    obtain ⟨first, last, rfl⟩ : ∃ first last, edge = { original with firstRow := first, endRow := last } := ⟨_, _, note⟩
    obtain ⟨forward, constant, _⟩ := solution.respected original original_mem disjunct disjunct_mem may_hold columns _ holds
    rw [params_eq, solution.rows_eq, solution.rows_eq] at distance_eq
    rw [distance_eq] at forward constant
    rw [params_eq]
    refine ⟨fun ordered => sub_nonneg.mp ?_, fun forced => (sub_eq_zero.mp ?_).symm⟩
    · exact_mod_cast forward ordered
    · exact_mod_cast constant forced
  rw [graph_eq]
  refine ⟨?_, ?_, ?_, ?_⟩
  · rintro i j params x y ⟨edge, edge_mem, rfl, rfl, has_validity, related⟩ rowI rowJ rowI_at rowJ_at
    exact (at_pair edge edge_mem params x y related rowI rowJ rowI_at rowJ_at).1 has_validity
  · rintro asked i j params x y ⟨edge, edge_mem, rfl, rfl, has_coincidence, related⟩ rowI rowJ rowI_at rowJ_at
    refine (at_pair edge edge_mem params x y related rowI rowJ rowI_at rowJ_at).2 ?_
    rw [Edge.forcesZero, asked, has_coincidence, Bool.true_and, Bool.or_true]
  · intro edge edge_mem is_local params x y related rowI rowJ rowI_at rowJ_at
    refine (at_pair edge edge_mem params x y related rowI rowJ rowI_at rowJ_at).2 ?_
    rw [Edge.forcesZero, is_local, Bool.true_or]
  · intro i node row node_at row_at needs_row
    have row_read := (mapM_ok.mp solution.read).related_at node_at row_at
    have noted_sorted := (partitioned_of_core_eq solution.redrawn.core_eq.symm partitioned).sorted
    exact exists_coordinate row_read (solution.independent _ (region_mem noted_sorted node_at needs_row))

end

end Graph

end AffineSchedule
