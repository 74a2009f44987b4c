import AffineSchedule.Proofs.Construction.NextRow

namespace AffineSchedule

open Checked

variable {cache : ConeCache} {carrying : CarryingRow} {graph : Graph} {options : Options}

/-- A scaled point is a multiple of the point. -/
theorem getD_scaleToIntegers (point : Linear.Point) (column : ℕ) :
    (scaleToIntegers point).getD column 0 = (commonDenominator point : ℚ) * Linear.Point.assignment point column := by
  rw [scaleToIntegers, Linear.Point.assignment, List.getD_eq_getElem?_getD, List.getD_eq_getElem?_getD,
    List.getElem?_map, mul_comm]
  cases point[column]? with
  | none => exact (zero_mul _).symm
  | some value => rfl

namespace Graph

/-- The carrying problem of a graph is set up, and a point solves it. -/
structure CarryingPoint (graph : Graph) (cache : ConeCache) (options : Options) (placed : Graph)
    (complete : ConeProblem) (columns : ℕ) (point : Linear.Point) : Prop where
  problem_ok : graph.carryingProblem cache options = .ok (placed, complete, columns)
  found : complete.problem.rationalLexmin [] ((List.range columns).map fun column => [(column, 1)]) = .ok (some point)

/-- The search for a carrying row: the rational solution carries something, is scaled and read off. -/
theorem carryingRow_ok (done : graph.carryingRow cache options = .ok carrying) :
    ∃ complete columns point, graph.CarryingPoint cache options carrying.graph complete columns point
      ∧ carrying.graph.readRows (scaleToIntegers point) false = .ok carrying.rows
      ∧ carrying.graph.anyTrivial (carrying.graph.nodes.zip carrying.rows) = .ok carrying.isTrivial
      ∧ carrying.cache = complete.cache ∧ Linear.Point.assignment point 0 < (graph.validityDisjuncts.length : ℚ) := by
  simp only [carryingRow, bind_ok] at done
  obtain ⟨⟨placed, complete, columns⟩, problem_ok, solution, solution_ok, done⟩ := done
  split at done
  next => exact (throw_ok.mp done).elim
  next point =>
    simp only [bind_ok] at done
    obtain ⟨missing, missing_at, done⟩ := done
    split at done
    next =>
      obtain ⟨_, impossible, _⟩ := bind_ok.mp done
      exact (throw_ok.mp impossible).elim
    next carries =>
      simp only [bind_ok, pure_ok] at done
      obtain ⟨rows, rows_ok, isTrivial, trivial_ok, rfl⟩ := done
      have missing_eq := Linear.Problem.assignment_eq_of_getElem? (ofOption_ok.mp missing_at)
      exact ⟨complete, columns, point, ⟨problem_ok, solution_ok⟩, rows_ok, trivial_ok, rfl, missing_eq ▸ not_le.mp carries⟩

/-- A solution of the carrying problem, with the rows that are read from a multiple of it. -/
structure CarryingSolution (graph placed : Graph) (rows : List (List ℤ)) (point : Linear.Point) : Prop where
  redrawn : placed.Redrawn graph
  edges : placed.edges = graph.edges
  laid_out : placed.RowsLaidOut rows
  nonneg : ∀ column, 0 ≤ Linear.Point.assignment point column
  rows_eq : ∀ index, (rowsOf graph.params.length rows index).cast
    = (placed.rowsAt false (Linear.Point.assignment point) index).scaled (commonDenominator point)
  carries : graph.CarriesAt (placed.rowsAt false (Linear.Point.assignment point)) (Linear.Point.assignment point)

section

variable (well_formed : graph.WellFormed) (cache_sound : cache.Sound) (done : graph.carryingRow cache options = .ok carrying)
include well_formed cache_sound done

theorem solution_of_carryingRow :
    carrying.cache.Sound ∧ ∃ complete columns point, graph.CarryingPoint cache options carrying.graph complete columns point
      ∧ CarryingSolution graph carrying.graph carrying.rows point := by
  obtain ⟨complete, columns, point, ⟨problem_ok, found_ok⟩, rows_ok, _, cache_eq, _⟩ := carryingRow_ok done
  obtain ⟨bounded, parts, edges_eq, met⟩ := met_of_carryingProblem well_formed cache_sound problem_ok
  obtain ⟨_, satisfied⟩ := Linear.Problem.satisfies_of_rationalLexmin met.sound.bounded (by simp) found_ok
  rw [List.append_nil] at satisfied
  have placed_well_formed := parts.wellFormed well_formed
  have params_eq := parts.redrawn.params_eq
  refine ⟨cache_eq ▸ met.sound.cache, complete, columns, point, ⟨problem_ok, found_ok⟩, parts.redrawn, edges_eq,
    rowsLaidOut_of_readRows placed_well_formed (fun impossible => absurd impossible Bool.false_ne_true) rows_ok, satisfied.nonneg,
    fun index => ?_, keptAt_carriedDemands_iff.mp (met.kept _ satisfied)⟩
  rw [← params_eq, rowsOf_readRows placed_well_formed (getD_scaleToIntegers point) rows_ok]

/-- A carrying row orders no pair backwards that is to be respected. -/
theorem sound_of_carryingRow : carrying.graph.core = graph.core ∧ carrying.cache.Sound
      ∧ ∀ kind, (kind = .validity ∨ kind = .conditionalValidity) → ∀ i j params x y,
          carrying.graph.Links kind i j params x y → ∀ rowI rowJ, carrying.rows[i]? = some rowI →
          carrying.rows[j]? = some rowJ → AffineForm.rowValue rowI carrying.graph.params.length x params
            ≤ AffineForm.rowValue rowJ carrying.graph.params.length y params := by
  obtain ⟨next_sound, _, _, point, _, solution⟩ := solution_of_carryingRow well_formed cache_sound done
  refine ⟨solution.redrawn.core_eq, next_sound, ?_⟩
  rintro kind is_validity i j params x y ⟨edge, edge_mem, rfl, rfl, has_kind, related⟩ rowI rowJ rowI_at rowJ_at
  have any_validity : edge.isAnyValidity = true := by
    rcases is_validity with rfl | rfl
    · rw [Edge.isAnyValidity, has_kind, Bool.true_or]
    · rw [Edge.isAnyValidity, has_kind, Bool.or_true]
  have params_eq := solution.redrawn.params_eq
  obtain ⟨disjunct, disjunct_mem, may_hold, columns, holds, distance_eq⟩ := exists_distance
    (wellFormed_of_core_eq solution.redrawn.core_eq.symm well_formed) solution.laid_out edge_mem related rowI_at rowJ_at
  obtain ⟨number, entry_at⟩ :=
    List.getElem?_of_mem (mem_validityDisjuncts_iff.mpr ⟨solution.edges ▸ edge_mem, any_validity, disjunct_mem⟩)
  have carried := (solution.nonneg _).trans (solution.carries number edge disjunct entry_at may_hold columns _ holds)
  rw [params_eq, solution.rows_eq, solution.rows_eq, Conjunct.distance_scaled] at distance_eq
  have scaled_nonneg := mul_nonneg (Nat.cast_nonneg (commonDenominator point)) carried
  rw [distance_eq] at scaled_nonneg
  rw [params_eq]
  exact sub_nonneg.mp (by exact_mod_cast scaled_nonneg)

end

/-- A carrying row gives the nodes their columns and leaves the graph alone otherwise. -/
theorem redrawn_of_carryingRow (done : graph.carryingRow cache options = .ok carrying) :
    carrying.graph.Redrawn graph ∧ carrying.graph.edges = graph.edges := by
  obtain ⟨complete, columns, point, ⟨problem_ok, _⟩, _⟩ := carryingRow_ok done
  obtain ⟨_, _, parts, _, edges_eq, _⟩ := carryingProblem_ok problem_ok
  exact ⟨parts.redrawn, edges_eq⟩

end Graph

end AffineSchedule
