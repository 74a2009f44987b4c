import AffineSchedule.Proofs.Construction.BandFill
import AffineSchedule.Proofs.Construction.FactorSplit

namespace AffineSchedule

open Checked List

variable {graph : Graph} {count deepest size : ℕ} {factor : ℤ} {paramCount spare : ℕ} {row : List ℤ}
  {after before earlier later node : Node}

/-! ### The rank of the rows of a node -/

namespace Node

theorem rowRank_le_dim (node : Node) : node.rowRank ≤ node.space.dim := by
  have within := Submodule.finrank_le (rowSpace node.space.dim node.linearRows)
  rwa [Module.finrank_fin_fun] at within

theorem Prolongs.rowRank_le (prolonged : later.Prolongs earlier) : earlier.rowRank ≤ later.rowRank := by
  rw [rowRank, rowRank, prolonged.space]
  exact finrank_rowSpace_mono prolonged.linearRows_subset

theorem SameRows.rowRank_eq (same : after.SameRows before) : after.rowRank = before.rowRank := by
  rw [rowRank, rowRank, linearRows, linearRows, same.space, same.schedule]

/-- A row that adds something to the rows of a node has a coordinate behind the rank that is not zero. -/
theorem Based.exists_coordinate (based : node.Based) (laid_out : node.LaidOut paramCount)
    (independent : Graph.dependsOnRows node row = .ok false) :
    ∃ (linear : RowMatrix) (hermite : HermiteForm) (k : ℕ), hermite.Decomposes linear ∧ linear.cols = node.space.dim
      ∧ linear.rows = node.linearRows ∧ node.rank = hermite.rank ∧ node.rank ≤ k ∧ k < node.space.dim
      ∧ ∑ j ∈ Finset.range node.space.dim,
          (row.drop (1 + node.space.params)).getD j 0 * entryAt hermite.transform.rows j k ≠ 0 := by
  obtain ⟨linear, hermite, decomposes, cols_eq, rows_eq, rank_eq, _, coordinates_eq⟩ := based.hermite laid_out
  simp only [Graph.dependsOnRows, bind_ok, pure_ok] at independent
  obtain ⟨coordinate, read, some_nonzero⟩ := independent
  rw [coordinates_eq] at read
  obtain ⟨_, coordinate_length, entries⟩ := RowMatrix.mulVec_ok read
  have height_eq : hermite.transform.transpose.height = linear.cols := by
    simp [RowMatrix.height, RowMatrix.transpose, decomposes.transform_cols]
  obtain ⟨value, value_mem, nonzero⟩ : ∃ value ∈ coordinate.drop node.rank, value ≠ 0 := by
    simpa using some_nonzero
  obtain ⟨offset, value_at⟩ := getElem?_of_mem value_mem
  rw [getElem?_drop] at value_at
  have inside : node.rank + offset < linear.cols := by
    have below := (List.getElem?_eq_some_iff.mp value_at).1
    rwa [coordinate_length, height_eq] at below
  refine ⟨linear, hermite, node.rank + offset, decomposes, cols_eq, rows_eq, rank_eq, Nat.le_add_right _ _, cols_eq ▸ inside, ?_⟩
  have entry := entries (node.rank + offset)
  have column_eq : hermite.transform.transpose.rows.getD (node.rank + offset) []
      = hermite.transform.column (node.rank + offset) := by
    have column_lt : node.rank + offset < hermite.transform.cols := decomposes.transform_cols.symm ▸ inside
    simp [RowMatrix.transpose, getD_eq_getElem?_getD, column_lt]
  have transform_length : hermite.transform.rows.length = linear.cols := decomposes.tracks.transform_length
  rw [getD_eq_getElem?_getD, value_at, Option.getD_some, column_eq, dot_eq_sum, RowMatrix.column, length_map,
    transform_length, cols_eq] at entry
  refine Eq.trans_ne ?_ (entry ▸ nonzero)
  apply Finset.sum_congr rfl
  intro j j_mem
  have j_lt : j < hermite.transform.rows.length := by
    rw [transform_length, cols_eq]
    exact Finset.mem_range.mp j_mem
  simp [AffineSchedule.coordinates, entryAt, getD_eq_getElem?_getD, j_lt, mul_comm]

theorem Pushes.rank_lt_of_dependsOnRows {band : Option ℕ} {flag : Bool} (pushed : later.Pushes earlier row band flag)
    (laid_out : earlier.LaidOut paramCount) (earlier_based : earlier.Based) (later_based : later.Based)
    (independent : Graph.dependsOnRows earlier row = .ok false) : earlier.rank < later.rank := by
  obtain ⟨linear, hermite, k, decomposes, cols_eq, rows_eq, rank_eq, beyond, inside, nonzero⟩ :=
    earlier_based.exists_coordinate laid_out independent
  have fresh_mem : row.drop (1 + earlier.space.params) ∈ later.linearRows := by
    rw [linearRows, pushed.rows, pushed.space, map_append]
    exact mem_append_right _ mem_cons_self
  have vanishes : ∀ other ∈ earlier.linearRows,
      ∑ j ∈ Finset.range earlier.space.dim, other.getD j 0 * entryAt hermite.transform.rows j k = 0 := by
    intro other other_mem
    rw [← cols_eq]
    exact decomposes.row_mul_transform_eq_zero (rows_eq ▸ other_mem) (rank_eq ▸ beyond) (cols_eq.symm ▸ inside)
  rw [earlier_based.rank_eq laid_out, later_based.rank_eq (pushed.prolongs.laidOut laid_out), pushed.space]
  exact finrank_rowSpace_lt pushed.prolongs.linearRows_subset vanishes fresh_mem nonzero

end Node

/-! ### The budget -/

namespace Graph

/-- What rows a graph has is paid for, with `count` rows to spare. -/
structure Budget (size deepest : ℕ) (graph : Graph) (count : ℕ) : Prop where
  max_rows : size + 2 * deepest ≤ graph.counters.maxRows
  total : graph.counters.totalRows + count ≤ 2 * graph.counters.rows + size
  rank : ∀ node ∈ graph.nodes, node.space.dim + graph.counters.rows ≤ deepest + node.rowRank

section Budget

variable {next : Graph} (budget : graph.Budget size deepest count)
include budget

/-- The linear rows do not outnumber the dimensions. -/
theorem Budget.rows_le (nonempty : graph.nodes ≠ []) : graph.counters.rows ≤ deepest := by
  obtain ⟨node, node_mem⟩ := exists_mem_of_ne_nil _ nonempty
  have covered := budget.rank node node_mem
  have within := node.rowRank_le_dim
  omega

/-- A row to spare leaves room for an ordering row. -/
theorem Budget.room (nonempty : graph.nodes ≠ []) (spare : 0 < count) : graph.counters.totalRows < graph.counters.maxRows := by
  have rows_le := budget.rows_le nonempty
  have total := budget.total
  have max_rows := budget.max_rows
  omega

/-- Nodes with at least the rows from before, with as many linear rows. -/
theorem Budget.of_nodes {others : List Node} (max_rows : next.counters.maxRows = graph.counters.maxRows)
    (rows_eq : next.counters.rows = graph.counters.rows)
    (total_le : next.counters.totalRows + spare ≤ graph.counters.totalRows + count)
    (nodes : Forall₂ (fun before after : Node => after.Prolongs before) others next.nodes)
    (subset : ∀ node ∈ others, node ∈ graph.nodes) : next.Budget size deepest spare := by
  refine ⟨max_rows ▸ budget.max_rows, ?_, ?_⟩
  · have total := budget.total
    rw [rows_eq]
    omega
  · refine nodes.forall_mem (fun before after before_mem prolonged (_ : True) => ?_) (fun _ _ => trivial)
    have covered := budget.rank before (subset before before_mem)
    rw [rows_eq, prolonged.space]
    exact covered.trans (Nat.add_le_add_left prolonged.rowRank_le deepest)

theorem Budget.of_sameRows (same : next.SameRows graph) : next.Budget size deepest count := by
  refine budget.of_nodes (congrArg _ same.counters) (congrArg _ same.counters) ?_
    (same.nodes.imp fun _ _ node_same => node_same.prolongs) fun _ node_mem => node_mem
  rw [same.counters]

/-- An ordering row uses up a row to spare. -/
theorem Budget.appendConstantRow {value : Node → ℤ} (count_eq : count = spare + 1)
    (done : graph.appendConstantRow value = .ok next) : next.Budget size deepest spare := by
  obtain ⟨next_eq, pushed⟩ := appendConstantRow_ok done
  refine budget.of_nodes (congrArg (·.counters.maxRows) next_eq) (congrArg (·.counters.rows) next_eq) ?_
    (pushed.imp fun _ _ pushes => pushes.prolongs) fun _ node_mem => node_mem
  rw [show next.counters.totalRows = graph.counters.totalRows + 1 from congrArg (·.counters.totalRows) next_eq]
  omega

end Budget

/-! ### Rows needed -/

theorem foldl_max_le {needed : Node → ℕ} {nodes : List Node} {most bound : ℕ} (most_le : most ≤ bound)
    (each : ∀ node ∈ nodes, needed node ≤ bound) : nodes.foldl (fun most node => max most (needed node)) most ≤ bound := by
  induction nodes generalizing most with
  | nil => exact most_le
  | cons node later ih =>
    obtain ⟨node_le, later_le⟩ := forall_mem_cons.mp each
    exact ih (Nat.max_le.mpr ⟨most_le, node_le⟩) later_le

theorem foldl_max_eq (needed : Node → ℕ) (nodes : List Node) (most : ℕ) :
    nodes.foldl (fun most node => max most (needed node)) most = most
      ∨ ∃ node ∈ nodes, nodes.foldl (fun most node => max most (needed node)) most = needed node := by
  induction nodes generalizing most with
  | nil => exact Or.inl rfl
  | cons node later ih =>
    rw [foldl_cons]
    rcases ih (max most (needed node)) with reached | ⟨found, found_mem, reached⟩
    · rcases Nat.le_total most (needed node) with below | above
      · rw [Nat.max_eq_right below] at reached ⊢
        exact Or.inr ⟨node, mem_cons_self, reached⟩
      · rw [Nat.max_eq_left above] at reached ⊢
        exact Or.inl reached
    · exact Or.inr ⟨found, mem_cons_of_mem _ found_mem, reached⟩

/-- Some node needs all the rows that are needed. -/
def Tight (graph : Graph) : Prop :=
  ∃ node ∈ graph.nodes, graph.rowsNeeded + node.rowRank ≤ node.space.dim + graph.counters.rows

theorem Tight.of_sameRows {next : Graph} (tight : graph.Tight) (same : next.SameRows graph)
    (needed_eq : next.rowsNeeded = graph.rowsNeeded) : next.Tight := by
  rw [Tight, needed_eq, same.counters]
  obtain ⟨node, node_mem, needs⟩ := tight
  obtain ⟨after, after_mem, node_same⟩ := same.nodes.exists_right node_mem
  refine ⟨after, after_mem, ?_⟩
  rw [node_same.rowRank_eq, node_same.space]
  exact needs

theorem Ranked.rowRank_eq (ranked : graph.Ranked) (well_formed : graph.WellFormed) (node_mem : node ∈ graph.nodes) :
    node.rank = node.rowRank :=
  (ranked node node_mem).1.rank_eq (well_formed.nodes node node_mem)

section Needed

variable {next : Graph} (well_formed : graph.WellFormed) (done : graph.updateRowsNeeded = .ok next)
include well_formed done

theorem Budget.rowsNeeded_le (budget : graph.Budget size deepest count) : next.rowsNeeded ≤ deepest := by
  obtain ⟨same, ranked, _⟩ := ranked_of_updateRowsNeeded done
  have next_well_formed := same.wellFormed well_formed
  have next_budget := budget.of_sameRows same
  have rows_eq : next.counters.rows = graph.counters.rows := congrArg _ same.counters
  simp only [updateRowsNeeded, bind_ok, pure_ok] at done
  obtain ⟨nodes, _, rfl⟩ := done
  refine foldl_max_le (Nat.zero_le _) fun node node_mem => ?_
  have covered := next_budget.rank node node_mem
  have rank_eq := ranked.rowRank_eq next_well_formed node_mem
  dsimp only at covered ⊢
  omega

theorem tight_of_updateRowsNeeded (nonempty : graph.nodes ≠ []) : next.Tight := by
  obtain ⟨same, ranked, _⟩ := ranked_of_updateRowsNeeded done
  have next_well_formed := same.wellFormed well_formed
  obtain ⟨first, first_mem⟩ := exists_mem_of_ne_nil _ nonempty
  obtain ⟨witness, witness_mem, _⟩ := same.nodes.exists_right first_mem
  simp only [updateRowsNeeded, bind_ok, pure_ok] at done
  obtain ⟨nodes, _, rfl⟩ := done
  rcases foldl_max_eq (fun node => node.space.dim + graph.counters.rows - node.rank) nodes 0 with
    none_needed | ⟨node, node_mem, needed_eq⟩
  · refine ⟨witness, witness_mem, ?_⟩
    have within := witness.rowRank_le_dim
    dsimp only at none_needed ⊢
    omega
  · refine ⟨node, node_mem, ?_⟩
    have rank_eq := ranked.rowRank_eq next_well_formed node_mem
    have within := node.rowRank_le_dim
    dsimp only at needed_eq ⊢
    omega

end Needed

/-! ### Rows of a band -/

/-- The rows of a band in progress are paid for. -/
theorem Filling.budget {start : Graph} (filling : Filling start graph)
    (start_budget : start.Budget size deepest count) (needed_le : start.rowsNeeded ≤ deepest) :
    graph.Budget size deepest count := by
  obtain ⟨added, counters_eq⟩ := filling.counters
  refine ⟨by rw [counters_eq]; exact start_budget.max_rows, ?_, fun node node_mem => ?_⟩
  · have total := start_budget.total
    rw [counters_eq]
    dsimp only
    omega
  · obtain ⟨based, covered⟩ := filling.ranked node node_mem
    have rank_eq := filling.ranked.rowRank_eq filling.stage.well_formed node_mem
    have needed_eq := filling.needed
    omega

/-- A row that is still needed has room. -/
theorem Budget.room_of_lt (budget : graph.Budget size deepest count) (rows_lt : graph.counters.rows < deepest) :
    graph.counters.totalRows < graph.counters.maxRows := by
  have total := budget.total
  have max_rows := budget.max_rows
  omega

/-! ### Carrying rows -/

theorem dependsOnRows_of_anyTrivial {entries : List (Node × List ℤ)} (done : graph.anyTrivial entries = .ok false) :
    ∀ entry ∈ entries, graph.needsRow entry.1 = true → dependsOnRows entry.1 entry.2 = .ok false := by
  induction entries with
  | nil => simp
  | cons entry later ih =>
    have first_done : graph.needsRow entry.1 = true → dependsOnRows entry.1 entry.2 = .ok false := by
      intro needs_row
      simp only [anyTrivial, needs_row, if_true, bind_ok] at done
      obtain ⟨trivially, depends, done⟩ := done
      cases trivially with
      | true => cases pure_ok.mp done
      | false => exact depends
    have rest_done : graph.anyTrivial later = .ok false := by
      cases needs_row : graph.needsRow entry.1 with
      | false => simpa [anyTrivial, needs_row] using done
      | true => simpa [anyTrivial, needs_row, first_done needs_row, bind, Except.bind] using done
    exact forall_mem_cons.mpr ⟨first_done, ih rest_done⟩

section Carrying

variable {next : Graph} {rows : List (List ℤ)} (ranked : graph.Ranked) (well_formed : graph.WellFormed)
  (nontrivial : graph.anyTrivial (graph.nodes.zip rows) = .ok false)
include ranked well_formed nontrivial

/-- A carrying row that is not trivial is needed. -/
theorem Tight.rows_lt (tight : graph.Tight) (length_eq : rows.length = graph.nodes.length) :
    graph.counters.rows < graph.rowsNeeded := by
  obtain ⟨node, node_mem, needed⟩ := tight
  have needs : graph.needsRow node = true := decide_eq_true (ranked.rowRank_eq well_formed node_mem ▸ needed)
  obtain ⟨place, node_at⟩ := getElem?_of_mem node_mem
  have inside : place < rows.length := by
    rw [length_eq]
    exact (List.getElem?_eq_some_iff.mp node_at).1
  have entry_mem : (node, rows[place]) ∈ graph.nodes.zip rows :=
    mem_of_getElem? (getElem?_zip_eq_some.mpr ⟨node_at, getElem?_eq_getElem inside⟩)
  obtain ⟨based, enough⟩ := ranked node node_mem
  obtain ⟨_, _, k, _, _, _, _, beyond, below, _⟩ := based.exists_coordinate (well_formed.nodes node node_mem)
    (dependsOnRows_of_anyTrivial nontrivial _ entry_mem needs)
  omega

/-- A carrying row that is not trivial leaves enough rows to come. -/
theorem Ranked.appendCarried (done : graph.appendRow rows false = .ok next) : next.Ranked := by
  refine ranked.appendRow well_formed done ?_
  intro place before after row before_at row_at needs_row pushes after_based
  have before_mem := mem_of_getElem? before_at
  have entry_mem : (before, row) ∈ graph.nodes.zip rows :=
    mem_of_getElem? (getElem?_zip_eq_some.mpr ⟨before_at, row_at⟩)
  exact pushes.rank_lt_of_dependsOnRows (well_formed.nodes before before_mem) (ranked before before_mem).1 after_based
    (dependsOnRows_of_anyTrivial nontrivial (before, row) entry_mem needs_row)

end Carrying

/-- A carrying row pays for itself and for a row of remainders. -/
theorem Budget.appendCarried {next : Graph} {rows : List (List ℤ)} (budget : graph.Budget size deepest count)
    (needed_le : graph.rowsNeeded ≤ deepest) (next_ranked : next.Ranked) (next_well_formed : next.WellFormed)
    (done : graph.appendRow rows false = .ok next) : next.Budget size deepest (count + 1) := by
  obtain ⟨_, next_eq, _⟩ := appendRow_ok done
  have counters_eq : next.counters = { graph.counters with
      rows := graph.counters.rows + 1, totalRows := graph.counters.totalRows + 1 } := congrArg (·.counters) next_eq
  have needed_eq : next.rowsNeeded = graph.rowsNeeded := congrArg (·.rowsNeeded) next_eq
  refine ⟨by rw [counters_eq]; exact budget.max_rows, ?_, fun node node_mem => ?_⟩
  · have total := budget.total
    rw [counters_eq]
    dsimp only
    omega
  · obtain ⟨_, covered⟩ := next_ranked node node_mem
    have rank_eq := next_ranked.rowRank_eq next_well_formed node_mem
    omega

/-- The row of remainders uses up a row to spare. -/
theorem Budget.splitFactor {split : Graph} (budget : graph.Budget size deepest (count + 1))
    (has_rows : ∀ node ∈ graph.nodes, node.HasRows graph.counters.totalRows) (done : graph.splitFactor = .ok split) :
    split.Budget size deepest count := by
  rcases splitFactor_spec has_rows done with rfl | ⟨factor, last, total_eq, large, divides, _, _, _, counters_eq, split_nodes⟩
  · exact ⟨budget.max_rows, (Nat.le_succ _).trans budget.total, budget.rank⟩
  · refine ⟨by rw [counters_eq]; exact budget.max_rows, ?_, ?_⟩
    · have total := budget.total
      rw [counters_eq]
      dsimp only
      omega
    · refine split_nodes.forall_mem (fun before after before_mem splits covered => ?_) budget.rank
      rw [splits.rowRank_eq (total_eq ▸ has_rows before before_mem) (by omega) (divides before before_mem), counters_eq,
        splits.space]
      exact covered

end Graph

end AffineSchedule
