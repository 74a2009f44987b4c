import AffineSchedule.Proofs.Construction.BandShapes
import AffineSchedule.Proofs.Construction.RowPoints

namespace AffineSchedule

open Checked AffineSchedule.Graph List

variable {flag coincide : Bool} {search : RowSearch} {node : Node} {rows : List (List ℤ)}

/-! ### Rows within a bound -/

namespace Node

/-- No coefficient of a parameter or a dimension in the row exceeds the bound in absolute value. -/
def RowWithin (bound row : ℕ) (node : Node) : Prop :=
  ∀ coefficient ∈ (node.schedule.rows.getD row []).drop 1, |coefficient| ≤ (bound : ℤ)

variable {later earlier : Node} {bound count row : ℕ}

theorem rowWithin_of_hasRows (has_rows : node.HasRows count) (beyond : count ≤ row) : node.RowWithin bound row := by
  intro coefficient coefficient_mem
  rw [getD_eq_default _ _ (has_rows.height.trans_le beyond)] at coefficient_mem
  cases coefficient_mem

theorem rowWithin_of_zeros (zeros : ∀ coefficient ∈ node.schedule.rows.getD row [], coefficient = 0) :
    node.RowWithin bound row := by
  intro coefficient coefficient_mem
  rw [zeros coefficient (mem_of_mem_drop coefficient_mem), abs_zero]
  exact Int.natCast_nonneg bound

theorem RowWithin.of_prolongs (within : earlier.RowWithin bound row) (prolonged : later.Prolongs earlier)
    (has_rows : earlier.HasRows count) (inside : row < count) : later.RowWithin bound row := by
  rw [RowWithin, prolonged.row_eq has_rows inside]
  exact within

theorem RowWithin.of_sameRows (within : earlier.RowWithin bound row) (same : later.SameRows earlier) :
    later.RowWithin bound row := by
  rw [RowWithin, same.schedule]
  exact within

theorem Pushes.rowWithin {entries : List ℤ} {band : Option ℕ} {first : ℕ} (pushed : later.Pushes earlier entries band flag)
    (has_rows : earlier.HasRows count) (within : ∀ row, first ≤ row → earlier.RowWithin bound row)
    (fits : ∀ coefficient ∈ entries.drop 1, |coefficient| ≤ (bound : ℤ)) : ∀ row, first ≤ row → later.RowWithin bound row := by
  intro row from_first
  rcases Nat.lt_trichotomy row count with before | rfl | beyond
  · exact (within row from_first).of_prolongs pushed.prolongs has_rows before
  · rw [RowWithin, pushed.row_last has_rows]
    exact fits
  · exact rowWithin_of_hasRows (pushed.hasRows has_rows) beyond

end Node

namespace Graph

/-- The rows of all nodes are within the bound, from a first row on. -/
def Within (bound first : ℕ) (graph : Graph) : Prop :=
  ∀ node ∈ graph.nodes, ∀ row, first ≤ row → node.RowWithin bound row

variable {bound first count : ℕ} {graph next : Graph}

theorem within_of_hasRows (has_rows : ∀ node ∈ graph.nodes, node.HasRows first) : graph.Within bound first :=
  fun node node_mem _ beyond => Node.rowWithin_of_hasRows (has_rows node node_mem) beyond

theorem Within.of_nodes (within : graph.Within bound first)
    (same : Forall₂ (fun old new : Node => new.SameRows old) graph.nodes next.nodes) :
    next.Within bound first := by
  intro node node_mem row from_first
  obtain ⟨before, before_mem, same_rows⟩ := same.exists_left node_mem
  exact (within before before_mem row from_first).of_sameRows same_rows

theorem Within.appendRow (within : graph.Within bound first) (has_rows : ∀ node ∈ graph.nodes, node.HasRows count)
    (done : graph.appendRow rows flag = .ok next) (fits : ∀ row ∈ rows, ∀ coefficient ∈ row.drop 1, |coefficient| ≤ (bound : ℤ)) :
    next.Within bound first := by
  intro node node_mem
  obtain ⟨before, before_mem, row, row_mem, pushes⟩ := (pushed_of_appendRow done).exists_left node_mem
  exact pushes.rowWithin (has_rows before before_mem) (within before before_mem) (fits row row_mem)

theorem abs_le_of_nextRow {cache : ConeCache} {options : Options} (well_formed : graph.WellFormed)
    (based : ∀ node ∈ graph.nodes, node.Based) (sound : cache.Sound) (limit : options.maxCoefficient = some bound)
    (done : graph.nextRow cache options coincide = .ok search) (found : search.rows = some rows) :
    ∀ row ∈ rows, ∀ coefficient ∈ row.drop 1, |coefficient| ≤ (bound : ℤ) := by
  obtain ⟨noted, conflict, point, _, solution⟩ := solution_of_nextRow well_formed based sound done found
  have params_eq := solution.redrawn.params_eq
  have noted_well_formed := wellFormed_of_core_eq solution.redrawn.core_eq.symm well_formed
  have within := rowsWithin_rowsAt solution.nonneg solution.within
  rw [← funext solution.rows_eq, ← params_eq] at within
  intro row row_mem coefficient coefficient_mem
  obtain ⟨place, row_at⟩ := getElem?_of_mem row_mem
  obtain ⟨node, node_at, _⟩ := (mapM_ok.mp solution.read).getElem?_left row_at
  obtain ⟨params_le, dims_le⟩ := within.coefficients bound limit place node node_at
  rw [(noted_well_formed.nodes node (mem_of_getElem? node_at)).params] at params_le
  have length_eq := solution.laid_out place node row node_at row_at
  have row_eq : rowsOf noted.params.length rows place = AffineRow.ofWords noted.params.length row := by
    rw [rowsOf, getD_eq_getElem?_getD, row_at, Option.getD_some]
  obtain ⟨index, entry_at⟩ := getElem?_of_mem coefficient_mem
  rw [getElem?_drop] at entry_at
  have value_le : |(coefficient : ℚ)| ≤ bound := by
    rcases lt_or_ge index noted.params.length with inside | beyond
    · rw [Nat.add_comm] at entry_at
      simpa [row_eq, AffineRow.cast, AffineRow.ofWords, inside, getD_eq_getElem?_getD, entry_at] using params_le index inside
    · obtain ⟨k, rfl⟩ := Nat.exists_eq_add_of_le beyond
      have k_lt : k < node.space.dim := by
        have index_lt := (List.getElem?_eq_some_iff.mp entry_at).1
        omega
      rw [← Nat.add_assoc] at entry_at
      simpa [row_eq, AffineRow.cast, AffineRow.ofWords, getD_eq_getElem?_getD, entry_at] using dims_le k k_lt
  exact_mod_cast value_le

end Graph

/-! ### Rows of a band -/

section Band

variable {options : Options} {start : Graph} {bound : ℕ}

/-- Rows that extend a band are within the bound. -/
theorem Extends.within {hasCoincidence : Bool} {state : Construction} {appended : Graph} {first : ℕ}
    (extends_band : Extends options hasCoincidence coincide state search rows appended)
    (limit : options.maxCoefficient = some bound) (filling : Filling start state.graph) (sound : state.cache.Sound)
    (within : state.graph.Within bound first) : appended.Within bound first := by
  have searched_filling := (extends_band.searched.filling filling sound).1
  have cleared : Filling start { state.graph with conflict := none } := filling.of_core_eq rfl
  refine Within.appendRow (within.of_nodes extends_band.searched.sameRows.nodes) searched_filling.stage.grows.has_rows
    extends_band.done ?_
  exact abs_le_of_nextRow cleared.stage.well_formed (fun node node_mem => (cleared.ranked node node_mem).1) sound limit
    extends_band.searched.done extends_band.found

/-- A step of the band leaves its rows within the bound. -/
theorem BandStep.within {checks : Bool} {before after : Bool × Construction}
    (step : BandStep options start.hasCoincidence checks before after)
    (limit : options.maxCoefficient = some bound) (at_start : start.AtBandStart) (filling : Filling start before.2.graph)
    (sound : before.2.cache.Sound) (within : before.2.graph.Within bound start.counters.totalRows) :
    after.2.graph.Within bound start.counters.totalRows := by
  cases step with
  | relaxed searched _ => exact within.of_nodes searched.sameRows.nodes
  | extended extends_band _ => exact extends_band.within limit filling sound within
  | checked extends_band check_ok =>
    have appended_within := extends_band.within limit filling sound within
    exact appended_within.of_nodes (sameRows_of_core_eq (core_of_checkConditional check_ok)).nodes
  | restarted extends_band check_ok reset_ok =>
    have same := extends_band.sameRows_reset filling sound at_start check_ok reset_ok
    exact (within_of_hasRows at_start.has_rows).of_nodes same.nodes

/-- The rows of a filled band are within the bound. -/
theorem Fills.within {bandEnd : BandEnd} {filled : Construction} (fills : Fills options start bandEnd filled)
    (limit : options.maxCoefficient = some bound) : filled.graph.Within bound start.counters.totalRows := by
  obtain ⟨use, last, last_within, ends⟩ := fills.invariant
    (fun _ => within_of_hasRows fills.at_start.has_rows) fun _ _ step => step.within limit fills.at_start
  cases ends with
  | complete _ => exact last_within
  | stuck searched _ _ => exact last_within.of_nodes searched.sameRows.nodes

/-- All rows of the band are within the bound, or it has a single row, which carries dependences. -/
def Node.WithinOrCarried (options : Options) (bound : ℕ) (carries : Prop) (node : Node) (label : ℕ) : Prop :=
  (∀ row, node.InLabel label row → node.RowWithin bound row) ∨ carries ∧ node.Single label
    ∧ ∃ (graph : Graph) (cache : ConeCache) (carrying : CarryingRow),
      graph.carryingRow cache options = .ok carrying ∧ node.DividesIn carrying.rows label

/-- Whether the rows of a band are within the bound depends on them only. -/
theorem bandwise_withinOrCarried (limit : options.maxCoefficient = some bound) (carries : Prop) :
    Bandwise options carries (Node.WithinOrCarried options bound carries) := by
  refine ⟨fun same holds => ?_, fun _ constant => Or.inl fun row row_in => ?_, fun carries_here carry_ok single divides =>
    Or.inr ⟨carries_here, single, _, _, _, carry_ok, divides⟩, fun fills node node_mem => Or.inl fun row row_in => ?_⟩
  · refine holds.imp (fun within row row_in => ?_) (And.imp_right (And.imp
      (fun single => ⟨fun row other row_in other_in => ?_, fun row row_in => ?_⟩)
      (Exists.imp fun graph => Exists.imp fun cache => Exists.imp fun carrying => And.imp_right fun divides row row_in => ?_)))
    · have earlier_in := (same.rows row).mp row_in
      rw [Node.RowWithin, same.entries row earlier_in]
      exact within row earlier_in
    · exact single.alone row other ((same.rows row).mp row_in) ((same.rows other).mp other_in)
    · have earlier_in := (same.rows row).mp row_in
      exact (same.flags row earlier_in).trans (single.unflagged row earlier_in)
    · have earlier_in := (same.rows row).mp row_in
      rw [same.entries row earlier_in]
      exact divides row earlier_in
  · intro coefficient coefficient_mem
    rw [constant row row_in coefficient coefficient_mem, abs_zero]
    exact Int.natCast_nonneg bound
  · exact fills.within limit node node_mem row (fills.from_start node_mem row_in)

end Band

end AffineSchedule
