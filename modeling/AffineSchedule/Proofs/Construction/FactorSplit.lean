import AffineSchedule.Construction.Carrying
import AffineSchedule.Proofs.Dependence.Growth

namespace AffineSchedule

open Checked List AffineForm Node

variable {factor : ℤ} {row : List ℤ}

/-! ### Division of a row -/

/-- A row divided by a factor of its non-constant coefficients, with the constant rounded down. -/
def dividedRow (factor : ℤ) : List ℤ → List ℤ
  | [] => []
  | constant :: linear => constant.fdiv factor :: linear.map (·.tdiv factor)

@[simp] theorem length_dividedRow (factor : ℤ) (row : List ℤ) : (dividedRow factor row).length = row.length := by
  cases row <;> simp [dividedRow]

/-- Coefficients with a common factor are the factor times the divided ones. -/
theorem dot_eq_mul_divided {coefficients : List ℤ}
    (divides : ∀ coefficient ∈ coefficients, factor ∣ coefficient) (values : ℕ → ℤ) :
    dot coefficients values = factor * dot (coefficients.map (·.tdiv factor)) values := by
  induction coefficients generalizing values with
  | nil => simp
  | cons first later ih =>
    obtain ⟨first_divides, later_divide⟩ := forall_mem_cons.mp divides
    rw [map_cons, dot_cons, dot_cons, ih later_divide, mul_add, ← mul_assoc, Int.mul_tdiv_cancel' first_divides]

section

variable (divides : ∀ coefficient ∈ row.drop 1, factor ∣ coefficient)
include divides

theorem rowValue_eq_divided (paramCount : ℕ) (dims params : ℕ → ℤ) : rowValue row paramCount dims params
      = factor * rowValue (dividedRow factor row) paramCount dims params + (row.headD 0).fmod factor := by
  cases row with
  | nil => simp [rowValue, dividedRow]
  | cons constant linear =>
    have dims_divide : ∀ coefficient ∈ linear.drop paramCount, factor ∣ coefficient :=
      fun coefficient coefficient_mem => divides coefficient (mem_of_mem_drop coefficient_mem)
    have params_divide : ∀ coefficient ∈ linear.take paramCount, factor ∣ coefficient :=
      fun coefficient coefficient_mem => divides coefficient (mem_of_mem_take coefficient_mem)
    have constant_eq := Int.mul_fdiv_add_fmod constant factor
    simp only [rowValue, dividedRow, Nat.add_comm 1 paramCount, drop_succ_cons, drop_zero,
      headD_cons, ← map_drop, ← map_take]
    rw [dot_eq_mul_divided dims_divide, dot_eq_mul_divided params_divide]
    linear_combination -constant_eq

theorem map_mul_dividedRow : ((dividedRow factor row).drop 1).map (factor * ·) = row.drop 1 := by
  cases row with
  | nil => simp [dividedRow]
  | cons constant linear =>
    simp only [dividedRow, drop_succ_cons, drop_zero, map_map]
    exact (map_congr_left fun coefficient coefficient_mem => Int.mul_tdiv_cancel' (divides coefficient coefficient_mem)).trans
      (map_id linear)

theorem rowVector_drop_dividedRow (width params : ℕ) : rowVector width (row.drop (1 + params))
      = (factor : ℚ) • rowVector width ((dividedRow factor row).drop (1 + params)) := by
  funext place
  rw [Pi.smul_apply, smul_eq_mul, rowVector, rowVector, ← Int.cast_mul, Int.cast_inj]
  cases row with
  | nil => simp [dividedRow]
  | cons constant linear =>
    simp only [dividedRow, Nat.add_comm 1, drop_succ_cons, getD_eq_getElem?_getD, getElem?_drop]
    rcases lt_or_ge (params + place.val) linear.length with inside | beyond
    · rw [getElem?_eq_getElem inside, getElem?_eq_getElem (by simpa using inside), getElem_map]
      exact (Int.mul_tdiv_cancel' (divides _ (by simp))).symm
    · simp [beyond]

end

theorem lt_of_divided {quotient other remainder rest : ℤ} (positive : 0 < factor) (remainder_lt : remainder < factor)
    (rest_nonneg : 0 ≤ rest) (smaller : quotient < other) : factor * quotient + remainder < factor * other + rest := by
  have step : factor * (quotient + 1) ≤ factor * other := mul_le_mul_of_nonneg_left smaller positive.le
  rw [mul_add, mul_one] at step
  omega

/-- Values compare as their quotients and then their remainders do. -/
theorem compare_divided {quotient other remainder rest : ℤ} (remainder_nonneg : 0 ≤ remainder)
    (remainder_lt : remainder < factor) (rest_nonneg : 0 ≤ rest) (rest_lt : rest < factor) :
    compare (factor * quotient + remainder) (factor * other + rest)
      = (compare quotient other).then (compare remainder rest) := by
  have positive := remainder_nonneg.trans_lt remainder_lt
  rcases lt_trichotomy quotient other with smaller | rfl | larger
  · rw [compare_lt_iff_lt.mpr smaller, compare_lt_iff_lt.mpr (lt_of_divided positive remainder_lt rest_nonneg smaller)]
    rfl
  · simp [compare, compareOfLessAndEq]
  · rw [compare_gt_iff_gt.mpr larger, compare_gt_iff_gt.mpr (lt_of_divided positive rest_lt remainder_nonneg larger)]
    rfl

/-! ### The split -/

/-- The node has the row at a position divided and the row of remainders behind its rows. -/
structure Node.SplitsRow (after before : Node) (index : ℕ) (factor : ℤ) (band : ℕ) : Prop where
  space : after.space = before.space
  component : after.component = before.component
  cols : after.schedule.cols = before.schedule.cols
  rows : after.schedule.rows
    = before.schedule.rows.set index (dividedRow factor (before.schedule.rows.getD index []))
      ++ [before.constantRow (((before.schedule.rows.getD index []).headD 0).fmod factor)]
  bands : after.bands = before.bands ++ [some band]
  flags : after.coincident = before.coincident ++ [false]
  based : after.Based

namespace Node

section SplitsRow

variable {after before : Node} {index band : ℕ} (split : after.SplitsRow before index factor band)
  (has_rows : before.HasRows (index + 1))
include split has_rows

theorem SplitsRow.hasRows : after.HasRows (index + 2) := by
  refine ⟨?_, ?_, ?_⟩
  · rw [RowMatrix.height, split.rows, length_append, length_set, ← RowMatrix.height, has_rows.height]
    rfl
  · rw [split.bands, length_append, has_rows.bands]
    rfl
  · rw [split.flags, length_append, has_rows.coincident]
    rfl

/-- The rows before the divided one stay. -/
theorem SplitsRow.rows_eq {place : ℕ} (earlier : place < index) :
    after.schedule.rows[place]? = before.schedule.rows[place]? := by
  have inside : place < before.schedule.rows.length := earlier.trans_le ((Nat.le_succ index).trans_eq has_rows.height.symm)
  rw [split.rows, getElem?_append_left (by rwa [length_set]), getElem?_set_ne earlier.ne']

theorem SplitsRow.divided_eq : after.schedule.rows.getD index [] = dividedRow factor (before.schedule.rows.getD index []) := by
  have height_eq : before.schedule.rows.length = index + 1 := has_rows.height
  rw [split.rows, getD_append _ _ _ _ (by simp [height_eq]), getD_eq_getElem?_getD,
    getElem?_set_self (height_eq ▸ Nat.lt_succ_self _), Option.getD_some]

theorem SplitsRow.remainder_eq : after.schedule.rows.getD (index + 1) []
    = before.constantRow (((before.schedule.rows.getD index []).headD 0).fmod factor) := by
  have height_eq : before.schedule.rows.length = index + 1 := has_rows.height
  rw [split.rows, getD_append_right _ _ _ _ (by simp [height_eq]), length_set, height_eq, Nat.sub_self]
  rfl

/-- The time of a row, in terms of the times of the two rows it was split into. -/
theorem SplitsRow.times (params x : ℕ → ℤ) : after.timeAt (index + 1) params x = ((before.schedule.rows.getD index []).headD 0).fmod factor
      ∧ ((∀ coefficient ∈ (before.schedule.rows.getD index []).drop 1, factor ∣ coefficient) →
        before.timeAt index params x = factor * after.timeAt index params x + after.timeAt (index + 1) params x) := by
  have last_eq : after.timeAt (index + 1) params x = ((before.schedule.rows.getD index []).headD 0).fmod factor := by
    rw [timeAt, split.remainder_eq has_rows, split.space]
    exact rowValue_constantRow before _ params x
  refine ⟨last_eq, fun divides => ?_⟩
  rw [last_eq, timeAt, timeAt, split.divided_eq has_rows, split.space]
  exact rowValue_eq_divided divides _ _ _

/-- Splitting a factor off a row keeps the space of the rows. -/
theorem SplitsRow.rowRank_eq (nonzero : factor ≠ 0)
    (divides : ∀ coefficient ∈ (before.schedule.rows.getD index []).drop 1, factor ∣ coefficient) :
    after.rowRank = before.rowRank := by
  have inside : index < before.schedule.rows.length := (Nat.lt_succ_self index).trans_eq has_rows.height.symm
  have row_eq : before.schedule.rows.getD index [] = before.schedule.rows[index] := getD_eq_getElem _ _ inside
  rw [row_eq] at divides
  have scaled := rowVector_drop_dividedRow divides before.space.dim before.space.params
  rw [rowRank, rowRank, linearRows, linearRows, split.rows, split.space, map_append, row_eq]
  refine congrArg (fun space : Submodule ℚ _ => Module.finrank ℚ space)
    (le_antisymm (rowSpace_le fun linear linear_mem => ?_) (rowSpace_le fun linear linear_mem => ?_))
  · rcases mem_append.mp linear_mem with kept | last
    · obtain ⟨row, row_mem, rfl⟩ := mem_map.mp kept
      rcases mem_or_eq_of_mem_set row_mem with same | rfl
      · exact rowVector_mem_rowSpace (mem_map_of_mem same)
      · rw [← (inv_smul_eq_iff₀ (Int.cast_ne_zero.mpr nonzero)).mpr scaled]
        exact Submodule.smul_mem _ _ (rowVector_mem_rowSpace (mem_map_of_mem (getElem_mem inside)))
    · have vanishes : rowVector before.space.dim linear = 0 := by
        rw [map_cons, map_nil, mem_singleton] at last
        funext place
        simp [last, rowVector, constantRow, Nat.add_comm 1]
      rw [vanishes]
      exact Submodule.zero_mem _
  · obtain ⟨row, row_mem, rfl⟩ := mem_map.mp linear_mem
    obtain ⟨place, row_at⟩ := getElem?_of_mem row_mem
    by_cases same : place = index
    · obtain rfl : before.schedule.rows[index] = row := by
        rw [same, getElem?_eq_getElem inside] at row_at
        exact Option.some.inj row_at
      rw [scaled]
      exact Submodule.smul_mem _ _ (rowVector_mem_rowSpace (mem_append_left _ (mem_map_of_mem (mem_set inside _))))
    · refine rowVector_mem_rowSpace (mem_append_left _ (mem_map_of_mem ?_))
      exact mem_of_getElem? ((getElem?_set_ne (Ne.symm same)).trans row_at)

end SplitsRow

/-- The node has the divided row and the row of remainders behind the rows of an earlier state of it. -/
structure SplitFrom (after before : Node) (row : List ℤ) (factor : ℤ) (count band : ℕ) : Prop where
  has_rows : before.HasRows count
  divides : ∀ coefficient ∈ row.drop 1, factor ∣ coefficient
  divided : (after.takeRows (count + 1)).Pushes before (dividedRow factor row) (some band) false
  remainder : after.Pushes (after.takeRows (count + 1)) (after.constantRow ((row.headD 0).fmod factor))
    (some (band + 1)) false

theorem SplitsRow.splitFrom {start before after : Node} {count band : ℕ}
    (split : after.SplitsRow before count factor (band + 1)) (has_rows : start.HasRows count)
    (pushed : before.Pushes start row (some band) false)
    (divides : ∀ coefficient ∈ (before.schedule.rows.getD count []).drop 1, factor ∣ coefficient) :
    after.SplitFrom start row factor count band := by
  have height_eq : start.schedule.rows.length = count := has_rows.height
  have row_eq : before.schedule.rows.getD count [] = row := by
    rw [pushed.rows, getD_append_right _ _ _ _ height_eq.le, height_eq, Nat.sub_self]
    rfl
  have rows_eq : after.schedule.rows
      = start.schedule.rows ++ [dividedRow factor row] ++ [after.constantRow ((row.headD 0).fmod factor)] := by
    have constant_eq : before.constantRow ((row.headD 0).fmod factor) = after.constantRow ((row.headD 0).fmod factor) := by
      rw [constantRow, constantRow, split.space]
    rw [split.rows, row_eq, constant_eq, pushed.rows, set_append_right _ _ height_eq.le, height_eq, Nat.sub_self]
    rfl
  have taken : ∀ {α : Type} {front : List α} {first second : α}, front.length = count →
      (front ++ [first] ++ [second]).take (count + 1) = front ++ [first] := by
    intro α front first second length_eq
    rw [take_append_of_le_length (by simp [length_eq]), take_of_length_le (by simp [length_eq])]
  have bands_eq : after.bands = start.bands ++ [some band] ++ [some (band + 1)] :=
    split.bands.trans (by rw [pushed.bands])
  have flags_eq : after.coincident = start.coincident ++ [false] ++ [false] := split.flags.trans (by rw [pushed.flags])
  have taken_rows : (after.takeRows (count + 1)).schedule.rows = start.schedule.rows ++ [dividedRow factor row] :=
    (congrArg (List.take (count + 1)) rows_eq).trans (taken height_eq)
  have taken_bands : (after.takeRows (count + 1)).bands = start.bands ++ [some band] :=
    (congrArg (List.take (count + 1)) bands_eq).trans (taken has_rows.bands)
  have taken_flags : (after.takeRows (count + 1)).coincident = start.coincident ++ [false] :=
    (congrArg (List.take (count + 1)) flags_eq).trans (taken has_rows.coincident)
  refine ⟨has_rows, row_eq ▸ divides, ⟨?_, ?_, ?_, ?_, taken_rows, taken_bands, taken_flags⟩, ⟨rfl, rfl, rfl, ?_, ?_, ?_, ?_⟩⟩
  · exact split.space.trans pushed.space
  · exact split.component.trans pushed.component
  · exact split.cols.trans pushed.cols
  · rw [length_dividedRow]
    exact pushed.length
  · have last_mem : after.constantRow ((row.headD 0).fmod factor) ∈ after.schedule.rows := by
      rw [rows_eq]
      exact mem_append_right _ mem_cons_self
    exact after.schedule.uniform _ last_mem
  · rw [taken_rows, rows_eq]
  · rw [taken_bands, bands_eq]
  · rw [taken_flags, flags_eq]

section SplitFrom

variable {after before : Node} {count band : ℕ} (split : after.SplitFrom before row factor count band)
include split

/-- The time of the row, in terms of the times of the two rows it was split into. -/
theorem SplitFrom.times (params x : ℕ → ℤ) : rowValue row before.space.params x params
        = factor * after.timeAt count params x + after.timeAt (count + 1) params x
      ∧ after.timeAt (count + 1) params x = (row.headD 0).fmod factor := by
  have middle_rows := split.divided.hasRows split.has_rows
  have remainder_time := split.remainder.timeAt_last middle_rows params x
  rw [show (after.takeRows (count + 1)).space = after.space from rfl, rowValue_constantRow] at remainder_time
  refine ⟨?_, remainder_time⟩
  rw [remainder_time, split.remainder.prolongs.timeAt_eq middle_rows (Nat.lt_succ_self _),
    split.divided.timeAt_last split.has_rows]
  exact rowValue_eq_divided split.divides _ _ _

/-- The divided row lies before the band of the remainders. -/
theorem SplitFrom.beforeBand : BeforeBand after.bands count (count + 1) := by
  have middle_rows := split.divided.hasRows split.has_rows
  refine ⟨count, le_rfl, Nat.lt_succ_self _, ?_⟩
  rw [split.remainder.bands_last middle_rows, split.remainder.prolongs.bands_eq middle_rows (Nat.lt_succ_self _),
    split.divided.bands_last split.has_rows]
  simp

/-- Two rows in order are in lexicographic order after the split. -/
theorem SplitFrom.lex {other other_before : Node} {other_row : List ℤ}
    (other_split : other.SplitFrom other_before other_row factor count band) (positive : 0 < factor) {params x y : ℕ → ℤ}
    (ordered : rowValue row before.space.params x params
      ≤ rowValue other_row other_before.space.params y params) :
    after.timeAt count params x ≤ other.timeAt count params y ∧ (after.timeAt count params x = other.timeAt count params y →
          after.timeAt (count + 1) params x ≤ other.timeAt (count + 1) params y) := by
  obtain ⟨first_eq, first_remainder⟩ := split.times params x
  obtain ⟨second_eq, second_remainder⟩ := other_split.times params y
  have first_nonneg := Int.fmod_nonneg_of_pos (row.headD 0) positive
  have second_lt := Int.fmod_lt_of_pos (other_row.headD 0) positive
  rw [first_eq, second_eq] at ordered
  refine ⟨?_, fun same => ?_⟩
  · by_contra larger
    exact absurd ordered (not_le.mpr (lt_of_divided positive (second_remainder ▸ second_lt) (first_remainder ▸ first_nonneg)
      (not_le.mp larger)))
  · rw [same] at ordered
    exact le_of_add_le_add_left ordered

end SplitFrom

end Node

namespace Graph

theorem dvd_of_join {nodes : List Node} {index : ℕ} (joined : nodes.foldlM (fun (factor : ℤ) (node : Node) => do
      Word.gcd factor (← node.rowFactor index)) 0 = .ok factor) :
    ∀ node ∈ nodes, ∀ coefficient ∈ (node.schedule.rows.getD index []).drop 1, factor ∣ coefficient := by
  obtain ⟨_, collected, _⟩ := foldlM_collects (fun _ : ℤ => True) (fun (node : Node) (divisor : ℤ) =>
      ∀ coefficient ∈ (node.schedule.rows.getD index []).drop 1, divisor ∣ coefficient) joined trivial (by
      intro divisor node next _ _ step
      simp only [bind_ok, rowFactor, RowMatrix.row, ofOption_ok] at step
      obtain ⟨own, ⟨row, row_at, own_ok⟩, gcd_ok⟩ := step
      obtain ⟨_, rfl⟩ := Word.checked_ok_iff.mp gcd_ok
      refine ⟨trivial, ?_, ?_⟩
      · intro coefficient coefficient_mem
        rw [getD_eq_getElem?_getD, row_at, Option.getD_some] at coefficient_mem
        exact (Int.gcd_dvd_right _ _).trans (Polyhedron.dvd_of_gcdAll own_ok coefficient coefficient_mem)
      · intro earlier earlier_divides coefficient coefficient_mem
        exact (Int.gcd_dvd_left _ _).trans (earlier_divides coefficient coefficient_mem))
  exact collected

theorem divideRow_ok {node next : Node} {index : ℕ} (done : node.divideRow index factor = .ok next) :
    next.space = node.space ∧ next.component = node.component ∧ next.schedule.cols = node.schedule.cols
      ∧ next.schedule.rows = node.schedule.rows.set index (dividedRow factor (node.schedule.rows.getD index []))
      ∧ next.bands = node.bands ∧ next.coincident = node.coincident ∧ next.Based := by
  simp only [divideRow, bind_ok, RowMatrix.row, ofOption_ok] at done
  obtain ⟨row, row_at, schedule, schedule_ok, updated⟩ := done
  obtain ⟨based, next_eq⟩ := updateBasis_ok updated
  have replaced : node.schedule.replaceRow index (dividedRow factor row) = .ok schedule := by
    cases row with
    | nil => exact schedule_ok
    | cons constant linear => exact schedule_ok
  unfold RowMatrix.replaceRow at replaced
  split at replaced
  next =>
    obtain rfl := Except.ok.inj replaced
    have row_eq : node.schedule.rows.getD index [] = row := by
      rw [getD_eq_getElem?_getD, row_at, Option.getD_some]
    have fields := congrArg (fun node : Node => (node.space, node.component, node.schedule, node.bands, node.coincident)) next_eq
    simp only [Prod.mk.injEq] at fields
    obtain ⟨space_eq, component_eq, schedule_eq, bands_eq, flags_eq⟩ := fields
    rw [row_eq, schedule_eq]
    exact ⟨space_eq, component_eq, rfl, rfl, bands_eq, flags_eq, based⟩
  next => cases replaced

/-- Splitting either changes nothing or divides the last row of every node by a common factor. -/
theorem splitFactor_spec {graph split : Graph}
    (has_rows : ∀ node ∈ graph.nodes, node.HasRows graph.counters.totalRows) (done : graph.splitFactor = .ok split) :
    split = graph ∨ ∃ (factor : ℤ) (last : ℕ), graph.counters.totalRows = last + 1 ∧ 1 < factor
      ∧ (∀ node ∈ graph.nodes, ∀ coefficient ∈ (node.schedule.rows.getD last []).drop 1, factor ∣ coefficient)
      ∧ split.params = graph.params ∧ split.edges = graph.edges ∧ split.edgeTable = graph.edgeTable
      ∧ split.counters = { graph.counters with totalRows := last + 2, band := graph.counters.band + 1, bandStart := last + 1 }
      ∧ Forall₂ (fun before after : Node => after.SplitsRow before last factor (graph.counters.band + 1))
          graph.nodes split.nodes := by
  simp only [splitFactor] at done
  split at done
  next =>
    exact Or.inl (pure_ok.mp done).symm
  next worthwhile =>
    obtain ⟨last, total_eq⟩ := Nat.exists_eq_add_one_of_ne_zero (not_or.mp worthwhile).2
    rw [total_eq, Nat.add_sub_cancel] at done
    obtain ⟨factor, joined, done⟩ := bind_ok.mp done
    split at done
    next =>
      exact Or.inl (pure_ok.mp done).symm
    next large =>
      simp only [bind_ok, pure_ok, mapM_ok] at done
      obtain ⟨extended, extended_ok, nodes, divided, rfl⟩ := done
      obtain ⟨extended_eq, pushed⟩ := appendConstantRow_ok extended_ok
      refine Or.inr ⟨factor, last, total_eq, Int.not_le.mp large, dvd_of_join joined, congrArg (·.params) extended_eq,
        congrArg (·.edges) extended_eq, congrArg (·.edgeTable) extended_eq, ?_, ?_⟩
      · rw [show last + 2 = last + 1 + 1 from rfl, ← total_eq]
        exact congrArg (·.counters) extended_eq
      refine forall₂_trans (fun before middle after related step => ?_) (forall₂_and_left _ _ |>.mpr ⟨has_rows, pushed⟩) divided
      obtain ⟨before_rows, pushes⟩ := related
      obtain ⟨space_eq, component_eq, cols_eq, rows_eq, bands_eq, flags_eq, based⟩ := divideRow_ok step
      have position_lt : last < before.schedule.rows.length :=
        (Nat.lt_succ_self last).trans_eq (before_rows.height.trans total_eq).symm
      have row_eq : middle.schedule.rows.getD last [] = before.schedule.rows.getD last [] := by
        rw [pushes.rows, getD_append _ _ _ _ position_lt]
      refine ⟨space_eq.trans pushes.space, component_eq.trans pushes.component, cols_eq.trans pushes.cols, ?_,
        bands_eq.trans pushes.bands, flags_eq.trans pushes.flags, based⟩
      rw [rows_eq, row_eq, pushes.rows, set_append_left _ _ position_lt]

/-- Splitting a factor off the last row of all nodes keeps the order of any two points, the other rows and the rank of
    every node. The row of remainders opens a band of its own. -/
theorem splitFactor_exact {graph split : Graph} (has_rows : ∀ node ∈ graph.nodes, node.HasRows graph.counters.totalRows)
    (done : graph.splitFactor = .ok split) (changed : split ≠ graph) :
    ∃ last, graph.counters.totalRows = last + 1 ∧ split.counters.totalRows = last + 2
      ∧ (∀ a first b second, (a, first) ∈ graph.nodes.zip split.nodes → (b, second) ∈ graph.nodes.zip split.nodes →
          ∀ params x y, compare (a.timeAt last params x) (b.timeAt last params y)
            = (compare (first.timeAt last params x) (second.timeAt last params y)).then
                (compare (first.timeAt (last + 1) params x) (second.timeAt (last + 1) params y)))
      ∧ Forall₂ (fun before after : Node => after.space = before.space ∧ after.HasRows (last + 2)
          ∧ (∀ place < last, after.schedule.rows[place]? = before.schedule.rows[place]?)
          ∧ after.rowRank = before.rowRank ∧ (∀ paramCount, before.LaidOut paramCount → after.rank = before.rowRank)
          ∧ after.bands = before.bands ++ [some (graph.counters.band + 1)]
          ∧ ((∀ label, before.bands[last]? = some (some label) → label ≤ graph.counters.band) →
            after.bands[last + 1]? ≠ after.bands[last]?)) graph.nodes split.nodes
      ∧ ∀ start rows flag, appendRow start rows flag = .ok graph → ∀ node ∈ graph.nodes,
          node.bands[last]? = some (some graph.counters.band) := by
  rcases splitFactor_spec has_rows done with same | ⟨factor, last, total_eq, large, divides, _, _, _, counters_eq, split_nodes⟩
  · exact absurd same changed
  rw [total_eq] at has_rows
  have positive : 0 < factor := Int.one_pos.trans large
  refine ⟨last, total_eq, by rw [counters_eq], ?_, ?_, ?_⟩
  · intro a first b second a_mem b_mem params x y
    obtain ⟨first_remainder, a_eq⟩ := (forall₂_zip split_nodes a_mem).times (has_rows a (of_mem_zip a_mem).1) params x
    obtain ⟨second_remainder, b_eq⟩ := (forall₂_zip split_nodes b_mem).times (has_rows b (of_mem_zip b_mem).1) params y
    rw [a_eq (divides a (of_mem_zip a_mem).1), b_eq (divides b (of_mem_zip b_mem).1)]
    apply compare_divided
    all_goals simp only [first_remainder, second_remainder, Int.fmod_nonneg_of_pos _ positive, Int.fmod_lt_of_pos _ positive]
  · refine ((forall₂_and_left _ _).mpr ⟨has_rows, (forall₂_and_left _ _).mpr ⟨divides, split_nodes⟩⟩).imp ?_
    rintro before after ⟨before_rows, before_divides, splits⟩
    have rank_eq := splits.rowRank_eq before_rows positive.ne' before_divides
    refine ⟨splits.space, splits.hasRows before_rows, fun place earlier => splits.rows_eq before_rows earlier, rank_eq,
      fun paramCount laid_out => ?_, splits.bands, fun labelled => ?_⟩
    · rw [← rank_eq]
      exact splits.based.rank_eq ⟨splits.space ▸ laid_out.params, by rw [splits.cols, splits.space, laid_out.cols]⟩
    · rw [splits.bands, getElem?_append_right before_rows.bands.le, before_rows.bands, Nat.sub_self,
        getElem?_append_left (before_rows.bands.symm ▸ Nat.lt_succ_self last)]
      intro same
      exact absurd (labelled _ same.symm) (Nat.not_succ_le_self _)
  · intro start rows flag appended node node_mem
    obtain ⟨_, graph_eq, _⟩ := appendRow_ok appended
    obtain ⟨before, _, _, _, pushes⟩ := (pushed_of_appendRow appended).exists_left node_mem
    have lengths := (has_rows node node_mem).bands
    rw [pushes.bands, length_append, length_singleton, Nat.add_right_cancel_iff] at lengths
    rw [pushes.bands, getElem?_append_right lengths.le, lengths, Nat.sub_self, graph_eq]
    rfl

/-- A line of points with one row. -/
def scaledLine (name : String) (constant coefficient : ℤ) : Node :=
  { (default : Node) with
    space := .named name 1, schedule := ⟨2, [[constant, coefficient]], by simp⟩, bands := [some 0], coincident := [false] }

/-- The rows `2·i + 3` and `4·i - 1` are split into `i + 1`, `2·i - 1` and the remainder 1. -/
def scaledLines : Graph :=
  { (default : Graph) with
    nodes := [scaledLine "S" 3 2, scaledLine "T" (-1) 4], counters := { (default : BandCounters) with totalRows := 1, maxRows := 2 } }

theorem splitFactor_exact_scaledLines : ∃ split, scaledLines.splitFactor = .ok split
    ∧ split.nodes.map (·.schedule.rows) = [[[1, 1], [1, 0]], [[-1, 2], [1, 0]]]
    ∧ ∀ a first b second, (a, first) ∈ scaledLines.nodes.zip split.nodes → (b, second) ∈ scaledLines.nodes.zip split.nodes →
      ∀ params x y, compare (a.timeAt 0 params x) (b.timeAt 0 params y)
        = (compare (first.timeAt 0 params x) (second.timeAt 0 params y)).then
            (compare (first.timeAt 1 params x) (second.timeAt 1 params y)) := by
  have made : (do return (← scaledLines.splitFactor).nodes.map (·.schedule.rows) : Checked _)
      = .ok [[[1, 1], [1, 0]], [[-1, 2], [1, 0]]] := by decide +kernel
  obtain ⟨split, done, rows_eq⟩ := bind_ok.mp made
  rw [pure_ok] at rows_eq
  have changed : split ≠ scaledLines := by
    rintro rfl
    exact absurd rows_eq (by decide)
  have has_rows : ∀ node ∈ scaledLines.nodes, node.HasRows 1 :=
    forall_mem_cons.mpr ⟨⟨rfl, rfl, rfl⟩, forall_mem_singleton.mpr ⟨rfl, rfl, rfl⟩⟩
  obtain ⟨last, last_eq, _, order, _⟩ := splitFactor_exact has_rows done changed
  obtain rfl : 0 = last := Nat.succ.inj last_eq
  exact ⟨split, done, rows_eq, order⟩

/-- A row at the start of a band that orders no validity pair backwards still does so after its common factor
    has been split off. -/
theorem AtBandStart.stage_splitFactor {linked : LinkRelation} {start graph split : Graph}
    {rows : List (List ℤ)} (at_start : start.AtBandStart) (appended : start.appendRow rows false = .ok graph)
    (ordered : ∀ i j params x y, linked .validity i j params x y → ∀ rowI rowJ, rows[i]? = some rowI →
      rows[j]? = some rowJ → rowValue rowI start.params.length x params
        ≤ rowValue rowJ start.params.length y params)
    (done : graph.splitFactor = .ok split) : Stage linked start split := by
  have stage : Stage linked start graph :=
    at_start.stage.appendRow appended ordered fun impossible => absurd impossible Bool.false_ne_true
  rcases splitFactor_spec stage.grows.has_rows done with rfl | ⟨factor, last, total_eq, large, divides, params_eq, edges_eq, table_eq,
    counters_eq, split_nodes⟩
  · exact stage
  · have band_eq : split.counters.band = graph.counters.band + 1 := congrArg (·.band) counters_eq
    obtain ⟨_, graph_eq, pushed⟩ := appendRow_ok appended
    have graph_rows : graph.counters.totalRows = start.counters.totalRows + 1 :=
      congrArg (·.counters.totalRows) graph_eq
    have graph_band : graph.counters.band = start.counters.band := congrArg (·.counters.band) graph_eq
    obtain rfl : start.counters.totalRows = last := Nat.succ.inj (graph_rows.symm.trans total_eq)
    rw [graph_band] at split_nodes
    have positive : 0 < factor := Int.one_pos.trans large
    have each : ∀ (i : ℕ) (after : Node), split.nodes[i]? = some after → ∃ before row,
        start.nodes[i]? = some before ∧ rows[i]? = some row
          ∧ after.SplitFrom before row factor start.counters.totalRows start.counters.band := by
      intro i after after_at
      obtain ⟨middle, middle_at, splits⟩ := split_nodes.getElem?_left after_at
      obtain ⟨⟨before, row⟩, entry_at, pushes, _⟩ := pushed.getElem?_left middle_at
      obtain ⟨before_at, row_at⟩ := getElem?_zip_eq_some.mp entry_at
      exact ⟨before, row, before_at, row_at, splits.splitFrom (at_start.has_rows before (mem_of_getElem? before_at))
        pushes (divides middle (mem_of_getElem? middle_at))⟩
    have lex : ∀ i j params x y, linked .validity i j params x y → ∀ a b, split.nodes[i]? = some a →
        split.nodes[j]? = some b → a.timeAt start.counters.totalRows params x ≤ b.timeAt start.counters.totalRows params y
        ∧ (a.timeAt start.counters.totalRows params x = b.timeAt start.counters.totalRows params y →
          a.timeAt (start.counters.totalRows + 1) params x ≤ b.timeAt (start.counters.totalRows + 1) params y) := by
      intro i j params x y link a b a_at b_at
      obtain ⟨a_before, rowI, a_before_at, rowI_at, a_split⟩ := each i a a_at
      obtain ⟨b_before, rowJ, b_before_at, rowJ_at, b_split⟩ := each j b b_at
      apply a_split.lex b_split positive
      rw [(at_start.well_formed.nodes a_before (mem_of_getElem? a_before_at)).params,
        (at_start.well_formed.nodes b_before (mem_of_getElem? b_before_at)).params]
      exact ordered i j params x y link rowI rowJ rowI_at rowJ_at
    have length_eq : start.nodes.length = split.nodes.length := stage.grows.nodes.length_eq.trans split_nodes.length_eq
    -- The graph between the two rows: the nodes of the split without their last rows.
    let middle : Graph := { start with
      nodes := split.nodes.map (·.takeRows (start.counters.totalRows + 1))
      counters := { start.counters with totalRows := start.counters.totalRows + 1 } }
    have middle_at : ∀ (i : ℕ) (node : Node), middle.nodes[i]? = some node → ∃ after,
        split.nodes[i]? = some after ∧ after.takeRows (start.counters.totalRows + 1) = node := by
      intro i node node_at
      simpa [middle] using node_at
    have divided : Grows linked start middle := by
      refine at_start.stage.grows.push (le_refl start.counters.band) rfl rfl ?_ ?_
      · apply forall₂_of_getElem?
        · rw [length_eq, length_map]
        · intro i before node before_at node_at
          obtain ⟨after, after_at, rfl⟩ := middle_at i node node_at
          obtain ⟨found, row, found_at, _, from_start⟩ := each i after after_at
          obtain rfl := Option.mem_unique before_at found_at
          exact ⟨_, _, from_start.divided⟩
      · intro kind i j params x y link a b a_at b_at _
        obtain ⟨a_after, a_after_at, rfl⟩ := middle_at i a a_at
        obtain ⟨b_after, b_after_at, rfl⟩ := middle_at j b b_at
        obtain ⟨_, _, _, _, a_split⟩ := each i a_after a_after_at
        obtain ⟨_, _, _, _, b_split⟩ := each j b_after b_after_at
        refine respects_of_not_coincident (a_split.divided.coincident_last a_split.has_rows) ?_
        rintro rfl
        rw [← a_split.remainder.prolongs.timeAt_eq (a_split.divided.hasRows a_split.has_rows) (Nat.lt_succ_self _),
          ← b_split.remainder.prolongs.timeAt_eq (b_split.divided.hasRows b_split.has_rows) (Nat.lt_succ_self _)]
        exact (lex i j params x y link a_after b_after a_after_at b_after_at).1
    have grown : Grows linked start split := by
      refine divided.push (Nat.le_succ start.counters.band) (params_eq.trans stage.grows.params)
        (congrArg (·.totalRows) counters_eq) ?_ ?_
      · apply forall₂_of_getElem?
        · rw [length_map]
        · intro i node after node_at after_at
          obtain ⟨same, same_at, rfl⟩ := middle_at i node node_at
          obtain rfl := Option.mem_unique after_at same_at
          obtain ⟨_, _, _, _, from_start⟩ := each i after after_at
          exact ⟨_, _, from_start.remainder⟩
      · intro kind i j params x y link a b a_at b_at agree
        obtain ⟨_, _, _, _, a_split⟩ := each i a a_at
        obtain ⟨_, _, _, _, b_split⟩ := each j b b_at
        refine respects_of_not_coincident
          (a_split.remainder.coincident_last (a_split.divided.hasRows a_split.has_rows)) ?_
        rintro rfl
        exact (lex i j params x y link a b a_at b_at).2 (agree _ a_split.beforeBand b_split.beforeBand)
    have same_edges : graph.SameEdges split := .of_eq edges_eq table_eq
    refine ⟨grown, ?_, ?_, ?_, ?_⟩
    · exact at_start.well_formed.of_prolongs grown.params grown.nodes (same_edges.trans stage.edges)
    · exact same_edges.trans stage.edges
    · rw [band_eq, graph_band]
      exact Nat.le_succ _
    · intro after after_mem entry entry_mem
      obtain ⟨i, after_at⟩ := getElem?_of_mem after_mem
      obtain ⟨before, row, before_at, _, from_start⟩ := each i after after_at
      rw [band_eq, graph_band]
      rw [from_start.remainder.bands, from_start.divided.bands, mem_append, mem_append, mem_singleton,
        mem_singleton] at entry_mem
      rcases entry_mem with (earlier | rfl) | rfl
      · obtain ⟨label, label_lt, entry_eq⟩ := at_start.closed before (mem_of_getElem? before_at) entry earlier
        exact ⟨label, label_lt.le.trans (Nat.le_succ _), entry_eq⟩
      · exact ⟨_, Nat.le_succ _, rfl⟩
      · exact ⟨_, le_rfl, rfl⟩

end Graph

end AffineSchedule
