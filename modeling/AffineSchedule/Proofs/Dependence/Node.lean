import AffineSchedule.Dependence.Node
import AffineSchedule.Proofs.RowSpace

namespace AffineSchedule

open Checked List Finset AffineForm

variable {count paramCount row : ℕ} {node : Node} {k : ℕ} {coordinate : List ℤ} {matrix : RowMatrix}
  {next : Node}

namespace RowMatrix

theorem innerProduct_ok {left right : List ℤ} {result : ℤ} (done : innerProduct left right = .ok result) :
    result = dot left (coordinates right) := by
  have folded : ∀ (left right : List ℤ) (start : ℤ), (left.zip right).foldlM (fun (total : ℤ) (pair : ℤ × ℤ) =>
        if Word.Fits (pair.1 * pair.2) ∧ Word.Fits (total + pair.1 * pair.2) then
          (.ok (total + pair.1 * pair.2) : Checked ℤ)
        else .error (.solver .matrixOverflow)) start = .ok result → result = start + dot left (coordinates right) := by
    intro left
    induction left with
    | nil =>
      intro right start done
      simpa using (pure_ok.mp done).symm
    | cons first later ih =>
      intro right start done
      cases right with
      | nil =>
        have vanishes : dot (first :: later) (coordinates []) = 0 := by
          rw [dot_eq_sum]
          exact sum_eq_zero fun place _ => by simp [coordinates]
        rw [vanishes, add_zero]
        exact (pure_ok.mp done).symm
      | cons entry entries =>
        rw [zip_cons_cons, foldlM_cons, bind_ok] at done
        obtain ⟨total, total_ok, done⟩ := done
        split_ifs at total_ok
        obtain rfl : start + first * entry = total := by simpa using total_ok
        rw [ih entries _ done, dot_cons]
        have shifted : (fun place => coordinates (entry :: entries) (place + 1)) = coordinates entries := by
          funext place
          simp [coordinates]
        rw [shifted]
        simp only [coordinates, getD_cons_zero]
        ring
  simpa using folded left right 0 done

/-- The entries of a product with a column vector. -/
theorem mulVec_ok {vector result : List ℤ} (done : matrix.mulVec vector = .ok result) :
    matrix.cols = vector.length ∧ result.length = matrix.height
      ∧ ∀ index, result.getD index 0 = dot (matrix.rows.getD index []) (coordinates vector) := by
  simp only [mulVec, bind_ok, require_ok, mapM_ok] at done
  obtain ⟨_, cols_eq, each⟩ := done
  refine ⟨cols_eq, each.length_eq.symm, ?_⟩
  generalize matrix.rows = rows at each
  clear cols_eq
  induction each with
  | nil => simp
  | cons product _ ih =>
    intro index
    cases index with
    | zero => simpa using innerProduct_ok product
    | succ index => simpa using ih index

theorem columnBlock_ok {block : RowMatrix} {start : ℕ} (done : matrix.columnBlock start count = .ok block) :
    block.cols = count ∧ block.rows = matrix.rows.map fun row => (row.drop start).take count := by
  simp only [columnBlock] at done
  split_ifs at done
  · obtain rfl := Except.ok.inj done
    exact ⟨rfl, rfl⟩
  · obtain ⟨_, _, done⟩ := bind_ok.mp done
    obtain rfl := Except.ok.inj done
    exact ⟨rfl, rfl⟩
  · obtain ⟨_, _, done⟩ := bind_ok.mp done
    cases done

end RowMatrix

theorem HermiteForm.Decomposes.mulVec_transform {hermite : HermiteForm} (decomposes : hermite.Decomposes matrix) {dims : List ℤ}
    (read : hermite.inverse.transpose.mulVec coordinate = .ok dims) (inside : k < matrix.cols) :
    ∑ j ∈ Finset.range matrix.cols, dims.getD j 0 * entryAt hermite.transform.rows j k = coordinate.getD k 0 := by
  obtain ⟨_, _, entries⟩ := RowMatrix.mulVec_ok read
  have inverse_length : hermite.inverse.rows.length = matrix.cols := decomposes.tracks.inverse_length
  have dims_eq : ∀ j ∈ Finset.range matrix.cols, dims.getD j 0
      = ∑ i ∈ Finset.range matrix.cols, entryAt hermite.inverse.rows i j * coordinate.getD i 0 := by
    intro j j_mem
    have j_lt : j < hermite.inverse.cols := decomposes.inverse_cols.symm ▸ Finset.mem_range.mp j_mem
    have column_eq : hermite.inverse.transpose.rows.getD j [] = hermite.inverse.column j := by
      simp [RowMatrix.transpose, getD_eq_getElem?_getD, j_lt]
    rw [entries, column_eq, dot_eq_sum, RowMatrix.column, length_map, inverse_length]
    apply sum_congr rfl
    intro i i_mem
    have i_lt : i < hermite.inverse.rows.length := inverse_length ▸ Finset.mem_range.mp i_mem
    simp [coordinates, entryAt, getD_eq_getElem?_getD, i_lt]
  calc ∑ j ∈ Finset.range matrix.cols, dims.getD j 0 * entryAt hermite.transform.rows j k
      = ∑ j ∈ Finset.range matrix.cols, ∑ i ∈ Finset.range matrix.cols,
          entryAt hermite.inverse.rows i j * coordinate.getD i 0 * entryAt hermite.transform.rows j k := by
        apply sum_congr rfl
        intro j j_mem
        rw [dims_eq j j_mem, sum_mul]
    _ = ∑ i ∈ Finset.range matrix.cols, coordinate.getD i 0 * ∑ j ∈ Finset.range matrix.cols,
          entryAt hermite.inverse.rows i j * entryAt hermite.transform.rows j k := by
        rw [sum_comm]
        apply sum_congr rfl
        intro i _
        rw [mul_sum]
        exact sum_congr rfl fun j _ => by ring
    _ = ∑ i ∈ Finset.range matrix.cols, coordinate.getD i 0 * (if i = k then 1 else 0) := by
        apply sum_congr rfl
        intro i i_mem
        rw [decomposes.inverse_transform (Finset.mem_range.mp i_mem) inside]
    _ = coordinate.getD k 0 := by
        rw [sum_eq_single k]
        · simp
        · intro i _ different
          simp [different]
        · intro outside
          exact absurd (Finset.mem_range.mpr inside) outside

namespace Node

/-! ### Times -/

/-- The time that a row gives to a point; a row that the node does not have gives zero. -/
def timeAt (node : Node) (row : ℕ) (params point : ℕ → ℤ) : ℤ :=
  rowValue (node.schedule.rows.getD row []) node.space.params point params

/-- The coefficients of the dimensions, row by row. -/
def linearRows (node : Node) : List (List ℤ) :=
  node.schedule.rows.map (·.drop (1 + node.space.params))

/-- The dimension of the space that the linear parts of the rows span. -/
noncomputable def rowRank (node : Node) : ℕ := Module.finrank ℚ (rowSpace node.space.dim node.linearRows)

/-- The rows span the space of the dimensions. -/
def Spans (node : Node) : Prop := rowSpace node.space.dim node.linearRows = ⊤

/-- The rows of the node are laid out as constant, parameters, dimensions. -/
structure LaidOut (node : Node) (paramCount : ℕ) : Prop where
  params : node.space.params = paramCount
  cols : node.schedule.cols = 1 + paramCount + node.space.dim

/-- The rank and the basis belong to the rows. -/
def Based (node : Node) : Prop := node.updateBasis = .ok node

/-- The node has a number of rows, each with a band entry and a coincidence flag. -/
structure HasRows (node : Node) (count : ℕ) : Prop where
  height : node.schedule.height = count
  bands : node.bands.length = count
  coincident : node.coincident.length = count

/-- The rows that are not there give the time zero. -/
theorem HasRows.timeAt_eq_zero (has_rows : node.HasRows count) (beyond : count ≤ row) (params point : ℕ → ℤ) :
    node.timeAt row params point = 0 := by
  have short : node.schedule.rows.length ≤ row := has_rows.height.trans_le beyond
  rw [timeAt, getD_eq_default _ _ short]
  simp [rowValue]

/-! ### More rows -/

/-- A longer list agrees with its beginning. -/
theorem getElem?_eq_of_front {α : Type} {front whole : List α} (is_front : front <+: whole) {place : ℕ}
    (inside : place < front.length) : whole[place]? = front[place]? := by
  obtain ⟨rest, rfl⟩ := is_front
  exact getElem?_append_left inside

/-- The node has further rows behind those of an earlier state of it. -/
structure Prolongs (later earlier : Node) : Prop where
  space : later.space = earlier.space
  cols : later.schedule.cols = earlier.schedule.cols
  rows : earlier.schedule.rows <+: later.schedule.rows
  bands : earlier.bands <+: later.bands
  coincident : earlier.coincident <+: later.coincident

theorem Prolongs.refl (node : Node) : node.Prolongs node :=
  ⟨rfl, rfl, prefix_refl _, prefix_refl _, prefix_refl _⟩

theorem Prolongs.trans {last middle first : Node} (after : last.Prolongs middle)
    (before : middle.Prolongs first) : last.Prolongs first :=
  ⟨after.space.trans before.space, after.cols.trans before.cols, before.rows.trans after.rows,
    before.bands.trans after.bands, before.coincident.trans after.coincident⟩

section Prolonged

variable {later earlier : Node} (prolonged : later.Prolongs earlier)
include prolonged

theorem Prolongs.laidOut (laid_out : earlier.LaidOut paramCount) : later.LaidOut paramCount :=
  ⟨by rw [prolonged.space, laid_out.params], by rw [prolonged.cols, laid_out.cols, prolonged.space]⟩

section

variable (has_rows : earlier.HasRows count) (inside : row < count)
include has_rows inside

/-- The earlier rows keep their coefficients. -/
theorem Prolongs.row_eq :
    later.schedule.rows.getD row [] = earlier.schedule.rows.getD row [] := by
  have row_lt : row < earlier.schedule.rows.length := inside.trans_eq has_rows.height.symm
  rw [getD_eq_getElem?_getD, getD_eq_getElem?_getD, getElem?_eq_of_front prolonged.rows row_lt]

/-- The earlier rows give the times they gave before. -/
theorem Prolongs.timeAt_eq (params point : ℕ → ℤ) :
    later.timeAt row params point = earlier.timeAt row params point := by
  rw [timeAt, timeAt, prolonged.row_eq has_rows inside, prolonged.space]

/-- The earlier rows keep their bands. -/
theorem Prolongs.bands_eq : later.bands[row]? = earlier.bands[row]? :=
  getElem?_eq_of_front prolonged.bands (inside.trans_eq has_rows.bands.symm)

/-- The earlier rows keep their flags. -/
theorem Prolongs.coincident_eq :
    later.coincident[row]? = earlier.coincident[row]? :=
  getElem?_eq_of_front prolonged.coincident (inside.trans_eq has_rows.coincident.symm)

end

theorem Prolongs.linearRows_subset : ∀ row ∈ earlier.linearRows, row ∈ later.linearRows := by
  intro row row_mem
  obtain ⟨whole, whole_mem, rfl⟩ := mem_map.mp row_mem
  rw [linearRows, prolonged.space]
  exact mem_map_of_mem (prolonged.rows.subset whole_mem)

/-- Rows that span the dimensions keep doing so. -/
theorem Prolongs.spans (spans : earlier.Spans) : later.Spans := by
  have at_least : rowSpace earlier.space.dim earlier.linearRows ≤ rowSpace earlier.space.dim later.linearRows :=
    rowSpace_mono prolonged.linearRows_subset
  rw [Spans, prolonged.space]
  exact top_le_iff.mp (spans ▸ at_least)

end Prolonged

/-- The node has one more row than an earlier state of it. -/
structure Pushes (later earlier : Node) (row : List ℤ) (band : Option ℕ) (coincident : Bool) : Prop where
  space : later.space = earlier.space
  component : later.component = earlier.component
  cols : later.schedule.cols = earlier.schedule.cols
  length : row.length = earlier.schedule.cols
  rows : later.schedule.rows = earlier.schedule.rows ++ [row]
  bands : later.bands = earlier.bands ++ [band]
  flags : later.coincident = earlier.coincident ++ [coincident]

theorem pushes_of_pushRow {row : List ℤ} {band : Option ℕ} {coincident : Bool}
    (pushed : node.pushRow row band coincident = .ok next) : next.Pushes node row band coincident := by
  simp only [pushRow, bind_ok, pure_ok, RowMatrix.pushRow_ok_iff] at pushed
  obtain ⟨schedule, ⟨length_eq, cols_eq, rows_eq⟩, rfl⟩ := pushed
  exact ⟨rfl, rfl, cols_eq, length_eq, rows_eq, rfl, rfl⟩

section Pushed

variable {later earlier : Node} {row : List ℤ} {band : Option ℕ} {flag : Bool}
  (pushed : later.Pushes earlier row band flag)
include pushed

theorem Pushes.prolongs : later.Prolongs earlier :=
  ⟨pushed.space, pushed.cols, pushed.rows ▸ prefix_append _ _, pushed.bands ▸ prefix_append _ _,
    pushed.flags ▸ prefix_append _ _⟩

section

variable (has_rows : earlier.HasRows count)
include has_rows

theorem Pushes.hasRows : later.HasRows (count + 1) := by
  refine ⟨?_, ?_, ?_⟩
  · rw [RowMatrix.height, pushed.rows, length_append, ← has_rows.height, RowMatrix.height, length_singleton]
  · rw [pushed.bands, length_append, has_rows.bands, length_singleton]
  · rw [pushed.flags, length_append, has_rows.coincident, length_singleton]

/-- The new row is the last one. -/
theorem Pushes.row_last : later.schedule.rows.getD count [] = row := by
  rw [pushed.rows, ← has_rows.height, RowMatrix.height]
  simp [getD_eq_getElem?_getD]

/-- The time of the new row. -/
theorem Pushes.timeAt_last (params point : ℕ → ℤ) :
    later.timeAt count params point = rowValue row earlier.space.params point params := by
  rw [timeAt, pushed.row_last has_rows, pushed.space]

/-- The band of the new row. -/
theorem Pushes.bands_last : later.bands[count]? = some band := by
  rw [pushed.bands, ← has_rows.bands]
  simp

/-- The flag of the new row. -/
theorem Pushes.coincident_last : later.coincident[count]? = some flag := by
  rw [pushed.flags, ← has_rows.coincident]
  simp

end

end Pushed

/-- A constant row gives every point the same time. -/
theorem rowValue_constantRow (node : Node) (value : ℤ) (params point : ℕ → ℤ) :
    rowValue (node.constantRow value) node.space.params point params = value := by
  simp [rowValue, constantRow, Nat.add_comm 1]

/-! ### Bases -/

/-- Recomputing the basis changes nothing but the rank and the basis. -/
theorem updateBasis_ok (updated : node.updateBasis = .ok next) :
    next.Based ∧ next = { node with
      rank := next.rank, basis := next.basis, coordinates := next.coordinates } := by
  have again := updated
  simp only [updateBasis, bind_ok, pure_ok] at again
  obtain ⟨linear, linear_ok, hermite, hermite_ok, rfl⟩ := again
  refine ⟨?_, rfl⟩
  simp only [Based, updateBasis, bind_ok, pure_ok]
  exact ⟨linear, linear_ok, hermite, hermite_ok, rfl⟩

section

variable (based : node.Based) (laid_out : node.LaidOut paramCount)
include based laid_out

/-- The basis of a node and its inverse come from a decomposition of the linear parts of its rows. -/
theorem Based.hermite :
    ∃ linear hermite, HermiteForm.Decomposes hermite linear ∧ linear.cols = node.space.dim
      ∧ linear.rows = node.linearRows ∧ node.rank = hermite.rank ∧ node.basis = hermite.inverse.transpose
      ∧ node.coordinates = hermite.transform.transpose := by
  have computed := based
  simp only [Based, updateBasis, bind_ok, pure_ok] at computed
  obtain ⟨linear, linear_ok, hermite, hermite_ok, node_eq⟩ := computed
  refine ⟨linear, hermite, RowMatrix.decomposes_of_hermite hermite_ok, ?_⟩
  have columns : linear.cols = node.space.dim
      ∧ linear.rows = node.schedule.rows.map fun row => (row.drop (1 + node.space.params)).take node.space.dim :=
    RowMatrix.columnBlock_ok linear_ok
  refine ⟨columns.1, ?_, ?_, ?_, ?_⟩
  · rw [columns.2, linearRows]
    apply map_congr_left
    intro row row_mem
    have length_eq := node.schedule.uniform row row_mem
    rw [laid_out.cols, ← laid_out.params] at length_eq
    apply take_of_length_le
    rw [length_drop]
    omega
  · exact (congrArg Node.rank node_eq).symm
  · exact (congrArg Node.basis node_eq).symm
  · exact (congrArg Node.coordinates node_eq).symm

/-- The rank of a node is the dimension of the space its rows span. -/
theorem Based.rank_eq :
    node.rank = Module.finrank ℚ (rowSpace node.space.dim node.linearRows) := by
  obtain ⟨linear, hermite, decomposes, cols_eq, rows_eq, rank_eq, _⟩ := based.hermite laid_out
  rw [rank_eq, decomposes.rank_eq_finrank, cols_eq, rows_eq]

theorem Based.spans_of_le (full : node.space.dim ≤ node.rank) :
    node.Spans :=
  rowSpace_eq_top_of_le (based.rank_eq laid_out ▸ full)

end

/-- Further rows do not lower the rank. -/
theorem Prolongs.rank_le {later earlier : Node} (prolonged : later.Prolongs earlier)
    (laid_out : earlier.LaidOut paramCount) (earlier_based : earlier.Based) (later_based : later.Based) :
    earlier.rank ≤ later.rank := by
  rw [earlier_based.rank_eq laid_out, later_based.rank_eq (prolonged.laidOut laid_out), prolonged.space]
  exact finrank_rowSpace_mono prolonged.linearRows_subset

/-- A row read through the basis from coordinates of which a later one is not zero raises the rank. -/
theorem Pushes.rank_lt_of_coordinate {later earlier : Node} {row : List ℤ} {band : Option ℕ} {flag : Bool}
    (pushed : later.Pushes earlier row band flag) (laid_out : earlier.LaidOut paramCount) (earlier_based : earlier.Based)
    (later_based : later.Based) (read : earlier.basis.mulVec coordinate = .ok (row.drop (1 + earlier.space.params)))
    (beyond : earlier.rank ≤ k) (inside : k < earlier.space.dim) (nonzero : coordinate.getD k 0 ≠ 0) :
    earlier.rank < later.rank := by
  obtain ⟨linear, hermite, decomposes, cols_eq, rows_eq, rank_eq, basis_eq, _⟩ := earlier_based.hermite laid_out
  rw [earlier_based.rank_eq laid_out, later_based.rank_eq (pushed.prolongs.laidOut laid_out), pushed.space]
  have fresh_mem : row.drop (1 + earlier.space.params) ∈ later.linearRows := by
    rw [linearRows, pushed.rows, pushed.space, map_append]
    exact mem_append_right _ mem_cons_self
  have vanishes : ∀ row ∈ earlier.linearRows,
      ∑ j ∈ Finset.range earlier.space.dim, row.getD j 0 * entryAt hermite.transform.rows j k = 0 := by
    intro row row_mem
    rw [← cols_eq]
    exact decomposes.row_mul_transform_eq_zero (rows_eq ▸ row_mem) (rank_eq ▸ beyond) (cols_eq ▸ inside)
  have fresh_ne : ∑ j ∈ Finset.range earlier.space.dim,
      (row.drop (1 + earlier.space.params)).getD j 0 * entryAt hermite.transform.rows j k ≠ 0 := by
    rw [← cols_eq, decomposes.mulVec_transform (basis_eq ▸ read) (cols_eq ▸ inside)]
    exact nonzero
  exact finrank_rowSpace_lt pushed.prolongs.linearRows_subset vanishes fresh_mem fresh_ne

end Node

end AffineSchedule
