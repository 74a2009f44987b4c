import AffineSchedule.Proofs.Hermite

namespace AffineSchedule

open Finset Submodule Matrix

variable {rows : List (List ℤ)} {width k : ℕ} {i : ℕ} {values : ℕ → ℤ} {row : List ℤ} {more : List (List ℤ)}

/-! ### The space of the rows -/

/-- A row as a rational vector. -/
def rowVector (width : ℕ) (row : List ℤ) : Fin width → ℚ := fun j => row.getD j 0

/-- The space that the rows of a matrix span. -/
def rowSpace (width : ℕ) (rows : List (List ℤ)) : Submodule ℚ (Fin width → ℚ) :=
  Submodule.span ℚ {vector | ∃ row ∈ rows, rowVector width row = vector}

theorem rowVector_mem_rowSpace (row_mem : row ∈ rows) :
    rowVector width row ∈ rowSpace width rows := subset_span ⟨row, row_mem, rfl⟩

theorem rowSpace_le (inside : ∀ row ∈ rows, rowVector width row ∈ rowSpace width more) :
    rowSpace width rows ≤ rowSpace width more := by
  apply span_le.mpr
  rintro vector ⟨row, row_mem, rfl⟩
  exact inside row row_mem

/-- More rows span a larger space. -/
theorem rowSpace_mono (subset : ∀ row ∈ rows, row ∈ more) : rowSpace width rows ≤ rowSpace width more :=
  rowSpace_le fun row row_mem => rowVector_mem_rowSpace (subset row row_mem)

/-- The product with a fixed vector. -/
def pairing (width : ℕ) (values : ℕ → ℤ) : (Fin width → ℚ) →ₗ[ℚ] ℚ :=
  ∑ j : Fin width, (values j : ℚ) • LinearMap.proj j

theorem pairing_apply (width : ℕ) (values : ℕ → ℤ) (vector : Fin width → ℚ) :
    pairing width values vector = ∑ j : Fin width, (values j : ℚ) * vector j := by
  simp [pairing]

theorem pairing_rowVector (width : ℕ) (values : ℕ → ℤ) (row : List ℤ) : pairing width values (rowVector width row)
      = ((∑ j ∈ Finset.range width, row.getD j 0 * values j : ℤ) : ℚ) := by
  rw [pairing_apply, sum_range]
  push_cast
  exact sum_congr rfl fun j _ => mul_comm _ _

/-- A vector that every row maps to zero maps the whole space to zero. -/
theorem pairing_eq_zero (vanishes : ∀ row ∈ rows, ∑ j ∈ Finset.range width, row.getD j 0 * values j = 0) {vector : Fin width → ℚ}
    (vector_mem : vector ∈ rowSpace width rows) : pairing width values vector = 0 := by
  have contained : rowSpace width rows ≤ LinearMap.ker (pairing width values) := by
    apply span_le.mpr
    rintro vector ⟨row, row_mem, rfl⟩
    rw [SetLike.mem_coe, LinearMap.mem_ker, pairing_rowVector, vanishes row row_mem, Int.cast_zero]
  exact LinearMap.mem_ker.mp (contained vector_mem)

/-- With rows that span everything, only zero is mapped to zero by all rows. -/
theorem eq_zero_of_rowSpace_eq_top (spans : rowSpace width rows = ⊤)
    (vanishes : ∀ row ∈ rows, ∑ j ∈ Finset.range width, row.getD j 0 * values j = 0) (inside : k < width) : values k = 0 := by
  have unit_mem : (Pi.single ⟨k, inside⟩ 1 : Fin width → ℚ) ∈ rowSpace width rows := by
    rw [spans]
    exact mem_top
  have paired := pairing_eq_zero vanishes unit_mem
  rw [pairing_apply, sum_eq_single ⟨k, inside⟩] at paired
  · simpa using paired
  · intro j _ different
    rw [Pi.single_eq_of_ne different, mul_zero]
  · simp

theorem rowSpace_eq_top_of_le (full : width ≤ Module.finrank ℚ (rowSpace width rows)) : rowSpace width rows = ⊤ := by
  apply eq_top_of_finrank_eq
  have upper := finrank_le (rowSpace width rows)
  rw [Module.finrank_fin_fun] at upper ⊢
  omega

theorem finrank_rowSpace_mono (subset : ∀ row ∈ rows, row ∈ more) :
    Module.finrank ℚ (rowSpace width rows) ≤ Module.finrank ℚ (rowSpace width more) :=
  finrank_mono (rowSpace_mono subset)

/-- A row that a vector tells apart from all the others raises the dimension. -/
theorem finrank_rowSpace_lt (subset : ∀ row ∈ rows, row ∈ more)
    (vanishes : ∀ row ∈ rows, ∑ j ∈ Finset.range width, row.getD j 0 * values j = 0) {fresh : List ℤ} (fresh_mem : fresh ∈ more)
    (nonzero : ∑ j ∈ Finset.range width, fresh.getD j 0 * values j ≠ 0) :
    Module.finrank ℚ (rowSpace width rows) < Module.finrank ℚ (rowSpace width more) := by
  apply finrank_lt_finrank_of_lt
  refine lt_of_le_of_ne (rowSpace_mono subset) fun same => nonzero ?_
  have inside : rowVector width fresh ∈ rowSpace width rows := by
    rw [same]
    exact rowVector_mem_rowSpace fresh_mem
  have paired := pairing_eq_zero vanishes inside
  rw [pairing_rowVector] at paired
  exact_mod_cast paired

/-! ### The rank of a decomposition -/

/-- The entries as a matrix of a given size. -/
def RowMatrix.toMatrix (matrix : RowMatrix) (height width : ℕ) : Matrix (Fin height) (Fin width) ℤ :=
  Matrix.of fun i j => entryAt matrix.rows i j

@[simp]
theorem RowMatrix.toMatrix_apply (matrix : RowMatrix) (height width : ℕ) (i : Fin height) (j : Fin width) :
    matrix.toMatrix height width i j = entryAt matrix.rows i j :=
  rfl

namespace HermiteForm.Decomposes

variable {hermite : HermiteForm} {matrix : RowMatrix} (decomposes : hermite.Decomposes matrix)

include decomposes

theorem form_mul_inverse : hermite.form.toMatrix matrix.height matrix.cols * hermite.inverse.toMatrix matrix.cols matrix.cols
    = matrix.toMatrix matrix.height matrix.cols := by
  ext i k
  simp only [mul_apply, RowMatrix.toMatrix_apply]
  exact (sum_range _).symm.trans (decomposes.tracks.form_inverse i k)

theorem transform_mul_inverse :
    hermite.transform.toMatrix matrix.cols matrix.cols * hermite.inverse.toMatrix matrix.cols matrix.cols = 1 := by
  ext i k
  simp only [mul_apply, RowMatrix.toMatrix_apply, one_apply, Fin.ext_iff]
  exact (sum_range _).symm.trans (decomposes.tracks.transform_inverse i i.isLt k k.isLt)

/-- The inverse is an inverse on the other side too. -/
theorem inverse_mul_transform :
    hermite.inverse.toMatrix matrix.cols matrix.cols * hermite.transform.toMatrix matrix.cols matrix.cols = 1 :=
  mul_eq_one_comm.mp decomposes.transform_mul_inverse

theorem inverse_transform (i_lt : i < matrix.cols) (k_lt : k < matrix.cols) :
    ∑ j ∈ Finset.range matrix.cols, entryAt hermite.inverse.rows i j * entryAt hermite.transform.rows j k
      = if i = k then 1 else 0 := by
  have entry := congrFun (congrFun decomposes.inverse_mul_transform ⟨i, i_lt⟩) ⟨k, k_lt⟩
  simpa [mul_apply, one_apply, sum_range] using entry

/-- The matrix times the transformation is the reduced matrix. -/
theorem mul_transform : matrix.toMatrix matrix.height matrix.cols * hermite.transform.toMatrix matrix.cols matrix.cols
    = hermite.form.toMatrix matrix.height matrix.cols := by
  rw [← decomposes.form_mul_inverse, Matrix.mul_assoc, decomposes.inverse_mul_transform, Matrix.mul_one]

theorem row_mul_transform (i_lt : i < matrix.rows.length) (k_lt : k < matrix.cols) :
    ∑ j ∈ Finset.range matrix.cols, matrix.rows[i].getD j 0 * entryAt hermite.transform.rows j k
      = entryAt hermite.form.rows i k := by
  have entry := congrFun (congrFun decomposes.mul_transform ⟨i, i_lt⟩) ⟨k, k_lt⟩
  simp only [mul_apply, RowMatrix.toMatrix_apply] at entry
  rw [sum_range, ← List.getD_eq_getElem matrix.rows [] i_lt]
  exact entry

/-- A column of the transformation from the rank on is mapped to zero by every row. -/
theorem row_mul_transform_eq_zero (row_mem : row ∈ matrix.rows) (later : hermite.rank ≤ k) (k_lt : k < matrix.cols) :
    ∑ j ∈ Finset.range matrix.cols, row.getD j 0 * entryAt hermite.transform.rows j k = 0 := by
  obtain ⟨i, inside, rfl⟩ := List.getElem_of_mem row_mem
  exact (decomposes.row_mul_transform inside k_lt).trans (decomposes.echelon.clear i inside k later k_lt)

theorem rank_le_finrank : hermite.rank ≤ Module.finrank ℚ (rowSpace matrix.cols matrix.rows) := by
  obtain ⟨pivotRow, pivots⟩ := decomposes.echelon.pivots
  let vectors : Fin hermite.rank → Fin matrix.cols → ℚ := fun c => rowVector matrix.cols (matrix.rows.getD (pivotRow c) [])
  have inside : ∀ c : Fin hermite.rank, pivotRow c < matrix.rows.length := fun c => (pivots c c.isLt).1
  have independent : LinearIndependent ℚ vectors := by
    rw [Fintype.linearIndependent_iff]
    intro weights combination
    -- in the reduced matrix, the column of a pivot only has entries of this pivot and later ones
    have reduced : ∀ k < matrix.cols,
        ∑ c : Fin hermite.rank, weights c * (entryAt hermite.form.rows (pivotRow c) k : ℚ) = 0 := by
      intro k k_lt
      have paired := congrArg (pairing matrix.cols fun j => entryAt hermite.transform.rows j k) combination
      rw [map_sum, map_zero] at paired
      rw [← paired]
      apply sum_congr rfl
      intro c _
      rw [map_smul, smul_eq_mul, pairing_rowVector, List.getD_eq_getElem _ _ (inside c),
        decomposes.row_mul_transform (inside c) k_lt]
    have downward : ∀ gap : ℕ, ∀ c : Fin hermite.rank, hermite.rank - c.val ≤ gap → weights c = 0 := by
      intro gap
      induction gap with
      | zero =>
        intro c small
        have := c.isLt
        omega
      | succ gap ih =>
        intro c small
        have column := reduced c (c.isLt.trans_le decomposes.echelon.pivot_le)
        rw [sum_eq_single c] at column
        · have positive : 0 < entryAt hermite.form.rows (pivotRow c) c := (pivots c c.isLt).2.1
          have nonzero : (entryAt hermite.form.rows (pivotRow c) c : ℚ) ≠ 0 := by exact_mod_cast positive.ne'
          exact (mul_eq_zero.mp column).resolve_right nonzero
        · intro other _ different
          rcases lt_or_gt_of_ne (fun same => different (Fin.ext same) : other.val ≠ c.val) with before | after
          · have right : entryAt hermite.form.rows (pivotRow other) c = 0 :=
              (pivots other other.isLt).2.2.2.1 c before (c.isLt.trans_le decomposes.echelon.pivot_le)
            rw [right, Int.cast_zero, mul_zero]
          · rw [ih other (by omega), zero_mul]
        · simp
    exact fun c => downward hermite.rank c (Nat.sub_le _ _)
  have contained : Submodule.span ℚ (Set.range vectors) ≤ rowSpace matrix.cols matrix.rows := by
    apply span_le.mpr
    rintro vector ⟨c, rfl⟩
    apply rowVector_mem_rowSpace
    rw [List.getD_eq_getElem _ _ (inside c)]
    exact List.getElem_mem (inside c)
  have dimension := finrank_span_eq_card independent
  rw [Fintype.card_fin] at dimension
  rw [← dimension]
  exact finrank_mono contained

/-- Every row is a combination of the first rows of the inverse. -/
theorem rowSpace_le_inverse : rowSpace matrix.cols matrix.rows
    ≤ Submodule.span ℚ (Set.range fun c : Fin hermite.rank => rowVector matrix.cols (hermite.inverse.rows.getD c [])) := by
  apply span_le.mpr
  rintro vector ⟨row, row_mem, rfl⟩
  obtain ⟨i, inside, rfl⟩ := List.getElem_of_mem row_mem
  have combination : rowVector matrix.cols matrix.rows[i] = ∑ c : Fin hermite.rank,
      (entryAt hermite.form.rows i c : ℚ) • rowVector matrix.cols (hermite.inverse.rows.getD c []) := by
    funext k
    have product := decomposes.tracks.form_inverse i k
    have split := sum_range_add (fun j => entryAt hermite.form.rows i j * entryAt hermite.inverse.rows j k)
      hermite.rank (matrix.cols - hermite.rank)
    rw [Nat.add_sub_cancel' decomposes.echelon.pivot_le] at split
    have later_zero : ∑ j ∈ Finset.range (matrix.cols - hermite.rank),
        entryAt hermite.form.rows i (hermite.rank + j) * entryAt hermite.inverse.rows (hermite.rank + j) k = 0 := by
      apply sum_eq_zero
      intro j j_mem
      have j_lt := mem_range.mp j_mem
      have clear : entryAt hermite.form.rows i (hermite.rank + j) = 0 :=
        decomposes.echelon.clear i inside _ (Nat.le_add_right _ _) (by omega)
      rw [clear, zero_mul]
    have entry_eq : entryAt matrix.rows i k
        = ∑ c : Fin hermite.rank, entryAt hermite.form.rows i c * entryAt hermite.inverse.rows c k := by
      rw [← product]
      exact split.trans (by rw [later_zero, add_zero, sum_range])
    have row_entry : rowVector matrix.cols matrix.rows[i] k = (entryAt matrix.rows i k : ℚ) := by
      rw [rowVector, entryAt, List.getD_eq_getElem matrix.rows _ inside]
    rw [row_entry, entry_eq, Finset.sum_apply]
    push_cast
    rfl
  rw [SetLike.mem_coe, combination]
  exact Submodule.sum_mem _ fun c _ => Submodule.smul_mem _ _ (Submodule.subset_span ⟨c, rfl⟩)

theorem finrank_le_rank : Module.finrank ℚ (rowSpace matrix.cols matrix.rows) ≤ hermite.rank := by
  calc Module.finrank ℚ (rowSpace matrix.cols matrix.rows) ≤ Module.finrank ℚ (Submodule.span ℚ
          (Set.range fun c : Fin hermite.rank => rowVector matrix.cols (hermite.inverse.rows.getD c []))) :=
        finrank_mono decomposes.rowSpace_le_inverse
    _ ≤ Fintype.card (Fin hermite.rank) := finrank_range_le_card _
    _ = hermite.rank := Fintype.card_fin _

/-- The rank is the rank over the rationals. -/
theorem rank_eq_finrank : hermite.rank = Module.finrank ℚ (rowSpace matrix.cols matrix.rows) :=
  le_antisymm decomposes.rank_le_finrank decomposes.finrank_le_rank

theorem span_inverse_eq : Submodule.span ℚ
    (Set.range fun c : Fin hermite.rank => rowVector matrix.cols (hermite.inverse.rows.getD c []))
      = rowSpace matrix.cols matrix.rows := by
  refine (eq_of_le_of_finrank_le decomposes.rowSpace_le_inverse ?_).symm
  rw [← decomposes.rank_eq_finrank]
  exact (finrank_range_le_card _).trans_eq (Fintype.card_fin _)

end HermiteForm.Decomposes

theorem rank_toMatrix (matrix : RowMatrix) : ((matrix.toMatrix matrix.height matrix.cols).map (Int.cast : ℤ → ℚ)).rank
      = Module.finrank ℚ (rowSpace matrix.cols matrix.rows) := by
  have row_eq : ∀ i : Fin matrix.rows.length,
      ((matrix.toMatrix matrix.height matrix.cols).map (Int.cast : ℤ → ℚ)).row i = rowVector matrix.cols matrix.rows[i] := by
    intro i
    rw [Fin.getElem_fin, ← List.getD_eq_getElem matrix.rows [] i.isLt]
    rfl
  have rows_eq : Set.range ((matrix.toMatrix matrix.height matrix.cols).map (Int.cast : ℤ → ℚ)).row
      = {vector | ∃ row ∈ matrix.rows, rowVector matrix.cols row = vector} := by
    ext vector
    constructor
    · rintro ⟨i, rfl⟩
      exact ⟨_, List.getElem_mem i.isLt, (row_eq i).symm⟩
    · rintro ⟨row, row_mem, rfl⟩
      obtain ⟨i, inside, rfl⟩ := List.getElem_of_mem row_mem
      exact ⟨⟨i, inside⟩, row_eq ⟨i, inside⟩⟩
  rw [rank_eq_finrank_span_row, rows_eq, rowSpace]

/-- Every matrix has a decomposition into an echelon form and a unimodular transformation, whose rank is the rank over the
    rationals. It is found unless a number leaves its range or the transformation has too many rows to make. -/
theorem RowMatrix.hermite_exact (matrix : RowMatrix) : (∃ hermite, matrix.hermite = .ok hermite
      ∧ (hermite.form.height = matrix.height ∧ hermite.form.cols = matrix.cols)
      ∧ (hermite.transform.height = matrix.cols ∧ hermite.transform.cols = matrix.cols)
      ∧ (hermite.inverse.height = matrix.cols ∧ hermite.inverse.cols = matrix.cols)
      ∧ matrix.toMatrix matrix.height matrix.cols * hermite.transform.toMatrix matrix.cols matrix.cols
        = hermite.form.toMatrix matrix.height matrix.cols
      ∧ hermite.transform.toMatrix matrix.cols matrix.cols * hermite.inverse.toMatrix matrix.cols matrix.cols = 1
      ∧ hermite.inverse.toMatrix matrix.cols matrix.cols * hermite.transform.toMatrix matrix.cols matrix.cols = 1
      ∧ ColumnReduction.Echelon matrix.cols matrix.height hermite.rank hermite.reduction
      ∧ hermite.rank = ((matrix.toMatrix matrix.height matrix.cols).map (Int.cast : ℤ → ℚ)).rank)
    ∨ ∃ fault, matrix.hermite = .error fault
      ∧ (fault.isOverflow = true ∨ fault = .precondition ∧ Size.unreachable ≤ matrix.cols) := by
  cases computed : matrix.hermite with
  | error fault => exact Or.inr ⟨fault, rfl, matrix.meets_hermite.faults fault computed⟩
  | ok hermite =>
    have decomposes := RowMatrix.decomposes_of_hermite computed
    refine Or.inl ⟨hermite, rfl, ⟨decomposes.tracks.form_length, decomposes.form_cols⟩,
      ⟨decomposes.tracks.transform_length, decomposes.transform_cols⟩,
      ⟨decomposes.tracks.inverse_length, decomposes.inverse_cols⟩, decomposes.mul_transform,
      decomposes.transform_mul_inverse, decomposes.inverse_mul_transform, decomposes.echelon, ?_⟩
    rw [rank_toMatrix, decomposes.rank_eq_finrank]

end AffineSchedule
