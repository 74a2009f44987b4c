import AffineSchedule.Proofs.AffineForm
import AffineSchedule.Proofs.Faults
import AffineSchedule.RowMatrix.Hermite

namespace AffineSchedule

open Checked List Finset RowMatrix

variable {width pivot row : ℕ} {original rows : List (List ℤ)} {step : ColumnStep} {allowed : Fault → Prop}

/-- The entry of a list of rows at a row and a column, zero outside. -/
def entryAt (rows : List (List ℤ)) (row column : ℕ) : ℤ := (rows.getD row []).getD column 0

theorem getD_set_of_lt {α : Type} {entries : List α} {place : ℕ} (inside : place < entries.length)
    (entry fallback : α) (other : ℕ) : (entries.set place entry).getD other fallback
      = if other = place then entry else entries.getD other fallback := by
  by_cases same : other = place
  · simp [getD_eq_getElem?_getD, same, getElem?_set_self inside]
  · simp [getD_eq_getElem?_getD, same, getElem?_set_ne (Ne.symm same)]

/-- Sums whose terms differ at two positions only, where the two terms have the same sum. -/
theorem sum_range_eq_of_two {first second : ℕ} (first_lt : first < width) (second_lt : second < width)
    (different : first ≠ second) {terms others : ℕ → ℤ} (elsewhere : ∀ j, j ≠ first → j ≠ second → terms j = others j)
    (together : terms first + terms second = others first + others second) :
    ∑ j ∈ Finset.range width, terms j = ∑ j ∈ Finset.range width, others j := by
  have second_mem : second ∈ (Finset.range width).erase first :=
    mem_erase.mpr ⟨different.symm, Finset.mem_range.mpr second_lt⟩
  rw [← add_sum_erase _ terms (mem_range.mpr first_lt), ← add_sum_erase _ terms second_mem,
    ← add_sum_erase _ others (mem_range.mpr first_lt), ← add_sum_erase _ others second_mem,
    ← add_assoc, ← add_assoc, together]
  congr 1
  apply sum_congr rfl
  intro j j_mem
  obtain ⟨not_second, rest⟩ := mem_erase.mp j_mem
  exact elsewhere j (mem_erase.mp rest).1 not_second

namespace ColumnStep

/-! ### Elementary steps -/

/-- The step on the entries of a row. -/
def acts (step : ColumnStep) (entries : ℕ → ℤ) : ℕ → ℤ := fun column =>
  match step with
  | swap first second =>
    if column = second then entries first else if column = first then entries second else entries column
  | negate target => if column = target then -entries target else entries column
  | subtract target source factor =>
    if column = target then entries target - entries source * factor else entries column

/-- The inverse step on the entries of a column of the inverse. -/
def actsInverse (step : ColumnStep) (entries : ℕ → ℤ) : ℕ → ℤ := fun row =>
  match step with
  | swap first second => if row = second then entries first else if row = first then entries second else entries row
  | negate target => if row = target then -entries target else entries row
  | subtract target source factor =>
    if row = source then entries source + entries target * factor else entries row

/-- The columns of the step exist, and a column is not subtracted from itself. -/
def Valid (step : ColumnStep) (width : ℕ) : Prop :=
  match step with
  | swap first second => first < width ∧ second < width
  | negate target => target < width
  | subtract target source _ => target < width ∧ source < width ∧ target ≠ source

/-- A step and its inverse leave the product of a row and a column alone. -/
theorem sum_acts (valid : step.Valid width) (row column : ℕ → ℤ) :
    ∑ j ∈ Finset.range width, step.acts row j * step.actsInverse column j = ∑ j ∈ Finset.range width, row j * column j := by
  cases step with
  | swap first second =>
    obtain ⟨first_lt, second_lt⟩ := valid
    by_cases same : first = second
    · subst same
      apply sum_congr rfl
      intro j _
      by_cases here : j = first <;> simp [acts, actsInverse, here]
    · apply sum_range_eq_of_two first_lt second_lt same
      · intro j not_first not_second
        simp [acts, actsInverse, not_first, not_second]
      · simp only [acts, actsInverse, if_neg same, if_true]
        ring
  | negate target =>
    apply sum_congr rfl
    intro j _
    by_cases here : j = target <;> simp [acts, actsInverse, here]
  | subtract target source factor =>
    obtain ⟨target_lt, source_lt, different⟩ := valid
    apply sum_range_eq_of_two target_lt source_lt different
    · intro j not_target not_source
      simp [acts, actsInverse, not_target, not_source]
    · simp only [acts, actsInverse, if_neg different, if_neg different.symm, if_true]
      ring

/-- The step on a row computes what it says. -/
theorem onRow_ok {row result : List ℤ} (valid : step.Valid width) (length_eq : row.length = width)
    (done : step.onRow row = .ok result) :
    result.length = width ∧ ∀ j, result.getD j 0 = step.acts (fun column => row.getD column 0) j := by
  cases step with
  | swap first second =>
    obtain ⟨first_lt, second_lt⟩ := valid
    simp only [onRow, Except.ok.injEq] at done
    rw [← done]
    refine ⟨by simp [length_eq], fun j => ?_⟩
    rw [getD_set_of_lt (by simpa [length_eq] using second_lt), getD_set_of_lt (by simpa [length_eq] using first_lt)]
    rfl
  | negate target =>
    simp only [onRow, bind_ok, pure_ok, Word.neg_ok] at done
    obtain ⟨_, ⟨_, rfl⟩, rfl⟩ := done
    refine ⟨by simp [length_eq], fun j => ?_⟩
    rw [getD_set_of_lt (valid.trans_eq length_eq.symm)]
    rfl
  | subtract target source factor =>
    simp only [onRow, subtractScaled, bind_ok, pure_ok] at done
    obtain ⟨value, value_ok, rfl⟩ := done
    split_ifs at value_ok
    cases value_ok
    refine ⟨by simp [length_eq], fun j => ?_⟩
    rw [getD_set_of_lt (valid.1.trans_eq length_eq.symm)]
    rfl

/-- A list of rows of a common width. -/
def Uniform (width : ℕ) (rows : List (List ℤ)) : Prop := ∀ row ∈ rows, row.length = width

theorem Uniform.getD_length (uniform : Uniform width rows) {index : ℕ} (inside : index < rows.length) :
    (rows.getD index []).length = width := by
  rw [getD_eq_getElem _ _ inside]
  exact uniform _ (getElem_mem inside)

theorem Uniform.set (uniform : Uniform width rows) (index : ℕ) {row : List ℤ} (length_eq : row.length = width) :
    Uniform width (rows.set index row) := by
  intro other other_mem
  rcases mem_or_eq_of_mem_set other_mem with old | rfl
  · exact uniform other old
  · exact length_eq

theorem eq_map_of_mapM {α : Type} {entries : List α} {results : List ℤ} {step : α → Checked ℤ} (value : α → ℤ)
    (done : entries.mapM step = .ok results) (each : ∀ {entry result}, step entry = .ok result → value entry = result) :
    entries.map value = results := by
  rw [mapM_ok] at done
  induction done with
  | nil => rfl
  | cons first_ok _ ih => rw [List.map_cons, each first_ok, ih]

theorem getD_of_mapM_neg {entries negated : List ℤ} (done : entries.mapM Word.neg = .ok negated) :
    negated.length = entries.length ∧ ∀ k, negated.getD k 0 = -entries.getD k 0 := by
  rw [← eq_map_of_mapM (fun entry => -entry) done fun negated_ok => (Word.neg_ok.mp negated_ok).2.symm]
  refine ⟨length_map _, fun k => ?_⟩
  simp only [getD_eq_getElem?_getD, getElem?_map]
  cases entries[k]? <;> rfl

theorem getD_of_mapM_addScaled {entries weights sums : List ℤ} {factor : ℤ} (same_length : entries.length = weights.length)
    (done : (entries.zip weights).mapM (fun pair => addScaled pair.1 pair.2 factor) = .ok sums) :
    sums.length = entries.length ∧ ∀ k, sums.getD k 0 = entries.getD k 0 + weights.getD k 0 * factor := by
  rw [← eq_map_of_mapM (fun pair => pair.1 + pair.2 * factor) done (by
    intro pair sum sum_ok
    simp only [addScaled] at sum_ok
    split_ifs at sum_ok
    exact Except.ok.inj sum_ok)]
  refine ⟨by simp [same_length], fun k => ?_⟩
  by_cases inside : k < weights.length
  · simp [getD_eq_getElem?_getD, same_length, inside]
  · simp [getD_eq_getElem?_getD, same_length, inside]

theorem onInverse_ok {result : List (List ℤ)} (valid : step.Valid width) (length_eq : rows.length = width)
    (uniform : Uniform width rows) (done : step.onInverse rows = .ok result) : result.length = width ∧ Uniform width result
      ∧ ∀ j k, entryAt result j k = step.actsInverse (fun row => entryAt rows row k) j := by
  cases step with
  | swap first second =>
    obtain ⟨first_lt, second_lt⟩ := valid
    simp only [onInverse, Except.ok.injEq] at done
    rw [← done]
    refine ⟨by simp [length_eq], ?_, fun j k => ?_⟩
    · exact (uniform.set _ (uniform.getD_length (second_lt.trans_eq length_eq.symm))).set _
        (uniform.getD_length (first_lt.trans_eq length_eq.symm))
    · rw [entryAt, getD_set_of_lt (by simpa [length_eq] using second_lt), getD_set_of_lt (by simpa [length_eq] using first_lt)]
      simp only [actsInverse, entryAt]
      split_ifs <;> rfl
  | negate target =>
    simp only [onInverse, bind_ok, pure_ok] at done
    obtain ⟨negated, negated_ok, rfl⟩ := done
    obtain ⟨negated_length, negated_eq⟩ := getD_of_mapM_neg negated_ok
    have target_lt : target < rows.length := valid.trans_eq length_eq.symm
    refine ⟨by simp [length_eq], uniform.set _ (negated_length.trans (uniform.getD_length target_lt)), fun j k => ?_⟩
    rw [entryAt, getD_set_of_lt target_lt]
    simp only [actsInverse, entryAt]
    by_cases here : j = target
    · rw [if_pos here, if_pos here, negated_eq]
    · rw [if_neg here, if_neg here]
  | subtract target source factor =>
    obtain ⟨target_lt, source_lt, _⟩ := valid
    rw [← length_eq] at target_lt source_lt
    simp only [onInverse, bind_ok, pure_ok] at done
    obtain ⟨sums, sums_ok, rfl⟩ := done
    obtain ⟨sums_length, sums_eq⟩ := getD_of_mapM_addScaled
      ((uniform.getD_length source_lt).trans (uniform.getD_length target_lt).symm) sums_ok
    refine ⟨by simp [length_eq], uniform.set _ (sums_length.trans (uniform.getD_length source_lt)), fun j k => ?_⟩
    rw [entryAt, getD_set_of_lt source_lt]
    simp only [actsInverse, entryAt]
    by_cases here : j = source
    · rw [if_pos here, if_pos here, sums_eq]
    · rw [if_neg here, if_neg here]

end ColumnStep

namespace ColumnReduction

open ColumnStep

variable {reduction next : ColumnReduction} {done : ℕ}

/-! ### Reductions -/

/-- The matrices have their sizes, the reduced matrix times the inverse is the original, and the inverse is
    one of the transformation. -/
structure Tracks (reduction : ColumnReduction) (width : ℕ) (original : List (List ℤ)) : Prop where
  form_length : reduction.form.length = original.length
  form_uniform : Uniform width reduction.form
  transform_length : reduction.transform.length = width
  transform_uniform : Uniform width reduction.transform
  inverse_length : reduction.inverse.length = width
  inverse_uniform : Uniform width reduction.inverse
  form_inverse : ∀ i k, ∑ j ∈ Finset.range width, entryAt reduction.form i j * entryAt reduction.inverse j k
    = entryAt original i k
  transform_inverse : ∀ i < width, ∀ k < width,
    ∑ j ∈ Finset.range width, entryAt reduction.transform i j * entryAt reduction.inverse j k = if i = k then 1 else 0

/-- A step on every row of a matrix. -/
theorem entryAt_of_mapM_onRow {results : List (List ℤ)} (valid : step.Valid width) (uniform : Uniform width rows)
    (done : rows.mapM step.onRow = .ok results) : results.length = rows.length ∧ Uniform width results
      ∧ ∀ i < rows.length, ∀ j, entryAt results i j = step.acts (entryAt rows i) j := by
  rw [mapM_ok] at done
  refine ⟨done.length_eq.symm, ?_, fun i inside j => ?_⟩
  · refine done.forall_mem ?_ uniform
    intro row result _ row_ok row_length
    exact (onRow_ok valid row_length row_ok).1
  · have inside_results : i < results.length := inside.trans_eq done.length_eq
    have row_ok := (forall₂_iff_get.mp done).2 i inside inside_results
    have row_length := uniform rows[i] (getElem_mem inside)
    have entries := (onRow_ok valid row_length row_ok).2 j
    have row_entries : entryAt rows i = fun column => rows[i].getD column 0 := by
      funext column
      rw [entryAt, getD_eq_getElem _ _ inside]
    rw [row_entries, entryAt, getD_eq_getElem _ _ inside_results]
    exact entries

theorem acts_zero (step : ColumnStep) (j : ℕ) : step.acts (fun _ => 0) j = 0 := by
  cases step with
  | swap first second => simp [acts]
  | negate target => simp [acts]
  | subtract target source factor => simp [acts]

theorem entryAt_of_length_le {i : ℕ} (beyond : rows.length ≤ i) : entryAt rows i = fun _ => 0 := by
  funext j
  rw [entryAt, getD_eq_default _ _ beyond, getD_nil]

section

variable (tracks : reduction.Tracks width original) (valid : step.Valid width) (applied : reduction.apply step = .ok next)
include tracks valid applied

/-- The reduced matrix after a step. -/
theorem entry_apply (i j : ℕ) :
    next.entry i j = step.acts (fun column => reduction.entry i column) j := by
  simp only [apply, bind_ok, pure_ok] at applied
  obtain ⟨form, form_ok, _, _, _, _, rfl⟩ := applied
  obtain ⟨length_eq, _, entries⟩ := entryAt_of_mapM_onRow valid tracks.form_uniform form_ok
  by_cases inside : i < reduction.form.length
  · exact entries i inside j
  · have beyond : reduction.form.length ≤ i := not_lt.mp inside
    show entryAt form i j = step.acts (entryAt reduction.form i) j
    rw [entryAt_of_length_le beyond, entryAt_of_length_le (length_eq.le.trans beyond), acts_zero]

/-- A valid step keeps the decomposition. -/
theorem Tracks.apply : next.Tracks width original := by
  have form_entries := entry_apply tracks valid applied
  simp only [ColumnReduction.apply, bind_ok, pure_ok] at applied
  obtain ⟨form, form_ok, transform, transform_ok, inverse, inverse_ok, rfl⟩ := applied
  obtain ⟨form_length, form_uniform, _⟩ := entryAt_of_mapM_onRow valid tracks.form_uniform form_ok
  obtain ⟨transform_length, transform_uniform, transform_entries⟩ :=
    entryAt_of_mapM_onRow valid tracks.transform_uniform transform_ok
  obtain ⟨inverse_length, inverse_uniform, inverse_entries⟩ :=
    onInverse_ok valid tracks.inverse_length tracks.inverse_uniform inverse_ok
  refine ⟨form_length.trans tracks.form_length, form_uniform, transform_length.trans tracks.transform_length,
    transform_uniform, inverse_length, inverse_uniform, fun i k => ?_, fun i i_lt k k_lt => ?_⟩
  · rw [← tracks.form_inverse i k, ← sum_acts valid (entryAt reduction.form i) fun row => entryAt reduction.inverse row k]
    apply sum_congr rfl
    intro j _
    rw [← inverse_entries j k]
    congr 1
    exact form_entries i j
  · rw [← tracks.transform_inverse i i_lt k k_lt,
      ← sum_acts valid (entryAt reduction.transform i) fun row => entryAt reduction.inverse row k]
    apply sum_congr rfl
    intro j _
    rw [← inverse_entries j k, ← transform_entries i (i_lt.trans_eq tracks.transform_length.symm) j]

end

/-! ### Steps on the free columns -/

/-- The columns before the first free one are unchanged, and rows that are clear in the free columns stay
    clear there. -/
structure Refines (width pivot : ℕ) (before after : ColumnReduction) : Prop where
  fixed : ∀ i, ∀ j < pivot, after.entry i j = before.entry i j
  clear : ∀ i, (∀ j, pivot ≤ j → j < width → before.entry i j = 0) → ∀ j, pivot ≤ j → j < width → after.entry i j = 0

theorem Refines.refl (width pivot : ℕ) (reduction : ColumnReduction) : Refines width pivot reduction reduction :=
  ⟨fun _ _ _ => rfl, fun _ clear => clear⟩

theorem Refines.trans {first second third : ColumnReduction} (before : Refines width pivot first second)
    (after : Refines width pivot second third) : Refines width pivot first third :=
  ⟨fun i j inside => (after.fixed i j inside).trans (before.fixed i j inside),
    fun i clear => after.clear i (before.clear i clear)⟩

/-- The columns of the step are free. -/
def IsFree (step : ColumnStep) (pivot : ℕ) : Prop :=
  match step with
  | .swap first second => pivot ≤ first ∧ pivot ≤ second
  | .negate target => pivot ≤ target
  | .subtract target source _ => pivot ≤ target ∧ pivot ≤ source

theorem refines_of_apply (tracks : reduction.Tracks width original)
    (valid : step.Valid width) (free : IsFree step pivot) (applied : reduction.apply step = .ok next) :
    Refines width pivot reduction next := by
  have entries := entry_apply tracks valid applied
  constructor
  · intro i j below
    rw [entries]
    cases step <;> simp only [IsFree] at free <;> simp only [acts] <;> split_ifs <;> omega
  · intro i clear j above inside
    rw [entries]
    cases step with
    | swap first second =>
      simp only [acts, clear first free.1 valid.1, clear second free.2 valid.2, clear j above inside, ite_self]
    | negate target =>
      simp only [acts, clear target free valid, clear j above inside, neg_zero, ite_self]
    | subtract target source factor =>
      simp only [acts, clear target free.1 valid.1, clear source free.2 valid.2.1, clear j above inside, zero_mul,
        sub_zero, ite_self]

theorem mem_columnsAfter_iff {column : ℕ} : column ∈ columnsAfter width pivot ↔ pivot < column ∧ column < width := by
  rw [columnsAfter, mem_drop_iff_getElem]
  constructor
  · rintro ⟨offset, inside, rfl⟩
    rw [length_range] at inside
    rw [getElem_range]
    omega
  · exact fun ⟨behind, inside⟩ => ⟨column - (pivot + 1), by rw [length_range]; omega, by rw [getElem_range]; omega⟩

theorem mem_drop_range_iff {column : ℕ} : column ∈ (List.range width).drop pivot ↔ pivot ≤ column ∧ column < width := by
  cases pivot with
  | zero => simp
  | succ pivot => exact mem_columnsAfter_iff

/-! ### Rounds -/

section Rounds

variable [Fault.Tolerates allowed]

theorem faultsIn_apply (reduction : ColumnReduction) (step : ColumnStep) : FaultsIn allowed (reduction.apply step) := by
  have on_row : ∀ row, FaultsIn allowed (step.onRow row) := by
    intro row
    cases step <;> simp [ColumnStep.onRow, ColumnStep.subtractScaled]
  have on_inverse : ∀ rows, FaultsIn allowed (step.onInverse rows) := by
    intro rows
    cases step <;> simp [ColumnStep.onInverse, ColumnStep.addScaled]
  simp [ColumnReduction.apply, on_row, on_inverse]

/-- A step on free columns. -/
theorem meets_apply (tracks : reduction.Tracks width original) (valid : step.Valid width)
    (free : IsFree step pivot) : Meets allowed (reduction.apply step) fun next => next.Tracks width original
      ∧ Refines width pivot reduction next ∧ ∀ i j, next.entry i j = step.acts (fun column => reduction.entry i column) j :=
  ⟨faultsIn_apply reduction step, fun _ applied =>
    ⟨tracks.apply valid applied, refines_of_apply tracks valid free applied, entry_apply tracks valid applied⟩⟩

theorem meets_reduceColumns {columns : List ℕ} (distinct : columns.Nodup)
    (inside : ∀ column ∈ columns, pivot < column ∧ column < width)
    (tracks : reduction.Tracks width original) : Meets allowed (reduction.reduceColumns row pivot columns) fun next =>
      next.Tracks width original ∧ Refines width pivot reduction next
        ∧ (∀ i, ∀ j ∉ columns, next.entry i j = reduction.entry i j)
        ∧ ∀ j ∈ columns, next.entry row j = (reduction.entry row j).fmod (reduction.entry row pivot) := by
  induction columns generalizing reduction with
  | nil => exact meets_pure ⟨tracks, .refl width pivot reduction, fun _ _ _ => rfl, by simp⟩
  | cons column later ih =>
    obtain ⟨⟨behind, column_lt⟩, later_inside⟩ := forall_mem_cons.mp inside
    obtain ⟨column_notMem, later_distinct⟩ := nodup_cons.mp distinct
    unfold reduceColumns
    by_cases vanishes : reduction.entry row column = 0
    · rw [if_pos vanishes]
      refine (ih later_distinct later_inside tracks).imp ?_
      rintro next ⟨next_tracks, refines, kept, remainders⟩
      refine ⟨next_tracks, refines, fun i j j_notMem => kept i j fun j_mem => j_notMem (mem_cons_of_mem _ j_mem), ?_⟩
      refine forall_mem_cons.mpr ⟨?_, remainders⟩
      rw [kept row column column_notMem, vanishes, Int.zero_fmod]
    · rw [if_neg vanishes]
      have valid : ColumnStep.Valid
          (.subtract column pivot ((reduction.entry row column).fdiv (reduction.entry row pivot))) width :=
        ⟨column_lt, behind.trans column_lt, behind.ne'⟩
      refine (meets_apply tracks valid ⟨behind.le, le_rfl⟩).bind ?_
      rintro stepped _ ⟨stepped_tracks, stepped_refines, entries⟩
      refine (ih later_distinct later_inside stepped_tracks).imp ?_
      rintro next ⟨next_tracks, refines, kept, remainders⟩
      have elsewhere : ∀ i, ∀ j ≠ column, stepped.entry i j = reduction.entry i j := fun i j other => by
        rw [entries, acts, if_neg other]
      refine ⟨next_tracks, stepped_refines.trans refines, fun i j j_notMem => ?_, forall_mem_cons.mpr ⟨?_, fun j j_mem => ?_⟩⟩
      · rw [kept i j fun j_mem => j_notMem (mem_cons_of_mem _ j_mem), elsewhere i j (ne_of_not_mem_cons j_notMem)]
      · rw [kept row column column_notMem, entries, acts, if_pos rfl, Int.fmod_def]
      · rw [remainders j j_mem, elsewhere row pivot behind.ne, elsewhere row j (ne_of_mem_of_not_mem j_mem column_notMem)]

theorem meets_smallestColumn (reduction : ColumnReduction) (columns : List ℕ) :
    Meets allowed (reduction.smallestColumn row columns) fun found =>
      (found = none → ∀ column ∈ columns, reduction.entry row column = 0)
        ∧ ∀ smallest ∈ found, smallest ∈ columns ∧ reduction.entry row smallest ≠ 0
          ∧ ∀ column ∈ columns, reduction.entry row column ≠ 0 →
            (reduction.entry row smallest).natAbs ≤ (reduction.entry row column).natAbs := by
  induction columns with
  | nil => exact meets_pure (by simp)
  | cons column later ih =>
    unfold smallestColumn
    by_cases vanishes : reduction.entry row column = 0
    · simp only [vanishes, if_true]
      refine ih.imp ?_
      rintro found ⟨none_case, some_case⟩
      refine ⟨fun is_none => forall_mem_cons.mpr ⟨vanishes, none_case is_none⟩, fun smallest is_some => ?_⟩
      obtain ⟨later_mem, nonzero, least⟩ := some_case smallest is_some
      exact ⟨mem_cons_of_mem column later_mem, nonzero, forall_mem_cons.mpr ⟨fun impossible => absurd vanishes impossible, least⟩⟩
    · simp only [vanishes, if_false]
      refine (Word.faultsIn_abs _).bind fun magnitude magnitude_ok => ih.bind ?_
      obtain ⟨_, rfl⟩ := Word.checked_ok_iff.mp magnitude_ok
      rintro best _ ⟨none_case, some_case⟩
      cases best with
      | none =>
        refine meets_pure ⟨by simp, ?_⟩
        rintro smallest ⟨⟩
        refine ⟨mem_cons_self, vanishes, forall_mem_cons.mpr ⟨fun _ => le_rfl, fun other other_mem nonzero => ?_⟩⟩
        exact absurd (none_case rfl other other_mem) nonzero
      | some other =>
        obtain ⟨other_mem, other_nonzero, other_least⟩ := some_case other rfl
        refine meets_pure ⟨by simp, ?_⟩
        rintro smallest ⟨⟩
        split_ifs with smaller
        · refine ⟨mem_cons_self, vanishes, forall_mem_cons.mpr ⟨fun _ => le_rfl, fun column column_mem nonzero => ?_⟩⟩
          have := other_least column column_mem nonzero
          omega
        · exact ⟨mem_cons_of_mem column other_mem, other_nonzero,
            forall_mem_cons.mpr ⟨fun _ => by omega, other_least⟩⟩

theorem meets_round {smallest : ℕ} (tracks : reduction.Tracks width original)
    (pivot_lt : pivot < width) (free : pivot ≤ smallest) (smallest_lt : smallest < width)
    (nonzero : reduction.entry row smallest ≠ 0) : Meets allowed (reduction.round width row pivot smallest) fun next =>
      next.Tracks width original ∧ Refines width pivot reduction next
        ∧ next.entry row pivot = (reduction.entry row smallest).natAbs
        ∧ ∀ j, pivot < j → j < width → 0 ≤ next.entry row j ∧ next.entry row j < next.entry row pivot := by
  have swapped_meets : Meets allowed (if smallest = pivot then .ok reduction else reduction.apply (.swap pivot smallest))
      fun swapped => swapped.Tracks width original ∧ Refines width pivot reduction swapped
        ∧ swapped.entry row pivot = reduction.entry row smallest := by
    split_ifs with same
    · exact meets_pure ⟨tracks, .refl width pivot reduction, by rw [same]⟩
    · have valid : ColumnStep.Valid (.swap pivot smallest) width := ⟨pivot_lt, smallest_lt⟩
      refine (meets_apply tracks valid ⟨le_rfl, free⟩).imp fun swapped ⟨swapped_tracks, refines, entries⟩ => ⟨swapped_tracks, refines, ?_⟩
      rw [entries, acts, if_neg (Ne.symm same), if_pos rfl]
  have positive_meets : ∀ {swapped : ColumnReduction}, swapped.Tracks width original →
      Meets allowed (if swapped.entry row pivot < 0 then swapped.apply (.negate pivot) else .ok swapped) fun positive =>
        positive.Tracks width original ∧ Refines width pivot swapped positive
          ∧ positive.entry row pivot = (swapped.entry row pivot).natAbs := by
    intro swapped swapped_tracks
    split_ifs with negative
    · have valid : ColumnStep.Valid (.negate pivot) width := pivot_lt
      have pivot_free : IsFree (.negate pivot) pivot := Nat.le_refl pivot
      refine (meets_apply swapped_tracks valid pivot_free).imp fun positive ⟨positive_tracks, refines, entries⟩ =>
        ⟨positive_tracks, refines, ?_⟩
      rw [entries, acts, if_pos rfl]
      omega
    · exact meets_pure ⟨swapped_tracks, .refl width pivot swapped, by omega⟩
  simp only [round, ite_bind]
  refine swapped_meets.bind fun swapped _ ⟨swapped_tracks, swapped_refines, swapped_entry⟩ => ?_
  refine (positive_meets swapped_tracks).bind fun positive _ ⟨positive_tracks, positive_refines, positive_entry⟩ => ?_
  have distinct : (columnsAfter width pivot).Nodup := (drop_sublist _ _).nodup nodup_range
  refine (meets_reduceColumns distinct (fun column column_mem => mem_columnsAfter_iff.mp column_mem) positive_tracks).imp ?_
  rintro next ⟨next_tracks, next_refines, kept, remainders⟩
  have pivot_entry : next.entry row pivot = positive.entry row pivot :=
    kept row pivot fun pivot_mem => (mem_columnsAfter_iff.mp pivot_mem).1.false
  refine ⟨next_tracks, swapped_refines.trans (positive_refines.trans next_refines), ?_, fun j behind inside => ?_⟩
  · rw [pivot_entry, positive_entry, swapped_entry]
  · have positive_pos : 0 < positive.entry row pivot := by
      rw [positive_entry, swapped_entry]
      omega
    rw [remainders j (mem_columnsAfter_iff.mpr ⟨behind, inside⟩), pivot_entry]
    exact ⟨Int.fmod_nonneg_of_pos _ positive_pos, Int.fmod_lt_of_pos _ positive_pos⟩

theorem meets_clearRow (pivot_lt : pivot < width) {rounds : ℕ} (tracks : reduction.Tracks width original) (positive : 0 < rounds)
    (enough : ∀ smallest, reduction.smallestColumn row ((List.range width).drop pivot) = .ok (some smallest) →
      (reduction.entry row smallest).natAbs < rounds) : Meets allowed (clearRow width row pivot rounds reduction) fun next =>
      next.Tracks width original ∧ Refines width pivot reduction next ∧ 0 ≤ next.entry row pivot
        ∧ ∀ j, pivot < j → j < width → next.entry row j = 0 := by
  induction rounds generalizing reduction with
  | zero => exact absurd positive (Nat.lt_irrefl 0)
  | succ rounds ih =>
    unfold clearRow
    refine (meets_smallestColumn reduction _).bind ?_
    rintro found searched ⟨none_case, some_case⟩
    cases found with
    | none =>
      have all_zero : ∀ j, pivot ≤ j → j < width → reduction.entry row j = 0 := fun j above inside =>
        none_case rfl j (mem_drop_range_iff.mpr ⟨above, inside⟩)
      exact meets_pure ⟨tracks, .refl width pivot reduction, (all_zero pivot le_rfl pivot_lt).ge,
        fun j behind => all_zero j behind.le⟩
    | some smallest =>
      obtain ⟨smallest_mem, nonzero, _⟩ := some_case smallest rfl
      obtain ⟨free, smallest_lt⟩ := mem_drop_range_iff.mp smallest_mem
      refine (meets_round tracks pivot_lt free smallest_lt nonzero).bind ?_
      rintro reduced _ ⟨reduced_tracks, refines, pivot_entry, remainders⟩
      have small := enough smallest searched
      split_ifs with finished
      · refine meets_pure ⟨reduced_tracks, refines, by omega, fun j behind inside => ?_⟩
        simpa using all_eq_true.mp finished j (mem_columnsAfter_iff.mpr ⟨behind, inside⟩)
      · -- a remainder is left, which is smaller than the pivot entry
        obtain ⟨j, j_mem, remains⟩ : ∃ j ∈ columnsAfter width pivot, reduced.entry row j ≠ 0 := by simpa using finished
        obtain ⟨behind, inside⟩ := mem_columnsAfter_iff.mp j_mem
        have remainder := remainders j behind inside
        refine (ih reduced_tracks (by omega) fun next next_found => ?_).imp fun next ⟨next_tracks, next_refines, rest⟩ =>
          ⟨next_tracks, refines.trans next_refines, rest⟩
        have next_meets : Meets allowed (reduced.smallestColumn row ((List.range width).drop pivot)) _ :=
          meets_smallestColumn reduced _
        have := ((next_meets.result _ next_found).2 next rfl).2.2 j (mem_drop_range_iff.mpr ⟨behind.le, inside⟩) remains
        omega

end Rounds

/-! ### Echelon form -/

/-- The first `done` rows are reduced: each of the first `pivot` columns has a positive pivot, below that of
    the column before, with zeros above it and to its right; the other columns are clear. -/
structure Echelon (width done pivot : ℕ) (reduction : ColumnReduction) : Prop where
  pivot_le : pivot ≤ width
  clear : ∀ i < done, ∀ j, pivot ≤ j → j < width → reduction.entry i j = 0
  pivots : ∃ pivotRow : ℕ → ℕ, ∀ column < pivot,
    pivotRow column < done ∧ 0 < reduction.entry (pivotRow column) column
      ∧ (∀ i < pivotRow column, reduction.entry i column = 0)
      ∧ (∀ j, column < j → j < width → reduction.entry (pivotRow column) j = 0)
      ∧ ∀ earlier < column, pivotRow earlier < pivotRow column

/-- Reducing one more row. -/
theorem Echelon.advance {cleared : ColumnReduction} (echelon : Echelon width done pivot reduction)
    (pivot_lt : pivot < width) (refines : Refines width pivot reduction cleared)
    (pivot_nonneg : 0 ≤ cleared.entry done pivot) (row_clear : ∀ j, pivot < j → j < width → cleared.entry done j = 0) :
    Echelon width (done + 1) (if cleared.entry done pivot = 0 then pivot else pivot + 1) cleared := by
  obtain ⟨pivotRow, pivots⟩ := echelon.pivots
  -- what is known of the old pivots and rows in the new matrix
  have old_clear : ∀ i < done, ∀ j, pivot ≤ j → j < width → cleared.entry i j = 0 := fun i i_lt =>
    refines.clear i (echelon.clear i i_lt)
  have old_pivots : ∀ column < pivot, pivotRow column < done ∧ 0 < cleared.entry (pivotRow column) column
      ∧ (∀ i < pivotRow column, cleared.entry i column = 0)
      ∧ (∀ j, column < j → j < width → cleared.entry (pivotRow column) j = 0)
      ∧ ∀ earlier < column, pivotRow earlier < pivotRow column := by
    intro column column_lt
    obtain ⟨row_lt, positive, above, right, increasing⟩ := pivots column column_lt
    refine ⟨row_lt, ?_, fun i i_lt => ?_, fun j behind inside => ?_, increasing⟩
    · rw [refines.fixed _ _ column_lt]
      exact positive
    · rw [refines.fixed _ _ column_lt]
      exact above i i_lt
    · by_cases below : j < pivot
      · rw [refines.fixed _ _ below]
        exact right j behind inside
      · exact old_clear _ row_lt j (not_lt.mp below) inside
  by_cases vanishes : cleared.entry done pivot = 0
  · rw [if_pos vanishes]
    refine ⟨echelon.pivot_le, fun i i_lt j above inside => ?_, pivotRow, fun column column_lt => ?_⟩
    · rcases Nat.lt_succ_iff_lt_or_eq.mp i_lt with earlier | rfl
      · exact old_clear i earlier j above inside
      · rcases above.eq_or_lt with rfl | behind
        · exact vanishes
        · exact row_clear j behind inside
    · obtain ⟨row_lt, rest⟩ := old_pivots column column_lt
      exact ⟨by omega, rest⟩
  · rw [if_neg vanishes]
    refine ⟨pivot_lt, fun i i_lt j above inside => ?_,
      fun column => if column = pivot then done else pivotRow column, fun column column_lt => ?_⟩
    · rcases Nat.lt_succ_iff_lt_or_eq.mp i_lt with earlier | rfl
      · exact old_clear i earlier j (by omega) inside
      · exact row_clear j (by omega) inside
    · by_cases is_new : column = pivot
      · subst is_new
        simp only [if_true]
        refine ⟨by omega, lt_of_le_of_ne pivot_nonneg (Ne.symm vanishes), fun i i_lt => ?_, row_clear, ?_⟩
        · exact old_clear i i_lt column le_rfl pivot_lt
        · intro earlier earlier_lt
          rw [if_neg earlier_lt.ne]
          exact (old_pivots earlier earlier_lt).1
      · obtain ⟨row_lt, positive, above, right, increasing⟩ := old_pivots column (by omega)
        simp only [if_neg is_new]
        refine ⟨by omega, positive, above, right, fun earlier earlier_lt => ?_⟩
        rw [if_neg (by omega)]
        exact increasing earlier earlier_lt

theorem Echelon.of_full {height : ℕ} (echelon : Echelon width done pivot reduction)
    (full : width ≤ pivot) (more : done ≤ height) : Echelon width height pivot reduction := by
  obtain ⟨pivotRow, pivots⟩ := echelon.pivots
  refine ⟨echelon.pivot_le, fun i _ j above inside => by omega, pivotRow, fun column column_lt => ?_⟩
  obtain ⟨row_lt, rest⟩ := pivots column column_lt
  exact ⟨by omega, rest⟩

theorem natAbs_entry_le (reduction : ColumnReduction) (row column : ℕ) :
    (reduction.entry row column).natAbs ≤ reduction.rowMagnitude row := by
  by_cases inside : column < (reduction.form.getD row []).length
  · rw [entry, getD_eq_getElem _ _ inside]
    exact le_foldl_max Int.natAbs (getElem_mem inside)
  · rw [entry, getD_eq_default _ _ (not_lt.mp inside)]
    exact Nat.zero_le _

theorem meets_reduceRows [Fault.Tolerates allowed] {left height : ℕ}
    (height_eq : done + left = height) (tracks : reduction.Tracks width original) (echelon : Echelon width done pivot reduction) :
    Meets allowed (reduceRows width ((List.range left).map (done + ·)) pivot reduction) fun final =>
      final.Tracks width original ∧ ∃ rank, Echelon width height rank final := by
  induction left generalizing done pivot reduction with
  | zero => exact meets_pure ⟨tracks, pivot, height_eq ▸ echelon⟩
  | succ left ih =>
    rw [range_succ_eq_map, List.map_cons, List.map_map, Nat.add_zero]
    unfold reduceRows
    split_ifs with full
    · exact meets_pure ⟨tracks, pivot, echelon.of_full full (by omega)⟩
    · refine (meets_clearRow (not_le.mp full) tracks (Nat.succ_pos _) fun smallest _ =>
        Nat.lt_succ_of_le (natAbs_entry_le reduction done smallest)).bind ?_
      rintro cleared _ ⟨cleared_tracks, refines, pivot_nonneg, row_clear⟩
      have next_rows : (List.range left).map ((done + ·) ∘ Nat.succ) = (List.range left).map (done + 1 + ·) := by
        apply map_congr_left
        intro offset _
        simp only [Function.comp_apply]
        omega
      rw [next_rows]
      exact ih (by omega) cleared_tracks (echelon.advance (not_le.mp full) refines pivot_nonneg row_clear)

end ColumnReduction

/-! ### The decomposition of a matrix -/

theorem RowMatrix.meets_ofRows {cols : ℕ} (uniform : ColumnStep.Uniform cols rows) :
    Meets allowed (ofRows cols rows) fun matrix => matrix.cols = cols ∧ matrix.rows = rows := by
  unfold ofRows
  split
  · exact meets_pure ⟨rfl, rfl⟩
  · exact absurd uniform ‹_›

theorem entryAt_identity {size : ℕ} (row_lt : row < size) (column : ℕ) :
    entryAt (RowMatrix.identity size).rows row column = if row = column then 1 else 0 := by
  have row_eq : (RowMatrix.identity size).rows.getD row [] = unitRow size row := by
    simp [RowMatrix.identity, getD_eq_getElem?_getD, row_lt]
  rw [entryAt, row_eq, unitRow]
  by_cases column_lt : column < size
  · simp [getD_eq_getElem?_getD, column_lt, eq_comm]
  · have different : row ≠ column := by omega
    simp [getD_eq_getElem?_getD, column_lt, different]

theorem RowMatrix.countLeading_eq {rank : ℕ} (rank_le : rank ≤ width)
    (nonzero : ∀ column < rank, ∃ row ∈ rows, row.getD column 0 ≠ 0)
    (clear : rank < width → ∀ row ∈ rows, row.getD rank 0 = 0) : countLeading width rows = rank := by
  have head_eq : ∀ row : List ℤ, row.headD 0 = row.getD 0 0 := by
    intro row
    cases row <;> rfl
  induction width generalizing rank rows with
  | zero => exact (Nat.le_zero.mp rank_le).symm
  | succ width ih =>
    unfold countLeading
    cases rank with
    | zero =>
      rw [if_neg]
      simp only [any_eq_true, decide_eq_true_eq, not_exists, not_and, not_not]
      intro row row_mem
      rw [head_eq]
      exact clear (Nat.succ_pos width) row row_mem
    | succ rank =>
      obtain ⟨row, row_mem, head_nonzero⟩ := nonzero 0 (Nat.succ_pos rank)
      have tail_eq : ∀ (row : List ℤ) (column : ℕ), row.tail.getD column 0 = row.getD (column + 1) 0 := by
        intro row column
        cases row <;> simp
      rw [if_pos (any_eq_true.mpr ⟨row, row_mem, by rw [head_eq]; simpa using head_nonzero⟩)]
      congr 1
      refine ih (Nat.le_of_succ_le_succ rank_le) (fun column column_lt => ?_) fun rank_lt other other_mem => ?_
      · obtain ⟨other, other_mem, other_nonzero⟩ := nonzero (column + 1) (Nat.succ_lt_succ column_lt)
        exact ⟨other.tail, mem_map_of_mem other_mem, by rw [tail_eq]; exact other_nonzero⟩
      · obtain ⟨whole, whole_mem, rfl⟩ := mem_map.mp other_mem
        rw [tail_eq]
        exact clear (Nat.succ_lt_succ rank_lt) whole whole_mem

namespace HermiteForm

/-- The matrices of a decomposition as a finished reduction. -/
def reduction (hermite : HermiteForm) : ColumnReduction :=
  { form := hermite.form.rows, transform := hermite.transform.rows, inverse := hermite.inverse.rows }

/-- The matrix is the product of an echelon form and the inverse of a unimodular transformation, and the
    rank counts the pivots. -/
structure Decomposes (hermite : HermiteForm) (matrix : RowMatrix) : Prop where
  tracks : hermite.reduction.Tracks matrix.cols matrix.rows
  echelon : ColumnReduction.Echelon matrix.cols matrix.height hermite.rank hermite.reduction
  form_cols : hermite.form.cols = matrix.cols
  transform_cols : hermite.transform.cols = matrix.cols
  inverse_cols : hermite.inverse.cols = matrix.cols

end HermiteForm

/-- A matrix is decomposed, unless a number leaves its range or the transformation has too many rows to make. -/
theorem RowMatrix.meets_hermite (matrix : RowMatrix) :
    Meets (Fault.Limits matrix.cols) matrix.hermite (·.Decomposes matrix) := by
  have start_tracks : ColumnReduction.Tracks
      { form := matrix.rows, transform := (RowMatrix.identity matrix.cols).rows,
        inverse := (RowMatrix.identity matrix.cols).rows } matrix.cols matrix.rows := by
    have identity_uniform : ColumnStep.Uniform matrix.cols (RowMatrix.identity matrix.cols).rows :=
      (RowMatrix.identity matrix.cols).uniform
    have identity_length : (RowMatrix.identity matrix.cols).rows.length = matrix.cols := by simp [RowMatrix.identity]
    refine ⟨rfl, matrix.uniform, identity_length, identity_uniform, identity_length, identity_uniform,
      fun i k => ?_, fun i i_lt k k_lt => ?_⟩
    · rw [sum_congr rfl fun j j_mem => by rw [entryAt_identity (Finset.mem_range.mp j_mem)]]
      by_cases inside : k < matrix.cols
      · simp [inside]
      · have beyond : entryAt matrix.rows i k = 0 := by
          by_cases i_lt : i < matrix.rows.length
          · rw [entryAt, getD_eq_default]
            rw [ColumnStep.Uniform.getD_length matrix.uniform i_lt]
            exact not_lt.mp inside
          · rw [ColumnReduction.entryAt_of_length_le (not_lt.mp i_lt)]
        simp [inside, beyond]
    · rw [sum_congr rfl fun j j_mem => by rw [entryAt_identity i_lt, entryAt_identity (Finset.mem_range.mp j_mem)]]
      simp [k_lt]
  have start_echelon : ColumnReduction.Echelon matrix.cols 0 0
      { form := matrix.rows, transform := (RowMatrix.identity matrix.cols).rows,
        inverse := (RowMatrix.identity matrix.cols).rows } :=
    ⟨Nat.zero_le _, by simp, fun _ => 0, by simp⟩
  have rows_eq : List.range matrix.height = (List.range matrix.height).map (0 + ·) := by simp
  unfold RowMatrix.hermite
  refine FaultsIn.bind (faultsIn_bind_iff.mpr ⟨Size.limits_reserve _, fun _ _ => faultsIn_pure _⟩) fun unit unit_ok => ?_
  obtain ⟨_, rfl⟩ := Size.make_ok_iff.mp unit_ok
  rw [rows_eq]
  refine (ColumnReduction.meets_reduceRows (Nat.zero_add _) start_tracks start_echelon).bind ?_
  rintro reduced _ ⟨tracks, rank, echelon⟩
  refine (meets_ofRows tracks.form_uniform).bind ?_
  rintro form _ ⟨form_cols, form_rows⟩
  refine (meets_ofRows tracks.transform_uniform).bind ?_
  rintro transform _ ⟨transform_cols, transform_rows⟩
  refine (meets_ofRows tracks.inverse_uniform).bind ?_
  rintro inverse _ ⟨inverse_cols, inverse_rows⟩
  have reduced_eq : HermiteForm.reduction
      { form := form, transform := transform, inverse := inverse, rank := form.leadingColumns } = reduced := by
    simp [HermiteForm.reduction, form_rows, transform_rows, inverse_rows]
  have rank_eq : form.leadingColumns = rank := by
    obtain ⟨pivotRow, pivots⟩ := echelon.pivots
    have form_height : reduced.form.length = matrix.height := tracks.form_length
    rw [leadingColumns, form_cols, form_rows]
    apply countLeading_eq echelon.pivot_le
    · intro column column_lt
      obtain ⟨row_lt, positive, _⟩ := pivots column column_lt
      have inside : pivotRow column < reduced.form.length := row_lt.trans_eq form_height.symm
      refine ⟨reduced.form[pivotRow column], getElem_mem inside, ?_⟩
      have entry_pos := positive.ne'
      rw [ColumnReduction.entry, getD_eq_getElem _ _ inside] at entry_pos
      exact entry_pos
    · intro rank_lt row row_mem
      obtain ⟨i, inside, rfl⟩ := getElem_of_mem row_mem
      have zero := echelon.clear i (inside.trans_eq form_height) rank le_rfl rank_lt
      rw [ColumnReduction.entry, getD_eq_getElem _ _ inside] at zero
      exact zero
  refine meets_pure ⟨?_, ?_, form_cols, transform_cols, inverse_cols⟩
  · rw [reduced_eq]
    exact tracks
  · rw [reduced_eq]
    simp only [rank_eq]
    exact echelon

@[simp] theorem RowMatrix.routine_hermite (matrix : RowMatrix) : Routine matrix.hermite :=
  matrix.meets_hermite.faults.mono Fault.Limits.routine

theorem RowMatrix.decomposes_of_hermite {matrix : RowMatrix} {hermite : HermiteForm} (done : matrix.hermite = .ok hermite) :
    hermite.Decomposes matrix := matrix.meets_hermite.result hermite done

end AffineSchedule
