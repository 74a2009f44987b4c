import AffineSchedule.Farkas
import AffineSchedule.Proofs.RationalPoints
import AffineSchedule.Proofs.Relation

namespace AffineSchedule

open Checked List Finset AffineForm Cone Linear

/-! ### Farkas' lemma -/

variable {count : ℕ} {forms : List AffineForm} {multiplier : ℕ → ℚ}

section Farkas

variable {V : Type} [AddCommGroup V] [Module ℚ V] {forms : ℕ → Module.Dual ℚ V} {target : Module.Dual ℚ V}

theorem exists_descent (implied : ∀ v, (∀ j < count + 1, 0 ≤ forms j v) → 0 ≤ target v)
    (needed : ¬ ∀ v, (∀ j < count, 0 ≤ forms j v) → 0 ≤ target v) :
    ∃ u, forms count u = -1 ∧ (∀ j < count, 0 ≤ forms j u) ∧ target u < 0 := by
  obtain ⟨v, refused⟩ := not_forall.mp needed
  obtain ⟨others_nonneg, not_nonneg⟩ := Classical.not_imp.mp refused
  have target_neg := not_le.mp not_nonneg
  have last_neg : forms count v < 0 := by
    by_contra nonneg
    refine absurd (implied v fun j j_lt => ?_) (not_le.mpr target_neg)
    rcases Nat.lt_succ_iff_lt_or_eq.mp j_lt with below | rfl
    · exact others_nonneg j below
    · exact not_lt.mp nonneg
  have scale_pos : 0 < (-forms count v)⁻¹ := inv_pos.mpr (neg_pos.mpr last_neg)
  refine ⟨(-forms count v)⁻¹ • v, ?_, fun j j_lt => ?_, ?_⟩
  · rw [map_smul, smul_eq_mul, inv_neg, neg_mul, inv_mul_cancel₀ last_neg.ne]
  · rw [map_smul, smul_eq_mul]
    exact mul_nonneg scale_pos.le (others_nonneg j j_lt)
  · rw [map_smul, smul_eq_mul]
    exact mul_neg_of_pos_of_neg scale_pos target_neg

/-- A combination with one more multiplier. -/
theorem sum_update (multiplier : ℕ → ℚ) (last : ℚ) (v : V) :
    ∑ j ∈ Finset.range (count + 1), Function.update multiplier count last j * forms j v
      = ∑ j ∈ Finset.range count, multiplier j * forms j v + last * forms count v := by
  rw [Finset.sum_range_succ, Function.update_self]
  congr 1
  exact sum_congr rfl fun j j_mem => by rw [Function.update_of_ne (Finset.mem_range.mp j_mem).ne]

theorem update_nonneg (nonneg : ∀ j, 0 ≤ multiplier j) {last : ℚ} (last_nonneg : 0 ≤ last) (j : ℕ) :
    0 ≤ Function.update multiplier count last j := by
  rcases eq_or_ne j count with rfl | other
  · rwa [Function.update_self]
  · rw [Function.update_of_ne other]
    exact nonneg j

end Farkas

theorem exists_nonneg_combination {V : Type} [AddCommGroup V] [Module ℚ V] (count : ℕ) (forms : ℕ → Module.Dual ℚ V)
    (target : Module.Dual ℚ V) (implied : ∀ v, (∀ j < count, 0 ≤ forms j v) → 0 ≤ target v) :
    ∃ multiplier : ℕ → ℚ, (∀ j, 0 ≤ multiplier j) ∧ ∀ v, target v = ∑ j ∈ Finset.range count, multiplier j * forms j v := by
  induction count generalizing forms target with
  | zero =>
    refine ⟨fun _ => 0, fun _ => le_rfl, fun v => ?_⟩
    have above := implied v (by simp)
    have below := implied (-v) (by simp)
    rw [map_neg] at below
    rw [Finset.range_zero, sum_empty]
    linarith
  | succ count ih =>
    by_cases needless : ∀ v, (∀ j < count, 0 ≤ forms j v) → 0 ≤ target v
    · obtain ⟨multiplier, nonneg, target_eq⟩ := ih forms target needless
      refine ⟨Function.update multiplier count 0, update_nonneg nonneg le_rfl, fun v => ?_⟩
      rw [sum_update, zero_mul, add_zero, target_eq]
    · obtain ⟨u, last_u, others_u, target_u⟩ := exists_descent implied needless
      have projected : ∀ (form : Module.Dual ℚ V) (w : V), (form + form u • forms count) w = form (w + forms count w • u) := by
        intro form w
        rw [LinearMap.add_apply, LinearMap.smul_apply, map_add, map_smul, smul_eq_mul, smul_eq_mul, mul_comm]
      obtain ⟨multiplier, nonneg, target_eq⟩ := ih (fun j => forms j + forms j u • forms count)
        (target + target u • forms count) (by
          intro w others
          rw [projected]
          refine implied _ fun j j_lt => ?_
          rcases Nat.lt_succ_iff_lt_or_eq.mp j_lt with below | rfl
          · rw [← projected]
            exact others j below
          · rw [map_add, map_smul, last_u, smul_eq_mul, mul_neg_one, add_neg_cancel])
      have share_nonneg : 0 ≤ ∑ j ∈ Finset.range count, multiplier j * forms j u - target u := by
        have sum_nonneg : 0 ≤ ∑ j ∈ Finset.range count, multiplier j * forms j u :=
          Finset.sum_nonneg fun j j_mem => mul_nonneg (nonneg j) (others_u j (Finset.mem_range.mp j_mem))
        linarith
      refine ⟨Function.update multiplier count (∑ j ∈ Finset.range count, multiplier j * forms j u - target u),
        update_nonneg nonneg share_nonneg, fun w => ?_⟩
      have expanded := target_eq w
      simp only [LinearMap.add_apply, LinearMap.smul_apply, smul_eq_mul, mul_add, sum_add_distrib, ← mul_assoc,
        ← sum_mul] at expanded
      rw [sum_update, sub_mul]
      linarith

/-! ### Inequalities of a conjunct -/

variable {conjunct : Conjunct} {kind : ConeKind} {cone : Cone} {inputs outputs : ℕ} {groups : List (List AffineForm)}

/-- The expressions that a constraint keeps non-negative. -/
theorem Constraint.inequalities_ok {constraint : Constraint} (done : constraint.inequalities = .ok forms) :
    (∀ form ∈ forms, form.HasLayout constraint.form.coeffs.length constraint.form.params.length)
      ∧ ∀ dims params : ℕ → ℚ, (∀ form ∈ forms, 0 ≤ form.rationalValue dims params) ↔
          constraint.sense.Admits (constraint.form.rationalValue dims params) := by
  unfold inequalities at done
  cases sense : constraint.sense with
  | nonnegative =>
    simp only [sense, Except.ok.injEq] at done
    simp [← done, AffineForm.HasLayout, Sense.Admits]
  | zero =>
    simp only [sense, bind_ok, pure_ok] at done
    obtain ⟨negated, negated_ok, rfl⟩ := done
    simp only [List.forall_mem_cons, not_mem_nil, false_imp_iff, implies_true, and_true,
      rationalValue_scale negated_ok]
    refine ⟨⟨⟨rfl, rfl⟩, (value_scale negated_ok (fun _ => 0) fun _ => 0).1⟩, fun dims params => ?_⟩
    rw [Int.cast_neg, Int.cast_one, neg_one_mul, neg_nonneg]
    exact ⟨fun both => le_antisymm both.2 both.1, fun vanishes => ⟨vanishes.ge, vanishes.le⟩⟩

theorem Conjunct.inequalities_spec (laid_out : conjunct.LaidOut inputs outputs count)
    (done : conjunct.system.constraints.mapM (·.inequalities) = .ok groups) :
    (∀ form ∈ groups.flatten, form.HasLayout conjunct.columns conjunct.params)
      ∧ ∀ columns params : ℕ → ℚ, (∀ form ∈ groups.flatten, 0 ≤ form.rationalValue columns params) ↔
          conjunct.system.HoldsAt columns params := by
  rw [mapM_ok] at done
  refine ⟨?_, fun columns params => ?_⟩
  · intro form form_mem
    obtain ⟨group, group_mem, form_mem⟩ := mem_flatten.mp form_mem
    obtain ⟨constraint, constraint_mem, group_ok⟩ := done.exists_left group_mem
    have layout := (Constraint.inequalities_ok group_ok).1 form form_mem
    have constraint_layout := laid_out.system constraint constraint_mem
    exact ⟨layout.1.trans (constraint_layout.1.trans laid_out.dim), layout.2.trans constraint_layout.2⟩
  · rw [forall_mem_flatten]
    exact done.forall_mem_iff fun _ _ _ group_ok => (Constraint.inequalities_ok group_ok).2 columns params

namespace Cone

variable {mapping : List Linear.Form} {column index : ℕ} {sign : ℤ} {σ : Linear.Assignment}

/-! ### Combinations of inequalities -/

/-- The sum of the entries of the inequalities, each times its multiplier. -/
def combined (entry : AffineForm → ℚ) (forms : List AffineForm) (multiplier : ℕ → ℚ) : ℚ :=
  ∑ j ∈ Finset.range forms.length, multiplier j * entry (forms.getD j default)

theorem combined_value {dim : ℕ} (layout : ∀ form ∈ forms, form.HasLayout dim count) (columns params : ℕ → ℚ)
    (multiplier : ℕ → ℚ) : combined (·.rationalValue columns params) forms multiplier
      = combined (·.constant) forms multiplier + ∑ k ∈ Finset.range dim, combined (·.coeff k) forms multiplier * columns k
        + ∑ i ∈ Finset.range count, combined (·.paramCoeff i) forms multiplier * params i := by
  simp only [combined, sum_mul]
  rw [sum_comm, sum_comm (s := Finset.range count), ← sum_add_distrib, ← sum_add_distrib]
  refine sum_congr rfl fun j j_mem => ?_
  have inside := Finset.mem_range.mp j_mem
  obtain ⟨dim_eq, count_eq⟩ := layout _ (getElem_mem inside)
  rw [getD_eq_getElem _ _ inside, rationalValue, dim_eq, count_eq]
  simp only [mul_add, mul_sum, mul_assoc]

/-- The functional with given weights on columns, parameters and a scale. -/
def weighing (dim count : ℕ) (columnWeights paramWeights : ℕ → ℚ) (constant : ℚ) :
    Module.Dual ℚ ((ℕ → ℚ) × (ℕ → ℚ) × ℚ) where
  toFun v := ∑ k ∈ Finset.range dim, columnWeights k * v.1 k + ∑ i ∈ Finset.range count, paramWeights i * v.2.1 i
    + constant * v.2.2
  map_add' v w := by
    simp only [Prod.fst_add, Prod.snd_add, Pi.add_apply, mul_add, sum_add_distrib]
    ring
  map_smul' scale v := by
    simp only [Prod.smul_fst, Prod.smul_snd, Pi.smul_apply, smul_eq_mul, RingHom.id_apply, mul_add, mul_sum,
      mul_left_comm]

theorem weighing_apply (dim count : ℕ) (columnWeights paramWeights : ℕ → ℚ) (constant : ℚ) (columns params : ℕ → ℚ)
    (scale : ℚ) : weighing dim count columnWeights paramWeights constant (columns, params, scale)
      = ∑ k ∈ Finset.range dim, columnWeights k * columns k + ∑ i ∈ Finset.range count, paramWeights i * params i
        + constant * scale := rfl

/-- The functionals that are non-negative on the cone over the points where all forms are: the scale, then each form. -/
def generator (forms : List AffineForm) (dim count : ℕ) : ℕ → Module.Dual ℚ ((ℕ → ℚ) × (ℕ → ℚ) × ℚ)
  | 0 => weighing 0 0 0 0 1
  | j + 1 => weighing dim count ((forms.getD j default).coeff ·) ((forms.getD j default).paramCoeff ·) (forms.getD j default).constant

section Implied

variable {columns params : ℕ → ℚ} {v : (ℕ → ℚ) × (ℕ → ℚ) × ℚ} {dim : ℕ}
  (layout : ∀ form ∈ forms, form.HasLayout dim count) {columnWeights paramWeights : ℕ → ℚ} {constant : ℚ}
  (implied : ∀ columns params : ℕ → ℚ, (∀ form ∈ forms, 0 ≤ form.rationalValue columns params) → 0 ≤ weighing dim count columnWeights paramWeights constant (columns, params, 1))
include layout implied

theorem weighing_nonneg_of_pos (positive : 0 < v.2.2)
    (others : ∀ form ∈ forms, 0 ≤ weighing dim count (form.coeff ·) (form.paramCoeff ·) form.constant v) :
    0 ≤ weighing dim count columnWeights paramWeights constant v := by
  obtain ⟨columns, params, scale⟩ := v
  have scaled : (columns, params, scale) = scale • (scale⁻¹ • columns, scale⁻¹ • params, (1 : ℚ)) := by
    simp [smul_smul, mul_inv_cancel₀ positive.ne']
  rw [scaled, map_smul, smul_eq_mul]
  refine mul_nonneg positive.le (implied _ _ fun form form_mem => ?_)
  have form_nonneg := others form form_mem
  rw [scaled, map_smul, smul_eq_mul, weighing_apply, mul_one] at form_nonneg
  rw [rationalValue, (layout form form_mem).1, (layout form form_mem).2, add_assoc, add_comm]
  exact nonneg_of_mul_nonneg_right form_nonneg positive

section

variable (inside : ∀ form ∈ forms, 0 ≤ form.rationalValue columns params)
include inside

theorem weighing_nonneg (scale_nonneg : 0 ≤ v.2.2)
    (others : ∀ form ∈ forms, 0 ≤ weighing dim count (form.coeff ·) (form.paramCoeff ·) form.constant v) :
    0 ≤ weighing dim count columnWeights paramWeights constant v := by
  by_contra negative
  have at_point := implied columns params inside
  set target := weighing dim count columnWeights paramWeights constant with target_def
  -- the point weighs so little that the sum is still negative
  have share_pos : 0 < -target v / (target (columns, params, 1) + 1) := div_pos (by linarith) (by linarith)
  have share_eq : -target v / (target (columns, params, 1) + 1) * (target (columns, params, 1) + 1) = -target v :=
    div_mul_cancel₀ _ (by linarith)
  generalize -target v / (target (columns, params, 1) + 1) = share at share_pos share_eq
  have above := weighing_nonneg_of_pos layout implied (v := v + share • (columns, params, (1 : ℚ)))
    (by simpa using add_pos_of_nonneg_of_pos scale_nonneg share_pos) fun form form_mem => by
      have form_inside := inside form form_mem
      rw [rationalValue, (layout form form_mem).1, (layout form form_mem).2] at form_inside
      rw [map_add, map_smul, smul_eq_mul, weighing_apply _ _ _ _ _ columns]
      exact add_nonneg (others form form_mem) (mul_nonneg share_pos.le (by linarith))
  rw [← target_def, map_add, map_smul, smul_eq_mul] at above
  linarith

theorem exists_multipliers :
    ∃ multiplier : ℕ → ℚ, (∀ j, 0 ≤ multiplier j) ∧ combined (·.constant) forms multiplier ≤ constant
      ∧ (∀ k < dim, combined (·.coeff k) forms multiplier = columnWeights k)
      ∧ ∀ i < count, combined (·.paramCoeff i) forms multiplier = paramWeights i := by
  obtain ⟨multiplier, nonneg, target_eq⟩ := exists_nonneg_combination (forms.length + 1) (generator forms dim count)
    (weighing dim count columnWeights paramWeights constant) fun v all_nonneg => by
      refine weighing_nonneg layout implied inside (v := v) ?_ fun form form_mem => ?_
      · simpa [generator, weighing] using all_nonneg 0 (Nat.succ_pos _)
      · obtain ⟨j, j_lt, rfl⟩ := getElem_of_mem form_mem
        simpa only [generator, getD_eq_getElem _ _ j_lt] using all_nonneg (j + 1) (Nat.succ_lt_succ j_lt)
  have at_vector : ∀ v, weighing dim count columnWeights paramWeights constant v = combined (fun form =>
      weighing dim count (form.coeff ·) (form.paramCoeff ·) form.constant v) forms (fun j => multiplier (j + 1))
        + multiplier 0 * v.2.2 := by
    intro v
    rw [target_eq, Finset.sum_range_succ']
    simp [generator, combined, weighing]
  refine ⟨fun j => multiplier (j + 1), fun j => nonneg (j + 1), ?_, fun k k_lt => ?_, fun i i_lt => ?_⟩
  · have at_constant := at_vector (0, 0, 1)
    simp only [weighing_apply, Pi.zero_apply, mul_zero, sum_const_zero, zero_add, mul_one] at at_constant
    linarith [nonneg 0]
  · have at_column := at_vector (Pi.single k 1, 0, 0)
    simpa [weighing_apply, Pi.single_apply, k_lt] using at_column.symm
  · have at_param := at_vector (0, Pi.single i 1, 0)
    simpa [weighing_apply, Pi.single_apply, i_lt] using at_param.symm

end

end Implied

/-! ### Rows of a cone -/

/-- The sum of the values, each times its weight. -/
def weigh (weights : List ℤ) (values : ℕ → ℚ) : ℚ := ∑ k ∈ Finset.range weights.length, (weights.getD k 0 : ℚ) * values k

theorem weigh_cons (weight : ℤ) (later : List ℤ) (values : ℕ → ℚ) :
    weigh (weight :: later) values = weight * values 0 + weigh later fun k => values (k + 1) := by
  rw [weigh, length_cons, Finset.sum_range_succ', add_comm]
  rfl

theorem weigh_replicate_zero (count : ℕ) (values : ℕ → ℚ) : weigh (List.replicate count 0) values = 0 :=
  sum_eq_zero fun k _ => by simp

/-- A single weight picks one value. -/
theorem weigh_singleWeight {dim : ℕ} (inside : index < dim) (weight : ℤ) (values : ℕ → ℚ) :
    weigh (singleWeight dim index weight) values = weight * values index := by
  rw [weigh, sum_eq_single index]
  · simp [singleWeight, inside]
  · intro other _ different
    have entry_eq : (singleWeight dim index weight).getD other 0 = 0 := by
      rw [singleWeight, getD_eq_getElem?_getD, getElem?_set_ne (Ne.symm different), ← getD_eq_getElem?_getD]
      simp
    rw [entry_eq, Int.cast_zero, zero_mul]
  · simp [singleWeight, inside]

/-- The negated entries of the inequalities, at the multipliers. -/
theorem weigh_negatedEntries {lookup : AffineForm → Option ℤ} {multipliers : List ℤ} (entry : AffineForm → ℤ)
    (agrees : ∀ form value, lookup form = some value → entry form = value)
    (done : negatedEntries forms lookup = .ok multipliers) (multiplier : ℕ → ℚ) :
    weigh multipliers multiplier = -combined (entry ·) forms multiplier := by
  rw [negatedEntries, mapM_ok] at done
  rw [weigh, combined, ← done.length_eq, ← sum_neg_distrib]
  refine sum_congr rfl fun j j_mem => ?_
  have inside := Finset.mem_range.mp j_mem
  have form_at : forms[j]? = some forms[j] := getElem?_eq_getElem inside
  obtain ⟨word, word_at, word_ok⟩ := done.getElem?_right form_at
  simp only [bind_ok, ofOption_ok, Word.neg_ok] at word_ok
  obtain ⟨value, found, _, rfl⟩ := word_ok
  rw [getD_eq_getElem?_getD, word_at, getD_eq_getElem?_getD, form_at, Option.getD_some, Option.getD_some, agrees _ value found]
  push_cast
  ring

/-- The multipliers make the rows of the cone hold for the coefficients. -/
def AdmitsWith (cone : Cone) (coefficients multiplier : ℕ → ℚ) : Prop :=
  ∀ row ∈ cone.rows, row.sense.Admits (weigh row.coefficients coefficients + weigh row.multipliers multiplier)

/-- Some non-negative multipliers make the rows of the cone hold for the coefficients. -/
def Admits (cone : Cone) (coefficients : ℕ → ℚ) : Prop :=
  ∃ multiplier : ℕ → ℚ, (∀ j, 0 ≤ multiplier j) ∧ cone.AdmitsWith coefficients multiplier

/-! ### The form of the coefficients -/

/-- What the dimension coefficient at a position is multiplied with. -/
def dimensionValue (kind : ConeKind) (conjunct : Conjunct) (columns : ℕ → ℚ) (index : ℕ) : ℚ :=
  match kind with
  | .distance => columns (conjunct.inputs + index) - columns index
  | .paired => columns index

/-- The affine form with given coefficients, at the columns of a conjunct. -/
def formValue (kind : ConeKind) (conjunct : Conjunct) (coefficients columns params : ℕ → ℚ) : ℚ :=
  coefficients 0 + ∑ i ∈ Finset.range conjunct.params, params i * coefficients (1 + i)
    + ∑ k ∈ Finset.range (dimCoefficients kind conjunct),
        dimensionValue kind conjunct columns k * coefficients (1 + conjunct.params + k)

/-- The weight that a row puts on the coefficients for a column of the conjunct. -/
def columnWeight (kind : ConeKind) (conjunct : Conjunct) (coefficients : ℕ → ℚ) (column : ℕ) : ℚ :=
  match columnCoefficient kind conjunct column with
  | none => 0
  | some (index, sign) => sign * coefficients (1 + conjunct.params + index)

theorem columnWeight_of_none (found : columnCoefficient kind conjunct column = none) (coefficients : ℕ → ℚ) :
    columnWeight kind conjunct coefficients column = 0 := by
  rw [columnWeight, found]

theorem columnWeight_of_some (found : columnCoefficient kind conjunct column = some (index, sign)) (coefficients : ℕ → ℚ) :
    columnWeight kind conjunct coefficients column = sign * coefficients (1 + conjunct.params + index) := by
  rw [columnWeight, found]

theorem sum_columnWeight (coefficients columns : ℕ → ℚ) (same_sides : kind = .distance → conjunct.inputs = conjunct.outputs) :
    ∑ k ∈ Finset.range conjunct.columns, columnWeight kind conjunct coefficients k * columns k
      = ∑ k ∈ Finset.range (dimCoefficients kind conjunct),
          dimensionValue kind conjunct columns k * coefficients (1 + conjunct.params + k) := by
  have outside : ∀ k ∈ Finset.range conjunct.locals, columnWeight kind conjunct coefficients
      (conjunct.inputs + conjunct.outputs + k) * columns (conjunct.inputs + conjunct.outputs + k) = 0 := by
    intro k _
    have no_coefficient : columnCoefficient kind conjunct (conjunct.inputs + conjunct.outputs + k) = none := by
      cases kind with
      | paired => rw [columnCoefficient, if_neg (by omega)]
      | distance =>
        have same := same_sides rfl
        rw [columnCoefficient, if_neg (by omega), if_neg (by omega)]
    rw [columnWeight_of_none no_coefficient, zero_mul]
  rw [Conjunct.columns, sum_range_add, sum_eq_zero outside, add_zero]
  cases kind with
  | paired =>
    apply sum_congr rfl
    intro k inside
    have own_coefficient : columnCoefficient .paired conjunct k = some (k, 1) := by
      rw [columnCoefficient, if_pos (Finset.mem_range.mp inside)]
    rw [columnWeight_of_some own_coefficient, Int.cast_one, one_mul, dimensionValue, mul_comm]
  | distance =>
    have same := same_sides rfl
    rw [sum_range_add, ← same, ← sum_add_distrib]
    apply sum_congr rfl
    intro k inside
    have below : k < conjunct.inputs := Finset.mem_range.mp inside
    have source_coefficient : columnCoefficient .distance conjunct k = some (k, -1) := by
      rw [columnCoefficient, if_pos below]
    have target_coefficient : columnCoefficient .distance conjunct (conjunct.inputs + k) = some (k, 1) := by
      rw [columnCoefficient, if_neg (by omega), if_pos (by omega), Nat.add_sub_cancel_left]
    rw [columnWeight_of_some source_coefficient, columnWeight_of_some target_coefficient, dimensionValue]
    push_cast
    ring

theorem lt_dimCoefficients (found : columnCoefficient kind conjunct column = some (index, sign)) :
    index < dimCoefficients kind conjunct := by
  cases kind with
  | paired =>
    simp only [columnCoefficient] at found
    split_ifs at found with inside
    cases found
    exact inside
  | distance =>
    simp only [columnCoefficient] at found
    split_ifs at found with is_source is_target
    · cases found
      exact is_source
    · cases found
      simp only [dimCoefficients]
      omega

/-! ### Exactness -/

theorem admitsWith_iff_of_build {coefficients : ℕ → ℚ}
    (groups_ok : conjunct.system.constraints.mapM (·.inequalities) = .ok groups)
    (built : build kind conjunct (1 + conjunct.params + dimCoefficients kind conjunct) = .ok cone) :
    cone.AdmitsWith coefficients multiplier ↔ combined (·.constant) groups.flatten multiplier ≤ coefficients 0
      ∧ (∀ i < conjunct.params, combined (·.paramCoeff i) groups.flatten multiplier = coefficients (1 + i))
      ∧ ∀ k < conjunct.columns, combined (·.coeff k) groups.flatten multiplier = columnWeight kind conjunct coefficients k := by
  simp only [build, bind_ok, pure_ok, groups_ok, Except.ok.injEq, exists_eq_left', mapM_ok] at built
  obtain ⟨_, _, _, _, _, _, constant, constant_ok, paramRows, paramRows_ok, columnRows, columnRows_ok, rfl⟩ := built
  simp only [AdmitsWith, List.forall_mem_cons, forall_mem_append, ← List.mem_range]
  refine and_congr ?_ (and_congr (paramRows_ok.forall_mem_iff fun i row i_mem row_ok => ?_)
    (columnRows_ok.forall_mem_iff fun k row k_mem row_ok => ?_))
  · simp only [constantRow, bind_ok, pure_ok] at constant_ok
    obtain ⟨multipliers, multipliers_ok, rfl⟩ := constant_ok
    rw [weigh_negatedEntries (·.constant) (fun form value found => by simpa using found) multipliers_ok,
      weigh_singleWeight (by omega), Int.cast_one, one_mul, ← sub_eq_add_neg]
    exact sub_nonneg
  · have i_lt := List.mem_range.mp i_mem
    simp only [paramRow, bind_ok, pure_ok] at row_ok
    obtain ⟨multipliers, multipliers_ok, rfl⟩ := row_ok
    rw [weigh_negatedEntries (·.paramCoeff i)
        (fun form value found => by simp [paramCoeff, getD_eq_getElem?_getD, found]) multipliers_ok,
      weigh_singleWeight (by omega), Int.cast_one, one_mul, ← sub_eq_add_neg]
    exact sub_eq_zero.trans eq_comm
  · simp only [columnRow, bind_ok, pure_ok] at row_ok
    obtain ⟨multipliers, multipliers_ok, row_eq⟩ := row_ok
    have weigh_eq : weigh row.coefficients coefficients = columnWeight kind conjunct coefficients k := by
      cases found : columnCoefficient kind conjunct k with
      | none =>
        simp only [found] at row_eq
        rw [← row_eq, columnWeight_of_none found, weigh_replicate_zero]
      | some entry =>
        have position_lt := lt_dimCoefficients found
        simp only [found] at row_eq
        rw [← row_eq, columnWeight_of_some found, weigh_singleWeight (by omega)]
    rw [weigh_eq, ← row_eq, weigh_negatedEntries (·.coeff k)
      (fun form value found => by simp [AffineForm.coeff, getD_eq_getElem?_getD, found]) multipliers_ok, ← sub_eq_add_neg]
    exact sub_eq_zero.trans eq_comm

/-- The cone of a conjunct without points has no rows; any other one is built. -/
theorem ofConjunct_ok (made : ofConjunct kind conjunct = .ok cone) : (kind = .distance → conjunct.inputs = conjunct.outputs)
      ∧ cone.dim = 1 + conjunct.params + dimCoefficients kind conjunct
      ∧ (conjunct.system.isEmpty = .ok true ∧ cone.rows = [] ∧ cone.multiplierCount = 0
        ∨ conjunct.system.isEmpty = .ok false ∧ build kind conjunct (1 + conjunct.params + dimCoefficients kind conjunct) = .ok cone) := by
  simp only [ofConjunct] at made
  split at made
  · obtain ⟨_, impossible, _⟩ := bind_ok.mp made
    exact (throw_ok.mp impossible).elim
  next matching =>
    simp only [bind_ok, Size.checked_ok_iff] at made
    obtain ⟨_, ⟨_, rfl⟩, isEmpty, tested, made⟩ := made
    refine ⟨fun is_distance => not_not.mp fun different => matching ⟨is_distance, different⟩, ?_⟩
    cases isEmpty with
    | true =>
      obtain rfl := pure_ok.mp made
      exact ⟨rfl, Or.inl ⟨tested, rfl, rfl⟩⟩
    | false =>
      have dim_eq : cone.dim = 1 + conjunct.params + dimCoefficients kind conjunct := by
        simp only [Bool.false_eq_true, if_false, build, bind_ok, pure_ok] at made
        obtain ⟨_, _, _, _, _, _, _, _, _, _, _, _, _, _, rfl⟩ := made
        rfl
      exact ⟨dim_eq, Or.inr ⟨tested, made⟩⟩

/-- A cone admits the coefficients of the forms that are non-negative on all rational points of its conjunct, and all
    coefficients if the conjunct is reported empty. -/
theorem admits_iff (laid_out : conjunct.LaidOut inputs outputs count) (made : ofConjunct kind conjunct = .ok cone)
    (coefficients : ℕ → ℚ) :
    cone.Admits coefficients ↔ (conjunct.MayHold → ∀ columns params : ℕ → ℚ, conjunct.system.HoldsAt columns params →
      0 ≤ formValue kind conjunct coefficients columns params) := by
  obtain ⟨same_sides, _, ⟨tested, no_rows⟩ | ⟨tested, built⟩⟩ := ofConjunct_ok made
  · exact ⟨fun _ may_hold => absurd tested may_hold, fun _ => ⟨0, fun _ => le_rfl, by simp [AdmitsWith, no_rows]⟩⟩
  have form_eq : ∀ columns params : ℕ → ℚ, formValue kind conjunct coefficients columns params
      = weighing conjunct.columns conjunct.params (columnWeight kind conjunct coefficients) (fun i => coefficients (1 + i))
          (coefficients 0) (columns, params, 1) := by
    intro columns params
    rw [formValue, weighing_apply, sum_columnWeight coefficients columns same_sides, mul_one]
    simp only [mul_comm]
    ring
  obtain ⟨groups, groups_ok, _⟩ := bind_ok.mp built
  obtain ⟨layout, holds_iff⟩ := Conjunct.inequalities_spec laid_out groups_ok
  constructor
  · rintro ⟨multiplier, nonneg, admits⟩ _ columns params holds
    obtain ⟨constant_le, params_eq, columns_eq⟩ := (admitsWith_iff_of_build groups_ok built).mp admits
    have total : 0 ≤ combined (·.rationalValue columns params) groups.flatten multiplier := by
      refine sum_nonneg fun j j_mem => mul_nonneg (nonneg j) ?_
      rw [getD_eq_getElem _ _ (Finset.mem_range.mp j_mem)]
      exact (holds_iff columns params).mpr holds _ (getElem_mem _)
    have columns_total : ∑ k ∈ Finset.range conjunct.columns, combined (·.coeff k) groups.flatten multiplier * columns k
        = ∑ k ∈ Finset.range conjunct.columns, columnWeight kind conjunct coefficients k * columns k :=
      sum_congr rfl fun k k_mem => by rw [columns_eq k (Finset.mem_range.mp k_mem)]
    have params_total : ∑ i ∈ Finset.range conjunct.params, combined (·.paramCoeff i) groups.flatten multiplier * params i
        = ∑ i ∈ Finset.range conjunct.params, coefficients (1 + i) * params i :=
      sum_congr rfl fun i i_mem => by rw [params_eq i (Finset.mem_range.mp i_mem)]
    rw [combined_value layout, columns_total, params_total] at total
    rw [form_eq, weighing_apply, mul_one]
    linarith
  · intro implied
    obtain ⟨columns, params, holds⟩ := Polyhedron.exists_holdsAt_of_isEmpty tested
    obtain ⟨multiplier, nonneg, constant_le, columns_eq, params_eq⟩ := exists_multipliers layout
      (fun columns params inside => form_eq columns params ▸ implied (by simp [Conjunct.MayHold, tested]) columns params
        ((holds_iff columns params).mp inside)) ((holds_iff columns params).mpr holds)
    exact ⟨multiplier, nonneg, (admitsWith_iff_of_build groups_ok built).mpr ⟨constant_le, params_eq, columns_eq⟩⟩

/-! ### Cones in a linear problem -/

/-- The value that a mapping gives to the coefficient at a position. -/
def coefficient (mapping : List Linear.Form) (σ : Linear.Assignment) (index : ℕ) : ℚ :=
  (mapping.getD index Linear.Form.zero).value σ

theorem coefficient_congr {τ : Linear.Assignment} (same : ∀ form ∈ mapping, form.value τ = form.value σ) :
    coefficient mapping τ = coefficient mapping σ := by
  funext index
  rw [coefficient, coefficient, getD_eq_getElem?_getD]
  cases form_at : mapping[index]? with
  | none => simp
  | some form => exact same form (mem_of_getElem? form_at)

theorem sum_zip_eq_weigh (mapping : List Linear.Form) (weights : List ℤ) (σ : Linear.Assignment) :
    ((mapping.zip weights).map fun part => (part.2 : ℚ) * part.1.value σ).sum = weigh weights (coefficient mapping σ) := by
  induction mapping generalizing weights with
  | nil => simp [weigh, coefficient]
  | cons form later ih =>
    cases weights with
    | nil => rfl
    | cons weight others =>
      rw [zip_cons_cons, List.map_cons, List.sum_cons, ih, weigh_cons]
      rfl

theorem termsValue_multipliers (multipliers : List ℤ) (start first : ℕ) (σ : Linear.Assignment) :
    Form.termsValue (((multipliers.zipIdx start).filter (·.1 ≠ 0)).map fun entry => (first + entry.2, entry.1)) σ
      = weigh multipliers fun j => σ (first + (start + j)) := by
  induction multipliers generalizing start with
  | nil => rfl
  | cons multiplier later ih =>
    have later_eq : (fun j => σ (first + (start + (j + 1)))) = fun j => σ (first + (start + 1 + j)) := by
      funext j
      congr 1
      omega
    rw [zipIdx_cons, weigh_cons, later_eq, ← ih]
    by_cases vanishes : multiplier = 0
    · rw [filter_cons_of_neg (by simp [vanishes]), vanishes]
      simp
    · rw [List.filter_cons_of_pos (by simp [vanishes]), List.map_cons, Form.termsValue_cons]
      rfl

theorem instantiate_holds_iff {row : ConeRow} {first : ℕ} {made : Linear.Row}
    (done : instantiate row mapping first = .ok made) (σ : Linear.Assignment) : made.Holds σ ↔ row.sense.Admits
      (weigh row.coefficients (coefficient mapping σ) + weigh row.multipliers fun j => σ (first + j)) := by
  simp only [instantiate, bind_ok] at done
  obtain ⟨sum, sum_ok, made_ok⟩ := done
  have sum_value := Form.value_combination σ sum_ok
  rw [Linear.Form.value, sum_zip_eq_weigh] at sum_value
  have multipliers_value := termsValue_multipliers row.multipliers 0 first σ
  simp only [Nat.zero_add] at multipliers_value
  rw [Row.make_holds_iff made_ok, Linear.Form.value, Form.termsValue_append, multipliers_value, ← sum_value,
    add_right_comm]

/-- Plugging a cone in adds a rational column for every multiplier and an instance of every row. -/
theorem plugInto_ok {problem extended : Linear.Problem} (plugged : cone.plugInto problem mapping = .ok extended) :
    mapping.length = cone.dim ∧ ∃ rows, cone.rows.mapM (instantiate · mapping problem.columns) = .ok rows
      ∧ extended = { integer := problem.integer ++ List.replicate cone.multiplierCount false, rows := problem.rows ++ rows }
      ∧ ∀ row ∈ rows, row.form.Within extended.columns := by
  unfold plugInto at plugged
  split at plugged
  · obtain ⟨_, impossible, _⟩ := bind_ok.mp plugged
    exact (throw_ok.mp impossible).elim
  next length_eq =>
    obtain ⟨widened, widened_ok, folded⟩ := bind_ok.mp plugged
    obtain rfl := Problem.addColumns_ok widened_ok
    obtain ⟨rows, rows_ok, rfl, within⟩ := Problem.foldlM_addRow_ok folded
    exact ⟨not_not.mp length_eq, rows, rows_ok, rfl, within⟩

section Plugged

variable {problem extended : Linear.Problem} (plugged : cone.plugInto problem mapping = .ok extended)
include plugged

theorem continues_of_plugInto : extended.Continues problem := by
  obtain ⟨_, rows, _, rfl, _⟩ := plugInto_ok plugged
  exact ⟨prefix_append _ _, prefix_append _ _⟩

theorem bounded_of_plugInto (bounded : problem.Bounded) : extended.Bounded := by
  have columns_le := (continues_of_plugInto plugged).columns_le
  obtain ⟨_, rows, _, extended_eq, within⟩ := plugInto_ok plugged
  intro row row_mem
  rw [extended_eq, mem_append] at row_mem
  rcases row_mem with before | fresh
  · exact fun term term_mem => (bounded row before term term_mem).trans_le columns_le
  · exact within row fresh

/-- The fresh rows ask that the fresh columns be multipliers for the cone. -/
theorem exists_rows_of_plugInto : ∃ rows, extended.rows = problem.rows ++ rows
    ∧ extended.integer = problem.integer ++ List.replicate cone.multiplierCount false
    ∧ ∀ σ : Linear.Assignment, (∀ row ∈ rows, row.Holds σ) ↔
        cone.AdmitsWith (coefficient mapping σ) fun j => σ (problem.columns + j) := by
  obtain ⟨_, rows, rows_ok, rfl, _⟩ := plugInto_ok plugged
  exact ⟨rows, rfl, rfl, fun σ => (mapM_ok.mp rows_ok).forall_mem_iff fun _ _ _ made_ok =>
    instantiate_holds_iff made_ok σ⟩

theorem satisfies_plugInto_iff (σ : Linear.Assignment) : Linear.Satisfies σ extended.rows ↔
    Linear.Satisfies σ problem.rows ∧ cone.AdmitsWith (coefficient mapping σ) fun j => σ (problem.columns + j) := by
  obtain ⟨rows, rows_eq, _, rows_iff⟩ := exists_rows_of_plugInto plugged
  rw [rows_eq, ← rows_iff]
  exact ⟨fun satisfied => ⟨⟨satisfied.nonneg, (forall_mem_append.mp satisfied.holds).1⟩,
    (forall_mem_append.mp satisfied.holds).2⟩,
    fun ⟨satisfied, fresh⟩ => ⟨satisfied.nonneg, forall_mem_append.mpr ⟨satisfied.holds, fresh⟩⟩⟩

end Plugged

/-- The columns behind a bound can be filled with multipliers exactly where the cone admits the coefficients, if these do
    not depend on the columns behind the bound. -/
theorem exists_multiplier_columns_iff {columns : ℕ}
    (same : ∀ τ : Linear.Assignment, (∀ column < columns, τ column = σ column) → coefficient mapping τ = coefficient mapping σ) :
    (∃ τ : Linear.Assignment, (∀ column < columns, τ column = σ column) ∧ (∀ column, columns ≤ column → 0 ≤ τ column)
      ∧ cone.AdmitsWith (coefficient mapping τ) fun j => τ (columns + j)) ↔ cone.Admits (coefficient mapping σ) := by
  constructor
  · rintro ⟨τ, agree, nonneg, admits⟩
    rw [same τ agree] at admits
    exact ⟨_, fun j => nonneg _ (Nat.le_add_right columns j), admits⟩
  · rintro ⟨multiplier, nonneg, admits⟩
    let τ : Linear.Assignment := fun column => if column < columns then σ column else multiplier (column - columns)
    have agree : ∀ column < columns, τ column = σ column := fun column below => if_pos below
    have beyond : (fun j => τ (columns + j)) = multiplier := by
      funext j
      simp [τ]
    refine ⟨τ, agree, fun column behind => ?_, ?_⟩
    · simpa only [τ, if_neg (not_lt.mpr behind)] using nonneg _
    · rwa [same τ agree, beyond]

end Cone

/-! ### Memoized cones -/

variable {cache : ConeCache}

/-- Every cone in the cache is the cone of its conjunct. -/
def ConeCache.Sound (cache : ConeCache) : Prop :=
  ∀ entry ∈ cache.entries, ofConjunct entry.1.1 entry.1.2 = .ok entry.2

theorem ConeCache.sound_empty : ConeCache.empty.Sound := by simp [Sound, empty]

/-- A cone from the cache is the cone of the conjunct, and the cache stays sound. -/
theorem ConeCache.Sound.get {next : ConeCache} (sound : cache.Sound) (found : cache.get kind conjunct = .ok (cone, next)) :
    ofConjunct kind conjunct = .ok cone ∧ next.Sound := by
  unfold ConeCache.get at found
  cases known : cache.entries.lookup (kind, conjunct) with
  | some memoized =>
    simp only [known, Except.ok.injEq, Prod.mk.injEq] at found
    obtain ⟨rfl, rfl⟩ := found
    obtain ⟨before, after, entries_eq, _⟩ := lookup_eq_some_iff.mp known
    exact ⟨sound ((kind, conjunct), memoized) (by simp [entries_eq]), sound⟩
  | none =>
    simp only [known, bind_ok, pure_ok, Prod.mk.injEq] at found
    obtain ⟨computed, computed_ok, rfl, rfl⟩ := found
    exact ⟨computed_ok, forall_mem_cons.mpr ⟨computed_ok, sound⟩⟩

/-- The states of a cache that starts empty. -/
inductive ConeCache.Reached : ConeCache → Prop
  | empty : Reached ConeCache.empty
  | get {cache next : ConeCache} {kind : ConeKind} {conjunct : Conjunct} {cone : Cone} (reached : Reached cache)
      (found : cache.get kind conjunct = .ok (cone, next)) : Reached next

theorem ConeCache.Reached.sound (reached : cache.Reached) : cache.Sound := by
  induction reached with
  | empty => exact sound_empty
  | get _ found sound => exact (sound.get found).2

/-- The cone of a conjunct, computed or from a cache in any state, admits exactly the coefficients of the forms that are
    non-negative on all rational points, or all coefficients if the conjunct is reported empty. Plugged into a linear
    problem it adds columns and rows behind the old ones, and an assignment of the old columns extends to the new rows
    exactly where the cone admits the mapped coefficients. -/
theorem Cone.cones_exact {inputs outputs : ℕ} (laid_out : conjunct.LaidOut inputs outputs count)
    (obtained : Cone.ofConjunct kind conjunct = .ok cone
      ∨ ∃ cache next, ConeCache.Reached cache ∧ cache.get kind conjunct = .ok (cone, next)) :
    (∃ isEmpty, conjunct.system.isEmpty = .ok isEmpty ∧ ∀ coefficients : ℕ → ℚ, cone.Admits coefficients ↔
      isEmpty = true ∨ ∀ columns params : ℕ → ℚ, conjunct.system.HoldsAt columns params →
        0 ≤ formValue kind conjunct coefficients columns params)
    ∧ ∀ (problem extended : Linear.Problem) (mapping : List Linear.Form), (∀ form ∈ mapping, form.Within problem.columns) →
        cone.plugInto problem mapping = .ok extended → ∃ rows, extended.rows = problem.rows ++ rows
          ∧ extended.integer = problem.integer ++ List.replicate cone.multiplierCount false
          ∧ ∀ σ : Linear.Assignment, (∃ τ : Linear.Assignment, (∀ column < problem.columns, τ column = σ column)
              ∧ (∀ column, problem.columns ≤ column → 0 ≤ τ column) ∧ ∀ row ∈ rows, row.Holds τ) ↔
              cone.Admits (coefficient mapping σ) := by
  have made : ofConjunct kind conjunct = .ok cone := by
    rcases obtained with made | ⟨cache, next, reached, found⟩
    · exact made
    · exact (reached.sound.get found).1
  constructor
  · obtain ⟨_, _, ⟨tested, _⟩ | ⟨tested, _⟩⟩ := ofConjunct_ok made
    · exact ⟨true, tested, fun coefficients => by simp [admits_iff laid_out made, Conjunct.MayHold, tested]⟩
    · exact ⟨false, tested, fun coefficients => by simp [admits_iff laid_out made, Conjunct.MayHold, tested]⟩
  · intro problem extended mapping within plugged
    obtain ⟨rows, rows_eq, integer_eq, rows_iff⟩ := exists_rows_of_plugInto plugged
    refine ⟨rows, rows_eq, integer_eq, fun σ => ?_⟩
    simp only [rows_iff]
    exact exists_multiplier_columns_iff fun τ agree =>
      coefficient_congr fun form form_mem => Form.value_congr (within form form_mem) agree

/-- A later point whose distance is even, the half being a local. -/
def evenDistance : Conjunct where
  inputs := 1
  outputs := 1
  locals := 1
  system := { dim := 3, params := 0, constraints := [
    { sense := .zero, form := { constant := 0, coeffs := [-1, 1, -2], params := [] } },
    { sense := .nonnegative, form := { constant := -1, coeffs := [0, 0, 1], params := [] } }] }

theorem Cone.cones_exact_evenDistance :
    let problem : Linear.Problem := { integer := [false], rows := [] }
    let mapping := [Form.constantly (-2), Form.column 0]
    ∃ cone extended, Cone.ofConjunct .distance evenDistance = .ok cone ∧ cone.plugInto problem mapping = .ok extended
      ∧ (∃ isEmpty, evenDistance.system.isEmpty = .ok isEmpty ∧ ∀ coefficients : ℕ → ℚ, cone.Admits coefficients ↔
        isEmpty = true ∨ ∀ columns params : ℕ → ℚ, evenDistance.system.HoldsAt columns params →
          0 ≤ formValue .distance evenDistance coefficients columns params)
      ∧ ∃ rows, extended.rows = problem.rows ++ rows ∧ ∀ σ : Linear.Assignment,
        (∃ τ : Linear.Assignment, (∀ column < problem.columns, τ column = σ column)
          ∧ (∀ column, problem.columns ≤ column → 0 ≤ τ column) ∧ ∀ row ∈ rows, row.Holds τ) ↔
          cone.Admits (coefficient mapping σ) := by
  intro problem mapping
  have laid_out : evenDistance.LaidOut 1 1 0 := ⟨rfl, rfl, rfl, rfl, by unfold Polyhedron.LaidOut; decide⟩
  have delivered : (ofConjunct .distance evenDistance >>= (·.plugInto problem mapping)).toOption.isSome = true := by
    decide +kernel
  cases computed : ofConjunct .distance evenDistance >>= (·.plugInto problem mapping) with
  | error => simp [computed, Except.toOption] at delivered
  | ok extended =>
    obtain ⟨cone, made, plugged⟩ := bind_ok.mp computed
    obtain ⟨admitted, plugs⟩ := cones_exact laid_out (Or.inl made)
    obtain ⟨rows, rows_eq, _, rows_iff⟩ := plugs problem extended mapping (by decide) plugged
    exact ⟨cone, extended, made, plugged, admitted, rows, rows_eq, rows_iff⟩

end AffineSchedule
