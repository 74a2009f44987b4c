import AffineSchedule.Proofs.Polyhedron

namespace AffineSchedule

open Checked Finset AffineForm

variable {dims params : ℕ → ℚ} {polyhedron : Polyhedron} {form : AffineForm} {result : Polyhedron}

/-- Rational values have a common denominator. -/
theorem exists_numerators (values : ℕ → ℚ) (positions : Finset ℕ) : ∃ (denominator : ℤ) (numerators : ℕ → ℤ), 0 < denominator
      ∧ ∀ index ∈ positions, (denominator : ℚ) * values index = numerators index := by
  refine ⟨∏ index ∈ positions, ((values index).den : ℤ),
    fun index => ((∏ other ∈ positions, ((values other).den : ℤ) : ℤ) * values index : ℚ).num,
    prod_pos fun index _ => by exact_mod_cast (values index).den_pos, fun index position_mem => ?_⟩
  obtain ⟨factor, factor_eq⟩ := dvd_prod_of_mem (fun other => ((values other).den : ℤ)) position_mem
  have product_eq : ((∏ other ∈ positions, ((values other).den : ℤ) : ℤ) : ℚ) * values index
      = ((factor * (values index).num : ℤ) : ℚ) := by
    rw [factor_eq]
    push_cast
    rw [mul_right_comm, mul_comm _ (values index), Rat.mul_den_eq_num]
    ring
  dsimp only
  rw [product_eq, Rat.num_intCast]

namespace AffineForm

theorem mul_rationalValue (form : AffineForm) (denominator : ℤ) {dimNumerators paramNumerators : ℕ → ℤ}
    (dims_eq : ∀ k < form.coeffs.length, denominator * dims k = dimNumerators k)
    (params_eq : ∀ i < form.params.length, denominator * params i = paramNumerators i) :
    denominator * form.rationalValue dims params
      = (denominator - 1) * form.constant + form.value dimNumerators paramNumerators := by
  have dims_sum : denominator * ∑ k ∈ Finset.range form.coeffs.length, (form.coeff k : ℚ) * dims k
      = dot form.coeffs dimNumerators := by
    rw [dot_eq_sum, mul_sum]
    push_cast
    refine sum_congr rfl fun k k_mem => ?_
    rw [← dims_eq k (mem_range.mp k_mem), coeff]
    ring
  have params_sum : denominator * ∑ i ∈ Finset.range form.params.length, (form.paramCoeff i : ℚ) * params i
      = dot form.params paramNumerators := by
    rw [dot_eq_sum, mul_sum]
    push_cast
    refine sum_congr rfl fun i i_mem => ?_
    rw [← params_eq i (mem_range.mp i_mem), paramCoeff]
    ring
  rw [rationalValue, value, mul_add, mul_add, dims_sum, params_sum]
  push_cast
  ring

theorem rationalValue_renamed {result : AffineForm} (dimPlace paramPlace : ℕ → ℕ)
    (same : ∀ dims params : ℕ → ℤ, result.value dims params
      = form.value (fun k => dims (dimPlace k)) fun i => params (paramPlace i)) (dims params : ℕ → ℚ) :
    result.rationalValue dims params = form.rationalValue (fun k => dims (dimPlace k)) fun i => params (paramPlace i) := by
  have constant_eq : result.constant = form.constant := by
    have at_zero := same (fun _ => 0) fun _ => 0
    have vanishes : ∀ coefficients : List ℤ, dot coefficients (fun _ => 0) = 0 := by
      intro coefficients
      rw [dot_eq_sum]
      simp
    rwa [value, value, vanishes, vanishes, vanishes, vanishes, add_zero, add_zero, add_zero, add_zero] at at_zero
  -- one denominator for all values that either expression looks at
  let pool : Finset ℕ := Finset.range result.coeffs.length ∪ (Finset.range form.coeffs.length).image dimPlace
  let paramPool : Finset ℕ := Finset.range result.params.length ∪ (Finset.range form.params.length).image paramPlace
  obtain ⟨first, dimNumerators, first_pos, dims_eq⟩ := exists_numerators dims pool
  obtain ⟨second, paramNumerators, second_pos, params_eq⟩ := exists_numerators params paramPool
  have dims_at : ∀ k ∈ pool, ((first * second : ℤ) : ℚ) * dims k = (second * dimNumerators k : ℤ) := by
    intro k k_mem
    push_cast
    rw [← dims_eq k k_mem]
    ring
  have params_at : ∀ i ∈ paramPool, ((first * second : ℤ) : ℚ) * params i = (first * paramNumerators i : ℤ) := by
    intro i i_mem
    push_cast
    rw [← params_eq i i_mem]
    ring
  have result_scaled := result.mul_rationalValue (first * second)
    (fun k inside => dims_at k (mem_union_left _ (mem_range.mpr inside)))
    (fun i inside => params_at i (mem_union_left _ (mem_range.mpr inside)))
  have form_scaled := form.mul_rationalValue (first * second)
    (fun k inside => dims_at _ (mem_union_right _ (mem_image_of_mem dimPlace (mem_range.mpr inside))))
    (fun i inside => params_at _ (mem_union_right _ (mem_image_of_mem paramPlace (mem_range.mpr inside))))
  have positive : ((first * second : ℤ) : ℚ) ≠ 0 := by
    exact_mod_cast (mul_pos first_pos second_pos).ne'
  apply mul_left_cancel₀ positive
  rw [result_scaled, form_scaled, constant_eq, same]

theorem rationalValue_scale {result : AffineForm} {factor : ℤ} (done : form.scale factor = .ok result) (dims params : ℕ → ℚ) :
    result.rationalValue dims params = factor * form.rationalValue dims params := by
  have scaled_eq : ∀ {entries scaled : List ℤ}, entries.mapM (Word.mul · factor) = .ok scaled →
      scaled = entries.map (· * factor) := by
    intro entries scaled entries_ok
    refine (List.forall₂_eq_eq_eq.le _ _ (List.forall₂_map_left_iff.mpr ?_)).symm
    exact (mapM_ok.mp entries_ok).imp fun _ _ step => (Word.mul_ok.mp step).2.symm
  have sum_eq : ∀ (entries : List ℤ) (values : ℕ → ℚ),
      ∑ k ∈ Finset.range (entries.map (· * factor)).length, ((entries.map (· * factor)).getD k 0 : ℚ) * values k
        = factor * ∑ k ∈ Finset.range entries.length, (entries.getD k 0 : ℚ) * values k := by
    intro entries values
    rw [List.length_map, mul_sum]
    refine sum_congr rfl fun k _ => ?_
    have entry_eq : (entries.map (· * factor)).getD k 0 = entries.getD k 0 * factor := by
      simpa only [zero_mul] using List.getD_map entries 0 (· * factor)
    rw [entry_eq]
    push_cast
    ring
  simp only [scale, bind_ok, pure_ok, Word.mul_ok] at done
  obtain ⟨_, ⟨_, rfl⟩, coeffs, coeffs_ok, param_list, params_ok, rfl⟩ := done
  obtain rfl := scaled_eq coeffs_ok
  obtain rfl := scaled_eq params_ok
  simp only [rationalValue, coeff, paramCoeff, sum_eq]
  push_cast
  ring

end AffineForm

namespace Polyhedron

/-- All constraints hold at rational values of the dimensions and parameters. -/
def HoldsAt (polyhedron : Polyhedron) (dims params : ℕ → ℚ) : Prop :=
  ∀ constraint ∈ polyhedron.constraints, constraint.sense.Admits (constraint.form.rationalValue dims params)

theorem holdsAt_intCast_iff (polyhedron : Polyhedron) (dims params : ℕ → ℤ) :
    polyhedron.HoldsAt (fun k => dims k) (fun i => params i) ↔ polyhedron.Holds dims params := by
  refine forall₂_congr fun constraint _ => ?_
  rw [rationalValue_intCast, Sense.admits_intCast_iff]
  rfl

theorem holdsAt_congr (laid_out : polyhedron.LaidOut) {others : ℕ → ℚ} (agree : ∀ i < polyhedron.params, params i = others i) :
    polyhedron.HoldsAt dims params ↔ polyhedron.HoldsAt dims others := by
  refine forall₂_congr fun constraint constraint_mem => ?_
  have same : constraint.form.rationalValue dims params = constraint.form.rationalValue dims others := by
    rw [rationalValue, rationalValue, (laid_out constraint constraint_mem).2]
    congr 1
    exact sum_congr rfl fun i i_mem => by rw [agree i (mem_range.mp i_mem)]
  rw [same]

theorem holdsAt_of_relayout {dim : ℕ} {positions : List ℕ} (moved : polyhedron.relayout dim positions = .ok result)
    (holds : result.HoldsAt dims params) : polyhedron.HoldsAt (fun index => dims (positions.getD index 0)) params := by
  obtain ⟨_, _, each⟩ := relayout_ok moved
  refine each.flip.forall_mem ?_ holds
  rintro image constraint _ ⟨sense_eq, form_ok⟩ image_holds
  rwa [sense_eq, rationalValue_renamed (positions.getD · 0) id
    fun dims params => (value_relayout form_ok dims params).2.2] at image_holds

/-- A rational point over another parameter list is one over the own list. -/
theorem holdsAt_of_alignParams {source target : List String} (once : polyhedron.NamesOnce source)
    (aligned : polyhedron.alignParams source target = .ok result) (holds : result.HoldsAt dims params) :
    polyhedron.HoldsAt dims fun index => params (namePosition target (source.getD index "")) := by
  obtain ⟨_, _, each⟩ := alignParams_ok aligned
  intro constraint constraint_mem
  obtain ⟨image, image_mem, sense_eq, form_ok⟩ := each.exists_right constraint_mem
  have image_holds := holds image image_mem
  rwa [sense_eq, rationalValue_renamed id _
    (value_alignParams (once constraint constraint_mem) form_ok).2.2] at image_holds

theorem holdsAt_of_add {constraint : Constraint} (added : polyhedron.add constraint = .ok result)
    (holds : result.HoldsAt dims params) : polyhedron.HoldsAt dims params := by
  simp only [add, bind_ok, pure_ok] at added
  obtain ⟨_, _, rfl⟩ := added
  exact (List.forall_mem_append.mp holds).1

/-! ### Emptiness -/

/-- A polyhedron that is not reported empty has a rational point. -/
theorem exists_holdsAt_of_isEmpty (tested : polyhedron.isEmpty = .ok false) :
    ∃ dims params : ℕ → ℚ, polyhedron.HoldsAt dims params := by
  rcases isEmpty_cases tested with ⟨impossible, _⟩ | ⟨outcome, ⟨rows, rows_ok, searched⟩, ended⟩
  · cases impossible
  · obtain ⟨σ, rows_hold⟩ := Linear.exists_holds_of_integerFeasible searched (by decide) (of_decide_eq_false ended)
    refine ⟨σ, fun i => σ (polyhedron.dim + i), fun constraint constraint_mem => ?_⟩
    obtain ⟨row, row_mem, made⟩ := rows_ok.exists_right constraint_mem
    exact (constraintRow_holds_iff made σ).mp (rows_hold row row_mem)

end Polyhedron

end AffineSchedule
