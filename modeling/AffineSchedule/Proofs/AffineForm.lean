import AffineSchedule.AffineForm
import AffineSchedule.Proofs.Linear.Evaluation

namespace AffineSchedule

open Checked List

/-- The values of the positions of a list, zero beyond its end. -/
def coordinates (values : List ℤ) : ℕ → ℤ := fun place => values.getD place 0

/-- The values of named parameters by position. -/
def named (names : List String) (values : String → ℤ) : ℕ → ℤ := fun place => values (names.getD place "")

/-! ### Weighted sums -/

variable {coefficients : List ℤ} {place : ℕ} {others : ℕ → ℤ}

/-- The sum of the products of coefficients and values by position. -/
def dot : List ℤ → (ℕ → ℤ) → ℤ
  | [], _ => 0
  | first :: later, values => first * values 0 + dot later fun place => values (place + 1)

@[simp] theorem dot_nil (values : ℕ → ℤ) : dot [] values = 0 := rfl

@[simp] theorem dot_cons (first : ℤ) (later : List ℤ) (values : ℕ → ℤ) :
    dot (first :: later) values = first * values 0 + dot later fun place => values (place + 1) := rfl

theorem dot_append (front back : List ℤ) (values : ℕ → ℤ) :
    dot (front ++ back) values = dot front values + dot back fun place => values (front.length + place) := by
  induction front generalizing values with
  | nil => simp
  | cons first later ih =>
    rw [cons_append, dot_cons, dot_cons, ih, length_cons, add_assoc]
    congr 3
    funext place
    congr 1
    omega

/-- The sum as a finite sum over the positions. -/
theorem dot_eq_sum (coefficients : List ℤ) (values : ℕ → ℤ) :
    dot coefficients values
      = ∑ place ∈ Finset.range coefficients.length, coefficients.getD place 0 * values place := by
  induction coefficients generalizing values with
  | nil => rfl
  | cons first later ih =>
    rw [dot_cons, length_cons, Finset.sum_range_succ', ih, add_comm]
    simp

theorem dot_congr {values : ℕ → ℤ} (agree : ∀ place < coefficients.length, values place = others place) :
    dot coefficients values = dot coefficients others := by
  rw [dot_eq_sum, dot_eq_sum]
  apply Finset.sum_congr rfl
  intro place inside
  rw [agree place (Finset.mem_range.mp inside)]

@[simp] theorem dot_replicate_zero (count : ℕ) (values : ℕ → ℤ) : dot (List.replicate count 0) values = 0 := by
  rw [dot_eq_sum]
  apply Finset.sum_eq_zero
  intro place inside
  simp

/-- Replacing a coefficient changes the sum by the difference. -/
theorem dot_set (inside : place < coefficients.length) (coefficient : ℤ) (values : ℕ → ℤ) :
    dot (coefficients.set place coefficient) values
      = dot coefficients values + (coefficient - coefficients.getD place 0) * values place := by
  induction coefficients generalizing place values with
  | nil => simp at inside
  | cons first later ih =>
    cases place with
    | zero =>
      simp only [set_cons_zero, dot_cons, getD_cons_zero]
      ring
    | succ place =>
      rw [set_cons_succ, dot_cons, dot_cons, ih (Nat.lt_of_succ_lt_succ inside), getD_cons_succ]
      ring

theorem dot_sub (coefficients : List ℤ) (values others : ℕ → ℤ) :
    dot coefficients (fun place => values place - others place)
      = dot coefficients values - dot coefficients others := by
  rw [dot_eq_sum, dot_eq_sum, dot_eq_sum, ← Finset.sum_sub_distrib]
  apply Finset.sum_congr rfl
  intro place _
  ring

/-- A common divisor of the coefficients divides the sum. -/
theorem dvd_dot {divisor : ℤ} (divides : ∀ coefficient ∈ coefficients, divisor ∣ coefficient) (values : ℕ → ℤ) :
    divisor ∣ dot coefficients values := by
  induction coefficients generalizing values with
  | nil => exact dvd_zero divisor
  | cons first later ih =>
    obtain ⟨first_divides, later_divides⟩ := forall_mem_cons.mp divides
    exact dvd_add (Dvd.dvd.mul_right first_divides _) (ih later_divides _)

namespace AffineForm

variable {form result left right : AffineForm} {source target : List String} {count dim start : ℕ} {factor : ℤ}
  {columns : List ℤ} {positions : List ℕ}

/-- The value of an expression at given dimensions and parameters. -/
def value (form : AffineForm) (dims params : ℕ → ℤ) : ℤ :=
  form.constant + dot form.coeffs dims + dot form.params params

/-- The value of an expression at rational dimensions and parameters. -/
def rationalValue (form : AffineForm) (dims params : ℕ → ℚ) : ℚ :=
  form.constant + ∑ k ∈ Finset.range form.coeffs.length, form.coeff k * dims k
    + ∑ i ∈ Finset.range form.params.length, form.paramCoeff i * params i

theorem rationalValue_intCast (form : AffineForm) (dims params : ℕ → ℤ) :
    form.rationalValue (fun k => dims k) (fun i => params i) = form.value dims params := by
  rw [rationalValue, value, dot_eq_sum, dot_eq_sum]
  push_cast
  rfl

/-- The expression has `dim` dimensions and `params` parameters. -/
def HasLayout (form : AffineForm) (dim params : ℕ) : Prop := form.coeffs.length = dim ∧ form.params.length = params

theorem value_congr {dims params : ℕ → ℤ} (agree : ∀ place < form.coeffs.length, dims place = others place) :
    form.value dims params = form.value others params := by
  rw [value, value, dot_congr agree]

theorem value_of_isConstant (constant : form.isConstant = true) (dims params : ℕ → ℤ) :
    form.value dims params = form.constant := by
  simp only [isConstant, Bool.and_eq_true, all_eq_true, decide_eq_true_eq] at constant
  have coeffs_zero : dot form.coeffs dims = 0 :=
    zero_dvd_iff.mp (dvd_dot (fun coefficient mem => by rw [constant.1 coefficient mem]) dims)
  have params_zero : dot form.params params = 0 :=
    zero_dvd_iff.mp (dvd_dot (fun coefficient mem => by rw [constant.2 coefficient mem]) params)
  rw [value, coeffs_zero, params_zero, add_zero, add_zero]

/-! ### Arithmetic -/

theorem dot_of_mapM_mul {scaled : List ℤ} (done : coefficients.mapM (Word.mul · factor) = .ok scaled) (values : ℕ → ℤ) :
    scaled.length = coefficients.length ∧ dot scaled values = factor * dot coefficients values := by
  rw [mapM_ok] at done
  induction done generalizing values with
  | nil => simp
  | cons first_ok _ ih =>
    obtain ⟨_, rfl⟩ := Word.mul_ok.mp first_ok
    obtain ⟨length_eq, sum_eq⟩ := ih fun place => values (place + 1)
    refine ⟨by simp [length_eq], ?_⟩
    rw [dot_cons, dot_cons, sum_eq]
    ring

/-- A multiple of an expression. -/
theorem value_scale (done : form.scale factor = .ok result) (dims params : ℕ → ℤ) :
    result.HasLayout form.coeffs.length form.params.length ∧ result.value dims params = factor * form.value dims params := by
  simp only [scale, bind_ok, pure_ok, Word.mul_ok] at done
  obtain ⟨_, ⟨_, rfl⟩, coeffs, coeffs_ok, param_list, params_ok, rfl⟩ := done
  obtain ⟨coeffs_length, coeffs_sum⟩ := dot_of_mapM_mul coeffs_ok dims
  obtain ⟨params_length, params_sum⟩ := dot_of_mapM_mul params_ok params
  refine ⟨⟨coeffs_length, params_length⟩, ?_⟩
  simp only [value, coeffs_sum, params_sum]
  ring

theorem dot_of_mapM_add {left right sums : List ℤ} (same_length : left.length = right.length)
    (done : (left.zip right).mapM (fun pair => Word.add pair.1 pair.2) = .ok sums) (values : ℕ → ℤ) :
    sums.length = left.length ∧ dot sums values = dot left values + dot right values := by
  rw [mapM_ok] at done
  induction left generalizing right sums values with
  | nil =>
    cases right with
    | nil =>
      cases done
      simp
    | cons => simp at same_length
  | cons first later ih =>
    cases right with
    | nil => simp at same_length
    | cons other others =>
      rw [zip_cons_cons, forall₂_cons_left_iff] at done
      obtain ⟨sum, rest, sum_ok, rest_ok, rfl⟩ := done
      obtain ⟨_, rfl⟩ := Word.add_ok_iff.mp sum_ok
      obtain ⟨length_eq, sum_eq⟩ :=
        ih (Nat.succ.inj same_length) rest_ok fun place => values (place + 1)
      refine ⟨by simp [length_eq], ?_⟩
      rw [dot_cons, dot_cons, dot_cons, sum_eq]
      ring

/-- The sum of two expressions. -/
theorem value_add (done : left.add right = .ok result) (dims params : ℕ → ℤ) :
    result.HasLayout left.coeffs.length left.params.length
      ∧ result.value dims params = left.value dims params + right.value dims params := by
  simp only [add, bind_ok, pure_ok, require_ok, Word.add_ok_iff] at done
  obtain ⟨_, same_coeffs, _, same_params, _, ⟨_, rfl⟩, coeffs, coeffs_ok, param_list, params_ok, rfl⟩ := done
  obtain ⟨coeffs_length, coeffs_sum⟩ := dot_of_mapM_add same_coeffs coeffs_ok dims
  obtain ⟨params_length, params_sum⟩ := dot_of_mapM_add same_params params_ok params
  refine ⟨⟨coeffs_length, params_length⟩, ?_⟩
  simp only [value, coeffs_sum, params_sum]
  ring

theorem value_sub (done : left.sub right = .ok result) (dims params : ℕ → ℤ) :
    result.HasLayout left.coeffs.length left.params.length
      ∧ result.value dims params = left.value dims params - right.value dims params := by
  simp only [sub, neg, bind_ok] at done
  obtain ⟨negated, negated_ok, added⟩ := done
  obtain ⟨layout, sum_eq⟩ := value_add added dims params
  refine ⟨layout, ?_⟩
  rw [sum_eq, (value_scale negated_ok dims params).2]
  ring

/-! ### Rows -/

/-- The value of a schedule row, laid out as constant, parameters, dimensions. -/
def rowValue (row : List ℤ) (paramCount : ℕ) (dims params : ℕ → ℤ) : ℤ :=
  row.headD 0 + dot (row.drop (1 + paramCount)) dims + dot ((row.drop 1).take paramCount) params

section

variable {paramCount : ℕ} {row : List ℤ} (done : ofRow row paramCount = .ok form)
include done

theorem ofRow_ok : 1 + paramCount ≤ row.length
    ∧ form = ⟨row.headD 0, row.drop (1 + paramCount), (row.drop 1).take paramCount⟩ := by
  simp only [ofRow, bind_ok, pure_ok, require_ok, Size.add_ok_iff] at done
  obtain ⟨_, _, _, ⟨_, rfl⟩, _, long_enough, rfl⟩ := done
  exact ⟨long_enough, rfl⟩

theorem coeffs_ofRow : form.coeffs = row.drop (1 + paramCount) := congrArg coeffs (ofRow_ok done).2

theorem coefficients_ofRow : form.params ++ form.coeffs = row.drop 1 := by
  obtain ⟨_, rfl⟩ := ofRow_ok done
  rw [← drop_drop, take_append_drop]

/-- The expression of a row has the value of the row. -/
theorem value_ofRow (dims params : ℕ → ℤ) :
    form.HasLayout (row.length - (1 + paramCount)) paramCount
      ∧ form.value dims params = rowValue row paramCount dims params := by
  obtain ⟨long_enough, rfl⟩ := ofRow_ok done
  refine ⟨⟨by simp, ?_⟩, rfl⟩
  simp only [length_take, length_drop]
  omega

end

/-! ### Changing the layout -/

theorem dot_accumulate {result : List ℤ} {added : ℤ} (done : accumulate columns place added = .ok result) (values : ℕ → ℤ) :
    result.length = columns.length ∧ dot result values = dot columns values + added * values place := by
  simp only [accumulate, bind_ok, pure_ok, ofOption_ok, Word.add_ok_iff] at done
  obtain ⟨old, found, _, ⟨_, rfl⟩, rfl⟩ := done
  obtain ⟨inside, old_eq⟩ := List.getElem?_eq_some_iff.mp found
  refine ⟨length_set, ?_⟩
  rw [dot_set inside, getD_eq_getElem _ _ inside, old_eq]
  ring

theorem dot_place {result : List ℤ} (same_length : positions.length = coefficients.length)
    (done : (coefficients.zip positions).foldlM
      (fun (columns : List ℤ) (entry : ℤ × ℕ) => accumulate columns entry.2 entry.1) columns = .ok result) (values : ℕ → ℤ) :
    result.length = columns.length ∧ dot result values
        = dot columns values + dot coefficients fun place => values (positions.getD place 0) := by
  induction coefficients generalizing columns positions with
  | nil =>
    rw [zip_nil_left, foldlM_nil, pure_ok] at done
    simp [done]
  | cons first later ih =>
    cases positions with
    | nil => simp at same_length
    | cons place others =>
      rw [zip_cons_cons, foldlM_cons, bind_ok] at done
      obtain ⟨next, placed, later_ok⟩ := done
      obtain ⟨next_length, next_sum⟩ := dot_accumulate placed values
      obtain ⟨result_length, result_sum⟩ := ih (Nat.succ.inj same_length) later_ok
      refine ⟨result_length.trans next_length, ?_⟩
      rw [result_sum, next_sum, dot_cons]
      simp only [getD_cons_zero, getD_cons_succ]
      ring

/-- An expression in a new layout has the value at the renamed dimensions. -/
theorem value_relayout (done : form.relayout dim positions = .ok result) (dims params : ℕ → ℤ) :
    positions.length = form.coeffs.length ∧ result.HasLayout dim form.params.length
      ∧ result.value dims params = form.value (fun place => dims (positions.getD place 0)) params := by
  simp only [relayout, bind_ok, pure_ok, require_ok] at done
  obtain ⟨_, same_length, _, _, columns, placed, rfl⟩ := done
  obtain ⟨columns_length, columns_sum⟩ := dot_place same_length placed dims
  rw [length_replicate] at columns_length
  rw [dot_replicate_zero, zero_add] at columns_sum
  refine ⟨same_length, ⟨columns_length, rfl⟩, ?_⟩
  rw [value, value, columns_sum]

/-- Consecutive positions, as far as they are words. -/
theorem consecutive_ok (done : Size.consecutive start count = .ok positions) :
    positions = (List.range count).map (start + ·) := by
  have each : ∀ {wanted found : List ℕ}, wanted.mapM (Size.add start) = .ok found → found = wanted.map (start + ·) := by
    intro wanted found moved
    rw [mapM_ok] at moved
    induction moved with
    | nil => rfl
    | cons first_ok _ ih =>
      obtain ⟨_, rfl⟩ := Size.add_ok_iff.mp first_ok
      rw [map_cons, ih]
  exact each done

theorem getD_consecutive (inside : place < count) :
    ((List.range count).map (start + ·)).getD place 0 = start + place := by
  simp [getD_eq_getElem?_getD, inside]

/-- An embedded expression has the value at the dimensions from the offset on. -/
theorem value_embed {offset : ℕ} (done : form.embed dim offset = .ok result) (dims params : ℕ → ℤ) :
    result.HasLayout dim form.params.length
      ∧ result.value dims params = form.value (fun place => dims (offset + place)) params := by
  simp only [embed, bind_ok] at done
  obtain ⟨positions, consecutive, moved⟩ := done
  rw [consecutive_ok consecutive] at moved
  obtain ⟨_, layout, value_eq⟩ := value_relayout moved dims params
  refine ⟨layout, value_eq.trans (value_congr fun place inside => ?_)⟩
  rw [getD_consecutive inside]

/-! ### Matching parameters by name -/

/-- No two coefficients other than zero belong to parameters of one name. -/
def NamesOnce (names : List String) (coefficients : List ℤ) : Prop :=
  ∀ first second : ℕ, coefficients.getD first 0 ≠ 0 → coefficients.getD second 0 ≠ 0 →
    names[first]? = names[second]? → first = second

theorem namesOnce_of_nodup {names : List String} (distinct : names.Nodup) (short : coefficients.length ≤ names.length) :
    NamesOnce names coefficients := by
  intro first second first_nonzero _ same_name
  have inside : first < names.length := by
    by_contra beyond
    have missing : coefficients.length ≤ first := by omega
    exact first_nonzero (getD_eq_default _ _ missing)
  exact (getElem?_inj inside distinct).mp same_name

/-- The first position of a name, or the length of the list without it. -/
def namePosition (names : List String) (name : String) : ℕ := names.findIdx (· = name)

theorem paramPosition_ok {found : ℕ} (done : paramPosition source target place = .ok found) :
    ∃ name, source[place]? = some name ∧ target[found]? = some name ∧ found = namePosition target name := by
  unfold paramPosition at done
  cases source_name : source[place]? with
  | none => simp [source_name] at done
  | some name =>
    cases search : target.findIdx? (· = name) with
    | none => simp [source_name, search] at done
    | some index =>
      simp only [source_name, search, Except.ok.injEq] at done
      obtain ⟨inside, is_name, _⟩ := findIdx?_eq_some_iff_getElem.mp search
      refine ⟨name, rfl, ?_, ?_⟩
      · rw [← done, getElem?_eq_getElem inside]
        simpa using is_name
      · rw [← done, namePosition, (findIdx?_eq_some_iff_findIdx_eq.mp search).2]

/-- What the first `count` coefficients have been aligned to: the same sum, at names of theirs. -/
structure AlignedUpTo (source target : List String) (coefficients : List ℤ) (count : ℕ) (aligned : List ℤ) : Prop where
  length : aligned.length = target.length
  sum_eq : ∀ values : String → ℤ,
    dot aligned (named target values) = dot (coefficients.take count) (named source values)
  placed : ∀ values : ℕ → ℤ, dot aligned values
    = dot (coefficients.take count) fun place => values (namePosition target (source.getD place ""))
  origin : ∀ place : ℕ, aligned.getD place 0 ≠ 0 →
    ∃ earlier < count, coefficients.getD earlier 0 ≠ 0 ∧ source[earlier]? = target[place]?

/-- Aligning one more coefficient. A name that was used before would be overwritten, which is why names
    may not repeat. -/
theorem AlignedUpTo.next {aligned result : List ℤ} (so_far : AlignedUpTo source target coefficients count aligned)
    (once : NamesOnce source coefficients) (inside : count < coefficients.length)
    (done : (if coefficients[count] = 0 then .ok aligned
      else do return aligned.set (← paramPosition source target count) coefficients[count] : Checked (List ℤ))
        = .ok result) : AlignedUpTo source target coefficients (count + 1) result := by
  have current : coefficients.getD count 0 = coefficients[count] := getD_eq_getElem _ _ inside
  have taken : coefficients.take (count + 1) = coefficients.take count ++ [coefficients[count]] :=
    take_succ_eq_append_getElem inside
  have taken_length : (coefficients.take count).length = count := by
    rw [length_take]
    omega
  by_cases vanishes : coefficients[count] = 0
  · rw [if_pos vanishes, Except.ok.injEq] at done
    rw [← done]
    refine ⟨so_far.length, fun values => ?_, fun values => ?_, fun place nonzero => ?_⟩
    · rw [taken, dot_append, so_far.sum_eq, vanishes]
      simp
    · rw [taken, dot_append, so_far.placed, vanishes]
      simp
    · obtain ⟨earlier, before, earlier_nonzero, same_name⟩ := so_far.origin place nonzero
      exact ⟨earlier, by omega, earlier_nonzero, same_name⟩
  · rw [if_neg vanishes] at done
    simp only [bind_ok, pure_ok] at done
    obtain ⟨found, placed, rfl⟩ := done
    obtain ⟨name, source_name, target_name, found_eq⟩ := paramPosition_ok placed
    have found_inside : found < aligned.length := by
      rw [so_far.length]
      exact (List.getElem?_eq_some_iff.mp target_name).1
    -- an earlier coefficient with this name would contradict the hypothesis on names
    have was_zero : aligned.getD found 0 = 0 := by
      by_contra nonzero
      obtain ⟨earlier, before, earlier_nonzero, same_name⟩ := so_far.origin found nonzero
      have same := once earlier count earlier_nonzero (by rw [current]; exact vanishes)
        (by rw [same_name, target_name, source_name])
      omega
    refine ⟨by rw [length_set, so_far.length], fun values => ?_, fun values => ?_, fun place nonzero => ?_⟩
    · have same_value : named target values found = named source values count := by
        simp [named, getD_eq_getElem?_getD, source_name, target_name]
      rw [dot_set found_inside, was_zero, so_far.sum_eq, taken, dot_append, taken_length, same_value]
      simp
    · rw [dot_set found_inside, was_zero, so_far.placed, taken, dot_append, taken_length, found_eq]
      simp [source_name]
    · by_cases here : place = found
      · exact ⟨count, by omega, by rw [current]; exact vanishes, by rw [here, source_name, target_name]⟩
      · have unchanged : (aligned.set found coefficients[count]).getD place 0 = aligned.getD place 0 := by
          simp [getD_eq_getElem?_getD, getElem?_set_ne (Ne.symm here)]
        rw [unchanged] at nonzero
        obtain ⟨earlier, before, earlier_nonzero, same_name⟩ := so_far.origin place nonzero
        exact ⟨earlier, by omega, earlier_nonzero, same_name⟩

theorem dot_alignCoefficients {result : List ℤ} (once : NamesOnce source coefficients)
    (done : alignCoefficients source target coefficients = .ok result) : result.length = target.length
      ∧ (∀ values : String → ℤ, dot result (named target values) = dot coefficients (named source values)) ∧ ∀ values : ℕ → ℤ,
        dot result values = dot coefficients fun place => values (namePosition target (source.getD place "")) := by
  have general : ∀ (later : List ℤ) (count : ℕ) {aligned final : List ℤ}, coefficients.drop count = later →
      AlignedUpTo source target coefficients count aligned →
      (later.zipIdx count).foldlM (fun (aligned : List ℤ) (entry : ℤ × ℕ) =>
        if entry.1 = 0 then .ok aligned
        else do return aligned.set (← paramPosition source target entry.2) entry.1) aligned = .ok final →
      AlignedUpTo source target coefficients (count + later.length) final := by
    intro later
    induction later with
    | nil =>
      intro count aligned final _ so_far folded
      rw [zipIdx_nil, foldlM_nil, pure_ok] at folded
      rw [← folded]
      exact so_far
    | cons first rest ih =>
      intro count aligned final dropped so_far folded
      rw [zipIdx_cons, foldlM_cons, bind_ok] at folded
      obtain ⟨next, step_ok, rest_ok⟩ := folded
      have inside : count < coefficients.length := by
        by_contra beyond
        rw [drop_eq_nil_of_le (by omega)] at dropped
        exact absurd dropped (cons_ne_nil _ _).symm
      rw [drop_eq_getElem_cons inside, List.cons.injEq] at dropped
      obtain ⟨first_eq, rest_eq⟩ := dropped
      rw [← first_eq] at step_ok
      have extended := ih (count + 1) rest_eq (so_far.next once inside step_ok) rest_ok
      rw [length_cons]
      rwa [show count + (rest.length + 1) = count + 1 + rest.length by omega]
  have at_start : AlignedUpTo source target coefficients 0 (List.replicate target.length 0) := by
    refine ⟨length_replicate, by simp, by simp, fun place nonzero => ?_⟩
    exact absurd (by simp) nonzero
  have whole := general coefficients 0 drop_zero at_start done
  refine ⟨whole.length, fun values => ?_, fun values => ?_⟩
  · rw [whole.sum_eq values, Nat.zero_add, take_length]
  · rw [whole.placed values, Nat.zero_add, take_length]

/-- An expression over another parameter list has the same value under values by name. -/
theorem value_alignParams (once : NamesOnce source form.params) (done : form.alignParams source target = .ok result) :
    result.HasLayout form.coeffs.length target.length ∧ (∀ (dims : ℕ → ℤ) (values : String → ℤ),
          result.value dims (named target values) = form.value dims (named source values))
      ∧ ∀ dims params : ℕ → ℤ, result.value dims params
          = form.value dims fun place => params (namePosition target (source.getD place "")) := by
  simp only [alignParams, bind_ok, pure_ok] at done
  obtain ⟨aligned, aligned_ok, rfl⟩ := done
  obtain ⟨length_eq, sum_eq, placed⟩ := dot_alignCoefficients once aligned_ok
  refine ⟨⟨rfl, length_eq⟩, fun dims values => ?_, fun dims params => ?_⟩
  · rw [value, value, sum_eq]
  · rw [value, value, placed]

end AffineForm

end AffineSchedule
