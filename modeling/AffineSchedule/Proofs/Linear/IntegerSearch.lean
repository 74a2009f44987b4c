import AffineSchedule.Linear.Region
import AffineSchedule.Proofs.Linear.Optimality

namespace AffineSchedule

open Checked List

namespace Linear

variable {point : Point} {problem : Problem} {rows : List Row} {objectives : List Objective} {columns limit : ℕ}
  {regions : List Region} {σ : Assignment} {cutoff : Option (List ℚ)} {row : Row} {key : List ℚ}
  {incumbent : Incumbent}

/-! ### Columns of made rows -/

theorem Form.columns_insertTerm {term : ℕ × ℤ} {sorted result : List (ℕ × ℤ)}
    (done : insertTerm term sorted = .ok result) (term_inside : term.1 < columns)
    (sorted_inside : ∀ other ∈ sorted, other.1 < columns) : ∀ other ∈ result, other.1 < columns := by
  induction sorted generalizing result with
  | nil =>
    simp only [insertTerm, Except.ok.injEq] at done
    simpa [← done] using term_inside
  | cons first later ih =>
    have first_inside : first.1 < columns := sorted_inside first mem_cons_self
    have later_inside : ∀ other ∈ later, other.1 < columns :=
      fun other other_mem => sorted_inside other (mem_cons_of_mem first other_mem)
    unfold insertTerm at done
    split_ifs at done with smaller same
    · cases done
      exact forall_mem_cons.mpr ⟨term_inside, sorted_inside⟩
    · simp only [bind_ok, pure_ok] at done
      obtain ⟨_, _, rfl⟩ := done
      exact forall_mem_cons.mpr ⟨first_inside, later_inside⟩
    · simp only [bind_ok, pure_ok] at done
      obtain ⟨rest, rest_ok, rfl⟩ := done
      exact forall_mem_cons.mpr ⟨first_inside, ih rest_ok later_inside⟩

/-- A made row names columns of its form only. -/
theorem Row.within_make {sense : Sense} {form : Form} (made : Row.make sense form = .ok row) (within : form.Within columns) :
    row.form.Within columns := by
  simp only [Row.make, Form.compact, bind_ok, pure_ok] at made
  obtain ⟨_, ⟨merged, merged_ok, rfl⟩, rfl⟩ := made
  have merged_inside : ∀ other ∈ merged, other.1 < columns := by
    refine foldlM_invariant (fun sorted => ∀ other ∈ sorted, other.1 < columns) merged_ok (by simp) ?_
    intro sorted term next term_mem sorted_inside step_ok
    exact Form.columns_insertTerm step_ok (within term term_mem) sorted_inside
  intro term term_mem
  exact merged_inside term (mem_of_mem_filter term_mem)

theorem Form.within_addScaled {form other result : Form} {factor : ℤ} (added : form.addScaled other factor = .ok result)
    (form_within : form.Within columns) (other_within : other.Within columns) : result.Within columns := by
  unfold addScaled at added
  split_ifs at added
  · cases added
    exact form_within
  · simp only [scaleTerms, bind_ok, pure_ok, mapM_ok] at added
    obtain ⟨scaled, scaled_ok, _, _, _, _, rfl⟩ := added
    refine forall_mem_append.mpr ⟨form_within, scaled_ok.forall_mem ?_ other_within⟩
    rintro term _ _ ⟨_, _, rfl⟩ inside
    exact inside

theorem Form.within_combination {weighted : List (Form × ℤ)} {result : Form} (combined : combination weighted = .ok result)
    (within : ∀ part ∈ weighted, part.1.Within columns) : result.Within columns := by
  refine foldlM_invariant (fun total : Form => total.Within columns) combined (by simp [Within, zero]) ?_
  exact fun total part next part_mem total_within added => within_addScaled added total_within (within part part_mem)

theorem Form.within_difference {positive negative : ℕ} (positive_inside : positive < columns)
    (negative_inside : negative < columns) : (Form.difference positive negative).Within columns := by
  simp [Form.Within, Form.difference, positive_inside, negative_inside]

/-! ### Objective values -/

namespace Objective

/-- The values of objectives at an assignment. -/
def values (objectives : List Objective) (σ : Assignment) : List ℚ := objectives.map (Form.termsValue · σ)

theorem evaluate_ok {objective : Objective} {total : ℚ} (done : objective.evaluate point = .ok total) :
    Form.termsValue objective (Point.assignment point) = total ∧ ∀ term ∈ objective, term.1 < point.length := by
  have general : ∀ {start : ℚ} {later : Objective}, later.foldlM
      (fun total term => do return total + (term.2 : ℚ) * (← Checked.ofOption point[term.1]?)) start = .ok total →
      start + Form.termsValue later (Point.assignment point) = total ∧ ∀ term ∈ later, term.1 < point.length := by
    intro start later
    induction later generalizing start with
    | nil =>
      intro ended
      cases ended
      simp
    | cons term later ih =>
      intro ended
      simp only [foldlM_cons, bind_ok, pure_ok, ofOption_ok] at ended
      obtain ⟨_, ⟨found, found_at, rfl⟩, ended⟩ := ended
      obtain ⟨total_eq, later_inside⟩ := ih ended
      refine ⟨?_, forall_mem_cons.mpr ⟨(List.getElem?_eq_some_iff.mp found_at).1, later_inside⟩⟩
      have value_eq : Point.assignment point term.1 = found := by
        simp [Point.assignment, getD_eq_getElem?_getD, found_at]
      rw [← total_eq, Form.termsValue_cons, value_eq]
      ring
  simpa using general done

theorem evaluateAll_ok (done : evaluateAll objectives point = .ok key) : key = values objectives (Point.assignment point)
      ∧ ∀ objective ∈ objectives, ∀ term ∈ objective, term.1 < point.length := by
  rw [evaluateAll, mapM_ok] at done
  induction done with
  | nil => exact ⟨rfl, by simp⟩
  | cons evaluated _ ih =>
    obtain ⟨total_eq, inside⟩ := evaluate_ok evaluated
    exact ⟨by rw [ih.1, values, values, map_cons, total_eq], forall_mem_cons.mpr ⟨inside, ih.2⟩⟩

end Objective

open Objective (values)

/-- Values strictly below a bound, if there is one. -/
def Below (bound : Option (List ℚ)) (key : List ℚ) : Prop := ∀ best, bound = some best → key < best

theorem Incumbent.improves_iff : incumbent.Improves key ↔ Below incumbent.key key := by
  unfold Improves Below
  cases incumbent.key with
  | none => simp
  | some best => exact ⟨fun less other same => Option.some.inj same ▸ less, fun below => below best rfl⟩

theorem below_some_iff {best : List ℚ} : Below (some best) key ↔ key < best :=
  ⟨fun below => below best rfl, fun less _ same => Option.some.inj same ▸ less⟩

theorem Below.trans_le {other : List ℚ} (below : Below cutoff key) (le : other ≤ key) : Below cutoff other :=
  fun best is_bound => lt_of_le_of_lt le (below best is_bound)

namespace Problem

variable {extra : List Row} {value : ℚ} {children : List (List Row)} {budget column : ℕ}

/-! ### Branch and bound -/

/-- The assignment satisfies the rows of the problem and the extra ones, and is whole on the integer columns. -/
structure Admits (problem : Problem) (extra : List Row) (σ : Assignment) : Prop where
  satisfies : Satisfies σ (problem.rows ++ extra)
  whole : ∀ column : ℕ, problem.integer[column]? = some true → (σ column).den = 1

/-- The point has every column and is admitted. -/
structure SolvedBy (problem : Problem) (extra : List Row) (point : Point) : Prop
    extends Admits problem extra (Point.assignment point) where
  length : point.length = problem.columns

theorem Admits.of_subset {fewer : List Row} (admits : problem.Admits extra σ) (subset : fewer ⊆ extra) :
    problem.Admits fewer σ := by
  obtain ⟨old, new⟩ := forall_mem_append.mp admits.satisfies.holds
  exact ⟨⟨admits.satisfies.nonneg, forall_mem_append.mpr ⟨old, fun row row_mem => new row (subset row_mem)⟩⟩, admits.whole⟩

theorem Admits.append (admits : problem.Admits extra σ) (holds : row.Holds σ) : problem.Admits (extra ++ [row]) σ := by
  refine ⟨⟨admits.satisfies.nonneg, ?_⟩, admits.whole⟩
  rw [← append_assoc]
  exact forall_mem_append.mpr ⟨admits.satisfies.holds, forall_mem_singleton.mpr holds⟩

theorem Admits.eq_num (admits : problem.Admits extra σ) (integer : problem.integer[column]? = some true) :
    σ column = (σ column).num :=
  ((Rat.den_eq_one_iff _).mp (admits.whole column integer)).symm

/-- The value of a column of a point. -/
theorem assignment_eq_of_getElem? (found : point[column]? = some value) : Point.assignment point column = value := by
  simp [Point.assignment, getD_eq_getElem?_getD, found]

theorem whole_of_fractionalColumn (length : point.length = problem.columns)
    (none_fractional : problem.fractionalColumn point = none) (column : ℕ)
    (is_integer : problem.integer[column]? = some true) : (Point.assignment point column).den = 1 := by
  have unfound : (problem.integer.zip point).zipIdx.find? (fun entry => entry.1.1 && decide (entry.1.2.den ≠ 1)) = none := by
    by_contra found
    obtain ⟨entry, found⟩ := Option.ne_none_iff_exists'.mp found
    rw [fractionalColumn, found] at none_fractional
    cases none_fractional
  have inside : column < point.length := by
    rw [length]
    exact (List.getElem?_eq_some_iff.mp is_integer).1
  have value_found : point[column]? = some point[column] := getElem?_eq_getElem inside
  have entry_mem : ((true, point[column]), column) ∈ (problem.integer.zip point).zipIdx := by
    rw [mem_zipIdx_iff_getElem?]
    simp [getElem?_zip_eq_some, is_integer, value_found]
  have refused := find?_eq_none.mp unfound _ entry_mem
  rw [assignment_eq_of_getElem? value_found]
  simpa using refused

theorem integer_of_fractionalColumn (fractional : problem.fractionalColumn point = some (column, value)) :
    problem.integer[column]? = some true := by
  simp only [fractionalColumn, Option.bind_eq_bind, Option.bind_eq_some_iff, Option.pure_def,
    Option.some.injEq, Prod.mk.injEq] at fractional
  obtain ⟨entry, found, rfl, rfl⟩ := fractional
  have entry_mem := mem_of_find?_eq_some found
  have tested := find?_some found
  rw [mem_zipIdx_iff_getElem?, getElem?_zip_eq_some] at entry_mem
  rw [Bool.and_eq_true] at tested
  rw [entry_mem.1, tested.1]

/-- The nodes of a search below the extra rows: each keeps them, and names columns of the problem only. -/
def Opens (problem : Problem) (extra : List Row) (nodes : List (List Row)) : Prop :=
  ∀ rows ∈ nodes, extra ⊆ rows ∧ ∀ row ∈ rows, row.form.Within problem.columns

theorem opens_of_branches (keeps : extra ⊆ rows) (within : ∀ row ∈ rows, row.form.Within problem.columns)
    (integer : problem.integer[column]? = some true) (branched : branches rows column value = .ok children) :
    problem.Opens extra children ∧ ∀ σ, problem.Admits rows σ → ∃ child ∈ children, problem.Admits child σ := by
  simp only [branches, bind_ok, pure_ok, Word.add_ok_iff] at branched
  obtain ⟨bound, _, _, ⟨_, rfl⟩, up, up_made, down, down_made, rfl⟩ := branched
  have inside : column < problem.columns := (List.getElem?_eq_some_iff.mp integer).1
  have opened : ∀ {row : Row}, row.form.Within problem.columns →
      extra ⊆ rows ++ [row] ∧ ∀ other ∈ rows ++ [row], other.form.Within problem.columns := fun row_within =>
    ⟨fun _ row_mem => mem_append_left _ (keeps row_mem), forall_mem_append.mpr ⟨within, by simpa using row_within⟩⟩
  have up_within : up.form.Within problem.columns := by
    obtain ⟨_, _, made⟩ := bind_ok.mp up_made
    exact Row.within_make made (by simpa [Form.Within] using inside)
  have down_within : down.form.Within problem.columns := Row.within_make down_made (by simpa [Form.Within] using inside)
  refine ⟨forall_mem_cons.mpr ⟨opened down_within, forall_mem_singleton.mpr (opened up_within)⟩, ?_⟩
  intro σ admits
  have number_eq := admits.eq_num integer
  rcases le_or_gt (σ column).num bound with below | above
  · refine ⟨rows ++ [down], by simp, admits.append ?_⟩
    rw [Row.atMost_holds_iff down_made, number_eq]
    exact_mod_cast below
  · refine ⟨rows ++ [up], by simp, admits.append ?_⟩
    rw [Row.atLeast_holds_iff up_made, number_eq]
    exact_mod_cast above

section

variable (bounded : problem.Bounded) (within : ∀ row ∈ extra, row.form.Within problem.columns)
  (found : problem.rationalLexmin extra objectives = .ok (some point))
include bounded within found

/-- The point of a relaxation with extra rows. -/
theorem satisfies_of_rationalLexmin :
    point.length = problem.columns ∧ Satisfies (Point.assignment point) (problem.rows ++ extra) :=
  satisfies_of_lexmin (forall_mem_append.mpr ⟨bounded, within⟩) found

theorem values_le_of_rationalLexmin
    (evaluated : Objective.evaluateAll objectives point = .ok key) (satisfied : Satisfies σ (problem.rows ++ extra)) :
    key ≤ values objectives σ := by
  obtain ⟨rfl, inside⟩ := Objective.evaluateAll_ok evaluated
  rw [(satisfies_of_rationalLexmin bounded within found).1] at inside
  exact map_le_map_of_mem_optimal (optimal_of_lexmin (forall_mem_append.mpr ⟨bounded, within⟩) inside found) satisfied

end

/-- What has been found so far is a solution whose values are the bound and below the cutoff; until then, the cutoff is the
    bound. -/
structure Finds (problem : Problem) (extra : List Row) (objectives : List Objective) (cutoff : Option (List ℚ))
    (incumbent : Incumbent) : Prop where
  solved : ∀ best, incumbent.point = some best → problem.SolvedBy extra best
    ∧ incumbent.key = some (values objectives (Point.assignment best))
    ∧ Below cutoff (values objectives (Point.assignment best))
  unsolved : incumbent.point = none → incumbent.key = cutoff

theorem Finds.below (finds : problem.Finds extra objectives cutoff incumbent) (improves : Below incumbent.key key) :
    Below cutoff key := by
  cases found : incumbent.point with
  | none => exact finds.unsolved found ▸ improves
  | some best =>
    obtain ⟨_, key_eq, below⟩ := finds.solved best found
    exact below.trans_le (improves _ key_eq).le

/-- The assignment lies in a pending node, or its values are no better than the bound. -/
def Covers (problem : Problem) (objectives : List Objective) (pending : List (List Row)) (incumbent : Incumbent)
    (σ : Assignment) : Prop :=
  (∃ rows ∈ pending, problem.Admits rows σ) ∨ ¬ Below incumbent.key (values objectives σ)

theorem expand_spec (bounded : problem.Bounded) {next : Incumbent} {pending : List (List Row)} (keeps : extra ⊆ rows)
    (within : ∀ row ∈ rows, row.form.Within problem.columns) (finds : problem.Finds extra objectives cutoff incumbent)
    (relaxed : problem.rationalLexmin rows objectives = .ok (some point))
    (expanded : problem.expand objectives rows point incumbent = .ok (children, next)) :
    problem.Opens extra children ∧ problem.Finds extra objectives cutoff next
      ∧ ∀ σ, problem.Covers objectives (rows :: pending) incumbent σ →
        problem.Covers objectives (children ++ pending) next σ := by
  simp only [expand, bind_ok] at expanded
  obtain ⟨key, evaluated, decided⟩ := expanded
  have key_le : ∀ σ, problem.Admits rows σ → key ≤ values objectives σ := fun σ admits =>
    values_le_of_rationalLexmin bounded within relaxed evaluated admits.satisfies
  -- a pending node stays pending, so only the node itself and the bound matter
  have covers : (∀ σ, problem.Admits rows σ ∨ ¬ Below incumbent.key (values objectives σ) →
      (∃ child ∈ children, problem.Admits child σ) ∨ ¬ Below next.key (values objectives σ)) →
      ∀ σ, problem.Covers objectives (rows :: pending) incumbent σ →
        problem.Covers objectives (children ++ pending) next σ := by
    intro here σ covered
    rcases covered with ⟨node, node_mem, admits⟩ | beaten
    · rcases mem_cons.mp node_mem with rfl | later
      · exact (here σ (Or.inl admits)).imp_left fun ⟨child, child_mem, kept⟩ => ⟨child, mem_append_left _ child_mem, kept⟩
      · exact Or.inl ⟨node, mem_append_right _ later, admits⟩
    · exact (here σ (Or.inr beaten)).imp_left fun ⟨child, child_mem, kept⟩ => ⟨child, mem_append_left _ child_mem, kept⟩
  by_cases improves : incumbent.Improves key
  · rw [if_pos improves] at decided
    rw [Incumbent.improves_iff] at improves
    cases fractional : problem.fractionalColumn point with
    | none =>
      simp only [fractional, pure_ok, Prod.mk.injEq] at decided
      obtain ⟨rfl, rfl⟩ := decided
      obtain ⟨length, satisfied⟩ := satisfies_of_rationalLexmin bounded within relaxed
      have solved : problem.SolvedBy extra point := by
        have admits : problem.Admits rows (Point.assignment point) :=
          ⟨satisfied, whole_of_fractionalColumn length fractional⟩
        exact ⟨admits.of_subset keeps, length⟩
      obtain ⟨rfl, _⟩ := Objective.evaluateAll_ok evaluated
      refine ⟨by simp [Opens], ⟨?_, by simp⟩, covers fun σ kept => Or.inr ?_⟩
      · rintro best ⟨⟩
        exact ⟨solved, rfl, finds.below improves⟩
      · rw [below_some_iff, not_lt]
        rcases kept with admits | beaten
        · exact key_le σ admits
        · exact le_of_not_gt fun less => beaten (improves.trans_le less.le)
    | some entry =>
      obtain ⟨column, value⟩ := entry
      simp only [fractional, bind_ok, pure_ok, Prod.mk.injEq] at decided
      obtain ⟨_, branched, rfl, rfl⟩ := decided
      obtain ⟨opens, kept⟩ := opens_of_branches keeps within (integer_of_fractionalColumn fractional) branched
      exact ⟨opens, finds, covers fun σ => Or.imp_left (kept σ)⟩
  · rw [if_neg improves] at decided
    rw [Incumbent.improves_iff] at improves
    simp only [pure_ok, Prod.mk.injEq] at decided
    obtain ⟨rfl, rfl⟩ := decided
    refine ⟨by simp [Opens], finds, covers fun σ kept => Or.inr ?_⟩
    rcases kept with admits | beaten
    · exact fun below => improves (below.trans_le (key_le σ admits))
    · exact beaten

theorem searchNodes_spec (bounded : problem.Bounded) :
    ∀ (budget : ℕ) {pending : List (List Row)} {incumbent final : Incumbent}, problem.Opens extra pending →
      problem.Finds extra objectives cutoff incumbent →
      problem.searchNodes objectives limit budget pending incumbent = .ok final →
      problem.Finds extra objectives cutoff final ∧ ∀ σ, problem.Covers objectives pending incumbent σ →
        ¬ Below final.key (values objectives σ) := by
  intro budget
  induction budget with
  | zero =>
    intro pending incumbent final _ finds searched
    cases pending with
    | nil =>
      cases searched
      exact ⟨finds, fun σ covered => covered.resolve_left (by simp)⟩
    | cons rows later => simp [searchNodes] at searched
  | succ budget ih =>
    intro pending incumbent final opens finds searched
    cases pending with
    | nil =>
      cases searched
      exact ⟨finds, fun σ covered => covered.resolve_left (by simp)⟩
    | cons rows later =>
      obtain ⟨⟨keeps, within⟩, later_opens⟩ := forall_mem_cons.mp opens
      simp only [searchNodes, bind_ok] at searched
      obtain ⟨answer, relaxed, continued⟩ := searched
      cases answer with
      | none =>
        obtain ⟨final_finds, beaten⟩ := ih later_opens finds continued
        refine ⟨final_finds, fun σ covered => beaten σ ?_⟩
        refine covered.imp_left fun ⟨node, node_mem, admits⟩ => ?_
        rcases mem_cons.mp node_mem with rfl | in_later
        · exact absurd admits.satisfies (not_satisfies_of_lexmin (forall_mem_append.mpr ⟨bounded, within⟩) relaxed σ)
        · exact ⟨node, in_later, admits⟩
      | some point =>
        simp only [bind_ok] at continued
        obtain ⟨⟨children, next⟩, expanded, continued⟩ := continued
        obtain ⟨children_open, next_finds, covers⟩ := expand_spec bounded keeps within finds relaxed expanded
        obtain ⟨final_finds, beaten⟩ :=
          ih (forall_mem_append.mpr ⟨children_open, later_opens⟩) next_finds continued
        exact ⟨final_finds, fun σ covered => beaten σ (covers σ covered)⟩

/-- An integer minimization visits its first node like any other. -/
theorem searchNodes_of_integerLexmin {outcome : IntegerOutcome}
    (minimized : problem.integerLexmin extra objectives cutoff budget = .ok outcome) :
    ∃ final answer, problem.searchNodes objectives budget budget [extra] { key := cutoff, point := none } = .ok final
      ∧ final.point = outcome.solution ∧ problem.rationalLexmin extra objectives = .ok answer
      ∧ outcome.relaxationInfeasible = answer.isNone := by
  cases budget with
  | zero => simp [integerLexmin] at minimized
  | succ budget =>
    simp only [integerLexmin, bind_ok] at minimized
    obtain ⟨answer, relaxed, continued⟩ := minimized
    simp only [searchNodes, bind_ok]
    cases answer with
    | none =>
      rw [pure_ok] at continued
      exact ⟨_, none, ⟨none, relaxed, rfl⟩, by rw [← continued], relaxed, by rw [← continued]; rfl⟩
    | some first =>
      simp only [bind_ok, pure_ok] at continued
      obtain ⟨⟨children, next⟩, expanded, final, found, rfl⟩ := continued
      refine ⟨final, some first, ⟨some first, relaxed, ?_⟩, rfl, relaxed, rfl⟩
      rw [bind_ok]
      exact ⟨(children, next), expanded, by rwa [append_nil]⟩

/-- What an integer minimization finds, and what it excludes. -/
theorem integerLexmin_spec (bounded : problem.Bounded) {outcome : IntegerOutcome}
    (within : ∀ row ∈ extra, row.form.Within problem.columns)
    (minimized : problem.integerLexmin extra objectives cutoff budget = .ok outcome) :
    (∀ point, outcome.solution = some point → problem.SolvedBy extra point
        ∧ Below cutoff (values objectives (Point.assignment point))
        ∧ ∀ σ, problem.Admits extra σ → values objectives (Point.assignment point) ≤ values objectives σ)
      ∧ (outcome.solution = none → ∀ σ, problem.Admits extra σ → ¬ Below cutoff (values objectives σ)) := by
  obtain ⟨final, _, searched, final_eq, _⟩ := searchNodes_of_integerLexmin minimized
  have opens : problem.Opens extra [extra] := forall_mem_singleton.mpr ⟨List.Subset.refl extra, within⟩
  have blank : problem.Finds extra objectives cutoff { key := cutoff, point := none } := ⟨by simp, fun _ => rfl⟩
  obtain ⟨finds, beaten⟩ := searchNodes_spec bounded budget opens blank searched
  have excluded : ∀ σ, problem.Admits extra σ → ¬ Below final.key (values objectives σ) :=
    fun σ admits => beaten σ (Or.inl ⟨extra, mem_singleton_self extra, admits⟩)
  rw [← final_eq]
  constructor
  · intro point found
    obtain ⟨solved, key_eq, below⟩ := finds.solved point found
    refine ⟨solved, below, fun σ admits => ?_⟩
    have not_below := excluded σ admits
    rwa [key_eq, below_some_iff, not_lt] at not_below
  · intro unsolved
    rw [← finds.unsolved unsolved]
    exact excluded

/-- Integer minimization is exact. An answer satisfies the rows, is whole on the integer columns, has values below the
    cutoff and no greater than those of any other such assignment; without an answer no such assignment has values below the
    cutoff; and the relaxation is reported infeasible exactly if no assignment satisfies the rows. -/
theorem integerLexmin_exact (bounded : problem.Bounded) {budget : ℕ} {outcome : IntegerOutcome}
    (within : ∀ row ∈ extra, row.form.Within problem.columns)
    (minimized : problem.integerLexmin extra objectives cutoff budget = .ok outcome) :
    (∀ point, outcome.solution = some point → problem.SolvedBy extra point
        ∧ Below cutoff (values objectives (Point.assignment point))
        ∧ ∀ σ, problem.Admits extra σ → values objectives (Point.assignment point) ≤ values objectives σ)
      ∧ (outcome.solution = none → ∀ σ, problem.Admits extra σ → ¬ Below cutoff (values objectives σ))
      ∧ (outcome.relaxationInfeasible = true ↔ ¬ ∃ σ, Satisfies σ (problem.rows ++ extra)) := by
  obtain ⟨found, excluded⟩ := integerLexmin_spec bounded within minimized
  refine ⟨found, excluded, ?_⟩
  obtain ⟨_, answer, _, _, relaxed, reported⟩ := searchNodes_of_integerLexmin minimized
  rw [reported]
  cases answer with
  | none =>
    refine iff_of_true rfl fun ⟨σ, satisfied⟩ => ?_
    exact not_satisfies_of_lexmin (forall_mem_append.mpr ⟨bounded, within⟩) relaxed σ satisfied
  | some point =>
    exact iff_of_false (by simp) (not_not.mpr ⟨_, (satisfies_of_rationalLexmin bounded within relaxed).2⟩)

/-- The least integer that is at least three halves is two, and below a cutoff of two there is none. -/
theorem integerLexmin_exact_threeHalves :
    let problem : Problem :=
      { integer := [true], rows := [{ sense := .nonnegative, form := { terms := [(0, 2)], constant := -3 } }] }
    problem.SolvedBy [] [2] ∧ (∀ σ, problem.Admits [] σ → values [[(0, 1)]] (Point.assignment [2]) ≤ values [[(0, 1)]] σ)
      ∧ ∀ σ, problem.Admits [] σ → ¬ Below (some [2]) (values [[(0, 1)]] σ) := by
  intro problem
  have bounded : problem.Bounded := by
    unfold Problem.Bounded
    decide
  have unlimited : problem.integerLexmin [] [[(0, 1)]] none 9
      = .ok { solution := some [2], relaxationInfeasible := false } := by decide +kernel
  have limited : problem.integerLexmin [] [[(0, 1)]] (some [2]) 9
      = .ok { solution := none, relaxationInfeasible := false } := by decide +kernel
  obtain ⟨found, _⟩ := integerLexmin_exact bounded (by simp) unlimited
  obtain ⟨_, excluded, _⟩ := integerLexmin_exact bounded (by simp) limited
  obtain ⟨solved, _, least⟩ := found [2] rfl
  exact ⟨solved, least, excluded rfl⟩

end Problem

/-! ### Regions -/

namespace Region

variable {pairs : List (ℕ × ℕ)} {nodes : List (List Row)}

/-- Some variable of the region differs from zero. -/
def NonTrivial (region : Region) (σ : Assignment) : Prop := ∃ pair ∈ region.pairs, σ pair.1 ≠ σ pair.2

theorem areEqual_ok {equal : Bool} (tested : areEqual point pairs = .ok equal) :
    (equal = true → ∀ pair ∈ pairs, (pair.1 < point.length ∧ pair.2 < point.length)
        ∧ Point.assignment point pair.1 = Point.assignment point pair.2)
      ∧ (equal = false → ∃ pair ∈ pairs, Point.assignment point pair.1 ≠ Point.assignment point pair.2) := by
  induction pairs with
  | nil =>
    cases tested
    simp
  | cons pair later ih =>
    simp only [areEqual, bind_ok, ofOption_ok] at tested
    obtain ⟨_, negative_found, _, positive_found, rest⟩ := tested
    split_ifs at rest with same
    · obtain ⟨inside, differ⟩ := ih rest
      refine ⟨fun are_equal => forall_mem_cons.mpr ⟨⟨⟨?_, ?_⟩, ?_⟩, inside are_equal⟩, fun different => ?_⟩
      · exact (List.getElem?_eq_some_iff.mp negative_found).1
      · exact (List.getElem?_eq_some_iff.mp positive_found).1
      · rwa [Problem.assignment_eq_of_getElem? negative_found, Problem.assignment_eq_of_getElem? positive_found]
      · exact (differ different).imp fun _ found => ⟨mem_cons_of_mem pair found.1, found.2⟩
    · cases rest
      refine ⟨by simp, fun _ => ⟨pair, mem_cons_self, ?_⟩⟩
      rwa [Problem.assignment_eq_of_getElem? negative_found, Problem.assignment_eq_of_getElem? positive_found]

theorem firstTrivial_ok {found : Option Region} (tested : firstTrivial point regions = .ok found) :
    (∀ region, found = some region → region ∈ regions ∧ region.isTrivial point = .ok true)
      ∧ (found = none → ∀ region ∈ regions, region.NonTrivial (Point.assignment point)) := by
  induction regions with
  | nil =>
    cases tested
    simp
  | cons region later ih =>
    simp only [firstTrivial, bind_ok] at tested
    obtain ⟨trivial, region_tested, rest⟩ := tested
    cases trivial with
    | true =>
      simp only [if_true, pure_ok] at rest
      subst rest
      refine ⟨?_, by simp⟩
      rintro _ ⟨⟩
      exact ⟨mem_cons_self, region_tested⟩
    | false =>
      obtain ⟨of_some, of_none⟩ := ih rest
      refine ⟨fun other is_found => (of_some other is_found).imp_left (mem_cons_of_mem region), fun is_none => ?_⟩
      exact forall_mem_cons.mpr ⟨(areEqual_ok region_tested).2 rfl, of_none is_none⟩

theorem inside_of_isTrivial {region : Region} (is_trivial : region.isTrivial point = .ok true) :
    ∀ pair ∈ region.pairs, pair.1 < point.length ∧ pair.2 < point.length :=
  fun pair pair_mem => ((areEqual_ok is_trivial).1 rfl pair pair_mem).1

theorem within_of_branches (pairs_inside : ∀ pair ∈ pairs, pair.1 < columns ∧ pair.2 < columns)
    (within : ∀ row ∈ rows, row.form.Within columns) (branched : branches rows pairs = .ok nodes) :
    ∀ node ∈ nodes, ∀ row ∈ node, row.form.Within columns := by
  induction pairs generalizing rows nodes with
  | nil =>
    cases branched
    simp
  | cons pair later ih =>
    simp only [branches, exceeds, bind_ok, pure_ok] at branched
    obtain ⟨above, above_made, below, below_made, equal, equal_made, rest, rest_branched, rfl⟩ := branched
    obtain ⟨negative_inside, positive_inside⟩ := pairs_inside pair mem_cons_self
    have above_within : above.form.Within columns :=
      Row.within_make above_made (by simp [Form.Within, negative_inside, positive_inside])
    have below_within : below.form.Within columns :=
      Row.within_make below_made (by simp [Form.Within, negative_inside, positive_inside])
    have equal_within : equal.form.Within columns :=
      Row.within_make equal_made (Form.within_difference positive_inside negative_inside)
    have rest_within := ih (fun other other_mem => pairs_inside other (mem_cons_of_mem pair other_mem))
      (forall_mem_append.mpr ⟨within, by simpa using equal_within⟩) rest_branched
    refine forall_mem_cons.mpr ⟨?_, forall_mem_cons.mpr ⟨?_, rest_within⟩⟩
    · exact forall_mem_append.mpr ⟨within, by simpa using above_within⟩
    · exact forall_mem_append.mpr ⟨within, by simpa using below_within⟩

theorem exceeds_holds_iff {larger smaller : ℕ} (made : exceeds larger smaller = .ok row) (σ : Assignment) :
    row.Holds σ ↔ σ smaller + 1 ≤ σ larger := by
  rw [Row.make_holds_iff made, Sense.Admits, Form.value]
  simp only [Form.termsValue_cons, Form.termsValue_nil]
  push_cast
  constructor <;> intro holds <;> linarith

/-- A branch keeps the given rows, and its region stays non-trivial. -/
theorem differ_of_branches (branched : branches rows pairs = .ok nodes) :
    ∀ node ∈ nodes, ∀ σ, (∀ row ∈ node, row.Holds σ) → (∀ row ∈ rows, row.Holds σ) ∧ ∃ pair ∈ pairs, σ pair.1 ≠ σ pair.2 := by
  induction pairs generalizing rows nodes with
  | nil =>
    cases branched
    simp
  | cons pair later ih =>
    simp only [branches, bind_ok, pure_ok] at branched
    obtain ⟨above, above_made, below, below_made, equal, _, rest, rest_branched, rfl⟩ := branched
    refine forall_mem_cons.mpr ⟨fun σ holds => ?_, forall_mem_cons.mpr ⟨fun σ holds => ?_, fun node node_mem σ holds => ?_⟩⟩
    · have exceeded := (exceeds_holds_iff above_made σ).mp (holds above (by simp))
      exact ⟨(forall_mem_append.mp holds).1, pair, mem_cons_self, by linarith⟩
    · have exceeded := (exceeds_holds_iff below_made σ).mp (holds below (by simp))
      exact ⟨(forall_mem_append.mp holds).1, pair, mem_cons_self, by linarith⟩
    · obtain ⟨kept, other, other_mem, different⟩ := ih rest_branched node node_mem σ holds
      exact ⟨(forall_mem_append.mp kept).1, other, mem_cons_of_mem pair other_mem, different⟩

theorem admits_branches (branched : branches rows pairs = .ok nodes)
    (integral : ∀ pair ∈ pairs, problem.integer[pair.1]? = some true ∧ problem.integer[pair.2]? = some true)
    (differ : ∃ pair ∈ pairs, σ pair.1 ≠ σ pair.2) (admits : problem.Admits rows σ) :
    ∃ node ∈ nodes, problem.Admits node σ := by
  induction pairs generalizing rows nodes with
  | nil => simp at differ
  | cons pair later ih =>
    obtain ⟨negative, positive⟩ := pair
    simp only [branches, bind_ok, pure_ok] at branched
    obtain ⟨above, above_made, below, below_made, equal, equal_made, rest, rest_branched, rfl⟩ := branched
    obtain ⟨⟨negative_integer, positive_integer⟩, later_integral⟩ := forall_mem_cons.mp integral
    have negative_eq := admits.eq_num negative_integer
    have positive_eq := admits.eq_num positive_integer
    rcases lt_trichotomy (σ negative).num (σ positive).num with less | same | greater
    · refine ⟨rows ++ [above], by simp, admits.append ?_⟩
      rw [exceeds_holds_iff above_made, negative_eq, positive_eq]
      exact_mod_cast less
    · have values_eq : σ negative = σ positive := by rw [negative_eq, positive_eq, same]
      have equal_holds : equal.Holds σ := by
        rw [Row.make_holds_iff equal_made, Sense.Admits, Form.value_difference, values_eq, sub_self]
      have later_differ : ∃ pair ∈ later, σ pair.1 ≠ σ pair.2 := by
        obtain ⟨other, other_mem, different⟩ := differ
        rcases mem_cons.mp other_mem with rfl | in_later
        · exact absurd values_eq different
        · exact ⟨other, in_later, different⟩
      obtain ⟨node, node_mem, kept⟩ := ih rest_branched later_integral later_differ (admits.append equal_holds)
      exact ⟨node, by simp [node_mem], kept⟩
    · refine ⟨rows ++ [below], by simp, admits.append ?_⟩
      rw [exceeds_holds_iff below_made, negative_eq, positive_eq]
      exact_mod_cast greater

end Region

namespace Problem

variable {outcome : NonTrivialOutcome}

/-- What a search over regions has found is a solution at which no region is trivial, with its values. -/
def FindsNonTrivial (problem : Problem) (objectives : List Objective) (regions : List Region) (search : RegionSearch) : Prop :=
  ∀ key best, search.best = some (key, best) → problem.SolvedBy [] best
    ∧ (∀ region ∈ regions, region.NonTrivial (Point.assignment best)) ∧ key = values objectives (Point.assignment best)

/-- An exploration keeps what it finds and never loses a bound; in the end every admitted assignment of its branch at which
    no region is trivial is beaten. The induction is on the depth. -/
theorem exploreRegions_spec (bounded : problem.Bounded) :
    ∀ (depth : ℕ) {rows : List Row} {search final : RegionSearch}, (∀ row ∈ rows, row.form.Within problem.columns) →
      problem.FindsNonTrivial objectives regions search →
      problem.exploreRegions objectives regions limit depth rows search = .ok final →
      problem.FindsNonTrivial objectives regions final
        ∧ (∀ key, ¬ Below (search.best.map (·.1)) key → ¬ Below (final.best.map (·.1)) key)
        ∧ ((∀ region ∈ regions, ∀ pair ∈ region.pairs,
            problem.integer[pair.1]? = some true ∧ problem.integer[pair.2]? = some true) →
          ∀ σ, problem.Admits rows σ → (∀ region ∈ regions, region.NonTrivial σ) →
            ¬ Below (final.best.map (·.1)) (values objectives σ)) := by
  intro depth
  induction depth with
  | zero =>
    intro rows search final _ _ explored
    simp [exploreRegions] at explored
  | succ depth ih =>
    intro rows search final within finds explored
    simp only [exploreRegions, bind_ok] at explored
    obtain ⟨outcome, minimized, continued⟩ := explored
    obtain ⟨of_some, of_none⟩ := integerLexmin_spec bounded within minimized
    cases solution : outcome.solution with
    | none =>
      have best_eq : final.best = search.best := by
        simp only [solution] at continued
        split_ifs at continued
        all_goals
          rw [pure_ok] at continued
          rw [← continued]
      rw [FindsNonTrivial, best_eq]
      exact ⟨finds, fun _ beaten => beaten, fun _ σ admits _ => of_none solution σ admits⟩
    | some point =>
      simp only [solution, bind_ok] at continued
      obtain ⟨trivial, tested, continued⟩ := continued
      obtain ⟨solved, below, minimal⟩ := of_some point solution
      obtain ⟨of_trivial, none_trivial⟩ := Region.firstTrivial_ok tested
      cases trivial with
      | none =>
        simp only [bind_ok, pure_ok] at continued
        obtain ⟨key, evaluated, rfl⟩ := continued
        obtain ⟨rfl, _⟩ := Objective.evaluateAll_ok evaluated
        refine ⟨?_, fun key beaten => ?_, fun _ σ admits _ => ?_⟩
        · rintro key best ⟨⟩
          exact ⟨⟨solved.toAdmits.of_subset (nil_subset rows), solved.length⟩, none_trivial rfl, rfl⟩
        · rw [Option.map_some, below_some_iff]
          exact fun less => beaten (below.trans_le less.le)
        · rw [Option.map_some, below_some_iff, not_lt]
          exact minimal σ admits
      | some region =>
        simp only [bind_ok] at continued
        obtain ⟨nodes, branched, folded⟩ := continued
        obtain ⟨region_mem, is_trivial⟩ := of_trivial region rfl
        have nodes_within := Region.within_of_branches (solved.length ▸ Region.inside_of_isTrivial is_trivial) within branched
        obtain ⟨⟨final_finds, kept⟩, beaten, _⟩ := foldlM_collects
          (fun reached => problem.FindsNonTrivial objectives regions reached
            ∧ ∀ key, ¬ Below (search.best.map (·.1)) key → ¬ Below (reached.best.map (·.1)) key)
          (fun node reached => (∀ region ∈ regions, ∀ pair ∈ region.pairs,
              problem.integer[pair.1]? = some true ∧ problem.integer[pair.2]? = some true) →
            ∀ σ, problem.Admits node σ → (∀ region ∈ regions, region.NonTrivial σ) →
              ¬ Below (reached.best.map (·.1)) (values objectives σ)) folded ⟨finds, fun _ beaten => beaten⟩ (by
            rintro reached node next node_mem ⟨reached_finds, reached_kept⟩ step
            obtain ⟨next_finds, next_kept, node_beaten⟩ := ih (nodes_within node node_mem) reached_finds step
            exact ⟨⟨next_finds, fun key was_beaten => next_kept key (reached_kept key was_beaten)⟩, node_beaten,
              fun earlier was_beaten integral σ admits nontrivial =>
                next_kept _ (was_beaten integral σ admits nontrivial)⟩)
        refine ⟨final_finds, kept, fun integral σ admits nontrivial => ?_⟩
        obtain ⟨node, node_mem, node_admits⟩ :=
          Region.admits_branches branched (integral region region_mem) (nontrivial region region_mem) admits
        exact beaten node node_mem integral σ node_admits nontrivial

/-- A non-trivial minimization answers with what its exploration has found. -/
theorem exploreRegions_of_nonTrivialLexmin (found : problem.nonTrivialLexmin objectives regions limit = .ok outcome) :
    ∃ search, problem.exploreRegions objectives regions limit (regions.length + 1) []
        { best := none, firstInfeasible := none } = .ok search ∧ outcome.solution = search.best.map (·.2) := by
  simp only [nonTrivialLexmin, bind_ok] at found
  obtain ⟨search, explored, decided⟩ := found
  refine ⟨search, explored, ?_⟩
  cases best : search.best with
  | none =>
    cases infeasible : search.firstInfeasible with
    | none =>
      simp only [best, infeasible, pure_ok] at decided
      rw [← decided]
      rfl
    | some rows =>
      simp only [best, infeasible, bind_ok, pure_ok] at decided
      obtain ⟨_, _, rfl⟩ := decided
      rfl
  | some entry =>
    simp only [best, pure_ok] at decided
    rw [← decided]
    rfl

/-- The answer of a non-trivial minimization is a solution at which no region is trivial. -/
theorem solvedBy_of_nonTrivialLexmin (bounded : problem.Bounded)
    (found : problem.nonTrivialLexmin objectives regions limit = .ok outcome) (is_solution : outcome.solution = some point) :
    problem.SolvedBy [] point ∧ ∀ region ∈ regions, region.NonTrivial (Point.assignment point) := by
  obtain ⟨search, explored, solution_eq⟩ := exploreRegions_of_nonTrivialLexmin found
  obtain ⟨finds, _⟩ := exploreRegions_spec bounded _ (by simp) (by simp [FindsNonTrivial]) explored
  rw [solution_eq, Option.map_eq_some_iff] at is_solution
  obtain ⟨⟨key, best⟩, best_eq, rfl⟩ := is_solution
  exact ⟨(finds key best best_eq).1, (finds key best best_eq).2.1⟩

section Regions

variable (bounded : problem.Bounded) (integral : ∀ region ∈ regions, ∀ pair ∈ region.pairs,
  problem.integer[pair.1]? = some true ∧ problem.integer[pair.2]? = some true)
include bounded integral

/-- A non-trivial minimization excludes every better assignment at which no region is trivial. -/
theorem not_below_of_nonTrivialLexmin (found : problem.nonTrivialLexmin objectives regions limit = .ok outcome)
    (admits : problem.Admits [] σ) (nontrivial : ∀ region ∈ regions, region.NonTrivial σ) :
    ¬ Below (outcome.solution.map fun point => values objectives (Point.assignment point)) (values objectives σ) := by
  obtain ⟨search, explored, solution_eq⟩ := exploreRegions_of_nonTrivialLexmin found
  obtain ⟨finds, _, beaten⟩ := exploreRegions_spec bounded _ (by simp) (by simp [FindsNonTrivial]) explored
  have not_below := beaten integral σ admits nontrivial
  rw [solution_eq]
  cases best : search.best with
  | none => rwa [best] at not_below
  | some entry =>
    obtain ⟨key, point⟩ := entry
    obtain ⟨_, _, rfl⟩ := finds key point best
    rwa [best] at not_below

theorem solution_ne_none_of_nonTrivialLexmin (satisfied : Satisfies σ problem.rows)
    (whole : ∀ column : ℕ, problem.integer[column]? = some true → (σ column).den = 1)
    (nontrivial : ∀ region ∈ regions, region.NonTrivial σ)
    (found : problem.nonTrivialLexmin objectives regions limit = .ok outcome) : outcome.solution ≠ none := by
  intro unsolved
  have not_below := not_below_of_nonTrivialLexmin bounded integral found ⟨by rwa [append_nil], whole⟩ nontrivial
  rw [unsolved] at not_below
  exact not_below fun _ impossible => by cases impossible

/-- Non-trivial minimization is exact. An answer satisfies the rows, is whole on the integer columns and non-trivial on every
    region, and no such assignment has smaller values; without an answer there is no such assignment. -/
theorem nonTrivialLexmin_exact {outcome : NonTrivialOutcome}
    (found : problem.nonTrivialLexmin objectives regions limit = .ok outcome) :
    (∀ point, outcome.solution = some point → problem.SolvedBy [] point
        ∧ (∀ region ∈ regions, region.NonTrivial (Point.assignment point))
        ∧ ∀ σ, problem.Admits [] σ → (∀ region ∈ regions, region.NonTrivial σ) →
          values objectives (Point.assignment point) ≤ values objectives σ)
      ∧ (outcome.solution = none → ∀ σ, problem.Admits [] σ → ¬ ∀ region ∈ regions, region.NonTrivial σ) := by
  refine ⟨fun point solution => ?_, fun unsolved σ admits nontrivial => ?_⟩
  · obtain ⟨solved, nontrivial⟩ := solvedBy_of_nonTrivialLexmin bounded found solution
    refine ⟨solved, nontrivial, fun σ admits σ_nontrivial => ?_⟩
    have not_below := not_below_of_nonTrivialLexmin bounded integral found admits σ_nontrivial
    rwa [solution, Option.map_some, below_some_iff, not_lt] at not_below
  · have not_below := not_below_of_nonTrivialLexmin bounded integral found admits nontrivial
    rw [unsolved] at not_below
    exact not_below fun _ impossible => by cases impossible

end Regions

/-- A difference of two columns that may not vanish, while the second column is at most the first. -/
theorem nonTrivialLexmin_exact_difference :
    let problem : Problem :=
      { integer := [true, true]
        rows := [{ sense := .nonnegative, form := { terms := [(0, 1), (1, -1)], constant := 0 } }] }
    problem.SolvedBy [] [1, 0] ∧ ∀ σ, problem.Admits [] σ → Region.NonTrivial { pairs := [(0, 1)] } σ →
      values [[(1, 1)], [(0, 1)]] (Point.assignment [1, 0]) ≤ values [[(1, 1)], [(0, 1)]] σ := by
  intro problem
  have minimized : problem.nonTrivialLexmin [[(1, 1)], [(0, 1)]] [{ pairs := [(0, 1)] }] 9
      = .ok { solution := some [1, 0], conflictRow := none } := by decide +kernel
  obtain ⟨found, _⟩ := nonTrivialLexmin_exact (by unfold Problem.Bounded; decide) (by simp [problem]) minimized
  obtain ⟨solved, _, least⟩ := found [1, 0] rfl
  exact ⟨solved, fun σ admits nontrivial => least σ admits (forall_mem_singleton.mpr nontrivial)⟩

end Problem

end Linear

end AffineSchedule
