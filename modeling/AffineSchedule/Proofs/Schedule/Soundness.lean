import AffineSchedule.Proofs.Schedule.Problem

namespace AffineSchedule

open List Schedule StatementSchedule
open AffineSchedule.Relation (shifted)

variable {row : ℕ} {params : ℕ → ℤ} {x y : List ℤ}

theorem le_of_rows_le (length_eq : x.length = y.length)
    (rows_le : ∀ row, (∀ earlier < row, x.getD earlier 0 = y.getD earlier 0) → x.getD row 0 ≤ y.getD row 0) : x ≤ y := by
  by_contra backwards
  rcases List.lt_iff_exists.mp (lt_of_not_ge backwards) with ⟨_, shorter⟩ | ⟨row, y_inside, x_inside, agree, lt⟩
  · exact absurd shorter (Nat.not_lt.mpr length_eq.le)
  · have row_le := rows_le row fun earlier earlier_lt => by
      rw [getD_eq_getElem _ _ (earlier_lt.trans x_inside), getD_eq_getElem _ _ (earlier_lt.trans y_inside)]
      exact (agree earlier earlier_lt).symm
    rw [getD_eq_getElem _ _ x_inside, getD_eq_getElem _ _ y_inside] at row_le
    exact absurd lt (not_lt.mpr row_le)

namespace StatementSchedule

variable {S T : StatementSchedule} {p q : Node} (p_shown : S.Shows p) (q_shown : T.Shows q)
include p_shown q_shown

theorem agreeBefore_of_earlier (agree : ∀ earlier < row, (S.time params x).getD earlier 0 = (T.time params y).getD earlier 0) :
    p.AgreeBefore q row params (coordinates x) (coordinates y) := by
  intro earlier before _
  rw [← p_shown.getD_time, ← q_shown.getD_time]
  exact agree earlier before.lt

theorem agreeBefore_of_inBand {first : ℕ} (in_band : S.InBand row first ∨ T.InBand row first)
    (agree : ∀ earlier < first, (S.time params x).getD earlier 0 = (T.time params y).getD earlier 0) :
    p.AgreeBefore q row params (coordinates x) (coordinates y) := by
  intro earlier before other_before
  rw [← p_shown.getD_time, ← q_shown.getD_time]
  apply agree earlier
  rcases in_band with in_first | in_second
  · exact lt_of_inBand p_shown.bandEnds in_first before
  · exact lt_of_inBand q_shown.bandEnds in_second other_before

end StatementSchedule

namespace SchedulingProblem

variable {problem : SchedulingProblem} {options : Options} {schedule : Schedule}

/-- A problem that declares a statement is solved by its schedule. -/
theorem exists_solved (done : problem.schedule options = .ok schedule) {name : String} (declared : problem.Declares name) :
    ∃ start final, Solved problem schedule start final := by
  rcases solved_of_schedule done with ⟨_, undeclared⟩ | solved
  · obtain ⟨domain, found⟩ := declared.find?
    rw [undeclared name] at found
    cases found
  · exact solved

/-- The ends of a validity pair are in order, inside every band and lexicographically. -/
theorem Solved.time_le {start final : Graph} (solved : Solved problem schedule start final)
    {relation : Relation} (relation_mem : relation ∈ problem.validity) (once : relation.NamesOnce)
    {values : String → ℤ} {a b : Instance} (contains : relation.Contains values a b)
    (a_declared : problem.Declares a.statement) (b_declared : problem.Declares b.statement) :
    ∃ S x y, schedule.statement? a.statement = some S ∧ schedule.timeOf values a = some x
      ∧ schedule.timeOf values b = some y ∧ x.length = schedule.totalRows ∧ y.length = schedule.totalRows
      ∧ (∀ row first, S.InBand row first → (∀ earlier < first, x.getD earlier 0 = y.getD earlier 0) →
          x.getD row 0 ≤ y.getD row 0) ∧ x ≤ y := by
  have of_kind : relation ∈ problem.ofKind .validity := relation_mem
  obtain ⟨S, T, p, q, S_found, T_found, p_shown, q_shown, p_rows, q_rows, respects⟩ :=
    solved.respects of_kind once contains a_declared b_declared
  have x_length := p_shown.length_time p_rows (named schedule.params values) a.point
  have y_length := q_shown.length_time q_rows (named schedule.params values) b.point
  have row_le : ∀ row, p.AgreeBefore q row _ _ _ → p.timeAt row _ _ ≤ q.timeAt row _ _ := respects
  simp only [← p_shown.getD_time, ← q_shown.getD_time] at row_le
  refine ⟨S, _, _, S_found, by rw [timeOf, S_found]; rfl, by rw [timeOf, T_found]; rfl, x_length, y_length,
    fun row first in_band agree => ?_, le_of_rows_le (x_length.trans y_length.symm) fun row agree => ?_⟩
  · exact row_le row (agreeBefore_of_inBand p_shown q_shown (Or.inl in_band) agree)
  · exact row_le row (agreeBefore_of_earlier p_shown q_shown agree)

/-! ### Small problems -/

/-- The statement with all points of a number of dimensions. -/
def everywhere (name : String) (dim : ℕ) : Domain := Domain.unconstrained (Space.named name dim)

/-- The relation between two statements with a single instance each. -/
def afterwards (source target : String) : Relation :=
  { source := { name := source, dim := 0 }
    target := { name := target, dim := 0 }
    params := []
    disjuncts := [{ inputs := 0, outputs := 0, locals := 0, system := { dim := 0, params := 0, constraints := [] } }] }

section

variable (source target : String)

theorem shifted_contains (distance : ℤ) (values : String → ℤ) (coordinate : ℤ) :
    (shifted source target distance).Contains values ⟨source, [coordinate]⟩ ⟨target, [coordinate - distance]⟩ :=
  ⟨rfl, rfl, rfl, rfl, Relation.shifted_relates source target distance _ rfl⟩

theorem afterwards_contains (values : String → ℤ) :
    (afterwards source target).Contains values ⟨source, []⟩ ⟨target, []⟩ := by
  refine ⟨rfl, rfl, rfl, rfl, _, mem_singleton_self _, coordinates [], ⟨?_, ?_⟩, ?_⟩
  · exact fun _ inside => absurd inside (Nat.not_lt_zero _)
  · exact fun _ inside => absurd inside (Nat.not_lt_zero _)
  · exact fun _ constraint_mem => absurd constraint_mem not_mem_nil

theorem afterwards_namesOnce : (afterwards source target).NamesOnce := by
  intro conjunct conjunct_mem constraint constraint_mem
  obtain rfl := mem_singleton.mp conjunct_mem
  cases constraint_mem

end

/-- A line and its copy. -/
def copiedLine : SchedulingProblem :=
  { domain := [everywhere "S" 1, everywhere "T" 1]
    validity := [shifted "S" "T" 0]
    coincidence := [shifted "S" "T" 0] }

/-- Two single instances, each before the other. -/
def mutualPair : SchedulingProblem :=
  { domain := [everywhere "S" 0, everywhere "T" 0], validity := [afterwards "S" "T", afterwards "T" "S"] }

/-- The schedule of a line: its coordinate, then a constant. -/
def lineSchedule (name : String) (constant : ℤ) : StatementSchedule :=
  { space := Space.named name 1
    map := {
      space := Space.named name 1
      outputs := [{ constant := 0, coeffs := [1], params := [] }, { constant := constant, coeffs := [0], params := [] }] }
    bandEnds := [1, 2]
    bandIds := [0, 0]
    coincident := [true, false] }

/-- The schedule of a single instance at time zero. -/
def pointSchedule (name : String) : StatementSchedule :=
  { space := Space.named name 0
    map := { space := Space.named name 0, outputs := [{ constant := 0, coeffs := [], params := [] }] }
    bandEnds := [1]
    bandIds := [0]
    coincident := [false] }

/-- The copy runs behind the line at every coordinate. -/
def copiedLineSchedule : Schedule := ofStatements [] 2 [lineSchedule "S" 0, lineSchedule "T" 1]

/-- Both instances run at the same time. -/
def mutualPairSchedule : Schedule := ofStatements [] 1 [pointSchedule "S", pointSchedule "T"]

set_option maxRecDepth 100000 in
theorem copiedLine_schedule : copiedLine.schedule {} = .ok copiedLineSchedule := by
  apply Checked.ok_of_toOption
  decide +kernel

set_option maxRecDepth 100000 in
theorem mutualPair_schedule : mutualPair.schedule {} = .ok mutualPairSchedule := by
  apply Checked.ok_of_toOption
  decide +kernel

theorem copiedLine_declares : copiedLine.Declares "S" ∧ copiedLine.Declares "T" :=
  ⟨⟨everywhere "S" 1, mem_cons_self, rfl⟩, ⟨everywhere "T" 1, mem_cons_of_mem _ mem_cons_self, rfl⟩⟩

/-! ### Results -/

/-- Validity pairs are respected band by band, and so lexicographically: inside a band, no row orders a pair
    backwards that the rows before the band do not tell apart. -/
theorem validity_respected (done : problem.schedule options = .ok schedule) {relation : Relation}
    (relation_mem : relation ∈ problem.validity) (once : relation.NamesOnce) {values : String → ℤ} {a b : Instance}
    (contains : relation.Contains values a b) (a_declared : problem.Declares a.statement)
    (b_declared : problem.Declares b.statement) :
    ∃ S x y, schedule.statement? a.statement = some S ∧ schedule.timeOf values a = some x
      ∧ schedule.timeOf values b = some y ∧ x.length = schedule.totalRows ∧ y.length = schedule.totalRows
      ∧ (∀ row first, S.InBand row first → (∀ earlier < first, x.getD earlier 0 = y.getD earlier 0) →
          x.getD row 0 ≤ y.getD row 0) ∧ x ≤ y := by
  obtain ⟨start, final, solved⟩ := exists_solved done a_declared
  exact solved.time_le relation_mem once contains a_declared b_declared

theorem validity_respected_copiedLine : copiedLine.schedule {} = .ok copiedLineSchedule
    ∧ ∃ S x y, copiedLineSchedule.statement? "S" = some S ∧ copiedLineSchedule.timeOf (fun _ => 0) ⟨"S", [3]⟩ = some x
      ∧ copiedLineSchedule.timeOf (fun _ => 0) ⟨"T", [3]⟩ = some y ∧ x.length = 2 ∧ y.length = 2
      ∧ (∀ row first, S.InBand row first → (∀ earlier < first, x.getD earlier 0 = y.getD earlier 0) →
          x.getD row 0 ≤ y.getD row 0) ∧ x ≤ y :=
  ⟨copiedLine_schedule, validity_respected copiedLine_schedule (mem_singleton_self _)
    (Relation.shifted_namesOnce "S" "T" 0) (shifted_contains "S" "T" 0 _ 3) copiedLine_declares.1 copiedLine_declares.2⟩

/-- Rows that both statements flag as coincident give the ends of a coincidence pair equal times, if the rows
    before the band of either statement do. -/
theorem coincidence_respected (done : problem.schedule options = .ok schedule) {relation : Relation}
    (relation_mem : relation ∈ problem.coincidence) (once : relation.NamesOnce) {values : String → ℤ} {a b : Instance}
    (contains : relation.Contains values a b) (a_declared : problem.Declares a.statement)
    (b_declared : problem.Declares b.statement) :
    ∃ S T x y, schedule.statement? a.statement = some S ∧ schedule.statement? b.statement = some T
      ∧ schedule.timeOf values a = some x ∧ schedule.timeOf values b = some y
      ∧ x.length = schedule.totalRows ∧ y.length = schedule.totalRows
      ∧ ∀ row first, S.coincident[row]? = some true → T.coincident[row]? = some true →
          (S.InBand row first ∨ T.InBand row first) → (∀ earlier < first, x.getD earlier 0 = y.getD earlier 0) →
          x.getD row 0 = y.getD row 0 := by
  obtain ⟨start, final, solved⟩ := exists_solved done a_declared
  have of_kind : relation ∈ problem.ofKind .coincidence := relation_mem
  obtain ⟨S, T, p, q, S_found, T_found, p_shown, q_shown, p_rows, q_rows, respects⟩ :=
    solved.respects of_kind once contains a_declared b_declared
  refine ⟨S, T, _, _, S_found, T_found, by rw [timeOf, S_found]; rfl, by rw [timeOf, T_found]; rfl,
    p_shown.length_time p_rows _ _, q_shown.length_time q_rows _ _, fun row first S_flag T_flag in_band agree => ?_⟩
  have row_eq := respects row (agreeBefore_of_inBand p_shown q_shown in_band agree)
    (p_shown.coincident ▸ S_flag) (q_shown.coincident ▸ T_flag)
  rwa [← p_shown.getD_time, ← q_shown.getD_time] at row_eq

theorem coincidence_respected_copiedLine : copiedLine.schedule {} = .ok copiedLineSchedule
    ∧ ∃ S T x y, copiedLineSchedule.statement? "S" = some S ∧ copiedLineSchedule.statement? "T" = some T
      ∧ copiedLineSchedule.timeOf (fun _ => 0) ⟨"S", [3]⟩ = some x
      ∧ copiedLineSchedule.timeOf (fun _ => 0) ⟨"T", [3]⟩ = some y ∧ x.length = 2 ∧ y.length = 2
      ∧ ∀ row first, S.coincident[row]? = some true → T.coincident[row]? = some true →
          (S.InBand row first ∨ T.InBand row first) → (∀ earlier < first, x.getD earlier 0 = y.getD earlier 0) →
          x.getD row 0 = y.getD row 0 :=
  ⟨copiedLine_schedule, coincidence_respected copiedLine_schedule (mem_singleton_self _)
    (Relation.shifted_namesOnce "S" "T" 0) (shifted_contains "S" "T" 0 _ 3) copiedLine_declares.1 copiedLine_declares.2⟩

/-- The linear part of every schedule has full rank, and different points of a statement get different times. -/
theorem times_injective (done : problem.schedule options = .ok schedule) :
    ∀ S ∈ schedule.statements, S.linearPart.rank = S.space.dim
      ∧ ∀ (params : ℕ → ℤ) (x y : List ℤ), x.length = S.space.dim → y.length = S.space.dim → x ≠ y →
          S.time params x ≠ S.time params y := by
  intro S S_mem
  rcases solved_of_schedule done with ⟨no_statements, _⟩ | ⟨start, final, solved⟩
  · rw [no_statements] at S_mem
    cases S_mem
  · obtain ⟨node, node_mem, shows⟩ := solved.statements.exists_left S_mem
    have spans := solved.spans node node_mem
    refine ⟨shows.rank_linearPart spans, fun params x y x_length y_length different times_eq => ?_⟩
    exact different (shows.point_eq_of_time_eq (solved.laid_out node node_mem) spans x_length y_length times_eq)

theorem times_injective_copiedLine : copiedLine.schedule {} = .ok copiedLineSchedule ∧ (lineSchedule "T" 1).linearPart.rank = 1
    ∧ (lineSchedule "T" 1).time (fun _ => 0) [3] ≠ (lineSchedule "T" 1).time (fun _ => 0) [4] := by
  obtain ⟨rank_eq, injective⟩ :=
    times_injective copiedLine_schedule (lineSchedule "T" 1) (mem_cons_of_mem _ mem_cons_self)
  exact ⟨copiedLine_schedule, rank_eq, injective _ [3] [4] rfl rfl (by decide)⟩

/-- Pairs in both directions are scheduled between different statements only, at equal times. -/
theorem opposite_pairs_tie (done : problem.schedule options = .ok schedule) {forward backward : Relation}
    (forward_mem : forward ∈ problem.validity) (backward_mem : backward ∈ problem.validity)
    (forward_once : forward.NamesOnce) (backward_once : backward.NamesOnce) {values : String → ℤ} {a b : Instance}
    (a_instance : problem.HasInstance a) (b_instance : problem.HasInstance b) (different : a ≠ b)
    (there : forward.Contains values a b) (back : backward.Contains values b a) : a.statement ≠ b.statement
      ∧ ∃ time, schedule.timeOf values a = some time ∧ schedule.timeOf values b = some time := by
  obtain ⟨start, final, solved⟩ := exists_solved done a_instance.declares
  obtain ⟨_, x, y, _, x_time, y_time, _, _, _, x_le⟩ :=
    solved.time_le forward_mem forward_once there a_instance.declares b_instance.declares
  obtain ⟨_, y', x', _, y_time', x_time', _, _, _, y_le⟩ :=
    solved.time_le backward_mem backward_once back b_instance.declares a_instance.declares
  obtain rfl := Option.some.inj (x_time.symm.trans x_time')
  obtain rfl := Option.some.inj (y_time.symm.trans y_time')
  obtain rfl : x = y := le_antisymm x_le y_le
  refine ⟨fun same_statement => different ?_, x, x_time, y_time⟩
  obtain ⟨domain, a_found, a_length⟩ := a_instance
  obtain ⟨b_domain, b_found, b_length⟩ := b_instance
  rw [← same_statement, a_found] at b_found
  obtain rfl := Option.some.inj b_found
  obtain ⟨i, node, S, _, node_at, S_found, shows, dim_eq⟩ := solved.statement? a_found
  have node_mem := mem_of_getElem? node_at
  rw [timeOf, S_found] at x_time
  rw [timeOf, ← same_statement, S_found] at y_time
  have times_eq := Option.some.inj (x_time.trans y_time.symm)
  have points_eq := shows.point_eq_of_time_eq (solved.laid_out node node_mem) (solved.spans node node_mem)
    (a_length.trans dim_eq.symm) (b_length.trans dim_eq.symm) times_eq
  cases a
  cases b
  dsimp only at same_statement points_eq
  rw [same_statement, points_eq]

theorem opposite_pairs_tie_mutualPair : mutualPair.schedule {} = .ok mutualPairSchedule
    ∧ (⟨"S", []⟩ : Instance) ≠ ⟨"T", []⟩ ∧ "S" ≠ "T" ∧ ∃ time, mutualPairSchedule.timeOf (fun _ => 0) ⟨"S", []⟩ = some time
      ∧ mutualPairSchedule.timeOf (fun _ => 0) ⟨"T", []⟩ = some time :=
  ⟨mutualPair_schedule, by decide, opposite_pairs_tie mutualPair_schedule mem_cons_self
    (mem_cons_of_mem _ mem_cons_self) (afterwards_namesOnce "S" "T") (afterwards_namesOnce "T" "S")
    ⟨everywhere "S" 0, rfl, rfl⟩ ⟨everywhere "T" 0, rfl, rfl⟩ (by decide) (afterwards_contains "S" "T" _)
    (afterwards_contains "T" "S" _)⟩

end SchedulingProblem

end AffineSchedule
