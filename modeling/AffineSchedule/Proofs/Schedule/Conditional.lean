import AffineSchedule.Proofs.Construction.Adjacent
import AffineSchedule.Proofs.Schedule.Contracts

namespace AffineSchedule

open AffineSchedule.Graph List AffineSchedule.Relation

variable {paramCount : ℕ} {node : Node} {x : TaggedInstance}

/-- The instance without its tag. -/
def TaggedInstance.untagged (x : TaggedInstance) : Instance := ⟨x.tuple.name, x.point.take x.tuple.dim⟩

theorem Relation.name_taggedEnd (relation : Relation) (side : Side) :
    (relation.taggedEnd side).name = (relation.endpoint side).name := by
  unfold taggedEnd
  split <;> rfl

theorem Node.LaidOut.timeAt_congr (laid_out : node.LaidOut paramCount) {params point other : ℕ → ℤ}
    (agree : ∀ index < node.space.dim, point index = other index) (row : ℕ) :
    node.timeAt row params point = node.timeAt row params other := by
  unfold timeAt
  rcases Nat.lt_or_ge row node.schedule.rows.length with inside | beyond
  · rw [getD_eq_getElem _ _ inside]
    refine AffineForm.rowValue_congr ?_ agree
    rw [node.schedule.uniform _ (getElem_mem inside), laid_out.cols, laid_out.params]
  · rw [getD_eq_default _ _ beyond]
    simp [AffineForm.rowValue]

theorem StatementSchedule.Shows.getD_time_untagged {statement : StatementSchedule} (shows : statement.Shows node)
    (laid_out : node.LaidOut paramCount) (dim_eq : node.space.dim = x.tuple.dim) (params : ℕ → ℤ) (row : ℕ) :
    (statement.time params x.untagged.point).getD row 0 = node.timeAt row params (coordinates x.point) := by
  rw [shows.getD_time]
  refine laid_out.timeAt_congr (fun index inside => ?_) row
  have in_point : index < x.tuple.dim := dim_eq ▸ inside
  simp [TaggedInstance.untagged, coordinates, in_point]

namespace SchedulingProblem

/-- A tagged instance belongs to a node of the finished graph, which gives it its times. -/
structure Timed (schedule : Schedule) (final : Graph) (values : String → ℤ) (x : TaggedInstance) (i : ℕ)
    (node : Node) (statement : StatementSchedule) (time : List ℤ) : Prop where
  node_at : final.nodes[i]? = some node
  shows : statement.Shows node
  statement_found : schedule.statement? x.tuple.name = some statement
  timeOf : schedule.timeOf values x.untagged = some time
  length_eq : time.length = schedule.totalRows
  at_row : ∀ row, time.getD row 0 = final.timeOf i row (named schedule.params values) x

section Tagged

variable {problem : SchedulingProblem} {options : Options} {schedule : Schedule} {start final : Graph}

theorem Solved.exists_timed (solved : Solved problem schedule start final) (declared : problem.Declares x.tuple.name) {i : ℕ}
    (found : start.findNode? x.tuple.name = some i) (dim_eq : start.dims[i]? = some x.tuple.dim) (values : String → ℤ) :
    ∃ node statement time, Timed schedule final values x i node statement time := by
  obtain ⟨domain, domain_found⟩ := declared.find?
  obtain ⟨index, node, statement, position_found, node_at, statement_found, shows, _⟩ := solved.statement? domain_found
  obtain rfl := Option.mem_unique found position_found
  have node_mem := mem_of_getElem? node_at
  obtain ⟨before, before_at, prolonged⟩ := solved.grows.nodes.getElem?_left node_at
  have node_dim : node.space.dim = x.tuple.dim := by
    rw [prolonged.space]
    exact dim_eq_of_dims before_at dim_eq
  have has_rows : node.HasRows schedule.totalRows := solved.rows ▸ solved.grows.has_rows node node_mem
  refine ⟨node, statement, statement.time (named schedule.params values) x.untagged.point, node_at, shows,
    statement_found, ?_, shows.length_time has_rows _ _, fun row => ?_⟩
  · rw [Schedule.timeOf, TaggedInstance.untagged, statement_found]
    rfl
  · rw [timeOf_eq node_at]
    exact shows.getD_time_untagged (solved.laid_out node node_mem) node_dim _ row

theorem Traced.exists_linksTagged (traced : Traced problem options schedule start final) {kind : Kind}
    (keeps_tags : keepsTags kind = true) {relation : Relation} (relation_mem : relation ∈ problem.ofKind kind)
    (once : relation.NamesOnce) {values : String → ℤ} {y : TaggedInstance}
    (related : relation.RelatesTagged (named relation.params values) x y) (x_declared : problem.Declares x.tuple.name)
    (y_declared : problem.Declares y.tuple.name) : ∃ i j, start.findNode? x.tuple.name = some i
      ∧ start.findNode? y.tuple.name = some j ∧ start.dims[i]? = some x.tuple.dim ∧ start.dims[j]? = some y.tuple.dim
      ∧ start.LinksTagged kind i j (named schedule.params values) x y := by
  obtain ⟨aligned, align_ok, start_ok⟩ := traced.of_problem
  have aligns := aligns_of_align align_ok
  obtain ⟨result, result_mem, result_ok⟩ := aligns.relations kind relation relation_mem
  obtain ⟨source_eq, target_eq, _⟩ := relates_alignParams_iff result_ok
  have entry_mem : (kind, aligned.ofKind kind) ∈ aligned.relations := mem_map.mpr ⟨kind, kind.mem_all, rfl⟩
  have built : Built aligned.params aligned.domain aligned.relations start :=
    ⟨aligns.domain_params, aligns.entry_params, start_ok⟩
  obtain ⟨params_eq, _⟩ := carries_of_build aligns.domain_params aligns.entry_params start_ok
  have result_related := relatesTagged_of_alignParams result_ok once related
  have x_name : x.tuple.name = result.source.name := by
    rw [result_related.source, name_taggedEnd]
    rfl
  have y_name : y.tuple.name = result.target.name := by
    rw [result_related.target, name_taggedEnd]
    rfl
  obtain ⟨_, x_found⟩ := x_declared.find?
  obtain ⟨_, y_found⟩ := y_declared.find?
  obtain ⟨i, _, i_found, _⟩ := traced.solved.nodes _ _ x_found
  obtain ⟨j, _, j_found, _⟩ := traced.solved.nodes _ _ y_found
  obtain ⟨_, admits⟩ := admits_of_build start_ok _ entry_mem result result_mem
  obtain ⟨source_dim, target_dim, _⟩ := admits i j (x_name ▸ i_found) (y_name ▸ j_found)
  refine ⟨i, j, i_found, j_found, ?_, ?_, ?_⟩
  · rw [result_related.source, dim_taggedEnd]
    exact source_dim
  · rw [result_related.target, dim_taggedEnd]
    exact target_dim
  · rw [traced.solved.params, params_eq]
    exact built.linksTagged entry_mem result_mem keeps_tags (aligns.relation_params kind result result_mem)
      (x_name ▸ i_found) (y_name ▸ j_found) result_related

end Tagged

/-- Conditional validity: take a conditional dependence and a condition that share a tagged instance and that the rows
    before a band do not tell apart. If a row of the band orders the dependence backwards, then all rows of the band give
    the ends of the condition equal times. -/
theorem conditional_validity_respected {problem : SchedulingProblem} {options : Options} {schedule : Schedule}
    (done : problem.schedule options = .ok schedule) {dependence condition : Relation}
    (dependence_mem : dependence ∈ problem.conditionalValidity) (condition_mem : condition ∈ problem.condition)
    (dependence_once : dependence.NamesOnce) (condition_once : condition.NamesOnce) {values : String → ℤ}
    {x y u w : TaggedInstance} (dependence_related : dependence.RelatesTagged (named dependence.params values) x y)
    (condition_related : condition.RelatesTagged (named condition.params values) u w) (adjacent : u = y ∨ w = x)
    (declared : ∀ z ∈ [x, y, u, w], problem.Declares z.tuple.name) :
    ∃ S T xs ys us ws, schedule.statement? x.tuple.name = some S ∧ schedule.statement? y.tuple.name = some T
      ∧ schedule.timeOf values x.untagged = some xs ∧ schedule.timeOf values y.untagged = some ys
      ∧ schedule.timeOf values u.untagged = some us ∧ schedule.timeOf values w.untagged = some ws
      ∧ (∀ time ∈ [xs, ys, us, ws], time.length = schedule.totalRows)
      ∧ ∀ row other first, (S.InBand row first ∧ S.InBand other first ∨ T.InBand row first ∧ T.InBand other first) →
          (∀ earlier < first, xs.getD earlier 0 = ys.getD earlier 0) →
          (∀ earlier < first, us.getD earlier 0 = ws.getD earlier 0) →
          ys.getD row 0 < xs.getD row 0 → us.getD other 0 = ws.getD other 0 := by
  simp only [forall_mem_cons, not_mem_nil, false_implies, implies_true, and_true] at declared ⊢
  obtain ⟨x_declared, y_declared, u_declared, w_declared⟩ := declared
  have dependence_of : dependence ∈ problem.ofKind .conditionalValidity := dependence_mem
  have condition_of : condition ∈ problem.ofKind .condition := condition_mem
  rcases (meets_schedule_blameless problem options).result schedule done with ⟨no_statements, _⟩ | ⟨start, final, traced⟩
  · obtain ⟨start, final, solved⟩ := exists_solved done x_declared
    obtain ⟨domain, found⟩ := x_declared.find?
    obtain ⟨_, _, _, _, _, statement_found, _⟩ := solved.statement? found
    rw [Schedule.statement?, no_statements] at statement_found
    cases statement_found
  · have solved := traced.solved
    obtain ⟨i, j, i_found, j_found, i_dim, j_dim, dependence_linked⟩ :=
      traced.exists_linksTagged rfl dependence_of dependence_once dependence_related x_declared y_declared
    obtain ⟨k, l, k_found, l_found, k_dim, l_dim, condition_linked⟩ :=
      traced.exists_linksTagged rfl condition_of condition_once condition_related u_declared w_declared
    obtain ⟨a, S, xs, x_timed⟩ := solved.exists_timed x_declared i_found i_dim values
    obtain ⟨b, T, ys, y_timed⟩ := solved.exists_timed y_declared j_found j_dim values
    obtain ⟨_, _, us, u_timed⟩ := solved.exists_timed u_declared k_found k_dim values
    obtain ⟨_, _, ws, w_timed⟩ := solved.exists_timed w_declared l_found l_dim values
    refine ⟨S, T, xs, ys, us, ws, x_timed.statement_found, y_timed.statement_found, x_timed.timeOf, y_timed.timeOf,
      u_timed.timeOf, w_timed.timeOf, ⟨x_timed.length_eq, y_timed.length_eq, u_timed.length_eq, w_timed.length_eq⟩, ?_⟩
    simp only [x_timed.at_row, y_timed.at_row, u_timed.at_row, w_timed.at_row]
    intro row other first in_band dependence_agrees condition_agrees backwards
    have shares : k = j ∧ u = y ∨ l = i ∧ w = x := by
      rcases adjacent with rfl | rfl
      · exact Or.inl ⟨Option.mem_unique k_found j_found, rfl⟩
      · exact Or.inr ⟨Option.mem_unique l_found i_found, rfl⟩
    have honoured := traced.course.honours ⟨i, j, k, l, named schedule.params values, x, y, u, w, shares⟩
      ⟨dependence_linked, condition_linked⟩
    have of_band : ∀ index node (statement : StatementSchedule), (index = i ∨ index = j) → final.nodes[index]? = some node →
        statement.Shows node → statement.InBand row first → statement.InBand other first →
        final.timeOf k other (named schedule.params values) u = final.timeOf l other (named schedule.params values) w := by
      intro index node statement at_end node_at shows row_in other_in
      obtain ⟨label, row_label, other_label⟩ := StatementSchedule.exists_common_label shows.bandEnds row_in other_in
      exact honoured index node at_end node_at label row other first (solved.start_rows ▸ Nat.zero_le row) row_label
        other_label (fun _ before => StatementSchedule.lt_of_inBand shows.bandEnds row_in before)
        (fun earlier earlier_lt => ⟨dependence_agrees earlier earlier_lt, condition_agrees earlier earlier_lt⟩) backwards
    rcases in_band with ⟨row_in, other_in⟩ | ⟨row_in, other_in⟩
    · exact of_band i a S (.inl rfl) x_timed.node_at x_timed.shows row_in other_in
    · exact of_band j b T (.inr rfl) y_timed.node_at y_timed.shows row_in other_in

/-- A point of a line, with the dummy tag. -/
def linePoint (name : String) (coordinate : ℤ) : TaggedInstance :=
  { tuple := { name := name, dim := 1, tag := some dummyTag }, point := [coordinate], fits := rfl }

theorem shifted_relatesTagged (source target : String) (distance : ℤ) (params : ℕ → ℤ) (coordinate : ℤ) :
    (shifted source target distance).RelatesTagged params (linePoint source coordinate)
      (linePoint target (coordinate - distance)) := by
  obtain ⟨conjunct, conjunct_mem, columns, joins, holds⟩ :=
    shifted_relates source target distance params (y := coordinates [coordinate - distance]) (x := coordinates [coordinate]) rfl
  obtain rfl := mem_singleton.mp conjunct_mem
  refine ⟨rfl, rfl, _, mem_singleton_self _, columns, fun position inside => ?_, joins.target, holds⟩
  exact (Nat.zero_add position).symm ▸ joins.source position inside

/-- A line whose points lead back to the ones before them, under the condition that its copy runs apart from it. -/
def watchedLine : SchedulingProblem :=
  { domain := [everywhere "S" 1, everywhere "T" 1]
    condition := [shifted "S" "T" 0]
    conditionalValidity := [shifted "T" "T" 1] }

set_option maxRecDepth 100000 in
theorem watchedLine_schedule : watchedLine.schedule {} = .ok copiedLineSchedule := by
  apply Checked.ok_of_toOption
  decide +kernel

theorem watchedLine_declares : ∀ z ∈ [linePoint "T" 3, linePoint "T" 2, linePoint "S" 3, linePoint "T" 3],
    watchedLine.Declares z.tuple.name := by
  have S_declared : watchedLine.Declares "S" := ⟨everywhere "S" 1, mem_cons_self, rfl⟩
  have T_declared : watchedLine.Declares "T" := ⟨everywhere "T" 1, mem_cons_of_mem _ mem_cons_self, rfl⟩
  simp only [forall_mem_cons, not_mem_nil, false_implies, implies_true, and_true]
  exact ⟨T_declared, T_declared, S_declared, T_declared⟩

/-- The first row orders the points of the line backwards, and it is the whole band; the copy runs along in it. -/
theorem conditional_validity_respected_watchedLine : watchedLine.schedule {} = .ok copiedLineSchedule
    ∧ ∃ xs ys us ws, copiedLineSchedule.timeOf (fun _ => 0) ⟨"T", [3]⟩ = some xs
      ∧ copiedLineSchedule.timeOf (fun _ => 0) ⟨"T", [2]⟩ = some ys
      ∧ copiedLineSchedule.timeOf (fun _ => 0) ⟨"S", [3]⟩ = some us
      ∧ copiedLineSchedule.timeOf (fun _ => 0) ⟨"T", [3]⟩ = some ws
      ∧ ys.getD 0 0 < xs.getD 0 0 ∧ us.getD 0 0 = ws.getD 0 0 := by
  obtain ⟨S, _, xs, ys, us, ws, S_found, _, xs_eq, ys_eq, us_eq, ws_eq, _, honoured⟩ :=
    conditional_validity_respected watchedLine_schedule (mem_singleton_self _) (mem_singleton_self _)
      (shifted_namesOnce "T" "T" 1) (shifted_namesOnce "S" "T" 0) (shifted_relatesTagged "T" "T" 1 (named _ fun _ => 0) 3)
      (shifted_relatesTagged "S" "T" 0 (named _ fun _ => 0) 3) (Or.inr rfl) watchedLine_declares
  have in_band : S.InBand 0 0 := by
    obtain rfl : lineSchedule "T" 1 = S := Option.some.inj S_found
    exact ⟨0, by decide, rfl, le_rfl, by decide⟩
  have backwards : ys.getD 0 0 < xs.getD 0 0 := by
    obtain rfl : [3, 1] = xs := Option.some.inj xs_eq
    obtain rfl : [2, 1] = ys := Option.some.inj ys_eq
    decide
  have nothing_before : ∀ {left right : List ℤ}, ∀ earlier < 0, left.getD earlier 0 = right.getD earlier 0 :=
    fun _ before => absurd before (Nat.not_lt_zero _)
  exact ⟨watchedLine_schedule, xs, ys, us, ws, xs_eq, ys_eq, us_eq, ws_eq, backwards,
    honoured 0 0 0 (Or.inl ⟨in_band, in_band⟩) nothing_before nothing_before backwards⟩

end SchedulingProblem

end AffineSchedule
