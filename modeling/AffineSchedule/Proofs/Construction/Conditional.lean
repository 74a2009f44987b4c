import AffineSchedule.Proofs.Construction.BandShapes
import AffineSchedule.Proofs.Construction.Readiness
import AffineSchedule.Proofs.Dependence.Tagged

namespace AffineSchedule

open Checked AffineSchedule.Graph List

/-! ### Answers of the check -/

variable {edge other : Edge} {graph : Graph} {params : ℕ → ℤ} {x y u w : TaggedInstance} {answer coincide : Bool}

theorem Relation.taggedEnd_of_isFullyTagged {relation : Relation} (fully : relation.isFullyTagged = true) (side : Side) :
    relation.taggedEnd side = relation.endpoint side := if_pos fully

/-- A condition that shares a tagged instance with a dependence is said to be adjacent to it. -/
theorem Relation.isAdjacent_eq_true {condition dependence : Relation} {names : List String}
    (condition_tagging : edge.relation.Tagging names condition) (dependence_tagging : other.relation.Tagging names dependence)
    (done : condition.isAdjacent dependence = .ok answer) (conditions : condition.RelatesTagged params u w)
    (depends : dependence.RelatesTagged params x y) (shares : u = y ∨ w = x) : answer = true := by
  have same_params : condition.params = dependence.params := condition_tagging.params.trans dependence_tagging.params.symm
  have condition_end := taggedEnd_of_isFullyTagged condition_tagging.fully
  have dependence_end := taggedEnd_of_isFullyTagged dependence_tagging.fully
  obtain ⟨u_tuple, w_tuple, left, left_mem, leftColumns, u_placed, w_placed, left_holds⟩ := conditions
  obtain ⟨x_tuple, y_tuple, right, right_mem, rightColumns, x_placed, y_placed, right_holds⟩ := depends
  rw [condition_end] at u_tuple w_tuple
  rw [dependence_end] at x_tuple y_tuple
  have meets := fun leftSide rightSide => (meets_sidesMeet leftSide rightSide condition_tagging.laid_out
    dependence_tagging.laid_out).result
  obtain ⟨starts, starts_ok, done⟩ := bind_ok.mp done
  cases starts with
  | true => exact (pure_ok.mp done).symm
  | false =>
    rcases shares with rfl | rfl
    · have noticed := (meets _ _ false starts_ok).complete ⟨same_params, params, u,
        ⟨u_tuple, left, left_mem, leftColumns, u_placed, left_holds⟩, y_tuple, right, right_mem, rightColumns, y_placed, right_holds⟩
      cases noticed
    · exact (meets _ _ answer done).complete ⟨same_params, params, w,
        ⟨w_tuple, left, left_mem, leftColumns, w_placed, left_holds⟩, x_tuple, right, right_mem, rightColumns, x_placed, right_holds⟩

namespace Graph

open Edge

variable {first row : ℕ} {violated : List Relation}

/-! ### Conditions of a band in progress -/

/-- The rows from a first one on give the ends of all pairs of a condition equal times. -/
def Levels (graph : Graph) (first : ℕ) (edge : Edge) : Prop :=
  ∀ params u w, edge.RelatesAs graph.params .condition params u w → ∀ row, first ≤ row →
    graph.timeOf edge.source row params u = graph.timeOf edge.target row params w

/-- A row orders a conditional dependence between two tagged instances backwards. -/
structure Reverses (graph : Graph) (edge : Edge) (row : ℕ) (params : ℕ → ℤ) (x y : TaggedInstance) :
    Prop where
  related : edge.RelatesAs graph.params .conditionalValidity params x y
  backwards : graph.timeOf edge.target row params y < graph.timeOf edge.source row params x

/-- A condition starts where a dependence ends, or ends where it starts. -/
def Adjoins (graph : Graph) (edge : Edge) (params : ℕ → ℤ) (x y : TaggedInstance) : Prop :=
  ∃ u w, edge.RelatesAs graph.params .condition params u w ∧ (u = y ∨ w = x)

/-- The rows of a band in progress give the ends of local conditions equal times, and a condition that adjoins a
    dependence that one of them orders backwards is local. -/
structure Conditioned (start graph : Graph) : Prop where
  level : ∀ edge ∈ graph.edges, edge.isLocal = true → graph.Levels start.counters.totalRows edge
  excused : ∀ edge ∈ graph.edges, ∀ row params x y, start.counters.totalRows ≤ row → graph.Reverses edge row params x y →
    ∀ other ∈ graph.edges, graph.Adjoins other params x y → other.isLocal = true

/-- A band without rows has equal times everywhere. -/
theorem conditioned_of_hasRows {start : Graph}
    (has_rows : ∀ node ∈ graph.nodes, node.HasRows start.counters.totalRows) : Conditioned start graph := by
  refine ⟨fun edge _ _ params u w _ row beyond => ?_, fun edge _ row params x y beyond reverses => ?_⟩
  · rw [timeOf_eq_zero has_rows beyond, timeOf_eq_zero has_rows beyond]
  · have backwards := reverses.backwards
    rw [timeOf_eq_zero has_rows beyond, timeOf_eq_zero has_rows beyond] at backwards
    exact absurd backwards (lt_irrefl 0)

section Twins

variable {next : Graph} {twin : Edge} (core_eq : edge.core = twin.core)
include core_eq

theorem Adjoins.of_core_eq (params_eq : next.params = graph.params) (adjoins : next.Adjoins twin params x y) :
    graph.Adjoins edge params x y := by
  obtain ⟨u, w, related, shares⟩ := adjoins
  exact ⟨u, w, (params_eq ▸ related).of_core_eq core_eq.symm, shares⟩

variable (same : next.SameRows graph)
include same

theorem Levels.of_core_eq (levels : graph.Levels first edge) : next.Levels first twin := by
  have source_eq : edge.source = twin.source := congrArg (·.source) core_eq
  have target_eq : edge.target = twin.target := congrArg (·.target) core_eq
  intro params u w related row from_first
  rw [same.timeOf_eq, same.timeOf_eq, ← source_eq, ← target_eq]
  exact levels params u w ((same.params ▸ related).of_core_eq core_eq.symm) row from_first

theorem Reverses.of_core_eq (reverses : next.Reverses twin row params x y) : graph.Reverses edge row params x y := by
  have source_eq : edge.source = twin.source := congrArg (·.source) core_eq
  have target_eq : edge.target = twin.target := congrArg (·.target) core_eq
  refine ⟨(same.params ▸ reverses.related).of_core_eq core_eq.symm, ?_⟩
  rw [source_eq, target_eq, ← same.timeOf_eq, ← same.timeOf_eq]
  exact reverses.backwards

end Twins

/-- Noting rows in the edges keeps what is known of the conditions. -/
theorem Conditioned.redrawn {start next : Graph} (conditioned : Conditioned start graph)
    (redrawn : next.Redrawn graph) : Conditioned start next := by
  have same := sameRows_of_core_eq redrawn.core_eq
  have twin_of_mem : ∀ edge ∈ next.edges, ∃ before ∈ graph.edges, before.core = edge.core ∧ edge.isLocal = before.isLocal := by
    intro edge edge_mem
    obtain ⟨before, before_mem, note⟩ := redrawn.edges.exists_left edge_mem
    exact ⟨before, before_mem, by rw [note]; rfl, congrArg (·.isLocal) note⟩
  refine ⟨fun edge edge_mem is_local => ?_, fun edge edge_mem row params x y from_start reverses other other_mem adjoins => ?_⟩
  · obtain ⟨before, before_mem, core_eq, local_eq⟩ := twin_of_mem edge edge_mem
    exact (conditioned.level before before_mem (local_eq ▸ is_local)).of_core_eq core_eq same
  · obtain ⟨before, before_mem, core_eq, _⟩ := twin_of_mem edge edge_mem
    obtain ⟨old, old_mem, old_core, local_eq⟩ := twin_of_mem other other_mem
    rw [local_eq]
    exact conditioned.excused before before_mem row params x y from_start (reverses.of_core_eq core_eq same) old old_mem
      (adjoins.of_core_eq old_core same.params)

section Rows

variable {a : Node} {start next : Graph} {rows : List (List ℤ)} {flag : Bool}
  (has_rows : ∀ node ∈ graph.nodes, node.HasRows graph.counters.totalRows)
  (done : graph.appendRow rows flag = .ok next)
include has_rows done

/-- The times of another row: the old rows, the new one, and no others. -/
theorem timeOf_appendRow {i : ℕ} (inside : row < graph.counters.totalRows) :
    next.timeOf i row params x = graph.timeOf i row params x :=
  timeOf_prolongs has_rows ((pushed_of_appendRow done).imp fun _ _ ⟨_, _, pushes⟩ => pushes.prolongs) inside

theorem timeOf_appendRow_last (well_formed : graph.WellFormed) {i : ℕ} (a_at : graph.nodes[i]? = some a) :
    ∃ row, rows[i]? = some row ∧ ∀ params x,
      next.timeOf i graph.counters.totalRows params x = AffineForm.rowValue row graph.params.length (coordinates x.point) params := by
  obtain ⟨after, after_at, _⟩ := (pushed_of_appendRow done).getElem?_right a_at
  obtain ⟨twin, row, twin_at, row_at, pushes, _⟩ := getElem?_of_appendRow done after_at
  obtain rfl := Option.mem_unique a_at twin_at
  have a_mem := mem_of_getElem? a_at
  refine ⟨row, row_at, fun params x => ?_⟩
  rw [timeOf_eq after_at, pushes.timeAt_last (has_rows a a_mem), (well_formed.nodes a a_mem).params]

theorem timeOf_appendRow_beyond {i : ℕ} (beyond : graph.counters.totalRows < row) : next.timeOf i row params x = 0 := by
  refine timeOf_eq_zero ((pushed_of_appendRow done).forall_mem (fun before after _ pushed before_rows => ?_) has_rows) beyond
  obtain ⟨_, _, pushes⟩ := pushed
  exact pushes.hasRows before_rows

theorem Conditioned.level_appendRow (conditioned : Conditioned start graph) (well_formed : graph.WellFormed)
    (found : graph.FoundRows coincide rows) :
    ∀ edge ∈ next.edges, edge.isLocal = true → next.Levels start.counters.totalRows edge := by
  intro edge edge_mem is_local params u w related row from_start
  rw [edges_of_appendRow done] at edge_mem
  rw [params_of_appendRow done] at related
  rcases Nat.lt_trichotomy row graph.counters.totalRows with inside | rfl | beyond
  · rw [timeOf_appendRow has_rows done inside, timeOf_appendRow has_rows done inside]
    exact conditioned.level edge edge_mem is_local params u w related row from_start
  · obtain ⟨a, b, a_at, b_at⟩ := well_formed.exists_ends edge_mem
    obtain ⟨a_row, a_row_at, a_time⟩ := timeOf_appendRow_last has_rows done well_formed a_at
    obtain ⟨b_row, b_row_at, b_time⟩ := timeOf_appendRow_last has_rows done well_formed b_at
    rw [a_time, b_time]
    exact found.locals edge edge_mem is_local params _ _ related.related a_row b_row a_row_at b_row_at
  · rw [timeOf_appendRow_beyond has_rows done beyond, timeOf_appendRow_beyond has_rows done beyond]

theorem Reverses.of_appendRow (reverses : next.Reverses edge row params x y) :
    graph.Reverses edge row params x y ∨ row = graph.counters.totalRows := by
  obtain ⟨related, backwards⟩ := reverses
  rw [params_of_appendRow done] at related
  rcases Nat.lt_trichotomy row graph.counters.totalRows with inside | is_last | beyond
  · rw [timeOf_appendRow has_rows done inside, timeOf_appendRow has_rows done inside] at backwards
    exact Or.inl ⟨related, backwards⟩
  · exact Or.inr is_last
  · rw [timeOf_appendRow_beyond has_rows done beyond, timeOf_appendRow_beyond has_rows done beyond] at backwards
    exact absurd backwards (lt_irrefl 0)

end Rows

/-! ### The check -/

/-- The row of a node that has it. -/
theorem rowValue_of_row {node : Node} {index : ℕ} {row : List ℤ} (found : node.schedule.row index = .ok row)
    (params point : ℕ → ℤ) : AffineForm.rowValue row node.space.params point params = node.timeAt index params point := by
  rw [RowMatrix.row, ofOption_ok] at found
  rw [Node.timeAt, getD_eq_getElem?_getD, found, Option.getD_some]

theorem mem_violatedRelations {edges : List Edge} (done : graph.violatedRelations edges = .ok violated)
    (edge_mem : edge ∈ edges) (has_kind : edge.has .conditionalValidity = true)
    (is_violated : ∀ answer, graph.isViolated edge = .ok answer → answer = true) {tagged : Relation}
    (tagged_mem : tagged ∈ edge.taggedValidity) : tagged ∈ violated := by
  induction edges generalizing violated with
  | nil => cases edge_mem
  | cons first later ih =>
    rw [violatedRelations] at done
    split at done
    case isFalse other_kind =>
      rcases mem_cons.mp edge_mem with rfl | in_later
      · exact absurd has_kind other_kind
      · exact ih done in_later
    case isTrue =>
      obtain ⟨answer, answer_ok, done⟩ := bind_ok.mp done
      cases answer with
      | true =>
        obtain ⟨rest, rest_ok, finished⟩ := bind_ok.mp done
        obtain rfl := pure_ok.mp finished
        rcases mem_cons.mp edge_mem with rfl | in_later
        · exact mem_append_left _ tagged_mem
        · exact mem_append_right _ (ih rest_ok in_later)
      | false =>
        rcases mem_cons.mp edge_mem with rfl | in_later
        · cases is_violated false answer_ok
        · exact ih done in_later

variable {unsatisfied : Bool} {before after : Edge}

theorem Localizes.isLocal (localizes : Localizes graph violated unsatisfied before after) (is_local : before.isLocal = true) :
    after.isLocal = true := by
  cases localizes with
  | kept => exact is_local
  | localized => rfl

section Check

variable {last : ℕ} (well_formed : graph.WellFormed)
  (has_rows : ∀ node ∈ graph.nodes, node.HasRows graph.counters.totalRows)
include well_formed has_rows

theorem isViolated_eq_true (edge_mem : edge ∈ graph.edges) (done : graph.isViolated edge = .ok answer)
    (last_eq : graph.counters.totalRows = last + 1) (reverses : graph.Reverses edge last params x y) : answer = true := by
  obtain ⟨a, b, a_at, b_at⟩ := well_formed.exists_ends edge_mem
  have laid_out := well_formed.edges edge edge_mem
  have a_laid_out := well_formed.nodes a (mem_of_getElem? a_at)
  have b_laid_out := well_formed.nodes b (mem_of_getElem? b_at)
  have height_eq : a.schedule.height = last + 1 := (has_rows a (mem_of_getElem? a_at)).height.trans last_eq
  simp only [isViolated, node, a_at, b_at, Checked.ofOption, bind_ok] at done
  obtain ⟨_, ⟨⟩, _, ⟨⟩, done⟩ := done
  rw [if_neg (by rw [height_eq]; exact Nat.succ_ne_zero last), height_eq, Nat.add_sub_cancel] at done
  simp only [bind_ok] at done
  obtain ⟨sourceRow, sourceRow_ok, targetRow, targetRow_ok, done⟩ := done
  have source_row := a.schedule.uniform sourceRow (mem_of_getElem? (ofOption_ok.mp sourceRow_ok))
  have target_row :=
    b.schedule.uniform targetRow (mem_of_getElem? (ofOption_ok.mp targetRow_ok))
  rw [a_laid_out.cols, dim_eq_of_dims a_at laid_out.source, ← laid_out.params] at source_row
  rw [b_laid_out.cols, dim_eq_of_dims b_at laid_out.target, ← laid_out.params] at target_row
  refine ((Relation.meets_ordersBackwards laid_out.relation source_row target_row).result answer done).complete
    ⟨params, _, _, reverses.related.related, ?_⟩
  have backwards := reverses.backwards
  rw [timeOf_eq a_at, timeOf_eq b_at, ← rowValue_of_row sourceRow_ok, ← rowValue_of_row targetRow_ok, a_laid_out.params,
    b_laid_out.params, ← laid_out.params] at backwards
  exact backwards

theorem levels_of_satisfiesCondition (edge_mem : edge ∈ graph.edges) (done : graph.satisfiesCondition edge = .ok true) :
    graph.Levels first edge := by
  intro params u w related row _
  obtain ⟨a, b, a_at, b_at⟩ := well_formed.exists_ends edge_mem
  obtain ⟨tagged, tagged_mem, tagging, tagged_related⟩ := related.tagged
  have laid_out := well_formed.edges edge edge_mem
  have a_laid_out := well_formed.nodes a (mem_of_getElem? a_at)
  have b_laid_out := well_formed.nodes b (mem_of_getElem? b_at)
  simp only [satisfiesCondition, node, a_at, b_at, Checked.ofOption, bind_ok] at done
  obtain ⟨_, ⟨⟩, _, ⟨⟩, done⟩ := done
  have always_equal := of_allM_ok_true done tagged_mem
  have meets := (Relation.meets_isAlwaysEqual tagging.laid_out
    (by rw [a_laid_out.cols, tagging.params, tagging.source, dim_eq_of_dims a_at laid_out.source])
    (by rw [b_laid_out.cols, tagging.params, tagging.target, dim_eq_of_dims b_at laid_out.target])).result true always_equal
  have agree : RowsAgree a.schedule b.schedule graph.params.length params (coordinates u.point) (coordinates w.point) := by
    intro pair pair_mem
    by_contra differ
    cases meets.complete ⟨pair, pair_mem, params, _, _, tagged_related.relates, tagging.params ▸ differ⟩
  rw [timeOf_eq a_at, timeOf_eq b_at]
  exact timeAt_eq_of_rowsAgree a_laid_out.params b_laid_out.params (has_rows a (mem_of_getElem? a_at))
    (has_rows b (mem_of_getElem? b_at)) agree row

/-- The check makes the conditions local that adjoin a dependence ordered backwards by the last row. -/
theorem Localizes.isLocal_of_reverses (violated_ok : graph.violatedRelations graph.edges = .ok violated)
    (last_eq : graph.counters.totalRows = last + 1) (edge_mem : edge ∈ graph.edges) (reverses : graph.Reverses edge last params x y)
    (localizes : Localizes graph violated unsatisfied before after) (adjoins : graph.Adjoins before params x y) :
    after.isLocal = true := by
  obtain ⟨u, w, conditions, shares⟩ := adjoins
  obtain ⟨dependence, dependence_mem, dependence_tagging, depends⟩ := reverses.related.tagged
  obtain ⟨condition, condition_mem, condition_tagging, conditioned⟩ := conditions.tagged
  have dependence_violated : dependence ∈ violated := mem_violatedRelations violated_ok edge_mem reverses.related.has_kind
    (fun _ answer_ok => isViolated_eq_true well_formed has_rows edge_mem answer_ok last_eq reverses) dependence_mem
  have adjacent : ∀ answer, before.isAdjacentTo violated = .ok answer → answer = true := fun answer answer_ok =>
    anyM_eq_true answer_ok condition_mem fun inner inner_ok => anyM_eq_true inner_ok dependence_violated
      fun result result_ok => Relation.isAdjacent_eq_true condition_tagging dependence_tagging result_ok conditioned depends
        shares
  cases localizes with
  | localized => rfl
  | kept far =>
    cases is_local : before.isLocal with
    | true => rfl
    | false => cases adjacent false (far conditions.has_kind is_local)

theorem level_of_checkConditional {checked : Graph} (done : graph.checkConditional = .ok (false, checked))
    (level : ∀ edge ∈ graph.edges, edge.isLocal = true → graph.Levels first edge) :
    ∀ edge ∈ checked.edges, edge.isLocal = true → checked.Levels first edge := by
  obtain ⟨_, _, _, _, localizes⟩ := localizes_of_checkConditional done
  intro edge edge_mem is_local
  obtain ⟨before, before_mem, edge_localizes⟩ := localizes.exists_left edge_mem
  refine Levels.of_core_eq edge_localizes.core_eq (sameRows_of_core_eq (core_of_checkConditional done)) ?_
  cases edge_localizes with
  | kept => exact level edge before_mem is_local
  | localized _ satisfied => exact levels_of_satisfiesCondition well_formed has_rows before_mem (satisfied rfl)

end Check

end Graph

/-! ### Filling a band -/

section Runs

variable {search : RowSearch} {state : Construction} {options : Options} {start : Graph}

theorem Graph.hasConditionalPairs_of_has (edges_eq : start.SameEdges graph) (edge_mem : edge ∈ graph.edges)
    (other_mem : other ∈ graph.edges) (has_dependence : edge.has .conditionalValidity = true)
    (has_condition : other.has .condition = true) : start.hasConditionalPairs = true := by
  have any_of_has : ∀ {kind : Kind} {edge : Edge}, edge ∈ graph.edges → edge.has kind = true →
      start.edges.any (·.has kind) = true := by
    intro kind edge edge_mem has_kind
    obtain ⟨twin, twin_mem, core_eq⟩ := edges_eq.exists_twin edge_mem
    exact any_eq_true.mpr ⟨twin, twin_mem, Edge.has_of_core_eq core_eq kind ▸ has_kind⟩
  rw [hasConditionalPairs, any_of_has other_mem has_condition, any_of_has edge_mem has_dependence]
  rfl

theorem Searched.conditioned (searched : Searched options coincide state search)
    (conditioned : Conditioned start state.graph) : Conditioned start search.graph := by
  have fresh : Conditioned start { state.graph with conflict := none } :=
    ⟨conditioned.level, fun edge edge_mem row params x y from_start reverses =>
      conditioned.excused edge edge_mem row params x y from_start ⟨reverses.related, reverses.backwards⟩⟩
  exact fresh.redrawn (redrawn_of_nextRow searched.done)

/-- A row that passes the check, or needs none, keeps what is known of the conditions. -/
theorem Extends.conditioned {rows : List (List ℤ)} {appended checked : Graph}
    (extends_band : Extends options start.hasCoincidence coincide state search rows appended)
    (filling : Filling start state.graph) (cache_sound : state.cache.Sound) (conditioned : Conditioned start state.graph)
    (check : appended.checkConditional = .ok (false, checked) ∨ start.hasConditionalPairs = false ∧ checked = appended) :
    Conditioned start checked := by
  have search_conditioned := extends_band.searched.conditioned conditioned
  obtain ⟨core_eq, _, found⟩ := extends_band.searched.sound filling cache_sound
  have search_stage := (filling.of_core_eq core_eq).stage
  have appended_stage := (extends_band.filling filling cache_sound).1.stage
  have appended_rows : appended.counters.totalRows = search.graph.counters.totalRows + 1 :=
    congrArg (·.counters.totalRows) (appendRow_ok extends_band.done).2.1
  have level := search_conditioned.level_appendRow search_stage.grows.has_rows extends_band.done search_stage.well_formed
    (found rows extends_band.found)
  rcases check with check_ok | ⟨no_pairs, rfl⟩
  · refine ⟨level_of_checkConditional appended_stage.well_formed appended_stage.grows.has_rows check_ok level, ?_⟩
    intro edge edge_mem row params x y from_start reverses other other_mem adjoins
    obtain ⟨_, _, violated, violated_ok, localizes⟩ := localizes_of_checkConditional check_ok
    have same := sameRows_of_core_eq (core_of_checkConditional check_ok)
    obtain ⟨before, before_mem, edge_localizes⟩ := localizes.exists_left edge_mem
    obtain ⟨old, old_mem, other_localizes⟩ := localizes.exists_left other_mem
    have before_reverses := reverses.of_core_eq edge_localizes.core_eq same
    have old_adjoins := adjoins.of_core_eq other_localizes.core_eq same.params
    rcases before_reverses.of_appendRow search_stage.grows.has_rows extends_band.done with earlier | rfl
    · rw [edges_of_appendRow extends_band.done] at before_mem old_mem
      exact other_localizes.isLocal (search_conditioned.excused before before_mem row params x y from_start earlier old old_mem
        (old_adjoins.of_core_eq rfl (params_of_appendRow extends_band.done)))
    · exact other_localizes.isLocal_of_reverses appended_stage.well_formed appended_stage.grows.has_rows violated_ok appended_rows
        before_mem before_reverses old_adjoins
  · refine ⟨level, fun edge edge_mem row params x y _ reverses other other_mem adjoins => ?_⟩
    obtain ⟨u, w, conditions, _⟩ := adjoins
    have has_pairs := hasConditionalPairs_of_has appended_stage.edges edge_mem other_mem reverses.related.has_kind conditions.has_kind
    rw [no_pairs] at has_pairs
    cases has_pairs

/-- A step keeps what is known of the conditions of the band in progress. -/
theorem BandStep.conditioned {before after : Bool × Construction}
    (step : BandStep options start.hasCoincidence start.hasConditionalPairs before after) (at_start : start.AtBandStart)
    (filling : Filling start before.2.graph) (cache_sound : before.2.cache.Sound)
    (conditioned : Conditioned start before.2.graph) : Conditioned start after.2.graph := by
  cases step with
  | relaxed searched => exact searched.conditioned conditioned
  | extended extends_band unchecked => exact extends_band.conditioned filling cache_sound conditioned (Or.inr ⟨unchecked, rfl⟩)
  | checked extends_band check_ok => exact extends_band.conditioned filling cache_sound conditioned (Or.inl check_ok)
  | restarted extends_band check_ok reset_ok =>
    -- The conditions that have become local stay so, but there is no row of the band left.
    have same := extends_band.sameRows_reset filling cache_sound at_start check_ok reset_ok
    exact conditioned_of_hasRows (same.nodes.forall_mem (fun _ _ _ node_same has_rows =>
      node_same.hasRows has_rows) at_start.has_rows)

/-- In a filled band, the conditions that adjoin a dependence ordered backwards are level. -/
theorem Fills.conditioned {bandEnd : BandEnd} {filled : Construction} (fills : Fills options start bandEnd filled) :
    Conditioned start filled.graph := by
  obtain ⟨_, last, conditioned, ends⟩ := fills.invariant
    (fun _ => conditioned_of_hasRows fills.at_start.has_rows) fun _ _ step => step.conditioned fills.at_start
  cases ends with
  | complete => exact conditioned
  | stuck searched => exact searched.conditioned conditioned

end Runs

end AffineSchedule
