import AffineSchedule.Proofs.Construction.Entries
import AffineSchedule.Proofs.Schedule.Conditional

namespace AffineSchedule

open Checked AffineSchedule.Graph Edge List

/-! ### Entered graphs are ready -/

section Ready

variable {options : Options} {regime : Regime options} {size deepest : ℕ} {start : Graph}

theorem Ready.separated (ready : Ready regime size deepest start) : Ready regime size deepest (start.separated options) := by
  unfold Graph.separated
  cases options.fuse with
  | minimal => exact ready.of_sameRows sameRows_assign ready.locals
  | maximal => exact ready.of_sameRows sameRows_assign ready.locals

/-- Every graph that the construction of a ready graph enters is ready, as long as some fault is not tolerated. -/
theorem ready_of_entered (ready : Ready regime size deepest start) {fault : Fault} (refused : ¬regime.allowed fault) {depth : ℕ}
    {scope : Scope} {state : Construction} (entered : Entered options start depth scope state) :
    Ready regime size deepest state.graph ∧ state.cache.Sound := by
  induction entered with
  | root => exact ⟨ready, ConeCache.sound_empty⟩
  | passed _ _ ih => exact ⟨ih.1.separated, ih.2⟩
  | @nested depth scope asked state given _ consults ih =>
    by_contra unlike
    -- The fault in this state only would not be noticed where the graphs are ready.
    have contained : NestedStep.Contained ((construct options depth).answering asked given (.error fault)) regime size deepest := by
      intro other_scope other other_ready other_sound
      have elsewhere : ¬(other_scope = asked ∧ other = given) := by
        rintro ⟨_, rfl⟩
        exact unlike ⟨other_ready, other_sound⟩
      rw [NestedStep.answering, if_neg elsewhere]
      exact construct_contained regime size deepest depth other_scope other other_ready other_sound
    exact refused ((constructStep_contained contained scope state ih.1 ih.2).faults _ (consults.stops fault))

end Ready

/-! ### Graphs that are reached -/

/-- The states in which the rows of a graph that is taken as connected are searched for: before its band is filled, and
    after. -/
inductive Worked (options : Options) (start : Graph) : Construction → Prop
  | measured {depth : ℕ} {state : Construction} {graph : Graph}
      (entered : Entered options start depth .connected state)
      (measure_ok : state.graph.detectStrong.updateRowsNeeded = .ok graph) : Worked options start { state with graph := graph }
  | filled {depth : ℕ} {state filled : Construction} {graph : Graph} {bandEnd : BandEnd}
      (entered : Entered options start depth .connected state)
      (measure_ok : state.graph.detectStrong.updateRowsNeeded = .ok graph)
      (fill_ok : fillBand options graph.clearLocal.hasCoincidence graph.clearLocal.hasConditionalPairs
        graph.clearLocal.bandSteps graph.clearLocal.hasCoincidence { state with graph := graph.clearLocal } = .ok (bandEnd, filled)) :
      Worked options start filled

/-- The graphs that the construction of a graph comes to: those it enters, those of its bands, open or closed, and those
    with a carrying row, split or not. -/
inductive Reached (options : Options) (start : Graph) : Graph → Prop
  | entered {depth : ℕ} {scope : Scope} {state : Construction} (entered : Entered options start depth scope state) :
      Reached options start state.graph
  | worked {state : Construction} (worked : Worked options start state) : Reached options start state.graph
  | closed {state : Construction} (worked : Worked options start state) : Reached options start (closeBand state.graph)
  | carried {state : Construction} {carrying : CarryingRow} {appended split : Graph} (worked : Worked options start state)
      (is_empty : state.graph.counters.totalRows = state.graph.counters.bandStart)
      (carry_ok : state.graph.carryingRow state.cache options = .ok carrying)
      (append_ok : carrying.graph.appendRow carrying.rows false = .ok appended)
      (split_ok : (if options.splitScaled then appended.splitFactor else pure appended) = .ok split) : Reached options start split

namespace Graph

/-- A graph with its rows, the table of its edges, and the parts that narrowing relies on. -/
structure Tended (graph : Graph) : Prop where
  well_formed : graph.WellFormed
  has_rows : ∀ node ∈ graph.nodes, node.HasRows graph.counters.totalRows
  tabled : graph.Tabled
  kept : ∀ edge ∈ graph.edges, edge.Kept

variable {graph next start : Graph}

theorem Tended.of_stage (tended : graph.Tended) (edges_eq : graph.SameEdges start) {linked : LinkRelation}
    (stage : Stage linked start next) : next.Tended := by
  have same : graph.SameEdges next := Eq.trans stage.edges edges_eq
  refine ⟨stage.well_formed, stage.grows.has_rows, tended.tabled.of_sameEdges same, fun edge edge_mem => ?_⟩
  obtain ⟨before, before_mem, core_eq⟩ := same.exists_twin edge_mem
  exact (tended.kept before before_mem).of_core_eq core_eq

theorem Tended.closeBand (tended : graph.Tended) : (closeBand graph).Tended := by
  unfold AffineSchedule.closeBand
  split
  case isTrue =>
    exact ⟨⟨tended.well_formed.size, tended.well_formed.nodes, tended.well_formed.edges⟩, tended.has_rows, tended.tabled,
      tended.kept⟩
  case isFalse => exact tended

end Graph

section Reached

variable {options : Options} {size deepest : ℕ} {start graph : Graph}

theorem Ready.tended (ready : Ready (SchedulingProblem.blameless options) size deepest start) : start.Tended := by
  refine ⟨ready.at_start.well_formed, ready.at_start.has_rows, ready.tabled, fun edge edge_mem => ?_⟩
  obtain ⟨a, b, a_at, b_at⟩ := ready.at_start.well_formed.exists_ends edge_mem
  exact SchedulingProblem.kept_unplaced_iff.mp (ready.suited edge edge_mem a b a_at b_at)

variable (ready : Ready (SchedulingProblem.blameless options) size deepest start)
include ready

theorem Worked.tended {state : Construction} (worked : Worked options start state) : state.graph.Tended ∧ state.cache.Sound
      ∧ state.graph.Partitioned
      ∧ (state.graph.counters.totalRows = state.graph.counters.bandStart → state.graph.AtBandStart) := by
  have refused : ¬(SchedulingProblem.blameless options).allowed (.solver .unbounded) := fun allowed => allowed.2 rfl
  cases worked with
  | measured entered measure_ok =>
    obtain ⟨entered_ready, cache_sound⟩ := ready_of_entered ready refused entered
    have measured := (measured_of_updateRowsNeeded entered_ready measure_ok).1
    exact ⟨measured.ready.tended, cache_sound, measured.parted.partitioned, fun _ => measured.ready.at_start⟩
  | @filled _ before _ graph _ entered measure_ok fill_ok =>
    obtain ⟨entered_ready, cache_sound⟩ := ready_of_entered ready refused entered
    have measured := (measured_of_updateRowsNeeded entered_ready measure_ok).1.clearLocal
    have at_start := measured.ready.at_start
    have cleared_sound : ({ before with graph := graph.clearLocal } : Construction).cache.Sound := cache_sound
    obtain ⟨filling, filled_sound, _⟩ := filling_of_fillBand at_start measured.ranked
      (at_start.filling measured.parted.partitioned measured.ranked) cleared_sound fill_ok
    exact ⟨measured.ready.tended.of_stage rfl filling.stage, filled_sound, filling.partitioned,
      fun is_empty => (filling.sameRows_of_empty at_start is_empty).atBandStart at_start⟩

/-- Every graph that the construction comes to has its rows, and a table of its edges, which are left something. -/
theorem Reached.tended (reached : Reached options start graph) : graph.Tended := by
  cases reached with
  | entered entered => exact (ready_of_entered ready (fun allowed => allowed.2 rfl : ¬_) entered).1.tended
  | worked worked => exact (worked.tended ready).1
  | closed worked => exact (worked.tended ready).1.closeBand
  | @carried state carrying appended split worked is_empty carry_ok append_ok split_ok =>
    obtain ⟨tended, cache_sound, _, at_start_of_empty⟩ := worked.tended ready
    obtain ⟨same, _, forward⟩ := sound_of_carryingRow tended.well_formed cache_sound carry_ok
    have same_rows := sameRows_of_core_eq same
    have carrying_start := same_rows.atBandStart (at_start_of_empty is_empty)
    have ordered := forward .validity (Or.inl rfl)
    split at split_ok
    case isTrue => exact tended.of_stage same_rows.edges (carrying_start.stage_splitFactor append_ok ordered split_ok)
    case isFalse =>
      obtain rfl := pure_ok.mp split_ok
      exact tended.of_stage same_rows.edges
        (carrying_start.stage.appendRow append_ok ordered fun flagged => absurd flagged Bool.false_ne_true)

end Reached

/-! ### Exact narrowing -/

namespace Graph

variable {graph next : Graph} {before after : Edge}

/-- All rows of the two statements of an edge agree on a pair of points. -/
def Simultaneous (graph : Graph) (edge : Edge) (params x y : ℕ → ℤ) : Prop :=
  ∃ a b, graph.nodes[edge.source]? = some a ∧ graph.nodes[edge.target]? = some b
    ∧ ∀ row, a.timeAt row params x = b.timeAt row params y

/-- The second edge is the first with those pairs only on which all rows agree. The tagged relations that have no such
    pair are left out. -/
structure NarrowsTo (graph : Graph) (before after : Edge) : Prop where
  rest : after = { before with
    relation := { before.relation with disjuncts := after.relation.disjuncts }
    taggedCondition := after.taggedCondition, taggedValidity := after.taggedValidity }
  pairs : ∀ params x y, after.relation.Relates params x y
    ↔ before.relation.Relates params x y ∧ graph.Simultaneous before params x y
  tagged : ∀ kind, ∃ images, after.taggedOf kind = images.filter (fun image => !image.disjuncts.isEmpty)
    ∧ Forall₂ (fun tagged image : Relation => ∀ params x y, image.RelatesTagged params x y
        ↔ tagged.RelatesTagged params x y ∧ graph.Simultaneous before params (coordinates x.point) (coordinates y.point))
      (before.taggedOf kind) images

/-- The second graph has the edges of the first narrowed, without those that no pair on which all rows agree is left of. -/
structure Narrows (graph next : Graph) : Prop where
  rest : next = { graph with edges := next.edges, edgeTable := next.edgeTable }
  origin : ∀ after ∈ next.edges, ∃ before ∈ graph.edges, graph.NarrowsTo before after
  covered : ∀ before ∈ graph.edges, (∃ after ∈ next.edges, graph.NarrowsTo before after)
    ∨ ∀ params x y, before.relation.Relates params x y → ¬graph.Simultaneous before params x y

/-- The table leads under every key to the positions at which the list has an edge of that kind between these nodes. So
    an edge of a kind is found between two nodes just if there is exactly one. No edge is without disjuncts. -/
structure Indexed (graph : Graph) : Prop where
  table : ∀ kind source target position, graph.edgeTable.lookup (kind, source, target) = some position
    ↔ ∃ edge, graph.edges[position]? = some edge ∧ edge.joins source target = true ∧ edge.has kind = true
  unique : ∀ kind source target, graph.hasEdge kind source target = true
    ↔ graph.edges.countP (fun edge => edge.joins source target && edge.has kind) = 1
  inhabited : ∀ edge ∈ graph.edges, edge.relation.disjuncts ≠ []

theorem countP_le_one_of_distinct {edges : List Edge} (distinct : Distinct edges) (kind : Kind)
    (source target : ℕ) : edges.countP (fun edge => edge.joins source target && edge.has kind) ≤ 1 := by
  induction edges with
  | nil => exact Nat.zero_le 1
  | cons edge later ih =>
    obtain ⟨apart, later_distinct⟩ := pairwise_cons.mp distinct
    rw [countP_cons]
    split
    case isTrue is_one =>
      simp only [joins, Bool.and_eq_true, decide_eq_true_eq] at is_one
      obtain ⟨⟨rfl, rfl⟩, has_kind⟩ := is_one
      refine (Nat.add_le_add_right (countP_eq_zero.mpr fun other other_mem is_other => ?_).le 1).trans_eq (Nat.zero_add 1)
      simp only [joins, Bool.and_eq_true, decide_eq_true_eq] at is_other
      obtain ⟨⟨source_eq, target_eq⟩, other_has⟩ := is_other
      rw [apart other other_mem source_eq.symm target_eq.symm kind has_kind] at other_has
      cases other_has
    case isFalse => exact ih later_distinct

theorem Tabled.indexed (tabled : graph.Tabled) (inhabited : ∀ edge ∈ graph.edges, edge.relation.disjuncts ≠ []) :
    graph.Indexed := by
  refine ⟨fun kind source target position => ?_, fun kind source target => ?_, inhabited⟩
  · rw [tabled]
    simp only [Stands, joins, Bool.and_eq_true, decide_eq_true_eq, Prod.mk.injEq, and_comm]
  · have at_most := countP_le_one_of_distinct tabled.distinct kind source target
    have found_iff : graph.hasEdge kind source target = true
        ↔ 0 < graph.edges.countP fun edge => edge.joins source target && edge.has kind := by
      simp only [tabled.hasEdge_iff, countP_pos_iff, Bool.and_eq_true]
    rw [found_iff]
    omega

theorem Tended.simultaneous_iff (tended : graph.Tended) {a b : Node}
    (a_at : graph.nodes[before.source]? = some a) (b_at : graph.nodes[before.target]? = some b) {params x y : ℕ → ℤ} :
    RowsAgree a.schedule b.schedule graph.params.length params x y ↔ graph.Simultaneous before params x y := by
  have a_mem := mem_of_getElem? a_at
  have b_mem := mem_of_getElem? b_at
  have a_params := (tended.well_formed.nodes a a_mem).params
  have b_params := (tended.well_formed.nodes b b_mem).params
  constructor
  · exact fun agree => ⟨a, b, a_at, b_at,
      timeAt_eq_of_rowsAgree a_params b_params (tended.has_rows a a_mem) (tended.has_rows b b_mem) agree⟩
  · rintro ⟨source, target, source_at, target_at, agree⟩
    obtain rfl := Option.mem_unique source_at a_at
    obtain rfl := Option.mem_unique target_at b_at
    exact rowsAgree_of_timeAt_eq a_params b_params agree

theorem Tended.narrowsTo (tended : graph.Tended) (before_mem : before ∈ graph.edges) (done : graph.narrowEdge before = .ok after) :
    graph.NarrowsTo before after := by
  have laid_out := tended.well_formed.edges before before_mem
  obtain ⟨a, b, a_at, b_at, after_eq, _, each⟩ := narrowEdge_parts done
  obtain ⟨_, narrowed⟩ := narrowEdge_ok tended.well_formed laid_out done
  refine ⟨after_eq, fun params x y => ?_, fun kind => ?_⟩
  · rw [← tended.simultaneous_iff a_at b_at]
    exact (narrowed a b a_at b_at).relates_iff
  · obtain ⟨images, narrowed_each, taggedOf_eq⟩ := each kind
    refine ⟨images, taggedOf_eq, ((forall₂_and_left _ _).mpr ⟨(tended.kept before before_mem).tagged kind, narrowed_each⟩).imp ?_⟩
    rintro tagged image ⟨⟨names, length_eq, tagging⟩, image_ok⟩ params x y
    rw [← tended.simultaneous_iff a_at b_at]
    exact relatesTagged_narrowRelation_iff tended.well_formed laid_out a_at b_at tagging (length_eq.trans laid_out.params) image_ok

theorem Tended.narrows (tended : graph.Tended) (done : graph.narrowEdges = .ok next) : graph.Narrows next := by
  obtain ⟨next_eq, origin, covered⟩ := narrowEdges_ok done
  refine ⟨next_eq, fun after after_mem => ?_, fun before before_mem => ?_⟩
  · obtain ⟨_, before, before_mem, narrow_ok⟩ := origin after after_mem
    exact ⟨before, before_mem, tended.narrowsTo before_mem narrow_ok⟩
  · obtain ⟨after, narrow_ok, kept⟩ := covered before before_mem
    have narrows := tended.narrowsTo before_mem narrow_ok
    by_cases left_over : after.relation.disjuncts = []
    · refine Or.inr fun params x y related together => ?_
      exact disjuncts_ne_nil ((narrows.pairs params x y).mpr ⟨related, together⟩) left_over
    · exact Or.inl ⟨after, kept left_over, narrows⟩

theorem indexed_of_narrowEdges (done : graph.narrowEdges = .ok next) : next.Indexed :=
  (tabled_of_narrowEdges done).indexed fun edge edge_mem => ((narrowEdges_ok done).2.1 edge edge_mem).1

/-- A part of a graph whose edges have disjuncts is indexed. -/
theorem indexed_of_extract {filter : ComponentFilter} {part : Graph} (extracted : graph.extract filter = .ok part)
    (inhabited : ∀ edge ∈ graph.edges, edge.relation.disjuncts ≠ []) : part.Indexed := by
  refine (tabled_of_extract extracted).indexed fun edge edge_mem => ?_
  obtain ⟨original, original_mem, _, _, rfl⟩ := exists_edge_of_extract extracted edge_mem
  exact inhabited original original_mem

end Graph

namespace SchedulingProblem

/-- Every graph that is built, narrowed, or taken out of one whose edges have disjuncts has a table that agrees with its
    edges: an edge of a kind is found between two statements just if there is exactly one. So has every graph that the
    construction of a problem comes to. When the edges of such a graph are narrowed, an edge keeps its ends, kinds and
    marks, and exactly those of its pairs, tagged or not, on which all rows of its two statements agree. An edge is removed
    only if it has no such pair. -/
theorem narrowing_exact :
    (∀ params domains relations graph, build params domains relations = .ok graph → graph.Indexed)
    ∧ (∀ graph next : Graph, graph.narrowEdges = .ok next → next.Indexed)
    ∧ (∀ graph : Graph, (∀ edge ∈ graph.edges, edge.relation.disjuncts ≠ []) →
        ∀ filter part, graph.extract filter = .ok part → part.Indexed)
    ∧ ∀ (problem aligned : SchedulingProblem) (start : Graph) (options : Options),
        problem.align = .ok aligned → aligned.domain ≠ [] → aligned.graph = .ok start →
        ∀ graph, Reached options start graph → graph.Indexed
          ∧ (∀ next, graph.narrowEdges = .ok next → graph.Narrows next ∧ next.Indexed)
          ∧ ∀ whole, graph.SameEdges whole → ∀ filter part, whole.extract filter = .ok part → part.Indexed := by
  refine ⟨fun _ _ _ _ done => (tabled_of_build done).indexed fun edge edge_mem => (drawn_of_build done edge edge_mem).inhabited,
    fun _ _ => indexed_of_narrowEdges,
    fun _ inhabited _ _ extracted => indexed_of_extract extracted inhabited, ?_⟩
  intro problem aligned start options align_ok nonempty start_ok graph reached
  have tended := reached.tended (ready_blameless align_ok start_ok options nonempty)
  refine ⟨tended.tabled.indexed fun edge edge_mem => (tended.kept edge edge_mem).inhabited,
    fun next done => ⟨tended.narrows done, indexed_of_narrowEdges done⟩, fun whole same filter part extracted => ?_⟩
  refine indexed_of_extract extracted fun edge edge_mem => ?_
  obtain ⟨before, before_mem, core_eq⟩ := same.exists_twin edge_mem
  exact ((tended.kept before before_mem).of_core_eq core_eq).inhabited

set_option maxRecDepth 100000 in
/-- The rows of the only band of the watched line tell the points of the line apart, and no point from its copy. -/
theorem narrowing_exact_watchedLine : ∃ aligned start graph next, watchedLine.align = .ok aligned ∧ aligned.graph = .ok start
    ∧ Reached {} start graph ∧ graph.narrowEdges = .ok next ∧ graph.edges.length = 2 ∧ next.edges.length = 1
    ∧ graph.Narrows next ∧ next.Indexed := by
  have computed : (do
      let aligned ← watchedLine.align
      let start ← aligned.graph
      let graph ← (start.separated {}).detectStrong.updateRowsNeeded
      let filled ← fillBand {} graph.clearLocal.hasCoincidence graph.clearLocal.hasConditionalPairs
        graph.clearLocal.bandSteps graph.clearLocal.hasCoincidence ⟨graph.clearLocal, ConeCache.empty⟩
      let next ← (closeBand filled.2.graph).narrowEdges
      return (aligned.domain.length, (start.separated {}).componentCount, (closeBand filled.2.graph).edges.length,
        next.edges.length)) = .ok (2, 1, 2, 1) := by
    apply Checked.ok_of_toOption
    decide +kernel
  simp only [bind_ok, pure_ok, Prod.mk.injEq] at computed
  obtain ⟨aligned, align_ok, start, start_ok, graph, measure_ok, ⟨bandEnd, filled⟩, fill_ok, next, narrow_ok, domains, connected,
    edges_before, edges_after⟩ := computed
  have entered : Entered {} start start.nesting .connected ⟨start.separated {}, ConeCache.empty⟩ := .passed .root connected.le
  have reached : Reached {} start (closeBand filled.graph) := .closed (.filled entered measure_ok fill_ok)
  have nonempty : aligned.domain ≠ [] := length_pos_iff.mp (domains ▸ Nat.two_pos)
  obtain ⟨_, _, _, exact_at⟩ := narrowing_exact
  obtain ⟨narrows, indexed⟩ := (exact_at _ _ _ {} align_ok nonempty start_ok _ reached).2.1 next narrow_ok
  exact ⟨aligned, start, _, next, align_ok, start_ok, reached, narrow_ok, edges_before, edges_after, narrows, indexed⟩

end SchedulingProblem

end AffineSchedule
