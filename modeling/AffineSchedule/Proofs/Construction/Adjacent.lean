import AffineSchedule.Proofs.Construction.Conditional

namespace AffineSchedule

open Checked AffineSchedule.Graph List

variable {first : ℕ} {filled : Construction} {filter : ComponentFilter} {options : Options} {ordered : Graph}

/-- A conditional dependence and a condition that share a tagged instance, between nodes at given positions. -/
structure AdjacentPair where
  source : ℕ
  target : ℕ
  conditionSource : ℕ
  conditionTarget : ℕ
  params : ℕ → ℤ
  x : TaggedInstance
  y : TaggedInstance
  u : TaggedInstance
  w : TaggedInstance
  shares : conditionSource = target ∧ u = y ∨ conditionTarget = source ∧ w = x

namespace AdjacentPair

/-- The pair between the nodes at other positions. -/
def moved (pair : AdjacentPair) (place : ℕ → ℕ) : AdjacentPair :=
  { pair with
    source := place pair.source
    target := place pair.target
    conditionSource := place pair.conditionSource
    conditionTarget := place pair.conditionTarget
    shares := pair.shares.imp (fun same => ⟨congrArg place same.1, same.2⟩) fun same => ⟨congrArg place same.1, same.2⟩ }

/-- The graph links both the dependence and the condition. -/
structure LinkedIn (pair : AdjacentPair) (graph : Graph) : Prop where
  dependence : graph.LinksTagged .conditionalValidity pair.source pair.target pair.params pair.x pair.y
  condition : graph.LinksTagged .condition pair.conditionSource pair.conditionTarget pair.params pair.u pair.w

/-- A row gives the ends of the condition equal times. -/
def LevelAt (pair : AdjacentPair) (graph : Graph) (row : ℕ) : Prop :=
  graph.timeOf pair.conditionSource row pair.params pair.u = graph.timeOf pair.conditionTarget row pair.params pair.w

/-- A row gives the ends of the dependence equal times, and so for the condition. -/
def AgreesAt (pair : AdjacentPair) (graph : Graph) (row : ℕ) : Prop :=
  graph.timeOf pair.source row pair.params pair.x = graph.timeOf pair.target row pair.params pair.y ∧ pair.LevelAt graph row

/-- From a row on, if a row of a band of either end orders the dependence backwards, and the rows before the band tell
    neither the dependence nor the condition apart, then no row of the band tells the condition apart. -/
def Honoured (pair : AdjacentPair) (graph : Graph) (start : ℕ) : Prop :=
  ∀ index e, (index = pair.source ∨ index = pair.target) → graph.nodes[index]? = some e → ∀ label row other first,
    start ≤ row → e.InLabel label row → e.InLabel label other → (∀ earlier, BeforeBand e.bands earlier row → earlier < first) →
    (∀ earlier < first, pair.AgreesAt graph earlier) →
    graph.timeOf pair.target row pair.params pair.y < graph.timeOf pair.source row pair.params pair.x →
    pair.LevelAt graph other

variable {pair : AdjacentPair} {start graph next final : Graph}

theorem LinkedIn.of_edges_eq (linked : pair.LinkedIn graph) (params_eq : next.params = graph.params)
    (edges_eq : graph.SameEdges next) : pair.LinkedIn next :=
  ⟨linked.dependence.of_edges_eq params_eq edges_eq, linked.condition.of_edges_eq params_eq edges_eq⟩

/-- Narrowing keeps a pair whose ends get the same times. -/
theorem LinkedIn.narrow (linked : pair.LinkedIn graph) (well_formed : graph.WellFormed) (done : graph.narrowEdges = .ok next)
    (agrees : ∀ row, pair.AgreesAt graph row) : pair.LinkedIn next :=
  ⟨linked.dependence.narrow well_formed done fun row => (agrees row).1,
    linked.condition.narrow well_formed done fun row => (agrees row).2⟩

/-! ### Rows that order no dependence backwards -/

/-- Conditional dependences, taken as validity. -/
def conditionalLinks (graph : Graph) : LinkRelation :=
  fun kind i j params x y => kind = .validity ∧ graph.Links .conditionalValidity i j params x y

/-- Where conditional dependences are taken as validity, no row orders the dependence backwards. -/
theorem honoured_of_grows (grows : Grows (conditionalLinks graph) graph final) (well_formed : graph.WellFormed)
    (linked : pair.LinkedIn graph) : pair.Honoured final graph.counters.totalRows := by
  obtain ⟨_, _, source_at, target_at⟩ := linked.dependence.exists_ends well_formed
  obtain ⟨a, a_at, _⟩ := grows.nodes.getElem?_right source_at
  obtain ⟨b, b_at, _⟩ := grows.nodes.getElem?_right target_at
  intro index e at_end e_at label row other first from_start _ _ before agrees backwards
  rw [timeOf_eq a_at, timeOf_eq b_at] at backwards
  have agree_before : a.AgreeBefore b row pair.params (coordinates pair.x.point) (coordinates pair.y.point) := by
    intro earlier a_before b_before
    have e_before : BeforeBand e.bands earlier row := by
      rcases at_end with rfl | rfl
      · exact Option.mem_unique a_at e_at ▸ a_before
      · exact Option.mem_unique b_at e_at ▸ b_before
    have agree := (agrees earlier (before earlier e_before)).1
    rwa [timeOf_eq a_at, timeOf_eq b_at] at agree
  have forward : a.timeAt row _ _ ≤ b.timeAt row _ _ := grows.respects .validity _ _ _ _ _ ⟨rfl, linked.dependence.links⟩ a b
    a_at b_at row from_start agree_before
  exact absurd backwards (not_lt.mpr forward)

/-- A constant row that leads no dependence backwards. -/
theorem conditional_appendConstantRow {value : Node → ℤ} (at_start : graph.AtBandStart)
    (done : graph.appendConstantRow value = .ok next)
    (forward : ∀ edge ∈ graph.edges, edge.isAnyValidity = true → ∀ a b, graph.nodes[edge.source]? = some a →
      graph.nodes[edge.target]? = some b → value a ≤ value b) : Grows (conditionalLinks graph) graph next := by
  refine (at_start.stage.appendConstantRow done ?_).1.grows
  rintro i j params x y ⟨_, edge, edge_mem, rfl, rfl, has_kind, _⟩ a b a_at b_at
  exact forward edge edge_mem (by rw [Edge.isAnyValidity, has_kind, Bool.or_true]) a b a_at b_at

theorem honoured_of_arranged (arranged : Arranges start next) (at_start : start.AtBandStart) (linked : pair.LinkedIn start) :
    pair.Honoured next start.counters.totalRows := by
  cases arranged with
  | plain same => exact honoured_of_grows (same.grows at_start.has_rows) at_start.well_formed linked
  | @row graph appended ordered value same append_ok forward relabelled =>
    have graph_start := same.atBandStart at_start
    have grows := conditional_appendConstantRow graph_start append_ok forward
    have ordered_grows := grows.of_nodes relabelled.params relabelled.nodes (congrArg (·.totalRows) relabelled.counters)
    have honoured := honoured_of_grows ordered_grows graph_start.well_formed (linked.of_edges_eq same.params same.edges)
    rwa [same.counters] at honoured

theorem honoured_of_sortStatements (at_start : graph.AtBandStart) (done : sortStatements graph = .ok next)
    (linked : pair.LinkedIn graph) (agrees : ∀ row, pair.AgreesAt graph row) :
    pair.Honoured next graph.counters.totalRows := by
  obtain ⟨_, _, rfl⟩ | ⟨edges, table, narrow_ok, append_ok⟩ := sortStatements_ok done
  · exact honoured_of_grows (at_start.stage.grows.of_nodes rfl (forall₂_same.mpr fun node _ => .refl node) rfl)
      at_start.well_formed linked
  · have same : { graph with edges := edges, edgeTable := table }.detectStrong.SameRows
        { graph with edges := edges, edgeTable := table } := sameRows_assign
    have sorted_start := same.atBandStart (at_start.narrow narrow_ok).1
    have partitioned := partitioned_detectStrong (tabled_of_narrowEdges narrow_ok)
    have grows := conditional_appendConstantRow sorted_start append_ok fun edge edge_mem any_validity a b a_at b_at => by
      rw [partitioned.ordinal_eq sorted_start.well_formed (mem_of_getElem? a_at),
        partitioned.ordinal_eq sorted_start.well_formed (mem_of_getElem? b_at)]
      exact Int.ofNat_le.mpr (forward_detectStrong (tabled_of_narrowEdges narrow_ok) edge edge_mem any_validity a b a_at b_at)
    have left := linked.narrow at_start.well_formed narrow_ok agrees
    have honoured := honoured_of_grows grows sorted_start.well_formed (left.of_edges_eq same.params same.edges)
    rwa [same.counters] at honoured

theorem honoured_of_carried {appended split : Graph} {cache : ConeCache} {carrying : CarryingRow}
    (at_start : start.AtBandStart) (sound : cache.Sound) (carried : start.carryingRow cache options = .ok carrying)
    (append_ok : carrying.graph.appendRow carrying.rows false = .ok appended)
    (split_ok : split = appended ∨ appended.splitFactor = .ok split) (linked : pair.LinkedIn start) :
    pair.Honoured split start.counters.totalRows := by
  obtain ⟨core_eq, _, forward⟩ := sound_of_carryingRow at_start.well_formed sound carried
  have same := sameRows_of_core_eq core_eq
  have carrying_start := same.atBandStart at_start
  have stage : Stage (conditionalLinks carrying.graph) carrying.graph split :=
    carrying_start.stage_split append_ok (fun i j params x y link =>
      forward .conditionalValidity (Or.inr rfl) i j params x y link.2) split_ok
  have honoured := honoured_of_grows stage.grows carrying_start.well_formed (linked.of_edges_eq same.params same.edges)
  rwa [same.counters] at honoured

/-! ### Filled bands -/

/-- A filled band honours every pair: the condition is local. -/
theorem honoured_of_fills {bandEnd : BandEnd} (fills : Fills options start bandEnd filled) (linked : pair.LinkedIn start) :
    pair.Honoured filled.graph start.counters.totalRows := by
  have stage := fills.filling.stage
  have conditioned := fills.conditioned
  obtain ⟨⟨edge, edge_mem, edge_source, edge_target, depends⟩, ⟨other, other_mem, other_source, other_target, conditions⟩⟩ :=
    linked.of_edges_eq stage.grows.params stage.edges
  intro index e _ e_at label row row' first from_start row_in other_in _ _ backwards
  rw [← edge_source, ← edge_target] at backwards
  have is_local := conditioned.excused edge edge_mem row pair.params pair.x pair.y from_start ⟨depends, backwards⟩ other other_mem
    ⟨pair.u, pair.w, conditions, pair.shares.imp (·.2) (·.2)⟩
  rw [LevelAt, ← other_source, ← other_target]
  refine conditioned.level other other_mem is_local pair.params pair.u pair.w conditions row' ?_
  -- The rows before the band have earlier labels.
  by_contra before_start
  have e_mem := mem_of_getElem? e_at
  have label_ge := stage.grows.labels e e_mem row label from_start row_in
  obtain ⟨before, before_at, prolonged⟩ := stage.grows.nodes.getElem?_left e_at
  have before_mem := mem_of_getElem? before_at
  rw [Node.InLabel, prolonged.bands_eq (fills.at_start.has_rows before before_mem) (Nat.lt_of_not_le before_start)] at other_in
  exact notMem_of_labels (fills.at_start.closed before before_mem) label_ge (mem_of_getElem? other_in)

/-! ### Stages -/

/-- Rows in later bands honour a pair that all rows so far honour, if they do so where the rows so far do not tell the pair
    apart. -/
theorem Honoured.trans {band : ℕ} (honoured : pair.Honoured graph first)
    (nodes : Forall₂ (fun before after : Node => after.Prolongs before) graph.nodes final.nodes)
    (has_rows : ∀ node ∈ graph.nodes, node.HasRows graph.counters.totalRows)
    (closed : ∀ node ∈ graph.nodes, ∀ entry ∈ node.bands, ∃ label < band, entry = some label)
    (labels : ∀ node ∈ final.nodes, ∀ row label, graph.counters.totalRows ≤ row → node.bands[row]? = some (some label) →
      band ≤ label) (later : (∀ row, pair.AgreesAt graph row) → pair.Honoured final graph.counters.totalRows) :
    pair.Honoured final first := by
  intro index e at_end e_at label row other start from_first row_in other_in before agrees backwards
  obtain ⟨e₀, e₀_at, e_prolongs⟩ := nodes.getElem?_left e_at
  have e_mem := mem_of_getElem? e_at
  have e_rows := has_rows e₀ (mem_of_getElem? e₀_at)
  have e_closed := closed e₀ (mem_of_getElem? e₀_at)
  have agrees_of : ∀ earlier, (earlier < graph.counters.totalRows → pair.AgreesAt final earlier) → pair.AgreesAt graph earlier := by
    intro earlier agree
    rcases Nat.lt_or_ge earlier graph.counters.totalRows with inside | beyond
    · have agree_inside := agree inside
      simp only [AgreesAt, LevelAt, timeOf_prolongs has_rows nodes inside] at agree_inside
      exact agree_inside
    · simp only [AgreesAt, LevelAt, timeOf_eq_zero has_rows beyond, and_self]
  rcases Nat.lt_or_ge row graph.counters.totalRows with inside | beyond
  · have row_label : e₀.bands[row]? = some (some label) := (e_prolongs.bands_eq e_rows inside).symm.trans row_in
    have same_band : e.SameBand label e₀ := e_prolongs.sameBand e_rows fun later_row beyond labelled =>
      notMem_of_labels e_closed (labels e e_mem later_row label beyond labelled) (mem_of_getElem? row_label)
    have other_in₀ := (same_band.rows other).mp other_in
    rw [timeOf_prolongs has_rows nodes inside, timeOf_prolongs has_rows nodes inside] at backwards
    rw [LevelAt, timeOf_prolongs has_rows nodes (other_in₀.lt e_rows), timeOf_prolongs has_rows nodes (other_in₀.lt e_rows)]
    exact honoured index e₀ at_end e₀_at label row other start from_first row_label other_in₀
      (fun earlier before₀ => before earlier (e_prolongs.beforeBand e_rows inside before₀))
      (fun earlier earlier_lt => agrees_of earlier fun _ => agrees earlier earlier_lt) backwards
  · refine later (fun earlier => agrees_of earlier fun inside => agrees earlier (before earlier ?_)) index e at_end e_at label row
      other start beyond row_in other_in before agrees backwards
    exact e_prolongs.beforeBand_of_closed e_rows inside beyond e_closed fun label => labels e e_mem row label beyond

/-- A stage whose dependences are narrowed is continued in the next band. -/
theorem Honoured.of_narrowed {linked : LinkRelation} {narrowed : Graph} (stage : Stage linked start graph)
    (honoured : pair.Honoured graph start.counters.totalRows) (narrow_ok : graph.narrowEdges = .ok narrowed)
    (grows : Grows narrowed.nextBand.Links narrowed.nextBand final) (joined : pair.LinkedIn start)
    (later : pair.LinkedIn narrowed.nextBand → pair.Honoured final narrowed.nextBand.counters.totalRows) :
    pair.Honoured final start.counters.totalRows := by
  obtain ⟨_, _, rfl⟩ := exists_edges_of_narrowEdges narrow_ok
  have linked_graph := joined.of_edges_eq stage.grows.params stage.edges
  refine honoured.trans grows.nodes stage.grows.has_rows stage.atBandStart_nextBand.closed grows.labels fun agrees => later ?_
  exact (linked_graph.narrow stage.well_formed narrow_ok agrees).of_edges_eq rfl rfl

/-! ### Parts -/

/-- A part links what the whole links between its nodes. -/
theorem linksTagged_of_regroups {whole part : Graph} (regroups : Regroups filter whole part) {kind : Kind}
    {i j : ℕ} {params : ℕ → ℤ} {x y : TaggedInstance} (linked : whole.LinksTagged kind i j params x y)
    (i_in : whole.InPart filter i) (j_in : whole.InPart filter j) :
    part.LinksTagged kind (selectedBefore filter whole.nodes i) (selectedBefore filter whole.nodes j) params x y := by
  obtain ⟨edge, edge_mem, rfl, rfl, related⟩ := linked
  obtain ⟨tagged, tagged_mem, tagging, tagged_related⟩ := related.tagged
  refine ⟨_, regroups.edges edge edge_mem i_in j_in, rfl, rfl, related.has_kind, related.related, tagged, ?_, ?_, tagged_related⟩
  · cases kind <;> exact tagged_mem
  · rw [regroups.params]
    exact ⟨tagging.laid_out, tagging.params, tagging.fully, tagging.source, tagging.target⟩

section Pieces

variable {filters : List ComponentFilter} {part finished : ComponentFilter → Graph}
  (pieces : Pieces start ordered filters part finished final)
include pieces

/-- Linked instances with the same times lie in one part. -/
theorem exists_inPart {kind : Kind} {i j : ℕ} {params : ℕ → ℤ} {x y : TaggedInstance}
    (linked : start.LinksTagged kind i j params x y)
    (agree : ∀ row, ordered.timeOf i row params x = ordered.timeOf j row params y) :
    ∃ filter ∈ filters, ordered.InPart filter i ∧ ordered.InPart filter j := by
  obtain ⟨params_eq, edges_eq⟩ := pieces.arranged.sameEdges
  obtain ⟨a, b, a_at, b_at⟩ := (linked.of_edges_eq params_eq edges_eq).exists_ends pieces.ordered_start.well_formed
  simp only [timeOf_eq a_at, timeOf_eq b_at] at agree
  obtain ⟨filter, filter_mem, a_keeps, b_keeps⟩ := pieces.parcels.together kind i j a b _ _ _ a_at b_at linked.links agree
  exact ⟨filter, filter_mem, ⟨a, a_at, a_keeps⟩, b, b_at, b_keeps⟩

theorem filter_eq_of_inPart {other : ComponentFilter} (filter_mem : filter ∈ filters) (other_mem : other ∈ filters) {i : ℕ}
    (in_part : ordered.InPart filter i) (in_other : ordered.InPart other i) : filter = other := by
  obtain ⟨a, a_at, keeps⟩ := in_part
  obtain ⟨b, b_at, other_keeps⟩ := in_other
  obtain rfl := Option.mem_unique a_at b_at
  exact pieces.parcels.apart filter filter_mem other other_mem a.component keeps other_keeps

theorem Honoured.of_part (filter_mem : filter ∈ filters) (source_in : ordered.InPart filter pair.source)
    (target_in : ordered.InPart filter pair.target) (condition_source_in : ordered.InPart filter pair.conditionSource)
    (condition_target_in : ordered.InPart filter pair.conditionTarget)
    (honoured : (pair.moved (selectedBefore filter ordered.nodes)).Honoured (finished filter) first) :
    pair.Honoured final first := by
  have times : ∀ {i row x}, ordered.InPart filter i → final.timeOf i row pair.params x
      = (finished filter).timeOf (selectedBefore filter ordered.nodes i) row pair.params x := by
    rintro i row x ⟨before, before_at, keeps⟩
    obtain ⟨node, node_at, _⟩ := pieces.nodes.getElem?_right before_at
    obtain ⟨found, found_at, pads⟩ := pieces.brought filter filter_mem i ⟨before, before_at, keeps⟩ node node_at
    rw [timeOf_eq node_at, timeOf_eq found_at, pads.time]
  intro index e at_end e_at label row other start from_first row_in other_in before agrees backwards
  have index_in : ordered.InPart filter index := by
    rcases at_end with rfl | rfl
    · exact source_in
    · exact target_in
  obtain ⟨e₀, e₀_at, e_pads⟩ := pieces.brought filter filter_mem index index_in e e_at
  have e_rows := (pieces.grows filter filter_mem).has_rows e₀ (mem_of_getElem? e₀_at)
  have same_band : e.SameBand label e₀ := e_pads.prolongs.sameBand e_rows fun row beyond => e_pads.labels row label beyond
  have row_in₀ := (same_band.rows row).mp row_in
  simp only [AgreesAt, LevelAt, times source_in, times target_in, times condition_source_in,
    times condition_target_in] at agrees backwards ⊢
  exact honoured (selectedBefore filter ordered.nodes index) e₀ (at_end.imp (congrArg _) (congrArg _)) e₀_at label row other start
    from_first row_in₀ ((same_band.rows other).mp other_in)
    (fun earlier before₀ => before earlier (e_pads.prolongs.beforeBand e_rows (row_in₀.lt e_rows) before₀)) agrees backwards

theorem honoured_of_pieces (linked : pair.LinkedIn start) (each : ∀ filter ∈ filters, ∀ pair : AdjacentPair,
      pair.LinkedIn (part filter) → pair.Honoured (finished filter) (part filter).counters.totalRows) :
    pair.Honoured final start.counters.totalRows := by
  obtain ⟨params_eq, edges_eq⟩ := pieces.arranged.sameEdges
  have ordered_linked := linked.of_edges_eq params_eq edges_eq
  refine (honoured_of_arranged pieces.arranged pieces.at_start linked).trans pieces.nodes pieces.ordered_start.has_rows
    pieces.ordered_start.closed pieces.grows_ordered.labels fun agrees => ?_
  -- Both pairs lie in a part each, and the part is the same, since they share an instance.
  obtain ⟨filter, filter_mem, source_in, target_in⟩ := exists_inPart pieces linked.dependence fun row => (agrees row).1
  obtain ⟨other, other_mem, condition_source_in, condition_target_in⟩ :=
    exists_inPart pieces linked.condition fun row => (agrees row).2
  obtain rfl : filter = other := by
    rcases pair.shares with ⟨same, _⟩ | ⟨same, _⟩
    · exact filter_eq_of_inPart pieces filter_mem other_mem target_in (same ▸ condition_source_in)
    · exact filter_eq_of_inPart pieces filter_mem other_mem source_in (same ▸ condition_target_in)
  have regroups := pieces.regroups filter filter_mem
  have part_honoured := each filter filter_mem (pair.moved (selectedBefore filter ordered.nodes))
    ⟨linksTagged_of_regroups regroups ordered_linked.dependence source_in target_in,
      linksTagged_of_regroups regroups ordered_linked.condition condition_source_in condition_target_in⟩
  rw [regroups.counters] at part_honoured
  exact part_honoured.of_part pieces filter_mem source_in target_in condition_source_in condition_target_in

end Pieces

theorem honoured_of_sorted {sorted : Graph} (fills : Fills options start .complete filled)
    (sort_ok : sortStatements (closeBand filled.graph) = .ok sorted) (linked : pair.LinkedIn start) :
    pair.Honoured sorted start.counters.totalRows := by
  have order := fills.filling.ordered_closeBand fills.at_start
  have grows := grows_of_sortStatements order.at_start sort_ok
  have nodes_eq := nodes_closeBand filled.graph
  have rows_eq := totalRows_closeBand filled.graph
  refine (honoured_of_fills fills linked).trans (nodes_eq ▸ grows.nodes) fills.filling.stage.grows.has_rows
    fills.closed_of_closeBand ?_ fun agrees => ?_
  · exact fun node node_mem row label beyond => grows.labels node node_mem row label (rows_eq.trans_le beyond)
  · rw [← rows_eq]
    refine honoured_of_sortStatements order.at_start sort_ok (linked.of_edges_eq order.grows.params order.edges) fun row => ?_
    simp only [AgreesAt, LevelAt, timeOf, nodes_eq]
    exact agrees row

end AdjacentPair

/-- Along every course, adjacent pairs are honoured. -/
theorem Course.honours {start final : Graph} (course : Course options start final) (pair : AdjacentPair)
    (linked : pair.LinkedIn start) : pair.Honoured final start.counters.totalRows := by
  induction course generalizing pair with
  | rebased same _ ih =>
    have honoured := ih pair (linked.of_edges_eq same.params same.edges)
    rwa [same.counters] at honoured
  | band fills narrow_ok grows _ ih =>
    exact (AdjacentPair.honoured_of_fills fills linked).of_narrowed fills.filling.stage narrow_ok grows linked (ih pair)
  | @carried start appended split narrowed final cache carrying at_start sound carried append_ok split_ok narrow_ok
      grows _ ih =>
      obtain ⟨same, stage⟩ := stage_of_carried at_start sound carried append_ok split_ok
      have honoured := AdjacentPair.honoured_of_carried at_start sound carried append_ok split_ok linked
      rw [← same.counters] at honoured ⊢
      exact honoured.of_narrowed stage narrow_ok grows (linked.of_edges_eq same.params same.edges) (ih pair)
  | parts pieces _ ih => exact AdjacentPair.honoured_of_pieces pieces linked fun filter filter_mem pair => ih filter filter_mem pair
  | sorted fills sort_ok => exact AdjacentPair.honoured_of_sorted fills sort_ok linked

end AffineSchedule
