import AffineSchedule.Proofs.Construction.Parts

namespace AffineSchedule

open Checked AffineSchedule.Graph List

variable {i : ℕ} {node : Node} {appended graph split : Graph} {filter : ComponentFilter}
  {start ordered final : Graph} {options : Options}

/-! ### Parts -/

namespace Graph

/-- The count of selected nodes depends on the components only. -/
theorem selectedBefore_congr {nodes others : List Node} (same : SameComponents nodes others) (index : ℕ) :
    selectedBefore filter others index = selectedBefore filter nodes index := by
  induction same generalizing index with
  | nil => rfl
  | cons component_eq _ ih =>
    cases index with
    | zero => rfl
    | succ index =>
      have later := ih index
      simp only [selectedBefore] at later
      simp only [selectedBefore, take_succ_cons, filter_cons, component_eq]
      split
      · rw [length_cons, length_cons, later]
      · exact later

/-- A part of a graph has the selected nodes, as they are, and the edges between them. -/
structure Regroups (filter : ComponentFilter) (whole part : Graph) : Prop where
  params : part.params = whole.params
  counters : part.counters = whole.counters
  nodes : ∀ (i : ℕ) (node : Node), whole.nodes[i]? = some node → filter.keepsNode node.component = true →
    ∃ moved, part.nodes[selectedBefore filter whole.nodes i]? = some moved ∧ moved.SameRows node
  edges : ∀ edge ∈ whole.edges, whole.InPart filter edge.source → whole.InPart filter edge.target →
    { edge with
      source := selectedBefore filter whole.nodes edge.source
      target := selectedBefore filter whole.nodes edge.target } ∈ part.edges
  kinds : ∀ edge ∈ part.edges, ∃ original ∈ whole.edges, edge.kinds = original.kinds

/-- An untouched part of a graph under assembly is a part of the graph at the start. -/
theorem Assembles.regroups {part : Graph} (assembles : Assembles start graph)
    (untouched : Untouched filter start graph) (counters_eq : graph.counters = start.counters)
    (extracted : graph.extract filter = .ok part) :
    Regroups filter start part := by
  obtain ⟨params_eq, part_counters, nodes_eq, moved, edges_eq, each⟩ := extract_ok extracted
  have place_eq : ∀ i, selectedBefore filter graph.nodes i = selectedBefore filter start.nodes i :=
    selectedBefore_congr (assembles.nodes.imp fun _ _ related => related.2)
  refine ⟨params_eq.trans assembles.params, part_counters.trans counters_eq, ?_, ?_, ?_⟩
  · intro i before before_at keeps
    obtain ⟨node, node_at, _, component_eq⟩ := assembles.nodes.getElem?_right before_at
    refine ⟨node, ?_, untouched i before node before_at node_at keeps⟩
    rw [nodes_eq, ← place_eq]
    exact getElem?_selectedBefore node_at (component_eq ▸ keeps)
  · intro edge edge_mem source_in target_in
    rw [← assembles.edges] at edge_mem
    obtain ⟨result, result_mem, done⟩ := each.exists_right edge_mem
    rw [extractEdge_of_inPart ((assembles.inPart_iff _).mpr source_in) ((assembles.inPart_iff _).mpr target_in)] at done
    obtain rfl := Except.ok.inj done
    rw [edges_eq, mem_filterMap, ← place_eq, ← place_eq]
    exact ⟨_, result_mem, rfl⟩
  · intro edge edge_mem
    obtain ⟨original, original_mem, _, _, rfl⟩ := exists_edge_of_extract extracted edge_mem
    exact ⟨original, assembles.edges ▸ original_mem, rfl⟩

end Graph

/-! ### The course of a construction -/

/-- A graph is left with the rows of the start, or gets a constant row in a band of its own that orders no dependence
    backwards. -/
inductive Arranges (start : Graph) : Graph → Prop
  | plain {ordered : Graph} (same : ordered.SameRows start) : Arranges start ordered
  | row {graph next ordered : Graph} {value : Node → ℤ} (same : graph.SameRows start)
      (append_ok : graph.appendConstantRow value = .ok next)
      (forward : ∀ edge ∈ graph.edges, edge.isAnyValidity = true → ∀ a b, graph.nodes[edge.source]? = some a →
        graph.nodes[edge.target]? = some b → value a ≤ value b)
      (relabelled : ordered.SameRows next.nextBand) : Arranges start ordered

/-- A band of a graph is filled. -/
structure Fills (options : Options) (start : Graph) (bandEnd : BandEnd) (filled : Construction) : Prop where
  at_start : start.AtBandStart
  partitioned : start.Partitioned
  ranked : start.Ranked
  nothing_local : ∀ edge ∈ start.edges, edge.isLocal = false
  done : ∃ (cache : ConeCache) (steps : ℕ), cache.Sound
    ∧ fillBand options start.hasCoincidence start.hasConditionalPairs steps start.hasCoincidence ⟨start, cache⟩
      = .ok (bandEnd, filled)

section Fills

variable {bandEnd : BandEnd} {filled : Construction} (fills : Fills options start bandEnd filled)
include fills

theorem Fills.spec : Filling start filled.graph ∧ filled.cache.Sound
      ∧ (bandEnd = .complete → filled.graph.rowsNeeded ≤ filled.graph.counters.rows) := by
  obtain ⟨cache, steps, sound, done⟩ := fills.done
  exact filling_of_fillBand fills.at_start fills.ranked (fills.at_start.filling fills.partitioned fills.ranked)
    sound done

theorem Fills.filling : Filling start filled.graph := fills.spec.1

/-- What every step of a band keeps holds before the last search. -/
theorem Fills.invariant {property : Bool × Construction → Prop}
    (at_start : ∀ cache, property (start.hasCoincidence, ⟨start, cache⟩))
    (kept : ∀ before after, BandStep options start.hasCoincidence start.hasConditionalPairs before after →
      Filling start before.2.graph → before.2.cache.Sound → property before → property after) :
    ∃ use last, property (use, last) ∧ BandEnds options use last (bandEnd, filled) := by
  obtain ⟨cache, steps, sound, done⟩ := fills.done
  obtain ⟨use, last, runs, ends⟩ := runs_of_fillBand done
  exact ⟨use, last, invariant_of_runs runs fills.at_start fills.ranked
    (fills.at_start.filling fills.partitioned fills.ranked) sound (at_start cache) kept, ends⟩

end Fills

/-- The parts of a graph, what they become, and the graph that is put together from them. -/
structure Pieces (start ordered : Graph) (filters : List ComponentFilter)
    (part finished : ComponentFilter → Graph) (final : Graph) : Prop where
  at_start : start.AtBandStart
  arranged : Arranges start ordered
  ordered_start : ordered.AtBandStart
  parcels : Parcels start ordered filters
  regroups : ∀ filter ∈ filters, Regroups filter ordered (part filter)
  grows : ∀ filter ∈ filters, Grows (part filter).Links (part filter) (finished filter)
  params : final.params = ordered.params
  inhabited : filters ≠ []
  height_le : ∀ filter ∈ filters, (finished filter).counters.totalRows ≤ final.counters.totalRows
  length_eq : final.nodes.length = ordered.nodes.length
  brought : ∀ filter ∈ filters, ∀ i, ordered.InPart filter i → ∀ node, final.nodes[i]? = some node → ∃ found,
    (finished filter).nodes[selectedBefore filter ordered.nodes i]? = some found
      ∧ node.Pads found (finished filter).counters.totalRows
          (final.counters.totalRows - (finished filter).counters.totalRows)

/-- How the rows of a graph come about. -/
inductive Course (options : Options) : Graph → Graph → Prop
  | rebased {start graph final : Graph} (same : graph.SameRows start) (later : Course options graph final) :
      Course options start final
  | band {start narrowed final : Graph} {bandEnd : BandEnd} {filled : Construction}
      (fills : Fills options start bandEnd filled) (narrow_ok : filled.graph.narrowEdges = .ok narrowed)
      (grows : Grows narrowed.nextBand.Links narrowed.nextBand final) (later : Course options narrowed.nextBand final) :
      Course options start final
  | carried {start appended split narrowed final : Graph} {cache : ConeCache} {carrying : CarryingRow}
      (at_start : start.AtBandStart) (sound : cache.Sound) (carried : start.carryingRow cache options = .ok carrying)
      (append_ok : carrying.graph.appendRow carrying.rows false = .ok appended)
      (split_ok : split = appended ∨ appended.splitFactor = .ok split) (narrow_ok : split.narrowEdges = .ok narrowed)
      (grows : Grows narrowed.nextBand.Links narrowed.nextBand final) (later : Course options narrowed.nextBand final) :
      Course options start final
  | parts {start ordered final : Graph} {filters : List ComponentFilter}
      {part finished : ComponentFilter → Graph} (pieces : Pieces start ordered filters part finished final)
      (courses : ∀ filter ∈ filters, Course options (part filter) (finished filter)) : Course options start final
  | sorted {start sorted : Graph} {filled : Construction} (fills : Fills options start .complete filled)
      (sort_ok : sortStatements (closeBand filled.graph) = .ok sorted) : Course options start sorted

theorem Graph.AtBandStart.stage_split {linked : LinkRelation} {rows : List (List ℤ)}
    (at_start : start.AtBandStart) (append_ok : start.appendRow rows false = .ok appended)
    (ordered : ∀ i j params x y, linked .validity i j params x y → ∀ rowI rowJ, rows[i]? = some rowI →
      rows[j]? = some rowJ → AffineForm.rowValue rowI start.params.length x params
        ≤ AffineForm.rowValue rowJ start.params.length y params) (split_ok : split = appended ∨ appended.splitFactor = .ok split) :
    Stage linked start split := by
  rcases split_ok with rfl | split_ok
  · exact at_start.stage.appendRow append_ok ordered fun flagged => absurd flagged Bool.false_ne_true
  · exact at_start.stage_splitFactor append_ok ordered split_ok

/-- A carrying row, split or not, is a stage that starts from the rows there are. -/
theorem stage_of_carried {cache : ConeCache} {carrying : CarryingRow}
    (at_start : start.AtBandStart) (sound : cache.Sound) (carried : start.carryingRow cache options = .ok carrying)
    (append_ok : carrying.graph.appendRow carrying.rows false = .ok appended)
    (split_ok : split = appended ∨ appended.splitFactor = .ok split) :
    carrying.graph.SameRows start ∧ Stage carrying.graph.Links carrying.graph split := by
  obtain ⟨core_eq, _, forward⟩ := sound_of_carryingRow at_start.well_formed sound carried
  have same := sameRows_of_core_eq core_eq
  exact ⟨same, (same.atBandStart at_start).stage_split append_ok (forward .validity (Or.inl rfl)) split_ok⟩

/-! ### What the rows are like -/

/-- An arranged graph is at the start of a band behind rows that respect the dependences. -/
theorem Arranges.order (arranged : Arranges start ordered) (at_start : start.AtBandStart) :
    Ordered start ordered := by
  cases arranged with
  | plain same => exact same.ordered at_start
  | row same append_ok forward relabelled =>
    refine Ordered.of_sameRows (at_start.ordered_constantRow same append_ok ?_).1 relabelled
    intro i j params x y link a b a_at b_at
    obtain ⟨edge, edge_mem, rfl, rfl, has_kind, _⟩ := links_of_edges_eq same.edges.symm link
    exact forward edge edge_mem (by rw [Edge.isAnyValidity, has_kind, Bool.true_or]) a b a_at b_at

theorem Arranges.sameEdges (arranged : Arranges start ordered) :
    ordered.params = start.params ∧ start.SameEdges ordered := by
  cases arranged with
  | plain same => exact ⟨same.params, same.edges⟩
  | row same append_ok _ relabelled =>
    have params_eq := congrArg (·.params) (appendConstantRow_ok append_ok).1
    refine ⟨relabelled.params.trans (params_eq.trans same.params), relabelled.edges.trans ?_⟩
    exact (sameParts_of_appendConstantRow append_ok).edges.trans same.edges

theorem Graph.Grows.exists_before {narrowed : Graph}
    (grows : Grows narrowed.nextBand.Links narrowed.nextBand final) (narrow_ok : split.narrowEdges = .ok narrowed)
    (node_mem : node ∈ final.nodes) : ∃ before ∈ split.nodes, node.Prolongs before
      ∧ ∀ row label, split.counters.totalRows ≤ row → node.bands[row]? = some (some label) → split.counters.band < label := by
  obtain ⟨_, _, rfl⟩ := exists_edges_of_narrowEdges narrow_ok
  obtain ⟨before, before_mem, prolonged⟩ := grows.nodes.exists_left node_mem
  exact ⟨before, before_mem, prolonged, grows.labels node node_mem⟩

namespace Pieces

variable {filters : List ComponentFilter} {part finished : ComponentFilter → Graph}
  (pieces : Pieces start ordered filters part finished final)
include pieces

/-- The node of a part before and after its rows were found, and what padding makes of it. -/
theorem exists_grown (filter_mem : filter ∈ filters) (in_part : ordered.InPart filter i) (node_at : final.nodes[i]? = some node) :
    ∃ before found : Node,
      ordered.nodes[i]? = some before ∧ (finished filter).nodes[selectedBefore filter ordered.nodes i]? = some found
        ∧ found.HasRows (finished filter).counters.totalRows ∧ found.Prolongs before
        ∧ node.Pads found (finished filter).counters.totalRows
            (final.counters.totalRows - (finished filter).counters.totalRows) := by
  obtain ⟨before, before_at, keeps⟩ := in_part
  obtain ⟨found, found_at, pads⟩ := pieces.brought filter filter_mem i ⟨before, before_at, keeps⟩ node node_at
  obtain ⟨moved, moved_at, same⟩ := (pieces.regroups filter filter_mem).nodes i before before_at keeps
  have grows := pieces.grows filter filter_mem
  have prolonged := grows.nodes.related_at moved_at found_at
  exact ⟨before, found, before_at, found_at, grows.has_rows found (mem_of_getElem? found_at),
    prolonged.trans same.prolongs, pads⟩

/-- Every node that is put together lies in a part. -/
theorem exists_part (node_at : final.nodes[i]? = some node) : ∃ filter ∈ filters, ordered.InPart filter i := by
  have inside : i < ordered.nodes.length := pieces.length_eq ▸ (List.getElem?_eq_some_iff.mp node_at).1
  obtain ⟨filter, filter_mem, keeps⟩ := pieces.parcels.covered _ (getElem_mem inside)
  exact ⟨filter, filter_mem, _, getElem?_eq_getElem inside, keeps⟩

/-- Every node that is put together is a padded one of a finished part, and prolongs the node that the part started with. -/
theorem exists_found (node_at : final.nodes[i]? = some node) : ∃ filter ∈ filters, ∃ before found : Node,
      ordered.nodes[i]? = some before ∧ found ∈ (finished filter).nodes ∧ found.Prolongs before
        ∧ node.Pads found (finished filter).counters.totalRows
            (final.counters.totalRows - (finished filter).counters.totalRows) := by
  obtain ⟨filter, filter_mem, in_part⟩ := pieces.exists_part node_at
  obtain ⟨before, found, before_at, found_at, _, prolonged, pads⟩ := pieces.exists_grown filter_mem in_part node_at
  exact ⟨filter, filter_mem, before, found, before_at, mem_of_getElem? found_at, prolonged, pads⟩

theorem nodes : Forall₂ (fun before after : Node => after.Prolongs before) ordered.nodes final.nodes := by
  refine forall₂_of_getElem? pieces.length_eq.symm fun i before node before_at node_at => ?_
  obtain ⟨_, _, twin, _, twin_at, _, prolonged, pads⟩ := pieces.exists_found node_at
  obtain rfl := Option.mem_unique before_at twin_at
  exact pads.prolongs.trans prolonged

theorem grows_ordered : Grows (fun kind i j params x y => ordered.Links kind i j params x y
      ∧ ∃ filter ∈ filters, ordered.InPart filter i ∧ ordered.InPart filter j) ordered final := by
  have begins : ∀ filter ∈ filters, (part filter).counters = ordered.counters := fun filter filter_mem =>
    (pieces.regroups filter filter_mem).counters
  refine ⟨pieces.params, ?_, ?_, ?_, ?_, ?_⟩
  · exact pieces.nodes
  · intro node node_mem
    obtain ⟨i, node_at⟩ := getElem?_of_mem node_mem
    obtain ⟨filter, filter_mem, _, _, _, _, _, pads⟩ := pieces.exists_found node_at
    have has_rows := pads.has_rows
    rwa [Nat.add_sub_cancel' (pieces.height_le filter filter_mem)] at has_rows
  · obtain ⟨filter, filter_mem⟩ := exists_mem_of_ne_nil filters pieces.inhabited
    rw [← begins filter filter_mem]
    exact (pieces.grows filter filter_mem).rows_le.trans (pieces.height_le filter filter_mem)
  · intro node node_mem row label beyond label_at
    obtain ⟨i, node_at⟩ := getElem?_of_mem node_mem
    obtain ⟨filter, filter_mem, in_part⟩ := pieces.exists_part node_at
    obtain ⟨_, found, _, found_at, has_rows, _, pads⟩ := pieces.exists_grown filter_mem in_part node_at
    by_cases inside : row < (finished filter).counters.totalRows
    · rw [pads.prolongs.bands_eq has_rows inside] at label_at
      rw [← begins filter filter_mem] at beyond ⊢
      exact (pieces.grows filter filter_mem).labels found (mem_of_getElem? found_at) row label beyond label_at
    · exact absurd label_at (pads.labels row label (Nat.le_of_not_lt inside))
  · rintro kind i j params x y ⟨⟨edge, edge_mem, rfl, rfl, has_kind, related⟩, filter, filter_mem, i_in, j_in⟩ a b a_at b_at row
      beyond agree
    obtain ⟨_, a_found, _, a_found_at, a_rows, _, a_pads⟩ := pieces.exists_grown filter_mem i_in a_at
    obtain ⟨_, b_found, _, b_found_at, b_rows, _, b_pads⟩ := pieces.exists_grown filter_mem j_in b_at
    by_cases inside : row < (finished filter).counters.totalRows
    · have moved := (pieces.regroups filter filter_mem).edges edge edge_mem i_in j_in
      have respected := (pieces.grows filter filter_mem).respects kind _ _ params x y ⟨_, moved, rfl, rfl, has_kind, related⟩
        a_found b_found a_found_at b_found_at row ((begins filter filter_mem).symm ▸ beyond)
        (agree.of_prolongs a_pads.prolongs b_pads.prolongs a_rows b_rows inside)
      exact respected.of_prolongs a_pads.prolongs b_pads.prolongs a_rows b_rows inside
    · apply Node.respects_of_timeAt_eq
      have row_ge := Nat.le_of_not_lt inside
      rw [a_pads.time, b_pads.time, a_rows.timeAt_eq_zero row_ge, b_rows.timeAt_eq_zero row_ge]

end Pieces

/-- The rows of a course respect the dependences of the graph they start from. -/
theorem Course.grows (course : Course options start final)
    (at_start : start.AtBandStart) : Grows start.Links start final := by
  induction course with
  | rebased same _ ih => exact same.grows_trans at_start (ih (same.atBandStart at_start))
  | band fills narrow_ok later_grows =>
    have stage := fills.filling.stage
    obtain ⟨_, continues⟩ := stage.atBandStart_nextBand.narrow (narrowEdges_nextBand narrow_ok)
    exact stage.grows_trans (continues _ later_grows)
  | carried _ sound carried append_ok split_ok narrow_ok later_grows =>
    obtain ⟨same, stage⟩ := stage_of_carried at_start sound carried append_ok split_ok
    obtain ⟨_, continues⟩ := stage.atBandStart_nextBand.narrow (narrowEdges_nextBand narrow_ok)
    exact same.grows_trans at_start (stage.grows_trans (continues _ later_grows))
  | parts pieces =>
    have order := pieces.arranged.order at_start
    refine order.grows.trans pieces.grows_ordered order.band_le order.at_start.closed ?_
    intro kind i j a b params x y a_at b_at link agree
    obtain ⟨filter, filter_mem, a_keeps, b_keeps⟩ := pieces.parcels.together kind i j a b params x y a_at b_at link agree
    exact ⟨links_of_edges_eq order.edges.symm link, filter, filter_mem, ⟨a, a_at, a_keeps⟩, ⟨b, b_at, b_keeps⟩⟩
  | sorted fills sort_ok =>
    have order := fills.filling.ordered_closeBand at_start
    refine order.grows.trans (grows_of_sortStatements order.at_start sort_ok) order.band_le order.at_start.closed ?_
    intro kind i j a b params x y _ _ link _
    exact links_of_edges_eq order.edges.symm link

/-- At the end of a course, the rows of every node have full rank. -/
theorem Course.spans (course : Course options start final) :
    ∀ node ∈ final.nodes, node.Spans := by
  induction course with
  | rebased _ _ ih => exact ih
  | band _ _ _ _ ih => exact ih
  | carried _ _ _ _ _ _ _ _ ih => exact ih
  | parts pieces _ ih =>
    intro node node_mem
    obtain ⟨i, node_at⟩ := getElem?_of_mem node_mem
    obtain ⟨filter, filter_mem, _, found, _, found_mem, _, pads⟩ := pieces.exists_found node_at
    exact pads.prolongs.spans (ih filter filter_mem found found_mem)
  | sorted fills sort_ok =>
    obtain ⟨filling, _, complete⟩ := fills.spec
    have grown := grows_of_sortStatements (filling.ordered_closeBand fills.at_start).at_start sort_ok
    refine grown.nodes.forall_mem (fun _ _ _ prolonged spans => prolonged.spans spans) ?_
    rw [nodes_closeBand]
    exact filling.spans (complete rfl)

/-! ### Parts under assembly -/

/-- A part has been constructed and its rows are in the graph. -/
structure PartCourse (options : Options) (filter : ComponentFilter) (start graph part finished : Graph) :
    Prop where
  regroups : Regroups filter start part
  grows : Grows part.Links part finished
  course : Course options part finished
  height_le : finished.counters.totalRows ≤ graph.counters.totalRows
  brought : ∀ i, start.InPart filter i → ∀ node, graph.nodes[i]? = some node → ∃ found,
    finished.nodes[selectedBefore filter start.nodes i]? = some found ∧ node.SameRows found

/-- A constructed part stays so while its nodes are left alone. -/
theorem PartCourse.of_unchanged {next part finished : Graph}
    (done : PartCourse options filter start graph part finished)
    (unchanged : ∀ i, start.InPart filter i → next.nodes[i]? = graph.nodes[i]?)
    (rows_le : graph.counters.totalRows ≤ next.counters.totalRows) : PartCourse options filter start next part finished := by
  refine ⟨done.regroups, done.grows, done.course, done.height_le.trans rows_le, fun i in_part node node_at => ?_⟩
  rw [unchanged i in_part] at node_at
  exact done.brought i in_part node node_at

theorem Node.Pads.of_sameRows {padded found : Node} {height missing : ℕ}
    (pads : padded.Pads node height missing) (same : node.SameRows found) : padded.Pads found height missing := by
  refine ⟨pads.prolongs.trans same.prolongs, pads.has_rows, pads.labels, pads.zeros, fun row params x => ?_⟩
  rw [pads.time, same.timeAt_eq]

/-- Parts that have been constructed one by one and padded make up the course of the whole. -/
theorem course_of_padRows {padded : Graph} {filters : List ComponentFilter}
    (at_start : start.AtBandStart) (arranged : Arranges start ordered) (ordered_start : ordered.AtBandStart)
    (parcels : Parcels start ordered filters) (inhabited : filters ≠ []) (assembles : Assembles ordered graph)
    (parts : ∀ filter ∈ filters, ∃ part finished, PartCourse options filter ordered graph part finished)
    (done : graph.padRows = .ok padded) : Course options start padded := by
  choose! part finished each using parts
  obtain rfl := padRows_ok done
  refine .parts ⟨at_start, arranged, ordered_start, parcels, fun filter filter_mem => (each filter filter_mem).regroups,
    fun filter filter_mem => (each filter filter_mem).grows, assembles.params, inhabited,
    fun filter filter_mem => (each filter filter_mem).height_le, ?_, ?_⟩
    fun filter filter_mem => (each filter filter_mem).course
  · rw [assembles.nodes.length_eq, length_map]
  · intro filter filter_mem i in_part node node_at
    rw [getElem?_map, Option.map_eq_some_iff] at node_at
    obtain ⟨before, before_at, rfl⟩ := node_at
    obtain ⟨found, found_at, same⟩ := (each filter filter_mem).brought i in_part before before_at
    have has_rows := same.hasRows ((each filter filter_mem).grows.has_rows found (mem_of_getElem? found_at))
    rw [has_rows.height]
    exact ⟨found, found_at, (Node.pads_padded has_rows _).of_sameRows same⟩

end AffineSchedule
