import AffineSchedule.Proofs.Construction.Finishing

namespace AffineSchedule

open Checked AffineSchedule.Graph List ComponentFilter Node

variable {state : Construction} {start graph : Graph} {scope : Scope} {component : ℕ} {forced : Bool}
  {next ordered : Graph} {nodes : List Node}

/-- What is left to do for a graph: the rows it has room for, and its nodes. -/
def Graph.allowance (graph : Graph) : ℕ :=
  graph.counters.maxRows - graph.counters.totalRows + graph.nodes.length

theorem Graph.SameBooks.allowance_eq (same : next.SameBooks graph) :
    next.allowance = graph.allowance := by
  rw [allowance, allowance, same.counters, same.nodes.length_eq]

/-- The nested step finishes orderly graphs that leave little enough to do, and does so in time. -/
def NestedStep.Ends (nested : NestedStep) (bound : ℕ) : Prop :=
  ∀ scope state, state.graph.Orderly → state.graph.Tabled → state.graph.allowance < bound →
    Meets Fault.Timely (nested scope state) fun final => Finishes scope state.graph final.graph

section Steps

variable {nested : NestedStep} {bound : ℕ} {options : Options} (ends : nested.Ends bound)
include ends

/-! ### Bands -/

/-- Continuing with a new band finishes the graph that has grown. -/
theorem ends_continueBands (continues : Continues start state.graph) (uniform : state.graph.Uniform)
    (nonempty : state.graph.counters.bandStart < state.graph.counters.totalRows)
    (longer : start.counters.totalRows < state.graph.counters.totalRows) (within : start.allowance < bound + 1) :
    Meets Fault.Timely (continueBands nested state) fun final =>
      Finishes scope start final.graph := by
  refine (timely_narrowEdges _).bind fun narrowed narrow_ok => ?_
  have same := sameBooks_of_narrowEdges narrow_ok
  have narrowed_continues := (continues.of_sameBooks same).nextBand
  have tabled : narrowed.Tabled := tabled_of_narrowEdges narrow_ok
  have orderly : narrowed.nextBand.Orderly := (uniform.of_sameBooks same).nextBand (by rw [same.counters]; exact nonempty)
  have later : start.counters.band < narrowed.nextBand.counters.band := by
    refine Nat.lt_succ_of_le ?_
    rw [same.counters]
    exact continues.band_le
  have less : narrowed.nextBand.allowance < bound := by
    have room := uniform.room
    have length_eq : narrowed.nextBand.nodes.length = start.nodes.length := narrowed_continues.nodes.length_eq.symm
    have rows_eq : narrowed.nextBand.counters.totalRows = state.graph.counters.totalRows :=
      congrArg (·.totalRows) same.counters
    have max_eq := continues.max_rows
    rw [allowance, length_eq, narrowed_continues.max_rows, rows_eq]
    rw [allowance] at within
    omega
  exact (ends .whole { state with graph := narrowed.nextBand } orderly tabled less).imp fun final finishes =>
    narrowed_continues.finishes orderly later finishes

/-! ### Parts -/

/-- Constructing a part that has been kept finishes it. -/
theorem ends_constructPart {filter : ComponentFilter} (ready : PartReady filter bound start)
    (components : SameComponents start.nodes state.graph.nodes) (kept : PartKept filter start state.graph)
    (counters_eq : state.graph.counters = start.counters) :
    Meets Fault.Timely (constructPart nested scope state filter) fun final =>
      PartRestored filter (scope.width (start.nodes.filter fun node => filter.keepsNode node.component).length)
        start state.graph final.graph := by
  refine (timely_extract _ _).bind fun part extracted => ?_
  obtain ⟨_, part_counters, part_nodes, _⟩ := extract_ok extracted
  have nodes_eq := part_nodes.trans (kept.filter_eq components)
  have start_counters := part_counters.trans counters_eq
  have orderly := ready.orderly part nodes_eq start_counters
  have less : part.allowance < bound := by
    rw [allowance, start_counters, nodes_eq]
    exact ready.within
  refine (ends scope { state with graph := part } orderly (tabled_of_extract extracted) less).bind fun finished _ finishes => ?_
  refine (meets_pure ?_)
  exact partRestored_of_restore components kept counters_eq extracted finishes

theorem ends_constructComponents {components : List ℕ} (distinct : components.Nodup)
    (ready : ∀ component ∈ components, PartReady (.exactly component) bound start)
    (same : SameComponents start.nodes state.graph.nodes)
    (kept : ∀ component ∈ components, PartKept (.exactly component) start state.graph)
    (shares : SharesCounters start state.graph) :
    Meets Fault.Timely (constructComponents nested start.counters components state) fun final =>
      SameComponents start.nodes final.graph.nodes
        ∧ (∀ component ∈ components, PartFinishes (.exactly component) 1 start final.graph)
        ∧ ∀ component ∉ components, PartFinishes (.exactly component) 1 start state.graph →
            PartFinishes (.exactly component) 1 start final.graph := by
  induction components generalizing state with
  | nil => exact meets_pure ⟨same, fun _ absent => absurd absent not_mem_nil, fun _ _ => id⟩
  | cons component later ih =>
    obtain ⟨first_absent, later_distinct⟩ := nodup_cons.mp distinct
    obtain ⟨first_ready, later_ready⟩ := forall_mem_cons.mp ready
    obtain ⟨first_kept, later_kept⟩ := forall_mem_cons.mp kept
    have reset_same : SameComponents start.nodes
        (state.withCounts start.counters.totalRows start.counters.band).graph.nodes := same
    refine (ends_constructPart ends first_ready reset_same first_kept shares.withCounts).bind fun finished _ restored => ?_
    have counted_shares : SharesCounters start (finished.withCounts
        (max state.graph.counters.totalRows finished.graph.counters.totalRows)
        (max state.graph.counters.band finished.graph.counters.band)).graph := by
      have restored_shares := restored.shares
      rw [SharesCounters, shares.withCounts] at restored_shares
      simp only [SharesCounters, Construction.withCounts]
      rw [restored_shares]
    have counted_same : SameComponents start.nodes (finished.withCounts
        (max state.graph.counters.totalRows finished.graph.counters.totalRows)
        (max state.graph.counters.band finished.graph.counters.band)).graph.nodes :=
      reset_same.trans restored.components
    refine (ih later_distinct later_ready counted_same (fun other other_mem => ?_)
      counted_shares).imp ?_
    · exact restored.kept reset_same (not_exactly_of_ne (ne_of_mem_of_not_mem other_mem first_absent))
        (later_kept other other_mem)
    rintro final ⟨final_same, finishes, carried_on⟩
    refine ⟨final_same, forall_mem_cons.mpr ⟨?_, finishes⟩, ?_⟩
    · exact carried_on component first_absent (restored.finishes.of_unchanged (fun _ _ => rfl) (le_max_right _ _))
    · intro other absent other_finishes
      obtain ⟨different, not_later⟩ := not_or.mp (mem_cons.not.mp absent)
      refine carried_on other not_later (other_finishes.of_unchanged (fun i in_part => ?_) (le_max_left _ _))
      exact restored.getElem?_eq reset_same (not_exactly_of_ne different) in_part

omit ends in
/-- The graph whose components are to be separated, behind an ordering row or none. -/
theorem Graph.Orderly.separate (orderly : graph.Orderly) (parted : graph.Parted)
    (ordered_ok : (if forced || options.fuse = .minimal || options.separateComponents then graph.splitOnComponents
      else pure graph) = .ok ordered) :
    ordered.Orderly ∧ ordered.Parted ∧ ordered.componentCount = graph.componentCount ∧ Continues graph ordered
      ∧ (ordered.counters.band = graph.counters.band → ordered = graph ∧ forced = false) := by
  split at ordered_ok
  case isTrue =>
    simp only [splitOnComponents, bind_ok, pure_ok] at ordered_ok
    obtain ⟨appended, append_ok, rfl⟩ := ordered_ok
    have counters_eq := congrArg (·.counters) (appendConstantRow_ok append_ok).1
    have parts := (sameParts_of_appendConstantRow append_ok).nextBand
    obtain ⟨continues, uniform, nonempty⟩ := orderly.toUniform.continues.appendConstantRow orderly.toUniform append_ok
    refine ⟨uniform.nextBand nonempty, parted.of_parts parts, parts.count, continues.nextBand, ?_⟩
    intro same_band
    have band_eq : appended.nextBand.counters.band = graph.counters.band + 1 := by
      rw [show appended.nextBand.counters.band = appended.counters.band + 1 from rfl, counters_eq]
    omega
  case isFalse plain =>
    obtain rfl := pure_ok.mp ordered_ok
    simp only [Bool.or_eq_true, decide_eq_true_eq, not_or, Bool.not_eq_true] at plain
    exact ⟨orderly, parted, rfl, orderly.toUniform.continues, fun _ => ⟨rfl, plain.1.1⟩⟩

omit ends in
theorem Graph.Uniform.exists_id (uniform : graph.Uniform) :
    ∃ identifier, ∀ node ∈ graph.nodes, node.bandId graph.counters.band = identifier := by
  cases nodes_eq : graph.nodes with
  | nil => exact ⟨0, by simp⟩
  | cons first later =>
    refine ⟨first.bandId graph.counters.band, fun node node_mem => ?_⟩
    rw [← nodes_eq] at node_mem
    have first_mem : first ∈ graph.nodes := nodes_eq ▸ mem_cons_self
    exact congrFun (uniform.ids node node_mem first first_mem) _

/-- Separating the components finishes a graph with several of them. -/
theorem ends_separateComponents (orderly : state.graph.Orderly) (parted : state.graph.Parted)
    (several : 1 < state.graph.componentCount) (scope_eq : forced = false → scope = .whole)
    (within : state.graph.allowance < bound + 1) :
    Meets Fault.Timely (separateComponents nested options forced state) fun final => Finishes scope state.graph final.graph := by
  rw [separateComponents_eq_bind nested]
  have row_timely : Timely (if forced || options.fuse = .minimal || options.separateComponents then
      state.graph.splitOnComponents else pure state.graph) := by simp [splitOnComponents]
  refine row_timely.bind fun ordered ordered_ok => ?_
  obtain ⟨ordered_orderly, ordered_parted, count_eq, continues, plain⟩ := orderly.separate parted ordered_ok
  refine (faultsIn_mapM fun node _ => ?_).bind fun nodes each => ?_
  · exact (routine_updateBandId node _ fun _ => by simp).timely
  obtain ⟨identifier, one_id⟩ := ordered_orderly.toUniform.exists_id
  have identifies : Identifies (identifier + ·) ordered { ordered with nodes := nodes } := by
    refine ⟨(mapM_ok.mp each).imp_of_mem fun before before_mem after _ step => ?_, rfl⟩
    obtain ⟨node_eq, changed, others⟩ := updateBandId_ok step
    refine ⟨node_eq, ?_, others⟩
    rw [(Size.add_ok_iff.mp changed).2, one_id before before_mem]
  have labelled_parted : ({ ordered with nodes := nodes } : Graph).Parted :=
    ordered_parted.of_parts ⟨identifies.components, rfl, rfl, rfl⟩
  have length_eq : nodes.length = state.graph.nodes.length :=
    identifies.nodes.length_eq.symm.trans continues.nodes.length_eq.symm
  have ready : ∀ component ∈ List.range ordered.componentCount,
      PartReady (.exactly component) bound { ordered with nodes := nodes } := by
    intro component _
    refine identifies.partReady ordered_orderly (fun i j i_keeps j_keeps => ?_) ?_
    · rw [of_decide_eq_true i_keeps, of_decide_eq_true j_keeps]
    · have fewer := labelled_parted.length_component_lt (several.trans_eq count_eq.symm) component
      have rows_le := continues.rows_le
      have max_eq := continues.max_rows
      rw [allowance] at within
      dsimp only at fewer ⊢
      omega
  refine Meets.bind (ends_constructComponents ends nodup_range ready ?_ (fun _ _ _ _ => rfl) rfl)
    ?_
  · exact forall₂_same.mpr fun _ _ => rfl
  rintro finished _ ⟨components, finishes, _⟩
  refine (routine_padRows _).timely.bind fun padded padded_ok => (meets_pure ?_)
  have part_finishes : ∀ filter ∈ (List.range ordered.componentCount).map ComponentFilter.exactly,
      PartFinishes filter 1 { ordered with nodes := nodes } finished.graph := by
    intro filter filter_mem
    obtain ⟨component, component_mem, rfl⟩ := mem_map.mp filter_mem
    exact finishes component component_mem
  have covered : ∀ node ∈ nodes, ∃ filter ∈ (List.range ordered.componentCount).map ComponentFilter.exactly,
      filter.keepsNode node.component = true := by
    intro node node_mem
    refine ⟨.exactly node.component, mem_map.mpr ⟨_, ?_, rfl⟩, decide_eq_true rfl⟩
    exact mem_range.mpr (labelled_parted.partitioned.component_lt node node_mem)
  refine continues.finishes_of_padRows covered part_finishes components.length_eq identifies ordered_orderly ?_ ?_ padded_ok
  · intro first first_mem second second_mem different i j i_keeps j_keeps
    obtain ⟨first_component, _, rfl⟩ := mem_map.mp first_mem
    obtain ⟨second_component, _, rfl⟩ := mem_map.mp second_mem
    have components_ne : first_component ≠ second_component := fun same => different (congrArg _ same)
    rw [of_decide_eq_true i_keeps, of_decide_eq_true j_keeps]
    omega
  intro same_band before before_mem node node_mem filter _ _
  obtain ⟨rfl, unforced⟩ := plain same_band
  obtain rfl := scope_eq unforced
  have component_lt := labelled_parted.partitioned.component_lt node node_mem
  have count_le := labelled_parted.partitioned.count_le
  have node_id := identifies.bandId_eq node_mem
  have before_id := one_id before before_mem
  dsimp only [Scope.width] at *
  omega

omit ends in
theorem length_filter_of_components {others : List Node} (components : SameComponents nodes others) (selects : ℕ → Bool) :
    (others.filter fun node => selects node.component).length = (nodes.filter fun node => selects node.component).length := by
  have components_eq : nodes.map (·.component) = others.map (·.component) :=
    components.map_eq fun _ _ component_eq => component_eq.symm
  have counted := congrArg (List.countP selects) components_eq
  rw [countP_map, countP_map, countP_eq_length_filter, countP_eq_length_filter] at counted
  exact counted.symm

omit ends in
theorem identifies_of_split {earlier : ℕ} (unnamed : ∀ node ∈ ordered.nodes, node.bandId ordered.counters.band = 0)
    (each : Forall₂ (fun before after : Node => (if decide (component < before.component) = true then
      before.updateBandId ordered.counters.band fun _ => .ok earlier else .ok before) = .ok after) ordered.nodes nodes) :
    Identifies (fun other => if component < other then earlier else 0) ordered { ordered with nodes := nodes } := by
  refine ⟨each.imp_of_mem fun before before_mem after _ step => ?_, rfl⟩
  split at step
  case isTrue is_later =>
    obtain ⟨node_eq, changed, others⟩ := updateBandId_ok step
    refine ⟨node_eq, ?_, others⟩
    rw [if_pos (of_decide_eq_true is_later)]
    exact (Except.ok.inj changed).symm
  case isFalse is_earlier =>
    obtain rfl := Except.ok.inj step
    refine ⟨⟨_, rfl⟩, ?_, fun _ _ => rfl⟩
    rw [if_neg (fun is_later => is_earlier (decide_eq_true is_later))]
    exact unnamed before before_mem

theorem ends_splitAfter (orderly : start.Orderly) (gathers : Gathers start state.graph)
    (conflict : state.graph.ConflictOrdered) (found : state.graph.conflict.isSome = true)
    (within : start.allowance < bound + 1) : Meets Fault.Timely (splitAfter nested state) fun final =>
      Finishes scope start final.graph := by
  obtain ⟨⟨component, another⟩, conflict_eq⟩ := Option.isSome_iff_exists.mp found
  have conflict := conflict component another conflict_eq
  rw [splitAfter, conflict_eq]
  refine (routine_resetBand _).timely.bind fun reset reset_ok => ?_
  obtain ⟨reset_gathers, reset_counters⟩ := gathers.resetBand orderly reset_ok
  have reset_orderly := gathers.uniform.resetBand reset_ok
  refine (timely_appendConstantRow _ _).bind fun appended append_ok => ?_
  obtain ⟨_, appended_eq, advances⟩ := advances_of_appendConstantRow append_ok
  have counters_eq := congrArg (·.counters) appended_eq
  dsimp only at counters_eq
  obtain ⟨appended_continues, uniform, nonempty⟩ := reset_gathers.continues.appendConstantRow reset_orderly.toUniform append_ok
  have ordered_orderly : appended.nextBand.Orderly := uniform.nextBand nonempty
  have continues : Continues start appended.nextBand := appended_continues.nextBand
  -- No node has an identifier for the new band yet.
  have unnamed : ∀ node ∈ appended.nextBand.nodes, node.bandId appended.nextBand.counters.band = 0 := by
    intro node node_mem
    obtain ⟨before, before_mem, advance⟩ := advances.exists_left node_mem
    rw [bandId_congr advance.ids]
    refine reset_orderly.fresh before before_mem _ (Nat.lt_succ_of_le ?_)
    rw [counters_eq]
  refine (faultsIn_mapM fun node _ => ?_).bind fun nodes each => ?_
  · exact faultsIn_ite_iff.mpr ⟨fun _ => (routine_updateBandId node _ fun _ => by simp).timely, fun _ => by simp⟩
  have identifies := identifies_of_split unnamed (mapM_ok.mp each)
  have components : SameComponents start.nodes nodes :=
    (reset_gathers.parts.trans (sameParts_of_appendConstantRow append_ok)).components.trans identifies.components
  -- Both ends of the conflict are among the labelled nodes, one on either side of the split.
  obtain ⟨⟨a_after, a_after_mem, a_earlier⟩, b_after, b_after_mem, b_behind⟩ :=
    exists_sides gathers.parts.components components conflict
  have less : ∀ filter : ComponentFilter, (∃ node ∈ nodes, filter.keepsNode node.component = false) →
      appended.nextBand.counters.maxRows - appended.nextBand.counters.totalRows
        + (nodes.filter fun node => filter.keepsNode node.component).length < bound := by
    rintro filter ⟨node, node_mem, drops⟩
    have fewer := length_filter_lt node_mem drops
    have length_eq : nodes.length = start.nodes.length := components.length_eq.symm
    have rows_le := continues.rows_le
    have max_eq := continues.max_rows
    rw [allowance] at within
    omega
  have id_earlier : ∀ i, (atMost component).keepsNode i = true → ¬component < i :=
    fun i keeps => Nat.not_lt.mpr (of_decide_eq_true keeps)
  have id_later : ∀ i, (atLeast (component + 1)).keepsNode i = true → component < i :=
    fun i keeps => of_decide_eq_true keeps
  have first_ready : PartReady (.atMost component) bound { appended.nextBand with nodes := nodes } := by
    refine identifies.partReady ordered_orderly (fun i j i_keeps j_keeps => ?_)
      (less _ ⟨b_after, b_after_mem, not_atMost_of_atLeast b_behind⟩)
    rw [if_neg (id_earlier i i_keeps), if_neg (id_earlier j j_keeps)]
  have second_ready : PartReady (.atLeast (component + 1)) bound { appended.nextBand with nodes := nodes } := by
    refine identifies.partReady ordered_orderly (fun i j i_keeps j_keeps => ?_)
      (less _ ⟨a_after, a_after_mem, not_atLeast_of_atMost a_earlier⟩)
    rw [if_pos (id_later i i_keeps), if_pos (id_later j j_keeps)]
  have labelled_same : SameComponents nodes nodes := forall₂_same.mpr fun _ _ => rfl
  refine Meets.bind (ends_constructPart ends first_ready labelled_same (fun _ _ => rfl) rfl) fun first _ first_restored => ?_
  have first_kept := first_restored.kept labelled_same (fun _ => not_atMost_of_atLeast) fun _ _ => rfl
  refine Meets.bind (ends_constructPart ends second_ready first_restored.components first_kept
    first_restored.shares.withCounts) fun second _ second_restored => ?_
  refine (routine_padRows _).timely.bind fun padded padded_ok => (meets_pure ?_)
  have joined_finishes : ∀ filter ∈ [atMost component, .atLeast (component + 1)],
      PartFinishes filter (nodes.filter fun node => filter.keepsNode node.component).length
        { appended.nextBand with nodes := nodes }
        (second.withCounts (max second.graph.counters.totalRows first.graph.counters.totalRows)
          (max second.graph.counters.band first.graph.counters.band)).graph := by
    intro filter filter_mem
    simp only [mem_cons, not_mem_nil, or_false] at filter_mem
    rcases filter_mem with rfl | rfl
    · refine first_restored.finishes.of_unchanged (fun i in_part => ?_) (le_max_right _ _)
      exact second_restored.getElem?_eq first_restored.components (fun _ => not_atLeast_of_atMost) in_part
    · exact second_restored.finishes.of_unchanged (fun _ _ => rfl) (le_max_left _ _)
  have covered : ∀ node ∈ nodes, ∃ filter ∈ [atMost component, .atLeast (component + 1)],
      filter.keepsNode node.component = true := by
    intro node _
    rcases Nat.lt_or_ge component node.component with later | earlier
    · exact ⟨.atLeast (component + 1), by simp, decide_eq_true later⟩
    · exact ⟨.atMost component, by simp, decide_eq_true earlier⟩
  -- The identifiers of the nodes before the split are less than their number, and that is the identifier of the others.
  have counted : (nodes.filter fun node => (atMost component).keepsNode node.component).length
      = (appended.nextBand.nodes.filter fun node => !decide (component < node.component)).length := by
    rw [length_filter_of_components identifies.components]
    refine congrArg List.length (filter_congr fun node _ => ?_)
    rw [keepsNode, ← decide_not]
    exact decide_eq_decide.mpr Nat.not_lt.symm
  have joined_same : SameComponents nodes second.graph.nodes :=
    SameComponents.trans first_restored.components second_restored.components
  refine continues.finishes_of_padRows covered joined_finishes joined_same.length_eq identifies ordered_orderly ?_
    (fun same_band => ?_) padded_ok
  · intro first first_mem second second_mem different i j i_keeps j_keeps
    simp only [mem_cons, not_mem_nil, or_false] at first_mem second_mem
    rcases first_mem with rfl | rfl <;> rcases second_mem with rfl | rfl
    · exact absurd rfl different
    · rw [if_neg (id_earlier i i_keeps), if_pos (id_later j j_keeps), ← counted]
      exact Or.inl (Nat.zero_add _).le
    · rw [if_pos (id_later i i_keeps), if_neg (id_earlier j j_keeps), ← counted]
      exact Or.inr (Nat.zero_add _).le
    · exact absurd rfl different
  have band_eq : appended.nextBand.counters.band = start.counters.band + 1 := by
    rw [show appended.nextBand.counters.band = appended.counters.band + 1 from rfl, counters_eq, reset_counters]
  omega

/-! ### Carrying rows -/

/-- A carrying row finishes a graph, or there is no row that carries a dependence. -/
theorem ends_carryDependences (orderly : state.graph.Orderly) (parted : state.graph.Parted)
    (within : state.graph.allowance < bound + 1) : Meets Fault.Timely (carryDependences nested options state) fun final =>
      Finishes scope state.graph final.graph := by
  refine (timely_carryingRow _ _ _).bind fun carrying carrying_ok => ?_
  have redrawn := (redrawn_of_carryingRow carrying_ok).1
  have same := redrawn.sameBooks
  have carrying_orderly := orderly.of_sameBooks same
  dsimp only
  split
  case isTrue =>
    split
    case isTrue several =>
      refine Meets.imp (ends_separateComponents ends carrying_orderly (parted.of_parts (sameParts_of_core_eq redrawn.core_eq)) several
        (fun impossible => ?_) (same.allowance_eq.trans_lt within)) fun final finishes => finishes.of_sameBooks same
      cases impossible
    case isFalse =>
      exact ⟨faultsIn_throw_iff.mpr (by simp [Fault.Timely]), fun _ impossible => by cases impossible⟩
  case isFalse =>
    refine (timely_appendRow _ _ _).bind fun appended append_ok => ?_
    have counters_eq := congrArg (·.counters) (advances_of_appendRow append_ok).2.1
    obtain ⟨continues, uniform, nonempty⟩ := (orderly.toUniform.continues.of_sameBooks same).appendRow
      carrying_orderly.toUniform append_ok
    have longer : state.graph.counters.totalRows < appended.counters.totalRows := by
      rw [counters_eq, same.counters]
      exact Nat.lt_succ_self _
    split
    case isFalse => exact ends_continueBands ends continues uniform nonempty longer within
    case isTrue =>
      refine (timely_splitFactor _).bind fun split split_ok => ?_
      rcases splitFactor_ok split_ok with rfl | ⟨split_room, split_eq, split_advances⟩
      · exact ends_continueBands ends continues uniform nonempty longer within
      · have split_counters := congrArg (·.counters) split_eq
        dsimp only at split_counters
        obtain ⟨split_continues, split_uniform, split_nonempty⟩ := continues.nextBand.advance
          (uniform.nextBand nonempty).toUniform split_room split_counters split_advances
        have grown_rows : split.counters.totalRows = appended.counters.totalRows + 1 := congrArg (·.totalRows) split_counters
        exact ends_continueBands ends split_continues split_uniform split_nonempty
          (longer.trans (grown_rows ▸ Nat.lt_succ_self _)) within

/-! ### Connected graphs -/

omit ends in
theorem Graph.Gathers.sameBooks_of_empty (gathers : Gathers start graph) (orderly : start.Orderly)
    (is_empty : graph.counters.totalRows = graph.counters.bandStart) : graph.SameBooks start := by
  have rows_eq : graph.counters.totalRows = start.counters.totalRows := is_empty.trans (gathers.start_eq orderly)
  obtain ⟨added, counters_eq⟩ := gathers.counters
  have none_added : added = 0 := by
    have total_eq := congrArg (·.totalRows) counters_eq
    dsimp only at total_eq
    omega
  subst none_added
  refine ⟨gathers.continues.nodes.imp_of_mem fun before before_mem after after_mem ⟨resumes, ids⟩ => ?_, counters_eq⟩
  have before_rows := orderly.has_rows before before_mem
  have after_rows := gathers.uniform.has_rows after after_mem
  rw [rows_eq] at after_rows
  exact ⟨resumes.space, (resumes.bands.eq_of_length (before_rows.bands.trans after_rows.bands.symm)).symm,
    (resumes.coincident.eq_of_length (before_rows.coincident.trans after_rows.coincident.symm)).symm, ids,
    after_rows.height.trans before_rows.height.symm, fun _ => gathers.uniform.framed after after_mem⟩

theorem ends_resolveStuck (orderly : start.Orderly) (parted : start.Parted) (gathers : Gathers start state.graph)
    (conflict : state.graph.ConflictOrdered) (within : start.allowance < bound + 1) :
    Meets Fault.Timely (resolveStuck nested options state) fun final =>
      Finishes scope start final.graph := by
  have start_eq := gathers.start_eq orderly
  have continues (not_empty : state.graph.counters.totalRows ≠ state.graph.counters.bandStart) :
      Meets Fault.Timely (continueBands nested state) fun final =>
        Finishes scope start final.graph := by
    have nonempty := Nat.lt_of_le_of_ne gathers.uniform.start_le not_empty.symm
    exact ends_continueBands ends gathers.continues gathers.uniform nonempty (start_eq ▸ nonempty) within
  simp only [resolveStuck]
  split
  case isTrue filled =>
    simp only [Bool.and_eq_true, Bool.not_eq_true', decide_eq_false_iff_not] at filled
    exact continues filled.2
  case isFalse =>
    split
    case isTrue found => exact ends_splitAfter ends orderly gathers conflict found within
    case isFalse =>
      by_cases is_empty : state.graph.counters.totalRows = state.graph.counters.bandStart
      · rw [if_neg (by simp [is_empty])]
        have same := gathers.sameBooks_of_empty orderly is_empty
        exact Meets.imp (ends_carryDependences ends (orderly.of_sameBooks same) (parted.of_parts gathers.parts)
          (same.allowance_eq.trans_lt within)) fun final finishes => finishes.of_sameBooks same
      · rw [if_pos (by simp [is_empty])]
        exact continues is_empty

omit ends in
/-- Sorting the statements of a graph with all rows leaves its books uniform. -/
theorem Graph.Continues.sortStatements (continues : Continues start graph) (uniform : graph.Uniform)
    (done : sortStatements graph = .ok next) : Continues start next ∧ next.Uniform := by
  obtain ⟨_, _, rfl⟩ | ⟨edges, table, _, append_ok⟩ := sortStatements_ok done
  · exact ⟨continues.of_sameBooks (.of_nodes rfl rfl), uniform.of_sameBooks (.of_nodes rfl rfl)⟩
  · have detected : { graph with edges := edges, edgeTable := table }.detectStrong.SameBooks graph :=
      sameBooks_assign.trans (.of_nodes rfl rfl)
    obtain ⟨next_continues, next_uniform, _⟩ := (continues.of_sameBooks detected).appendConstantRow
      (uniform.of_sameBooks detected) append_ok
    exact ⟨next_continues, next_uniform⟩

omit ends in
theorem Graph.Gathers.closeBand (gathers : Gathers start graph) :
    Continues start (closeBand graph) ∧ (closeBand graph).Uniform := by
  rw [AffineSchedule.closeBand]
  split
  case isTrue nonempty => exact ⟨gathers.continues.nextBand, (gathers.uniform.nextBand nonempty).toUniform⟩
  case isFalse => exact ⟨gathers.continues, gathers.uniform⟩

/-- The rows of a graph that is taken as connected are finished. -/
theorem ends_constructConnected (orderly : state.graph.Orderly) (tabled : state.graph.Tabled)
    (within : state.graph.allowance < bound + 1) :
    Meets Fault.Timely (constructConnected nested options state) fun final =>
      Finishes scope state.graph final.graph := by
  refine (routine_updateRowsNeeded _).timely.bind fun graph needed_ok => ?_
  have same : graph.SameBooks state.graph := (sameBooks_of_updateRowsNeeded needed_ok).trans sameBooks_assign
  have graph_orderly := orderly.of_sameBooks same
  have graph_within := same.allowance_eq.trans_lt within
  have parted := (parted_detectStrong tabled).of_parts (ranked_of_updateRowsNeeded needed_ok).2.2
  split
  case isTrue =>
    exact Meets.imp (ends_carryDependences ends graph_orderly parted graph_within)
      fun final finishes => finishes.of_sameBooks same
  case isFalse =>
    have cleared_same : graph.clearLocal.SameBooks graph := .of_nodes rfl rfl
    have cleared_orderly := graph_orderly.of_sameBooks cleared_same
    have cleared_parted := parted.of_parts (sameParts_of_core_eq (core_clearLocal graph))
    suffices finished : Meets Fault.Timely _ fun final : Construction =>
        Finishes scope graph.clearLocal final.graph from
      finished.imp fun final finishes => (finishes.of_sameBooks cleared_same).of_sameBooks same
    refine (timely_fillBand cleared_orderly).bind fun ⟨bandEnd, filled⟩ fill_ok => ?_
    obtain ⟨gathers, conflict⟩ := gathers_of_fillBand cleared_orderly cleared_parted fill_ok
    cases bandEnd with
    | stuck =>
      exact ends_resolveStuck ends cleared_orderly cleared_parted gathers (conflict rfl)
        (cleared_same.allowance_eq.trans_lt graph_within)
    | complete =>
      refine (timely_sortStatements _).bind fun sorted sort_ok => (meets_pure ?_)
      obtain ⟨continues, uniform⟩ := gathers.closeBand
      obtain ⟨sorted_continues, sorted_uniform⟩ := continues.sortStatements uniform sort_ok
      exact sorted_continues.finishes_of_uniform sorted_uniform

/-- A step on top of nested ones that finish their graphs finishes its own, with one more row or node to spend. -/
theorem constructStep_ends : NestedStep.Ends (constructStep nested options) (bound + 1) := by
  intro scope state orderly tabled within
  cases scope with
  | connected => exact ends_constructConnected ends orderly tabled within
  | whole =>
    have detect : ∀ separated : Graph, separated.SameBooks state.graph → separated.Tabled → separated.Parted →
        Meets Fault.Timely
          (if 1 < separated.componentCount then separateComponents nested options false { state with graph := separated }
            else constructConnected nested options { state with graph := separated })
          fun final => Finishes .whole state.graph final.graph := by
      intro separated same separated_tabled parted
      have separated_orderly := orderly.of_sameBooks same
      have separated_within := same.allowance_eq.trans_lt within
      suffices finished : Meets Fault.Timely _ fun final : Construction => Finishes .whole separated final.graph from
        finished.imp fun final finishes => finishes.of_sameBooks same
      split
      case isTrue several => exact ends_separateComponents ends separated_orderly parted several (fun _ => rfl) separated_within
      case isFalse => exact ends_constructConnected ends separated_orderly separated_tabled separated_within
    rw [constructStep]
    cases options.fuse with
    | minimal => exact detect _ sameBooks_assign tabled (parted_detectStrong tabled)
    | maximal => exact detect _ sameBooks_assign tabled (parted_detectWeak tabled)

end Steps

/-- The construction finishes every graph that asks for less nesting than is granted. -/
theorem construct_ends (options : Options) (depth : ℕ) : NestedStep.Ends (construct options depth) depth := by
  induction depth with
  | zero =>
    intro scope state _ _ impossible
    exact absurd impossible (Nat.not_lt_zero _)
  | succ depth ih => exact constructStep_ends ih

/-- The nesting that a graph is granted is enough for it. -/
theorem Graph.allowance_lt_nesting (graph : Graph) : graph.allowance < graph.nesting := by
  unfold allowance nesting
  omega

end AffineSchedule
