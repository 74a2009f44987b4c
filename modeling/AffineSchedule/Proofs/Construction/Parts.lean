import AffineSchedule.Proofs.Construction.BandFill
import AffineSchedule.Proofs.Construction.Carrying
import AffineSchedule.Proofs.Construction.FactorSplit

namespace AffineSchedule

open Checked AffineSchedule.Graph List ComponentFilter

variable {start graph next : Graph} {final state : Construction} {options : Options} {component : ℕ}
  {other : ℕ} {appended : Graph} {node : Node} {nodes : List Node}

/-- Other counts leave what is assembled as it is. -/
theorem Assembles.withCounts (assembles : Assembles start state.graph) (totalRows band : ℕ) :
    Assembles start (state.withCounts totalRows band).graph :=
  ⟨assembles.params, assembles.edges, assembles.table, assembles.nodes⟩

/-! ### Ordering rows -/

theorem Node.component_of_core_eq {twin : Node} (core_eq : node.core = twin.core) :
    node.component = twin.component := congrArg (·.component) core_eq

/-- Band identifiers are bookkeeping. -/
theorem Node.core_of_updateBandId {next : Node} {band : ℕ} {change : ℕ → Checked ℕ}
    (done : node.updateBandId band change = .ok next) : next.core = node.core := by
  simp only [updateBandId, bind_ok, pure_ok] at done
  obtain ⟨_, _, _, _, _, _, rfl⟩ := done
  rfl

/-- Nodes that change in their bookkeeping only leave the core of the graph. -/
theorem Graph.core_withNodes
    (each : Forall₂ (fun before after : Node => after.core = before.core) graph.nodes nodes) :
    { graph with nodes := nodes }.core = graph.core := by
  have cores_eq := each.map_eq fun _ _ core_eq => core_eq.symm
  rw [core, core, cores_eq]

/-- A graph is at the start of a band behind the one of another graph, with the same dependences, and the rows
    in between respect them. -/
structure Graph.Ordered (start ordered : Graph) : Prop where
  grows : Grows start.Links start ordered
  band_le : start.counters.band ≤ ordered.counters.band
  at_start : ordered.AtBandStart
  edges : start.SameEdges ordered

theorem Graph.Ordered.of_sameRows {ordered : Graph} (done : Ordered start ordered)
    (same : next.SameRows ordered) : Ordered start next :=
  ⟨done.grows.of_nodes same.params same.nodes (congrArg (·.totalRows) same.counters), same.counters ▸ done.band_le,
    same.atBandStart done.at_start, same.edges.trans done.edges⟩

theorem Graph.SameRows.ordered (same : graph.SameRows start) (at_start : start.AtBandStart) :
    Ordered start graph :=
  ⟨same.grows at_start.has_rows, same.counters ▸ le_rfl, same.atBandStart at_start, same.edges⟩

/-- A constant row in a band of its own tells apart the nodes to which it gives different values. -/
theorem Graph.AtBandStart.ordered_constantRow {value : Node → ℤ} (at_start : start.AtBandStart)
    (same : graph.SameRows start) (done : graph.appendConstantRow value = .ok next)
    (in_order : ∀ i j params x y, start.Links .validity i j params x y → ∀ a b, graph.nodes[i]? = some a →
      graph.nodes[j]? = some b → value a ≤ value b) : Ordered start next.nextBand
      ∧ ∀ (i : ℕ) (a : Node), next.nodes[i]? = some a → ∃ before, graph.nodes[i]? = some before
          ∧ a.component = before.component ∧ ∀ params x, a.timeAt graph.counters.totalRows params x = value before := by
  obtain ⟨stage, values⟩ := (at_start.stage.of_sameRows same).appendConstantRow done in_order
  refine ⟨⟨?_, stage.band_le.trans (Nat.le_succ _), stage.atBandStart_nextBand, stage.edges⟩, values⟩
  exact stage.grows.of_nodes rfl (forall₂_same.mpr fun node _ => Node.SameRows.refl node) rfl

/-- The parts that filters select: every node lies in one part, and so do the ends of a link that the rows so far do not
    tell apart. -/
structure Graph.Parcels (start ordered : Graph) (filters : List ComponentFilter) : Prop where
  together : ∀ kind i j a b params x y, ordered.nodes[i]? = some a → ordered.nodes[j]? = some b →
    start.Links kind i j params x y → (∀ row, a.timeAt row params x = b.timeAt row params y) →
    ∃ filter ∈ filters, filter.keepsNode a.component = true ∧ filter.keepsNode b.component = true
  apart : ∀ first ∈ filters, ∀ second ∈ filters, ∀ component, first.keepsNode component = true →
    second.keepsNode component = true → first = second
  covered : ∀ node ∈ ordered.nodes, ∃ filter ∈ filters, filter.keepsNode node.component = true

theorem Graph.Parcels.of_cores {ordered : Graph} {filters : List ComponentFilter}
    (parcels : Parcels start ordered filters)
    (cores : Forall₂ (fun before after : Node => after.core = before.core) ordered.nodes nodes) :
    Parcels start { ordered with nodes := nodes } filters := by
  refine ⟨fun kind i j a b params x y a_at b_at link agree => ?_, parcels.apart, ?_⟩
  · obtain ⟨a_old, a_old_at, a_core⟩ := cores.getElem?_left a_at
    obtain ⟨b_old, b_old_at, b_core⟩ := cores.getElem?_left b_at
    rw [Node.component_of_core_eq a_core, Node.component_of_core_eq b_core]
    refine parcels.together kind i j a_old b_old params x y a_old_at b_old_at link fun row => ?_
    rw [← (Node.sameRows_of_core_eq a_core).timeAt_eq, ← (Node.sameRows_of_core_eq b_core).timeAt_eq]
    exact agree row
  · refine cores.forall_mem (fun before after _ core_eq covered => ?_) parcels.covered
    rwa [Node.component_of_core_eq core_eq]

theorem Graph.assembles_refl (start : Graph) : Assembles start start :=
  ⟨rfl, rfl, rfl, forall₂_same.mpr fun node _ => ⟨Node.Prolongs.refl node, rfl⟩⟩

theorem Graph.untouched_refl (filter : ComponentFilter) (start : Graph) :
    Untouched filter start start := by
  intro i before node before_at node_at _
  obtain rfl := Option.mem_unique before_at node_at
  exact Node.SameRows.refl before

section

variable {i j : ℕ} {params x y : ℕ → ℤ} {a b : Node}

/-- No validity link leads to an earlier component. -/
theorem Graph.Partitioned.component_le (partitioned : graph.Partitioned)
    (link : graph.Links .validity i j params x y) (a_at : graph.nodes[i]? = some a)
    (b_at : graph.nodes[j]? = some b) : a.component ≤ b.component := by
  obtain ⟨edge, edge_mem, rfl, rfl, has_kind, _⟩ := link
  exact partitioned.ordered edge edge_mem has_kind a b a_at b_at

/-- No link of a separated graph joins two components. -/
theorem Graph.Separated.component_eq (separated : graph.Separated) {kind : Kind} (link : graph.Links kind i j params x y)
    (a_at : graph.nodes[i]? = some a) (b_at : graph.nodes[j]? = some b) : a.component = b.component := by
  obtain ⟨edge, edge_mem, rfl, rfl, has_kind, _⟩ := link
  exact separated edge edge_mem kind has_kind a b a_at b_at

end

/-- The row of the components orders them, and tells them apart. -/
theorem Graph.AtBandStart.ordered_components (at_start : graph.AtBandStart) (partitioned : graph.Partitioned)
    (done : graph.splitOnComponents = .ok next) : Ordered graph next ∧ next.componentCount = graph.componentCount
      ∧ (∀ node ∈ next.nodes, node.component < graph.componentCount)
      ∧ ∀ (i j : ℕ) (a b : Node) (params x y : ℕ → ℤ), next.nodes[i]? = some a → next.nodes[j]? = some b →
          (∀ row, a.timeAt row params x = b.timeAt row params y) → a.component = b.component := by
  simp only [splitOnComponents, bind_ok, pure_ok] at done
  obtain ⟨appended, append_ok, rfl⟩ := done
  have ordinal_eq : ∀ (i : ℕ) (node : Node), graph.nodes[i]? = some node →
      node.ordinal = node.component := fun _ _ node_at =>
    partitioned.ordinal_eq at_start.well_formed (mem_of_getElem? node_at)
  obtain ⟨order, values⟩ := at_start.ordered_constantRow (SameRows.refl graph) append_ok (by
    intro i j params x y link a b a_at b_at
    rw [ordinal_eq i a a_at, ordinal_eq j b b_at]
    exact Int.ofNat_le.mpr (partitioned.component_le link a_at b_at))
  obtain ⟨appended_eq, _⟩ := appendConstantRow_ok append_ok
  refine ⟨order, congrArg (·.componentCount) appended_eq, ?_, ?_⟩
  · intro node node_mem
    obtain ⟨i, node_at⟩ := getElem?_of_mem node_mem
    obtain ⟨before, before_at, component_eq, _⟩ := values i node node_at
    rw [component_eq]
    exact partitioned.component_lt before (mem_of_getElem? before_at)
  · intro i j a b params x y a_at b_at agree
    obtain ⟨a_before, a_before_at, a_component, a_time⟩ := values i a a_at
    obtain ⟨b_before, b_before_at, b_component, b_time⟩ := values j b b_at
    have ordinals_eq := agree graph.counters.totalRows
    rw [a_time, b_time, ordinal_eq i a_before a_before_at, ordinal_eq j b_before b_before_at] at ordinals_eq
    rw [a_component, b_component]
    exact Int.ofNat_inj.mp ordinals_eq

/-! ### Separate components -/

theorem Graph.AtBandStart.parcels_separate {forced : Bool} {ordered : Graph}
    (at_start : graph.AtBandStart) (partitioned : graph.Partitioned)
    (separated : forced = false → options.fuse ≠ .minimal → graph.Separated)
    (ordered_ok : (if forced || options.fuse = .minimal || options.separateComponents then graph.splitOnComponents
      else pure graph) = .ok ordered)
    (cores : Forall₂ (fun before after : Node => after.core = before.core) ordered.nodes nodes) :
    Ordered graph { ordered with nodes := nodes } ∧ ordered.componentCount = graph.componentCount
      ∧ Parcels graph { ordered with nodes := nodes } ((List.range ordered.componentCount).map ComponentFilter.exactly) := by
  have facts : Ordered graph ordered ∧ ordered.componentCount = graph.componentCount
      ∧ (∀ node ∈ ordered.nodes, node.component < graph.componentCount)
      ∧ ∀ kind i j (a b : Node) params x y, ordered.nodes[i]? = some a → ordered.nodes[j]? = some b →
          graph.Links kind i j params x y → (∀ row, a.timeAt row params x = b.timeAt row params y) →
          a.component = b.component := by
    split at ordered_ok
    case isTrue =>
      obtain ⟨order, count_eq, below, apart⟩ := at_start.ordered_components partitioned ordered_ok
      exact ⟨order, count_eq, below, fun _ i j a b params x y a_at b_at _ => apart i j a b params x y a_at b_at⟩
    case isFalse unordered =>
      obtain rfl := pure_ok.mp ordered_ok
      simp only [Bool.or_eq_true, decide_eq_true_eq, not_or, Bool.not_eq_true] at unordered
      obtain ⟨⟨unforced, not_minimal⟩, _⟩ := unordered
      refine ⟨(SameRows.refl _).ordered at_start, rfl, partitioned.component_lt, ?_⟩
      intro kind i j a b params x y a_at b_at link _
      exact (separated unforced not_minimal).component_eq link a_at b_at
  obtain ⟨order, count_eq, below, apart⟩ := facts
  have exactly_mem : ∀ node ∈ ordered.nodes,
      ComponentFilter.exactly node.component ∈ (List.range ordered.componentCount).map ComponentFilter.exactly :=
    fun node node_mem => mem_map_of_mem (mem_range.mpr (count_eq ▸ below node node_mem))
  refine ⟨order.of_sameRows (sameRows_of_core_eq (core_withNodes cores)), count_eq, Parcels.of_cores ⟨?_, ?_, ?_⟩ cores⟩
  · intro kind i j a b params x y a_at b_at link agree
    have components_eq := apart kind i j a b params x y a_at b_at link agree
    exact ⟨_, exactly_mem a (mem_of_getElem? a_at), decide_eq_true rfl, decide_eq_true components_eq.symm⟩
  · intro first first_mem second second_mem component first_keeps second_keeps
    obtain ⟨_, _, rfl⟩ := mem_map.mp first_mem
    obtain ⟨_, _, rfl⟩ := mem_map.mp second_mem
    rw [← of_decide_eq_true first_keeps, ← of_decide_eq_true second_keeps]
  · exact fun node node_mem => ⟨_, exactly_mem node node_mem, decide_eq_true rfl⟩

/-! ### Split between components -/

theorem ComponentFilter.not_exactly_of_ne (different : other ≠ component) (node_component : ℕ)
    (keeps : (ComponentFilter.exactly other).keepsNode node_component = true) :
    (ComponentFilter.exactly component).keepsNode node_component = false := by
  have is_other : node_component = other := of_decide_eq_true keeps
  exact decide_eq_false (is_other ▸ different)

theorem ComponentFilter.not_atMost_of_atLeast (keeps : (atLeast (component + 1)).keepsNode other = true) :
    (atMost component).keepsNode other = false := by
  have later : component + 1 ≤ other := of_decide_eq_true keeps
  exact decide_eq_false (Nat.not_le.mpr later)

theorem ComponentFilter.not_atLeast_of_atMost (keeps : (atMost component).keepsNode other = true) :
    (atLeast (component + 1)).keepsNode other = false := by
  have earlier : other ≤ component := of_decide_eq_true keeps
  exact decide_eq_false (Nat.not_le.mpr (Nat.lt_succ_of_le earlier))

theorem Graph.AtBandStart.parcels_split {reset : Graph}
    (at_start : start.AtBandStart) (same : reset.SameRows start) (partitioned : reset.Partitioned)
    (append_ok : reset.appendConstantRow (fun node => if decide (component < node.component) = true then 1 else 0) = .ok appended)
    (cores : Forall₂ (fun before after : Node => after.core = before.core) appended.nodes nodes) :
    Ordered start { appended.nextBand with nodes := nodes }
      ∧ Parcels start { appended.nextBand with nodes := nodes } [.atMost component, .atLeast (component + 1)] := by
  obtain ⟨order, values⟩ := at_start.ordered_constantRow same append_ok (by
    intro i j params x y link a b a_at b_at
    have component_le := partitioned.component_le (links_of_edges_eq same.edges.symm link) a_at b_at
    simp only [decide_eq_true_eq]
    split_ifs <;> omega)
  refine ⟨order.of_sameRows (sameRows_of_core_eq (core_withNodes cores)), Parcels.of_cores ⟨?_, ?_, ?_⟩ cores⟩
  · intro kind i j a b params x y a_at b_at _ agree
    obtain ⟨a_before, _, a_eq, a_time⟩ := values i a a_at
    obtain ⟨b_before, _, b_eq, b_time⟩ := values j b b_at
    -- The constant row gives linked instances of different sides different times.
    have sides_eq := agree reset.counters.totalRows
    rw [a_time, b_time] at sides_eq
    simp only [decide_eq_true_eq] at sides_eq
    by_cases later : component < a.component
    · refine ⟨.atLeast (component + 1), by simp, decide_eq_true later, decide_eq_true ?_⟩
      split_ifs at sides_eq <;> omega
    · refine ⟨.atMost component, by simp, decide_eq_true (Nat.le_of_not_lt later), decide_eq_true ?_⟩
      split_ifs at sides_eq <;> omega
  · intro first first_mem second second_mem other first_keeps second_keeps
    simp only [mem_cons, not_mem_nil, or_false] at first_mem second_mem
    rcases first_mem with rfl | rfl <;> rcases second_mem with rfl | rfl
    · rfl
    · rw [not_atMost_of_atLeast second_keeps] at first_keeps
      cases first_keeps
    · rw [not_atMost_of_atLeast first_keeps] at second_keeps
      cases second_keeps
    · rfl
  · intro node _
    rcases Nat.lt_or_ge component node.component with later | earlier
    · exact ⟨.atLeast (component + 1), by simp, decide_eq_true later⟩
    · exact ⟨.atMost component, by simp, decide_eq_true earlier⟩

/-! ### Sorted statements -/

/-- An empty band leaves the rows of its start. -/
theorem Graph.Filling.sameRows_of_empty (filling : Filling start graph) (at_start : start.AtBandStart)
    (is_empty : graph.counters.totalRows = graph.counters.bandStart) : graph.SameRows start := by
  obtain ⟨added, counters_eq⟩ := filling.counters
  have none_added : added = 0 := by
    rw [counters_eq] at is_empty
    have unmoved : start.counters.totalRows + added = start.counters.bandStart := is_empty
    have band_start := at_start.band_start
    omega
  subst none_added
  have counters_same : graph.counters = start.counters := counters_eq
  refine ⟨filling.stage.grows.params, ?_, filling.stage.edges, counters_same⟩
  refine filling.stage.grows.nodes.imp_of_mem fun first first_mem last last_mem prolonged => ?_
  have last_rows := filling.stage.grows.has_rows last last_mem
  exact prolonged.sameRows (at_start.has_rows first first_mem) (counters_same ▸ last_rows)

/-- Closing a filled band leads to the start of the next. -/
theorem Graph.Filling.ordered_closeBand (filling : Filling start graph) (at_start : start.AtBandStart) :
    Ordered start (closeBand graph) := by
  have stage := filling.stage
  unfold closeBand
  split
  case isTrue =>
    refine ⟨?_, stage.band_le.trans (Nat.le_succ _), stage.atBandStart_nextBand, stage.edges⟩
    exact stage.grows.of_nodes rfl (forall₂_same.mpr fun node _ => Node.SameRows.refl node) rfl
  case isFalse not_below =>
    refine (filling.sameRows_of_empty at_start ?_).ordered at_start
    obtain ⟨added, counters_eq⟩ := filling.counters
    have band_start := at_start.band_start
    rw [counters_eq] at not_below ⊢
    dsimp only at not_below ⊢
    omega

@[simp] theorem nodes_closeBand (graph : Graph) : (closeBand graph).nodes = graph.nodes := by
  rw [closeBand]
  split <;> rfl

@[simp] theorem totalRows_closeBand (graph : Graph) :
    (closeBand graph).counters.totalRows = graph.counters.totalRows := by
  rw [closeBand]
  split <;> rfl

/-- Sorting the statements leaves the rows alone, or adds a row for the components of the dependences left. -/
theorem sortStatements_ok (done : sortStatements graph = .ok next) :
    (∃ edges table, next = { graph with edges := edges, edgeTable := table })
      ∨ ∃ edges table, graph.narrowEdges = .ok { graph with edges := edges, edgeTable := table }
          ∧ { graph with edges := edges, edgeTable := table }.detectStrong.appendConstantRow (·.ordinal) = .ok next := by
  rw [sortStatements] at done
  split at done
  case isTrue => exact Or.inl ⟨graph.edges, graph.edgeTable, (pure_ok.mp done).symm⟩
  case isFalse =>
    obtain ⟨narrowed, narrow_ok, done⟩ := bind_ok.mp done
    obtain ⟨edges, table, rfl⟩ := exists_edges_of_narrowEdges narrow_ok
    split at done
    case isTrue => exact Or.inl ⟨edges, table, (pure_ok.mp done).symm⟩
    case isFalse => exact Or.inr ⟨edges, table, narrow_ok, done⟩

theorem exists_before_of_sortStatements (done : sortStatements graph = .ok next)
    (node_mem : node ∈ next.nodes) : ∃ before ∈ graph.nodes, node.SameRows before ∨ ∃ middle value, middle.SameRows before
      ∧ node.Pushes middle (middle.constantRow value) (some graph.counters.band) false := by
  obtain ⟨_, _, rfl⟩ | ⟨edges, table, _, append_ok⟩ := sortStatements_ok done
  · exact ⟨node, node_mem, Or.inl (.refl node)⟩
  · have same : { graph with edges := edges, edgeTable := table }.detectStrong.SameRows
        { graph with edges := edges, edgeTable := table } := sameRows_assign
    obtain ⟨middle, middle_mem, pushes⟩ := (appendConstantRow_ok append_ok).2.exists_left node_mem
    obtain ⟨before, before_mem, same_rows⟩ := same.nodes.exists_left middle_mem
    exact ⟨before, before_mem, Or.inr ⟨middle, _, same_rows, pushes⟩⟩

/-- Sorting the statements adds at most a row that orders the dependences left. -/
theorem grows_of_sortStatements (at_start : graph.AtBandStart) (done : sortStatements graph = .ok next) :
    Grows graph.Links graph next := by
  obtain ⟨_, _, rfl⟩ | ⟨edges, table, narrow_ok, append_ok⟩ := sortStatements_ok done
  · exact at_start.stage.grows.of_nodes rfl (forall₂_same.mpr fun node _ => .refl node) rfl
  · obtain ⟨narrowed_at_start, continues⟩ := at_start.narrow narrow_ok
    have same : { graph with edges := edges, edgeTable := table }.detectStrong.SameRows
        { graph with edges := edges, edgeTable := table } := sameRows_assign
    have sorted_at_start := same.atBandStart narrowed_at_start
    have partitioned := partitioned_detectStrong (tabled_of_narrowEdges narrow_ok)
    refine continues _ (same.grows_trans narrowed_at_start (sorted_at_start.stage.appendConstantRow append_ok ?_).1.grows)
    intro i j params x y link a b a_at b_at
    rw [partitioned.ordinal_eq sorted_at_start.well_formed (mem_of_getElem? a_at),
      partitioned.ordinal_eq sorted_at_start.well_formed (mem_of_getElem? b_at)]
    exact Int.ofNat_le.mpr (partitioned.component_le link a_at b_at)

/-- A label no less than all those of a list is not in it. -/
theorem notMem_of_labels {entries : List (Option ℕ)} {bound label : ℕ}
    (labels : ∀ entry ∈ entries, ∃ used < bound, entry = some used) (bound_le : bound ≤ label) : some label ∉ entries := by
  intro label_mem
  obtain ⟨used, used_lt, label_eq⟩ := labels _ label_mem
  obtain rfl := Option.some.inj label_eq
  exact absurd bound_le (Nat.not_le.mpr used_lt)

/-! ### Carrying rows -/

/-- A node behind a row at the start of a band, split or not. -/
theorem Graph.AtBandStart.exists_pushed {split : Graph} {rows : List (List ℤ)} (at_start : start.AtBandStart)
    (append_ok : start.appendRow rows false = .ok appended) (split_ok : split = appended ∨ appended.splitFactor = .ok split)
    (node_mem : node ∈ split.nodes) :
    ∃ before ∈ start.nodes, ∃ entries ∈ rows, ∃ middle, middle.Pushes before entries (some start.counters.band) false
      ∧ (node = middle ∨ ∃ factor, 0 < factor ∧ (∀ coefficient ∈ entries.drop 1, factor ∣ coefficient)
        ∧ node.SplitsRow middle start.counters.totalRows factor (start.counters.band + 1)) := by
  obtain ⟨_, appended_eq, _⟩ := appendRow_ok append_ok
  have rows_eq : appended.counters.totalRows = start.counters.totalRows + 1 := congrArg (·.counters.totalRows) appended_eq
  have band_eq : appended.counters.band = start.counters.band := congrArg (·.counters.band) appended_eq
  have pushed := fun after after_mem => (pushed_of_appendRow append_ok).exists_left (b := after) after_mem
  have appended_rows : ∀ after ∈ appended.nodes, after.HasRows appended.counters.totalRows := by
    intro after after_mem
    obtain ⟨before, before_mem, _, _, pushes⟩ := pushed after after_mem
    exact rows_eq ▸ pushes.hasRows (at_start.has_rows before before_mem)
  rcases split_ok.elim Or.inl (splitFactor_spec appended_rows) with rfl | ⟨factor, last, total_eq, large, divides, _, _, _, _, divided⟩
  · obtain ⟨before, before_mem, entries, entries_mem, pushes⟩ := pushed node node_mem
    exact ⟨before, before_mem, entries, entries_mem, node, pushes, Or.inl rfl⟩
  · obtain ⟨middle, middle_mem, splits⟩ := divided.exists_left node_mem
    obtain ⟨before, before_mem, entries, entries_mem, pushes⟩ := pushed middle middle_mem
    obtain rfl : start.counters.totalRows = last := Nat.succ.inj (rows_eq.symm.trans total_eq)
    have entries_divide := divides middle middle_mem
    rw [pushes.row_last (at_start.has_rows before before_mem)] at entries_divide
    rw [band_eq] at splits
    exact ⟨before, before_mem, entries, entries_mem, middle, pushes, Or.inr ⟨factor, zero_lt_one.trans large, entries_divide, splits⟩⟩

end AffineSchedule
