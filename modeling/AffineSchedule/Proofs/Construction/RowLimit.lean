import AffineSchedule.Proofs.Construction.Contracts

namespace AffineSchedule

open Checked AffineSchedule.Graph List

variable {cache : ConeCache} {graph : Graph} {options : Options}

namespace Graph

/-! ### Columns -/

theorem placeNodes_after (positions : List ℕ) (first : ℕ) (nodes : List Node) : (placeNodes first nodes positions).2
      = first + (positions.map ((nodes.map (·.columnCount)).getD · 0)).sum := by
  induction positions generalizing first nodes with
  | nil => rfl
  | cons index later ih =>
    rw [placeNodes]
    cases node_at : nodes[index]? with
    | none =>
      have no_columns : (nodes.map (·.columnCount)).getD index 0 = 0 := by
        simp [getD_eq_getElem?_getD, node_at]
      dsimp only
      rw [ih, map_cons, sum_cons, no_columns, Nat.zero_add]
    | some node =>
      have columns_eq : (nodes.map (·.columnCount)).getD index 0 = node.columnCount := by
        simp [getD_eq_getElem?_getD, node_at]
      have counts_eq : (nodes.set index { node with firstColumn := first }).map (·.columnCount)
          = nodes.map (·.columnCount) := by
        rw [map_set]
        refine ext_getElem? fun other => ?_
        rw [getElem?_set]
        split
        case isTrue same =>
          subst same
          split
          case isTrue => simp [node_at, Node.columnCount]
          case isFalse outside => rw [getElem?_eq_none (Nat.le_of_not_lt outside)]
        case isFalse => rfl
      dsimp only
      rw [ih, counts_eq, map_cons, sum_cons, columns_eq, Nat.add_assoc]

theorem le_sum_columnCount {nodes : List Node} {node : Node} (node_mem : node ∈ nodes) :
    nodes.length + 2 * node.space.dim ≤ (nodes.map (·.columnCount)).sum := by
  have length_le : ∀ others : List Node, others.length ≤ (others.map (·.columnCount)).sum := by
    intro others
    induction others with
    | nil => exact le_rfl
    | cons first later ih =>
      rw [length_cons, map_cons, sum_cons]
      unfold Node.columnCount at ih ⊢
      omega
  obtain ⟨before, after, rfl⟩ := append_of_mem node_mem
  have before_le := length_le before
  have after_le := length_le after
  rw [map_append, map_cons, sum_append, sum_cons, length_append, length_cons]
  rw [show node.columnCount = 1 + 2 * node.space.params + 2 * node.space.dim from rfl]
  omega

/-- There can be a list with an entry for every node, two for every dimension of any of them, and three more. -/
def Placeable (graph : Graph) : Prop :=
  ∀ node ∈ graph.nodes, graph.nodes.length + 2 * node.space.dim + 3 < Size.unreachable

theorem placeable_of_columns (sorted : ∀ index < graph.nodes.length, index ∈ graph.sorted) {first : ℕ}
    (first_ge : 3 ≤ first) (within : (graph.placeColumns first).2 < Size.unreachable) : graph.Placeable := by
  intro node node_mem
  have all_listed : (List.range graph.nodes.length).Subperm graph.sorted :=
    nodup_range.subperm fun index position_mem => sorted index (mem_range.mp position_mem)
  have range_eq : (List.range graph.nodes.length).map ((graph.nodes.map (·.columnCount)).getD · 0)
      = graph.nodes.map (·.columnCount) := by
    refine ext_getElem (by simp) fun index inside _ => ?_
    rw [length_map, length_range] at inside
    simp [getD_eq_getElem?_getD, inside]
  have sum_le : (graph.nodes.map (·.columnCount)).sum
      ≤ (graph.sorted.map ((graph.nodes.map (·.columnCount)).getD · 0)).sum := by
    obtain ⟨listed, listed_perm, listed_sublist⟩ := all_listed
    calc (graph.nodes.map (·.columnCount)).sum
        = ((List.range graph.nodes.length).map ((graph.nodes.map (·.columnCount)).getD · 0)).sum := by rw [range_eq]
      _ = (listed.map ((graph.nodes.map (·.columnCount)).getD · 0)).sum := (listed_perm.map _).sum_eq.symm
      _ ≤ (graph.sorted.map ((graph.nodes.map (·.columnCount)).getD · 0)).sum :=
        (listed_sublist.map _).sum_le_sum fun _ _ => Nat.zero_le _
  have columns_eq := placeNodes_after graph.sorted first graph.nodes
  have node_le := le_sum_columnCount node_mem
  rw [show (graph.placeColumns first).2 = (placeNodes first graph.nodes graph.sorted).2 from rfl, columns_eq] at within
  omega

theorem placeable_of_nextRow {coincide : Bool} {search : RowSearch} (done : graph.nextRow cache options coincide = .ok search)
    (sorted : ∀ index < graph.nodes.length, index ∈ graph.sorted) : graph.Placeable := by
  obtain ⟨_, problem_ok, _⟩ := bind_ok.mp done
  simp only [rowProblem, Linear.Problem.ofColumns, bind_ok, Size.make_ok_iff] at problem_ok
  obtain ⟨_, _, _, _, _, _, _, ⟨_, ⟨within, _⟩, _⟩, _⟩ := problem_ok
  exact placeable_of_columns sorted (by omega) within

theorem placeable_of_carryingRow {carrying : CarryingRow}
    (done : graph.carryingRow cache options = .ok carrying) (sorted : ∀ index < graph.nodes.length, index ∈ graph.sorted) :
    graph.Placeable := by
  obtain ⟨_, problem_ok, _⟩ := bind_ok.mp done
  simp only [carryingProblem, Linear.Problem.ofColumns, bind_ok, Size.make_ok_iff] at problem_ok
  obtain ⟨_, _, _, _, _, _, _, _, _, ⟨_, ⟨within, _⟩, _⟩, _⟩ := problem_ok
  exact placeable_of_columns sorted (Nat.le_add_right _ _) within

theorem Placeable.of_sameRows {next : Graph} (placeable : next.Placeable) (same : next.SameRows graph) :
    graph.Placeable := by
  intro node node_mem
  obtain ⟨after, after_mem, node_same⟩ := same.nodes.exists_right node_mem
  have fits := placeable after after_mem
  rwa [← same.nodes.length_eq, node_same.space] at fits

end Graph

/-! ### Connected graphs -/

section Connected

variable {regime : Regime options} {size deepest : ℕ} {nested : NestedStep} {state final : Construction}

theorem placeable_or_sorted (tabled : state.graph.Tabled) (done : constructConnected nested options state = .ok final) :
    state.graph.Placeable ∨ final.graph.counters.totalRows ≤ state.graph.counters.totalRows + 1 := by
  obtain ⟨graph, needed_ok, done⟩ := bind_ok.mp done
  obtain ⟨updated, _, parts⟩ := ranked_of_updateRowsNeeded needed_ok
  have sorted := ((partitioned_detectStrong tabled).of_parts parts).sorted
  have rows_eq : graph.counters = state.graph.counters := updated.counters
  have earlier (placeable : graph.Placeable) : state.graph.Placeable :=
    (placeable.of_sameRows updated).of_sameRows sameRows_assign
  split at done
  case isTrue =>
    obtain ⟨_, carried, _⟩ := bind_ok.mp done
    exact Or.inl (earlier (placeable_of_carryingRow carried sorted))
  case isFalse =>
    obtain ⟨⟨bandEnd, filled⟩, fill_ok, done⟩ := bind_ok.mp done
    have some_steps : 0 < graph.clearLocal.bandSteps := Nat.mul_pos (Nat.succ_pos _) (Nat.succ_pos _)
    obtain ⟨steps, steps_eq⟩ := Nat.exists_eq_succ_of_ne_zero some_steps.ne'
    rw [steps_eq, fillBand] at fill_ok
    split at fill_ok
    case isTrue =>
      obtain ⟨rfl, rfl⟩ := Prod.mk.inj (pure_ok.mp fill_ok)
      obtain ⟨sorted_graph, sort_ok, done⟩ := bind_ok.mp done
      obtain rfl := pure_ok.mp done
      refine Or.inr ((rows_of_sortStatements sort_ok).trans ?_)
      rw [totalRows_closeBand, ← rows_eq]
      exact le_rfl
    case isFalse =>
      obtain ⟨_, searched, _⟩ := bind_ok.mp fill_ok
      have placeable := placeable_of_nextRow searched sorted
      exact Or.inl (earlier placeable)

section

variable (ready : Ready regime size deepest state.graph) (no_rows : state.graph.counters.rows = 0)
include ready no_rows

theorem Ready.tighten :
    ∃ depth, Ready regime (state.graph.counters.totalRows + state.graph.nodes.length) depth state.graph
      ∧ ∃ node ∈ state.graph.nodes, depth ≤ node.space.dim := by
  have budget := ready.budget
  have depth_le : state.graph.nodes.foldl (fun most node => max most (node.space.dim - node.rowRank)) 0 ≤ deepest := by
    refine foldl_max_le (Nat.zero_le _) fun node node_mem => ?_
    have covered := budget.rank node node_mem
    omega
  refine ⟨state.graph.nodes.foldl (fun most node => max most (node.space.dim - node.rowRank)) 0,
    ⟨ready.at_start, ready.nonempty, ready.tabled, ready.suited, ready.locals, ?_, ?_, ?_⟩, ?_⟩
  · have max_rows := budget.max_rows
    have total := budget.total
    omega
  · rw [no_rows, Nat.mul_zero, Nat.zero_add]
  · intro node node_mem
    have node_le := le_foldl_max (fun node : Node => node.space.dim - node.rowRank) node_mem
    omega
  · rcases foldl_max_eq (fun node => node.space.dim - node.rowRank) state.graph.nodes 0 with is_zero | ⟨node, node_mem, depth_eq⟩
    · obtain ⟨node, node_mem⟩ := exists_mem_of_ne_nil _ ready.nonempty
      exact ⟨node, node_mem, by rw [is_zero]; exact Nat.zero_le _⟩
    · exact ⟨node, node_mem, by rw [depth_eq]; exact Nat.sub_le _ _⟩

/-- The rows of a graph that is taken as connected, if it has at most one row before. -/
theorem totalRows_lt_of_connected {depth : ℕ} (total_le : state.graph.counters.totalRows ≤ 1) (sound : state.cache.Sound)
    (done : constructConnected (construct options depth) options state = .ok final) :
    final.graph.counters.totalRows < Size.unreachable := by
  rcases placeable_or_sorted ready.tabled done with placeable | few
  · obtain ⟨depth_needed, tight, node, node_mem, depth_le⟩ := ready.tighten no_rows
    have completes := (meets_constructConnected
      (construct_contained regime _ depth_needed depth) tight sound).result final done
    have rows_le := completes.rows_le
    have fits := placeable node node_mem
    omega
  · have reachable : 2 < Size.unreachable := by decide
    omega

end

end Connected

/-! ### All components -/

/-- There can be a list with an entry for every row of a schedule. -/
theorem Graph.totalRows_lt_of_schedule {regime : Regime options} {size deepest : ℕ}
    {start : Graph} {final : Construction} (ready : Ready regime size deepest start) (no_rows : start.counters.rows = 0)
    (no_total : start.counters.totalRows = 0) (done : start.schedule options = .ok final) :
    final.graph.counters.totalRows < Size.unreachable := by
  rw [Graph.schedule] at done
  generalize start.nesting = nesting at done
  cases nesting with
  | zero => cases done
  | succ depth =>
    have detect : ∀ separated : Graph, separated.SameRows start → separated.OnlyConditionsLocal →
        separated.Parted → (options.fuse ≠ .minimal → separated.Separated) → (if 1 < separated.componentCount then
          separateComponents (construct options depth) options false { graph := separated, cache := ConeCache.empty }
        else constructConnected (construct options depth) options { graph := separated, cache := ConeCache.empty }) = .ok final →
        final.graph.counters.totalRows < Size.unreachable := by
      intro separated same locals parted apart done
      have separated_ready := ready.of_sameRows same locals
      have separated_rows : separated.counters.rows = 0 := (congrArg (·.rows) same.counters).trans no_rows
      have separated_total : separated.counters.totalRows = 0 := (congrArg (·.totalRows) same.counters).trans no_total
      have no_cones : ({ graph := separated, cache := ConeCache.empty } : Construction).cache.Sound := ConeCache.sound_empty
      split at done
      case isTrue several =>
        have unforced : false = false → options.fuse ≠ .minimal → separated.Separated := fun _ => apart
        obtain ⟨_, counters, counters_rows, counters_total, accounts⟩ :=
          (meets_separateComponents (construct_contained regime size deepest depth)
            separated_ready parted several unforced no_cones).result final done
        dsimp only at counters_rows counters_total
        rcases accounts with few | ⟨most, most_ge, state, finished, part_ready, part_cache, part_counters, delivered, rfl⟩
        · have reachable : 1 < Size.unreachable := by decide
          omega
        · refine most_ge.trans_lt ?_
          cases depth with
          | zero => cases delivered
          | succ depth =>
            refine totalRows_lt_of_connected part_ready ?_ ?_ part_cache delivered
            · rw [part_counters, counters_rows, separated_rows]
            · rw [part_counters]
              omega
      case isFalse =>
        exact totalRows_lt_of_connected separated_ready separated_rows (separated_total.trans_le (Nat.zero_le 1)) no_cones done
    rw [construct, constructStep] at done
    cases fuse : options.fuse with
    | minimal =>
      rw [fuse] at done
      exact detect _ sameRows_assign ready.locals (parted_detectStrong ready.tabled) (fun unlike => absurd fuse unlike) done
    | maximal =>
      rw [fuse] at done
      exact detect _ sameRows_assign ready.locals (parted_detectWeak ready.tabled) (fun _ => separated_detectWeak ready.tabled) done

end AffineSchedule
