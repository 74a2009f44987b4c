import AffineSchedule.Construction.Bands
import AffineSchedule.Proofs.Construction.NextRow

namespace AffineSchedule

open Checked List

variable {graph : Graph} {coincide : Bool} {state : Construction} {rows : List (List ℤ)} {steps : ℕ}
  {flag hasCoincidence : Bool} {search : RowSearch} {appended checked : Graph}

namespace Graph

/-- Every node has the basis of its rows, and a rank that leaves enough rows to come. -/
def Ranked (graph : Graph) : Prop :=
  ∀ node ∈ graph.nodes, node.Based ∧ node.space.dim + graph.counters.rows ≤ graph.rowsNeeded + node.rank

theorem ranked_of_core_eq {other : Graph} (same : graph.core = other.core) (ranked : graph.Ranked) :
    other.Ranked := by
  have counters_eq := counters_of_core_eq same
  have needed_eq : graph.rowsNeeded = other.rowsNeeded := congrArg (·.rowsNeeded) same
  unfold Ranked at ranked ⊢
  rw [counters_eq, needed_eq] at ranked
  refine forall_node_of_core_eq same (fun node twin core_eq node_ranked => ?_) ranked
  have space_eq : node.space = twin.space := congrArg (·.space) core_eq
  have rank_eq : node.rank = twin.rank := congrArg (·.rank) core_eq
  refine ⟨Node.based_of_core_eq core_eq node_ranked.1, ?_⟩
  rw [← space_eq, ← rank_eq]
  exact node_ranked.2

/-- Recomputing the bases and the rows needed makes a graph ranked, and leaves its rows and components alone. -/
theorem ranked_of_updateRowsNeeded {next : Graph} (done : graph.updateRowsNeeded = .ok next) :
    next.SameRows graph ∧ next.Ranked ∧ graph.SameParts next := by
  simp only [updateRowsNeeded, bind_ok, pure_ok, mapM_ok] at done
  obtain ⟨nodes, each, rfl⟩ := done
  have updated := each.imp fun _ _ => Node.sameRows_of_updateBasis
  refine ⟨⟨rfl, updated.imp fun _ _ related => related.1, rfl, rfl⟩, fun node node_mem => ?_,
    updated.imp fun _ _ related => related.2.1, rfl, rfl, rfl⟩
  obtain ⟨before, _, _, _, based⟩ := updated.exists_left node_mem
  have needed := le_foldl_max (fun node : Node => node.space.dim + graph.counters.rows - node.rank) node_mem
  exact ⟨based, Nat.sub_le_iff_le_add.mp needed⟩

/-- A row that raises the rank of every node that needs one leaves enough rows to come. -/
theorem Ranked.appendRow {next : Graph} (ranked : graph.Ranked) (well_formed : graph.WellFormed)
    (done : graph.appendRow rows flag = .ok next)
    (raises : ∀ (index : ℕ) (before after : Node) (row : List ℤ), graph.nodes[index]? = some before →
      rows[index]? = some row → graph.needsRow before = true →
      after.Pushes before row (some graph.counters.band) flag → after.Based → before.rank < after.rank) :
    next.Ranked := by
  obtain ⟨_, next_eq, _⟩ := appendRow_ok done
  have rows_eq : next.counters.rows = graph.counters.rows + 1 := congrArg (·.counters.rows) next_eq
  have needed_eq : next.rowsNeeded = graph.rowsNeeded := congrArg (·.rowsNeeded) next_eq
  intro after after_mem
  obtain ⟨index, after_at⟩ := getElem?_of_mem after_mem
  obtain ⟨before, row, before_at, row_at, pushes, after_based⟩ := getElem?_of_appendRow done after_at
  have before_mem := mem_of_getElem? before_at
  obtain ⟨before_based, enough⟩ := ranked before before_mem
  refine ⟨after_based, ?_⟩
  rw [pushes.space, rows_eq, needed_eq]
  by_cases needs_row : graph.needsRow before = true
  · have rank_lt := raises index before after row before_at row_at needs_row pushes after_based
    omega
  · have rank_le := pushes.prolongs.rank_le (well_formed.nodes before before_mem) before_based after_based
    rw [needsRow, decide_eq_true_eq, Nat.not_le] at needs_row
    omega

/-! ### Bookkeeping of local conditions -/

theorem core_clearLocal (graph : Graph) : graph.clearLocal.core = graph.core := by
  have edges_eq : graph.clearLocal.edges.map Edge.core = graph.edges.map Edge.core := by
    rw [clearLocal, map_map]
    refine map_congr_left fun edge _ => ?_
    rw [Function.comp_apply]
    split <;> rfl
  rw [core, core, edges_eq, clearLocal]

/-- An edge that is looked at for adjacent conditions either stays as it is, being no open condition that is adjacent, or
    becomes local, and is satisfied unless the band has to be redone. -/
inductive Localizes (graph : Graph) (violated : List Relation) (unsatisfied : Bool) :
    Edge → Edge → Prop
  | kept {edge : Edge} (far : edge.has .condition = true → edge.isLocal = false →
      edge.isAdjacentTo violated = .ok false) : Localizes graph violated unsatisfied edge edge
  | localized {edge : Edge} (is_condition : edge.has .condition = true)
      (satisfied : unsatisfied = false → graph.satisfiesCondition edge = .ok true) (is_open : edge.isLocal = false) :
      Localizes graph violated unsatisfied edge { edge with isLocal := true }

section Localizes

variable {violated : List Relation} {unsatisfied : Bool} {before after : Edge}

theorem Localizes.weaken {rest : Bool} (weaker : unsatisfied = false → rest = false)
    (localizes : Localizes graph violated rest before after) : Localizes graph violated unsatisfied before after := by
  cases localizes with
  | kept far => exact .kept far
  | localized is_condition satisfied is_open =>
    exact .localized is_condition (fun all_satisfied => satisfied (weaker all_satisfied)) is_open

theorem Localizes.core_eq (localizes : Localizes graph violated unsatisfied before after) : before.core = after.core := by
  cases localizes <;> rfl

theorem localizes_of_localizeAdjacent {edges localized : List Edge}
    (done : graph.localizeAdjacent violated edges = .ok (unsatisfied, localized)) :
    Forall₂ (Localizes graph violated unsatisfied) edges localized ∧ (unsatisfied = true → localized ≠ edges) := by
  induction edges generalizing localized unsatisfied with
  | nil =>
    cases done
    exact ⟨.nil, fun impossible => by cases impossible⟩
  | cons edge later ih =>
    have passed : (edge.has .condition = true → edge.isLocal = false → edge.isAdjacentTo violated = .ok false) →
        (do let rest ← graph.localizeAdjacent violated later
            return (rest.1, edge :: rest.2)) = .ok (unsatisfied, localized) →
        Forall₂ (Localizes graph violated unsatisfied) (edge :: later) localized
          ∧ (unsatisfied = true → localized ≠ edge :: later) := by
      intro far rest_ok
      obtain ⟨rest, later_ok, finished⟩ := bind_ok.mp rest_ok
      cases pure_ok.mp finished
      obtain ⟨each, changed⟩ := ih later_ok
      exact ⟨.cons (.kept far) each, fun some_unsatisfied same => changed some_unsatisfied (List.cons.inj same).2⟩
    rw [localizeAdjacent] at done
    split at done
    case isFalse closed =>
      refine passed (fun is_condition is_open => absurd ?_ closed) done
      rw [is_condition, is_open]
      rfl
    case isTrue is_open =>
      obtain ⟨is_condition, is_open⟩ := (Bool.and_eq_true _ _).mp is_open
      rw [Bool.not_eq_true'] at is_open
      obtain ⟨adjacent, adjacent_ok, done⟩ := bind_ok.mp done
      cases adjacent with
      | false => exact passed (fun _ _ => adjacent_ok) done
      | true =>
        obtain ⟨satisfied, satisfied_ok, done⟩ := bind_ok.mp done
        obtain ⟨⟨rest_unsatisfied, rest⟩, rest_ok, finished⟩ := bind_ok.mp done
        cases pure_ok.mp finished
        refine ⟨.cons (.localized is_condition (fun all_satisfied => ?_) is_open) ((ih rest_ok).1.imp fun _ _ =>
          Localizes.weaken fun all_satisfied => (Bool.or_eq_false_iff.mp all_satisfied).2), fun _ same => ?_⟩
        · have is_satisfied : satisfied = true := by simpa using (Bool.or_eq_false_iff.mp all_satisfied).1
          rw [satisfied_ok, is_satisfied]
        · have local_eq : true = edge.isLocal := congrArg (·.isLocal) (List.cons.inj same).1
          rw [is_open] at local_eq
          cases local_eq

end Localizes

theorem isAdjacentTo_nil (edge : Edge) : edge.isAdjacentTo [] = .ok false := by
  rw [Edge.isAdjacentTo]
  induction edge.taggedCondition with
  | nil => rfl
  | cons first later ih =>
    rw [anyM_cons]
    exact ih

/-- What the check does to the edges. -/
theorem localizes_of_checkConditional {unsatisfied : Bool} (done : graph.checkConditional = .ok (unsatisfied, checked)) :
    checked = { graph with edges := checked.edges } ∧ (unsatisfied = true → checked.edges ≠ graph.edges)
      ∧ ∃ violated, graph.violatedRelations graph.edges = .ok violated
          ∧ Forall₂ (Localizes graph violated unsatisfied) graph.edges checked.edges := by
  obtain ⟨violated, violated_ok, done⟩ := bind_ok.mp done
  split at done
  case isTrue none_violated =>
    obtain rfl := List.isEmpty_iff.mp none_violated
    cases pure_ok.mp done
    exact ⟨rfl, (by cases ·), [], violated_ok, forall₂_same.mpr fun edge _ => .kept fun _ _ => isAdjacentTo_nil edge⟩
  case isFalse =>
    obtain ⟨⟨_, edges⟩, localized, finished⟩ := bind_ok.mp done
    cases pure_ok.mp finished
    obtain ⟨localizes, changed⟩ := localizes_of_localizeAdjacent localized
    exact ⟨rfl, changed, violated, violated_ok, localizes⟩

theorem core_of_checkConditional {violated : Bool} (done : graph.checkConditional = .ok (violated, checked)) :
    checked.core = graph.core := by
  obtain ⟨checked_eq, _, _, _, localizes⟩ := localizes_of_checkConditional done
  have edges_eq := localizes.map_eq fun _ _ => Localizes.core_eq
  rw [checked_eq, core, core, ← edges_eq]

/-! ### The band in progress -/

/-- The rows of a band in progress: so many were added to the start, they respect its dependences, and the
    ranks have kept pace. -/
structure Filling (start graph : Graph) : Prop where
  stage : Stage start.Links start graph
  parts : start.SameParts graph
  start_partitioned : start.Partitioned
  ranked : graph.Ranked
  needed : graph.rowsNeeded = start.rowsNeeded
  counters : ∃ added, graph.counters = { start.counters with
    rows := start.counters.rows + added, totalRows := start.counters.totalRows + added }

theorem AtBandStart.filling {start : Graph} (at_start : start.AtBandStart) (partitioned : start.Partitioned)
    (ranked : start.Ranked) : Filling start start :=
  ⟨at_start.stage, SameParts.refl start, partitioned, ranked, rfl, 0, rfl⟩

section Filling

variable {start next : Graph} (filling : Filling start graph)
include filling

theorem Filling.partitioned : graph.Partitioned := filling.start_partitioned.of_parts filling.parts

theorem Filling.of_core_eq (same : next.core = graph.core) : Filling start next :=
  ⟨filling.stage.of_sameRows (sameRows_of_core_eq same), filling.parts.trans (sameParts_of_core_eq same),
    filling.start_partitioned, ranked_of_core_eq same.symm filling.ranked, (congrArg (·.rowsNeeded) same).trans filling.needed,
    (counters_of_core_eq same).symm ▸ filling.counters⟩

section

variable (found : graph.FoundRows coincide rows) (done : graph.appendRow rows flag = .ok next)
include found done

theorem Filling.ranked_appendRow :
    next.Ranked := by
  refine filling.ranked.appendRow filling.stage.well_formed done ?_
  intro index before after row before_at row_at needs_row pushes after_based
  have before_mem := mem_of_getElem? before_at
  obtain ⟨coordinate, k, read, beyond, inside, nonzero⟩ :=
    found.independent index before row before_at row_at needs_row
  exact pushes.rank_lt_of_coordinate (filling.stage.well_formed.nodes before before_mem) (filling.ranked before before_mem).1
    after_based read beyond inside nonzero

/-- A found row continues the band. -/
theorem Filling.appendRow (flagged : flag = true → coincide = true ∨ start.hasCoincidence = false) : Filling start next := by
  obtain ⟨_, next_eq, _⟩ := appendRow_ok done
  have linked {kind : Kind} {i j : ℕ} {params x y : ℕ → ℤ} (link : start.Links kind i j params x y) :
      graph.Links kind i j params x y := links_of_edges_eq filling.stage.edges.symm link
  refine ⟨?_, filling.parts.trans (sameParts_of_appendRow done), filling.start_partitioned,
    filling.ranked_appendRow found done, (congrArg (·.rowsNeeded) next_eq).trans filling.needed, ?_⟩
  · refine filling.stage.appendRow done (fun i j params x y link => found.validity i j params x y (linked link)) ?_
    intro is_flagged i j params x y link
    rcases flagged is_flagged with used | absent
    · exact found.coincidence used i j params x y (linked link)
    · obtain ⟨edge, edge_mem, _, _, has_kind, _⟩ := link
      have present : start.hasCoincidence = true := any_eq_true.mpr ⟨edge, edge_mem, has_kind⟩
      exact absurd present (by rw [absent]; exact Bool.false_ne_true)
  · obtain ⟨added, graph_counters⟩ := filling.counters
    exact ⟨added + 1, by rw [next_eq, graph_counters]; rfl⟩

end

/-- Dropping the band leaves the rows of its start. -/
theorem Filling.sameRows_resetBand (at_start : start.AtBandStart) (done : graph.resetBand = .ok next) :
    next.SameRows start ∧ next.rowsNeeded = graph.rowsNeeded ∧ start.SameParts next ∧ ∀ node ∈ next.nodes, node.Based := by
  obtain ⟨added, counters_eq⟩ := filling.counters
  have start_eq : graph.counters.bandStart = start.counters.totalRows := by
    rw [counters_eq]
    exact at_start.band_start
  obtain ⟨next_eq, each⟩ := resetBand_ok done
  have updated := each.imp fun _ _ => Node.sameRows_of_updateBasis
  have parts := filling.parts.trans (sameParts_of_resetBand done)
  refine ⟨⟨(congrArg (·.params) next_eq).trans filling.stage.grows.params, ?_, parts.edges, ?_⟩,
    congrArg (·.rowsNeeded) next_eq, parts, fun node node_mem => ?_⟩
  · refine filling.stage.grows.nodes.trans_of_mem updated fun first first_mem _ _ _ _ prolonged ⟨same, _⟩ => ?_
    rw [start_eq] at same
    exact same.trans (prolonged.takeRows_sameRows (at_start.has_rows first first_mem))
  · rw [next_eq, start_eq, counters_eq]
    simp only [Nat.add_sub_cancel_left, Nat.add_sub_cancel]
  · obtain ⟨_, _, _, _, based⟩ := updated.exists_left node_mem
    exact based

/-- Dropping the band starts it again. -/
theorem Filling.reset (at_start : start.AtBandStart) (start_ranked : start.Ranked)
    (done : graph.resetBand = .ok next) : Filling start next := by
  obtain ⟨same, needed_eq, parts, based⟩ := filling.sameRows_resetBand at_start done
  refine ⟨at_start.stage.of_sameRows same, parts, filling.start_partitioned, fun node node_mem => ?_,
    needed_eq.trans filling.needed, 0, same.counters⟩
  obtain ⟨index, node_at⟩ := getElem?_of_mem node_mem
  obtain ⟨first, first_at, node_same⟩ := same.nodes.getElem?_left node_at
  have first_mem := mem_of_getElem? first_at
  obtain ⟨first_based, enough⟩ := start_ranked first first_mem
  have laid_out := at_start.well_formed.nodes first first_mem
  -- The rank is that of the rows, so the same rows have the same rank.
  have rank_le := node_same.prolongs.rank_le laid_out first_based (based node node_mem)
  refine ⟨based node node_mem, ?_⟩
  rw [node_same.space, same.counters, needed_eq, filling.needed]
  exact enough.trans (Nat.add_le_add_left rank_le _)

/-- A graph with all the rows it needs has nodes of full rank. -/
theorem Filling.spans (complete : graph.rowsNeeded ≤ graph.counters.rows) : ∀ node ∈ graph.nodes, node.Spans := by
  intro node node_mem
  obtain ⟨based, enough⟩ := filling.ranked node node_mem
  exact based.spans_of_le (filling.stage.well_formed.nodes node node_mem) (by omega)

end Filling

end Graph

/-! ### The loop -/

/-- The graph needs another row, and the search for it ends in this way. -/
structure Searched (options : Options) (coincide : Bool) (state : Construction) (search : RowSearch) : Prop where
  incomplete : state.graph.counters.rows < state.graph.rowsNeeded
  done : { state.graph with conflict := none }.nextRow state.cache options coincide = .ok search

/-- A row was found and appended. -/
structure Extends (options : Options) (hasCoincidence coincide : Bool) (state : Construction)
    (search : RowSearch) (rows : List (List ℤ)) (appended : Graph) : Prop where
  searched : Searched options coincide state search
  found : search.rows = some rows
  done : search.graph.appendRow rows (!hasCoincidence || coincide) = .ok appended

/-- One step of filling a band, from the coincidence asked for and the state: coincidence is given up, the band gets
    a row, or it is dropped. -/
inductive BandStep (options : Options) (hasCoincidence checksConditional : Bool) :
    Bool × Construction → Bool × Construction → Prop
  | relaxed {state : Construction} {search : RowSearch} (searched : Searched options true state search)
      (none_found : search.rows = none)
      (started : options.outerCoincidence = true → search.graph.counters.totalRows ≠ search.graph.counters.bandStart) :
      BandStep options hasCoincidence checksConditional (true, state) (false, ⟨search.graph, search.cache⟩)
  | extended {coincide : Bool} {state : Construction} {search : RowSearch} {rows : List (List ℤ)}
      {appended : Graph} (extends_band : Extends options hasCoincidence coincide state search rows appended)
      (unchecked : checksConditional = false) :
      BandStep options hasCoincidence checksConditional (coincide, state) (coincide, ⟨appended, search.cache⟩)
  | checked {coincide : Bool} {state : Construction} {search : RowSearch} {rows : List (List ℤ)}
      {appended graph : Graph} (extends_band : Extends options hasCoincidence coincide state search rows appended)
      (check_ok : appended.checkConditional = .ok (false, graph)) :
      BandStep options hasCoincidence checksConditional (coincide, state) (coincide, ⟨graph, search.cache⟩)
  | restarted {coincide : Bool} {state : Construction} {search : RowSearch} {rows : List (List ℤ)}
      {appended graph reset : Graph}
      (extends_band : Extends options hasCoincidence coincide state search rows appended)
      (check_ok : appended.checkConditional = .ok (true, graph)) (reset_ok : graph.resetBand = .ok reset) :
      BandStep options hasCoincidence checksConditional (coincide, state) (hasCoincidence, ⟨reset, search.cache⟩)

/-- What a band is left with at its end. -/
inductive BandEnds (options : Options) : Bool → Construction → BandEnd × Construction → Prop
  | complete {coincide : Bool} {state : Construction} (enough : state.graph.rowsNeeded ≤ state.graph.counters.rows) :
      BandEnds options coincide state (.complete, state)
  | stuck {coincide : Bool} {state : Construction} {search : RowSearch}
      (searched : Searched options coincide state search) (none_found : search.rows = none)
      (insists : coincide = true → options.outerCoincidence = true) :
      BandEnds options coincide state (.stuck, ⟨search.graph, search.cache⟩)

/-- A run of steps. -/
abbrev BandRuns (options : Options) (hasCoincidence checksConditional : Bool) :
    Bool × Construction → Bool × Construction → Prop :=
  Relation.ReflTransGen (BandStep options hasCoincidence checksConditional)

/-- A run of a given number of steps. -/
inductive BandTakes (options : Options) (hasCoincidence checksConditional : Bool) :
    ℕ → Bool × Construction → Bool × Construction → Prop
  | none {before : Bool × Construction} : BandTakes options hasCoincidence checksConditional 0 before before
  | more {steps : ℕ} {before next after : Bool × Construction}
      (first : BandStep options hasCoincidence checksConditional before next)
      (later : BandTakes options hasCoincidence checksConditional steps next after) :
      BandTakes options hasCoincidence checksConditional (steps + 1) before after

section

variable {options : Options} {checksConditional : Bool}

open Checked in
/-- Filling a band is a run of steps to one of its ends. It stops with a fault only if a part of a step does, or if the
    run is longer than allowed. -/
theorem meets_fillBand {allowed : Fault → Prop} (steps : ℕ)
    (unfinished : ∀ last, BandTakes options hasCoincidence checksConditional steps (coincide, state) last →
      allowed (.unfinished .rows))
    (search_faults : ∀ use last, BandRuns options hasCoincidence checksConditional (coincide, state) (use, last) →
      last.graph.counters.rows < last.graph.rowsNeeded →
      FaultsIn allowed ({ last.graph with conflict := none }.nextRow last.cache options use))
    (append_faults : ∀ use last search rows,
      BandRuns options hasCoincidence checksConditional (coincide, state) (use, last) →
      Searched options use last search → search.rows = some rows →
      FaultsIn allowed (search.graph.appendRow rows (!hasCoincidence || use)))
    (check_faults : ∀ graph : Graph, FaultsIn allowed graph.checkConditional)
    (reset_faults : ∀ graph : Graph, FaultsIn allowed graph.resetBand) :
    Meets allowed (fillBand options hasCoincidence checksConditional steps coincide state) fun result =>
      ∃ use last, BandRuns options hasCoincidence checksConditional (coincide, state) (use, last)
        ∧ BandEnds options use last result := by
  induction steps generalizing coincide state with
  | zero => exact ⟨faultsIn_error_iff.mpr (unfinished _ .none), fun _ impossible => by cases impossible⟩
  | succ steps ih =>
    -- What is known of all states ahead is known behind a step.
    have onward : ∀ use next, BandStep options hasCoincidence checksConditional (coincide, state) (use, next) →
        Meets allowed (fillBand options hasCoincidence checksConditional steps use next) fun result =>
          ∃ use last, BandRuns options hasCoincidence checksConditional (coincide, state) (use, last)
            ∧ BandEnds options use last result := by
      intro use next step
      have later := ih (fun last takes => unfinished last (.more step takes))
        (fun use last runs => search_faults use last (runs.head step))
        fun use last search rows runs => append_faults use last search rows (runs.head step)
      refine ⟨later.faults, fun result delivered => ?_⟩
      obtain ⟨use, last, runs, ends⟩ := later.result result delivered
      exact ⟨use, last, runs.head step, ends⟩
    rw [fillBand]
    by_cases enough : state.graph.rowsNeeded ≤ state.graph.counters.rows
    · rw [if_pos enough]
      exact meets_pure ⟨coincide, state, Relation.ReflTransGen.refl, .complete enough⟩
    rw [if_neg enough]
    have incomplete := Nat.lt_of_not_le enough
    refine (search_faults coincide state Relation.ReflTransGen.refl incomplete).bind fun search search_ok => ?_
    have searched : Searched options coincide state search := ⟨incomplete, search_ok⟩
    cases found : search.rows with
    | none =>
      dsimp only
      split
      case isTrue relaxes =>
        obtain ⟨rfl, permitted⟩ := (Bool.and_eq_true _ _).mp relaxes
        refine onward false _ (.relaxed searched found fun outer empty => ?_)
        simp [outer, empty] at permitted
      case isFalse stays =>
        refine meets_pure ⟨coincide, state, Relation.ReflTransGen.refl, .stuck searched found ?_⟩
        rintro rfl
        cases outer : options.outerCoincidence with
        | true => rfl
        | false => exact absurd (by simp [outer]) stays
    | some rows =>
      refine (append_faults coincide state search rows Relation.ReflTransGen.refl searched found).bind
        fun appended append_ok => ?_
      have extends_band : Extends options hasCoincidence coincide state search rows appended :=
        ⟨searched, found, append_ok⟩
      cases checks : checksConditional with
      | false =>
        subst checks
        exact onward coincide _ (.extended extends_band rfl)
      | true =>
        subst checks
        refine (check_faults appended).bind fun outcome check_ok => ?_
        obtain ⟨violated, graph⟩ := outcome
        cases violated with
        | false => exact onward coincide _ (.checked extends_band check_ok)
        | true =>
          exact (reset_faults graph).bind fun reset reset_ok =>
            onward hasCoincidence _ (.restarted extends_band check_ok reset_ok)

theorem runs_of_fillBand {result : BandEnd × Construction}
    (done : fillBand options hasCoincidence checksConditional steps coincide state = .ok result) :
    ∃ use last, BandRuns options hasCoincidence checksConditional (coincide, state) (use, last)
      ∧ BandEnds options use last result := by
  have anyhow : ∀ {α : Type} (computed : Checked α), Checked.FaultsIn (fun _ => True) computed := fun _ _ _ => trivial
  exact (meets_fillBand steps (fun _ _ => trivial) (fun _ _ _ _ => anyhow _) (fun _ _ _ _ _ _ _ => anyhow _) (fun _ => anyhow _)
    fun _ => anyhow _).result result done

end

section Runs

open AffineSchedule.Graph

variable {options : Options} {start : Graph} {checksConditional : Bool}
  {before after : Bool × Construction}

section

variable (searched : Searched options coincide state search)
include searched

theorem Searched.redrawn :
    search.graph.Redrawn { state.graph with conflict := none } := redrawn_of_nextRow searched.done

theorem Searched.sameRows : search.graph.SameRows state.graph := by
  have core_eq : search.graph.core = state.graph.core := searched.redrawn.core_eq
  exact sameRows_of_core_eq core_eq

/-- A search keeps the graph up to bookkeeping, and finds rows that suit it. -/
theorem Searched.sound (filling : Filling start state.graph)
    (cache_sound : state.cache.Sound) : search.graph.core = state.graph.core ∧ search.cache.Sound
      ∧ ∀ rows, search.rows = some rows → search.graph.FoundRows coincide rows := by
  have fresh : Filling start { state.graph with conflict := none } := filling.of_core_eq rfl
  obtain ⟨same, search_sound, found⟩ := sound_of_nextRow fresh.stage.well_formed
    (fun node node_mem => (fresh.ranked node node_mem).1) fresh.partitioned cache_sound searched.done
  exact ⟨same, search_sound, found⟩

theorem Searched.filling (filling : Filling start state.graph)
    (cache_sound : state.cache.Sound) : Filling start search.graph ∧ search.cache.Sound := by
  obtain ⟨same, search_sound, _⟩ := searched.sound filling cache_sound
  exact ⟨filling.of_core_eq same, search_sound⟩

end

section

variable (extends_band : Extends options start.hasCoincidence coincide state search rows appended)
  (kept : Filling start state.graph) (cache_sound : state.cache.Sound)
include extends_band kept cache_sound

/-- A found row keeps the invariant of the band. -/
theorem Extends.filling : Filling start appended ∧ search.cache.Sound := by
  obtain ⟨same, search_sound, found⟩ := extends_band.searched.sound kept cache_sound
  have search_filling := kept.of_core_eq same
  refine ⟨search_filling.appendRow (found rows extends_band.found) extends_band.done fun flagged => ?_, search_sound⟩
  rcases (Bool.or_eq_true _ _).mp flagged with absent | used
  · exact Or.inr ((Bool.not_eq_true' _).mp absent)
  · exact Or.inl used

/-- A band that is dropped leaves the rows of its start. -/
theorem Extends.sameRows_reset {graph reset : Graph} (at_start : start.AtBandStart)
    (check_ok : appended.checkConditional = .ok (true, graph)) (reset_ok : graph.resetBand = .ok reset) :
    reset.SameRows start := by
  have checked_filling := (extends_band.filling kept cache_sound).1.of_core_eq (core_of_checkConditional check_ok)
  exact (checked_filling.sameRows_resetBand at_start reset_ok).1

end

/-- A step keeps the invariant of the band in progress. -/
theorem BandStep.filling
    (step : BandStep options start.hasCoincidence checksConditional before after) (at_start : start.AtBandStart)
    (start_ranked : start.Ranked) (filling : Filling start before.2.graph) (cache_sound : before.2.cache.Sound) :
    Filling start after.2.graph ∧ after.2.cache.Sound := by
  cases step with
  | relaxed searched => exact searched.filling filling cache_sound
  | extended extends_band => exact extends_band.filling filling cache_sound
  | checked extends_band check_ok =>
    obtain ⟨appended_filling, search_sound⟩ := extends_band.filling filling cache_sound
    exact ⟨appended_filling.of_core_eq (core_of_checkConditional check_ok), search_sound⟩
  | restarted extends_band check_ok reset_ok =>
    obtain ⟨appended_filling, search_sound⟩ := extends_band.filling filling cache_sound
    have checked_filling := appended_filling.of_core_eq (core_of_checkConditional check_ok)
    exact ⟨checked_filling.reset at_start start_ranked reset_ok, search_sound⟩

section

variable (runs : BandRuns options start.hasCoincidence checksConditional before after) (at_start : start.AtBandStart)
  (start_ranked : start.Ranked) (filling : Filling start before.2.graph) (cache_sound : before.2.cache.Sound)
include runs at_start start_ranked filling cache_sound

/-- A run keeps the invariant of the band in progress. -/
theorem filling_of_runs :
    Filling start after.2.graph ∧ after.2.cache.Sound := by
  induction runs with
  | refl => exact ⟨filling, cache_sound⟩
  | tail _ step ih => exact step.filling at_start start_ranked ih.1 ih.2

theorem invariant_of_runs {property : Bool × Construction → Prop}
    (holds : property before) (kept : ∀ first next, BandStep options start.hasCoincidence checksConditional first next →
      Filling start first.2.graph → first.2.cache.Sound → property first → property next) : property after := by
  induction runs with
  | refl => exact holds
  | tail earlier step ih =>
    obtain ⟨middle_filling, middle_sound⟩ := filling_of_runs earlier at_start start_ranked filling cache_sound
    exact kept _ _ step middle_filling middle_sound ih

end

/-- Filling a band keeps the invariant of the band in progress; it ends with all rows, or with a band that no
    row continues. -/
theorem filling_of_fillBand {final : Construction} {bandEnd : BandEnd} (at_start : start.AtBandStart)
    (start_ranked : start.Ranked) (filling : Filling start state.graph) (cache_sound : state.cache.Sound)
    (done : fillBand options start.hasCoincidence checksConditional steps coincide state = .ok (bandEnd, final)) :
    Filling start final.graph ∧ final.cache.Sound
      ∧ (bandEnd = .complete → final.graph.rowsNeeded ≤ final.graph.counters.rows) := by
  obtain ⟨use, last, runs, ends⟩ := runs_of_fillBand done
  obtain ⟨last_filling, last_sound⟩ := filling_of_runs runs at_start start_ranked filling cache_sound
  cases ends with
  | complete enough => exact ⟨last_filling, last_sound, fun _ => enough⟩
  | stuck searched none_found _ =>
    obtain ⟨search_filling, search_sound⟩ := searched.filling last_filling last_sound
    refine ⟨search_filling, search_sound, fun is_complete => ?_⟩
    cases is_complete

end Runs

end AffineSchedule
