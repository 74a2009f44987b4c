import AffineSchedule.Proofs.Dependence.Graph

namespace AffineSchedule

open Checked List Node AffineForm

variable {row band : ℕ} {after : Node}

/-- A row lies before the band of a later one: some row from it on has another band. -/
def BeforeBand (bands : List (Option ℕ)) (earlier row : ℕ) : Prop :=
  ∃ between, earlier ≤ between ∧ between < row ∧ bands[between]? ≠ bands[row]?

theorem BeforeBand.lt {bands : List (Option ℕ)} {earlier : ℕ} (before : BeforeBand bands earlier row) : earlier < row := by
  obtain ⟨between, earlier_le, between_lt, _⟩ := before
  exact earlier_le.trans_lt between_lt

namespace Node

variable {count first : ℕ} {params x y : ℕ → ℤ} {a b before earlier later a_old b_old : Node} {kind : Kind}

/-- The rows that lie before the band of a row for both nodes give both instances the same times. -/
def AgreeBefore (a b : Node) (row : ℕ) (params x y : ℕ → ℤ) : Prop :=
  ∀ earlier, BeforeBand a.bands earlier row → BeforeBand b.bands earlier row →
    a.timeAt earlier params x = b.timeAt earlier params y

/-- What a dependence of a kind asks of a row. -/
def Respects (kind : Kind) (a b : Node) (row : ℕ) (params x y : ℕ → ℤ) : Prop :=
  match kind with
  | .validity => a.timeAt row params x ≤ b.timeAt row params y
  | .coincidence => a.coincident[row]? = some true → b.coincident[row]? = some true →
      a.timeAt row params x = b.timeAt row params y
  | _ => True

/-- Equal times are what every dependence asks for. -/
theorem respects_of_timeAt_eq (agree : a.timeAt row params x = b.timeAt row params y) :
    Respects kind a b row params x y := by
  cases kind with
  | validity => exact agree.le
  | coincidence => exact fun _ _ => agree
  | condition => trivial
  | conditionalValidity => trivial
  | proximity => trivial

/-- A row without the coincidence flag only has to respect validity. -/
theorem respects_of_not_coincident (unflagged : a.coincident[row]? = some false)
    (ordered : kind = .validity → a.timeAt row params x ≤ b.timeAt row params y) :
    Respects kind a b row params x y := by
  cases kind with
  | validity => exact ordered rfl
  | coincidence =>
    intro flagged
    rw [unflagged] at flagged
    cases flagged
  | condition => trivial
  | conditionalValidity => trivial
  | proximity => trivial

/-- The front rows of a prolonged node are those of the node. -/
theorem Prolongs.takeRows_sameRows (prolonged : later.Prolongs earlier) (has_rows : earlier.HasRows count) :
    (later.takeRows count).SameRows earlier := by
  have rows_eq : later.schedule.rows.take count = earlier.schedule.rows :=
    has_rows.height ▸ (prefix_iff_eq_take.mp prolonged.rows).symm
  have bands_eq : later.bands.take count = earlier.bands :=
    has_rows.bands ▸ (prefix_iff_eq_take.mp prolonged.bands).symm
  have flags_eq : later.coincident.take count = earlier.coincident :=
    has_rows.coincident ▸ (prefix_iff_eq_take.mp prolonged.coincident).symm
  refine ⟨prolonged.space, ?_, bands_eq, flags_eq⟩
  change later.schedule.takeRows count = RowMatrix.mk earlier.schedule.cols earlier.schedule.rows earlier.schedule.uniform
  rw [RowMatrix.takeRows, RowMatrix.mk.injEq]
  exact ⟨prolonged.cols, rows_eq⟩

/-- A prolonged node with no more rows has the same rows. -/
theorem Prolongs.sameRows (prolonged : later.Prolongs earlier) (has_rows : earlier.HasRows count)
    (later_rows : later.HasRows count) : later.SameRows earlier := by
  have front := prolonged.takeRows_sameRows has_rows
  have bands_eq : later.bands.take count = later.bands := take_of_length_le later_rows.bands.le
  have flags_eq : later.coincident.take count = later.coincident := take_of_length_le later_rows.coincident.le
  have schedule_eq : later.schedule.takeRows count = later.schedule := by
    change _ = RowMatrix.mk later.schedule.cols later.schedule.rows later.schedule.uniform
    rw [RowMatrix.takeRows, RowMatrix.mk.injEq]
    exact ⟨rfl, take_of_length_le later_rows.height.le⟩
  exact ⟨prolonged.space, schedule_eq ▸ front.schedule, bands_eq ▸ front.bands, flags_eq ▸ front.coincident⟩

theorem SameRows.hasRows (same : after.SameRows before) (has_rows : before.HasRows count) : after.HasRows count :=
  ⟨same.schedule ▸ has_rows.height, same.bands ▸ has_rows.bands, same.coincident ▸ has_rows.coincident⟩

theorem SameRows.timeAt_eq (same : after.SameRows before) (row : ℕ) (params x : ℕ → ℤ) :
    after.timeAt row params x = before.timeAt row params x := by
  rw [timeAt, timeAt, same.space, same.schedule]

theorem SameRows.respects_iff (a_same : a.SameRows a_old) (b_same : b.SameRows b_old) :
    Respects kind a b row params x y ↔ Respects kind a_old b_old row params x y := by
  cases kind <;> simp only [Respects, a_same.timeAt_eq, b_same.timeAt_eq, a_same.coincident, b_same.coincident]

/-- What lies before a band does so whatever rows follow. -/
theorem Prolongs.beforeBand (prolonged : later.Prolongs earlier) (has_rows : earlier.HasRows count) (inside : row < count)
    (before : BeforeBand earlier.bands first row) : BeforeBand later.bands first row := by
  obtain ⟨between, first_le, between_lt, different⟩ := before
  refine ⟨between, first_le, between_lt, ?_⟩
  rw [prolonged.bands_eq has_rows (between_lt.trans inside), prolonged.bands_eq has_rows inside]
  exact different

/-- Rows in closed bands lie before every row of a later band. -/
theorem Prolongs.beforeBand_of_closed (prolonged : later.Prolongs earlier) (has_rows : earlier.HasRows count)
    (first_lt : first < count) (row_ge : count ≤ row) (closed : ∀ entry ∈ earlier.bands, ∃ label < band, entry = some label)
    (labels : ∀ label, later.bands[row]? = some (some label) → band ≤ label) : BeforeBand later.bands first row := by
  refine ⟨first, le_rfl, first_lt.trans_le row_ge, fun same_band => ?_⟩
  have first_inside : first < earlier.bands.length := has_rows.bands.symm ▸ first_lt
  obtain ⟨label, label_lt, entry_eq⟩ := closed _ (getElem_mem first_inside)
  rw [prolonged.bands_eq has_rows first_lt, getElem?_eq_getElem first_inside, entry_eq] at same_band
  exact absurd label_lt (Nat.not_lt.mpr (labels label same_band.symm))

section Rows

variable {other_later other_earlier : Node} (prolonged : later.Prolongs earlier)
  (other_prolonged : other_later.Prolongs other_earlier) (has_rows : earlier.HasRows count)
  (other_rows : other_earlier.HasRows count) (inside : row < count)
include prolonged other_prolonged has_rows other_rows inside

/-- Agreement before a row does not depend on the rows behind it. -/
theorem AgreeBefore.of_prolongs (agree : later.AgreeBefore other_later row params x y) :
    earlier.AgreeBefore other_earlier row params x y := by
  intro first before other_before
  have first_lt : first < count := before.lt.trans inside
  have times_eq := agree first (prolonged.beforeBand has_rows inside before)
    (other_prolonged.beforeBand other_rows inside other_before)
  rwa [prolonged.timeAt_eq has_rows first_lt, other_prolonged.timeAt_eq other_rows first_lt] at times_eq

/-- What a row respects does not depend on the rows behind it. -/
theorem Respects.of_prolongs (respected : Respects kind earlier other_earlier row params x y) :
    Respects kind later other_later row params x y := by
  have time_eq := prolonged.timeAt_eq has_rows inside params x
  have other_time_eq := other_prolonged.timeAt_eq other_rows inside params y
  cases kind with
  | validity =>
    rw [Respects, time_eq, other_time_eq]
    exact respected
  | coincidence =>
    rw [Respects, time_eq, other_time_eq, prolonged.coincident_eq has_rows inside,
      other_prolonged.coincident_eq other_rows inside]
    exact respected
  | condition => trivial
  | conditionalValidity => trivial
  | proximity => trivial

end Rows

/-- Rows behind the last one respect everything. -/
theorem respects_beyond (a_rows : a.HasRows count) (b_rows : b.HasRows count) (beyond : count ≤ row)
    (params x y : ℕ → ℤ) : Respects kind a b row params x y := by
  apply respects_of_timeAt_eq
  rw [a_rows.timeAt_eq_zero beyond, b_rows.timeAt_eq_zero beyond]

end Node

/-- Which pairs of instances at two positions a kind of dependence joins. -/
abbrev LinkRelation : Type := Kind → ℕ → ℕ → (ℕ → ℤ) → (ℕ → ℤ) → (ℕ → ℤ) → Prop

namespace Graph

variable {graph narrowed : Graph} {flag : Bool} {rows : List (List ℤ)} {value : Node → ℤ} {next : Graph}

/-- The final graph has further rows behind those of the start, in bands from the current one on, and the
    new rows respect the linked pairs. -/
structure Grows (linked : LinkRelation) (start final : Graph) : Prop where
  params : final.params = start.params
  nodes : Forall₂ (fun before after : Node => after.Prolongs before) start.nodes final.nodes
  has_rows : ∀ node ∈ final.nodes, node.HasRows final.counters.totalRows
  rows_le : start.counters.totalRows ≤ final.counters.totalRows
  labels : ∀ node ∈ final.nodes, ∀ row label, start.counters.totalRows ≤ row →
    node.bands[row]? = some (some label) → start.counters.band ≤ label
  respects : ∀ kind i j params x y, linked kind i j params x y → ∀ a b, final.nodes[i]? = some a →
    final.nodes[j]? = some b → ∀ row, start.counters.totalRows ≤ row → a.AgreeBefore b row params x y →
    Node.Respects kind a b row params x y

/-- Every node has all rows counted, and the rows belong to bands before the current one. -/
structure AtBandStart (graph : Graph) : Prop where
  well_formed : graph.WellFormed
  has_rows : ∀ node ∈ graph.nodes, node.HasRows graph.counters.totalRows
  band_start : graph.counters.bandStart = graph.counters.totalRows
  closed : ∀ node ∈ graph.nodes, ∀ entry ∈ node.bands, ∃ label < graph.counters.band, entry = some label

section Stages

variable {linked : LinkRelation} {start final : Graph}

theorem SameRows.atBandStart (same : final.SameRows start) (at_start : start.AtBandStart) : final.AtBandStart := by
  refine ⟨same.wellFormed at_start.well_formed, ?_, ?_, ?_⟩
  · rw [same.counters]
    exact same.nodes.forall_mem (fun _ _ _ node_same has_rows => node_same.hasRows has_rows) at_start.has_rows
  · rw [same.counters]
    exact at_start.band_start
  · rw [same.counters]
    exact same.nodes.forall_mem (fun _ _ _ node_same closed => node_same.bands ▸ closed) at_start.closed

/-- A graph with the same rows has grown by none. -/
theorem SameRows.grows (same : final.SameRows start)
    (has_rows : ∀ node ∈ start.nodes, node.HasRows start.counters.totalRows) : Grows linked start final := by
  have final_rows : ∀ node ∈ final.nodes, node.HasRows start.counters.totalRows :=
    same.nodes.forall_mem (fun _ _ _ node_same has_rows => node_same.hasRows has_rows) has_rows
  refine ⟨same.params, same.nodes.imp fun _ _ node_same => node_same.prolongs, same.counters ▸ final_rows,
    (same.counters ▸ le_rfl), ?_, ?_⟩
  · intro node node_mem row label beyond label_at
    have inside := (List.getElem?_eq_some_iff.mp label_at).1
    rw [(final_rows node node_mem).bands] at inside
    exact absurd inside (Nat.not_lt.mpr beyond)
  · intro kind i j params x y _ a b a_at b_at row beyond _
    exact respects_beyond (final_rows a (mem_of_getElem? a_at))
      (final_rows b (mem_of_getElem? b_at)) beyond params x y

/-- A growth does not depend on anything but the rows of its final graph. -/
theorem Grows.of_nodes (grown : Grows linked start graph) (params_eq : final.params = graph.params)
    (nodes : Forall₂ (fun old new : Node => new.SameRows old) graph.nodes final.nodes)
    (rows_eq : final.counters.totalRows = graph.counters.totalRows) : Grows linked start final := by
  refine ⟨params_eq.trans grown.params, ?_, ?_, rows_eq ▸ grown.rows_le, ?_, ?_⟩
  · exact forall₂_trans (fun _ _ _ before same => same.prolongs.trans before) grown.nodes nodes
  · rw [rows_eq]
    exact nodes.forall_mem (fun _ _ _ same has_rows => same.hasRows has_rows) grown.has_rows
  · exact nodes.forall_mem (fun _ _ _ same labels => same.bands ▸ labels) grown.labels
  · intro kind i j params x y link a b a_at b_at row beyond agree
    obtain ⟨a_old, a_old_at, a_same⟩ := nodes.getElem?_left a_at
    obtain ⟨b_old, b_old_at, b_same⟩ := nodes.getElem?_left b_at
    refine (a_same.respects_iff b_same).mpr ?_
    exact grown.respects kind i j params x y link a_old b_old a_old_at b_old_at row beyond
      (by simpa only [AgreeBefore, a_same.bands, b_same.bands, a_same.timeAt_eq, b_same.timeAt_eq] using agree)

/-- A stage that starts with a new band continues a growth: the linked pairs that the rows so far do not tell
    apart are all that its rows have to respect. -/
theorem Grows.trans {linked_later : LinkRelation} (first : Grows linked start graph)
    (second : Grows linked_later graph final) (band_le : start.counters.band ≤ graph.counters.band)
    (closed : ∀ node ∈ graph.nodes, ∀ entry ∈ node.bands, ∃ label < graph.counters.band, entry = some label)
    (kept : ∀ kind i j a b params x y, graph.nodes[i]? = some a → graph.nodes[j]? = some b →
      linked kind i j params x y → (∀ row, a.timeAt row params x = b.timeAt row params y) →
      linked_later kind i j params x y) : Grows linked start final := by
  refine ⟨second.params.trans first.params, ?_, second.has_rows, first.rows_le.trans second.rows_le, ?_, ?_⟩
  · exact forall₂_trans (fun _ _ _ before after => after.trans before) first.nodes second.nodes
  · intro node node_mem row label beyond label_at
    obtain ⟨index, node_at⟩ := getElem?_of_mem node_mem
    obtain ⟨middle, middle_at, prolonged⟩ := second.nodes.getElem?_left node_at
    have middle_mem := mem_of_getElem? middle_at
    by_cases inside : row < graph.counters.totalRows
    · rw [prolonged.bands_eq (first.has_rows middle middle_mem) inside] at label_at
      exact first.labels middle middle_mem row label beyond label_at
    · exact band_le.trans (second.labels node node_mem row label (Nat.le_of_not_lt inside) label_at)
  · intro kind i j params x y link a b a_at b_at row beyond agree
    obtain ⟨a_middle, a_middle_at, a_prolonged⟩ := second.nodes.getElem?_left a_at
    obtain ⟨b_middle, b_middle_at, b_prolonged⟩ := second.nodes.getElem?_left b_at
    have a_mem := mem_of_getElem? a_middle_at
    have b_mem := mem_of_getElem? b_middle_at
    have a_rows := first.has_rows a_middle a_mem
    have b_rows := first.has_rows b_middle b_mem
    by_cases inside : row < graph.counters.totalRows
    · have respected := first.respects kind i j params x y link a_middle b_middle a_middle_at b_middle_at row beyond
        (agree.of_prolongs a_prolonged b_prolonged a_rows b_rows inside)
      exact respected.of_prolongs a_prolonged b_prolonged a_rows b_rows inside
    · have row_le := Nat.le_of_not_lt inside
      refine second.respects kind i j params x y ?_ a b a_at b_at row row_le agree
      refine kept kind i j a_middle b_middle params x y a_middle_at b_middle_at link fun earlier => ?_
      by_cases earlier_lt : earlier < graph.counters.totalRows
      · -- A row of the first stage lies before every band of the second one.
        have times_eq := agree earlier (a_prolonged.beforeBand_of_closed a_rows earlier_lt row_le (closed a_middle a_mem)
            fun label => second.labels a (mem_of_getElem? a_at) row label row_le)
          (b_prolonged.beforeBand_of_closed b_rows earlier_lt row_le (closed b_middle b_mem)
            fun label => second.labels b (mem_of_getElem? b_at) row label row_le)
        rwa [a_prolonged.timeAt_eq a_rows earlier_lt, b_prolonged.timeAt_eq b_rows earlier_lt] at times_eq
      · rw [a_rows.timeAt_eq_zero (Nat.le_of_not_lt earlier_lt), b_rows.timeAt_eq_zero (Nat.le_of_not_lt earlier_lt)]

/-- Another row in a band that is not an earlier one continues a growth if it respects the linked pairs. -/
theorem Grows.push (grown : Grows linked start graph) (band_le : start.counters.band ≤ band)
    (params : final.params = graph.params) (rows_eq : final.counters.totalRows = graph.counters.totalRows + 1)
    (pushed : Forall₂ (fun before after : Node => ∃ row flag, after.Pushes before row (some band) flag)
      graph.nodes final.nodes) (respected : ∀ kind i j params x y, linked kind i j params x y → ∀ a b, final.nodes[i]? = some a →
      final.nodes[j]? = some b → a.AgreeBefore b graph.counters.totalRows params x y →
      Node.Respects kind a b graph.counters.totalRows params x y) : Grows linked start final := by
  have has_rows : ∀ node ∈ final.nodes, node.HasRows final.counters.totalRows := by
    rw [rows_eq]
    refine pushed.forall_mem (fun before after _ step has_rows => ?_) grown.has_rows
    obtain ⟨row, flag, pushes⟩ := step
    exact pushes.hasRows has_rows
  have prolongs : Forall₂ (fun before after : Node => after.Prolongs before) graph.nodes final.nodes :=
    pushed.imp fun before after ⟨row, flag, pushes⟩ => pushes.prolongs
  refine ⟨params.trans grown.params, ?_, has_rows, ?_, ?_, ?_⟩
  · exact forall₂_trans (fun _ _ _ before after => after.trans before) grown.nodes prolongs
  · exact grown.rows_le.trans (rows_eq ▸ Nat.le_succ _)
  · intro node node_mem row label beyond label_at
    obtain ⟨index, node_at⟩ := getElem?_of_mem node_mem
    obtain ⟨middle, middle_at, new_row, flag, pushes⟩ := pushed.getElem?_left node_at
    have middle_mem := mem_of_getElem? middle_at
    have middle_rows := grown.has_rows middle middle_mem
    have inside := (List.getElem?_eq_some_iff.mp label_at).1
    rw [(pushes.hasRows middle_rows).bands] at inside
    rcases Nat.lt_succ_iff_lt_or_eq.mp inside with earlier | rfl
    · rw [pushes.prolongs.bands_eq middle_rows earlier] at label_at
      exact grown.labels middle middle_mem row label beyond label_at
    · rw [pushes.bands_last middle_rows] at label_at
      have label_eq : band = label := by simpa using label_at
      exact label_eq ▸ band_le
  · intro kind i j params x y link a b a_at b_at row beyond agree
    obtain ⟨a_middle, a_middle_at, a_prolonged⟩ := prolongs.getElem?_left a_at
    obtain ⟨b_middle, b_middle_at, b_prolonged⟩ := prolongs.getElem?_left b_at
    have a_rows := grown.has_rows a_middle (mem_of_getElem? a_middle_at)
    have b_rows := grown.has_rows b_middle (mem_of_getElem? b_middle_at)
    rcases Nat.lt_trichotomy row graph.counters.totalRows with earlier | rfl | later
    · have before := grown.respects kind i j params x y link a_middle b_middle a_middle_at b_middle_at row beyond
        (agree.of_prolongs a_prolonged b_prolonged a_rows b_rows earlier)
      exact before.of_prolongs a_prolonged b_prolonged a_rows b_rows earlier
    · exact respected kind i j params x y link a b a_at b_at agree
    · exact respects_beyond (has_rows a (mem_of_getElem? a_at)) (has_rows b (mem_of_getElem? b_at))
        (rows_eq ▸ later) params x y

end Stages

/-! ### Row operations -/

section

variable (done : graph.appendRow rows flag = .ok next)
include done

/-- An appended row goes to every node in order. -/
theorem appendRow_ok : rows.length = graph.nodes.length
      ∧ next = { graph with
          nodes := next.nodes
          counters := { graph.counters with
            rows := graph.counters.rows + 1, totalRows := graph.counters.totalRows + 1 } }
      ∧ Forall₂ (fun (entry : Node × List ℤ) (after : Node) =>
          after.Pushes entry.1 entry.2 (some graph.counters.band) flag ∧ after.Based) (graph.nodes.zip rows) next.nodes := by
  simp only [appendRow, bind_ok] at done
  obtain ⟨_, _, done⟩ := done
  split_ifs at done with length_eq
  · obtain ⟨_, impossible, _⟩ := bind_ok.mp done
    exact (throw_ok.mp impossible).elim
  · simp only [bind_ok, pure_ok, mapM_ok] at done
    obtain ⟨nodes, each, rfl⟩ := done
    refine ⟨not_not.mp length_eq, rfl, each.imp fun entry after step => ?_⟩
    obtain ⟨pushed, pushed_ok, updated⟩ := step
    obtain ⟨based, after_eq⟩ := updateBasis_ok updated
    have pushes := pushes_of_pushRow pushed_ok
    refine ⟨?_, based⟩
    rw [after_eq]
    exact ⟨pushes.space, pushes.component, pushes.cols, pushes.length, pushes.rows, pushes.bands, pushes.flags⟩

theorem edges_of_appendRow : next.edges = graph.edges := congrArg (·.edges) (appendRow_ok done).2.1

theorem params_of_appendRow : next.params = graph.params := congrArg (·.params) (appendRow_ok done).2.1

/-- The row that a node has got stands at its position. -/
theorem getElem?_of_appendRow {index : ℕ} (after_at : next.nodes[index]? = some after) :
    ∃ before row, graph.nodes[index]? = some before ∧ rows[index]? = some row
      ∧ after.Pushes before row (some graph.counters.band) flag ∧ after.Based := by
  obtain ⟨_, _, pushed⟩ := appendRow_ok done
  obtain ⟨⟨before, row⟩, entry_at, pushes⟩ := pushed.getElem?_left after_at
  obtain ⟨before_at, row_at⟩ := getElem?_zip_eq_some.mp entry_at
  exact ⟨before, row, before_at, row_at, pushes⟩

theorem pushed_of_appendRow :
    Forall₂ (fun before after : Node =>
      ∃ row ∈ rows, after.Pushes before row (some graph.counters.band) flag) graph.nodes next.nodes := by
  obtain ⟨length_eq, _, pushed⟩ := appendRow_ok done
  refine forall₂_of_getElem? ?_ fun index before after before_at after_at => ?_
  · rw [← pushed.length_eq, length_zip, length_eq, Nat.min_self]
  · obtain ⟨twin, row, twin_at, row_at, pushes, _⟩ := getElem?_of_appendRow done after_at
    obtain rfl := Option.mem_unique before_at twin_at
    exact ⟨row, mem_of_getElem? row_at, pushes⟩

end

theorem SameParts.nextBand (same : graph.SameParts next) : graph.SameParts next.nextBand :=
  ⟨same.components, same.edges, same.sorted, same.count⟩

theorem sameParts_of_appendRow (done : graph.appendRow rows flag = .ok next) : graph.SameParts next := by
  obtain ⟨_, next_eq, _⟩ := appendRow_ok done
  exact ⟨(pushed_of_appendRow done).imp fun _ _ ⟨_, _, pushes⟩ => pushes.component,
    (congrArg edgeCores next_eq :), congrArg (·.sorted) next_eq, congrArg (·.componentCount) next_eq⟩

/-- A constant row goes to every node. -/
theorem appendConstantRow_ok (done : graph.appendConstantRow value = .ok next) : next = { graph with
        nodes := next.nodes, counters := { graph.counters with totalRows := graph.counters.totalRows + 1 } }
      ∧ Forall₂ (fun before after : Node =>
          after.Pushes before (before.constantRow (value before)) (some graph.counters.band) false) graph.nodes next.nodes := by
  simp only [appendConstantRow, bind_ok, pure_ok, mapM_ok] at done
  obtain ⟨_, _, nodes, each, rfl⟩ := done
  exact ⟨rfl, each.imp fun _ _ step => pushes_of_pushRow step⟩

theorem sameParts_of_appendConstantRow (done : graph.appendConstantRow value = .ok next) :
    graph.SameParts next := by
  obtain ⟨next_eq, pushed⟩ := appendConstantRow_ok done
  exact ⟨pushed.imp fun _ _ pushes => pushes.component, (congrArg edgeCores next_eq :),
    congrArg (·.sorted) next_eq, congrArg (·.componentCount) next_eq⟩

/-- Dropping a band leaves every node the rows before it. -/
theorem resetBand_ok (done : graph.resetBand = .ok next) :
    next = { graph with nodes := next.nodes, counters := { graph.counters with
        totalRows := graph.counters.bandStart
        rows := graph.counters.rows - (graph.counters.totalRows - graph.counters.bandStart) } }
      ∧ Forall₂ (fun before after : Node =>
          (before.takeRows graph.counters.bandStart).updateBasis = .ok after) graph.nodes next.nodes := by
  simp only [resetBand] at done
  split at done
  · obtain ⟨_, impossible, _⟩ := bind_ok.mp done
    exact (throw_ok.mp impossible).elim
  · simp only [bind_ok, pure_ok, mapM_ok] at done
    obtain ⟨nodes, each, rfl⟩ := done
    exact ⟨rfl, each⟩

theorem sameParts_of_resetBand (done : graph.resetBand = .ok next) : graph.SameParts next := by
  obtain ⟨next_eq, updated⟩ := resetBand_ok done
  exact ⟨updated.imp fun _ _ step => (sameRows_of_updateBasis step).2.1,
    (congrArg edgeCores next_eq :), congrArg (·.sorted) next_eq, congrArg (·.componentCount) next_eq⟩

/-! ### Stages -/

/-- A growth that has not closed its last band. -/
structure Stage (linked : LinkRelation) (start graph : Graph) : Prop where
  grows : Grows linked start graph
  well_formed : graph.WellFormed
  edges : start.SameEdges graph
  band_le : start.counters.band ≤ graph.counters.band
  labels : ∀ node ∈ graph.nodes, ∀ entry ∈ node.bands, ∃ label ≤ graph.counters.band, entry = some label

theorem AtBandStart.stage {linked : LinkRelation} (at_start : graph.AtBandStart) : Stage linked graph graph := by
  refine ⟨(SameRows.refl graph).grows at_start.has_rows, at_start.well_formed, rfl, le_rfl, ?_⟩
  intro node node_mem entry entry_mem
  obtain ⟨label, label_lt, entry_eq⟩ := at_start.closed node node_mem entry entry_mem
  exact ⟨label, label_lt.le, entry_eq⟩

section Stage

variable {linked : LinkRelation} {start : Graph} (stage : Stage linked start graph)
include stage

/-- Closing the last band of a stage. -/
theorem Stage.atBandStart_nextBand : graph.nextBand.AtBandStart := by
  have well_formed := stage.well_formed
  refine ⟨⟨well_formed.size, well_formed.nodes, well_formed.edges⟩, stage.grows.has_rows, rfl, ?_⟩
  intro node node_mem entry entry_mem
  obtain ⟨label, label_le, entry_eq⟩ := stage.labels node node_mem entry entry_mem
  exact ⟨label, Nat.lt_succ_of_le label_le, entry_eq⟩

/-- Bookkeeping leaves a stage as it is. -/
theorem Stage.of_sameRows (same : next.SameRows graph) : Stage linked start next := by
  refine ⟨stage.grows.of_nodes same.params same.nodes (congrArg (·.totalRows) same.counters),
    same.wellFormed stage.well_formed, same.edges.trans stage.edges, same.counters ▸ stage.band_le, ?_⟩
  rw [same.counters]
  exact same.nodes.forall_mem (fun _ _ _ node_same labels => node_same.bands ▸ labels) stage.labels

/-- Another row of the current band. -/
theorem Stage.push (params_eq : next.params = graph.params) (edges_eq : graph.SameEdges next)
    (rows_eq : next.counters.totalRows = graph.counters.totalRows + 1) (band_eq : next.counters.band = graph.counters.band)
    (pushed : Forall₂ (fun before after : Node =>
      ∃ row flag, after.Pushes before row (some graph.counters.band) flag) graph.nodes next.nodes)
    (respected : ∀ kind i j params x y, linked kind i j params x y → ∀ a b, next.nodes[i]? = some a →
      next.nodes[j]? = some b → a.AgreeBefore b graph.counters.totalRows params x y →
      Node.Respects kind a b graph.counters.totalRows params x y) : Stage linked start next := by
  refine ⟨stage.grows.push stage.band_le params_eq rows_eq pushed respected, ?_, edges_eq.trans stage.edges,
    band_eq ▸ stage.band_le, ?_⟩
  · exact stage.well_formed.of_prolongs params_eq (pushed.imp fun _ _ ⟨_, _, pushes⟩ => pushes.prolongs) edges_eq
  · rw [band_eq]
    refine pushed.forall_mem (fun before after _ step labels => ?_) stage.labels
    obtain ⟨row, flag, pushes⟩ := step
    intro entry entry_mem
    rw [pushes.bands, mem_append, mem_singleton] at entry_mem
    rcases entry_mem with earlier | rfl
    · exact labels entry earlier
    · exact ⟨_, le_rfl, rfl⟩

/-- A constant row that orders no validity pair backwards. -/
theorem Stage.appendConstantRow (done : graph.appendConstantRow value = .ok next)
    (ordered : ∀ i j params x y, linked .validity i j params x y → ∀ a b, graph.nodes[i]? = some a →
      graph.nodes[j]? = some b → value a ≤ value b) :
    Stage linked start next ∧ ∀ (i : ℕ) (a : Node), next.nodes[i]? = some a → ∃ before, graph.nodes[i]? = some before
          ∧ a.component = before.component ∧ ∀ params x, a.timeAt graph.counters.totalRows params x = value before := by
  obtain ⟨next_eq, pushed⟩ := appendConstantRow_ok done
  have values : ∀ (i : ℕ) (a : Node), next.nodes[i]? = some a → ∃ before, graph.nodes[i]? = some before
      ∧ a.Pushes before (before.constantRow (value before)) (some graph.counters.band) false
      ∧ ∀ params x, a.timeAt graph.counters.totalRows params x = value before := by
    intro i a a_at
    obtain ⟨before, before_at, pushes⟩ := pushed.getElem?_left a_at
    refine ⟨before, before_at, pushes, fun params x => ?_⟩
    rw [pushes.timeAt_last (stage.grows.has_rows before (mem_of_getElem? before_at)), rowValue_constantRow]
  refine ⟨?_, fun i a a_at => ?_⟩
  · refine stage.push (congrArg (·.params) next_eq) (sameParts_of_appendConstantRow done).edges
      (congrArg (·.counters.totalRows) next_eq) (congrArg (·.counters.band) next_eq)
      (pushed.imp fun _ _ pushes => ⟨_, _, pushes⟩) ?_
    intro kind i j params x y link a b a_at b_at _
    obtain ⟨before, before_at, pushes, a_time⟩ := values i a a_at
    obtain ⟨other, other_at, _, b_time⟩ := values j b b_at
    have flag := pushes.coincident_last (stage.grows.has_rows before (mem_of_getElem? before_at))
    refine respects_of_not_coincident flag fun is_validity => ?_
    subst is_validity
    rw [a_time, b_time]
    exact ordered i j params x y link before other before_at other_at
  · obtain ⟨before, before_at, pushes, a_time⟩ := values i a a_at
    exact ⟨before, before_at, pushes.component, a_time⟩

/-- A linear row that respects the linked pairs. -/
theorem Stage.appendRow (done : graph.appendRow rows flag = .ok next)
    (validity : ∀ i j params x y, linked .validity i j params x y → ∀ rowI rowJ, rows[i]? = some rowI →
      rows[j]? = some rowJ → rowValue rowI graph.params.length x params
        ≤ rowValue rowJ graph.params.length y params)
    (coincidence : flag = true → ∀ i j params x y, linked .coincidence i j params x y → ∀ rowI rowJ,
      rows[i]? = some rowI → rows[j]? = some rowJ → rowValue rowI graph.params.length x params
        = rowValue rowJ graph.params.length y params) : Stage linked start next := by
  obtain ⟨_, next_eq, _⟩ := appendRow_ok done
  have values : ∀ (i : ℕ) (a : Node), next.nodes[i]? = some a → ∃ before row, rows[i]? = some row
      ∧ before.HasRows graph.counters.totalRows ∧ a.Pushes before row (some graph.counters.band) flag
      ∧ ∀ params x, a.timeAt graph.counters.totalRows params x = rowValue row graph.params.length x params := by
    intro i a a_at
    obtain ⟨before, row, before_at, row_at, pushes, _⟩ := getElem?_of_appendRow done a_at
    have before_mem := mem_of_getElem? before_at
    refine ⟨before, row, row_at, stage.grows.has_rows before before_mem, pushes, fun params x => ?_⟩
    rw [pushes.timeAt_last (stage.grows.has_rows before before_mem), (stage.well_formed.nodes before before_mem).params]
  refine stage.push (congrArg (·.params) next_eq) (sameParts_of_appendRow done).edges
    (congrArg (·.counters.totalRows) next_eq) (congrArg (·.counters.band) next_eq)
    ((pushed_of_appendRow done).imp fun _ _ ⟨row, _, pushes⟩ => ⟨row, flag, pushes⟩) ?_
  intro kind i j params x y link a b a_at b_at _
  obtain ⟨a_before, a_row, a_row_at, a_rows, a_pushes, a_time⟩ := values i a a_at
  obtain ⟨b_before, b_row, b_row_at, b_rows, b_pushes, b_time⟩ := values j b b_at
  cases kind with
  | validity =>
    rw [Node.Respects, a_time, b_time]
    exact validity i j params x y link a_row b_row a_row_at b_row_at
  | coincidence =>
    intro flagged _
    rw [a_pushes.coincident_last a_rows] at flagged
    rw [a_time, b_time]
    exact coincidence (Option.some.inj flagged) i j params x y link a_row b_row a_row_at b_row_at
  | condition => trivial
  | conditionalValidity => trivial
  | proximity => trivial

end Stage

/-- A graph with the rows of the start may be constructed in its place. -/
theorem SameRows.grows_trans {start final : Graph} (same : graph.SameRows start)
    (at_start : start.AtBandStart) (grown : Grows graph.Links graph final) : Grows start.Links start final := by
  refine (same.grows at_start.has_rows).trans grown (same.counters ▸ le_rfl) (same.atBandStart at_start).closed ?_
  intro kind i j a b params x y _ _ link _
  exact links_of_edges_eq same.edges.symm link

/-- A stage with its last band closed may be continued by a band of its own. -/
theorem Stage.grows_trans {start final : Graph} (stage : Stage start.Links start graph)
    (grown : Grows graph.nextBand.Links graph.nextBand final) : Grows start.Links start final := by
  have closed : Grows start.Links start graph.nextBand :=
    stage.grows.of_nodes rfl (forall₂_same.mpr fun node _ => Node.SameRows.refl node) rfl
  refine closed.trans grown (stage.band_le.trans (Nat.le_succ _)) stage.atBandStart_nextBand.closed ?_
  intro kind i j a b params x y _ _ link _
  exact links_of_edges_eq stage.edges.symm link

/-- Only the pairs that the rows so far do not tell apart matter from the start of a band on. -/
theorem AtBandStart.narrow (at_start : graph.AtBandStart) (done : graph.narrowEdges = .ok narrowed) :
    narrowed.AtBandStart ∧ ∀ final, Grows narrowed.Links narrowed final → Grows graph.Links graph final := by
  obtain ⟨narrowed_eq, well_formed, links⟩ := links_of_narrowEdges at_start.well_formed done
  have nodes_eq : narrowed.nodes = graph.nodes := congrArg (·.nodes) narrowed_eq
  have counters_eq : narrowed.counters = graph.counters := congrArg (·.counters) narrowed_eq
  have narrowed_at_start : narrowed.AtBandStart := by
    refine ⟨well_formed, ?_, ?_, ?_⟩
    · rw [nodes_eq, counters_eq]
      exact at_start.has_rows
    · rw [counters_eq]
      exact at_start.band_start
    · rw [nodes_eq, counters_eq]
      exact at_start.closed
  refine ⟨narrowed_at_start, fun final grown => ?_⟩
  have first : Grows graph.Links graph narrowed := by
    refine at_start.stage.grows.of_nodes (congrArg (·.params) narrowed_eq) ?_ (congrArg (·.totalRows) counters_eq)
    rw [nodes_eq]
    exact forall₂_same.mpr fun node _ => Node.SameRows.refl node
  refine first.trans grown (counters_eq ▸ le_rfl) narrowed_at_start.closed ?_
  intro kind i j a b params x y a_at b_at link agree
  rw [nodes_eq] at a_at b_at
  exact links kind i j a b a_at b_at params x y link agree

theorem enterEdges_nextBand {entries : List (Kind × ℕ)} (done : entries.foldlM enterEdge graph = .ok narrowed) :
    entries.foldlM enterEdge graph.nextBand = .ok narrowed.nextBand := by
  have step : ∀ {entry graph next}, enterEdge graph entry = .ok next → graph.nextBand.enterEdge entry = .ok next.nextBand := by
    intro entry graph next done
    simp only [enterEdge, bind_ok] at done ⊢
    obtain ⟨edge, edge_at, done⟩ := done
    refine ⟨edge, edge_at, ?_⟩
    split at done
    · simp only [bind_ok, throw_ok, false_and, exists_false, and_false] at done
    next free =>
      obtain rfl := pure_ok.mp done
      exact if_neg free
  induction entries generalizing graph with
  | nil => rw [pure_ok.mp done, foldlM_nil, pure_ok]
  | cons entry later ih =>
    rw [foldlM_cons, bind_ok] at done ⊢
    obtain ⟨middle, entered, done⟩ := done
    exact ⟨middle.nextBand, step entered, ih done⟩

/-- Narrowing does not look at the bands. -/
theorem narrowEdges_nextBand (done : graph.narrowEdges = .ok narrowed) :
    graph.nextBand.narrowEdges = .ok narrowed.nextBand := by
  simp only [narrowEdges, bind_ok] at done ⊢
  obtain ⟨edges, each, entered⟩ := done
  exact ⟨edges, each, enterEdges_nextBand entered⟩

/-- New components leave the rows alone. -/
theorem sameRows_assign {follows : ℕ → ℕ → Bool} :
    (graph.assign (Components.compute graph.nodes.length follows)).SameRows graph := by
  refine ⟨rfl, forall₂_of_getElem? length_nodes_assign.symm ?_, rfl, rfl⟩
  intro index old new old_at new_at
  rw [getElem?_assign (length_labels_compute _), old_at] at new_at
  obtain rfl := Option.some.inj new_at
  exact ⟨rfl, rfl, rfl, rfl⟩

end Graph

end AffineSchedule
