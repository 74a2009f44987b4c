import AffineSchedule.Proofs.Construction.Course
import Mathlib.Data.List.NodupEquivFin

namespace AffineSchedule

open Checked AffineSchedule.Graph List Node

variable {row : ℕ} {use : Bool} {bandEnd : BandEnd} {entry : Option ℕ} {filled : Construction} {rows : List (List ℤ)}
  {appended : Graph} {label : ℕ}

/-! ### Bands of a node -/

namespace Node

/-- The row belongs to the band with a label. -/
def InLabel (label row : ℕ) (node : Node) : Prop := node.bands[row]? = some (some label)

/-- The band with a label has the same rows, with the same flags, in both nodes. -/
structure SameBand (label : ℕ) (later earlier : Node) : Prop where
  rows : ∀ row, later.InLabel label row ↔ earlier.InLabel label row
  entries : ∀ row, earlier.InLabel label row → later.schedule.rows.getD row [] = earlier.schedule.rows.getD row []
  flags : ∀ row, earlier.InLabel label row → later.coincident[row]? = earlier.coincident[row]?

/-- The band with a label has one row at most, and that is not coincident. -/
structure Single (label : ℕ) (node : Node) : Prop where
  alone : ∀ row other, node.InLabel label row → node.InLabel label other → row = other
  unflagged : ∀ row, node.InLabel label row → node.coincident[row]? = some false

/-- The rows of the band have no coefficients besides the constant. -/
def ConstantIn (label : ℕ) (node : Node) : Prop :=
  ∀ row, node.InLabel label row → ∀ coefficient ∈ (node.schedule.rows.getD row []).drop 1, coefficient = 0

variable {later earlier node : Node} {count : ℕ}

theorem SameRows.sameBand (same : later.SameRows earlier) : later.SameBand label earlier :=
  ⟨fun row => by rw [InLabel, InLabel, same.bands], fun row _ => by rw [same.schedule], fun row _ => by rw [same.coincident]⟩

theorem InLabel.lt (labelled : node.InLabel label row) (has_rows : node.HasRows count) : row < count :=
  has_rows.bands ▸ (List.getElem?_eq_some_iff.mp labelled).1

/-- Rows with other labels do not change a band. -/
theorem Prolongs.sameBand (prolonged : later.Prolongs earlier) (has_rows : earlier.HasRows count)
    (fresh : ∀ row, count ≤ row → ¬later.InLabel label row) : later.SameBand label earlier := by
  refine ⟨fun row => ?_, fun row labelled => ?_, fun row labelled => ?_⟩
  · rcases Nat.lt_or_ge row count with inside | beyond
    · rw [InLabel, InLabel, prolonged.bands_eq has_rows inside]
    · exact iff_of_false (fresh row beyond) fun labelled => absurd (labelled.lt has_rows) (Nat.not_lt.mpr beyond)
  · exact prolonged.row_eq has_rows (labelled.lt has_rows)
  · exact prolonged.coincident_eq has_rows (labelled.lt has_rows)

/-- A further row has its own label. -/
theorem inLabel_append_iff (has_rows : earlier.HasRows count) (bands_eq : later.bands = earlier.bands ++ [entry]) (row : ℕ) :
    later.InLabel label row ↔ earlier.InLabel label row ∨ row = count ∧ entry = some label := by
  rw [InLabel, InLabel, bands_eq, ← has_rows.bands]
  rcases Nat.lt_trichotomy row earlier.bands.length with inside | rfl | beyond
  · simp [getElem?_append_left inside, inside.ne]
  · simp
  · rw [getElem?_eq_none (by simpa using beyond), getElem?_eq_none beyond.le]
    simp [beyond.ne']

theorem single_of_notMem (absent : some label ∉ node.bands) : node.Single label :=
  ⟨fun _ _ row_in => absurd (mem_of_getElem? row_in) absent, fun _ row_in => absurd (mem_of_getElem? row_in) absent⟩

/-- A last row makes a band of one row where there was none. -/
theorem single_of_append (has_rows : earlier.HasRows count) (bands_eq : node.bands = earlier.bands ++ [entry])
    (flags_eq : node.coincident = earlier.coincident ++ [false]) (absent : some label ∉ earlier.bands) : node.Single label := by
  have last : ∀ row, node.InLabel label row → row = count := fun row labelled =>
    (((inLabel_append_iff has_rows bands_eq row).mp labelled).resolve_left fun before => absent (mem_of_getElem? before)).1
  refine ⟨fun row other row_in other_in => (last row row_in).trans (last other other_in).symm, fun row row_in => ?_⟩
  rw [last row row_in, flags_eq, ← has_rows.coincident]
  simp

/-- A row of another band leaves a band of one row as it is. -/
theorem Single.append {flag : Bool} (single : earlier.Single label) (has_rows : earlier.HasRows count)
    (bands_eq : later.bands = earlier.bands ++ [entry]) (flags_eq : later.coincident = earlier.coincident ++ [flag])
    (other : entry ≠ some label) : later.Single label := by
  have before : ∀ {row}, later.InLabel label row → earlier.InLabel label row := fun labelled =>
    ((inLabel_append_iff has_rows bands_eq _).mp labelled).resolve_right fun last => other last.2
  refine ⟨fun row other row_in other_in => single.alone row other (before row_in) (before other_in), fun row row_in => ?_⟩
  rw [flags_eq, getElem?_append_left ((before row_in).lt has_rows |>.trans_eq has_rows.coincident.symm)]
  exact single.unflagged row (before row_in)

/-- A constant row is the only one of a new band. -/
theorem Pushes.constantIn {value : ℤ} {band : ℕ} (pushed : later.Pushes earlier (earlier.constantRow value) (some band) false)
    (has_rows : earlier.HasRows count) (absent : some label ∉ earlier.bands) : later.ConstantIn label := by
  intro row labelled
  have last := ((inLabel_append_iff has_rows pushed.bands row).mp labelled).resolve_left
    fun before => absent (mem_of_getElem? before)
  rw [last.1, pushed.row_last has_rows]
  exact fun coefficient coefficient_mem => eq_of_mem_replicate coefficient_mem

end Node

/-! ### Dependences to be respected -/

namespace Graph

/-- Some dependence has to be respected. -/
def HasValidity (graph : Graph) : Prop := ∃ edge ∈ graph.edges, edge.isAnyValidity = true

variable {graph next : Graph}

theorem HasValidity.of_kinds (kinds : ∀ edge ∈ next.edges, ∃ original ∈ graph.edges, edge.kinds = original.kinds)
    (has_validity : next.HasValidity) : graph.HasValidity := by
  obtain ⟨edge, edge_mem, any_validity⟩ := has_validity
  obtain ⟨original, original_mem, kinds_eq⟩ := kinds edge edge_mem
  refine ⟨original, original_mem, ?_⟩
  rwa [Edge.isAnyValidity, Edge.has, Edge.has, kinds_eq] at any_validity

theorem HasValidity.of_sameEdges (same : graph.SameEdges next) (has_validity : next.HasValidity) : graph.HasValidity := by
  refine HasValidity.of_kinds (fun edge edge_mem => ?_) has_validity
  obtain ⟨original, original_mem, core_eq⟩ := same.exists_twin edge_mem
  exact ⟨original, original_mem, congrArg (·.kinds) core_eq.symm⟩

theorem HasValidity.of_narrowEdges (done : graph.narrowEdges = .ok next) (has_validity : next.nextBand.HasValidity) :
    graph.HasValidity := by
  refine HasValidity.of_kinds (fun edge edge_mem => ?_) has_validity
  obtain ⟨_, before, before_mem, narrow⟩ := (narrowEdges_ok done).2.1 edge edge_mem
  exact ⟨before, before_mem, (alike_of_narrowEdge narrow).kinds⟩

theorem hasValidity_of_carryingRow {cache : ConeCache} {options : Options} {carrying : CarryingRow}
    (well_formed : graph.WellFormed) (cache_sound : cache.Sound) (done : graph.carryingRow cache options = .ok carrying) :
    graph.HasValidity := by
  obtain ⟨complete, columns, point, ⟨problem_ok, found_ok⟩, _, _, _, carries⟩ := carryingRow_ok done
  obtain ⟨_, _, _, met⟩ := met_of_carryingProblem well_formed cache_sound problem_ok
  obtain ⟨_, satisfied⟩ := Linear.Problem.satisfies_of_rationalLexmin met.sound.bounded (by simp) found_ok
  have several : (0 : ℚ) < graph.validityDisjuncts.length := (satisfied.nonneg 0).trans_lt carries
  obtain ⟨⟨edge, disjunct⟩, entry_mem⟩ := exists_mem_of_length_pos (Nat.cast_pos.mp several)
  obtain ⟨edge_mem, any_validity, _⟩ := mem_validityDisjuncts_iff.mp entry_mem
  exact ⟨edge, edge_mem, any_validity⟩

end Graph

/-! ### Bands along a course -/

/-- Every row of the band is one of the given rows, up to the constant and a positive factor. -/
def Node.DividesIn (rows : List (List ℤ)) (label : ℕ) (node : Node) : Prop :=
  ∀ row, node.InLabel label row → ∃ entries ∈ rows, ∃ factor : ℤ, 0 < factor
    ∧ entries.drop 1 = ((node.schedule.rows.getD row []).drop 1).map (factor * ·)

/-- A property of nodes and labels that depends on the rows of the band only, holds for bands of one constant row and for
    those that are filled, and for those of one row that carries dependences, if there are dependences to carry. -/
structure Bandwise (options : Options) (carries : Prop) (property : Node → ℕ → Prop) : Prop where
  stable : ∀ {later earlier : Node} {label : ℕ}, later.SameBand label earlier → property earlier label →
    property later label
  constant : ∀ {node : Node} {label : ℕ}, node.Single label → node.ConstantIn label → property node label
  carried : ∀ {node : Node} {label : ℕ} {graph : Graph} {cache : ConeCache} {carrying : CarryingRow}, carries →
    graph.carryingRow cache options = .ok carrying → node.Single label → node.DividesIn carrying.rows label → property node label
  filled : ∀ {start : Graph} {bandEnd : BandEnd} {filled : Construction}, Fills options start bandEnd filled →
    ∀ node ∈ filled.graph.nodes, property node start.counters.band

section Course

variable {options : Options} {carries : Prop} {property : Node → ℕ → Prop}
  (bandwise : Bandwise options carries property) {start ordered split narrowed final : Graph}

/-- The property holds for the bands of all nodes from that of the start on. -/
def Graph.AllBands (property : Node → ℕ → Prop) (start final : Graph) : Prop :=
  ∀ node ∈ final.nodes, ∀ label, start.counters.band ≤ label → property node label

include bandwise

/-- The bands a graph gets once its dependences are narrowed come behind those it has. -/
theorem Bandwise.of_narrowed {linked : LinkRelation} (stage : Stage linked start split)
    (first : ∀ node ∈ split.nodes, ∀ label, start.counters.band ≤ label → label ≤ split.counters.band → property node label)
    (narrow_ok : split.narrowEdges = .ok narrowed) (grows : Grows narrowed.nextBand.Links narrowed.nextBand final)
    (later : AllBands property narrowed.nextBand final) : AllBands property start final := by
  intro node node_mem label from_start
  rcases Nat.lt_or_ge split.counters.band label with behind | inside
  · have band_eq : narrowed.nextBand.counters.band = split.counters.band + 1 :=
      congrArg (·.counters.band + 1) (narrowEdges_ok narrow_ok).1
    exact later node node_mem label (band_eq.trans_le behind)
  · obtain ⟨before, before_mem, prolonged, labels⟩ := grows.exists_before narrow_ok node_mem
    refine bandwise.stable (prolonged.sameBand (stage.grows.has_rows before before_mem) fun row beyond labelled => ?_)
      (first before before_mem label from_start inside)
    exact absurd (labels row label beyond labelled) (Nat.not_lt.mpr inside)

omit bandwise in
/-- The bands behind a carrying row have one row at most: the carrying one, divided or not, and a constant one. -/
theorem single_of_carried {carrying : Graph} (at_start : carrying.AtBandStart)
    (append_ok : carrying.appendRow rows false = .ok appended) (split_ok : split = appended ∨ appended.splitFactor = .ok split)
    {node : Node} (node_mem : node ∈ split.nodes) (from_start : carrying.counters.band ≤ label) :
    node.Single label ∧ (node.DividesIn rows label ∨ node.ConstantIn label) := by
  obtain ⟨before, before_mem, entries, entries_mem, middle, pushes, shape⟩ := at_start.exists_pushed append_ok split_ok node_mem
  have before_rows := at_start.has_rows before before_mem
  have absent := notMem_of_labels (at_start.closed before before_mem) from_start
  have middle_single := single_of_append before_rows pushes.bands pushes.flags absent
  have row_eq := pushes.row_last before_rows
  have last : ∀ row, middle.InLabel label row → row = carrying.counters.totalRows := fun row labelled =>
    (((inLabel_append_iff before_rows pushes.bands row).mp labelled).resolve_left fun before => absent (mem_of_getElem? before)).1
  rcases shape with rfl | ⟨factor, positive, divides, splits⟩
  · refine ⟨middle_single, Or.inl fun row labelled => ⟨entries, entries_mem, 1, one_pos, ?_⟩⟩
    rw [last row labelled, row_eq]
    simp
  have middle_rows := pushes.hasRows before_rows
  rcases Nat.eq_or_lt_of_le from_start with rfl | behind
  · refine ⟨middle_single.append middle_rows splits.bands splits.flags (by simp), Or.inl fun row labelled =>
      ⟨entries, entries_mem, factor, positive, ?_⟩⟩
    have in_middle := ((inLabel_append_iff middle_rows splits.bands row).mp labelled).resolve_right (by simp)
    rw [last row in_middle, splits.divided_eq middle_rows, row_eq]
    exact (map_mul_dividedRow divides).symm
  · have behind_middle : some label ∉ middle.bands := by
      rw [pushes.bands, mem_append, mem_singleton, Option.some.injEq]
      exact not_or.mpr ⟨absent, behind.ne'⟩
    refine ⟨single_of_append middle_rows splits.bands splits.flags behind_middle, Or.inr fun row labelled => ?_⟩
    have at_last := ((inLabel_append_iff middle_rows splits.bands row).mp labelled).resolve_left
      fun inside => behind_middle (mem_of_getElem? inside)
    rw [at_last.1, splits.remainder_eq middle_rows]
    exact fun coefficient coefficient_mem => eq_of_mem_replicate coefficient_mem

theorem Bandwise.of_arranged (arranged : Arranges start ordered) (at_start : start.AtBandStart) {node : Node}
    (node_mem : node ∈ ordered.nodes) (from_start : start.counters.band ≤ label)
    (before_next : label < ordered.counters.band) : property node label := by
  cases arranged with
  | plain same =>
    rw [same.counters] at before_next
    omega
  | @row graph next ordered value same append_ok forward relabelled =>
    obtain ⟨before, before_mem, same_rows⟩ := relabelled.nodes.exists_left node_mem
    obtain ⟨_, pushed⟩ := appendConstantRow_ok append_ok
    obtain ⟨first, first_mem, pushes⟩ := pushed.exists_left before_mem
    have graph_start := same.atBandStart at_start
    have first_rows := graph_start.has_rows first first_mem
    have absent := notMem_of_labels (graph_start.closed first first_mem) (same.counters.symm ▸ from_start)
    exact bandwise.stable same_rows.sameBand (bandwise.constant
      (single_of_append first_rows pushes.bands pushes.flags absent) (pushes.constantIn first_rows absent))

theorem Bandwise.of_pieces {filters : List ComponentFilter} {part finished : ComponentFilter → Graph}
    (pieces : Pieces start ordered filters part finished final)
    (each : ∀ filter ∈ filters, AllBands property (part filter) (finished filter)) : AllBands property start final := by
  intro node node_mem label from_start
  obtain ⟨i, node_at⟩ := getElem?_of_mem node_mem
  obtain ⟨filter, filter_mem, before, found, before_at, found_mem, prolonged, pads⟩ := pieces.exists_found node_at
  have before_mem := mem_of_getElem? before_at
  have counters_eq := (pieces.regroups filter filter_mem).counters
  have grows := pieces.grows filter filter_mem
  have padded : node.SameBand label found :=
    pads.prolongs.sameBand (grows.has_rows found found_mem) fun row beyond => pads.labels row label beyond
  refine bandwise.stable padded ?_
  rcases Nat.lt_or_ge label ordered.counters.band with before_next | from_next
  · refine bandwise.stable (prolonged.sameBand (pieces.ordered_start.has_rows before before_mem) fun row beyond labelled => ?_)
      (bandwise.of_arranged pieces.arranged pieces.at_start before_mem from_start before_next)
    have label_ge := grows.labels found found_mem row label (counters_eq ▸ beyond) labelled
    rw [counters_eq] at label_ge
    omega
  · exact each filter filter_mem found found_mem label (counters_eq ▸ from_next)

omit bandwise in
/-- A closed band leaves a fresh label. -/
theorem Fills.closed_of_closeBand (fills : Fills options start bandEnd filled) :
    ∀ node ∈ filled.graph.nodes, ∀ entry ∈ node.bands, ∃ label < (closeBand filled.graph).counters.band, entry = some label := by
  have filling := fills.filling
  obtain ⟨added, counters_eq⟩ := filling.counters
  rw [closeBand]
  split
  case isTrue => exact filling.stage.atBandStart_nextBand.closed
  case isFalse empty =>
    rw [counters_eq, fills.at_start.band_start] at empty
    have none_added : added = 0 := by
      dsimp only at empty
      omega
    subst none_added
    -- Without a row, the nodes are those of the start.
    intro node node_mem
    obtain ⟨before, before_mem, prolonged⟩ := filling.stage.grows.nodes.exists_left node_mem
    have node_rows := filling.stage.grows.has_rows node node_mem
    rw [counters_eq] at node_rows ⊢
    have same := prolonged.sameRows (fills.at_start.has_rows before before_mem) node_rows
    rw [same.bands]
    exact fills.at_start.closed before before_mem

omit bandwise in
/-- The rows with the label of the band that is filled come behind those at its start. -/
theorem Fills.from_start (fills : Fills options start bandEnd filled) {node : Node}
    (node_mem : node ∈ filled.graph.nodes) (labelled : node.InLabel start.counters.band row) :
    start.counters.totalRows ≤ row := by
  refine Nat.le_of_not_lt fun before => ?_
  obtain ⟨first, first_mem, prolonged⟩ := fills.filling.stage.grows.nodes.exists_left node_mem
  rw [InLabel, prolonged.bands_eq (fills.at_start.has_rows first first_mem) before] at labelled
  exact notMem_of_labels (fills.at_start.closed first first_mem) le_rfl (mem_of_getElem? labelled)

theorem Bandwise.of_sorted {sorted : Graph} (fills : Fills options start bandEnd filled)
    (sort_ok : sortStatements (closeBand filled.graph) = .ok sorted) :
    AllBands property start sorted := by
  have filling := fills.filling
  obtain ⟨added, counters_eq⟩ := filling.counters
  have filled_band : filled.graph.counters.band = start.counters.band := congrArg (·.band) counters_eq
  intro node node_mem label from_start
  obtain ⟨before, before_mem, kept⟩ := exists_before_of_sortStatements sort_ok node_mem
  rw [nodes_closeBand] at before_mem
  have before_rows := filling.stage.grows.has_rows before before_mem
  have before_holds : property before label := by
    rcases Nat.eq_or_lt_of_le from_start with rfl | behind
    · exact bandwise.filled fills before before_mem
    · have absent := notMem_of_labels (filling.stage.atBandStart_nextBand.closed before before_mem)
        (Nat.succ_le_of_lt (filled_band ▸ behind))
      exact bandwise.constant (single_of_notMem absent) fun _ row_in => absurd (mem_of_getElem? row_in) absent
  rcases kept with same | ⟨middle, _, same, pushes⟩
  · exact bandwise.stable same.sameBand before_holds
  have middle_rows := same.hasRows before_rows
  by_cases other : some (closeBand filled.graph).counters.band = some label
  · obtain rfl := Option.some.inj other
    have absent : some (closeBand filled.graph).counters.band ∉ middle.bands := by
      rw [same.bands]
      exact notMem_of_labels (fills.closed_of_closeBand before before_mem) le_rfl
    exact bandwise.constant (single_of_append middle_rows pushes.bands pushes.flags absent)
      (pushes.constantIn middle_rows absent)
  · refine bandwise.stable (pushes.prolongs.sameBand middle_rows fun row beyond labelled => ?_)
      (bandwise.stable same.sameBand before_holds)
    rcases (inLabel_append_iff middle_rows pushes.bands row).mp labelled with inside | ⟨_, last⟩
    · exact absurd (inside.lt middle_rows) (Nat.not_lt.mpr beyond)
    · exact other last

/-- Along every course, a property that depends on the rows of a band holds for every band. -/
theorem Bandwise.of_course (course : Course options start final) (carries_of : start.HasValidity → carries) :
    AllBands property start final := by
  induction course with
  | rebased same _ ih =>
    have later := ih fun has_validity => carries_of (.of_sameEdges same.edges has_validity)
    exact fun node node_mem label from_start => later node node_mem label (same.counters ▸ from_start)
  | @band start narrowed final bandEnd filled fills narrow_ok grows _ ih =>
    have stage := fills.filling.stage
    refine bandwise.of_narrowed stage (fun node node_mem label from_start label_le => ?_) narrow_ok grows
      (ih fun has_validity => carries_of (.of_sameEdges stage.edges (.of_narrowEdges narrow_ok has_validity)))
    obtain ⟨_, counters_eq⟩ := fills.filling.counters
    have band_eq : filled.graph.counters.band = start.counters.band := congrArg (·.band) counters_eq
    obtain rfl : label = start.counters.band := by omega
    exact bandwise.filled fills node node_mem
  | @carried start appended split narrowed final cache carrying at_start cache_sound carried append_ok split_ok narrow_ok
      grows _ ih =>
      obtain ⟨same, stage⟩ := stage_of_carried at_start cache_sound carried append_ok split_ok
      have carries_here := carries_of (hasValidity_of_carryingRow at_start.well_formed cache_sound carried)
      have whole := bandwise.of_narrowed stage (fun node node_mem label from_start _ => by
        obtain ⟨single, shape⟩ := single_of_carried (same.atBandStart at_start) append_ok split_ok node_mem from_start
        exact shape.elim (bandwise.carried carries_here carried single) (bandwise.constant single)) narrow_ok grows
        (ih fun _ => carries_here)
      exact fun node node_mem label from_start => whole node node_mem label (same.counters ▸ from_start)
  | parts pieces _ ih =>
    refine bandwise.of_pieces pieces fun filter filter_mem => ih filter filter_mem fun has_validity => carries_of ?_
    exact .of_sameEdges pieces.arranged.sameEdges.2 (has_validity.of_kinds (pieces.regroups filter filter_mem).kinds)
  | sorted fills sort_ok => exact bandwise.of_sorted fills sort_ok

end Course

/-! ### Coincidence flags -/

/-- The coincident rows of a band come first. If coincidence is insisted on at the outermost row, the first of several
    rows is coincident. -/
structure Node.FlagsLead (outer : Bool) (node : Node) (label : ℕ) : Prop where
  lead : ∀ row other, row ≤ other → node.InLabel label row → node.InLabel label other →
    node.coincident[other]? = some true → node.coincident[row]? = some true
  first : outer = true → ∀ row other, row < other → node.InLabel label other → node.InLabel label row →
    (∀ earlier, node.InLabel label earlier → row ≤ earlier) → node.coincident[row]? = some true

/-- The rows from a first one on are those of a band in progress: coincident rows, then others. While rows are flagged
    there are no others yet, and if coincidence is insisted on, it is not given up before the first row. -/
def Node.Flagged (outer flag : Bool) (first band : ℕ) (node : Node) : Prop :=
  ∃ kept relaxed, node.coincident.drop first = List.replicate kept true ++ List.replicate relaxed false
    ∧ node.bands.drop first = List.replicate (kept + relaxed) (some band)
    ∧ (flag = true → relaxed = 0) ∧ (outer = true → flag = false → 0 < kept)

namespace Node

variable {outer flag : Bool} {first band count : ℕ} {node later earlier : Node}

theorem FlagsLead.of_sameBand (same : later.SameBand label earlier) (leads : earlier.FlagsLead outer label) :
    later.FlagsLead outer label := by
  have flag_eq : ∀ {row}, later.InLabel label row → later.coincident[row]? = earlier.coincident[row]? :=
    fun labelled => same.flags _ ((same.rows _).mp labelled)
  refine ⟨fun row other row_le row_in other_in flagged => ?_, fun insists row other row_lt other_in row_in least => ?_⟩
  · rw [flag_eq other_in] at flagged
    rw [flag_eq row_in]
    exact leads.lead row other row_le ((same.rows row).mp row_in) ((same.rows other).mp other_in) flagged
  · rw [flag_eq row_in]
    refine leads.first insists row other row_lt ((same.rows other).mp other_in) ((same.rows row).mp row_in) ?_
    exact fun earlier earlier_in => least earlier ((same.rows earlier).mpr earlier_in)

theorem flagsLead_of_single (single : node.Single label) : node.FlagsLead outer label := by
  refine ⟨fun row other _ row_in other_in flagged => ?_, fun _ row other row_lt other_in row_in _ => ?_⟩
  · exact single.alone row other row_in other_in ▸ flagged
  · exact absurd (single.alone row other row_in other_in) row_lt.ne

theorem flagged_of_hasRows (has_rows : node.HasRows first) : node.Flagged outer true first band := by
  refine ⟨0, 0, ?_, ?_, fun _ => rfl, fun _ impossible => by cases impossible⟩
  · exact drop_eq_nil_of_le has_rows.coincident.le
  · exact drop_eq_nil_of_le has_rows.bands.le

theorem Flagged.of_sameRows (flagged : earlier.Flagged outer flag first band) (same : later.SameRows earlier) :
    later.Flagged outer flag first band := by
  rw [Flagged, same.coincident, same.bands]
  exact flagged

/-- A row with the current flag goes behind the others. -/
theorem Flagged.push {entries : List ℤ} (flagged : earlier.Flagged outer flag first band)
    (has_rows : earlier.HasRows count) (from_first : first ≤ count) (pushed : later.Pushes earlier entries (some band) flag) :
    later.Flagged outer flag first band := by
  obtain ⟨kept, relaxed, flags_eq, bands_eq, coincident, insists⟩ := flagged
  have later_flags : later.coincident.drop first = List.replicate kept true ++ List.replicate relaxed false ++ [flag] := by
    rw [pushed.flags, drop_append_of_le_length (has_rows.coincident.symm ▸ from_first), flags_eq]
  have later_bands : later.bands.drop first = List.replicate (kept + relaxed + 1) (some band) := by
    rw [pushed.bands, drop_append_of_le_length (has_rows.bands.symm ▸ from_first), bands_eq, replicate_succ']
  cases flag with
  | true =>
    obtain rfl := coincident rfl
    refine ⟨kept + 1, 0, ?_, ?_, fun _ => rfl, fun _ impossible => by cases impossible⟩
    · rw [later_flags, replicate_zero, append_nil, append_nil, replicate_succ']
    · exact later_bands
  | false =>
    refine ⟨kept, relaxed + 1, ?_, later_bands, (by cases ·), insists⟩
    rw [later_flags, append_assoc, replicate_succ']

theorem Flagged.relax (flagged : node.Flagged outer true first band) (has_rows : node.HasRows count)
    (started : outer = true → first < count) : node.Flagged outer false first band := by
  obtain ⟨kept, relaxed, flags_eq, bands_eq, coincident, _⟩ := flagged
  obtain rfl := coincident rfl
  refine ⟨kept, 0, flags_eq, bands_eq, fun _ => rfl, fun insists _ => ?_⟩
  have length_eq := congrArg List.length flags_eq
  rw [length_drop, has_rows.coincident] at length_eq
  have := started insists
  simp at length_eq
  omega

/-- The flags of a band in progress are in order, where no row before it has its label. -/
theorem Flagged.flagsLead (flagged : node.Flagged outer flag first band)
    (fresh : ∀ row < first, ¬node.InLabel band row) : node.FlagsLead outer band := by
  obtain ⟨kept, relaxed, flags_eq, bands_eq, coincident, insists⟩ := flagged
  have from_first : ∀ {row}, node.InLabel band row → first ≤ row :=
    fun labelled => Nat.le_of_not_lt fun before => fresh _ before labelled
  have flag_at : ∀ {row}, first ≤ row → row - first < kept + relaxed →
      node.coincident[row]? = some (decide (row - first < kept)) := by
    intro row row_ge inside
    have shifted : node.coincident[row]? = (node.coincident.drop first)[row - first]? := by
      rw [getElem?_drop, Nat.add_sub_cancel' row_ge]
    rw [shifted, flags_eq]
    by_cases flagged_row : row - first < kept
    · rw [getElem?_append_left (by rwa [length_replicate]), getElem?_replicate, if_pos flagged_row, decide_eq_true flagged_row]
    · have behind : row - first - kept < relaxed := by omega
      rw [getElem?_append_right (by rw [length_replicate]; omega), length_replicate, getElem?_replicate,
        if_pos behind, decide_eq_false flagged_row]
  have band_at : ∀ {row}, first ≤ row → (node.InLabel band row ↔ row - first < kept + relaxed) := by
    intro row row_ge
    have shifted : node.bands[row]? = (node.bands.drop first)[row - first]? := by
      rw [getElem?_drop, Nat.add_sub_cancel' row_ge]
    rw [InLabel, shifted, bands_eq, getElem?_replicate]
    simp
  refine ⟨fun row other row_le row_in other_in other_flagged => ?_, fun outermost row other row_lt other_in row_in least => ?_⟩
  · have row_ge := from_first row_in
    have other_ge := from_first other_in
    rw [flag_at other_ge ((band_at other_ge).mp other_in), Option.some.injEq, decide_eq_true_eq] at other_flagged
    rw [flag_at row_ge ((band_at row_ge).mp row_in), Option.some.injEq, decide_eq_true_eq]
    omega
  · have row_ge := from_first row_in
    have row_inside := (band_at row_ge).mp row_in
    have first_in : node.InLabel band first := (band_at le_rfl).mpr (by omega)
    obtain rfl : row = first := Nat.le_antisymm (least first first_in) row_ge
    rw [flag_at le_rfl row_inside, Option.some.injEq, decide_eq_true_eq, Nat.sub_self]
    cases flag with
    | true =>
      have := coincident rfl
      omega
    | false => exact insists outermost rfl

end Node

section Flags

variable {options : Options} {start : Graph}

/-- The rows of a band in progress are flagged in order. -/
def Graph.Flagged (graph : Graph) (options : Options) (start : Graph) (use : Bool) : Prop :=
  ∀ node ∈ graph.nodes, node.Flagged options.outerCoincidence (!start.hasCoincidence || use) start.counters.totalRows
    start.counters.band

theorem Graph.Flagged.of_nodes {graph next : Graph} (flagged : graph.Flagged options start use)
    (same : Forall₂ (fun old new : Node => new.SameRows old) graph.nodes next.nodes) :
    next.Flagged options start use := by
  intro node node_mem
  obtain ⟨before, before_mem, same_rows⟩ := same.exists_left node_mem
  exact (flagged before before_mem).of_sameRows same_rows

theorem flagged_start (at_start : start.AtBandStart) : start.Flagged options start start.hasCoincidence := by
  intro node node_mem
  rw [Bool.not_or_self]
  exact flagged_of_hasRows (at_start.has_rows node node_mem)

/-- The next row is flagged as asked for. -/
theorem Extends.flagged {state : Construction} {search : RowSearch}
    (extends_band : Extends options start.hasCoincidence use state search rows appended) (filling : Filling start state.graph)
    (cache_sound : state.cache.Sound) (flagged : state.graph.Flagged options start use) : appended.Flagged options start use := by
  have searched_filling := (extends_band.searched.filling filling cache_sound).1
  have searched_flagged := flagged.of_nodes extends_band.searched.sameRows.nodes
  obtain ⟨_, counters_eq⟩ := searched_filling.counters
  intro node node_mem
  obtain ⟨before, before_mem, _, _, pushes⟩ := (pushed_of_appendRow extends_band.done).exists_left node_mem
  have band_eq : search.graph.counters.band = start.counters.band := congrArg (·.band) counters_eq
  rw [band_eq] at pushes
  exact (searched_flagged before before_mem).push (searched_filling.stage.grows.has_rows before before_mem)
    searched_filling.stage.grows.rows_le pushes

/-- A step of the band keeps the flags in order. -/
theorem BandStep.flagged {checks : Bool} {before after : Bool × Construction}
    (step : BandStep options start.hasCoincidence checks before after) (at_start : start.AtBandStart)
    (filling : Filling start before.2.graph) (cache_sound : before.2.cache.Sound)
    (flagged : before.2.graph.Flagged options start before.1) : after.2.graph.Flagged options start after.1 := by
  cases step with
  | @relaxed state search searched _ started =>
    have searched_filling := (searched.filling filling cache_sound).1
    obtain ⟨added, counters_eq⟩ := searched_filling.counters
    have searched_flagged := flagged.of_nodes searched.sameRows.nodes
    intro node node_mem
    cases has : start.hasCoincidence with
    | false =>
      have node_flagged := searched_flagged node node_mem
      rwa [has] at node_flagged
    | true =>
      have node_flagged := searched_flagged node node_mem
      rw [has] at node_flagged
      refine node_flagged.relax (searched_filling.stage.grows.has_rows node node_mem) fun outer => ?_
      have more := started outer
      rw [counters_eq] at more ⊢
      have band_start := at_start.band_start
      dsimp only at more ⊢
      omega
  | extended extends_band _ => exact extends_band.flagged filling cache_sound flagged
  | checked extends_band check_ok =>
    exact (extends_band.flagged filling cache_sound flagged).of_nodes
      (sameRows_of_core_eq (core_of_checkConditional check_ok)).nodes
  | restarted extends_band check_ok reset_ok =>
    exact (flagged_start at_start).of_nodes (extends_band.sameRows_reset filling cache_sound at_start check_ok reset_ok).nodes

/-- The flags of a filled band are in order. -/
theorem Fills.flags_lead (fills : Fills options start bandEnd filled) :
    ∀ node ∈ filled.graph.nodes, node.FlagsLead options.outerCoincidence start.counters.band := by
  obtain ⟨use, last, last_flagged, ends⟩ := fills.invariant
    (fun _ => flagged_start fills.at_start) fun _ _ step => step.flagged fills.at_start
  have filled_flagged : filled.graph.Flagged options start use := by
    cases ends with
    | complete _ => exact last_flagged
    | stuck searched _ _ => exact last_flagged.of_nodes searched.sameRows.nodes
  intro node node_mem
  refine (filled_flagged node node_mem).flagsLead fun row before labelled => ?_
  exact absurd before (Nat.not_lt.mpr (fills.from_start node_mem labelled))

/-- The order of the flags depends on the rows of a band only. -/
theorem bandwise_flagsLead {carries : Prop} : Bandwise options carries (FlagsLead options.outerCoincidence) :=
  ⟨FlagsLead.of_sameBand, fun single _ => flagsLead_of_single single,
    fun _ _ single _ => flagsLead_of_single single, Fills.flags_lead⟩

end Flags

end AffineSchedule
