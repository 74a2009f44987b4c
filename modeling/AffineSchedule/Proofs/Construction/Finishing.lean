import AffineSchedule.Proofs.Construction.Progress

namespace AffineSchedule

open Checked List Node

variable {start graph : Graph} {filter : ComponentFilter} {a_height b_height : ℕ} {other : ComponentFilter}

namespace Node

/-! ### One statement -/

/-- All rows are there: first those of bands numbered without gaps, then rows of zeros outside any band. -/
structure Finished (node : Node) (count : ℕ) : Prop where
  has_rows : node.HasRows count
  banded : ∃ band labels missing, GapFree band labels
    ∧ node.bands = labels.map some ++ List.replicate missing none
    ∧ ∀ row ∈ node.schedule.rows.drop labels.length, ∀ coefficient ∈ row, coefficient = 0

/-- Statements with the same identifiers up to a band that both have share the rows and the flags of these bands. -/
def Compatible (a b : Node) : Prop :=
  ∀ level, (∀ label ≤ level, a.bandId label = b.bandId label) → some level ∈ a.bands → some level ∈ b.bands →
    ∀ row label : ℕ, label ≤ level → a.bands[row]? = some (some label) →
      b.bands[row]? = some (some label) ∧ a.coincident[row]? = b.coincident[row]?

/-- The rows of a statement that was in a graph with the given counters are complete. The new rows are in bands from the
    current one on; the identifiers of the earlier bands are kept, and that of the current one is taken from a range. -/
structure Settles (after before : Node) (start : BandCounters) (width height : ℕ) : Prop where
  resumes : after.Resumes before
  finished : after.Finished height
  labels : ∀ row label, start.totalRows ≤ row → after.bands[row]? = some (some label) → start.band ≤ label
  ids : ∀ label < start.band, after.bandId label = before.bandId label
  id_le : before.bandId start.band ≤ after.bandId start.band
  id_lt : after.bandId start.band < before.bandId start.band + width

theorem Compatible.of_same {a b : Node} (bands_eq : a.bands = b.bands) (flags_eq : a.coincident = b.coincident) :
    a.Compatible b := by
  intro level _ _ _ row label _ label_at
  exact ⟨bands_eq ▸ label_at, by rw [flags_eq]⟩

/-- Statements that had the same rows, and whose identifiers differ from then on. -/
theorem Settles.compatible {a b a_before b_before : Node} {start : BandCounters} {a_width b_width : ℕ}
    (a_settles : a.Settles a_before start a_width a_height) (b_settles : b.Settles b_before start b_width b_height)
    (a_rows : a_before.HasRows start.totalRows) (b_rows : b_before.HasRows start.totalRows)
    (bands_eq : a_before.bands = b_before.bands) (flags_eq : a_before.coincident = b_before.coincident)
    (apart : a.bandId start.band ≠ b.bandId start.band) : a.Compatible b := by
  intro level ids_eq _ _ row label label_le label_at
  have before_parts : level < start.band := Nat.lt_of_not_le fun behind => apart (ids_eq _ behind)
  have inside : row < start.totalRows := by
    apply Nat.lt_of_not_le
    intro beyond
    exact absurd (a_settles.labels row label beyond label_at) (Nat.not_le.mpr (label_le.trans_lt before_parts))
  rw [a_settles.resumes.getElem?_bands a_rows inside, bands_eq] at label_at
  rw [b_settles.resumes.getElem?_bands b_rows inside, a_settles.resumes.getElem?_coincident a_rows inside,
    b_settles.resumes.getElem?_coincident b_rows inside, flags_eq]
  exact ⟨label_at, rfl⟩

theorem Settles.of_later {after middle before : Node} {start later : BandCounters} {width narrow height : ℕ}
    (settles : after.Settles middle later narrow height) (resumes : middle.Resumes before)
    (has_rows : middle.HasRows later.totalRows) (band_le : start.band ≤ later.band)
    (labels : ∀ row label, start.totalRows ≤ row → middle.bands[row]? = some (some label) → start.band ≤ label)
    (ids : ∀ label < start.band, middle.bandId label = before.bandId label)
    (id_le : before.bandId start.band ≤ after.bandId start.band)
    (id_lt : after.bandId start.band < before.bandId start.band + width) : after.Settles before start width height := by
  refine ⟨settles.resumes.trans resumes, settles.finished, ?_, ?_, id_le, id_lt⟩
  · intro row label beyond label_at
    by_cases inside : row < later.totalRows
    · rw [settles.resumes.getElem?_bands has_rows inside] at label_at
      exact labels row label beyond label_at
    · exact band_le.trans (settles.labels row label (Nat.le_of_not_lt inside) label_at)
  · intro label below
    exact (settles.ids label (below.trans_le band_le)).trans (ids label below)

/-! ### Padding -/

section Padding

variable {node : Node} {height count missing : ℕ}

/-- A label of a padded statement is one that it had. -/
theorem label_padded {row label : ℕ} :
    (node.padded missing).bands[row]? = some (some label) ↔ node.bands[row]? = some (some label) := by
  rw [padded, getElem?_append]
  split
  case isTrue => exact Iff.rfl
  case isFalse beyond =>
    rw [getElem?_eq_none (Nat.le_of_not_lt beyond), getElem?_replicate]
    split <;> simp

theorem resumes_padded : (node.padded missing).Resumes node := ⟨rfl, prefix_append _ _, prefix_append _ _⟩

theorem Finished.padded (finished : node.Finished height) : (node.padded missing).Finished (height + missing) := by
  obtain ⟨band, labels, spare, gap_free, bands_eq, zeros⟩ := finished.banded
  refine ⟨finished.has_rows.padded missing, band, labels, spare + missing, gap_free, ?_, ?_⟩
  · rw [Node.padded, bands_eq, append_assoc, replicate_append_replicate]
  · rw [Node.padded, drop_append]
    intro row row_mem coefficient coefficient_mem
    rcases mem_append.mp row_mem with of_node | of_padding
    · exact zeros row of_node coefficient coefficient_mem
    · rw [eq_of_mem_replicate (mem_of_mem_drop of_padding)] at coefficient_mem
      exact eq_of_mem_replicate coefficient_mem

theorem Settles.pad {before : Node} {start : BandCounters} {width : ℕ}
    (settles : node.Settles before start width height) (height_le : height ≤ count) :
    (node.padded (count - node.schedule.height)).Settles before start width count := by
  have finished : (node.padded (count - height)).Finished (height + (count - height)) := settles.finished.padded
  rw [Nat.add_sub_cancel' height_le] at finished
  rw [settles.finished.has_rows.height]
  exact ⟨resumes_padded.trans settles.resumes, finished,
    fun row label beyond label_at => settles.labels row label beyond (label_padded.mp label_at), settles.ids, settles.id_le,
    settles.id_lt⟩

end Padding

/-- Padding leaves statements compatible. -/
theorem Compatible.padded {a b : Node} {a_missing b_missing : ℕ} (compatible : a.Compatible b)
    (a_rows : a.HasRows a_height) (b_rows : b.HasRows b_height) : (a.padded a_missing).Compatible (b.padded b_missing) := by
  have has_level {node : Node} {missing level : ℕ} (level_mem : some level ∈ (node.padded missing).bands) :
      some level ∈ node.bands := by
    obtain ⟨row, level_at⟩ := getElem?_of_mem level_mem
    exact mem_of_getElem? (label_padded.mp level_at)
  have flag_eq {node : Node} {missing row label height : ℕ} (has_rows : node.HasRows height)
      (label_at : node.bands[row]? = some (some label)) : (node.padded missing).coincident[row]? = node.coincident[row]? := by
    have inside := (List.getElem?_eq_some_iff.mp label_at).1
    rw [has_rows.bands] at inside
    exact resumes_padded.getElem?_coincident has_rows inside
  intro level ids_eq a_level b_level row label label_le label_at
  have a_label := label_padded.mp label_at
  obtain ⟨b_label, flags_eq⟩ := compatible level ids_eq (has_level a_level) (has_level b_level) row label label_le a_label
  refine ⟨label_padded.mpr b_label, ?_⟩
  rw [flag_eq a_rows a_label, flag_eq b_rows b_label, flags_eq]

end Node

/-- How many identifiers the current band of a graph with so many nodes may be divided into. -/
def Scope.width : Scope → ℕ → ℕ
  | .whole, nodes => nodes
  | .connected, _ => 1

theorem Scope.width_pos {scope : Scope} {nodes : ℕ} (positive : 0 < nodes) : 0 < scope.width nodes := by
  cases scope with
  | whole => exact positive
  | connected => exact Nat.one_pos

namespace Graph

/-! ### All statements of a graph -/

/-- All rows of a graph are there, and its statements are compatible. -/
structure Finishes (scope : Scope) (start final : Graph) : Prop where
  nodes : Forall₂ (fun before after : Node => after.Settles before start.counters
    (scope.width start.nodes.length) final.counters.totalRows) start.nodes final.nodes
  compatible : ∀ a ∈ final.nodes, ∀ b ∈ final.nodes, a.Compatible b

section Finishes

variable {scope : Scope} {middle final : Graph}

/-- What finishes a graph finishes every other one with the same books. -/
theorem Finishes.of_sameBooks (finishes : Finishes scope middle final) (same : middle.SameBooks start) :
    Finishes scope start final := by
  refine ⟨forall₂_trans (fun before between after node_same settles => ?_) same.nodes finishes.nodes, finishes.compatible⟩
  rw [same.counters, ← same.nodes.length_eq] at settles
  have ids_eq := bandId_congr node_same.ids
  refine ⟨settles.resumes.trans node_same.resumes, settles.finished, settles.labels, ?_, ?_, ?_⟩
  · rw [← ids_eq]
    exact settles.ids
  · rw [← ids_eq]
    exact settles.id_le
  · rw [← ids_eq]
    exact settles.id_lt

/-- What finishes a graph in a later band finishes the one it continues. -/
theorem Continues.finishes {inner : Scope} (continues : Continues start middle) (orderly : middle.Orderly)
    (later : start.counters.band < middle.counters.band) (finishes : Finishes inner middle final) :
    Finishes scope start final := by
  refine ⟨continues.nodes.trans_of_mem finishes.nodes ?_, finishes.compatible⟩
  rintro before before_mem between between_mem after _ ⟨resumes, ids⟩ settles
  have ids_eq := bandId_congr ids
  -- The identifier of the band that has been closed is not changed any more.
  have id_eq := settles.ids start.counters.band later
  rw [ids_eq] at id_eq
  refine settles.of_later resumes (orderly.has_rows between between_mem) later.le (continues.labels between between_mem)
    (fun label _ => congrFun ids_eq label) id_eq.ge ?_
  rw [id_eq]
  exact Nat.lt_add_of_pos_right (Scope.width_pos (length_pos_of_mem before_mem))

theorem Continues.finishes_of_uniform (continues : Continues start final) (uniform : final.Uniform) :
    Finishes scope start final := by
  obtain ⟨closed, gap_free, closed_length, bands_eq⟩ := uniform.bands
  have finished : ∀ node ∈ final.nodes, node.Finished final.counters.totalRows := by
    intro node node_mem
    have has_rows := uniform.has_rows node node_mem
    obtain ⟨band, labels, labels_free, labels_eq⟩ : ∃ band labels, GapFree band labels
        ∧ labels = closed ++ List.replicate (final.counters.totalRows - final.counters.bandStart) final.counters.band := by
      rcases Nat.eq_zero_or_pos (final.counters.totalRows - final.counters.bandStart) with none_open | some_open
      · refine ⟨_, closed, gap_free, ?_⟩
        rw [none_open, replicate_zero, append_nil]
      · exact ⟨_, _, gap_free.close some_open, rfl⟩
    refine ⟨has_rows, band, labels, 0, labels_free, ?_, ?_⟩
    · rw [bands_eq node node_mem, labels_eq, replicate_zero, append_nil]
    · have all_banded : node.schedule.rows.length ≤ labels.length := by
        have height_eq : node.schedule.rows.length = final.counters.totalRows := has_rows.height
        have start_le := uniform.start_le
        rw [labels_eq, length_append, length_replicate, closed_length, height_eq]
        omega
      rw [drop_eq_nil_of_le all_banded]
      simp
  refine ⟨continues.nodes.imp_of_mem fun before before_mem after after_mem ⟨resumes, ids⟩ => ?_, ?_⟩
  · have ids_eq := bandId_congr ids
    refine ⟨resumes, finished after after_mem, continues.labels after after_mem, fun label _ => congrFun ids_eq label, ?_, ?_⟩
    · rw [ids_eq]
    · rw [ids_eq]
      exact Nat.lt_add_of_pos_right (Scope.width_pos (length_pos_of_mem before_mem))
  · intro a a_mem b b_mem
    exact .of_same ((bands_eq a a_mem).trans (bands_eq b b_mem).symm) (uniform.flags a a_mem b b_mem)

end Finishes

/-! ### Parts -/

/-- The nodes of a part have all their rows, and are compatible. -/
structure PartFinishes (filter : ComponentFilter) (width : ℕ) (start graph : Graph) : Prop where
  nodes : ∀ (i : ℕ) before after, start.nodes[i]? = some before → graph.nodes[i]? = some after →
    filter.keepsNode before.component = true →
    ∃ height ≤ graph.counters.totalRows, after.Settles before start.counters width height
  compatible : ∀ i j, start.InPart filter i → start.InPart filter j →
    ∀ a b, graph.nodes[i]? = some a → graph.nodes[j]? = some b → a.Compatible b

/-- The nodes of a part are those of the start. -/
def PartKept (filter : ComponentFilter) (start graph : Graph) : Prop :=
  ∀ i, start.InPart filter i → graph.nodes[i]? = start.nodes[i]?

theorem PartFinishes.of_unchanged {width : ℕ} {next : Graph} (finishes : PartFinishes filter width start graph)
    (unchanged : ∀ i, start.InPart filter i → next.nodes[i]? = graph.nodes[i]?)
    (rows_le : graph.counters.totalRows ≤ next.counters.totalRows) : PartFinishes filter width start next := by
  constructor
  · intro i before after before_at after_at keeps
    rw [unchanged i ⟨before, before_at, keeps⟩] at after_at
    obtain ⟨height, height_le, settles⟩ := finishes.nodes i before after before_at after_at keeps
    exact ⟨height, height_le.trans rows_le, settles⟩
  · intro i j i_in j_in a b a_at b_at
    rw [unchanged i i_in] at a_at
    rw [unchanged j j_in] at b_at
    exact finishes.compatible i j i_in j_in a b a_at b_at

/-- A part that is ready to be constructed on its own: it is orderly, and leaves less to do than a bound says. -/
structure PartReady (filter : ComponentFilter) (bound : ℕ) (start : Graph) : Prop where
  orderly : ∀ part : Graph, part.nodes = start.nodes.filter (fun node => filter.keepsNode node.component) →
    part.counters = start.counters → part.Orderly
  within : start.counters.maxRows - start.counters.totalRows
    + (start.nodes.filter fun node => filter.keepsNode node.component).length < bound

/-- The nodes of a part have been given their rows, and the rest of the graph is as it was. -/
structure PartRestored (filter : ComponentFilter) (width : ℕ) (start before after : Graph) : Prop where
  components : SameComponents before.nodes after.nodes
  unchanged : ∀ (i : ℕ) (node : Node), before.nodes[i]? = some node →
    filter.keepsNode node.component = false → after.nodes[i]? = some node
  shares : SharesCounters before after
  finishes : PartFinishes filter width start after

/-- Selecting the nodes of a part that has been kept gives those of the start. -/
theorem PartKept.filter_eq (kept : PartKept filter start graph) (components : SameComponents start.nodes graph.nodes) :
    graph.nodes.filter (fun node => filter.keepsNode node.component)
      = start.nodes.filter fun node => filter.keepsNode node.component := by
  have each : Forall₂ (fun before node : Node => node.component = before.component
      ∧ (filter.keepsNode before.component = true → node = before)) start.nodes graph.nodes := by
    refine forall₂_of_getElem? components.length_eq fun i before node before_at node_at => ⟨?_, fun keeps => ?_⟩
    · exact components.related_at before_at node_at
    · rw [kept i ⟨before, before_at, keeps⟩, before_at] at node_at
      exact (Option.some.inj node_at).symm
  generalize start.nodes = before, graph.nodes = after at each
  induction each with
  | nil => rfl
  | cons head _ ih =>
    rw [filter_cons, filter_cons, head.1, ih]
    split
    case isTrue keeps => rw [head.2 keeps]
    case isFalse => rfl

section

variable {width : ℕ} {before after : Graph} (restored : PartRestored filter width start before after)
  (components : SameComponents start.nodes before.nodes)
  (apart : ∀ component, other.keepsNode component = true → filter.keepsNode component = false)
include restored components apart

theorem PartRestored.getElem?_eq {i : ℕ} (in_other : start.InPart other i) : after.nodes[i]? = before.nodes[i]? := by
  obtain ⟨node, node_at, keeps⟩ := in_other
  obtain ⟨twin, twin_at, component_eq⟩ := components.getElem?_right node_at
  rw [twin_at]
  exact restored.unchanged i twin twin_at (apart _ (component_eq ▸ keeps))

/-- A part that is constructed next to one that has been kept leaves it as it is. -/
theorem PartRestored.kept (kept : PartKept other start before) : PartKept other start after :=
  fun i in_other => (restored.getElem?_eq components apart in_other).trans (kept i in_other)

end

theorem partRestored_of_restore {scope : Scope} {part finished : Graph}
    (components : SameComponents start.nodes graph.nodes) (kept : PartKept filter start graph)
    (counters_eq : graph.counters = start.counters) (extracted : graph.extract filter = .ok part)
    (finishes : Finishes scope part finished) :
    PartRestored filter (scope.width (start.nodes.filter fun node => filter.keepsNode node.component).length) start graph
      { graph.restore finished filter with counters := { graph.counters with
          totalRows := finished.counters.totalRows
          band := finished.counters.band } } := by
  obtain ⟨_, part_counters, part_nodes, _⟩ := extract_ok extracted
  have part_eq := part_nodes.trans (kept.filter_eq components)
  -- A node of the part has the rows of its finished counterpart.
  have found_at : ∀ (i : ℕ) before, start.nodes[i]? = some before → filter.keepsNode before.component = true →
      ∃ found ∈ finished.nodes, (restoreNodes filter graph.nodes finished.nodes)[i]? = some (before.withRowsOf found)
        ∧ found.Settles before part.counters (scope.width part.nodes.length) finished.counters.totalRows := by
    intro i before before_at keeps
    have node_at := (kept i ⟨before, before_at, keeps⟩).trans before_at
    have part_at := getElem?_selectedBefore node_at keeps
    rw [← part_nodes] at part_at
    obtain ⟨found, found_at, settles⟩ := finishes.nodes.getElem?_right part_at
    refine ⟨found, mem_of_getElem? found_at, ?_, settles⟩
    rw [getElem?_restoreNodes, node_at]
    simp [keeps, found_at]
  refine ⟨?_, ?_, rfl, ?_, ?_⟩
  · refine forall₂_of_getElem? (length_restoreNodes filter graph.nodes finished.nodes).symm ?_
    intro i before after before_at after_at
    change (restoreNodes filter graph.nodes finished.nodes)[i]? = some after at after_at
    rw [getElem?_restoreNodes, before_at] at after_at
    obtain rfl := Option.some.inj after_at
    dsimp only
    split
    · cases finished.nodes[selectedBefore filter graph.nodes i]? <;> rfl
    · rfl
  · intro i node node_at drops
    change (restoreNodes filter graph.nodes finished.nodes)[i]? = some node
    rw [getElem?_restoreNodes, node_at]
    simp [drops]
  · intro i before after before_at after_at keeps
    obtain ⟨found, _, restored_at, settles⟩ := found_at i before before_at keeps
    obtain rfl := Option.mem_unique restored_at after_at
    rw [part_counters, counters_eq, part_eq] at settles
    refine ⟨finished.counters.totalRows, le_rfl, ⟨rfl, settles.resumes.bands, settles.resumes.coincident⟩, ?_,
      settles.labels, settles.ids, settles.id_le, settles.id_lt⟩
    exact ⟨⟨settles.finished.has_rows.height, settles.finished.has_rows.bands, settles.finished.has_rows.coincident⟩,
      settles.finished.banded⟩
  · rintro i j ⟨a_before, a_before_at, a_keeps⟩ ⟨b_before, b_before_at, b_keeps⟩ a b a_at b_at
    obtain ⟨a_found, a_mem, a_restored, _⟩ := found_at i a_before a_before_at a_keeps
    obtain ⟨b_found, b_mem, b_restored, _⟩ := found_at j b_before b_before_at b_keeps
    obtain rfl := Option.mem_unique a_restored a_at
    obtain rfl := Option.mem_unique b_restored b_at
    exact finishes.compatible a_found a_mem b_found b_mem

/-! ### Identifiers of parts -/

/-- The nodes have been given identifiers for the current band by their components. -/
structure Identifies (identify : ℕ → ℕ) (ordered labelled : Graph) : Prop where
  nodes : Forall₂ (fun before after : Node => (∃ ids, after = { before with bandIds := ids })
    ∧ after.bandId ordered.counters.band = identify before.component
    ∧ ∀ label, label ≠ ordered.counters.band → after.bandId label = before.bandId label) ordered.nodes labelled.nodes
  counters : labelled.counters = ordered.counters

section Identifies

variable {identify : ℕ → ℕ} {ordered labelled : Graph} (identifies : Identifies identify ordered labelled)
include identifies

theorem Identifies.origin {after : Node} (after_mem : after ∈ labelled.nodes) :
    ∃ before ∈ ordered.nodes, (∃ ids, after = { before with bandIds := ids })
      ∧ after.bandId ordered.counters.band = identify before.component
      ∧ ∀ label, label ≠ ordered.counters.band → after.bandId label = before.bandId label :=
  identifies.nodes.exists_left after_mem

theorem Identifies.components : SameComponents ordered.nodes labelled.nodes := by
  refine identifies.nodes.imp fun before after related => ?_
  obtain ⟨⟨ids, rfl⟩, _⟩ := related
  rfl

theorem Identifies.bandId_eq {node : Node} (node_mem : node ∈ labelled.nodes) :
    node.bandId labelled.counters.band = identify node.component := by
  obtain ⟨before, _, ⟨ids, node_eq⟩, id_eq, _⟩ := identifies.origin node_mem
  rw [identifies.counters, id_eq, congrArg (·.component) node_eq]

/-- New identifiers leave the rest of the books alone. -/
theorem Identifies.books (uniform : ordered.Uniform) : (∀ node ∈ labelled.nodes, node.HasRows labelled.counters.totalRows)
      ∧ ∀ a ∈ labelled.nodes, ∀ b ∈ labelled.nodes, a.bands = b.bands ∧ a.coincident = b.coincident := by
  constructor
  · intro node node_mem
    obtain ⟨before, before_mem, ⟨ids, rfl⟩, _⟩ := identifies.origin node_mem
    have has_rows := uniform.has_rows before before_mem
    rw [identifies.counters]
    exact ⟨has_rows.height, has_rows.bands, has_rows.coincident⟩
  · intro a a_mem b b_mem
    obtain ⟨a_before, a_before_mem, ⟨a_ids, rfl⟩, _⟩ := identifies.origin a_mem
    obtain ⟨b_before, b_before_mem, ⟨b_ids, rfl⟩, _⟩ := identifies.origin b_mem
    obtain ⟨closed, _, _, bands_eq⟩ := uniform.bands
    exact ⟨(bands_eq a_before a_before_mem).trans (bands_eq b_before b_before_mem).symm,
      uniform.flags a_before a_before_mem b_before b_before_mem⟩

/-- A part with one identifier can be constructed on its own. -/
theorem Identifies.partReady {bound : ℕ} (orderly : ordered.Orderly)
    (one_id : ∀ i j, filter.keepsNode i = true → filter.keepsNode j = true → identify i = identify j)
    (within : labelled.counters.maxRows - labelled.counters.totalRows
      + (labelled.nodes.filter fun node => filter.keepsNode node.component).length < bound) : PartReady filter bound labelled := by
  refine ⟨fun part nodes_eq counters_eq => ?_, within⟩
  have part_counters := counters_eq.trans identifies.counters
  have origin : ∀ node ∈ part.nodes, node ∈ labelled.nodes ∧ filter.keepsNode node.component = true
      ∧ ∃ before ∈ ordered.nodes, (∃ ids, node = { before with bandIds := ids })
        ∧ ∀ label, label ≠ ordered.counters.band → node.bandId label = before.bandId label := by
    intro node node_mem
    rw [nodes_eq, mem_filter] at node_mem
    obtain ⟨before, before_mem, node_eq, _, others⟩ := identifies.origin node_mem.1
    exact ⟨node_mem.1, node_mem.2, before, before_mem, node_eq, others⟩
  refine ⟨⟨?_, ?_, ?_, ?_, ?_, ?_, ?_, ?_⟩, ?_⟩
  · rw [part_counters]
    exact orderly.start_le
  · rw [part_counters]
    exact orderly.room
  · intro node node_mem
    obtain ⟨_, _, before, before_mem, ⟨ids, rfl⟩, _⟩ := origin node node_mem
    exact (orderly.framed before before_mem).congr rfl rfl rfl rfl rfl
  · intro node node_mem
    obtain ⟨_, _, before, before_mem, ⟨ids, rfl⟩, _⟩ := origin node node_mem
    rw [part_counters]
    have has_rows := orderly.has_rows before before_mem
    exact ⟨has_rows.height, has_rows.bands, has_rows.coincident⟩
  · obtain ⟨closed, gap_free, length_eq, bands_eq⟩ := orderly.bands
    rw [part_counters]
    refine ⟨closed, gap_free, length_eq, fun node node_mem => ?_⟩
    obtain ⟨_, _, before, before_mem, ⟨ids, rfl⟩, _⟩ := origin node node_mem
    exact bands_eq before before_mem
  · intro a a_mem b b_mem
    obtain ⟨_, _, a_before, a_before_mem, ⟨a_ids, rfl⟩, _⟩ := origin a a_mem
    obtain ⟨_, _, b_before, b_before_mem, ⟨b_ids, rfl⟩, _⟩ := origin b b_mem
    exact orderly.flags a_before a_before_mem b_before b_before_mem
  · intro a a_mem b b_mem
    obtain ⟨a_labelled, a_keeps, a_before, a_before_mem, _, a_others⟩ := origin a a_mem
    obtain ⟨b_labelled, b_keeps, b_before, b_before_mem, _, b_others⟩ := origin b b_mem
    funext label
    by_cases current : label = ordered.counters.band
    · rw [current, ← identifies.counters, identifies.bandId_eq a_labelled, identifies.bandId_eq b_labelled]
      exact one_id _ _ a_keeps b_keeps
    · rw [a_others label current, b_others label current]
      exact congrFun (orderly.ids a_before a_before_mem b_before b_before_mem) label
  · intro node node_mem label beyond
    rw [part_counters] at beyond
    obtain ⟨_, _, before, before_mem, _, others⟩ := origin node node_mem
    rw [others label beyond.ne']
    exact orderly.fresh before before_mem label beyond
  · rw [part_counters]
    exact orderly.band_start

end Identifies

section Padding

variable {padded ordered labelled : Graph} {filters : List ComponentFilter} {width : ComponentFilter → ℕ}
  {identify : ℕ → ℕ} (covered : ∀ node ∈ labelled.nodes, ∃ filter ∈ filters, filter.keepsNode node.component = true)
  (finishes : ∀ filter ∈ filters, PartFinishes filter (width filter) labelled graph)
  (length_eq : labelled.nodes.length = graph.nodes.length)
include covered finishes length_eq

/-- A node is finished in its part. -/
theorem exists_settled {i : ℕ} {node : Node} (node_at : graph.nodes[i]? = some node) :
    ∃ before filter height, labelled.nodes[i]? = some before ∧ filter ∈ filters ∧ filter.keepsNode before.component = true
      ∧ height ≤ graph.counters.totalRows ∧ node.Settles before labelled.counters (width filter) height := by
  have inside : i < labelled.nodes.length := length_eq ▸ (List.getElem?_eq_some_iff.mp node_at).1
  have before_at := getElem?_eq_getElem inside
  obtain ⟨filter, filter_mem, keeps⟩ := covered _ (mem_of_getElem? before_at)
  obtain ⟨height, height_le, settles⟩ := (finishes filter filter_mem).nodes i _ node before_at node_at keeps
  exact ⟨_, filter, height, before_at, filter_mem, keeps, height_le, settles⟩

variable (identifies : Identifies identify ordered labelled) (orderly : ordered.Orderly)
  (apart : ∀ first ∈ filters, ∀ second ∈ filters, first ≠ second → ∀ i j, first.keepsNode i = true →
    second.keepsNode j = true → identify i + width first ≤ identify j ∨ identify j + width second ≤ identify i)
include identifies orderly apart

/-- When the identifiers of different parts are apart, padding leaves all nodes compatible. -/
theorem compatible_of_parts : ∀ a ∈ graph.nodes, ∀ b ∈ graph.nodes, ∀ a_missing b_missing,
    (a.padded a_missing).Compatible (b.padded b_missing) := by
  intro a a_mem b b_mem a_missing b_missing
  obtain ⟨i, a_at⟩ := getElem?_of_mem a_mem
  obtain ⟨j, b_at⟩ := getElem?_of_mem b_mem
  obtain ⟨a_before, first, a_height, a_before_at, first_mem, a_keeps, _, a_settles⟩ := exists_settled covered finishes length_eq a_at
  obtain ⟨b_before, second, b_height, b_before_at, second_mem, b_keeps, _, b_settles⟩ := exists_settled covered finishes length_eq b_at
  refine Node.Compatible.padded ?_ a_settles.finished.has_rows b_settles.finished.has_rows
  by_cases same_part : first = second
  · subst same_part
    exact (finishes first first_mem).compatible i j ⟨a_before, a_before_at, a_keeps⟩ ⟨b_before, b_before_at, b_keeps⟩ a b a_at b_at
  · have a_before_mem := mem_of_getElem? a_before_at
    have b_before_mem := mem_of_getElem? b_before_at
    obtain ⟨has_rows, bands⟩ := identifies.books orderly.toUniform
    obtain ⟨bands_eq, flags_eq⟩ := bands a_before a_before_mem b_before b_before_mem
    refine a_settles.compatible b_settles (has_rows a_before a_before_mem) (has_rows b_before b_before_mem) bands_eq flags_eq ?_
    have disjoint := apart first first_mem second second_mem same_part _ _ a_keeps b_keeps
    rw [← identifies.bandId_eq a_before_mem, ← identifies.bandId_eq b_before_mem] at disjoint
    have a_le := a_settles.id_le
    have a_lt := a_settles.id_lt
    have b_le := b_settles.id_le
    have b_lt := b_settles.id_lt
    omega

/-- Padding finishes a graph when all its parts are finished and their identifiers are apart. -/
theorem Continues.finishes_of_padRows {scope : Scope} (continues : Continues start ordered)
    (granted : ordered.counters.band = start.counters.band → ∀ before ∈ start.nodes, ∀ node ∈ labelled.nodes,
      ∀ filter ∈ filters, filter.keepsNode node.component = true →
      before.bandId start.counters.band ≤ node.bandId start.counters.band ∧ node.bandId start.counters.band + width filter
          ≤ before.bandId start.counters.band + scope.width start.nodes.length) (done : graph.padRows = .ok padded) :
    Finishes scope start padded := by
  obtain rfl := padRows_ok done
  constructor
  case compatible =>
    simp only [forall_mem_map]
    exact fun a a_mem b b_mem => compatible_of_parts covered finishes length_eq identifies orderly apart a a_mem b b_mem _ _
  refine forall₂_of_getElem? ?_ fun i before after before_at after_at => ?_
  · rw [length_map, ← length_eq]
    exact continues.nodes.length_eq.trans identifies.nodes.length_eq
  rw [getElem?_map, Option.map_eq_some_iff] at after_at
  obtain ⟨last, last_at, rfl⟩ := after_at
  obtain ⟨node, filter, height, node_at, filter_mem, keeps, height_le, settles⟩ := exists_settled covered finishes length_eq last_at
  replace settles := settles.pad height_le
  obtain ⟨middle, middle_at, ⟨ids, node_eq⟩, _, others⟩ := identifies.nodes.getElem?_left node_at
  obtain ⟨resumes, first_ids⟩ := continues.nodes.related_at before_at middle_at
  have before_mem := mem_of_getElem? before_at
  have middle_mem := mem_of_getElem? middle_at
  have middle_rows := orderly.has_rows middle middle_mem
  have ids_eq := bandId_congr first_ids
  have bands_eq : node.bands = middle.bands := congrArg (·.bands) node_eq
  rw [identifies.counters] at settles
  have node_resumes : node.Resumes middle := by
    rw [node_eq]
    exact ⟨rfl, prefix_refl _, prefix_refl _⟩
  have node_rows : node.HasRows ordered.counters.totalRows := by
    rw [node_eq]
    exact ⟨middle_rows.height, middle_rows.bands, middle_rows.coincident⟩
  have id_range : before.bandId start.counters.band ≤ last.bandId start.counters.band
      ∧ last.bandId start.counters.band < before.bandId start.counters.band + scope.width start.nodes.length := by
    rcases Nat.eq_or_lt_of_le continues.band_le with same_band | later
    · obtain ⟨enough, bounded⟩ :=
        granted same_band.symm before before_mem node (mem_of_getElem? node_at) filter filter_mem keeps
      rw [same_band] at enough bounded ⊢
      exact ⟨enough.trans settles.id_le, settles.id_lt.trans_le bounded⟩
    · have id_eq : last.bandId start.counters.band = before.bandId start.counters.band :=
        (settles.ids _ later).trans ((others _ later.ne).trans (congrFun ids_eq _))
      rw [id_eq]
      exact ⟨le_rfl, Nat.lt_add_of_pos_right (Scope.width_pos (length_pos_of_mem before_mem))⟩
  refine settles.of_later (node_resumes.trans resumes) node_rows continues.band_le ?_ ?_ id_range.1 id_range.2
  · rw [bands_eq]
    exact continues.labels middle middle_mem
  · intro label below
    rw [others label (below.trans_le continues.band_le).ne, ids_eq]

end Padding

end Graph

end AffineSchedule
