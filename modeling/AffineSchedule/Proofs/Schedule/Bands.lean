import AffineSchedule.Proofs.Construction.Termination
import AffineSchedule.Proofs.Schedule.Problem

namespace AffineSchedule

open Checked List

variable {labels : List ℕ} {level : ℕ} {node : Node} {label paramCount row rows : ℕ} {schedule : Schedule}
  {options : Options} {start : Graph}

/-! ### Labels -/

/-- The rows of ascending labels below a level come first. -/
theorem lt_countP_iff (ascending : labels.Pairwise (· ≤ ·)) (label_at : labels[row]? = some label) :
    row < labels.countP (· < level) ↔ label < level := by
  induction labels generalizing row with
  | nil => cases label_at
  | cons first later ih =>
    obtain ⟨first_le, later_ascending⟩ := pairwise_cons.mp ascending
    by_cases below : first < level
    · rw [countP_cons_of_pos (by simpa using below)]
      cases row with
      | zero =>
        obtain rfl := Option.some.inj label_at
        simp [below]
      | succ row => rw [Nat.succ_lt_succ_iff, ih later_ascending label_at]
    · have from_first : ∀ other ∈ first :: later, first ≤ other := by
        intro other other_mem
        rcases mem_cons.mp other_mem with rfl | in_later
        · exact le_rfl
        · exact first_le other in_later
      have none_below : (first :: later).countP (· < level) = 0 := by
        rw [countP_eq_zero]
        intro other other_mem
        simpa using (Nat.le_of_not_lt below).trans (from_first other other_mem)
      have label_ge := from_first label (mem_of_getElem? label_at)
      rw [none_below]
      omega

namespace BandRun

theorem ofLabels_eq_map (ascending : labels.Pairwise (· ≤ ·)) {first last : ℕ}
    (mem_iff : ∀ label, label ∈ labels ↔ first ≤ label ∧ label < last) (row missing : ℕ) :
    ofLabels row (labels.map some ++ List.replicate missing none)
      = (List.range' first (last - first)).map fun label => ⟨label, row + labels.countP (· < label + 1)⟩ := by
  induction labels generalizing row first with
  | nil =>
    have none_between : last - first = 0 := by
      by_contra some_between
      exact absurd ((mem_iff first).mpr ⟨le_rfl, by omega⟩) not_mem_nil
    rw [none_between]
    cases missing <;> rfl
  | cons label later ih =>
    obtain ⟨label_le, later_ascending⟩ := pairwise_cons.mp ascending
    obtain ⟨from_first, label_lt⟩ := (mem_iff label).mp mem_cons_self
    have first_lt := from_first.trans_lt label_lt
    have label_eq : label = first := by
      rcases mem_cons.mp ((mem_iff first).mpr ⟨le_rfl, first_lt⟩) with first_eq | in_later
      · exact first_eq.symm
      · exact le_antisymm (label_le first in_later) from_first
    subst label_eq
    have count_eq : ∀ other, label ≤ other →
        row + (label :: later).countP (· < other + 1) = row + 1 + later.countP (· < other + 1) := by
      intro other other_ge
      have counted : label < other + 1 := Nat.lt_succ_of_le other_ge
      rw [countP_cons_of_pos (by simpa using counted), Nat.add_right_comm, Nat.add_assoc]
    -- The runs behind the first row begin with the same label if it comes again, and with the next one otherwise.
    have range_eq : List.range' label (last - label) = label :: List.range' (label + 1) (last - (label + 1)) := by
      have length_eq : last - label = last - (label + 1) + 1 := by omega
      rw [length_eq, range'_succ]
    have mapped_eq : (List.range' label (last - label)).map
        (fun other => (⟨other, row + (label :: later).countP (· < other + 1)⟩ : BandRun))
        = (List.range' label (last - label)).map fun other => ⟨other, row + 1 + later.countP (· < other + 1)⟩ := by
      apply map_congr_left
      intro other other_mem
      rw [count_eq other (mem_range'_1.mp other_mem).1]
    rw [map_cons, cons_append, ofLabels, mapped_eq]
    by_cases again : label ∈ later
    · have later_iff : ∀ other, other ∈ later ↔ label ≤ other ∧ other < last := by
        intro other
        rw [← mem_iff, mem_cons, or_iff_right_of_imp]
        rintro rfl
        exact again
      rw [ih later_ascending later_iff, range_eq, map_cons]
      simp
    · have later_iff : ∀ other, other ∈ later ↔ label + 1 ≤ other ∧ other < last := by
        intro other
        have other_iff := mem_iff other
        rw [mem_cons] at other_iff
        constructor
        · intro in_later
          have apart : other ≠ label := fun same => again (same ▸ in_later)
          have bounds := other_iff.mp (Or.inr in_later)
          omega
        · rintro ⟨other_ge, other_lt⟩
          exact (other_iff.mpr ⟨by omega, other_lt⟩).resolve_left (by omega)
      have none_again : later.countP (· < label + 1) = 0 := by
        rw [countP_eq_zero]
        intro other other_mem
        have other_ge := ((later_iff other).mp other_mem).1
        simp only [decide_eq_true_eq]
        omega
      rw [ih later_ascending later_iff, range_eq, map_cons, none_again]
      rcases Nat.eq_zero_or_pos (last - (label + 1)) with no_more | some_more
      · rw [no_more]
        rfl
      · obtain ⟨more, more_eq⟩ := Nat.exists_eq_succ_of_ne_zero some_more.ne'
        rw [more_eq, range'_succ, map_cons]
        simp

end BandRun

namespace Node

/-- The rows of a node are labelled without gaps up to a band, and then not at all. -/
structure Labelled (node : Node) (band : ℕ) (labels : List ℕ) : Prop where
  gap_free : GapFree band labels
  bands : ∃ missing, node.bands = labels.map some ++ List.replicate missing none

theorem Finished.labelled (finished : node.Finished rows) : ∃ band labels, node.Labelled band labels
      ∧ ∀ row ∈ node.schedule.rows.drop labels.length, ∀ coefficient ∈ row, coefficient = 0 := by
  obtain ⟨band, labels, missing, gap_free, bands_eq, zeros⟩ := finished.banded
  exact ⟨band, labels, ⟨gap_free, missing, bands_eq⟩, zeros⟩

theorem Labelled.getElem?_bands_iff {band : ℕ} (labelled : node.Labelled band labels) :
    node.bands[row]? = some (some label) ↔ labels[row]? = some label := by
  obtain ⟨missing, bands_eq⟩ := labelled.bands
  rw [bands_eq, getElem?_append, length_map]
  split
  case isTrue => simp
  case isFalse beyond =>
    rw [getElem?_eq_none (Nat.le_of_not_lt beyond), getElem?_replicate]
    split <;> simp

theorem Labelled.mem_bands {band : ℕ} (labelled : node.Labelled band labels) (inside : label < band) :
    some label ∈ node.bands := by
  obtain ⟨missing, bands_eq⟩ := labelled.bands
  rw [bands_eq]
  exact mem_append_left _ (mem_map_of_mem ((labelled.gap_free.mem_iff label).mpr inside))

theorem Compatible.row_of_labelled {a b : Node} (compatible : a.Compatible b) {a_band b_band : ℕ}
    {a_labels b_labels : List ℕ} (a_labelled : a.Labelled a_band a_labels) (b_labelled : b.Labelled b_band b_labels)
    (a_inside : level < a_band) (b_inside : level < b_band) (ids_eq : ∀ label ≤ level, a.bandId label = b.bandId label)
    (row : ℕ) (before : row < a_labels.countP (· < level + 1)) :
    row < b_labels.countP (· < level + 1) ∧ a.coincident[row]? = b.coincident[row]? := by
  obtain ⟨label, label_at⟩ : ∃ label, a_labels[row]? = some label :=
    ⟨_, getElem?_eq_getElem (before.trans_le countP_le_length)⟩
  have label_lt := (lt_countP_iff a_labelled.gap_free.ascending label_at).mp before
  obtain ⟨b_label, flags_eq⟩ := compatible level ids_eq (a_labelled.mem_bands a_inside) (b_labelled.mem_bands b_inside)
    row label (Nat.le_of_lt_succ label_lt) (a_labelled.getElem?_bands_iff.mpr label_at)
  have b_label_at := b_labelled.getElem?_bands_iff.mp b_label
  exact ⟨(lt_countP_iff b_labelled.gap_free.ascending b_label_at).mpr label_lt, flags_eq⟩

end Node

namespace StatementSchedule

/-! ### One statement -/

/-- The bands of a statement have rows, and lie before the given number of rows, with a flag and an output for each. The
    outputs behind the last band are zero. -/
structure Banded (statement : StatementSchedule) (rows : ℕ) : Prop where
  ids : statement.bandIds.length = statement.bandCount
  nonempty : ∀ level < statement.bandCount, statement.bandStart level < statement.bandStop level
  stop_le : ∀ level, statement.bandStop level ≤ rows
  flags : statement.coincident.length = rows
  outputs : statement.map.outputs.length = rows
  padding : ∀ form ∈ statement.map.outputs.drop (statement.bandStart statement.bandCount),
    form = AffineForm.zero statement.map.space.dim statement.map.space.params

/-- Statements with the same identifiers up to a band that both have share the rows and the flags of this band. -/
def Shares (a b : StatementSchedule) : Prop :=
  ∀ level < a.bandCount, level < b.bandCount → (∀ earlier ≤ level, a.bandIds[earlier]? = b.bandIds[earlier]?) →
    a.bandStop level = b.bandStop level
      ∧ a.coincident.take (a.bandStop level) = b.coincident.take (b.bandStop level)

theorem bandStart_succ (statement : StatementSchedule) (level : ℕ) :
    statement.bandStart (level + 1) = statement.bandStop level := rfl

theorem bandStart_bandCount (statement : StatementSchedule) :
    statement.bandStart statement.bandCount = statement.bandEnds.getLastD 0 := by
  rw [bandStart_eq, bandCount, getLastD_eq_getLast?, getLast?_eq_getElem?]
  cases ends_eq : statement.bandEnds with
  | nil => rfl
  | cons first later => simp [getD_eq_getElem?_getD]

/-- A statement has one band for each label of its node, of the rows with this label. -/
structure Divides (statement : StatementSchedule) (node : Node) (band : ℕ) (labels : List ℕ) : Prop where
  ends : statement.bandEnds = (List.range band).map fun level => labels.countP (· < level + 1)
  ids : statement.bandIds = (List.range band).map node.bandId

theorem divides_of_ofNode {statement : StatementSchedule} (made : ofNode node = .ok statement) {band : ℕ}
    (labelled : node.Labelled band labels) : statement.Divides node band labels := by
  obtain ⟨gap_free, missing, bands_eq⟩ := labelled
  have mem_iff : ∀ label, label ∈ labels ↔ 0 ≤ label ∧ label < band := by
    intro label
    rw [gap_free.mem_iff, and_iff_right (Nat.zero_le label)]
  have runs_eq := BandRun.ofLabels_eq_map gap_free.ascending mem_iff 0 missing
  simp only [ofNode, TimeMap.ofMatrix, bind_ok, pure_ok] at made
  obtain ⟨_, _, rfl⟩ := made
  rw [bands_eq, runs_eq, Nat.sub_zero, ← range_eq_range']
  constructor
  · simp [Function.comp_def]
  · simp [Function.comp_def, Node.bandId]

section Divides

variable {statement : StatementSchedule} {band : ℕ} (divides : statement.Divides node band labels)
include divides

theorem Divides.bandCount_eq : statement.bandCount = band := by
  rw [bandCount, divides.ends, length_map, length_range]

theorem Divides.bandStop_eq (inside : level < band) : statement.bandStop level = labels.countP (· < level + 1) := by
  rw [bandStop, divides.ends, getD_eq_getElem?_getD, getElem?_map, getElem?_range inside]
  rfl

theorem Divides.bandStop_le (level : ℕ) : statement.bandStop level ≤ labels.length := by
  rcases lt_or_ge level band with inside | beyond
  · rw [divides.bandStop_eq inside]
    exact countP_le_length
  · have no_end : statement.bandStop level = 0 := by
      rw [bandStop, getD_eq_getElem?_getD, getElem?_eq_none]
      · rfl
      · rw [divides.ends, length_map, length_range]
        exact beyond
    rw [no_end]
    exact Nat.zero_le _

theorem Divides.bandStart_eq_countP (inside : level ≤ band) : statement.bandStart level = labels.countP (· < level) := by
  cases level with
  | zero => simp [bandStart]
  | succ level =>
    rw [bandStart_succ, divides.bandStop_eq inside]

theorem Divides.getElem?_bandIds (inside : level < band) : statement.bandIds[level]? = some (node.bandId level) := by
  rw [divides.ids, getElem?_map, getElem?_range inside]
  rfl

end Divides

theorem form_eq_zero {row : List ℤ} {params dim : ℕ} {form : AffineForm} (made : AffineForm.ofRow row params = .ok form)
    (length_eq : row.length = 1 + params + dim) (zeros : ∀ coefficient ∈ row, coefficient = 0) :
    form = AffineForm.zero dim params := by
  have row_eq : row = List.replicate (1 + params + dim) 0 := eq_replicate_iff.mpr ⟨length_eq, zeros⟩
  obtain ⟨_, rfl⟩ := AffineForm.ofRow_ok made
  have split_eq : 1 + params + dim = params + dim + 1 := by omega
  rw [row_eq, split_eq]
  simp [AffineForm.zero, AffineForm.constantly, replicate_succ, Nat.add_comm 1 params]

theorem banded_of_ofNode {statement : StatementSchedule} (made : ofNode node = .ok statement) (finished : node.Finished rows)
    (laid_out : node.LaidOut paramCount) : statement.Banded rows := by
  have shows := shows_of_ofNode made
  have has_rows := finished.has_rows
  obtain ⟨band, labels, labelled, zeros⟩ := finished.labelled
  have divides := divides_of_ofNode made labelled
  have gap_free := labelled.gap_free
  have labels_le : labels.length ≤ rows := by
    obtain ⟨missing, bands_eq⟩ := labelled.bands
    rw [← has_rows.bands, bands_eq, length_append, length_map]
    exact Nat.le_add_right _ _
  refine ⟨?_, ?_, fun level => (divides.bandStop_le level).trans labels_le, ?_, ?_, ?_⟩
  · rw [divides.ids, length_map, length_range, divides.bandCount_eq]
  · intro level inside
    rw [divides.bandCount_eq] at inside
    rw [divides.bandStart_eq_countP inside.le, divides.bandStop_eq inside]
    obtain ⟨row, label_at⟩ := getElem?_of_mem ((gap_free.mem_iff level).mpr inside)
    have behind_start := (lt_countP_iff gap_free.ascending label_at).not.mpr (Nat.lt_irrefl level)
    have before_stop := (lt_countP_iff gap_free.ascending label_at).mpr (Nat.lt_succ_self level)
    exact (Nat.le_of_not_lt behind_start).trans_lt before_stop
  · rw [shows.coincident, has_rows.coincident]
  · exact shows.outputs.length_eq.symm.trans has_rows.height
  · have last_eq : statement.bandStart statement.bandCount = labels.length := by
      rw [divides.bandCount_eq, divides.bandStart_eq_countP le_rfl, countP_eq_length]
      intro label label_mem
      simpa using (gap_free.mem_iff label).mp label_mem
    intro form form_mem
    rw [last_eq] at form_mem
    obtain ⟨row, row_mem, made⟩ := (forall₂_drop labels.length shows.outputs).exists_left form_mem
    rw [shows.map_space]
    refine form_eq_zero made ?_ (zeros row row_mem)
    rw [node.schedule.uniform row (mem_of_mem_drop row_mem), laid_out.cols, laid_out.params]

theorem shares_of_ofNode {a_node b_node : Node} {a b : StatementSchedule} (a_made : ofNode a_node = .ok a)
    (b_made : ofNode b_node = .ok b) (a_finished : a_node.Finished rows) (b_finished : b_node.Finished rows)
    (compatible : a_node.Compatible b_node) (converse : b_node.Compatible a_node) : a.Shares b := by
  obtain ⟨a_band, a_labels, a_labelled, _⟩ := a_finished.labelled
  obtain ⟨b_band, b_labels, b_labelled, _⟩ := b_finished.labelled
  have a_divides := divides_of_ofNode a_made a_labelled
  have b_divides := divides_of_ofNode b_made b_labelled
  intro level a_inside b_inside same_ids
  rw [a_divides.bandCount_eq] at a_inside
  rw [b_divides.bandCount_eq] at b_inside
  have ids_eq : ∀ label ≤ level, a_node.bandId label = b_node.bandId label := by
    intro label label_le
    have same_id := same_ids label label_le
    rw [a_divides.getElem?_bandIds (label_le.trans_lt a_inside), b_divides.getElem?_bandIds (label_le.trans_lt b_inside)]
      at same_id
    exact Option.some.inj same_id
  have common := compatible.row_of_labelled a_labelled b_labelled a_inside b_inside ids_eq
  have common_converse := converse.row_of_labelled b_labelled a_labelled b_inside a_inside
    fun label label_le => (ids_eq label label_le).symm
  have stop_eq : a.bandStop level = b.bandStop level := by
    rw [a_divides.bandStop_eq a_inside, b_divides.bandStop_eq b_inside]
    exact le_antisymm (le_of_forall_lt fun row before => (common row before).1)
      (le_of_forall_lt fun row before => (common_converse row before).1)
  refine ⟨stop_eq, ?_⟩
  rw [← stop_eq, (shows_of_ofNode a_made).coincident, (shows_of_ofNode b_made).coincident]
  refine ext_getElem? fun row => ?_
  rw [getElem?_take, getElem?_take]
  split
  case isFalse => rfl
  case isTrue before_stop =>
    rw [a_divides.bandStop_eq a_inside] at before_stop
    exact (common row before_stop).2

end StatementSchedule

/-! ### All statements -/

/-- The statements of a schedule have their bands within its rows, and share those with the same identifiers. -/
structure Schedule.Banded (schedule : Schedule) : Prop where
  statements : ∀ statement ∈ schedule.statements, statement.Banded schedule.totalRows
  shares : ∀ a ∈ schedule.statements, ∀ b ∈ schedule.statements, a.Shares b

theorem Schedule.banded_of_ofGraph {scope : Scope} {final : Graph}
    (finishes : Graph.Finishes scope start final) (laid_out : ∀ node ∈ final.nodes, node.LaidOut paramCount)
    (done : ofGraph final = .ok schedule) : schedule.Banded := by
  simp only [ofGraph, bind_ok, pure_ok, mapM_ok] at done
  obtain ⟨statements, each, rfl⟩ := done
  have finished : ∀ node ∈ final.nodes, node.Finished final.counters.totalRows := by
    intro node node_mem
    obtain ⟨_, _, settles⟩ := finishes.nodes.exists_left node_mem
    exact settles.finished
  constructor
  · intro statement statement_mem
    obtain ⟨node, node_mem, made⟩ := each.exists_left statement_mem
    exact StatementSchedule.banded_of_ofNode made (finished node node_mem) (laid_out node node_mem)
  · intro a a_mem b b_mem
    obtain ⟨a_node, a_node_mem, a_made⟩ := each.exists_left a_mem
    obtain ⟨b_node, b_node_mem, b_made⟩ := each.exists_left b_mem
    exact StatementSchedule.shares_of_ofNode a_made b_made (finished a_node a_node_mem) (finished b_node b_node_mem)
      (finishes.compatible a_node a_node_mem b_node b_node_mem) (finishes.compatible b_node b_node_mem a_node a_node_mem)

namespace SchedulingProblem

/-- The construction of the graph of a problem finishes it. -/
theorem finishes_of_graph {aligned : SchedulingProblem} (start_ok : aligned.graph = .ok start) {finished : Construction}
    (finished_ok : start.schedule options = .ok finished) : Graph.Finishes .whole start finished.graph := by
  exact (construct_ends options start.nesting .whole ⟨start, ConeCache.empty⟩ (Graph.orderly_of_build start_ok)
    (Graph.tabled_of_build start_ok) start.allowance_lt_nesting).result finished finished_ok

/-- Every computed schedule has its rows in bands. -/
theorem banded_of_schedule {problem : SchedulingProblem} (done : problem.schedule options = .ok schedule) : schedule.Banded := by
  obtain ⟨_, _, ⟨_, no_statement⟩ | ⟨_, start, finished, start_ok, finished_ok, shown, _, solved⟩⟩ := graph_of_schedule done
  · exact ⟨by simp [no_statement], by simp [no_statement]⟩
  · exact Schedule.banded_of_ofGraph (finishes_of_graph start_ok finished_ok) solved.laid_out shown

end SchedulingProblem

end AffineSchedule
