import AffineSchedule.Proofs.Dependence.Growth
import AffineSchedule.Schedule
import Mathlib.LinearAlgebra.Matrix.Rank

namespace AffineSchedule

open Checked List AffineForm

variable {labelAt : ℕ → Option (Option ℕ)}

/-- A point of the iteration space of a statement. -/
structure Instance where
  statement : String
  point : List ℤ
deriving DecidableEq, Repr

/-- A relation contains a pair of instances under values for the parameters, which go by name. Tags and local
    columns may take any values. -/
def Relation.Contains (relation : Relation) (values : String → ℤ) (a b : Instance) : Prop :=
  a.statement = relation.source.name ∧ a.point.length = relation.source.dim
    ∧ b.statement = relation.target.name ∧ b.point.length = relation.target.dim
    ∧ relation.Relates (named relation.params values) (coordinates a.point) (coordinates b.point)

namespace StatementSchedule

/-- The time of a point, row by row and without bounds on the integers. -/
def time (statement : StatementSchedule) (params : ℕ → ℤ) (point : List ℤ) : List ℤ :=
  statement.map.outputs.map (·.value (coordinates point) params)

/-- A row belongs to the band with a given first row. -/
def InBand (statement : StatementSchedule) (row first : ℕ) : Prop :=
  ∃ level < statement.bandCount, statement.bandStart level = first ∧ first ≤ row ∧ row < statement.bandStop level

/-- The coefficients of the iteration dimensions, row by row. -/
def linearPart (statement : StatementSchedule) :
    Matrix (Fin statement.map.outputs.length) (Fin statement.space.dim) ℚ :=
  fun row column => ((statement.map.outputs.get row).coeffs.getD column 0 : ℤ)

end StatementSchedule

/-- The time of an instance, if its statement has a schedule. -/
def Schedule.timeOf (schedule : Schedule) (values : String → ℤ) (a : Instance) : Option (List ℤ) :=
  (schedule.statement? a.statement).map (·.time (named schedule.params values) a.point)

/-! ### Bands -/

namespace BandRun

/-- The runs follow each other from a first row on, and the rows of each have its label. -/
def Label (labelAt : ℕ → Option (Option ℕ)) : ℕ → List BandRun → Prop
  | _, [] => True
  | first, run :: later =>
    (∀ row, first ≤ row → row < run.stop → labelAt row = some (some run.label)) ∧ Label labelAt run.stop later

theorem label_ofLabels {first : ℕ} {labels : List (Option ℕ)} (labels_eq : ∀ row, labelAt (first + row) = labels[row]?) :
    Label labelAt first (ofLabels first labels) := by
  induction labels generalizing first with
  | nil => trivial
  | cons entry later ih =>
    cases entry with
    | none => trivial
    | some label =>
      have here : labelAt first = some (some label) := labels_eq 0
      have rest : Label labelAt (first + 1) (ofLabels (first + 1) later) := by
        refine ih fun row => ?_
        rw [Nat.add_assoc, Nat.add_comm 1 row]
        exact labels_eq (row + 1)
      have only_here : ∀ row, first ≤ row → row < first + 1 → labelAt row = some (some label) := by
        intro row from_first before
        rw [Nat.le_antisymm (Nat.le_of_lt_succ before) from_first]
        exact here
      rw [ofLabels]
      split
      case h_1 => exact ⟨only_here, trivial⟩
      case h_2 next runs later_eq =>
        rw [later_eq] at rest
        split
        case isTrue same_label =>
          refine ⟨fun row from_first before => ?_, rest.2⟩
          rcases Nat.eq_or_lt_of_le from_first with rfl | later_row
          · rw [same_label]
            exact here
          · exact rest.1 row later_row before
        case isFalse => exact ⟨only_here, rest⟩

theorem Label.label_eq {first level row : ℕ} {runs : List BandRun} {run : BandRun} (labelled : Label labelAt first runs)
    (run_at : runs[level]? = some run) (from_start : (first :: runs.map (·.stop)).getD level 0 ≤ row)
    (before_stop : row < run.stop) : labelAt row = some (some run.label) := by
  induction runs generalizing first level with
  | nil => cases run_at
  | cons next later ih =>
    cases level with
    | zero =>
      obtain rfl := Option.some.inj run_at
      exact labelled.1 row from_start before_stop
    | succ level => exact ih labelled.2 run_at from_start

end BandRun

namespace StatementSchedule

theorem bandStart_eq (statement : StatementSchedule) (level : ℕ) :
    statement.bandStart level = (0 :: statement.bandEnds).getD level 0 := by
  cases level <;> rfl

section Labels

variable {statement : StatementSchedule} {bands : List (Option ℕ)}
  (ends_eq : statement.bandEnds = (BandRun.ofLabels 0 bands).map (·.stop)) {row first : ℕ}
include ends_eq

section

variable (in_band : statement.InBand row first)
include in_band

/-- From the first row of a band on, all rows up to one of the band have its label. -/
theorem exists_label_of_inBand : ∃ label, ∀ between, first ≤ between → between ≤ row →
    bands[between]? = some (some label) := by
  obtain ⟨level, level_lt, rfl, from_first, before_stop⟩ := in_band
  have labelled : BandRun.Label (bands[·]?) 0 (BandRun.ofLabels 0 bands) :=
    BandRun.label_ofLabels fun row => by rw [Nat.zero_add]
  have inside : level < (BandRun.ofLabels 0 bands).length := by
    rwa [bandCount, ends_eq, length_map] at level_lt
  have run_at := getElem?_eq_getElem inside
  have stop_eq : statement.bandStop level = ((BandRun.ofLabels 0 bands)[level]).stop := by
    rw [bandStop, ends_eq, getD_eq_getElem?_getD, getElem?_map, run_at]
    rfl
  rw [stop_eq] at before_stop
  refine ⟨_, fun between from_start before => labelled.label_eq run_at ?_ (before.trans_lt before_stop)⟩
  rwa [bandStart_eq, ends_eq] at from_start

/-- A row before the band of another one precedes the first row of that band. -/
theorem lt_of_inBand {earlier : ℕ} (before : BeforeBand bands earlier row) :
    earlier < first := by
  obtain ⟨label, labelled⟩ := exists_label_of_inBand ends_eq in_band
  obtain ⟨_, _, _, from_first, _⟩ := in_band
  obtain ⟨between, earlier_le, between_lt, different⟩ := before
  by_contra not_before
  have between_label := labelled between ((Nat.le_of_not_lt not_before).trans earlier_le) between_lt.le
  exact different (between_label.trans (labelled row from_first le_rfl).symm)

theorem exists_common_label {other : ℕ} (other_in : statement.InBand other first) :
    ∃ label, bands[row]? = some (some label) ∧ bands[other]? = some (some label) := by
  obtain ⟨label, labelled⟩ := exists_label_of_inBand ends_eq in_band
  obtain ⟨other_label, other_labelled⟩ := exists_label_of_inBand ends_eq other_in
  obtain ⟨_, _, _, row_from, _⟩ := in_band
  obtain ⟨_, _, _, other_from, _⟩ := other_in
  have label_eq := (labelled first le_rfl row_from).symm.trans (other_labelled first le_rfl other_from)
  exact ⟨label, labelled row row_from le_rfl, label_eq ▸ other_labelled other other_from le_rfl⟩

end

end Labels

/-- The schedule of a statement shows the rows, bands and flags of a node. -/
structure Shows (statement : StatementSchedule) (node : Node) : Prop where
  space : statement.space = node.space
  map_space : statement.map.space = node.space
  coincident : statement.coincident = node.coincident
  bandEnds : statement.bandEnds = (BandRun.ofLabels 0 node.bands).map (·.stop)
  outputs : Forall₂ (fun row form => AffineForm.ofRow row node.space.params = .ok form) node.schedule.rows
    statement.map.outputs
  linear : statement.map.outputs.map (·.coeffs) = node.linearRows
  time : ∀ params point, statement.time params point
    = node.schedule.rows.map (rowValue · node.space.params (coordinates point) params)

theorem shows_of_ofNode {node : Node} {statement : StatementSchedule} (done : ofNode node = .ok statement) :
    statement.Shows node := by
  simp only [ofNode, TimeMap.ofMatrix, bind_ok, pure_ok, mapM_ok] at done
  obtain ⟨_, ⟨outputs, each, rfl⟩, rfl⟩ := done
  refine ⟨rfl, rfl, rfl, rfl, each, ?_, fun params point => ?_⟩
  · exact (each.map_eq fun _ _ made => (coeffs_ofRow made).symm).symm
  · exact (each.map_eq fun _ _ made =>
      (value_ofRow made (coordinates point) params).2.symm).symm

section Shown

variable {statement : StatementSchedule} {node : Node} (shows : statement.Shows node)
include shows

theorem Shows.getD_time (params : ℕ → ℤ) (point : List ℤ) (row : ℕ) :
    (statement.time params point).getD row 0 = node.timeAt row params (coordinates point) := by
  have zero_eq : rowValue [] node.space.params (coordinates point) params = 0 := by simp [rowValue]
  rw [shows.time, Node.timeAt, ← zero_eq, getD_map]

theorem Shows.length_time {count : ℕ} (has_rows : node.HasRows count) (params : ℕ → ℤ) (point : List ℤ) :
    (statement.time params point).length = count := by
  rw [shows.time, length_map]
  exact has_rows.height

theorem Shows.rank_linearPart (spans : node.Spans) : statement.linearPart.rank = statement.space.dim := by
  have rows_eq : Set.range statement.linearPart.row
      = {vector | ∃ row ∈ node.linearRows, rowVector statement.space.dim row = vector} := by
    rw [← shows.linear]
    ext vector
    constructor
    · rintro ⟨index, rfl⟩
      exact ⟨_, mem_map_of_mem (get_mem _ index), rfl⟩
    · rintro ⟨_, row_mem, rfl⟩
      obtain ⟨form, form_mem, rfl⟩ := mem_map.mp row_mem
      obtain ⟨index, rfl⟩ := get_of_mem form_mem
      exact ⟨index, rfl⟩
  have full : rowSpace statement.space.dim node.linearRows = ⊤ := by
    rw [shows.space]
    exact spans
  rw [Matrix.rank_eq_finrank_span_row, rows_eq]
  change Module.finrank ℚ (rowSpace statement.space.dim node.linearRows) = _
  rw [full, finrank_top, Module.finrank_fin_fun]

/-- Rows that span the dimensions give different points different times. -/
theorem Shows.point_eq_of_time_eq {paramCount : ℕ} (laid_out : node.LaidOut paramCount) (spans : node.Spans)
    {params : ℕ → ℤ} {x y : List ℤ} (x_length : x.length = statement.space.dim)
    (y_length : y.length = statement.space.dim) (times_eq : statement.time params x = statement.time params y) : x = y := by
  rw [shows.time, shows.time, map_inj_left] at times_eq
  have vanishes : ∀ linear ∈ node.linearRows,
      ∑ j ∈ Finset.range node.space.dim, linear.getD j 0 * (coordinates x j - coordinates y j) = 0 := by
    intro linear linear_mem
    obtain ⟨row, row_mem, rfl⟩ := mem_map.mp linear_mem
    have length_eq : (row.drop (1 + node.space.params)).length = node.space.dim := by
      rw [length_drop, node.schedule.uniform row row_mem, laid_out.cols, laid_out.params]
      omega
    have values_eq := times_eq row row_mem
    rw [← length_eq, ← dot_eq_sum, dot_sub]
    unfold rowValue at values_eq
    linarith
  refine ext_getElem (x_length.trans y_length.symm) fun k x_inside y_inside => ?_
  have inside : k < node.space.dim := by rwa [← shows.space, ← x_length]
  have zero : coordinates x k - coordinates y k = 0 := eq_zero_of_rowSpace_eq_top spans vanishes inside
  rw [coordinates, coordinates, getD_eq_getElem _ _ x_inside, getD_eq_getElem _ _ y_inside] at zero
  exact sub_eq_zero.mp zero

end Shown

end StatementSchedule

end AffineSchedule
