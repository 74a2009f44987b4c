import AffineSchedule.Proofs.Construction.RowLimit
import AffineSchedule.Proofs.Schedule.Contracts
import AffineSchedule.Proofs.Schedule.Forest

namespace AffineSchedule

open Checked List

variable {band : Band}

/-! ### Suffixes -/

theorem TimeMap.between_append {map : TimeMap} {start middle stop : ℕ} (start_le : start ≤ middle) (middle_le : middle ≤ stop)
    (within : stop ≤ map.outputs.length) :
    (map.between start middle).append (map.between middle stop) = map.between start stop := by
  have outputs_eq : (map.outputs.take middle).drop start ++ (map.outputs.take stop).drop middle
      = (map.outputs.take stop).drop start := by
    have split_eq : map.outputs.take stop = map.outputs.take middle ++ (map.outputs.take stop).drop middle := by
      have halves := (take_append_drop middle (map.outputs.take stop)).symm
      rwa [take_take, Nat.min_eq_left middle_le] at halves
    have start_within : start ≤ (map.outputs.take middle).length := by
      rw [length_take]
      omega
    rw [split_eq, drop_append_of_le_length start_within, ← split_eq]
  rw [TimeMap.append, between, between, between]
  exact congrArg (TimeMap.mk map.space) outputs_eq

namespace Band

section Suffixes

variable {schedule : Schedule} (banded : schedule.Banded) {member : ℕ}

theorem suffixOf_eq_none (not_member : member ∉ band.rows.members) : suffixOf member band = none := by
  cases band with
  | node rows children =>
    have not_found : rows.mapOf member = none := mapOf_eq_none not_member
    rw [suffixOf, not_found]

/-- If all bands with a member give it the same suffix, this is what is found among them. -/
theorem suffixAmong_eq {bands : List Band} {suffix : TimeMap}
    (each : ∀ band ∈ bands, member ∈ band.rows.members → suffixOf member band = some suffix)
    (found : ∃ band ∈ bands, member ∈ band.rows.members) : suffixAmong member bands = some suffix := by
  induction bands with
  | nil =>
    obtain ⟨_, impossible, _⟩ := found
    cases impossible
  | cons band later ih =>
    obtain ⟨band_each, later_each⟩ := forall_mem_cons.mp each
    rw [suffixAmong]
    by_cases is_member : member ∈ band.rows.members
    · rw [band_each is_member]
    · obtain ⟨other, other_mem, other_member⟩ := found
      have in_later : other ∈ later := by
        refine (mem_cons.mp other_mem).resolve_left fun same => ?_
        exact is_member (same ▸ other_member)
      rw [suffixOf_eq_none is_member]
      exact ih later_each ⟨other, in_later, other_member⟩

include banded

theorem suffixOf_eq {level : ℕ} (down : FitsDown schedule.statements level band) (is_member : member ∈ band.rows.members) :
    suffixOf member band = some ((memberAt schedule.statements member).map.between band.rows.start
      ((memberAt schedule.statements member).bandStart (memberAt schedule.statements member).bandCount)) := by
  induction down with
  | @intro level band fits children ih =>
    have statement_banded := banded.statements _ (memberAt_mem (fits.inside member is_member))
    have shows_at := fits.shows_at member is_member
    obtain ⟨rows, nested⟩ := band
    rw [suffixOf, show rows.mapOf member = _ from shows_at.map]
    dsimp only
    by_cases no_children : nested = []
    · subst no_children
      have count_le := fits.last rfl member is_member
      have stop_eq : (memberAt schedule.statements member).bandStart (memberAt schedule.statements member).bandCount
          = rows.stop := by
        cases is_placeholder : rows.isPlaceholder with
        | true =>
          have no_rows : rows.length = 0 := of_decide_eq_true is_placeholder
          rw [shows_at.finished is_placeholder, shows_at.start]
          exact (congrArg (rows.start + ·) no_rows).symm
        | false =>
          obtain ⟨level_lt, stop_eq, _⟩ := shows_at.continues is_placeholder
          have count_eq := le_antisymm count_le level_lt
          rw [count_eq, StatementSchedule.bandStart_succ, stop_eq]
          rfl
      rw [stop_eq]
      rfl
    · have parts := fits.parts no_children
      obtain ⟨child, child_mem, child_member⟩ := (parts.covers member).mp is_member
      have child_shows := (children child child_mem).fits.shows_at member child_member
      have suffix_eq := suffixAmong_eq (fun other other_mem other_member => by
          rw [ih other other_mem other_member, fits.starts other other_mem]) ⟨child, child_mem, child_member⟩
      have stop_le := statement_banded.bandStart_mono child_shows.level_le le_rfl
      rw [child_shows.start, fits.starts child child_mem] at stop_le
      have within := statement_banded.bandStart_le (memberAt schedule.statements member).bandCount
      rw [← statement_banded.outputs] at within
      rw [show suffixAmong member nested = _ from suffix_eq]
      dsimp only
      have start_le : (node rows nested).rows.start ≤ (node rows nested).rows.stop := Nat.le_add_right _ _
      rw [TimeMap.between_append start_le stop_le within]

end Suffixes

end Band

/-! ### Padding -/

/-- There can be lists as long as the statement has rows, dimensions and parameters. -/
structure StatementSchedule.Roomy (statement : StatementSchedule) (rows : ℕ) : Prop where
  rows_lt : rows < Size.unreachable
  dim_lt : statement.map.space.dim < Size.unreachable
  params_lt : statement.map.space.params < Size.unreachable

section Padding

variable {statement : StatementSchedule} {rows : ℕ} (banded : statement.Banded rows)
include banded

theorem StatementSchedule.Banded.padded_between (roomy : statement.Roomy rows) :
    (statement.map.between 0 (statement.bandStart statement.bandCount)).padded rows = .ok statement.map := by
  have last_le := banded.bandStart_le statement.bandCount
  generalize last_eq : statement.bandStart statement.bandCount = last at last_le
  have outputs_eq : (statement.map.between 0 last).outputs = statement.map.outputs.take last := rfl
  have length_eq : (statement.map.between 0 last).outputs.length = last := by
    rw [outputs_eq, length_take, banded.outputs, Nat.min_eq_left last_le]
  have padding_eq : statement.map.outputs.drop last
      = List.replicate (rows - last) (AffineForm.zero statement.map.space.dim statement.map.space.params) := by
    rw [eq_replicate_iff, length_drop, banded.outputs]
    exact ⟨rfl, last_eq ▸ banded.padding⟩
  rw [TimeMap.padded, length_eq]
  split
  case isTrue all_banded =>
    have whole : statement.map.outputs.take last = statement.map.outputs :=
      take_of_length_le (banded.outputs.le.trans all_banded)
    rw [TimeMap.between, whole]
    rfl
  case isFalse =>
    have zero_ok : Size.makeWith AffineForm.zero statement.map.space.dim statement.map.space.params
        = .ok (AffineForm.zero statement.map.space.dim statement.map.space.params) :=
      bind_ok.mpr ⟨(), Size.reserve_ok_iff.mpr roomy.dim_lt,
        bind_ok.mpr ⟨(), Size.reserve_ok_iff.mpr roomy.params_lt, rfl⟩⟩
    refine bind_ok.mpr ⟨_, zero_ok, bind_ok.mpr
      ⟨(), Size.reserve_ok_iff.mpr roomy.rows_lt, pure_ok.mpr ?_⟩⟩
    rw [outputs_eq, ← padding_eq, take_append_drop]
    rfl

end Padding

/-! ### Results -/

namespace SchedulingProblem

variable {problem : SchedulingProblem} {options : Options} {schedule : Schedule}

theorem roomy_of_schedule (done : problem.schedule options = .ok schedule) :
    ∀ statement ∈ schedule.statements, statement.Roomy schedule.totalRows := by
  obtain ⟨_, align_ok, ⟨_, no_statement⟩ | ⟨nonempty, start, finished, start_ok, finished_ok, _, _, solved⟩⟩ :=
    graph_of_schedule done
  · simp [no_statement]
  · have ready := ready_blameless align_ok start_ok options nonempty
    obtain ⟨first, first_ok, ⟨_, _, rfl⟩, _⟩ := Graph.build_ok start_ok
    simp only [Graph.ofDomains, bind_ok, pure_ok, mapM_ok] at first_ok
    obtain ⟨_, _, nodes, nodes_ok, rfl⟩ := first_ok
    have rows_lt := Graph.totalRows_lt_of_schedule ready rfl rfl finished_ok
    rw [← solved.rows] at rows_lt
    have width_lt : ∀ node ∈ nodes, 1 + node.space.params + node.space.dim < Size.unreachable := by
      intro node node_mem
      obtain ⟨domain, _, made⟩ := nodes_ok.exists_left node_mem
      simp only [Node.ofSpace, bind_ok, pure_ok, Size.checked_ok_iff] at made
      obtain ⟨_, ⟨_, rfl⟩, _, reserved, rfl⟩ := made
      exact Size.reserve_ok_iff.mp reserved
    intro statement statement_mem
    obtain ⟨node, node_mem, shows⟩ := solved.statements.exists_left statement_mem
    obtain ⟨before, before_mem, prolonged⟩ := solved.grows.nodes.exists_left node_mem
    have space_eq := shows.map_space.trans prolonged.space
    have before_lt := width_lt before before_mem
    refine ⟨rows_lt, ?_, ?_⟩
    · rw [space_eq]
      omega
    · rw [space_eq]
      omega

/-- The maps read off the forest of a computed schedule are its own, row by row. -/
theorem forestMaps_eq_paddedMaps (done : problem.schedule options = .ok schedule) :
    ∃ bands, schedule.forest = .ok bands ∧ schedule.forestMaps bands = schedule.paddedMaps
      ∧ schedule.paddedMaps = .ok (schedule.statements.map (·.map)) := by
  have banded := banded_of_schedule done
  have roomy := roomy_of_schedule done
  obtain ⟨bands, bands_ok, describes⟩ := Schedule.exists_forest banded
  have padded_eq : schedule.paddedMaps = .ok (schedule.statements.map (·.map)) :=
    mapM_ok_map fun statement statement_mem => if_pos (banded.statements statement statement_mem).outputs.ge
  refine ⟨bands, bands_ok, ?_, padded_eq⟩
  rw [padded_eq, Schedule.forestMaps]
  have each : ∀ entry ∈ schedule.statements.zipIdx,
      ((Band.suffixAmong entry.2 bands).getD { entry.1.map with outputs := [] }).padded schedule.totalRows
        = .ok entry.1.map := by
    rintro ⟨statement, member⟩ entry_mem
    have statement_at : schedule.statements[member]? = some statement := mem_zipIdx_iff_getElem?.mp entry_mem
    have statement_mem := mem_of_getElem? statement_at
    have inside : member ∈ List.range schedule.statements.length :=
      List.mem_range.mpr (List.getElem?_eq_some_iff.mp statement_at).1
    have suffix_eq := Band.suffixAmong_eq (fun band band_mem is_member => by
      rw [Band.suffixOf_eq banded (describes.down band band_mem) is_member, memberAt_eq statement_at,
        describes.starts band band_mem]) (((describes.partitions nodup_range).covers member).mp inside)
    rw [suffix_eq]
    exact (banded.statements statement statement_mem).padded_between (roomy statement statement_mem)
  have firsts_eq : schedule.statements.zipIdx.map (·.1.map) = schedule.statements.map (·.map) := by
    rw [← zipIdx_map_fst 0 schedule.statements, map_map, zipIdx_map_fst]
    rfl
  rw [mapM_ok_map each, firsts_eq]

/-- A line and a plane without dependences. -/
def lineAndPlane : SchedulingProblem := { domain := [everywhere "S" 1, everywhere "T" 2] }

/-- Each of them is run along its dimensions; the line is padded to the rows of the plane. -/
def lineAndPlaneSchedule : Schedule :=
  let row (coeffs : List ℤ) : AffineForm := { constant := 0, coeffs := coeffs, params := [] }
  Schedule.ofStatements [] 2 [
    { space := Space.named "S" 1
      map := { space := Space.named "S" 1, outputs := [row [1], row [0]] }
      bandEnds := [1]
      bandIds := [0]
      coincident := [true, false] },
    { space := Space.named "T" 2
      map := { space := Space.named "T" 2, outputs := [row [1, 0], row [0, 1]] }
      bandEnds := [2]
      bandIds := [1]
      coincident := [true, true] }]

set_option maxRecDepth 100000 in
theorem lineAndPlane_schedule : lineAndPlane.schedule {} = .ok lineAndPlaneSchedule := by
  apply ok_of_toOption
  decide +kernel

/-- The forest gives the line its second row back. -/
theorem forestMaps_eq_paddedMaps_lineAndPlane : lineAndPlane.schedule {} = .ok lineAndPlaneSchedule
    ∧ ∃ bands, lineAndPlaneSchedule.forest = .ok bands
      ∧ lineAndPlaneSchedule.forestMaps bands = .ok (lineAndPlaneSchedule.statements.map (·.map)) := by
  obtain ⟨bands, bands_ok, maps_eq, padded_eq⟩ := forestMaps_eq_paddedMaps lineAndPlane_schedule
  exact ⟨lineAndPlane_schedule, bands, bands_ok, maps_eq.trans padded_eq⟩

end SchedulingProblem

end AffineSchedule
