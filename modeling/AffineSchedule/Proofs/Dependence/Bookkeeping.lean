import AffineSchedule.Construction.Carrying
import AffineSchedule.Proofs.Dependence.Build

namespace AffineSchedule

open Checked List Node

/-! ### Bases -/

variable {node : Node} {flag : Bool} {row : List ℤ} {matrix : RowMatrix} {rows : List (List ℤ)}

theorem getD_column (matrix : RowMatrix) (k j : ℕ) : (matrix.column k).getD j 0 = entryAt matrix.rows j k := by
  rw [entryAt, RowMatrix.column]
  rcases lt_or_ge j matrix.rows.length with below | beyond
  · simp [getD_eq_getElem?_getD, below]
  · simp [getD_eq_getElem?_getD, beyond]

theorem entryAt_transpose {i : ℕ} (inside : i < matrix.cols) (j : ℕ) :
    entryAt matrix.transpose.rows i j = entryAt matrix.rows j i := by
  have column_eq : matrix.transpose.rows.getD i [] = matrix.column i := by
    simp [RowMatrix.transpose, getD_eq_getElem?_getD, inside]
  rw [entryAt, column_eq, getD_column]

/-- The columns of a matrix, entry by entry. -/
theorem rowVector_column (width : ℕ) (matrix : RowMatrix) (k : ℕ) (j : Fin width) :
    rowVector width (matrix.column k) j = entryAt matrix.rows j k := by
  rw [rowVector, getD_column]

theorem rowSpace_append_zeros {width : ℕ} (zeros : ∀ coefficient ∈ row, coefficient = 0) :
    rowSpace width (rows ++ [row]) = rowSpace width rows := by
  apply le_antisymm
  · apply Submodule.span_le.mpr
    rintro vector ⟨other, other_mem, rfl⟩
    rcases mem_append.mp other_mem with earlier | last
    · exact rowVector_mem_rowSpace earlier
    · obtain rfl := mem_singleton.mp last
      have vanishes : rowVector width other = 0 := by
        funext j
        rw [rowVector, getD_eq_getElem?_getD, Pi.zero_apply, Int.cast_eq_zero]
        cases entry_at : other[j.val]? with
        | none => rfl
        | some coefficient => exact zeros coefficient (mem_of_getElem? entry_at)
      rw [vanishes]
      exact Submodule.zero_mem _
  · exact rowSpace_mono fun other other_mem => mem_append_left _ other_mem

theorem RowMatrix.replaceRow_shape {next : RowMatrix} {index : ℕ} {newRow : List ℤ}
    (done : matrix.replaceRow index newRow = .ok next) : next.cols = matrix.cols ∧ next.height = matrix.height := by
  unfold replaceRow at done
  split at done
  · obtain rfl := Except.ok.inj done
    exact ⟨rfl, length_set⟩
  · cases done

/-- The square matrix of the entries of a row matrix. -/
def squareOf (width : ℕ) (matrix : RowMatrix) : Matrix (Fin width) (Fin width) ℤ := fun i j => entryAt matrix.rows i j

theorem squareOf_identity (width : ℕ) : squareOf width (RowMatrix.identity width) = 1 := by
  ext i j
  simp [squareOf, entryAt_identity i.isLt, Matrix.one_apply, Fin.ext_iff]

namespace Node

/-- The space that the first columns of the basis span. -/
def basisSpace (node : Node) : Submodule ℚ (Fin node.space.dim → ℚ) :=
  Submodule.span ℚ (Set.range fun k : Fin node.rank => rowVector node.space.dim (node.basis.column k))

/-- The rank is that of the linear parts of the rows, and the basis is an invertible matrix whose first columns span
    them. -/
structure Framed (node : Node) : Prop where
  laid_out : node.LaidOut node.space.params
  rank : node.rank = Module.finrank ℚ (rowSpace node.space.dim node.linearRows)
  inverse : squareOf node.space.dim node.basis * squareOf node.space.dim node.coordinates = 1
  basis : node.basisSpace = rowSpace node.space.dim node.linearRows

theorem Based.framed (based : node.Based) (laid_out : node.LaidOut node.space.params) : node.Framed := by
  obtain ⟨linear, hermite, decomposes, cols_eq, rows_eq, rank_eq, basis_eq, coordinates_eq⟩ := based.hermite laid_out
  have inverse_cols : hermite.inverse.cols = node.space.dim := decomposes.inverse_cols.trans cols_eq
  have transform_cols : hermite.transform.cols = node.space.dim := decomposes.transform_cols.trans cols_eq
  refine ⟨laid_out, based.rank_eq laid_out, ?_, ?_⟩
  · ext i k
    -- the product of the transposes is the transpose of the product the other way round
    have product := decomposes.tracks.transform_inverse k (k.isLt.trans_eq cols_eq.symm) i (i.isLt.trans_eq cols_eq.symm)
    rw [cols_eq, Finset.sum_range] at product
    have one_eq : (1 : Matrix (Fin node.space.dim) (Fin node.space.dim) ℤ) i k = if k.val = i.val then 1 else 0 := by
      simp [Matrix.one_apply, Fin.ext_iff, eq_comm]
    rw [Matrix.mul_apply, one_eq]
    refine Eq.trans (Finset.sum_congr rfl fun j _ => ?_) product
    rw [squareOf, squareOf, basis_eq, coordinates_eq, entryAt_transpose (i.isLt.trans_eq inverse_cols.symm),
      entryAt_transpose (j.isLt.trans_eq transform_cols.symm), mul_comm]
    rfl
  · have spanned := decomposes.span_inverse_eq
    rw [cols_eq, rows_eq, ← rank_eq] at spanned
    rw [← spanned, basisSpace]
    congr 2
    funext k j
    rw [rowVector_column, basis_eq, entryAt_transpose (j.isLt.trans_eq inverse_cols.symm)]
    rfl

/-- Only the rows, the rank and the basis matter. -/
theorem Framed.congr {other : Node} (framed : node.Framed) (space_eq : other.space = node.space)
    (schedule_eq : other.schedule = node.schedule) (rank_eq : other.rank = node.rank)
    (basis_eq : other.basis = node.basis) (coordinates_eq : other.coordinates = node.coordinates) : other.Framed := by
  cases node
  cases other
  dsimp only at space_eq schedule_eq rank_eq basis_eq coordinates_eq
  subst space_eq schedule_eq rank_eq basis_eq coordinates_eq
  exact ⟨⟨rfl, framed.laid_out.cols⟩, framed.rank, framed.inverse, framed.basis⟩

theorem Framed.of_updateBasis {next : Node} (laid_out : node.LaidOut node.space.params)
    (updated : node.updateBasis = .ok next) : next.Framed := by
  obtain ⟨based, next_eq⟩ := updateBasis_ok updated
  have space_eq : next.space = node.space := congrArg (·.space) next_eq
  have schedule_eq : next.schedule = node.schedule := congrArg (·.schedule) next_eq
  refine based.framed ⟨rfl, ?_⟩
  rw [space_eq, schedule_eq]
  exact laid_out.cols

/-- A row without a linear part leaves the frame alone. -/
theorem Framed.pushRow {next : Node} {band : Option ℕ} (framed : node.Framed)
    (zeros : ∀ coefficient ∈ row.drop (1 + node.space.params), coefficient = 0)
    (pushed : node.pushRow row band flag = .ok next) : next.Framed := by
  have pushes := pushes_of_pushRow pushed
  simp only [Node.pushRow, bind_ok, pure_ok] at pushed
  obtain ⟨schedule, _, rfl⟩ := pushed
  have linear_eq : ({ node with
      schedule := schedule, bands := node.bands ++ [band], coincident := node.coincident ++ [flag] } : Node).linearRows
        = node.linearRows ++ [row.drop (1 + node.space.params)] := by
    rw [linearRows, pushes.rows, map_append]
    rfl
  have space_eq : rowSpace node.space.dim (node.linearRows ++ [row.drop (1 + node.space.params)])
      = rowSpace node.space.dim node.linearRows := rowSpace_append_zeros zeros
  refine ⟨⟨rfl, pushes.cols.trans framed.laid_out.cols⟩, ?_, framed.inverse, ?_⟩
  · rw [linear_eq]
    exact framed.rank.trans (by rw [space_eq])
  · rw [linear_eq]
    exact framed.basis.trans space_eq.symm

theorem framed_of_ofSpace {space : Space} (made : ofSpace space = .ok node) : node.Framed := by
  simp only [ofSpace, bind_ok, pure_ok, Size.checked_ok_iff] at made
  obtain ⟨width, ⟨_, rfl⟩, _, _, rfl⟩ := made
  have no_rows : rowSpace space.dim [] = ⊥ := by simp [rowSpace]
  refine ⟨⟨rfl, rfl⟩, ?_, ?_, ?_⟩
  · change 0 = Module.finrank ℚ (rowSpace space.dim [])
    rw [no_rows, finrank_bot]
  · change squareOf space.dim (RowMatrix.identity space.dim) * squareOf space.dim (RowMatrix.identity space.dim) = 1
    rw [squareOf_identity, mul_one]
  · change _ = rowSpace space.dim []
    rw [no_rows, basisSpace, Set.range_eq_empty, Submodule.span_empty]

end Node

/-! ### Bands -/

variable {band count : ℕ}

/-- The labels of closed bands: they do not decrease, and every band before the current one has a row. -/
structure GapFree (band : ℕ) (labels : List ℕ) : Prop where
  ascending : labels.Pairwise (· ≤ ·)
  mem_iff : ∀ label, label ∈ labels ↔ label < band

theorem GapFree.nil : GapFree 0 [] := ⟨List.Pairwise.nil, by simp⟩

/-- A band with rows may be closed. -/
theorem GapFree.close {labels : List ℕ} (closed : GapFree band labels) (positive : 0 < count) :
    GapFree (band + 1) (labels ++ List.replicate count band) := by
  constructor
  · rw [pairwise_append]
    refine ⟨closed.ascending, pairwise_replicate.mpr (Or.inr le_rfl), ?_⟩
    intro a a_mem b b_mem
    rw [eq_of_mem_replicate b_mem]
    exact ((closed.mem_iff a).mp a_mem).le
  · intro label
    rw [mem_append, closed.mem_iff, mem_replicate]
    omega

namespace Node

variable {label : Option ℕ} {after before first last middle : Node}

/-- The identifier of a band; a band without one has the identifier zero. -/
def bandId (node : Node) (label : ℕ) : ℕ := node.bandIds.getD label 0

theorem bandId_congr {twin : Node} (ids_eq : node.bandIds = twin.bandIds) : node.bandId = twin.bandId := by
  funext label
  rw [bandId, bandId, ids_eq]

/-- The node has the space, the bands, the flags and the identifiers of another one, and as many rows. -/
structure SameBooks (after before : Node) : Prop where
  space : after.space = before.space
  bands : after.bands = before.bands
  coincident : after.coincident = before.coincident
  ids : after.bandIds = before.bandIds
  height : after.schedule.height = before.schedule.height
  framed : before.Framed → after.Framed

theorem SameBooks.refl (node : Node) : node.SameBooks node := ⟨rfl, rfl, rfl, rfl, rfl, id⟩

theorem SameBooks.trans (after : last.SameBooks middle) (before : middle.SameBooks first) : last.SameBooks first :=
  ⟨after.space.trans before.space, after.bands.trans before.bands, after.coincident.trans before.coincident,
    after.ids.trans before.ids, after.height.trans before.height, fun framed => after.framed (before.framed framed)⟩

theorem SameBooks.hasRows (same : after.SameBooks before) (has_rows : before.HasRows count) : after.HasRows count :=
  ⟨same.height.trans has_rows.height, same.bands ▸ has_rows.bands, same.coincident ▸ has_rows.coincident⟩

theorem sameBooks_of_updateBasis {next : Node} (updated : node.updateBasis = .ok next) :
    next.SameBooks node := by
  obtain ⟨_, next_eq⟩ := updateBasis_ok updated
  exact ⟨congrArg (·.space) next_eq, congrArg (·.bands) next_eq, congrArg (·.coincident) next_eq,
    congrArg (·.bandIds) next_eq, congrArg (·.schedule.height) next_eq,
    fun framed => Framed.of_updateBasis framed.laid_out updated⟩

/-- The node has one more row than an earlier state of it, with a label and a flag. -/
structure Advances (after before : Node) (label : Option ℕ) (flag : Bool) : Prop where
  space : after.space = before.space
  component : after.component = before.component
  bands : after.bands = before.bands ++ [label]
  coincident : after.coincident = before.coincident ++ [flag]
  ids : after.bandIds = before.bandIds
  height : after.schedule.height = before.schedule.height + 1
  framed : before.Framed → after.Framed

theorem Advances.hasRows (advances : after.Advances before label flag) (has_rows : before.HasRows count) :
    after.HasRows (count + 1) := by
  refine ⟨?_, ?_, ?_⟩
  · rw [advances.height, has_rows.height]
  · rw [advances.bands, length_append, has_rows.bands, length_singleton]
  · rw [advances.coincident, length_append, has_rows.coincident, length_singleton]

theorem Advances.of_sameBooks (advances : middle.Advances first label flag) (same : last.SameBooks middle)
    (component_eq : last.component = middle.component) : last.Advances first label flag :=
  ⟨same.space.trans advances.space, component_eq.trans advances.component, same.bands.trans advances.bands,
    same.coincident.trans advances.coincident, same.ids.trans advances.ids, same.height.trans advances.height,
    fun framed => same.framed (advances.framed framed)⟩

theorem advances_of_linearRow {pushed next : Node} (push_ok : node.pushRow row label flag = .ok pushed)
    (updated : pushed.updateBasis = .ok next) : next.Advances node label flag := by
  have pushes := pushes_of_pushRow push_ok
  simp only [pushRow, bind_ok, pure_ok] at push_ok
  obtain ⟨schedule, _, rfl⟩ := push_ok
  obtain ⟨_, next_eq⟩ := updateBasis_ok updated
  refine ⟨congrArg (·.space) next_eq, congrArg (·.component) next_eq, congrArg (·.bands) next_eq,
    congrArg (·.coincident) next_eq, congrArg (·.bandIds) next_eq, ?_, ?_⟩
  · refine (congrArg (·.schedule.height) next_eq).trans ?_
    rw [RowMatrix.height, pushes.rows, length_append]
    rfl
  · intro framed
    exact Framed.of_updateBasis ⟨rfl, pushes.cols.trans framed.laid_out.cols⟩ updated

theorem advances_of_constantRow {next : Node}
    (zeros : ∀ coefficient ∈ row.drop (1 + node.space.params), coefficient = 0)
    (push_ok : node.pushRow row label flag = .ok next) : next.Advances node label flag := by
  have pushes := pushes_of_pushRow push_ok
  have ids_eq : next.bandIds = node.bandIds := by
    simp only [pushRow, bind_ok, pure_ok] at push_ok
    obtain ⟨schedule, _, rfl⟩ := push_ok
    rfl
  refine ⟨pushes.space, pushes.component, pushes.bands, pushes.flags, ids_eq, ?_, fun framed => framed.pushRow zeros push_ok⟩
  rw [RowMatrix.height, pushes.rows, length_append]
  rfl

theorem drop_constantRow (node : Node) (value : ℤ) :
    ∀ coefficient ∈ (node.constantRow value).drop (1 + node.space.params), coefficient = 0 := by
  intro coefficient coefficient_mem
  rw [constantRow, Nat.add_comm 1, drop_succ_cons] at coefficient_mem
  exact eq_of_mem_replicate (mem_of_mem_drop coefficient_mem)

theorem sameBooks_of_divideRow {next : Node} {place : ℕ} {factor : ℤ}
    (done : node.divideRow place factor = .ok next) : next.SameBooks node ∧ next.component = node.component := by
  simp only [divideRow, bind_ok] at done
  obtain ⟨row, _, schedule, replaced, updated⟩ := done
  obtain ⟨cols_eq, height_eq⟩ := RowMatrix.replaceRow_shape replaced
  obtain ⟨_, next_eq⟩ := updateBasis_ok updated
  refine ⟨⟨congrArg (·.space) next_eq, congrArg (·.bands) next_eq, congrArg (·.coincident) next_eq,
    congrArg (·.bandIds) next_eq, (congrArg (·.schedule.height) next_eq).trans height_eq, fun framed => ?_⟩,
    congrArg (·.component) next_eq⟩
  exact Framed.of_updateBasis ⟨rfl, cols_eq.trans framed.laid_out.cols⟩ updated

/-- Changing an identifier leaves the others alone. -/
theorem updateBandId_ok {next : Node} {change : ℕ → Checked ℕ} (done : node.updateBandId band change = .ok next) :
    (∃ ids, next = { node with bandIds := ids }) ∧ change (node.bandId band) = .ok (next.bandId band)
      ∧ ∀ label, label ≠ band → next.bandId label = node.bandId label := by
  simp only [updateBandId, bind_ok, pure_ok, Size.add_ok_iff] at done
  obtain ⟨size, ⟨_, rfl⟩, _, _, identifier, changed, rfl⟩ := done
  have extended : ∀ label, (node.bandIds ++ List.replicate (band + 1 - node.bandIds.length) 0).getD label 0
      = node.bandId label := by
    intro label
    rw [bandId, getD_eq_getElem?_getD, getD_eq_getElem?_getD, getElem?_append]
    split
    case isTrue => rfl
    case isFalse beyond =>
      rw [getElem?_eq_none (Nat.le_of_not_lt beyond), getElem?_replicate]
      split <;> rfl
  have inside : band < (node.bandIds ++ List.replicate (band + 1 - node.bandIds.length) 0).length := by
    rw [length_append, length_replicate]
    omega
  refine ⟨⟨_, rfl⟩, ?_, fun label different => ?_⟩
  · rw [extended] at changed
    rw [changed, bandId, getD_eq_getElem?_getD, getElem?_set_self inside]
    rfl
  · rw [bandId, getD_eq_getElem?_getD, getElem?_set_ne (Ne.symm different), ← getD_eq_getElem?_getD, extended]

end Node

namespace Graph

variable {graph next : Graph} {params : List String} {domains : List Domain}

/-! ### Uniform graphs -/

/-- All nodes have the rows that are counted, with the same bands, flags and identifiers; the rows of the current band
    stand behind those of the closed ones, and no later band has an identifier yet. -/
structure Uniform (graph : Graph) : Prop where
  start_le : graph.counters.bandStart ≤ graph.counters.totalRows
  room : graph.counters.totalRows ≤ graph.counters.maxRows
  framed : ∀ node ∈ graph.nodes, node.Framed
  has_rows : ∀ node ∈ graph.nodes, node.HasRows graph.counters.totalRows
  bands : ∃ closed, GapFree graph.counters.band closed ∧ closed.length = graph.counters.bandStart
    ∧ ∀ node ∈ graph.nodes, node.bands
      = (closed ++ List.replicate (graph.counters.totalRows - graph.counters.bandStart) graph.counters.band).map some
  flags : ∀ a ∈ graph.nodes, ∀ b ∈ graph.nodes, a.coincident = b.coincident
  ids : ∀ a ∈ graph.nodes, ∀ b ∈ graph.nodes, a.bandId = b.bandId
  fresh : ∀ node ∈ graph.nodes, ∀ label, graph.counters.band < label → node.bandId label = 0

/-- A uniform graph without rows in the current band. -/
structure Orderly (graph : Graph) : Prop extends Uniform graph where
  band_start : graph.counters.bandStart = graph.counters.totalRows

theorem Orderly.gapFree (orderly : graph.Orderly) : ∃ labels,
    GapFree graph.counters.band labels ∧ labels.length = graph.counters.totalRows
      ∧ ∀ node ∈ graph.nodes, node.bands = labels.map some := by
  obtain ⟨closed, gap_free, length_eq, bands_eq⟩ := orderly.bands
  refine ⟨closed, gap_free, length_eq.trans orderly.band_start, fun node node_mem => ?_⟩
  rw [bands_eq node node_mem, orderly.band_start, Nat.sub_self, replicate_zero, append_nil]

/-- Nodes that all change their bands and flags in the same way stay uniform. -/
theorem Uniform.of_nodes (uniform : graph.Uniform) (relabel : List (Option ℕ) → List (Option ℕ))
    (reflag : List Bool → List Bool)
    (nodes : Forall₂ (fun before after : Node => after.bands = relabel before.bands
      ∧ after.coincident = reflag before.coincident ∧ after.bandIds = before.bandIds ∧ (before.Framed → after.Framed)
      ∧ (before.HasRows graph.counters.totalRows → after.HasRows next.counters.totalRows)) graph.nodes next.nodes)
    (start_le : next.counters.bandStart ≤ next.counters.totalRows)
    (room : next.counters.totalRows ≤ next.counters.maxRows) (band_le : graph.counters.band ≤ next.counters.band)
    (bands : ∀ closed, GapFree graph.counters.band closed → closed.length = graph.counters.bandStart →
      ∃ labels, GapFree next.counters.band labels ∧ labels.length = next.counters.bandStart
        ∧ relabel ((closed ++ List.replicate (graph.counters.totalRows - graph.counters.bandStart)
            graph.counters.band).map some)
          = (labels ++ List.replicate (next.counters.totalRows - next.counters.bandStart) next.counters.band).map some) :
    next.Uniform := by
  have origin (after : Node) (after_mem : after ∈ next.nodes) := nodes.exists_left after_mem
  refine ⟨start_le, room, ?_, ?_, ?_, ?_, ?_, ?_⟩
  · intro after after_mem
    obtain ⟨before, before_mem, _, _, _, framed, _⟩ := origin after after_mem
    exact framed (uniform.framed before before_mem)
  · intro after after_mem
    obtain ⟨before, before_mem, _, _, _, _, has_rows⟩ := origin after after_mem
    exact has_rows (uniform.has_rows before before_mem)
  · obtain ⟨closed, gap_free, length_eq, bands_eq⟩ := uniform.bands
    obtain ⟨labels, labels_free, labels_length, relabelled⟩ := bands closed gap_free length_eq
    refine ⟨labels, labels_free, labels_length, fun after after_mem => ?_⟩
    obtain ⟨before, before_mem, after_bands, _⟩ := origin after after_mem
    rw [after_bands, bands_eq before before_mem, relabelled]
  · intro a a_mem b b_mem
    obtain ⟨a_before, a_before_mem, _, a_flags, _⟩ := origin a a_mem
    obtain ⟨b_before, b_before_mem, _, b_flags, _⟩ := origin b b_mem
    rw [a_flags, b_flags, uniform.flags a_before a_before_mem b_before b_before_mem]
  · intro a a_mem b b_mem
    obtain ⟨a_before, a_before_mem, _, _, a_ids, _⟩ := origin a a_mem
    obtain ⟨b_before, b_before_mem, _, _, b_ids, _⟩ := origin b b_mem
    rw [bandId_congr a_ids, bandId_congr b_ids]
    exact uniform.ids a_before a_before_mem b_before b_before_mem
  · intro after after_mem label beyond
    obtain ⟨before, before_mem, _, _, ids_eq, _⟩ := origin after after_mem
    rw [bandId_congr ids_eq]
    exact uniform.fresh before before_mem label (band_le.trans_lt beyond)

/-! ### Same books -/

/-- The nodes have the same books, and the same rows are counted. -/
structure SameBooks (after before : Graph) : Prop where
  nodes : Forall₂ (fun earlier later : Node => later.SameBooks earlier) before.nodes after.nodes
  counters : after.counters = before.counters

theorem SameBooks.of_nodes {after before : Graph} (nodes_eq : after.nodes = before.nodes)
    (counters_eq : after.counters = before.counters) : after.SameBooks before := by
  refine ⟨?_, counters_eq⟩
  rw [nodes_eq]
  exact forall₂_same.mpr fun node _ => .refl node

theorem SameBooks.trans {last middle first : Graph} (after : last.SameBooks middle)
    (before : middle.SameBooks first) : last.SameBooks first :=
  ⟨forall₂_trans (fun _ _ _ earlier later => later.trans earlier) before.nodes after.nodes,
    after.counters.trans before.counters⟩

theorem Uniform.of_sameBooks (uniform : graph.Uniform) (same : next.SameBooks graph) : next.Uniform := by
  refine uniform.of_nodes id id ?_ ?_ ?_ ?_ ?_
  · refine same.nodes.imp fun before after node_same => ?_
    rw [same.counters]
    exact ⟨node_same.bands, node_same.coincident, node_same.ids, node_same.framed, node_same.hasRows⟩
  · rw [same.counters]
    exact uniform.start_le
  · rw [same.counters]
    exact uniform.room
  · rw [same.counters]
  · intro closed gap_free length_eq
    rw [same.counters]
    exact ⟨closed, gap_free, length_eq, rfl⟩

theorem Orderly.of_sameBooks (orderly : graph.Orderly) (same : next.SameBooks graph) : next.Orderly := by
  refine ⟨orderly.toUniform.of_sameBooks same, ?_⟩
  rw [same.counters]
  exact orderly.band_start

theorem sameBooks_assign {follows : ℕ → ℕ → Bool} :
    (graph.assign (Components.compute graph.nodes.length follows)).SameBooks graph := by
  refine ⟨?_, rfl⟩
  have length_eq : (Components.compute graph.nodes.length follows).labels.length = graph.nodes.length :=
    length_labels_compute graph.nodes.length
  apply forall₂_of_getElem?
  · simp [assign, length_eq]
  · intro place before after before_at after_at
    rw [getElem?_assign length_eq, before_at] at after_at
    obtain rfl := Option.some.inj after_at
    exact ⟨rfl, rfl, rfl, rfl, rfl, fun framed => framed.congr rfl rfl rfl rfl rfl⟩

theorem sameBooks_of_updateRowsNeeded (done : graph.updateRowsNeeded = .ok next) : next.SameBooks graph := by
  simp only [updateRowsNeeded, bind_ok, pure_ok, mapM_ok] at done
  obtain ⟨nodes, each, rfl⟩ := done
  exact ⟨each.imp fun _ _ step => sameBooks_of_updateBasis step, rfl⟩

theorem sameBooks_of_narrowEdges (done : graph.narrowEdges = .ok next) : next.SameBooks graph := by
  obtain ⟨_, _, rfl⟩ := exists_edges_of_narrowEdges done
  exact .of_nodes rfl rfl

/-! ### Rows -/

theorem checkCapacity_ok {result : Unit} (done : graph.checkCapacity = .ok result) :
    graph.counters.totalRows < graph.counters.maxRows := by
  unfold checkCapacity at done
  split at done
  case isTrue room => exact room
  case isFalse => cases done

/-- A new row of the current band. -/
theorem Uniform.advance {rows : ℕ} (uniform : graph.Uniform) (room : graph.counters.totalRows < graph.counters.maxRows)
    (counters_eq : next.counters = { graph.counters with rows := rows, totalRows := graph.counters.totalRows + 1 })
    (nodes : Forall₂ (fun before after : Node => after.Advances before (some graph.counters.band) flag)
      graph.nodes next.nodes) : next.Uniform := by
  refine uniform.of_nodes (· ++ [some graph.counters.band]) (· ++ [flag]) ?_ ?_ ?_ ?_ ?_
  · refine nodes.imp fun before after advances => ?_
    rw [counters_eq]
    exact ⟨advances.bands, advances.coincident, advances.ids, advances.framed, advances.hasRows⟩
  · rw [counters_eq]
    exact uniform.start_le.trans (Nat.le_succ _)
  · rw [counters_eq]
    exact room
  · rw [counters_eq]
  · intro closed gap_free length_eq
    rw [counters_eq]
    refine ⟨closed, gap_free, length_eq, ?_⟩
    dsimp only
    have longer : graph.counters.totalRows + 1 - graph.counters.bandStart
        = graph.counters.totalRows - graph.counters.bandStart + 1 := Nat.sub_add_comm uniform.start_le
    rw [longer, replicate_succ', ← append_assoc, map_append]
    simp

/-- Appending a row gives every node one more row of the current band. -/
theorem advances_of_appendRow (done : graph.appendRow rows flag = .ok next) : graph.counters.totalRows < graph.counters.maxRows
      ∧ next = { graph with nodes := next.nodes, counters := { graph.counters with
          rows := graph.counters.rows + 1, totalRows := graph.counters.totalRows + 1 } }
      ∧ Forall₂ (fun before after : Node => after.Advances before (some graph.counters.band) flag)
          graph.nodes next.nodes := by
  simp only [appendRow, bind_ok] at done
  obtain ⟨_, capacity, done⟩ := done
  split at done
  case isTrue =>
    obtain ⟨_, impossible, _⟩ := bind_ok.mp done
    exact (throw_ok.mp impossible).elim
  case isFalse lengths =>
    simp only [bind_ok, pure_ok, mapM_ok] at done
    obtain ⟨nodes, each, rfl⟩ := done
    refine ⟨checkCapacity_ok capacity, rfl, ?_⟩
    have fst_eq : (graph.nodes.zip rows).map Prod.fst = graph.nodes :=
      map_fst_zip (Decidable.of_not_not lengths).ge
    rw [← fst_eq]
    refine forall₂_map_left_iff.mpr (each.imp fun entry after step => ?_)
    obtain ⟨pushed, push_ok, updated⟩ := step
    exact advances_of_linearRow push_ok updated

/-- Appending a constant row gives every node one more row of the current band. -/
theorem advances_of_appendConstantRow {value : Node → ℤ} (done : graph.appendConstantRow value = .ok next) :
    graph.counters.totalRows < graph.counters.maxRows
      ∧ next = { graph with nodes := next.nodes, counters := { graph.counters with
          totalRows := graph.counters.totalRows + 1 } }
      ∧ Forall₂ (fun before after : Node => after.Advances before (some graph.counters.band) false)
          graph.nodes next.nodes := by
  simp only [appendConstantRow, bind_ok, pure_ok, mapM_ok] at done
  obtain ⟨_, capacity, nodes, each, rfl⟩ := done
  refine ⟨checkCapacity_ok capacity, rfl, each.imp fun before after push_ok => ?_⟩
  exact advances_of_constantRow (before.drop_constantRow _) push_ok

/-- Closing a band with rows. -/
theorem Uniform.nextBand (uniform : graph.Uniform) (nonempty : graph.counters.bandStart < graph.counters.totalRows) :
    graph.nextBand.Orderly := by
  refine ⟨?_, rfl⟩
  refine uniform.of_nodes id id ?_ le_rfl uniform.room (Nat.le_succ _) ?_
  · exact forall₂_same.mpr fun node _ => ⟨rfl, rfl, rfl, id, id⟩
  · intro closed gap_free length_eq
    refine ⟨closed ++ List.replicate (graph.counters.totalRows - graph.counters.bandStart) graph.counters.band,
      gap_free.close (Nat.sub_pos_of_lt nonempty), ?_, ?_⟩
    · rw [length_append, length_replicate, length_eq]
      exact Nat.add_sub_cancel' uniform.start_le
    · change _ = (_ ++ List.replicate (graph.counters.totalRows - graph.counters.totalRows) (graph.counters.band + 1)).map some
      rw [Nat.sub_self, replicate_zero, append_nil]
      rfl

/-- Dropping a band leaves every node the books of the rows before it. -/
theorem books_of_resetBand (done : graph.resetBand = .ok next) :
    Forall₂ (fun before after : Node => after.SameBooks (before.takeRows graph.counters.bandStart)
      ∧ (before.Framed → after.Framed)) graph.nodes next.nodes := by
  refine (resetBand_ok done).2.imp fun before after updated => ⟨sameBooks_of_updateBasis updated, ?_⟩
  intro framed
  have laid_out : (before.takeRows graph.counters.bandStart).LaidOut before.space.params := ⟨rfl, framed.laid_out.cols⟩
  exact Framed.of_updateBasis laid_out updated

/-- Dropping the current band. -/
theorem Uniform.resetBand (uniform : graph.Uniform) (done : graph.resetBand = .ok next) : next.Orderly := by
  have counters_eq := congrArg (·.counters) (resetBand_ok done).1
  dsimp only at counters_eq
  refine ⟨?_, by rw [counters_eq]⟩
  refine uniform.of_nodes (·.take graph.counters.bandStart) (·.take graph.counters.bandStart) ?_ ?_ ?_ ?_ ?_
  · refine (books_of_resetBand done).imp fun before after ⟨same, framed⟩ => ⟨same.bands, same.coincident, same.ids, framed, fun has_rows => ?_⟩
    rw [counters_eq]
    refine same.hasRows ⟨?_, ?_, ?_⟩
    · exact (length_take.trans (Nat.min_eq_left (uniform.start_le.trans_eq has_rows.height.symm)))
    · exact (length_take.trans (Nat.min_eq_left (uniform.start_le.trans_eq has_rows.bands.symm)))
    · exact (length_take.trans (Nat.min_eq_left (uniform.start_le.trans_eq has_rows.coincident.symm)))
  · rw [counters_eq]
  · rw [counters_eq]
    exact uniform.start_le.trans uniform.room
  · rw [counters_eq]
  · intro closed gap_free length_eq
    rw [counters_eq]
    refine ⟨closed, gap_free, length_eq, ?_⟩
    dsimp only
    rw [Nat.sub_self, replicate_zero, append_nil, map_append, ← length_eq, take_left' (length_map some)]

theorem splitFactor_ok {split : Graph} (done : graph.splitFactor = .ok split) :
    split = graph ∨ graph.counters.totalRows < graph.counters.maxRows
      ∧ split = { graph with nodes := split.nodes, counters := { graph.nextBand.counters with
          totalRows := graph.counters.totalRows + 1 } } ∧ Forall₂ (fun before after : Node =>
          after.Advances before (some graph.nextBand.counters.band) false) graph.nodes split.nodes := by
  simp only [splitFactor] at done
  split at done
  case isTrue => exact Or.inl (pure_ok.mp done).symm
  case isFalse =>
    obtain ⟨factor, _, done⟩ := bind_ok.mp done
    split at done
    case isTrue => exact Or.inl (pure_ok.mp done).symm
    case isFalse =>
      simp only [bind_ok, pure_ok, mapM_ok] at done
      obtain ⟨extended, extend_ok, nodes, divided, rfl⟩ := done
      obtain ⟨room, extended_eq, advances⟩ := advances_of_appendConstantRow extend_ok
      refine Or.inr ⟨room, ?_, ?_⟩
      · rw [extended_eq]
        rfl
      · refine forall₂_trans (fun before middle after advance step => ?_) advances divided
        obtain ⟨same, component_eq⟩ := sameBooks_of_divideRow step
        exact advance.of_sameBooks same component_eq

/-! ### Built graphs -/

theorem orderly_of_ofDomains (made : ofDomains params domains = .ok graph) : graph.Orderly := by
  simp only [ofDomains, bind_ok, pure_ok, mapM_ok] at made
  obtain ⟨_, _, nodes, each, rfl⟩ := made
  have origin : ∀ node ∈ nodes, node.Framed ∧ node.HasRows 0 ∧ node.bands = [] ∧ node.coincident = [] ∧ node.bandIds = [] := by
    intro node node_mem
    obtain ⟨domain, _, made⟩ := each.exists_left node_mem
    refine ⟨framed_of_ofSpace made, ?_⟩
    simp only [ofSpace, bind_ok, pure_ok] at made
    obtain ⟨_, _, _, _, rfl⟩ := made
    exact ⟨⟨rfl, rfl, rfl⟩, rfl, rfl, rfl⟩
  refine ⟨⟨le_rfl, Nat.zero_le _, fun node node_mem => (origin node node_mem).1, fun node node_mem => (origin node node_mem).2.1,
    ⟨[], GapFree.nil, rfl, ?_⟩, ?_, ?_, ?_⟩, rfl⟩
  · intro node node_mem
    exact (origin node node_mem).2.2.1
  · intro a a_mem b b_mem
    exact (origin a a_mem).2.2.2.1.trans (origin b b_mem).2.2.2.1.symm
  · intro a a_mem b b_mem
    exact bandId_congr ((origin a a_mem).2.2.2.2.trans (origin b b_mem).2.2.2.2.symm)
  · intro node node_mem label _
    rw [bandId, (origin node node_mem).2.2.2.2]
    rfl

/-- A built graph is orderly. -/
theorem orderly_of_build {relations : List (Kind × List Relation)}
    (built : build params domains relations = .ok graph) : graph.Orderly := by
  obtain ⟨start, start_ok, ⟨_, _, rfl⟩, _⟩ := build_ok built
  exact (orderly_of_ofDomains start_ok).of_sameBooks (.of_nodes rfl rfl)

end Graph

end AffineSchedule
