import AffineSchedule.Construction.NextRow
import AffineSchedule.Proofs.Dependence.Graph
import AffineSchedule.Proofs.Farkas

namespace AffineSchedule

open Checked Cone List Finset RowForms Linear AffineSchedule.Tuple Node ConeProblem

/-! ### Rows -/

variable {paramCount dim : ℕ} {words : List ℤ}

/-- A row of a schedule: an affine function of the parameters and of the dimensions of a statement. -/
structure AffineRow (α : Type) where
  constant : α
  params : ℕ → α
  dims : ℕ → α

namespace AffineRow

/-- The row without coefficients. -/
def zero : AffineRow ℚ := { constant := 0, params := 0, dims := 0 }

/-- The time that a row gives to a point, with given numbers of parameters and dimensions. -/
def time (row : AffineRow ℚ) (paramCount dim : ℕ) (params point : ℕ → ℚ) : ℚ :=
  row.constant + ∑ i ∈ Finset.range paramCount, params i * row.params i + ∑ k ∈ Finset.range dim, point k * row.dims k

/-- A multiple of a row. -/
def scaled (factor : ℚ) (row : AffineRow ℚ) : AffineRow ℚ :=
  { constant := factor * row.constant, params := fun i => factor * row.params i, dims := fun k => factor * row.dims k }

theorem time_scaled (factor : ℚ) (row : AffineRow ℚ) (paramCount dim : ℕ) (params point : ℕ → ℚ) :
    (row.scaled factor).time paramCount dim params point = factor * row.time paramCount dim params point := by
  simp only [time, scaled, mul_add, mul_sum, mul_left_comm]

theorem time_congr {row : AffineRow ℚ} {paramCount : ℕ} {params point other : ℕ → ℚ} (agree : ∀ k < dim, point k = other k) :
    row.time paramCount dim params point = row.time paramCount dim params other := by
  rw [time, time]
  congr 1
  exact sum_congr rfl fun k k_mem => by rw [agree k (Finset.mem_range.mp k_mem)]

@[simp] theorem scaled_one (row : AffineRow ℚ) : row.scaled 1 = row := by simp [scaled]

/-- An integer row as a rational one. -/
def cast (row : AffineRow ℤ) : AffineRow ℚ := { constant := row.constant, params := (row.params ·), dims := (row.dims ·) }

/-- The row with given entries: the constant, the parameters, the dimensions. -/
def ofWords (paramCount : ℕ) (words : List ℤ) : AffineRow ℤ where
  constant := words.headD 0
  params i := if i < paramCount then (words.drop 1).getD i 0 else 0
  dims k := (words.drop (1 + paramCount)).getD k 0

end AffineRow

/-- The times of a row by its entries. -/
theorem AffineForm.rowValue_eq_time (length_eq : words.length = 1 + paramCount + dim) (params point : ℕ → ℤ) :
    (rowValue words paramCount point params : ℚ)
      = (AffineRow.ofWords paramCount words).cast.time paramCount dim (params ·) (point ·) := by
  have dims_length : (words.drop (1 + paramCount)).length = dim := by rw [length_drop]; omega
  have params_length : ((words.drop 1).take paramCount).length = paramCount := by simp; omega
  rw [rowValue, dot_eq_sum, dot_eq_sum, dims_length, params_length, AffineRow.time]
  push_cast
  have params_sum : ∑ i ∈ Finset.range paramCount, (((words.drop 1).take paramCount).getD i 0 : ℚ) * params i
      = ∑ i ∈ Finset.range paramCount, (params i : ℚ) * (AffineRow.ofWords paramCount words).cast.params i := by
    refine sum_congr rfl fun i i_mem => ?_
    have inside := Finset.mem_range.mp i_mem
    rw [mul_comm, AffineRow.cast, AffineRow.ofWords]
    dsimp only
    rw [if_pos inside, getD_eq_getElem?_getD, getElem?_take_of_lt inside, ← getD_eq_getElem?_getD]
  have dims_sum : ∑ k ∈ Finset.range dim, ((words.drop (1 + paramCount)).getD k 0 : ℚ) * point k
      = ∑ k ∈ Finset.range dim, (point k : ℚ) * (AffineRow.ofWords paramCount words).cast.dims k :=
    sum_congr rfl fun k _ => mul_comm _ _
  rw [params_sum, dims_sum, add_right_comm]
  rfl

/-- The distance that rows for the source and the target give to the columns of a conjunct. -/
def Conjunct.distance (conjunct : Conjunct) (source target : AffineRow ℚ) (columns params : ℕ → ℚ) : ℚ :=
  target.time conjunct.params conjunct.outputs params (fun k => columns (conjunct.inputs + k))
    - source.time conjunct.params conjunct.inputs params columns

theorem Conjunct.distance_scaled (conjunct : Conjunct) (factor : ℚ) (source target : AffineRow ℚ)
    (columns params : ℕ → ℚ) : conjunct.distance (source.scaled factor) (target.scaled factor) columns params
      = factor * conjunct.distance source target columns params := by
  rw [distance, distance, AffineRow.time_scaled, AffineRow.time_scaled, mul_sub]

/-! ### Rows of the nodes -/

variable {useBasis : Bool} {σ τ : Linear.Assignment} {node : Node}

theorem Cone.weigh_eq_sum {count : ℕ} {values : ℕ → ℚ} (vanishes : ∀ k, count ≤ k → values k = 0)
    (weights : List ℤ) : weigh weights values = ∑ k ∈ Finset.range count, (weights.getD k 0 : ℚ) * values k := by
  rw [weigh, ← sum_subset (range_subset_range.mpr (min_le_left weights.length count)),
    ← sum_subset (range_subset_range.mpr (min_le_right weights.length count))]
  · intro k k_mem outside
    rw [getD_eq_default _ _ (by simp at k_mem outside; omega), Int.cast_zero, zero_mul]
  · intro k k_mem outside
    rw [vanishes k (by simp at k_mem outside; omega), mul_zero]

namespace Node

theorem Based.height_basis (based : node.Based) (laid_out : node.LaidOut paramCount) : node.basis.height = node.space.dim := by
  obtain ⟨linear, hermite, decomposes, cols_eq, _, _, basis_eq, _⟩ := based.hermite laid_out
  rw [basis_eq, RowMatrix.height_transpose, decomposes.inverse_cols, cols_eq]

/-- The coefficient whose parts are the two columns of a pair. -/
def part (node : Node) (σ : Linear.Assignment) (index : ℕ) : ℚ := σ (node.pairAt index).2 - σ (node.pairAt index).1

/-- The coordinate of a dimension that an assignment of the columns gives to a node. -/
def coordinateAt (node : Node) (σ : Linear.Assignment) (d : ℕ) : ℚ :=
  if d < node.space.dim then node.part σ (node.space.params + (node.space.dim - 1 - d)) else 0

/-- The row that an assignment of the columns gives to a node. Through the basis, the columns hold the coordinates of its
    dimensions. -/
def rowAt (node : Node) (useBasis : Bool) (σ : Linear.Assignment) : AffineRow ℚ where
  constant := σ node.firstColumn
  params i := if i < node.space.params then node.part σ i else 0
  dims k :=
    if useBasis then ∑ d ∈ Finset.range node.space.dim, entryAt node.basis.rows k d * node.coordinateAt σ d
    else node.coordinateAt σ k

section

variable (node : Node) (σ : Linear.Assignment)

theorem coefficient_paramPairs :
    coefficient (node.paramPairs.map ofPair) σ
      = fun i => if i < node.space.params then node.part σ i else 0 := by
  funext i
  unfold coefficient
  split_ifs with inside
  · simp [paramPairs, getD_eq_getElem?_getD, inside, ofPair, part]
  · simp [paramPairs, getD_eq_getElem?_getD, not_lt.mp inside]

theorem coefficient_dimPairs :
    coefficient (node.dimPairs.map ofPair) σ = node.coordinateAt σ := by
  funext d
  unfold coefficient coordinateAt
  split_ifs with inside
  · simp [dimPairs, getD_eq_getElem?_getD, inside, ofPair, part]
  · simp [dimPairs, getD_eq_getElem?_getD, not_lt.mp inside]

theorem weigh_coordinateAt (k : ℕ) :
    weigh (node.basis.rows.getD k []) (node.coordinateAt σ) = (node.rowAt true σ).dims k := by
  exact weigh_eq_sum (fun d beyond => if_neg (not_lt.mpr beyond)) _

end

/-- The pairs of a node lie behind its first column, within its columns. -/
theorem pair_bounds {pair : ℕ × ℕ} (pair_mem : pair ∈ node.paramPairs ++ node.dimPairs) :
    node.firstColumn < pair.1 ∧ pair.2 = pair.1 + 1 ∧ pair.2 < node.firstColumn + node.columnCount := by
  simp only [paramPairs, dimPairs, pairAt, mem_append, List.mem_map, List.mem_range] at pair_mem
  unfold columnCount
  rcases pair_mem with ⟨place, inside, rfl⟩ | ⟨place, inside, rfl⟩
  · dsimp only
    omega
  · dsimp only
    omega

theorem rowAt_congr (agree : ∀ offset < node.columnCount, τ (node.firstColumn + offset) = σ (node.firstColumn + offset)) :
    node.rowAt useBasis τ = node.rowAt useBasis σ := by
  have part_eq : ∀ index < node.space.params + node.space.dim, node.part τ index = node.part σ index := by
    intro index inside
    have negative := agree (1 + 2 * index) (by unfold columnCount; omega)
    have positive := agree (1 + 2 * index + 1) (by unfold columnCount; omega)
    simp only [← Nat.add_assoc] at negative positive
    simp only [part, pairAt, negative, positive]
  have coordinate_eq : node.coordinateAt τ = node.coordinateAt σ := by
    funext d
    unfold coordinateAt
    split_ifs with inside
    · exact part_eq _ (by omega)
    · rfl
  unfold rowAt
  rw [coordinate_eq]
  congr 1
  · exact agree 0 (by unfold columnCount; omega)
  · funext i
    split_ifs with inside
    · exact part_eq i (by omega)
    · rfl

end Node

namespace RowForms

/-- The row that the coefficients make at an assignment of the columns. -/
def row (forms : RowForms) (σ : Linear.Assignment) : AffineRow ℚ :=
  { constant := forms.constant.value σ, params := coefficient forms.params σ, dims := coefficient forms.dims σ }

/-- The forms of a node make the row of the node, with as many entries. -/
theorem row_ofNode {forms : RowForms} (formed : ofNode node useBasis = .ok forms) :
    forms.params.length = node.space.params ∧ (forms.dims.length = if useBasis then node.basis.height else node.space.dim)
      ∧ ∀ σ, forms.row σ = node.rowAt useBasis σ := by
  simp only [ofNode, ite_bind, bind_ok, pure_ok] at formed
  obtain ⟨dims, dims_ok, rfl⟩ := formed
  refine ⟨by simp [paramPairs], ?_⟩
  cases useBasis with
  | false =>
    obtain rfl := pure_ok.mp dims_ok
    refine ⟨by simp [dimPairs], fun σ => ?_⟩
    rw [row, node.coefficient_paramPairs, node.coefficient_dimPairs, Form.value_column]
    rfl
  | true =>
    rw [if_pos rfl, mapM_ok] at dims_ok
    refine ⟨dims_ok.length_eq.symm, fun σ => ?_⟩
    have dims_eq : coefficient dims σ = (node.rowAt true σ).dims := by
      funext k
      rw [← node.weigh_coordinateAt, coefficient, getD_eq_getElem?_getD, getD_eq_getElem?_getD]
      cases row_at : node.basis.rows[k]? with
      | none => simp [dims_ok.getElem?_none row_at, weigh]
      | some basisRow =>
        obtain ⟨form, form_at, step⟩ := dims_ok.getElem?_right row_at
        obtain ⟨total, total_ok, compacted⟩ := bind_ok.mp step
        rw [form_at, Option.getD_some, Form.value_compact σ compacted, Form.value_combination σ total_ok,
          sum_zip_eq_weigh, node.coefficient_dimPairs, Option.getD_some]
    rw [row, node.coefficient_paramPairs, dims_eq, Form.value_column]
    rfl

end RowForms

/-! ### Distances -/

variable {forms : List RowForms} {edge : Edge} {mapping : List Linear.Form}

/-- The value of a bound on distances. -/
def DistanceBound.value (bound : DistanceBound) (σ : Linear.Assignment) (params : ℕ → ℚ) : ℚ :=
  bound.constant.value σ + ∑ i ∈ Finset.range bound.params.length, params i * coefficient bound.params σ i

/-- The values of scaled forms. -/
theorem coefficient_of_mapM_scaled {forms scaled : List Linear.Form} {factor : ℤ}
    (done : forms.mapM (·.scaled factor) = .ok scaled) (σ : Linear.Assignment) :
    scaled.length = forms.length ∧ ∀ k, coefficient scaled σ k = factor * coefficient forms σ k := by
  rw [mapM_ok] at done
  refine ⟨done.length_eq.symm, ?_⟩
  induction done with
  | nil => simp [coefficient]
  | cons head _ ih =>
    intro k
    cases k with
    | zero => simpa [coefficient] using Form.value_scaled σ head
    | succ k => simpa [coefficient] using ih k

theorem coefficient_append_left {first second : List Linear.Form} {k : ℕ} (inside : k < first.length) :
    coefficient (first ++ second) σ k = coefficient first σ k := by
  rw [coefficient, getD_append _ _ _ _ inside, coefficient]

theorem coefficient_append_right (first second : List Linear.Form) (σ : Linear.Assignment) (k : ℕ) :
    coefficient (first ++ second) σ (first.length + k) = coefficient second σ k := by
  rw [coefficient, getD_append_right _ _ _ _ (Nat.le_add_right _ _), Nat.add_sub_cancel_left, coefficient]

/-- The mapping of an edge: the bound plus the scaled difference of the ends in the constant and the parameters, then the
    scaled dimensions, of both ends unless the edge is inside a statement. -/
theorem distanceMapping_ok {bound : DistanceBound} {scale : ℤ} {source target : RowForms}
    (mapped : distanceMapping forms edge bound.constant bound.params scale = .ok mapping)
    (source_at : forms[edge.source]? = some source) (target_at : forms[edge.target]? = some target) :
    ∃ first middle dims, mapping = first :: (middle ++ dims) ∧ middle.length = bound.params.length
      ∧ dims.length = (if edge.isIntra then source.dims.length else source.dims.length + target.dims.length)
      ∧ (∀ σ, first.value σ = bound.constant.value σ + scale * ((target.row σ).constant - (source.row σ).constant))
      ∧ (∀ σ, ∀ i < bound.params.length, coefficient middle σ i
          = coefficient bound.params σ i + scale * ((target.row σ).params i - (source.row σ).params i))
      ∧ if edge.isIntra then source = target ∧ ∀ σ k, coefficient dims σ k = scale * (source.row σ).dims k
        else ∀ σ, (∀ k < source.dims.length, coefficient dims σ k = -scale * (source.row σ).dims k)
          ∧ ∀ k, coefficient dims σ (source.dims.length + k) = scale * (target.row σ).dims k := by
  simp only [distanceMapping, bind_ok, ofOption_ok] at mapped
  obtain ⟨found, found_at, mapped⟩ := mapped
  obtain rfl := Option.mem_unique source_at found_at
  split_ifs at mapped ⊢ with intra
  · have same_end : edge.source = edge.target := of_decide_eq_true intra
    obtain rfl := Option.some.inj (source_at.symm.trans (same_end ▸ target_at))
    simp only [intraMapping, bind_ok, pure_ok] at mapped
    obtain ⟨dims, dims_ok, rfl⟩ := mapped
    exact ⟨bound.constant, bound.params, dims, rfl, rfl, (mapM_ok.mp dims_ok).length_eq.symm, by simp, by simp, rfl,
      fun σ => (coefficient_of_mapM_scaled dims_ok σ).2⟩
  · simp only [bind_ok, ofOption_ok] at mapped
    obtain ⟨reached, reached_at, mapped⟩ := mapped
    obtain rfl := Option.mem_unique target_at reached_at
    simp only [interMapping, bind_ok, pure_ok] at mapped
    obtain ⟨moved, moved_ok, first, first_ok, middle, middle_ok, sourceDims, source_ok, targetDims, target_ok,
      rfl⟩ := mapped
    rw [mapM_ok] at middle_ok
    refine ⟨first, middle, sourceDims ++ targetDims, by simp, by simpa using middle_ok.length_eq.symm, ?_, fun σ => ?_,
      fun σ i inside => ?_, fun σ => ?_⟩
    · rw [length_append, (mapM_ok.mp source_ok).length_eq, (mapM_ok.mp target_ok).length_eq]
    · rw [Form.value_addScaled σ first_ok, Form.value_addScaled σ moved_ok]
      simp only [RowForms.row]
      push_cast
      ring
    · have entry_at : bound.params.zipIdx[i]? = some (bound.params[i], i) := by simp [inside]
      obtain ⟨form, form_at, step⟩ := middle_ok.getElem?_right entry_at
      simp only [bind_ok, ofOption_ok] at step
      obtain ⟨targetPart, target_found, sum, sum_ok, sourcePart, source_found, form_ok⟩ := step
      simp only [RowForms.row, coefficient, getD_eq_getElem?_getD, form_at, target_found, source_found,
        getElem?_eq_getElem inside, Option.getD_some, Form.value_addScaled σ form_ok,
        Form.value_addScaled σ sum_ok]
      push_cast
      ring
    · obtain ⟨source_length, source_at⟩ := coefficient_of_mapM_scaled source_ok σ
      obtain ⟨_, target_at⟩ := coefficient_of_mapM_scaled target_ok σ
      refine ⟨fun k inside => ?_, fun k => ?_⟩
      · rw [coefficient_append_left (source_length.symm ▸ inside), source_at]
        push_cast
        rfl
      · rw [← source_length, coefficient_append_right, target_at]
        rfl

section Mapping

variable {bound : DistanceBound} {scale : ℤ} {source target : RowForms}
  (mapped : distanceMapping forms edge bound.constant bound.params scale = .ok mapping)
  (source_at : forms[edge.source]? = some source) (target_at : forms[edge.target]? = some target)
include mapped source_at target_at

theorem coefficient_distanceMapping_congr (constant_eq : bound.constant.value τ = bound.constant.value σ)
    (params_eq : coefficient bound.params τ = coefficient bound.params σ) (source_eq : source.row τ = source.row σ)
    (target_eq : target.row τ = target.row σ) : coefficient mapping τ = coefficient mapping σ := by
  obtain ⟨first, middle, dims, rfl, middle_length, _, first_value, middle_value, dims_value⟩ :=
    distanceMapping_ok mapped source_at target_at
  have dims_eq : ∀ k, coefficient dims τ k = coefficient dims σ k := by
    intro k
    split_ifs at dims_value with intra
    · rw [dims_value.2, dims_value.2, source_eq]
    · rcases lt_or_ge k source.dims.length with inside | beyond
      · rw [(dims_value τ).1 k inside, (dims_value σ).1 k inside, source_eq]
      · obtain ⟨offset, rfl⟩ := Nat.exists_eq_add_of_le beyond
        rw [(dims_value τ).2, (dims_value σ).2, target_eq]
  funext place
  cases place with
  | zero =>
    change first.value τ = first.value σ
    rw [first_value τ, first_value σ, constant_eq, source_eq, target_eq]
  | succ place =>
    change coefficient (middle ++ dims) τ place = coefficient (middle ++ dims) σ place
    rcases lt_or_ge place middle.length with inside | beyond
    · rw [coefficient_append_left inside, coefficient_append_left inside, middle_value τ _ (middle_length ▸ inside),
        middle_value σ _ (middle_length ▸ inside), params_eq, source_eq, target_eq]
    · obtain ⟨offset, rfl⟩ := Nat.exists_eq_add_of_le beyond
      rw [coefficient_append_right, coefficient_append_right, dims_eq]

/-- The mapping of an edge evaluates to the bound plus the scaled distance of the rows of its ends. -/
theorem formValue_distanceMapping {conjunct : Conjunct}
    (laid_out : conjunct.LaidOut source.dims.length target.dims.length bound.params.length) (σ : Linear.Assignment)
    (columns params : ℕ → ℚ) : formValue (coneKind edge) conjunct (coefficient mapping σ) columns params
      = bound.value σ params + scale * conjunct.distance (source.row σ) (target.row σ) columns params := by
  obtain ⟨first, middle, dims, rfl, middle_length, _, first_value, middle_value, dims_value⟩ :=
    distanceMapping_ok mapped source_at target_at
  have constant_at : coefficient (first :: (middle ++ dims)) σ 0 = first.value σ := rfl
  have params_sum : ∑ i ∈ Finset.range conjunct.params, params i * coefficient (first :: (middle ++ dims)) σ (1 + i)
      = ∑ i ∈ Finset.range conjunct.params, params i * coefficient bound.params σ i
        + scale * (∑ i ∈ Finset.range conjunct.params, params i * (target.row σ).params i
          - ∑ i ∈ Finset.range conjunct.params, params i * (source.row σ).params i) := by
    rw [← sum_sub_distrib, mul_sum, ← sum_add_distrib]
    refine sum_congr rfl fun i i_mem => ?_
    have inside : i < bound.params.length := laid_out.params ▸ Finset.mem_range.mp i_mem
    have param_at : coefficient (first :: (middle ++ dims)) σ (1 + i) = coefficient middle σ i := by
      rw [Nat.add_comm]
      exact coefficient_append_left (middle_length.symm ▸ inside)
    rw [param_at, middle_value σ i inside]
    ring
  have dim_at : ∀ k, coefficient (first :: (middle ++ dims)) σ (1 + conjunct.params + k) = coefficient dims σ k := by
    intro k
    rw [laid_out.params, ← middle_length, show 1 + middle.length + k = (middle.length + k) + 1 by omega]
    exact coefficient_append_right middle dims σ k
  have dims_sum : ∑ k ∈ Finset.range (dimCoefficients (coneKind edge) conjunct),
      dimensionValue (coneKind edge) conjunct columns k * coefficient dims σ k
      = scale * (∑ k ∈ Finset.range conjunct.outputs, columns (conjunct.inputs + k) * (target.row σ).dims k
        - ∑ k ∈ Finset.range conjunct.inputs, columns k * (source.row σ).dims k) := by
    unfold coneKind
    split_ifs at dims_value ⊢ with intra
    · obtain ⟨rfl, dims_value⟩ := dims_value
      rw [dimCoefficients, laid_out.outputs, laid_out.inputs, ← sum_sub_distrib, mul_sum]
      refine sum_congr rfl fun k _ => ?_
      rw [dims_value, dimensionValue, laid_out.inputs]
      ring
    · obtain ⟨source_value, target_value⟩ := dims_value σ
      rw [dimCoefficients, sum_range_add, laid_out.inputs, mul_sub, mul_sum, mul_sum, add_comm,
        sub_eq_add_neg, ← sum_neg_distrib]
      congr 1
      · refine sum_congr rfl fun k _ => ?_
        rw [target_value, dimensionValue]
        ring
      · refine sum_congr rfl fun k k_mem => ?_
        rw [source_value k (Finset.mem_range.mp k_mem), dimensionValue]
        ring
  simp only [formValue, dim_at, dims_sum, params_sum]
  rw [constant_at, first_value, DistanceBound.value, Conjunct.distance, AffineRow.time, AffineRow.time, laid_out.params]
  ring

end Mapping

/-! ### Columns -/

variable {graph : Graph}

/-- The edge with the rows that belong to it noted. -/
def Edge.Noted (edge noted : Edge) : Prop :=
  noted = { edge with firstRow := noted.firstRow, endRow := noted.endRow }

namespace Graph

variable {drawn : Graph}

/-- The graph of a search is the graph itself, with the columns of its nodes, the rows of its edges and a conflict. -/
structure Redrawn (drawn graph : Graph) : Prop where
  rest : drawn = { graph with nodes := drawn.nodes, edges := drawn.edges, conflict := drawn.conflict }
  nodes : Forall₂ (fun before after : Node => after = { before with firstColumn := after.firstColumn })
    graph.nodes drawn.nodes
  edges : Forall₂ Edge.Noted graph.edges drawn.edges

theorem Redrawn.core_eq (redrawn : drawn.Redrawn graph) : drawn.core = graph.core := by
  have nodes_eq : drawn.nodes.map Node.core = graph.nodes.map Node.core :=
    (redrawn.nodes.map_eq fun before after after_eq => by rw [after_eq]; rfl).symm
  have edges_eq : drawn.edges.map Edge.core = graph.edges.map Edge.core :=
    (redrawn.edges.map_eq fun before after noted => by rw [noted]; rfl).symm
  rw [core, core, nodes_eq, edges_eq]
  exact congrArg (fun rest => { rest with
    nodes := graph.nodes.map Node.core, edges := graph.edges.map Edge.core, conflict := none }) redrawn.rest

theorem Redrawn.params_eq (redrawn : drawn.Redrawn graph) : drawn.params = graph.params := by
  rw [redrawn.rest]

theorem Redrawn.dims_eq (redrawn : drawn.Redrawn graph) : drawn.dims = graph.dims :=
  (redrawn.nodes.map_eq fun _ _ after_eq => congrArg (·.space.dim) after_eq.symm).symm

theorem redrawn_placeNodes (positions : List ℕ) (first : ℕ) (nodes : List Node) :
    Forall₂ (fun before after : Node => after = { before with firstColumn := after.firstColumn })
      nodes (placeNodes first nodes positions).1 := by
  induction positions generalizing first nodes with
  | nil => exact forall₂_same.mpr fun _ _ => rfl
  | cons place later ih =>
    unfold placeNodes
    split
    next => exact ih first nodes
    next node node_at =>
      have placed : Forall₂ (fun before after : Node => after = { before with firstColumn := after.firstColumn })
          nodes (nodes.set place { node with firstColumn := first }) := by
        refine forall₂_of_getElem? length_set.symm ?_
        intro other before after before_at after_at
        rw [getElem?_set] at after_at
        split_ifs at after_at with same inside
        · subst same
          obtain rfl := Option.mem_unique node_at before_at
          obtain rfl := Option.some.inj after_at
          rfl
        · obtain rfl := Option.mem_unique before_at after_at
          rfl
      refine forall₂_trans (fun before middle after earlier later => ?_) placed (ih _ _)
      rw [later, earlier]

theorem redrawn_placeColumns (graph : Graph) (first : ℕ) : (graph.placeColumns first).1.Redrawn graph :=
  ⟨rfl, redrawn_placeNodes graph.sorted first graph.nodes, forall₂_same.mpr fun _ _ => rfl⟩

theorem core_placeColumns (graph : Graph) (first : ℕ) : (graph.placeColumns first).1.core = graph.core :=
  (redrawn_placeColumns graph first).core_eq

end Graph

/-! ### Cones of edges -/

variable {dims : List ℕ}

/-- The rows stay within the columns, and the cones are those of their conjuncts. -/
structure ConeProblem.Sound (state : ConeProblem) : Prop where
  bounded : state.problem.Bounded
  cache : state.cache.Sound

/-- One form per coefficient of every node. -/
structure FormsLaidOut (forms : List RowForms) (dims : List ℕ) (paramCount : ℕ) : Prop where
  dims : forms.map (·.dims.length) = dims
  params : ∀ form ∈ forms, form.params.length = paramCount

theorem FormsLaidOut.exists_ends (fit : FormsLaidOut forms dims paramCount) (laid_out : edge.LaidOut dims paramCount) :
    ∃ source target, forms[edge.source]? = some source ∧ forms[edge.target]? = some target := by
  have source_at := laid_out.source
  have target_at := laid_out.target
  rw [← fit.dims, getElem?_map, Option.map_eq_some_iff] at source_at target_at
  exact ⟨_, _, source_at.choose_spec.1, target_at.choose_spec.1⟩

/-- Without tags, a disjunct has the dimensions of the two ends. -/
theorem Edge.LaidOut.disjuncts (laid_out : edge.LaidOut dims paramCount) : ∀ disjunct ∈ edge.relation.disjuncts,
    disjunct.LaidOut edge.relation.source.dim edge.relation.target.dim paramCount := by
  intro disjunct disjunct_mem
  have disjunct_laid_out := laid_out.relation disjunct disjunct_mem
  rwa [totalDim, totalDim, tagDim, tagDim, laid_out.source_tag, laid_out.target_tag, laid_out.params] at disjunct_laid_out

/-- A pair of an edge joins columns of a disjunct that fits the forms of the ends. -/
theorem FormsLaidOut.of_relates {paramCount : ℕ} (fit : FormsLaidOut forms dims paramCount)
    (laid_out : edge.LaidOut dims paramCount) {source target : RowForms}
    (source_at : forms[edge.source]? = some source) (target_at : forms[edge.target]? = some target) :
    source.params.length = paramCount ∧ target.params.length = paramCount
      ∧ source.dims.length = edge.relation.source.dim ∧ target.dims.length = edge.relation.target.dim
      ∧ ∀ disjunct ∈ edge.relation.disjuncts,
          disjunct.LaidOut source.dims.length target.dims.length source.params.length := by
  have source_dim : source.dims.length = edge.relation.source.dim := by
    simpa [← fit.dims, source_at] using laid_out.source
  have target_dim : target.dims.length = edge.relation.target.dim := by
    simpa [← fit.dims, target_at] using laid_out.target
  have source_params := fit.params source (mem_of_getElem? source_at)
  have target_params := fit.params target (mem_of_getElem? target_at)
  refine ⟨source_params, target_params, source_dim, target_dim, ?_⟩
  rw [source_dim, target_dim, source_params]
  exact laid_out.disjuncts

/-- The coefficients of the nodes of a graph are laid out as its nodes are. -/
theorem Graph.formsLaidOut (well_formed : graph.WellFormed)
    (based : useBasis = true → ∀ node ∈ graph.nodes, node.Based) (formed : graph.coefficientForms useBasis = .ok forms) :
    FormsLaidOut forms graph.dims graph.params.length := by
  rw [coefficientForms, mapM_ok] at formed
  have lengths : ∀ {node : Node} {form : RowForms}, node ∈ graph.nodes →
      ofNode node useBasis = .ok form →
      form.dims.length = node.space.dim ∧ form.params.length = graph.params.length := by
    intro node form node_mem ok
    obtain ⟨params_eq, dims_eq, _⟩ := row_ofNode ok
    have laid_out := well_formed.nodes node node_mem
    refine ⟨?_, params_eq.trans laid_out.params⟩
    cases useBasis with
    | false => exact dims_eq
    | true => exact dims_eq.trans ((based rfl node node_mem).height_basis laid_out)
  have dims_eq : Forall₂ (fun node form => form.dims.length = node.space.dim) graph.nodes forms :=
    formed.imp_of_mem fun _ node_mem _ _ ok => (lengths node_mem ok).1
  refine ⟨(dims_eq.map_eq fun _ _ same => same.symm).symm, fun form form_mem => ?_⟩
  obtain ⟨node, node_mem, ok⟩ := formed.exists_left form_mem
  exact (lengths node_mem ok).2

/-! ### Reading a solution -/

variable {factor : ℚ} {point : Linear.Point}

/-- An integral value that is read is the value itself. -/
theorem eq_of_integralWord {value : ℚ} {word : ℤ} (done : integralWord value = .ok word) : (word : ℚ) = value := by
  unfold integralWord at done
  split_ifs at done with fractional
  obtain rfl := Except.ok.inj done
  exact Rat.coe_int_num_of_den_eq_one (not_not.mp fractional)

/-- Coefficients that are read from their parts have the values of their forms. -/
theorem getD_of_pairValues (scaled : ∀ column, point.getD column 0 = factor * σ column)
    {pairs : List (ℕ × ℕ)} (done : pairs.mapM (pairValue point) = .ok words) : words.length = pairs.length
      ∧ ∀ k, (words.getD k 0 : ℚ) = factor * coefficient (pairs.map ofPair) σ k := by
  rw [mapM_ok] at done
  refine ⟨done.length_eq.symm, fun k => ?_⟩
  rw [coefficient, getD_eq_getElem?_getD, getD_eq_getElem?_getD, getElem?_map]
  cases pair_at : pairs[k]? with
  | none => simp [done.getElem?_none pair_at]
  | some pair =>
    obtain ⟨word, word_at, word_ok⟩ := done.getElem?_right pair_at
    simp only [pairValue, bind_ok, ofOption_ok] at word_ok
    obtain ⟨positive, positive_at, negative, negative_at, word_ok⟩ := word_ok
    have positive_eq := scaled pair.2
    have negative_eq := scaled pair.1
    rw [getD_eq_getElem?_getD, positive_at, Option.getD_some] at positive_eq
    rw [getD_eq_getElem?_getD, negative_at, Option.getD_some] at negative_eq
    rw [word_at, Option.getD_some, Option.map_some, Option.getD_some, ofPair, Form.value_difference,
      eq_of_integralWord word_ok, positive_eq, negative_eq]
    ring

namespace Node

/-- The parts of a row that is read for a node. -/
theorem readRow_ok {row : List ℤ} (read : node.readRow point useBasis = .ok row) :
    ∃ entry constant params coordinate dims, point[node.firstColumn]? = some entry ∧ integralWord entry = .ok constant
      ∧ node.paramPairs.mapM (pairValue point) = .ok params ∧ node.dimPairs.mapM (pairValue point) = .ok coordinate
      ∧ (if useBasis then node.basis.mulVec coordinate else pure coordinate) = .ok dims
      ∧ row = constant :: (params ++ dims) ∧ row.drop (1 + node.space.params) = dims := by
  simp only [readRow, bind_ok, ofOption_ok] at read
  obtain ⟨entry, entry_at, constant, constant_ok, params, params_ok, coordinate, coordinate_ok, read⟩ := read
  simp only [ite_bind, bind_ok, pure_ok] at read
  obtain ⟨dims, dims_ok, rfl⟩ := read
  refine ⟨entry, constant, params, coordinate, dims, entry_at, constant_ok, params_ok, coordinate_ok, dims_ok, rfl, ?_⟩
  have params_length : params.length = node.space.params := by
    rw [← (mapM_ok.mp params_ok).length_eq, paramPairs, length_map, length_range]
  rw [Nat.add_comm, cons_append, drop_succ_cons, ← params_length, drop_left]

section Reading

variable {row : List ℤ} (scaled : ∀ column, point.getD column 0 = factor * σ column)
  (read : node.readRow point useBasis = .ok row)
include scaled read

/-- The row read at a multiple of an assignment is that multiple of the row of the node. -/
theorem ofWords_readRow : (AffineRow.ofWords node.space.params row).cast = (node.rowAt useBasis σ).scaled factor
    ∧ row.length = 1 + node.space.params + if useBasis then node.basis.height else node.space.dim := by
  obtain ⟨entry, constant, params, coordinate, dims, entry_at, constant_ok, params_ok, coordinate_ok, dims_ok, row_eq,
    row_drop⟩ := readRow_ok read
  obtain ⟨params_length, params_value⟩ := getD_of_pairValues scaled params_ok
  obtain ⟨coordinate_length, coordinate_value⟩ := getD_of_pairValues scaled coordinate_ok
  simp only [coefficient_dimPairs, coefficient_paramPairs] at params_value coordinate_value
  have constant_eq : (constant : ℚ) = factor * σ node.firstColumn := by
    rw [eq_of_integralWord constant_ok, ← scaled, getD_eq_getElem?_getD, entry_at, Option.getD_some]
  have dims_eq : (dims.length = if useBasis then node.basis.height else node.space.dim)
      ∧ ∀ k, (dims.getD k 0 : ℚ) = factor * (node.rowAt useBasis σ).dims k := by
    cases useBasis with
    | false =>
      obtain rfl := pure_ok.mp dims_ok
      exact ⟨by simpa [dimPairs] using coordinate_length, coordinate_value⟩
    | true =>
      obtain ⟨_, length_eq, entries⟩ := RowMatrix.mulVec_ok (by simpa using dims_ok)
      refine ⟨length_eq, fun k => ?_⟩
      rw [entries, dot_eq_sum, ← node.weigh_coordinateAt, weigh, mul_sum]
      push_cast
      refine sum_congr rfl fun d _ => ?_
      rw [AffineSchedule.coordinates, coordinate_value]
      ring
  refine ⟨?_, ?_⟩
  · rw [AffineRow.cast, AffineRow.scaled]
    congr 1
    · rw [row_eq]
      exact constant_eq
    · funext i
      rw [AffineRow.ofWords, row_eq]
      dsimp only
      split_ifs with inside
      · rw [drop_one, tail_cons, getD_append _ _ _ _ (by simpa [params_length, paramPairs] using inside), params_value]
        rfl
      · simp [rowAt, inside]
    · funext k
      rw [AffineRow.ofWords, row_drop]
      exact dims_eq.2 k
  · rw [row_eq, length_cons, length_append, dims_eq.1, params_length, paramPairs, length_map, length_range]
    omega

end Reading

end Node

namespace Graph

variable {rows : List (List ℤ)}

/-- The rows that an assignment of the columns gives to the nodes. -/
def rowsAt (graph : Graph) (useBasis : Bool) (σ : Linear.Assignment) (place : ℕ) : AffineRow ℚ :=
  graph.nodes[place]?.elim AffineRow.zero (·.rowAt useBasis σ)

/-- Rows that are given by their entries, one list per node. -/
def rowsOf (paramCount : ℕ) (rows : List (List ℤ)) (place : ℕ) : AffineRow ℤ :=
  AffineRow.ofWords paramCount (rows.getD place [])

/-- The rows read at a multiple of an assignment are that multiple of the rows of the nodes. -/
theorem rowsOf_readRows (well_formed : graph.WellFormed)
    (scaled : ∀ column, point.getD column 0 = factor * σ column) (read : graph.readRows point useBasis = .ok rows) (place : ℕ) :
    (rowsOf graph.params.length rows place).cast = (graph.rowsAt useBasis σ place).scaled factor := by
  rw [readRows, mapM_ok] at read
  rw [rowsOf, rowsAt, getD_eq_getElem?_getD]
  cases node_at : graph.nodes[place]? with
  | none =>
    simp [read.getElem?_none node_at, AffineRow.ofWords, AffineRow.cast, AffineRow.scaled, AffineRow.zero]
  | some node =>
    obtain ⟨row, row_at, row_ok⟩ := read.getElem?_right node_at
    rw [row_at, Option.getD_some, ← (well_formed.nodes node (mem_of_getElem? node_at)).params]
    exact (ofWords_readRow scaled row_ok).1

theorem unscaled_assignment (point : Linear.Point) (column : ℕ) :
    point.getD column 0 = 1 * Linear.Point.assignment point column := (one_mul _).symm

/-- Every row has an entry for the constant, for every parameter and for every dimension of its node. -/
def RowsLaidOut (graph : Graph) (rows : List (List ℤ)) : Prop :=
  ∀ (i : ℕ) (node : Node) (row : List ℤ), graph.nodes[i]? = some node → rows[i]? = some row →
    row.length = 1 + graph.params.length + node.space.dim

theorem rowsLaidOut_of_readRows (well_formed : graph.WellFormed)
    (based : useBasis = true → ∀ node ∈ graph.nodes, node.Based) (read : graph.readRows point useBasis = .ok rows) :
    graph.RowsLaidOut rows := by
  intro i node row node_at row_at
  have row_ok := (mapM_ok.mp read).related_at node_at row_at
  have node_mem := mem_of_getElem? node_at
  have laid_out := well_formed.nodes node node_mem
  rw [(ofWords_readRow (unscaled_assignment point) row_ok).2, laid_out.params]
  cases useBasis with
  | false => rfl
  | true => rw [if_pos rfl, (based rfl node node_mem).height_basis laid_out]

/-- The disjuncts of an edge are laid out for the nodes at its ends. -/
theorem WellFormed.laidOut_ends (well_formed : graph.WellFormed) (edge_mem : edge ∈ graph.edges) {source target : Node}
    (source_at : graph.nodes[edge.source]? = some source) (target_at : graph.nodes[edge.target]? = some target)
    {disjunct : Conjunct} (disjunct_mem : disjunct ∈ edge.relation.disjuncts) :
    source.space.dim = edge.relation.source.dim ∧ target.space.dim = edge.relation.target.dim
      ∧ disjunct.LaidOut source.space.dim target.space.dim graph.params.length := by
  have edge_laid_out := well_formed.edges edge edge_mem
  have source_dim : source.space.dim = edge.relation.source.dim := by
    simpa [dims, source_at] using edge_laid_out.source
  have target_dim : target.space.dim = edge.relation.target.dim := by
    simpa [dims, target_at] using edge_laid_out.target
  rw [source_dim, target_dim]
  exact ⟨rfl, rfl, edge_laid_out.disjuncts disjunct disjunct_mem⟩

theorem exists_distance (well_formed : graph.WellFormed) (laid_out : graph.RowsLaidOut rows) (edge_mem : edge ∈ graph.edges)
    {params x y : ℕ → ℤ} (related : edge.relation.Relates params x y) {rowI rowJ : List ℤ}
    (rowI_at : rows[edge.source]? = some rowI) (rowJ_at : rows[edge.target]? = some rowJ) :
    ∃ disjunct ∈ edge.relation.disjuncts, disjunct.MayHold ∧ ∃ columns : ℕ → ℚ, disjunct.system.HoldsAt columns (params ·)
      ∧ disjunct.distance (rowsOf graph.params.length rows edge.source).cast
          (rowsOf graph.params.length rows edge.target).cast columns (params ·)
        = ((AffineForm.rowValue rowJ graph.params.length y params - AffineForm.rowValue rowI graph.params.length x params : ℤ) : ℚ) := by
  obtain ⟨disjunct, disjunct_mem, columns, joins, holds⟩ := related
  obtain ⟨source, target, source_at, target_at⟩ := well_formed.exists_ends edge_mem
  obtain ⟨source_dim, target_dim, disjunct_laid_out⟩ :=
    well_formed.laidOut_ends edge_mem source_at target_at disjunct_mem
  refine ⟨disjunct, disjunct_mem, fun tested => Polyhedron.not_holds_of_isEmpty disjunct_laid_out.system tested columns params holds, (columns ·),
    (Polyhedron.holdsAt_intCast_iff _ columns params).mpr holds, ?_⟩
  have rowI_eq : rowsOf graph.params.length rows edge.source = AffineRow.ofWords graph.params.length rowI := by
    rw [rowsOf, getD_eq_getElem?_getD, rowI_at, Option.getD_some]
  have rowJ_eq : rowsOf graph.params.length rows edge.target = AffineRow.ofWords graph.params.length rowJ := by
    rw [rowsOf, getD_eq_getElem?_getD, rowJ_at, Option.getD_some]
  rw [Conjunct.distance, disjunct_laid_out.params, disjunct_laid_out.inputs, disjunct_laid_out.outputs, rowI_eq, rowJ_eq, Int.cast_sub,
    AffineForm.rowValue_eq_time (laid_out _ _ _ source_at rowI_at), AffineForm.rowValue_eq_time (laid_out _ _ _ target_at rowJ_at)]
  congr 1
  · refine AffineRow.time_congr fun k inside => ?_
    rw [← joins.target k (target_dim ▸ inside), disjunct_laid_out.inputs]
  · refine AffineRow.time_congr fun k inside => ?_
    rw [← joins.source k (source_dim ▸ inside)]

/-- The forms at a position make the row of the node there. -/
theorem row_eq_rowsAt {forms : List RowForms} (formed : graph.coefficientForms useBasis = .ok forms) {place : ℕ}
    {form : RowForms} (form_at : forms[place]? = some form) (σ : Linear.Assignment) :
    form.row σ = graph.rowsAt useBasis σ place := by
  obtain ⟨node, node_at, form_ok⟩ := (mapM_ok.mp formed).getElem?_left form_at
  rw [rowsAt, node_at, (row_ofNode form_ok).2.2]
  rfl

end Graph

end AffineSchedule
