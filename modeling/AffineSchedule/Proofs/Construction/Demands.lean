import AffineSchedule.Construction.Carrying
import AffineSchedule.Proofs.Construction.Coefficients
import AffineSchedule.Proofs.Dependence.Faults

namespace AffineSchedule

open Checked Linear Cone List Edge ConeProblem DistanceBound

/-! ### Cones at a point -/

variable {problem extended : Problem} {columns : ℕ} {mapping : List Form} {σ : Assignment}

/-- A point of the problem that has given values below a column. -/
def Linear.Problem.Lifts (problem : Problem) (columns : ℕ) (σ : Assignment) : Prop :=
  ∃ τ : Assignment, (∀ column < columns, τ column = σ column) ∧ Satisfies τ problem.rows

theorem Cone.lifts_of_plugInto {cone : Cone} (bounded : problem.Bounded)
    (columns_le : columns ≤ problem.columns)
    (same : ∀ τ : Assignment, (∀ column < columns, τ column = σ column) → coefficient mapping τ = coefficient mapping σ)
    (admits : cone.Admits (coefficient mapping σ)) (lifts : problem.Lifts columns σ)
    (plugged : cone.plugInto problem mapping = .ok extended) : extended.Lifts columns σ := by
  obtain ⟨τ, agree, satisfied⟩ := lifts
  rw [← same τ agree] at admits
  have still_agrees : ∀ ρ : Assignment, (∀ column < problem.columns, ρ column = τ column) → ∀ column < columns, ρ column = σ column :=
    fun ρ ρ_agrees column below => (ρ_agrees column (below.trans_le columns_le)).trans (agree column below)
  obtain ⟨widened, below, beyond, fresh⟩ := (exists_multiplier_columns_iff fun ρ ρ_agrees =>
    (same ρ (still_agrees ρ ρ_agrees)).trans (same τ agree).symm).mpr admits
  refine ⟨widened, still_agrees widened below, (satisfies_plugInto_iff plugged widened).mpr ⟨⟨fun column => ?_, ?_⟩, fresh⟩⟩
  · rcases lt_or_ge column problem.columns with inside | outside
    · rw [below column inside]
      exact satisfied.nonneg column
    · exact beyond column outside
  · intro row row_mem
    rw [Row.Holds, Form.value_congr (bounded row row_mem) below]
    exact satisfied.holds row row_mem

/-! ### Demands -/

variable {graph : Graph} {useBasis : Bool} {paramCount : ℕ} {forms : List RowForms}

/-- A distance that is asked for on one disjunct of an edge: the bound plus a multiple of the distance is not negative. -/
structure Demand where
  edge : Edge
  disjunct : Conjunct
  bound : DistanceBound
  scale : ℤ

/-- The bound depends on columns before a given one only. -/
def DistanceBound.LocalTo (bound : DistanceBound) (columns : ℕ) : Prop :=
  ∀ σ τ : Assignment, (∀ column < columns, τ column = σ column) →
    bound.constant.value τ = bound.constant.value σ ∧ coefficient bound.params τ = coefficient bound.params σ

namespace Demand

variable {τ : Assignment}

/-- The coefficients that the forms of the ends give to a demand. -/
def coefficients (forms : List RowForms) (demand : Demand) : Checked (List Form) :=
  distanceMapping forms demand.edge demand.bound.constant demand.bound.params demand.scale

/-- The cone of the disjunct of a demand. -/
def cone (demand : Demand) : Checked Cone :=
  Cone.ofConjunct (coneKind demand.edge) demand.disjunct

/-- The edge of a demand fits nodes of given dimensions, and has the disjunct. -/
structure LaidOut (demand : Demand) (dims : List ℕ) (paramCount : ℕ) : Prop where
  edge : demand.edge.LaidOut dims paramCount
  disjunct : demand.disjunct ∈ demand.edge.relation.disjuncts
  bound : demand.bound.params.length = paramCount

/-- Rows, one per node, keep a demand, with the bound at an assignment of the columns. -/
def KeptAt (demand : Demand) (rows : ℕ → AffineRow ℚ) (σ : Assignment) : Prop :=
  demand.disjunct.MayHold → ∀ columns params : ℕ → ℚ, demand.disjunct.system.HoldsAt columns params →
    0 ≤ demand.bound.value σ params
      + demand.scale * demand.disjunct.distance (rows demand.edge.source) (rows demand.edge.target) columns params

variable {demand : Demand} (fit : FormsLaidOut forms graph.dims graph.params.length)
  (formed : graph.coefficientForms useBasis = .ok forms) (laid_out : demand.LaidOut graph.dims graph.params.length)
  (mapped : demand.coefficients forms = .ok mapping)
include fit formed laid_out mapped

/-- The cone of a demand admits the coefficients of the rows that keep the demand. -/
theorem admits_iff {cone : Cone} (made : demand.cone = .ok cone) (σ : Assignment) :
    cone.Admits (coefficient mapping σ) ↔ demand.KeptAt (graph.rowsAt useBasis σ) σ := by
  obtain ⟨source, target, source_at, target_at⟩ := fit.exists_ends laid_out.edge
  obtain ⟨source_params, _, _, _, disjunct_laid_out⟩ := fit.of_relates laid_out.edge source_at target_at
  have disjunct_fits := disjunct_laid_out demand.disjunct laid_out.disjunct
  rw [source_params, ← laid_out.bound] at disjunct_fits
  rw [Cone.admits_iff disjunct_fits made, KeptAt]
  simp only [formValue_distanceMapping mapped source_at target_at disjunct_fits,
    Graph.row_eq_rowsAt formed source_at, Graph.row_eq_rowsAt formed target_at]

/-- The coefficients of a demand depend on the bound and the rows of the ends only. -/
theorem coefficient_congr (local_to : demand.bound.LocalTo columns) (agree : ∀ column < columns, τ column = σ column)
    (rows_eq : graph.rowsAt useBasis τ = graph.rowsAt useBasis σ) : coefficient mapping τ = coefficient mapping σ := by
  obtain ⟨source, target, source_at, target_at⟩ := fit.exists_ends laid_out.edge
  obtain ⟨constant_eq, params_eq⟩ := local_to σ τ agree
  refine coefficient_distanceMapping_congr mapped source_at target_at constant_eq params_eq ?_ ?_
  · rw [Graph.row_eq_rowsAt formed source_at, Graph.row_eq_rowsAt formed source_at, rows_eq]
  · rw [Graph.row_eq_rowsAt formed target_at, Graph.row_eq_rowsAt formed target_at, rows_eq]

end Demand

theorem Demand.length_coefficients {dims : List ℕ} {demand : Demand} {cone : Cone}
    (fit : FormsLaidOut forms dims paramCount) (laid_out : demand.LaidOut dims paramCount)
    (mapped : demand.coefficients forms = .ok mapping) (made : demand.cone = .ok cone) : mapping.length = cone.dim := by
  obtain ⟨source, target, source_at, target_at⟩ := fit.exists_ends laid_out.edge
  obtain ⟨source_params, _, _, _, disjuncts_laid_out⟩ := fit.of_relates laid_out.edge source_at target_at
  obtain ⟨first, middle, dims, rfl, middle_length, dims_length, _, _, dims_value⟩ :=
    distanceMapping_ok mapped source_at target_at
  have disjunct_laid_out := disjuncts_laid_out demand.disjunct laid_out.disjunct
  rw [source_params] at disjunct_laid_out
  rw [(ofConjunct_ok made).2.1, length_cons, length_append, middle_length, dims_length, laid_out.bound,
    disjunct_laid_out.params]
  unfold coneKind
  cases intra : demand.edge.isIntra with
  | true =>
    rw [intra, if_pos rfl] at dims_value
    obtain ⟨rfl, _⟩ := dims_value
    rw [if_pos rfl, if_pos rfl, dimCoefficients, disjunct_laid_out.inputs]
    omega
  | false =>
    rw [if_neg Bool.false_ne_true, if_neg Bool.false_ne_true, dimCoefficients, disjunct_laid_out.inputs,
      disjunct_laid_out.outputs]
    omega

/-! ### Faults of cones -/

variable {edge : Edge} {conjunct : Conjunct} {kind : ConeKind}

namespace Cone

theorem routine_ofConjunct (same_sides : kind = .distance → conjunct.inputs = conjunct.outputs) :
    Routine (ofConjunct kind conjunct) := by
  have entries : ∀ inequalities entry, Routine (negatedEntries inequalities entry) := by
    intro inequalities entry
    simp [negatedEntries]
  have column_rows : ∀ dim inequalities column, Routine (columnRow kind conjunct dim inequalities column) := by
    intro dim inequalities column
    simp [columnRow, entries]
  have param_rows : ∀ dim inequalities index, Routine (paramRow dim inequalities index) := by
    intro dim inequalities index
    simp [paramRow, entries]
  have inequalities : ∀ constraint : Constraint, Routine constraint.inequalities := by
    intro constraint
    unfold Constraint.inequalities
    split <;> simp
  have built : ∀ dim, Routine (build kind conjunct dim) := by
    intro dim
    simp [build, constantRow, entries, column_rows, param_rows, inequalities]
  simp only [ofConjunct, faultsIn_ite_iff, faultsIn_bind_iff, faultsIn_throw_iff]
  refine ⟨?_, fun _ => ?_⟩
  · rintro ⟨is_distance, different⟩
    exact absurd (same_sides is_distance) different
  · simp [built]

theorem routine_plugInto {cone : Cone} (length_eq : mapping.length = cone.dim) (problem : Problem) :
    Routine (cone.plugInto problem mapping) := by
  simp [plugInto, instantiate, length_eq]

end Cone

theorem ConeCache.routine_get (cache : ConeCache) (same_sides : kind = .distance → conjunct.inputs = conjunct.outputs) :
    Routine (cache.get kind conjunct) := by
  unfold ConeCache.get
  split
  · simp
  · simp [Cone.routine_ofConjunct same_sides]

@[simp] theorem routine_distanceMapping (forms : List RowForms) (edge : Edge) (constant : Form)
    (params : List Form) (scale : ℤ) : Routine (distanceMapping forms edge constant params scale) := by
  simp [distanceMapping, intraMapping, interMapping]

/-- The disjuncts of an edge inside one statement have as many inputs as outputs. -/
theorem Edge.LaidOut.same_sides {dims : List ℕ} (laid_out : edge.LaidOut dims paramCount) {disjunct : Conjunct}
    (disjunct_mem : disjunct ∈ edge.relation.disjuncts) :
    coneKind edge = .distance → disjunct.inputs = disjunct.outputs := by
  intro is_distance
  have intra : edge.isIntra = true := by
    unfold coneKind at is_distance
    split_ifs at is_distance with intra
    exact intra
  have same_ends : edge.source = edge.target := of_decide_eq_true intra
  have disjunct_laid_out := laid_out.disjuncts disjunct disjunct_mem
  have source_at := laid_out.source
  rw [same_ends, laid_out.target, Option.some.injEq] at source_at
  rw [disjunct_laid_out.inputs, disjunct_laid_out.outputs, source_at]

namespace ConeProblem

/-- Plugs in the cone of a demand. -/
def meet (forms : List RowForms) (state : ConeProblem) (demand : Demand) : Checked ConeProblem := do
  state.addDisjunct demand.edge (← demand.coefficients forms) demand.disjunct

theorem routine_meet {dims : List ℕ} {state : ConeProblem} {demand : Demand} (cache_sound : state.cache.Sound)
    (fit : FormsLaidOut forms dims paramCount) (laid_out : demand.LaidOut dims paramCount) :
    Routine (state.meet forms demand) := by
  simp only [meet, Demand.coefficients, addDisjunct, faultsIn_bind_iff, routine_distanceMapping, true_and, faultsIn_pure,
    implies_true, and_true]
  intro mapping mapped
  refine ⟨state.cache.routine_get (laid_out.edge.same_sides laid_out.disjunct), ?_⟩
  rintro ⟨cone, cache⟩ found
  exact routine_plugInto (Demand.length_coefficients fit laid_out mapped (cache_sound.get found).1) state.problem

/-- The cones of all demands on the rows of a graph have been plugged into a problem. -/
structure Met (graph : Graph) (useBasis : Bool) (demands : List Demand) (start final : ConeProblem) : Prop where
  sound : final.Sound
  continues : final.problem.Continues start.problem
  /-- The columns of the multipliers are rational. -/
  rational : ∀ column, final.problem.integer[column]? = some true → column < start.problem.columns
  kept : ∀ σ, Satisfies σ final.problem.rows → ∀ demand ∈ demands, demand.KeptAt (graph.rowsAt useBasis σ) σ
  lifts : ∀ columns ≤ start.problem.columns, ∀ σ, start.problem.Lifts columns σ →
    (∀ τ : Assignment, (∀ column < columns, τ column = σ column) → graph.rowsAt useBasis τ = graph.rowsAt useBasis σ) →
    (∀ demand ∈ demands, demand.bound.LocalTo columns ∧ demand.KeptAt (graph.rowsAt useBasis σ) σ) →
    final.problem.Lifts columns σ

/-- Demands that are met one after another have all been met in the end. -/
theorem meets_demands {demands : List Demand} {start : ConeProblem} (sound : start.Sound)
    (fit : FormsLaidOut forms graph.dims graph.params.length) (formed : graph.coefficientForms useBasis = .ok forms)
    (laid_out : ∀ demand ∈ demands, demand.LaidOut graph.dims graph.params.length) :
    Meets Fault.Routine (demands.foldlM (meet forms) start) (Met graph useBasis demands start) := by
  induction demands generalizing start with
  | nil =>
    exact meets_pure ⟨sound, .refl _, fun column integral => (List.getElem?_eq_some_iff.mp integral).1, by simp,
      fun _ _ _ lifts _ _ => lifts⟩
  | cons demand later ih =>
    obtain ⟨demand_laid_out, later_laid_out⟩ := forall_mem_cons.mp laid_out
    rw [foldlM_cons]
    refine (routine_meet sound.cache fit demand_laid_out).bind fun next step => ?_
    simp only [meet, addDisjunct, bind_ok, pure_ok] at step
    obtain ⟨mapping, mapped, ⟨cone, cache⟩, found, problem, plugged, rfl⟩ := step
    obtain ⟨cone_ok, cache_sound⟩ := sound.cache.get found
    obtain ⟨_, rows, _, problem_eq, _⟩ := plugInto_ok plugged
    have continued := continues_of_plugInto plugged
    have admits_iff := Demand.admits_iff fit formed demand_laid_out mapped cone_ok
    refine (ih ⟨bounded_of_plugInto plugged sound.bounded, cache_sound⟩ later_laid_out).imp fun final met => ?_
    refine ⟨met.sound, met.continues.trans continued, fun column integral => ?_, fun σ satisfied => ?_, ?_⟩
    · have inside := met.rational column integral
      obtain ⟨rest, integer_eq⟩ := met.continues.integer
      rw [← integer_eq, getElem?_append_left inside, problem_eq, getElem?_append] at integral
      split_ifs at integral with below
      · exact below
      · cases eq_of_mem_replicate (mem_of_getElem? integral)
    · have admitted := ((satisfies_plugInto_iff plugged σ).mp (met.continues.satisfies satisfied)).2
      exact forall_mem_cons.mpr ⟨(admits_iff σ).mp ⟨_, fun _ => satisfied.nonneg _, admitted⟩, met.kept σ satisfied⟩
    · intro columns columns_le σ lifts rows_local demanded
      obtain ⟨⟨local_to, kept⟩, later_demanded⟩ := forall_mem_cons.mp demanded
      have same : ∀ τ : Assignment, (∀ column < columns, τ column = σ column) → coefficient mapping τ = coefficient mapping σ :=
        fun τ agree => Demand.coefficient_congr fit formed demand_laid_out mapped local_to agree (rows_local τ agree)
      exact met.lifts columns (columns_le.trans continued.columns_le) σ
        (lifts_of_plugInto sound.bounded columns_le same ((admits_iff σ).mpr kept) lifts plugged) rows_local later_demanded

end ConeProblem

/-! ### Demands of the next row -/

variable {coincide : Bool}

namespace Edge

/-- One demand on all disjuncts of an edge. -/
def demands (edge : Edge) (bound : DistanceBound) (scale : ℤ) : List Demand :=
  edge.relation.disjuncts.map fun disjunct => { edge := edge, disjunct := disjunct, bound := bound, scale := scale }

/-- The demands of an edge that must not run backwards. -/
def forwardDemands (edge : Edge) (paramCount : ℕ) (coincide : Bool) : List Demand :=
  if edge.mustRunForward coincide then edge.demands (DistanceBound.zero paramCount) 1 else []

/-- The demands of an edge with a bounded distance. -/
def boundedDemands (edge : Edge) (paramCount : ℕ) (coincide : Bool) : List Demand :=
  let forced := edge.forcesZero coincide
  if !edge.has .proximity && !forced then []
  else
    let bound := if forced then DistanceBound.zero paramCount else inColumns paramCount
    let fromBelow := !edge.has .validity && (!forced || edge.isLocal)
    (if fromBelow then [-1, 1] else [-1]).flatMap (edge.demands bound)

end Edge

/-- The demands of the problem of the next row, in their order. -/
def rowDemands (edges : List Edge) (paramCount : ℕ) (coincide : Bool) : List Demand :=
  (edges.flatMap fun edge => if edge.isIntra then edge.forwardDemands paramCount coincide else [])
    ++ (edges.flatMap fun edge => if edge.isIntra then [] else edge.forwardDemands paramCount coincide)
    ++ edges.flatMap (·.boundedDemands paramCount coincide)

/-- What the next row may do along an edge, by a distance and the limit of distances: it does not run backwards along validity,
    is constant along distances that are forced to zero, and stays within the limit along other proximity. -/
structure Edge.Allows (edge : Edge) (coincide : Bool) (distance limit : ℚ) : Prop where
  forward : edge.has .validity = true → 0 ≤ distance
  constant : edge.forcesZero coincide = true → distance = 0
  near : edge.has .proximity = true → edge.forcesZero coincide = false →
    distance ≤ limit ∧ (edge.has .validity = false → -limit ≤ distance)

/-- The edge allows the distances of rows at all points of its disjuncts that may hold. -/
def Edge.Respected (edge : Edge) (coincide : Bool) (rows : ℕ → AffineRow ℚ) (limit : (ℕ → ℚ) → ℚ) :
    Prop :=
  ∀ disjunct ∈ edge.relation.disjuncts, disjunct.MayHold → ∀ columns params : ℕ → ℚ, disjunct.system.HoldsAt columns params →
    edge.Allows coincide (disjunct.distance (rows edge.source) (rows edge.target) columns params) (limit params)

section RowDemands

variable {edges : List Edge} {rows : ℕ → AffineRow ℚ}

@[simp] theorem DistanceBound.value_zero (count : ℕ) (σ : Assignment) (params : ℕ → ℚ) :
    (DistanceBound.zero count).value σ params = 0 := by
  have zeros : coefficient (List.replicate count Form.zero) σ = 0 := by
    funext i
    rw [coefficient, getD_eq_getElem?_getD, getElem?_replicate]
    split_ifs <;> simp
  simp [DistanceBound.value, DistanceBound.zero, zeros]

theorem mem_rowDemands_iff {demand : Demand} : demand ∈ rowDemands edges paramCount coincide ↔ ∃ edge ∈ edges,
    demand ∈ edge.forwardDemands paramCount coincide ∨ demand ∈ edge.boundedDemands paramCount coincide := by
  simp only [rowDemands, mem_append, mem_flatMap]
  constructor
  · rintro ((⟨edge, edge_mem, demand_mem⟩ | ⟨edge, edge_mem, demand_mem⟩) | ⟨edge, edge_mem, demand_mem⟩)
    · split at demand_mem
      · exact ⟨edge, edge_mem, Or.inl demand_mem⟩
      · cases demand_mem
    · split at demand_mem
      · cases demand_mem
      · exact ⟨edge, edge_mem, Or.inl demand_mem⟩
    · exact ⟨edge, edge_mem, Or.inr demand_mem⟩
  · rintro ⟨edge, edge_mem, forward | bounded⟩
    · cases intra : edge.isIntra with
      | true => exact Or.inl (Or.inl ⟨edge, edge_mem, by rwa [if_pos intra]⟩)
      | false => exact Or.inl (Or.inr ⟨edge, edge_mem, by rwa [if_neg (by simp [intra])]⟩)
    · exact Or.inr ⟨edge, edge_mem, bounded⟩

theorem of_mem_rowDemands {demand : Demand} (demand_mem : demand ∈ rowDemands edges paramCount coincide) :
    demand.edge ∈ edges ∧ demand.disjunct ∈ demand.edge.relation.disjuncts
      ∧ (demand.edge.mustRunForward coincide = true ∧ demand.bound = DistanceBound.zero paramCount ∧ demand.scale = 1
        ∨ demand.edge.forcesZero coincide = true ∧ demand.bound = DistanceBound.zero paramCount
        ∨ demand.edge.has .proximity = true ∧ demand.edge.forcesZero coincide = false
          ∧ demand.bound = inColumns paramCount
          ∧ (demand.scale = -1 ∨ demand.scale = 1 ∧ demand.edge.has .validity = false)) := by
  obtain ⟨edge, edge_mem, forward | bounded⟩ := mem_rowDemands_iff.mp demand_mem
  · unfold forwardDemands at forward
    split at forward
    next runs =>
      obtain ⟨disjunct, disjunct_mem, rfl⟩ := mem_map.mp forward
      exact ⟨edge_mem, disjunct_mem, Or.inl ⟨runs, rfl, rfl⟩⟩
    next => cases forward
  · simp only [boundedDemands] at bounded
    split at bounded
    next => cases bounded
    next is_bounded =>
      obtain ⟨scale, scale_mem, demand_mem⟩ := mem_flatMap.mp bounded
      obtain ⟨disjunct, disjunct_mem, rfl⟩ := mem_map.mp demand_mem
      refine ⟨edge_mem, disjunct_mem, Or.inr ?_⟩
      cases forced : edge.forcesZero coincide with
      | true => exact Or.inl ⟨rfl, rfl⟩
      | false =>
        simp only [forced, Bool.not_false, Bool.true_or, Bool.and_true, Bool.not_eq_true', Bool.not_eq_false] at is_bounded scale_mem
        refine Or.inr ⟨is_bounded, rfl, rfl, ?_⟩
        split_ifs at scale_mem with unordered
        · simpa [unordered] using scale_mem
        · exact Or.inl (mem_singleton.mp scale_mem)

/-- The demands of the next row are kept by the rows that respect all edges. -/
theorem keptAt_rowDemands_iff : (∀ demand ∈ rowDemands edges paramCount coincide, demand.KeptAt rows σ) ↔
    ∀ edge ∈ edges, edge.Respected coincide rows ((inColumns paramCount).value σ) := by
  constructor
  · intro kept edge edge_mem disjunct disjunct_mem may_hold columns params holds
    set distance := disjunct.distance (rows edge.source) (rows edge.target) columns params with distance_def
    have demanded : ∀ (bound : DistanceBound) (scale : ℤ), (∀ demand ∈ edge.demands bound scale,
        demand ∈ rowDemands edges paramCount coincide) → 0 ≤ bound.value σ params + scale * distance := by
      intro bound scale all_mem
      exact kept _ (all_mem _ (mem_map.mpr ⟨disjunct, disjunct_mem, rfl⟩)) may_hold columns params holds
    have forward : edge.mustRunForward coincide = true → 0 ≤ distance := by
      intro runs
      have nonneg := demanded (DistanceBound.zero paramCount) 1 fun demand demand_mem =>
        mem_rowDemands_iff.mpr ⟨edge, edge_mem, Or.inl (by rwa [forwardDemands, if_pos runs])⟩
      simpa using nonneg
    have bounded : ∀ scale : ℤ, (scale = -1 ∨ scale = 1 ∧ edge.has .validity = false) → ∀ bound,
        (edge.has .proximity = true ∧ edge.forcesZero coincide = false ∧ bound = inColumns paramCount
          ∨ edge.forcesZero coincide = true ∧ bound = DistanceBound.zero paramCount ∧ scale = -1) →
        0 ≤ bound.value σ params + scale * distance := by
      intro scale is_scale bound is_bound
      refine demanded bound scale fun demand demand_mem => mem_rowDemands_iff.mpr ⟨edge, edge_mem, Or.inr ?_⟩
      simp only [boundedDemands]
      rcases is_bound with ⟨near, free, rfl⟩ | ⟨forced, rfl, rfl⟩
      · rw [if_neg (by simp [near]), free]
        refine mem_flatMap.mpr ⟨scale, ?_, demand_mem⟩
        rcases is_scale with rfl | ⟨rfl, unordered⟩
        · split_ifs <;> simp
        · simp [unordered]
      · rw [if_neg (by simp [forced]), forced, if_pos rfl]
        exact mem_flatMap.mpr ⟨-1, by split_ifs <;> simp, demand_mem⟩
    refine ⟨fun ordered => forward (by rw [mustRunForward, ordered, Bool.true_or]), fun forced => ?_,
      fun near free => ⟨?_, fun unordered => ?_⟩⟩
    · have backward := bounded (-1) (Or.inl rfl) _ (Or.inr ⟨forced, rfl, rfl⟩)
      rw [value_zero] at backward
      push_cast at backward
      exact le_antisymm (by linarith) (forward (by rw [mustRunForward, forced, Bool.or_true]))
    · have above := bounded (-1) (Or.inl rfl) _ (Or.inl ⟨near, free, rfl⟩)
      push_cast at above
      linarith
    · have below := bounded 1 (Or.inr ⟨rfl, unordered⟩) _ (Or.inl ⟨near, free, rfl⟩)
      push_cast at below
      linarith
  · intro respected demand demand_mem may_hold columns params holds
    obtain ⟨edge_mem, disjunct_mem, asked⟩ := of_mem_rowDemands demand_mem
    obtain ⟨forward, constant, near⟩ := respected demand.edge edge_mem demand.disjunct disjunct_mem may_hold columns params holds
    rcases asked with ⟨runs, bound_eq, scale_eq⟩ | ⟨forced, bound_eq⟩ | ⟨is_near, free, bound_eq, scale_cases⟩
    · rw [bound_eq, scale_eq, value_zero, zero_add, Int.cast_one, one_mul]
      rw [mustRunForward, Bool.or_eq_true] at runs
      exact runs.elim forward fun forced => (constant forced).ge
    · rw [bound_eq, value_zero, constant forced, mul_zero, add_zero]
    · obtain ⟨above, below⟩ := near is_near free
      rw [bound_eq]
      rcases scale_cases with scale_eq | ⟨scale_eq, unordered⟩
      · rw [scale_eq]
        push_cast
        linarith
      · rw [scale_eq, Int.cast_one, one_mul]
        linarith [below unordered]

end RowDemands

/-! ### Plugging in the demands -/

section Building

variable {noted : List Edge} {state : ConeProblem} {edges : List Edge}

theorem cuts_addDistance (bound : DistanceBound) (scale : ℤ) :
    Cuts Fault.Routine (distanceMapping forms edge bound.constant bound.params scale >>= state.addEdge edge)
      ((edge.demands bound scale).foldlM (ConeProblem.meet forms) state) := by
  cases mapped : distanceMapping forms edge bound.constant bound.params scale with
  | error fault => exact Or.inr ⟨fault, routine_distanceMapping _ _ _ _ _ fault mapped, rfl⟩
  | ok mapping =>
    rw [Edge.demands, foldlM_map]
    simp only [ConeProblem.meet, Demand.coefficients, mapped]
    exact .refl _

theorem cuts_addForward (runs : edge.mustRunForward coincide = true) :
    Cuts Fault.Routine (state.addForward forms paramCount edge)
      ((edge.forwardDemands paramCount coincide).foldlM (ConeProblem.meet forms) state) := by
  rw [forwardDemands, if_pos runs]
  exact cuts_addDistance (DistanceBound.zero paramCount) 1

theorem cuts_addForwardIntra :
    Cuts Fault.Routine ((edges.filter fun edge => edge.isIntra && edge.mustRunForward coincide).foldlM
        (addForward forms paramCount) state)
      ((edges.flatMap fun edge => if edge.isIntra then edge.forwardDemands paramCount coincide else []).foldlM
        (ConeProblem.meet forms) state) := by
  rw [foldlM_filter, foldlM_flatMap]
  refine .foldlM (fun grown edge _ => ?_) state
  cases intra : edge.isIntra with
  | false => exact .refl _
  | true =>
    cases runs : edge.mustRunForward coincide with
    | false =>
      rw [forwardDemands, runs]
      exact .refl _
    | true => exact cuts_addForward runs

theorem noted_of_addForwardInter {final : ConeProblem}
    (added : addForwardInter forms coincide edges state = .ok (noted, final)) :
    Forall₂ Edge.Noted edges noted := by
  induction edges generalizing state noted with
  | nil =>
    obtain ⟨rfl, _⟩ := Prod.mk.inj (Except.ok.inj added)
    exact .nil
  | cons edge later ih =>
    unfold addForwardInter at added
    split at added
    next =>
      simp only [bind_ok, pure_ok, Prod.mk.injEq] at added
      obtain ⟨⟨_, _⟩, rest_ok, rfl, rfl⟩ := added
      exact .cons rfl (ih rest_ok)
    next =>
      simp only [bind_ok, pure_ok, Prod.mk.injEq] at added
      obtain ⟨_, _, _, _, ⟨_, _⟩, rest_ok, rfl, rfl⟩ := added
      exact .cons rfl (ih rest_ok)

theorem cuts_addForwardInter {α : Type} (params_eq : ∀ form ∈ forms, form.params.length = paramCount)
    {next : List Edge × ConeProblem → Checked α} {other : ConeProblem → Checked α}
    (after : ∀ noted final, Forall₂ Edge.Noted edges noted → Cuts Fault.Routine (next (noted, final)) (other final)) :
    Cuts Fault.Routine (addForwardInter forms coincide edges state >>= next)
      ((edges.flatMap fun edge => if edge.isIntra then [] else edge.forwardDemands paramCount coincide).foldlM
        (ConeProblem.meet forms) state >>= other) := by
  induction edges generalizing state next with
  | nil => exact after [] state .nil
  | cons edge later ih =>
    unfold addForwardInter
    split
    next skipped =>
      have no_demands : (if edge.isIntra then [] else edge.forwardDemands paramCount coincide) = [] := by
        simp only [Bool.or_eq_true, Bool.not_eq_true'] at skipped
        rcases skipped with intra | rests
        · rw [if_pos intra]
        · simp [forwardDemands, rests]
      rw [flatMap_cons, no_demands, nil_append, bind_assoc]
      exact ih fun noted final rest => after (edge :: noted) final (.cons rfl rest)
    next runs =>
      simp only [Bool.or_eq_true, Bool.not_eq_true', not_or, Bool.not_eq_true, Bool.not_eq_false] at runs
      rw [flatMap_cons, foldlM_append, runs.1, if_neg Bool.false_ne_true]
      cases source_at : forms[edge.source]? with
      | none => exact Or.inr ⟨.precondition, trivial, rfl⟩
      | some source =>
        simp only [ofOption, bind_assoc, pure_bind]
        change Cuts Fault.Routine (state.addForward forms source.params.length edge >>= _) _
        rw [params_eq source (mem_of_getElem? source_at)]
        refine .bind (cuts_addForward runs.2) fun grown => ih fun noted final rest => after _ final ?_
        exact .cons rfl rest

theorem cuts_addBounded : Cuts Fault.Routine (state.addBounded forms paramCount coincide edge)
    ((edge.boundedDemands paramCount coincide).foldlM (ConeProblem.meet forms) state) := by
  simp only [addBounded, boundedDemands]
  split
  next => exact .refl _
  next =>
    rw [foldlM_flatMap]
    exact .foldlM (fun grown scale _ => cuts_addDistance _ scale) state

theorem foldlM_addBounded_noted (edges_noted : Forall₂ Edge.Noted edges noted) (start : ConeProblem) :
    noted.foldlM (addBounded forms paramCount coincide) start
      = edges.foldlM (addBounded forms paramCount coincide) start := by
  induction edges_noted generalizing start with
  | nil => rfl
  | cons note _ ih =>
    rw [foldlM_cons, foldlM_cons, note]
    exact congrArg _ (funext ih)

/-- All demands of the next row are plugged in. -/
theorem Graph.cuts_addDemands (formed : graph.coefficientForms true = .ok forms)
    (params_eq : ∀ form ∈ forms, form.params.length = graph.params.length) :
    Cuts Fault.Routine (graph.addForward coincide state >>= fun result => result.1.addBounded coincide result.2)
      ((rowDemands graph.edges graph.params.length coincide).foldlM (ConeProblem.meet forms) state) := by
  rw [rowDemands, append_assoc, foldlM_append]
  simp only [addForward, formed, foldlM_append, bind_assoc, pure_bind]
  refine .bind cuts_addForwardIntra fun inside => cuts_addForwardInter params_eq fun noted final edges_noted => ?_
  have forms_eq : coefficientForms { graph with edges := noted } true = .ok forms := formed
  rw [addBounded, forms_eq, foldlM_flatMap]
  change Cuts Fault.Routine (noted.foldlM (ConeProblem.addBounded forms graph.params.length coincide) final) _
  rw [foldlM_addBounded_noted edges_noted]
  exact .foldlM (fun _ _ _ => cuts_addBounded) final

theorem cuts_addCarried {dims : List ℕ} {disjunct : Conjunct} (number : ℕ) (laid_out : edge.LaidOut dims paramCount)
    (disjunct_mem : disjunct ∈ edge.relation.disjuncts) :
    Cuts Fault.Routine (state.addCarried forms paramCount ((edge, disjunct), number)) (state.meet forms
      { edge := edge
        disjunct := disjunct
        bound := { constant := { terms := [(3 + number, -1)], constant := 0 }, params := List.replicate paramCount Form.zero }
        scale := 1 }) := by
  have missing : (Form.column (3 + number)).scaled (-1) = pure { terms := [(3 + number, -1)], constant := 0 } := rfl
  simp only [addCarried, ConeProblem.meet, Demand.coefficients, missing, pure_bind, addDisjunct]
  cases mapped : distanceMapping forms edge { terms := [(3 + number, -1)], constant := 0 } (List.replicate paramCount Form.zero) 1 with
  | ok mapping => exact .refl _
  | error fault =>
    -- both the cone and the coefficients may fail, and the cone is tried first
    refine Or.inr ?_
    cases found : state.cache.get (coneKind edge) disjunct with
    | error other => exact ⟨other, state.cache.routine_get (laid_out.same_sides disjunct_mem) other found, rfl⟩
    | ok result => exact ⟨fault, routine_distanceMapping _ _ _ _ _ fault mapped, rfl⟩

end Building

end AffineSchedule
