import AffineSchedule.Proofs.Construction.Gathering
import AffineSchedule.Proofs.Schedule.Contracts

namespace AffineSchedule

open Checked AffineSchedule.Graph List Finset AffineForm

variable {name : String} {disjunct : Conjunct} {edge : Edge} {relation : Relation}

/-! ### Rational pairs -/

/-- The relation holds of two rational points, for some values of tags and locals. -/
def Relation.RelatesAt (relation : Relation) (params x y : ℕ → ℚ) : Prop :=
  ∃ conjunct ∈ relation.disjuncts, ∃ columns : ℕ → ℚ, (∀ k < relation.source.dim, columns k = x k)
    ∧ (∀ k < relation.target.dim, columns (conjunct.inputs + k) = y k) ∧ conjunct.system.HoldsAt columns params

theorem Conjunct.holdsAt_of_untag {conjunct result : Conjunct} {source target : Tuple} {params : ℕ}
    (laid_out : conjunct.LaidOut source.totalDim target.totalDim params)
    (done : conjunct.untag source target = .ok result) {dims values : ℕ → ℚ} (holds : result.system.HoldsAt dims values) :
    ∃ columns : ℕ → ℚ, (∀ k < source.dim, columns k = dims k)
      ∧ (∀ k < target.dim, columns (conjunct.inputs + k) = dims (source.dim + k)) ∧ conjunct.system.HoldsAt columns values := by
  obtain ⟨_, positions, positions_eq, moved⟩ := untag_ok laid_out done
  have source_total : source.totalDim = source.dim + source.tagDim := rfl
  have target_total : target.totalDim = target.dim + target.tagDim := rfl
  have dim_eq : conjunct.system.dim = conjunct.inputs + conjunct.outputs + conjunct.locals := laid_out.dim
  have outputs_eq := laid_out.outputs
  have inputs_eq := laid_out.inputs
  refine ⟨_, fun k inside => ?_, fun k inside => ?_, Polyhedron.holdsAt_of_relayout moved holds⟩
  · rw [positions_eq k (by omega), untaggedPosition, if_pos inside]
  · rw [positions_eq _ (by omega), untaggedPosition, if_neg (by omega), if_neg (by omega), if_pos (by omega)]
    congr 1
    omega

namespace Relation

theorem relatesAt_of_untag {untagged : Relation} (laid_out : relation.LaidOut) (done : relation.untag = .ok untagged)
    (disjunct_mem : disjunct ∈ untagged.disjuncts) :
    disjunct.LaidOut relation.source.dim relation.target.dim relation.params.length
      ∧ ∀ dims params : ℕ → ℚ, disjunct.system.HoldsAt dims params →
          relation.RelatesAt params dims fun k => dims (disjunct.inputs + k) := by
  obtain ⟨source_eq, target_eq, params_eq, untagged_laid_out, _⟩ := relates_of_untag laid_out done
  have disjunct_laid_out := untagged_laid_out disjunct disjunct_mem
  rw [source_eq, target_eq, params_eq, Tuple.untagged_totalDim, Tuple.untagged_totalDim] at disjunct_laid_out
  refine ⟨disjunct_laid_out, fun dims params holds => ?_⟩
  unfold untag at done
  cases tagged : relation.isTagged with
  | false =>
    simp only [tagged, Bool.false_eq_true, if_false, pure_ok] at done
    subst done
    exact ⟨disjunct, disjunct_mem, dims, fun _ _ => rfl, fun _ _ => rfl, holds⟩
  | true =>
    simp only [tagged, if_true, bind_ok, pure_ok, mapM_ok] at done
    obtain ⟨disjuncts, each, rfl⟩ := done
    obtain ⟨conjunct, conjunct_mem, conjunct_ok⟩ := each.exists_left disjunct_mem
    obtain ⟨columns, at_source, at_target, columns_hold⟩ :=
      Conjunct.holdsAt_of_untag (laid_out conjunct conjunct_mem) conjunct_ok holds
    refine ⟨conjunct, conjunct_mem, columns, at_source, fun k inside => ?_, columns_hold⟩
    rw [at_target k inside, disjunct_laid_out.inputs]

theorem relatesAt_of_alignParams {result : Relation} {target : List String} (once : relation.NamesOnce)
    (aligned : relation.alignParams target = .ok result) {params x y : ℕ → ℚ} (related : result.RelatesAt params x y) :
    relation.RelatesAt (fun i => params (namePosition target (relation.params.getD i ""))) x y := by
  simp only [alignParams, bind_ok, pure_ok, mapM_ok] at aligned
  obtain ⟨disjuncts, each, rfl⟩ := aligned
  obtain ⟨image, image_mem, columns, at_source, at_target, holds⟩ := related
  obtain ⟨conjunct, conjunct_mem, system, system_ok, rfl⟩ := each.exists_left image_mem
  exact ⟨conjunct, conjunct_mem, columns, at_source, at_target,
    Polyhedron.holdsAt_of_alignParams (once conjunct conjunct_mem) system_ok holds⟩

end Relation

/-! ### Gathered problems -/

/-- The axes tell the instances of both ends apart, and the pairs are within a distance of each other on each of them, an
    affine form of the parameters. -/
structure Relation.GatheredOn (relation : Relation) (placement : Placement) (reach : ℤ) (slope : String →₀ ℤ) :
    Prop where
  source : placement.Separates relation.source.name relation.source.dim
  target : placement.Separates relation.target.name relation.target.dim
  near : ∀ (values : String → ℚ) (x y : ℕ → ℚ), relation.RelatesAt (fun i => values (relation.params.getD i "")) x y →
    ∀ axis < placement.axes,
      |placement.offset relation.target.name relation.target.dim axis y
        - placement.offset relation.source.name relation.source.dim axis x|
      ≤ reach + slope.sum fun name weight => (weight : ℚ) * values name

/-- The weight that a position of a parameter list has by its name, if the name stands there first. -/
def weightAt (names : List String) (slope : String →₀ ℤ) (index : ℕ) : ℤ :=
  ∑ name ∈ slope.support with namePosition names name = index, slope name

theorem sum_weightAt (names : List String) (slope : String →₀ ℤ) (params : ℕ → ℚ) (beyond : ∀ i, names.length ≤ i → params i = 0) :
    ∑ i ∈ Finset.range names.length, (weightAt names slope i : ℚ) * params i
      = slope.sum fun name weight => (weight : ℚ) * params (namePosition names name) := by
  have by_name : ∀ i, (weightAt names slope i : ℚ) * params i
      = ∑ name ∈ slope.support, if namePosition names name = i then (slope name : ℚ) * params i else 0 := by
    intro i
    rw [weightAt, Int.cast_sum, sum_mul, sum_filter]
  rw [sum_congr rfl fun i _ => by_name i, sum_comm, Finsupp.sum]
  refine sum_congr rfl fun name _ => ?_
  rw [sum_ite_eq]
  split
  case isTrue => rfl
  case isFalse outside => rw [beyond _ (by simpa using outside), mul_zero]

namespace SchedulingProblem

/-- The statements can be placed on common axes so that the pairs of the proximity relations between them are within one
    distance of each other on every axis. -/
def Gathered (problem : SchedulingProblem) : Prop :=
  ∃ (placement : Placement) (reach : ℤ) (slope : String →₀ ℤ), ∀ relation ∈ problem.proximity,
    problem.Declares relation.source.name → problem.Declares relation.target.name →
    relation.NamesOnce ∧ relation.GatheredOn placement reach slope

/-- The statement of a node has a domain. -/
theorem declares_of_findNode? {aligned : SchedulingProblem} {graph : Graph}
    (spaces_eq : graph.nodes.map (·.space) = aligned.domain.map (·.space)) {i : ℕ} (found : graph.findNode? name = some i) :
    aligned.Declares name ∧ ∃ node, graph.nodes[i]? = some node ∧ node.space.name = name := by
  obtain ⟨node, node_at, name_eq⟩ := findNode?_eq_some found
  refine ⟨?_, node, node_at, name_eq⟩
  have space_mem : node.space ∈ aligned.domain.map (·.space) := spaces_eq ▸ mem_map_of_mem (mem_of_getElem? node_at)
  obtain ⟨domain, domain_mem, space_eq⟩ := mem_map.mp space_mem
  exact ⟨domain, domain_mem, space_eq ▸ name_eq⟩

/-- Expressing a problem over one parameter list declares no statement. -/
theorem declares_of_align {problem aligned : SchedulingProblem} (align_ok : problem.align = .ok aligned)
    (declared : aligned.Declares name) : problem.Declares name := by
  simp only [align, bind_ok, pure_ok, mapM_ok] at align_ok
  obtain ⟨params, _, domains, domains_ok, _, _, _, _, _, _, _, _, _, _, rfl⟩ := align_ok
  obtain ⟨domain, domain_mem, name_eq⟩ := declared
  have origin : ∀ domain ∈ Domain.collect domains, problem.Declares domain.space.name := by
    refine Domain.forall_mem_collect fun image image_mem => ?_
    obtain ⟨given, given_mem, aligned_ok⟩ := domains_ok.exists_left image_mem
    exact ⟨given, given_mem, congrArg (·.name) (Domain.alignParams_ok aligned_ok).1.symm⟩
  exact name_eq ▸ origin domain domain_mem

section Graph

variable {problem aligned : SchedulingProblem} (align_ok : problem.align = .ok aligned) {start : Graph}
  (start_ok : aligned.graph = .ok start)
include align_ok start_ok

theorem not_has_of_ofKind_eq_nil {kind : Kind} (none_given : problem.ofKind kind = []) (edge_mem : edge ∈ start.edges) :
    edge.has kind = false := by
  by_contra has_kind
  obtain ⟨inhabited, given⟩ := given_of_edge align_ok start_ok edge_mem (Bool.eq_true_of_not_eq_false has_kind)
  obtain ⟨conjunct, conjunct_mem⟩ := exists_mem_of_ne_nil _ inhabited
  obtain ⟨relation, relation_mem, _⟩ := given conjunct conjunct_mem
  rw [none_given] at relation_mem
  cases relation_mem

theorem exists_proximity (edge_mem : edge ∈ start.edges) (near : edge.has .proximity = true) {a b : Node}
    (a_at : start.nodes[edge.source]? = some a) (b_at : start.nodes[edge.target]? = some b)
    (disjunct_mem : disjunct ∈ edge.relation.disjuncts) :
    ∃ relation ∈ problem.proximity, problem.Declares relation.source.name ∧ problem.Declares relation.target.name
      ∧ relation.source.name = a.space.name ∧ relation.source.dim = a.space.dim
      ∧ relation.target.name = b.space.name ∧ relation.target.dim = b.space.dim
      ∧ disjunct.params = aligned.params.length ∧ disjunct.system.LaidOut
      ∧ (relation.NamesOnce → ∀ dims params : ℕ → ℚ, disjunct.system.HoldsAt dims params →
          relation.RelatesAt (fun i => params (namePosition aligned.params (relation.params.getD i "")))
            dims fun k => dims (disjunct.inputs + k)) := by
  have aligns := aligns_of_align align_ok
  obtain ⟨_, at_start, _, spaces_eq, _⟩ := carries_of_build aligns.domain_params aligns.entry_params start_ok
  obtain ⟨given, given_mem, relation, relation_ok, gives⟩ := (given_of_edge align_ok start_ok edge_mem near).2 disjunct disjunct_mem
  obtain ⟨same_source, same_target, params_eq, _⟩ := Relation.relates_alignParams_iff relation_ok
  obtain ⟨source_declared, source, source_at, source_name⟩ := declares_of_findNode? spaces_eq gives.source
  obtain ⟨target_declared, target, target_at, target_name⟩ :=
    declares_of_findNode? spaces_eq gives.target
  obtain rfl := Option.mem_unique source_at a_at
  obtain rfl := Option.mem_unique target_at b_at
  obtain ⟨untagged, untagged_ok, untagged_mem⟩ := gives.disjunct
  obtain ⟨laid_out, relates⟩ := Relation.relatesAt_of_untag gives.laid_out untagged_ok untagged_mem
  have edge_laid_out := at_start.well_formed.edges edge edge_mem
  have edge_disjunct := edge_laid_out.disjuncts disjunct disjunct_mem
  have source_dim := dim_eq_of_dims a_at edge_laid_out.source
  have target_dim := dim_eq_of_dims b_at edge_laid_out.target
  refine ⟨given, given_mem, declares_of_align align_ok (same_source ▸ source_declared),
    declares_of_align align_ok (same_target ▸ target_declared), ?_, ?_, ?_, ?_,
    laid_out.params.trans (congrArg List.length params_eq), laid_out.system, fun once dims params holds => ?_⟩
  · exact same_source ▸ source_name.symm
  · rw [source_dim, ← same_source, ← laid_out.inputs]
    exact edge_disjunct.inputs
  · exact same_target ▸ target_name.symm
  · rw [target_dim, ← same_target, ← laid_out.outputs]
    exact edge_disjunct.outputs
  · exact Relation.relatesAt_of_alignParams once relation_ok (relates dims params holds)

theorem suited_of_gathered (no_validity : problem.validity = []) (no_conditional : problem.conditionalValidity = [])
    {placement : Placement} {reach : ℤ} {slope : String →₀ ℤ} (gathered : ∀ relation ∈ problem.proximity,
      problem.Declares relation.source.name → problem.Declares relation.target.name →
      relation.NamesOnce ∧ relation.GatheredOn placement reach slope) :
    start.Suited (Gathering.Suits ⟨placement, reach, weightAt aligned.params slope⟩) := by
  have of_validity : problem.ofKind .validity = [] := no_validity
  have of_conditional : problem.ofKind .conditionalValidity = [] := no_conditional
  intro edge edge_mem a b a_at b_at
  have no_edge := not_has_of_ofKind_eq_nil align_ok start_ok of_validity edge_mem
  have no_conditional_edge := not_has_of_ofKind_eq_nil align_ok start_ok of_conditional edge_mem
  refine ⟨no_edge, no_conditional_edge, fun near => ?_, fun near disjunct disjunct_mem => ?_⟩
  · obtain ⟨disjunct, disjunct_mem⟩ := exists_mem_of_ne_nil _ (given_of_edge align_ok start_ok edge_mem near).1
    obtain ⟨relation, relation_mem, source_declared, target_declared, source_name, source_dim, target_name,
      target_dim, _⟩ := exists_proximity align_ok start_ok edge_mem near a_at b_at disjunct_mem
    obtain ⟨_, on_axes⟩ := gathered relation relation_mem source_declared target_declared
    rw [← source_name, ← source_dim, ← target_name, ← target_dim]
    exact ⟨on_axes.source, on_axes.target⟩
  · obtain ⟨relation, relation_mem, source_declared, target_declared, source_name, source_dim, target_name,
      target_dim, params_eq, laid_out, relates⟩ := exists_proximity align_ok start_ok edge_mem near a_at b_at disjunct_mem
    obtain ⟨once, on_axes⟩ := gathered relation relation_mem source_declared target_declared
    intro dims params holds axis axis_lt
    -- the constraints do not look beyond the list, where names that are not in it have their index
    let within (i : ℕ) : ℚ := if i < aligned.params.length then params i else 0
    have within_eq : ∀ i < aligned.params.length, within i = params i := fun i inside => if_pos inside
    have holds_within : disjunct.system.HoldsAt dims within :=
      (Polyhedron.holdsAt_congr laid_out fun i inside => within_eq i (params_eq ▸ inside)).mpr holds
    have form_eq : ∑ i ∈ Finset.range aligned.params.length, (weightAt aligned.params slope i : ℚ) * params i
        = slope.sum fun name weight => (weight : ℚ) * within (namePosition aligned.params name) := by
      rw [← sum_weightAt aligned.params slope within fun i outside => if_neg (Nat.not_lt.mpr outside)]
      exact sum_congr rfl fun i i_mem => by rw [within_eq i (Finset.mem_range.mp i_mem)]
    rw [← source_name, ← source_dim, ← target_name, ← target_dim, params_eq, form_eq]
    exact on_axes.near (fun name => within (namePosition aligned.params name)) dims _
      (relates once dims within holds_within) axis axis_lt

end Graph

/-- Every fault but an unschedulable problem, for graphs that are gathered. -/
def preferring {options : Options} (unbounded : options.maxCoefficient = none)
    (relaxed : options.outerCoincidence = false) (gathering : Gathering) : Regime options where
  allowed fault := ∀ cause, fault ≠ .unschedulable cause
  suits := gathering.Suits
  routine fault is_routine := by
    rintro cause rfl
    exact is_routine
  unfinished _ _ := Fault.noConfusion
  narrows suits narrow_ok _ := suits.narrow narrow_ok
  carried suits is_validity := by
    rw [Edge.isAnyValidity, suits.no_validity, suits.no_conditional] at is_validity
    cases is_validity
  stuck suited fills := absurd fills (not_stuck_of_gathered relaxed unbounded suited)

/-- Preferences alone do not make a problem unschedulable if the pairs that should be near can be gathered, unless
    coefficients are bounded or rows have to be coincident. -/
theorem preferences_schedulable {problem : SchedulingProblem} {options : Options} (no_validity : problem.validity = [])
    (no_conditional : problem.conditionalValidity = []) (unbounded : options.maxCoefficient = none)
    (relaxed : options.outerCoincidence = false) (gathered : problem.Gathered) (cause : Unschedulable) :
    problem.schedule options ≠ .error (.unschedulable cause) := by
  intro stopped
  obtain ⟨aligned, align_ok⟩ : ∃ aligned, problem.align = .ok aligned := by
    cases align_ok : problem.align with
    | ok aligned => exact ⟨aligned, rfl⟩
    | error fault =>
      rw [schedule, align_ok] at stopped
      obtain rfl := Except.error.inj stopped
      exact (routine_align problem _ align_ok).elim
  obtain ⟨placement, reach, slope, on_axes⟩ := gathered
  have met := problem.meets_schedule (preferring unbounded relaxed ⟨placement, reach, weightAt aligned.params slope⟩)
    fun other start other_ok start_ok => by
      obtain rfl := Except.ok.inj (align_ok.symm.trans other_ok)
      exact suited_of_gathered align_ok start_ok no_validity no_conditional on_axes
  exact met.faults _ stopped cause rfl

/-- The pairs of points of two lines with a distance from zero to a parameter. -/
def upTo (source target bound : String) : Relation :=
  Relation.onLines source target [bound] [
    { sense := .nonnegative, form := { constant := 0, coeffs := [-1, 1], params := [0] } },
    { sense := .nonnegative, form := { constant := 0, coeffs := [1, -1], params := [1] } }]

/-- Two lines whose points should run near each other. -/
def nearbyLines : SchedulingProblem :=
  { domain := [everywhere "S" 1, everywhere "T" 1], proximity := [upTo "S" "T" "N"] }

theorem nearbyLines_gathered : nearbyLines.Gathered := by
  refine ⟨⟨1, fun _ _ _ => 1⟩, 0, Finsupp.single "N" 1, fun relation relation_mem _ _ => ?_⟩
  obtain rfl := List.mem_singleton.mp relation_mem
  have separates : ∀ statement, Placement.Separates ⟨1, fun _ _ _ => 1⟩ statement 1 := by
    intro statement point placed_zero d inside
    obtain rfl : d = 0 := Nat.lt_one_iff.mp inside
    simpa [Placement.offset] using placed_zero 0 Nat.one_pos
  refine ⟨?_, separates "S", separates "T", ?_⟩
  · intro conjunct conjunct_mem constraint constraint_mem
    obtain rfl := List.mem_singleton.mp conjunct_mem
    have short : constraint.form.params.length ≤ 1 := by
      rcases mem_pair.mp constraint_mem with rfl | rfl <;> exact le_rfl
    exact namesOnce_of_nodup (nodup_singleton "N") short
  · rintro values x y ⟨conjunct, conjunct_mem, columns, at_source, at_target, holds⟩ axis _
    obtain rfl := List.mem_singleton.mp conjunct_mem
    have x_at : columns 0 = x 0 := at_source 0 Nat.one_pos
    have y_at : columns 1 = y 0 := at_target 0 Nat.one_pos
    have forward : 0 ≤ y 0 - x 0 := by
      have first := holds _ mem_cons_self
      simp [Sense.Admits, rationalValue, AffineForm.coeff, paramCoeff, Finset.sum_range_succ] at first
      linarith
    have within : y 0 - x 0 ≤ values "N" := by
      have second := holds _ (mem_cons_of_mem _ mem_cons_self)
      simp [upTo, Relation.onLines, Sense.Admits, rationalValue, AffineForm.coeff, paramCoeff, Finset.sum_range_succ]
        at second
      linarith
    simpa [upTo, Relation.onLines, Placement.offset, abs_of_nonneg forward] using within

theorem preferences_schedulable_nearbyLines : nearbyLines.Gathered
    ∧ ∀ cause, nearbyLines.schedule {} ≠ .error (.unschedulable cause) :=
  ⟨nearbyLines_gathered, preferences_schedulable rfl rfl rfl rfl nearbyLines_gathered⟩

end SchedulingProblem

end AffineSchedule
