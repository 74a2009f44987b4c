import AffineSchedule.Proofs.Relation

namespace AffineSchedule

open Checked List

/-- A parameter has no name, or none that is known. -/
def Fault.ConcernsParameter : Fault → Prop
  | .input (.unnamedParameter _) => True
  | .input (.unknownParameter _) => True
  | _ => False

namespace Checked

variable {α β : Type} {resolved : Prop} {computed : Checked α} {resolves : α → Prop} {entries : List α}

/-- The computation delivers if the parameters are resolved, and otherwise stops at a parameter. -/
def StopsUnless (resolved : Prop) (computed : Checked α) : Prop :=
  (resolved ∧ ∃ result, computed = .ok result) ∨ ¬ resolved ∧ ∃ fault, fault.ConcernsParameter ∧ computed = .error fault

theorem StopsUnless.then_pure (stops : StopsUnless resolved computed) (after : α → β) :
    StopsUnless resolved (computed >>= fun result => pure (after result)) := by
  rcases stops with ⟨holds, result, rfl⟩ | ⟨fails, fault, concerns, rfl⟩
  · exact Or.inl ⟨holds, _, rfl⟩
  · exact Or.inr ⟨fails, fault, concerns, rfl⟩

theorem stopsUnless_foldlM {step : β → α → Checked β} (each : ∀ state entry, StopsUnless (resolves entry) (step state entry))
    (start : β) : StopsUnless (∀ entry ∈ entries, resolves entry) (entries.foldlM step start) := by
  induction entries generalizing start with
  | nil => exact Or.inl ⟨fun _ absent => absurd absent not_mem_nil, start, rfl⟩
  | cons entry later ih =>
    rw [foldlM_cons, forall_mem_cons]
    rcases each start entry with ⟨holds, next, step_ok⟩ | ⟨fails, fault, concerns, stopped⟩
    · rw [step_ok, and_iff_right holds]
      exact ih next
    · rw [stopped]
      exact Or.inr ⟨fun both => fails both.1, fault, concerns, rfl⟩

theorem stopsUnless_mapM {step : α → Checked β} (each : ∀ entry ∈ entries, StopsUnless (resolves entry) (step entry)) :
    StopsUnless (∀ entry ∈ entries, resolves entry) (entries.mapM step) := by
  induction entries with
  | nil => exact Or.inl ⟨fun _ absent => absurd absent not_mem_nil, [], rfl⟩
  | cons entry later ih =>
    obtain ⟨first, rest⟩ := forall_mem_cons.mp each
    rw [mapM_cons, forall_mem_cons]
    rcases first with ⟨holds, result, step_ok⟩ | ⟨fails, fault, concerns, stopped⟩
    · rw [step_ok, and_iff_right holds]
      exact (ih rest).then_pure (result :: ·)
    · rw [stopped]
      exact Or.inr ⟨fun both => fails both.1, fault, concerns, rfl⟩

end Checked

variable {source target names : List String} {form : AffineForm} {polyhedron : Polyhedron}

namespace AffineForm

/-- Every parameter in use has a name, and the name is in the list. -/
def Resolves (source target : List String) (form : AffineForm) : Prop :=
  ∀ place, form.paramCoeff place ≠ 0 → ∃ name ∈ target, source[place]? = some name

theorem stopsUnless_paramPosition (place : ℕ) :
    StopsUnless (∃ name ∈ target, source[place]? = some name) (paramPosition source target place) := by
  unfold paramPosition
  cases named : source[place]? with
  | none => exact Or.inr ⟨by simp, .input (.unnamedParameter place), trivial, rfl⟩
  | some name =>
    cases search : target.findIdx? (· = name) with
    | none =>
      refine Or.inr ⟨?_, .input (.unknownParameter name), trivial, by simp only [search]⟩
      rintro ⟨other, other_mem, same⟩
      have unlike := findIdx?_eq_none_iff.mp search other other_mem
      exact absurd (Option.some.inj same).symm (by simpa using unlike)
    | some found =>
      obtain ⟨inside, is_name, _⟩ := findIdx?_eq_some_iff_getElem.mp search
      refine Or.inl ⟨⟨name, ?_, rfl⟩, found, by simp only [search]⟩
      rw [← of_decide_eq_true is_name]
      exact getElem_mem inside

theorem stopsUnless_alignParams (form : AffineForm) :
    StopsUnless (form.Resolves source target) (form.alignParams source target) := by
  have each : ∀ (aligned : List ℤ) (entry : ℤ × ℕ),
      StopsUnless (entry.1 ≠ 0 → ∃ name ∈ target, source[entry.2]? = some name)
        (if entry.1 = 0 then .ok aligned else do return aligned.set (← paramPosition source target entry.2) entry.1) := by
    intro aligned entry
    split
    case isTrue vanishes => exact Or.inl ⟨fun used => absurd vanishes used, _, rfl⟩
    case isFalse used =>
      rw [forall_prop_of_true used]
      exact (stopsUnless_paramPosition entry.2).then_pure (aligned.set · entry.1)
  have resolves_iff : form.Resolves source target
      ↔ ∀ entry ∈ form.params.zipIdx, entry.1 ≠ 0 → ∃ name ∈ target, source[entry.2]? = some name := by
    constructor
    · intro resolves entry entry_mem used
      refine resolves entry.2 ?_
      rw [paramCoeff, getD_eq_getElem?_getD, mem_zipIdx_iff_getElem?.mp entry_mem]
      exact used
    · intro all place used
      have inside : place < form.params.length := by
        by_contra beyond
        exact used (getD_eq_default _ _ (Nat.le_of_not_lt beyond))
      rw [paramCoeff, getD_eq_getElem _ _ inside] at used
      exact all (form.params[place], place) (mem_zipIdx_iff_getElem?.mpr (getElem?_eq_getElem inside)) used
  rw [resolves_iff]
  exact (stopsUnless_foldlM each (replicate target.length 0)).then_pure fun params => { form with params := params }

end AffineForm

namespace Polyhedron

/-- Every parameter that a constraint uses has a name, and the name is in the list. -/
def Resolves (source target : List String) (polyhedron : Polyhedron) : Prop :=
  ∀ constraint ∈ polyhedron.constraints, constraint.form.Resolves source target

theorem stopsUnless_alignParams (polyhedron : Polyhedron) :
    StopsUnless (polyhedron.Resolves source target) (polyhedron.alignParams source target) := by
  refine (stopsUnless_mapM fun constraint _ => ?_).then_pure _
  exact (constraint.form.stopsUnless_alignParams).then_pure fun form => { constraint with form := form }

end Polyhedron

theorem Space.paramLabels_withParams (space : Space) (names : List String) : (space.withParams names).paramLabels = names := by
  refine ext_getElem (by simp [withParams]) fun place _ inside => ?_
  simp [paramLabels, withParams, labelAt, inside]

namespace Domain

variable {domain result : Domain}

theorem stopsUnless_alignParams (listed : domain.space.listParams = .ok domain.space.paramLabels) :
    StopsUnless (domain.region.Resolves domain.space.paramLabels target) (domain.alignParams target) := by
  rw [alignParams, listed]
  exact domain.region.stopsUnless_alignParams.then_pure _

/-- The domain over another parameter list has its parameters and the same points. -/
theorem alignParams_ok (aligned : domain.alignParams target = .ok result) :
    result.space = domain.space.withParams target
      ∧ domain.region.alignParams domain.space.paramLabels target = .ok result.region := by
  simp only [alignParams, Space.listParams, bind_ok, pure_ok] at aligned
  obtain ⟨_, ⟨_, _, rfl⟩, region, region_ok, rfl⟩ := aligned
  exact ⟨rfl, region_ok⟩

end Domain

theorem Relation.stopsUnless_alignParams (relation : Relation) :
    StopsUnless (∀ conjunct ∈ relation.disjuncts, conjunct.system.Resolves relation.params target)
      (relation.alignParams target) := by
  refine (stopsUnless_mapM fun conjunct _ => ?_).then_pure _
  exact conjunct.system.stopsUnless_alignParams.then_pure fun system => { conjunct with system := system }

/-- Matching parameters by name is refused exactly for parameters in use without a known name. It keeps the values of
    expressions and the points of polyhedra, domains and relations for all values of the names, unless an expression
    uses two parameters of one name: the later coefficient then replaces the earlier one. -/
theorem alignment_exact (target : List String) (values : String → ℤ) :
    (∀ (form : AffineForm) source, StopsUnless (form.Resolves source target) (form.alignParams source target)
        ∧ ∀ result, form.alignParams source target = .ok result → AffineForm.NamesOnce source form.params →
          ∀ dims, result.value dims (named target values) = form.value dims (named source values))
      ∧ (∀ (polyhedron : Polyhedron) source,
          StopsUnless (polyhedron.Resolves source target) (polyhedron.alignParams source target)
            ∧ ∀ result, polyhedron.alignParams source target = .ok result → polyhedron.NamesOnce source →
              ∀ dims, result.Holds dims (named target values) ↔ polyhedron.Holds dims (named source values))
      ∧ (∀ domain : Domain, domain.space.listParams = .ok domain.space.paramLabels →
          StopsUnless (domain.region.Resolves domain.space.paramLabels target) (domain.alignParams target)
            ∧ ∀ result, domain.alignParams target = .ok result → result.space.paramLabels = target
              ∧ (domain.region.NamesOnce domain.space.paramLabels → ∀ dims, result.region.Holds dims (named target values)
                ↔ domain.region.Holds dims (named domain.space.paramLabels values)))
      ∧ ∀ relation : Relation,
          StopsUnless (∀ conjunct ∈ relation.disjuncts, conjunct.system.Resolves relation.params target)
              (relation.alignParams target)
            ∧ ∀ result, relation.alignParams target = .ok result →
              result = { relation with params := target, disjuncts := result.disjuncts }
                ∧ (relation.NamesOnce → (∀ x y, result.Relates (named target values) x y
                    ↔ relation.Relates (named relation.params values) x y)
                  ∧ Forall₂ (fun conjunct image : Conjunct => image = { conjunct with system := image.system }
                      ∧ ∀ columns, image.system.Holds columns (named target values)
                        ↔ conjunct.system.Holds columns (named relation.params values)) relation.disjuncts result.disjuncts) := by
  refine ⟨fun form source => ⟨form.stopsUnless_alignParams, fun result aligned once dims => ?_⟩,
    fun polyhedron source => ⟨polyhedron.stopsUnless_alignParams, fun result aligned once dims => ?_⟩,
    fun domain listed => ⟨Domain.stopsUnless_alignParams listed, fun result aligned => ?_⟩,
    fun relation => ⟨relation.stopsUnless_alignParams, fun result aligned => ?_⟩⟩
  · exact (AffineForm.value_alignParams once aligned).2.1 dims values
  · exact Polyhedron.holds_alignParams_iff once aligned dims values
  · obtain ⟨space_eq, region_ok⟩ := Domain.alignParams_ok aligned
    rw [space_eq]
    exact ⟨Space.paramLabels_withParams _ _, fun once dims => Polyhedron.holds_alignParams_iff once region_ok dims values⟩
  · obtain ⟨result_eq, images⟩ := Relation.alignParams_ok aligned
    obtain ⟨_, _, _, pairs⟩ := Relation.relates_alignParams_iff aligned
    exact ⟨result_eq, fun once => ⟨pairs once values, images once values⟩⟩

-- of two parameters with one name the later coefficient is kept, so `N - N` becomes `-N`
example : AffineForm.alignParams ⟨0, [], [1, -1]⟩ ["N", "N"] ["N"] = .ok ⟨0, [], [-1]⟩ := rfl

/-- `2·M - N` among other names keeps its value, and it stops where `N` is not known. -/
theorem alignment_exact_twoNames :
    (∀ values : String → ℤ, AffineForm.value ⟨0, [], [-1, 0, 2]⟩ (fun _ => 0) (named ["N", "K", "M"] values)
        = AffineForm.value ⟨0, [], [2, -1]⟩ (fun _ => 0) (named ["M", "N"] values))
      ∧ ∃ fault : Fault, fault.ConcernsParameter
        ∧ AffineForm.alignParams ⟨0, [], [2, -1]⟩ ["M", "N"] ["M"] = .error fault := by
  refine ⟨fun values => ?_, ?_⟩
  · obtain ⟨forms, _⟩ := alignment_exact ["N", "K", "M"] values
    refine (forms ⟨0, [], [2, -1]⟩ ["M", "N"]).2 _ rfl ?_ _
    exact AffineForm.namesOnce_of_nodup (by decide) le_rfl
  · obtain ⟨forms, _⟩ := alignment_exact ["M"] fun _ => 0
    rcases (forms ⟨0, [], [2, -1]⟩ ["M", "N"]).1 with ⟨_, _, delivered⟩ | ⟨_, stops⟩
    · exact nomatch delivered
    · exact stops

end AffineSchedule
