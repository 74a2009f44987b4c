import AffineSchedule.Proofs.Relation

namespace AffineSchedule

open List

variable {relation : Relation} {collected : List Relation} {names : List String}

namespace Relation

/-- The relation holds of values for all columns of one of its disjuncts, its parameters being named by a list. -/
def HasVector (relation : Relation) (names : List String) (values : String → ℤ) (vector : List ℤ) : Prop :=
  ∃ conjunct ∈ relation.disjuncts, vector.length = conjunct.columns
    ∧ conjunct.system.Holds (coordinates vector) (named names values)

/-- Some relation between the endpoints holds of a vector, with its own parameter list. -/
def UnionHas (relations : List Relation) (source target : Tuple) (values : String → ℤ) (vector : List ℤ) : Prop :=
  ∃ relation ∈ relations, (relation.source = source ∧ relation.target = target)
    ∧ relation.HasVector relation.params values vector

theorem unionHas_cons_iff {relations : List Relation} {source target : Tuple} {values : String → ℤ}
    {vector : List ℤ} : UnionHas (relation :: relations) source target values vector
      ↔ (relation.source = source ∧ relation.target = target) ∧ relation.HasVector relation.params values vector
        ∨ UnionHas relations source target values vector :=
  exists_mem_cons_iff ..

/-- Every parameter that a constraint of the relation uses has the same name in the list. -/
def ReadsOver (relation : Relation) (names : List String) : Prop :=
  ∀ conjunct ∈ relation.disjuncts, ∀ constraint ∈ conjunct.system.constraints, ∀ index,
    constraint.form.paramCoeff index ≠ 0 → names[index]? = relation.params[index]?

theorem hasVector_congr (reads : relation.ReadsOver names) (values : String → ℤ) (vector : List ℤ) :
    relation.HasVector names values vector ↔ relation.HasVector relation.params values vector := by
  refine exists_congr fun conjunct => and_congr_right fun conjunct_mem => and_congr_right fun _ => ?_
  refine forall₂_congr fun constraint constraint_mem => ?_
  have same_sum : dot constraint.form.params (named names values) = dot constraint.form.params (named relation.params values) := by
    rw [dot_eq_sum, dot_eq_sum]
    refine Finset.sum_congr rfl fun index _ => ?_
    by_cases unused : constraint.form.paramCoeff index = 0
    · rw [AffineForm.paramCoeff] at unused
      rw [unused, zero_mul, zero_mul]
    · have same_name : names.getD index "" = relation.params.getD index "" := by
        rw [getD_eq_getElem?_getD, getD_eq_getElem?_getD, reads conjunct conjunct_mem constraint constraint_mem index unused]
      rw [named, named, same_name]
  rw [Constraint.Holds, Constraint.Holds, AffineForm.value, AffineForm.value, same_sum]

theorem insert_unionHas_iff
    (reads : ∀ other ∈ collected, other.source = relation.source → other.target = relation.target →
      relation.ReadsOver other.params) (source target : Tuple) (values : String → ℤ) (vector : List ℤ) :
    UnionHas (insert relation collected) source target values vector
      ↔ UnionHas (relation :: collected) source target values vector := by
  induction collected with
  | nil => rfl
  | cons first later ih =>
    obtain ⟨reads_first, reads_later⟩ := forall_mem_cons.mp reads
    rw [insert]
    split
    case isTrue same_ends =>
      obtain ⟨source_eq, target_eq⟩ := same_ends
      have joined : ({ first with disjuncts := first.disjuncts ++ relation.disjuncts } : Relation).HasVector
          first.params values vector
            ↔ first.HasVector first.params values vector ∨ relation.HasVector relation.params values vector := by
        rw [← hasVector_congr (reads_first source_eq target_eq)]
        simp only [HasVector, mem_append, or_and_right, exists_or]
      rw [unionHas_cons_iff, unionHas_cons_iff, unionHas_cons_iff, joined, ← source_eq, ← target_eq, and_or_left,
        or_comm (a := _ ∧ first.HasVector _ _ _), or_assoc]
    case isFalse =>
      rw [unionHas_cons_iff, ih reads_later, unionHas_cons_iff, unionHas_cons_iff, unionHas_cons_iff, or_left_comm]

theorem mem_insert {other : Relation} (other_mem : other ∈ insert relation collected) : ∃ origin ∈ relation :: collected,
      origin.source = other.source ∧ origin.target = other.target ∧ origin.params = other.params := by
  induction collected with
  | nil => exact ⟨other, other_mem, rfl, rfl, rfl⟩
  | cons first later ih =>
    rw [insert] at other_mem
    split at other_mem
    case isTrue =>
      rcases mem_cons.mp other_mem with rfl | in_later
      · exact ⟨first, mem_cons_of_mem _ mem_cons_self, rfl, rfl, rfl⟩
      · exact ⟨other, mem_cons_of_mem _ (mem_cons_of_mem _ in_later), rfl, rfl, rfl⟩
    case isFalse =>
      rcases mem_cons.mp other_mem with rfl | in_later
      · exact ⟨other, mem_cons_of_mem _ mem_cons_self, rfl, rfl, rfl⟩
      · obtain ⟨origin, origin_mem, same⟩ := ih in_later
        refine ⟨origin, ?_, same⟩
        rcases mem_cons.mp origin_mem with rfl | in_rest
        · exact mem_cons_self
        · exact mem_cons_of_mem _ (mem_cons_of_mem _ in_rest)

/-- The endpoints of a relation. -/
def ends (relation : Relation) : Tuple × Tuple := (relation.source, relation.target)

theorem nodup_insert (nodup : (collected.map ends).Nodup) : ((insert relation collected).map ends).Nodup := by
  induction collected with
  | nil => exact nodup_singleton _
  | cons first later ih =>
    obtain ⟨first_new, later_nodup⟩ := nodup_cons.mp nodup
    rw [insert]
    split
    case isTrue => exact nodup
    case isFalse other_ends =>
      refine nodup_cons.mpr ⟨fun first_mem => ?_, ih later_nodup⟩
      obtain ⟨other, other_mem, ends_eq⟩ := mem_map.mp first_mem
      obtain ⟨origin, origin_mem, source_eq, target_eq, _⟩ := mem_insert other_mem
      have origin_ends : origin.ends = first.ends := by rw [ends, source_eq, target_eq, ← ends_eq, ends]
      rcases mem_cons.mp origin_mem with rfl | in_later
      · exact other_ends ⟨congrArg Prod.fst origin_ends.symm, congrArg Prod.snd origin_ends.symm⟩
      · exact first_new (mem_map.mpr ⟨origin, in_later, origin_ends⟩)

/-- Every relation of a collection has endpoints and parameter list of a given one. -/
def Stocks (given collected : List Relation) : Prop :=
  ∀ relation ∈ collected, ∃ origin ∈ given,
    origin.source = relation.source ∧ origin.target = relation.target ∧ origin.params = relation.params

theorem foldl_insert_unionHas_iff {given : List Relation}
    (alike : ∀ relation ∈ given, ∀ other ∈ given, other.source = relation.source →
      other.target = relation.target → relation.ReadsOver other.params) {later : List Relation}
    (later_given : ∀ relation ∈ later, relation ∈ given) (stocks : Stocks given collected) (source target : Tuple)
    (values : String → ℤ) (vector : List ℤ) :
    UnionHas (later.foldl (fun collected relation => insert relation collected) collected) source target values vector
      ↔ UnionHas later source target values vector ∨ UnionHas collected source target values vector := by
  induction later generalizing collected with
  | nil => simp [UnionHas]
  | cons relation later ih =>
    obtain ⟨relation_given, rest_given⟩ := forall_mem_cons.mp later_given
    have reads : ∀ other ∈ collected, other.source = relation.source → other.target = relation.target →
        relation.ReadsOver other.params := by
      intro other other_mem source_eq target_eq
      obtain ⟨origin, origin_mem, origin_source, origin_target, params_eq⟩ := stocks other other_mem
      exact params_eq ▸ alike relation relation_given origin origin_mem (origin_source.trans source_eq)
        (origin_target.trans target_eq)
    have next_stocks : Stocks given (insert relation collected) := by
      intro other other_mem
      obtain ⟨origin, origin_mem, source_eq, target_eq, params_eq⟩ := mem_insert other_mem
      rcases mem_cons.mp origin_mem with rfl | in_collected
      · exact ⟨origin, relation_given, source_eq, target_eq, params_eq⟩
      · obtain ⟨first, first_mem, first_source, first_target, first_params⟩ := stocks origin in_collected
        exact ⟨first, first_mem, first_source.trans source_eq, first_target.trans target_eq,
          first_params.trans params_eq⟩
    rw [foldl_cons, ih rest_given next_stocks, insert_unionHas_iff reads, unionHas_cons_iff, unionHas_cons_iff,
      or_left_comm, or_assoc]

/-- A collection has one relation per pair of endpoints. If the parameters in use have the same names in all lists
    between the same endpoints, it holds of the vectors that the relations hold of. -/
theorem collect_unionHas_iff {relations : List Relation}
    (alike : ∀ relation ∈ relations, ∀ other ∈ relations, other.source = relation.source →
      other.target = relation.target → relation.ReadsOver other.params) : ((collect relations).map ends).Nodup
      ∧ ∀ (source target : Tuple) (values : String → ℤ) (vector : List ℤ),
          UnionHas (collect relations) source target values vector
            ↔ UnionHas relations source target values vector := by
  refine ⟨?_, fun source target values vector => ?_⟩
  · refine List.foldlRecOn (motive := fun collected : List Relation => (collected.map ends).Nodup) relations _ nodup_nil ?_
    exact fun collected nodup relation _ => nodup_insert nodup
  · rw [collect, foldl_insert_unionHas_iff alike (fun _ relation_mem => relation_mem) (by simp [Stocks])]
    simp [UnionHas]

/-- The pairs of points of two lines at a distance that is a parameter plus a constant. The parameter is the first of
    the list. -/
def shiftedLine (names : List String) (constant : ℤ) : Relation :=
  onLines "S" "T" names [{ sense := .zero, form := { constant := -constant, coeffs := [-1, 1], params := [-1] } }]

theorem shiftedLine_readsOver {others : List String} (same_name : others[0]? = names[0]?) (constant : ℤ) :
    (shiftedLine names constant).ReadsOver others := by
  intro conjunct conjunct_mem constraint constraint_mem index used
  obtain rfl := mem_singleton.mp conjunct_mem
  obtain rfl := mem_singleton.mp constraint_mem
  cases index with
  | zero => exact same_name
  | succ index => exact absurd rfl used

/-- Two shifts by one parameter that have different parameter lists. -/
def shiftedLines : List Relation := [shiftedLine ["N", "M"] 0, shiftedLine ["N"] 1]

theorem collect_unionHas_iff_shiftedLines : (∀ relation ∈ shiftedLines, ∀ other ∈ shiftedLines, other.source = relation.source →
      other.target = relation.target → relation.ReadsOver other.params) ∧ (collect shiftedLines).length = 1
      ∧ UnionHas (collect shiftedLines) { name := "S", dim := 1 } { name := "T", dim := 1 } (fun _ => 2) [3, 6] := by
  have alike : ∀ relation ∈ shiftedLines, ∀ other ∈ shiftedLines, other.source = relation.source →
      other.target = relation.target → relation.ReadsOver other.params := by
    intro relation relation_mem other other_mem _ _
    rcases mem_pair.mp relation_mem with rfl | rfl <;> rcases mem_pair.mp other_mem with rfl | rfl <;>
      exact shiftedLine_readsOver (by rfl) _
  refine ⟨alike, rfl, ((collect_unionHas_iff alike).2 _ _ _ _).mpr ⟨shiftedLine ["N"] 1,
    mem_cons_of_mem _ mem_cons_self, ⟨rfl, rfl⟩, _, mem_singleton_self _, rfl, ?_⟩⟩
  intro constraint constraint_mem
  obtain rfl := mem_singleton.mp constraint_mem
  simp [Constraint.Holds, Sense.Holds, AffineForm.value, coordinates, named]

end Relation

end AffineSchedule
