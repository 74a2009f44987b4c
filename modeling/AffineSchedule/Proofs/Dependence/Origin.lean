import AffineSchedule.Proofs.Dependence.Build

namespace AffineSchedule

open Checked Edge

variable {names : String → Option ℕ} {given : List Relation}

/-- The relation is laid out and joins the two positions. -/
structure Relation.Between (names : String → Option ℕ) (relation : Relation) (source target : ℕ) : Prop where
  laid_out : relation.LaidOut
  source : names relation.source.name = some source
  target : names relation.target.name = some target

/-- The relation joins the two positions, and the conjunct is one of its disjuncts without tags. -/
structure Relation.Gives (names : String → Option ℕ) (relation : Relation) (source target : ℕ)
    (conjunct : Conjunct) : Prop extends relation.Between names source target where
  disjunct : ∃ untagged, relation.untag = .ok untagged ∧ conjunct ∈ untagged.disjuncts

/-- Every disjunct is given by one of the relations. -/
def Conjunct.Stem (names : String → Option ℕ) (given : List Relation) (source target : ℕ)
    (disjuncts : List Conjunct) : Prop :=
  ∀ conjunct ∈ disjuncts, ∃ relation ∈ given, relation.Gives names source target conjunct

/-- Every relation of a list is the tagged form of one of the relations between the two positions. -/
def Relation.Stem (names : String → Option ℕ) (given : List Relation) (source target : ℕ)
    (kept : List Relation) : Prop :=
  ∀ tagged ∈ kept, ∃ relation ∈ given, relation.Between names source target ∧ relation.TaggedAs tagged

/-- The edge is new, and stems from the relations given for each of its kinds. -/
structure Edge.Drawn (names : String → Option ℕ) (relations : List (Kind × List Relation))
    (edge : Edge) : Prop where
  nothing_local : edge.isLocal = false
  inhabited : edge.relation.disjuncts ≠ []
  holding : ∀ disjunct ∈ edge.relation.disjuncts, disjunct.MayHold
  stems : ∀ kind, edge.has kind = true →
    ∃ entry ∈ relations, entry.1 = kind ∧ Conjunct.Stem names entry.2 edge.source edge.target edge.relation.disjuncts
  tagged : ∀ kind, ∀ tagged ∈ edge.taggedOf kind, ∃ entry ∈ relations, entry.1 = kind ∧ ∃ relation ∈ entry.2,
    relation.Between names edge.source edge.target ∧ relation.TaggedAs tagged

/-- The disjuncts left by dropping the empty ones are not empty. -/
theorem Relation.mem_of_dropEmpty {relation result : Relation} (dropped : relation.dropEmpty = .ok result)
    {conjunct : Conjunct} (conjunct_mem : conjunct ∈ result.disjuncts) :
    conjunct ∈ relation.disjuncts ∧ conjunct.MayHold := by
  simp only [dropEmpty, bind_ok, pure_ok] at dropped
  obtain ⟨kept, filtered, rfl⟩ := dropped
  obtain ⟨before, tested⟩ := (mem_filterM filtered conjunct).mp conjunct_mem
  simp only [bind_ok, pure_ok] at tested
  obtain ⟨empty, empty_ok, has_point⟩ := tested
  rw [Bool.not_eq_true'] at has_point
  refine ⟨before, fun reported => ?_⟩
  rw [empty_ok, has_point] at reported
  cases reported

/-- The disjuncts and the tagged relations of the group stem from given relations between its nodes. -/
structure RelationGroup.Stems (names : String → Option ℕ) (given : List Relation) (group : RelationGroup) : Prop where
  disjuncts : Conjunct.Stem names given group.source group.target group.relation.disjuncts
  tagged : Relation.Stem names given group.source group.target group.tagged

theorem RelationGroup.stems_merge {first second : RelationGroup} (ends_eq : first.ends = second.ends)
    (first_stems : first.Stems names given) (second_stems : second.Stems names given) :
    (first.merge second).Stems names given := by
  obtain ⟨source_eq, target_eq⟩ := Prod.ext_iff.mp ends_eq
  obtain ⟨second_disjuncts, second_tagged⟩ := second_stems
  rw [← show first.source = second.source from source_eq, ← show first.target = second.target from target_eq]
    at second_disjuncts second_tagged
  exact ⟨List.forall_mem_append.mpr ⟨first_stems.disjuncts, second_disjuncts⟩,
    List.forall_mem_append.mpr ⟨first_stems.tagged, second_tagged⟩⟩

namespace Graph

variable {relations : List (Kind × List Relation)} {graph : Graph} {group : RelationGroup}

theorem stems_of_groupRelations {kind : Kind} {groups : List RelationGroup}
    (done : graph.groupRelations kind given = .ok groups) : ∀ group ∈ groups, group.Stems graph.findNode? given := by
  obtain ⟨found, rfl, origins, _⟩ := groupRelations_ok done
  have found_stem : ∀ group ∈ found, group.Stems graph.findNode? given := by
    intro group group_mem
    obtain ⟨relation, relation_mem, laid_out, grouped⟩ := origins group group_mem
    have between : relation.Between graph.findNode? group.source group.target :=
      ⟨laid_out, grouped.source, grouped.target⟩
    refine ⟨fun conjunct conjunct_mem => ?_, fun tagged tagged_mem => ?_⟩
    · exact ⟨relation, relation_mem, between, group.relation, grouped.untagged, conjunct_mem⟩
    · exact ⟨relation, relation_mem, between, ((grouped.tagged tagged).mp tagged_mem).2⟩
  refine List.foldlRecOn (motive := fun collected : List RelationGroup => ∀ group ∈ collected, group.Stems graph.findNode? given)
    found _ (fun group group_mem => absurd group_mem List.not_mem_nil) ?_
  intro collected stem group group_mem
  have group_stems := found_stem group group_mem
  exact RelationGroup.forall_mem_insert group_stems stem fun first ends_eq first_stems =>
    RelationGroup.stems_merge ends_eq first_stems group_stems

theorem drawn_of_mem_addKind {entry : Kind × List Relation} (entry_mem : entry ∈ relations)
    (stems : group.Stems names entry.2) (inhabited : group.relation.disjuncts ≠ [])
    (holding : ∀ disjunct ∈ group.relation.disjuncts, disjunct.MayHold) {edges : List Edge} (drawn : ∀ edge ∈ edges, edge.Drawn names relations) :
    ∀ edge ∈ addKind entry.1 group edges, edge.Drawn names relations := by
  refine forall_mem_addKind drawn fun edge source_eq target_eq relation_eq origin => ?_
  obtain ⟨next_source, next_target, next_relation, next_local⟩ := edge.withKind_withTagged_eq entry.1 group.tagged
  -- What is known of the edge before the kind is added: a new edge has neither kinds nor tagged relations.
  obtain ⟨not_local, kinds, kept⟩ : edge.isLocal = false ∧ (∀ kind, edge.has kind = true → ∃ other ∈ relations, other.1 = kind
        ∧ Conjunct.Stem names other.2 edge.source edge.target edge.relation.disjuncts)
      ∧ ∀ kind, ∀ tagged ∈ edge.taggedOf kind, ∃ other ∈ relations, other.1 = kind ∧ ∃ relation ∈ other.2,
        relation.Between names edge.source edge.target ∧ relation.TaggedAs tagged := by
    rcases origin with edge_mem | rfl
    · exact ⟨(drawn edge edge_mem).nothing_local, (drawn edge edge_mem).stems, (drawn edge edge_mem).tagged⟩
    · refine ⟨rfl, fun kind has_kind => ?_, fun kind tagged tagged_mem => ?_⟩
      · simp [ofRelation, Edge.has] at has_kind
      · cases kind <;> cases tagged_mem
  refine ⟨next_local.trans not_local, by rwa [next_relation, relation_eq], by rwa [next_relation, relation_eq], fun kind has_kind => ?_, fun kind tagged tagged_mem => ?_⟩
  · rw [next_source, next_target, next_relation]
    rw [has_withTagged] at has_kind
    rcases has_withKind.mp has_kind with had_kind | rfl
    · exact kinds kind had_kind
    · rw [source_eq, target_eq, relation_eq]
      exact ⟨entry, entry_mem, rfl, stems.disjuncts⟩
  · rw [next_source, next_target]
    rw [taggedOf_withKind_withTagged] at tagged_mem
    split_ifs at tagged_mem with of_entry
    · rcases List.mem_append.mp tagged_mem with before | in_group
      · exact kept kind tagged before
      · rw [source_eq, target_eq]
        exact ⟨entry, entry_mem, of_entry.1.symm, stems.tagged tagged in_group⟩
    · exact kept kind tagged tagged_mem

/-- Every edge of a built graph stems from the relations given for its kinds. -/
theorem drawn_of_build {params : List String} {domains : List Domain}
    (done : build params domains relations = .ok graph) : ∀ edge ∈ graph.edges, edge.Drawn graph.findNode? relations := by
  obtain ⟨start, started, ⟨_, _, rfl⟩, steps, covered, steps_ok⟩ := build_ok done
  refine foldlM_invariant (fun state : Graph => ∀ edge ∈ state.edges, edge.Drawn start.findNode? relations) steps_ok ?_ ?_
  · exact fun edge edge_mem => absurd ((edges_of_ofDomains started).1 ▸ edge_mem) List.not_mem_nil
  · intro state step after step_mem drawn added
    obtain ⟨entry, entry_mem, groups, grouped, kind_eq, group_mem⟩ := covered.origin step step_mem
    have stems := stems_of_groupRelations grouped step.2 group_mem
    obtain ⟨relation, dropped, ⟨_, rfl⟩ | ⟨inhabited, edges_ok⟩⟩ := addGroup_ok added
    · exact drawn
    · obtain ⟨_, _, rfl, _⟩ := enterEdge_ok edges_ok
      rw [← kind_eq]
      have kept_stems : ({ step.2 with relation := relation } : RelationGroup).Stems start.findNode? entry.2 :=
        ⟨fun conjunct conjunct_mem => stems.disjuncts conjunct (Relation.mem_of_dropEmpty dropped conjunct_mem).1,
          stems.tagged⟩
      exact drawn_of_mem_addKind entry_mem kept_stems inhabited
        (fun conjunct conjunct_mem => (Relation.mem_of_dropEmpty dropped conjunct_mem).2) drawn

end Graph

end AffineSchedule
