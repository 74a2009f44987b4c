import AffineSchedule.Dependence.Build
import AffineSchedule.Proofs.Dependence.Growth

namespace AffineSchedule

open Checked List Edge AffineSchedule.Relation

/-! ### Kinds of an edge -/

variable {kind : Kind} {relation : Relation} {edge : Edge} {i j : ℕ}

namespace Edge

variable {other : Kind}

theorem has_withTagged (edge : Edge) (kind other : Kind) (tagged : List Relation) :
    (edge.withTagged kind tagged).has other = edge.has other := by
  cases kind <;> rfl

theorem has_withKind : (edge.withKind kind).has other = true ↔ edge.has other = true ∨ other = kind := by
  unfold withKind
  split_ifs with present
  · constructor
    · exact Or.inl
    · rintro (has_other | rfl)
      · exact has_other
      · exact present
  · simp [has]

/-- Adding a kind with its tagged relations changes neither the ends nor the relation. -/
theorem withKind_withTagged_eq (edge : Edge) (kind : Kind) (tagged : List Relation) :
    ((edge.withKind kind).withTagged kind tagged).source = edge.source
      ∧ ((edge.withKind kind).withTagged kind tagged).target = edge.target
      ∧ ((edge.withKind kind).withTagged kind tagged).relation = edge.relation
      ∧ ((edge.withKind kind).withTagged kind tagged).isLocal = edge.isLocal := by
  unfold withKind
  split_ifs <;> cases kind <;> exact ⟨rfl, rfl, rfl, rfl⟩

/-- Adding tagged relations to a kind that keeps them appends them to those of the kind, and to no others. -/
theorem taggedOf_withKind_withTagged (edge : Edge) {tagged : List Relation} :
    ((edge.withKind kind).withTagged kind tagged).taggedOf other
      = if other = kind ∧ Graph.keepsTags kind = true then edge.taggedOf other ++ tagged else edge.taggedOf other := by
  unfold withKind
  split <;> cases kind <;> cases other <;> rfl

/-- The second edge has the ends and the relation of the first, with all its kinds and tagged relations. -/
structure Within (small large : Edge) : Prop where
  source : large.source = small.source
  target : large.target = small.target
  relation : large.relation = small.relation
  kinds : ∀ kind, small.has kind = true → large.has kind = true
  tagged : ∀ kind, small.taggedOf kind ⊆ large.taggedOf kind

theorem Within.refl (edge : Edge) : edge.Within edge :=
  ⟨rfl, rfl, rfl, fun _ has_kind => has_kind, fun _ => List.Subset.refl _⟩

theorem within_withKind_withTagged (edge : Edge) (kind : Kind) (tagged : List Relation) :
    edge.Within ((edge.withKind kind).withTagged kind tagged) := by
  obtain ⟨source_eq, target_eq, relation_eq, _⟩ := edge.withKind_withTagged_eq kind tagged
  refine ⟨source_eq, target_eq, relation_eq, fun other has_other => ?_, fun other => ?_⟩
  · rw [has_withTagged, has_withKind]
    exact Or.inl has_other
  · rw [taggedOf_withKind_withTagged]
    split
    · exact subset_append_left _ _
    · exact List.Subset.refl _

/-- The edge joins two positions, is of a kind and has the pairs of a relation, and its tagged form if the kind keeps it. -/
structure Carries (edge : Edge) (kind : Kind) (relation : Relation) (i j : ℕ) : Prop where
  source : edge.source = i
  target : edge.target = j
  has_kind : edge.has kind = true
  relates : ∀ params x y, relation.Relates params x y → edge.relation.Relates params x y
  tagged : Graph.keepsTags kind = true → ∀ tagged, relation.TaggedAs tagged → tagged ∈ edge.taggedOf kind

theorem Carries.within {large : Edge} (carries : edge.Carries kind relation i j) (within : edge.Within large) :
    large.Carries kind relation i j where
  source := within.source.trans carries.source
  target := within.target.trans carries.target
  has_kind := within.kinds kind carries.has_kind
  relates params x y related := within.relation ▸ carries.relates params x y related
  tagged keeps tagged as_tagged := within.tagged kind (carries.tagged keeps tagged as_tagged)

end Edge

/-! ### Groups of relations -/

variable {group : RelationGroup} {groups : List RelationGroup}

namespace RelationGroup

variable {dims : List ℕ} {paramCount : ℕ} {large : RelationGroup}

/-- The relation of a group fits the dimensions of its ends. -/
def LaidOut (group : RelationGroup) (dims : List ℕ) (paramCount : ℕ) : Prop :=
  (ofRelation group.source group.target group.relation).LaidOut dims paramCount

/-- The positions that a group joins. -/
def ends (group : RelationGroup) : ℕ × ℕ := (group.source, group.target)

/-- Two groups with the same ends in one. -/
def merge (first second : RelationGroup) : RelationGroup :=
  { first with
    relation := { first.relation with disjuncts := first.relation.disjuncts ++ second.relation.disjuncts }
    tagged := first.tagged ++ second.tagged }

/-- A group is put behind the others, unless one of them has its ends and is merged with it. -/
theorem insert_eq (group : RelationGroup) (groups : List RelationGroup) :
    (group.ends ∉ groups.map ends ∧ group.insert groups = groups ++ [group])
      ∨ ∃ before first after, groups = before ++ first :: after ∧ first.ends = group.ends
          ∧ group.insert groups = before ++ first.merge group :: after := by
  induction groups with
  | nil => exact Or.inl ⟨not_mem_nil, rfl⟩
  | cons first later ih =>
    unfold insert
    split_ifs with same
    · exact Or.inr ⟨[], first, later, rfl, Prod.ext same.1 same.2, rfl⟩
    · rcases ih with ⟨new_ends, inserted⟩ | ⟨before, other, after, rfl, ends_eq, inserted⟩
      · refine Or.inl ⟨?_, by rw [inserted, cons_append]⟩
        rw [map_cons, mem_cons, not_or]
        exact ⟨fun ends_eq => same ⟨(congrArg Prod.fst ends_eq).symm, (congrArg Prod.snd ends_eq).symm⟩, new_ends⟩
      · exact Or.inr ⟨first :: before, other, after, rfl, ends_eq, by rw [inserted, cons_append]⟩

/-- What holds of the groups and of merged ones holds after inserting. -/
theorem forall_mem_insert {holds : RelationGroup → Prop} (own : holds group) (all : ∀ other ∈ groups, holds other)
    (merged : ∀ first, first.ends = group.ends → holds first → holds (first.merge group)) :
    ∀ other ∈ group.insert groups, holds other := by
  rcases insert_eq group groups with ⟨_, inserted⟩ | ⟨before, first, after, rfl, ends_eq, inserted⟩
  · rw [inserted, forall_mem_append]
    exact ⟨all, forall_mem_singleton.mpr own⟩
  · rw [forall_mem_append, forall_mem_cons] at all
    rw [inserted, forall_mem_append, forall_mem_cons]
    exact ⟨all.1, merged first ends_eq all.2.1, all.2.2⟩

theorem nodup_ends_insert (nodup : (groups.map ends).Nodup) : ((group.insert groups).map ends).Nodup := by
  rcases insert_eq group groups with ⟨new_ends, inserted⟩ | ⟨before, first, after, rfl, _, inserted⟩
  · rw [inserted, map_append, map_singleton]
    exact concat_eq_append ▸ nodup.concat new_ends
  · rw [map_append, map_cons] at nodup
    rw [inserted, map_append, map_cons]
    exact nodup

/-- The first group is part of the second: the pairs and the tagged relations of the one are among those of the other. -/
structure Within (small large : RelationGroup) : Prop where
  source : large.source = small.source
  target : large.target = small.target
  relates : ∀ params x y, small.relation.Relates params x y → large.relation.Relates params x y
  tagged : small.tagged ⊆ large.tagged

theorem Within.refl (group : RelationGroup) : group.Within group := ⟨rfl, rfl, fun _ _ _ related => related, List.Subset.refl _⟩

theorem Within.trans {small middle : RelationGroup} (first : small.Within middle) (second : middle.Within large) :
    small.Within large :=
  ⟨second.source.trans first.source, second.target.trans first.target,
    fun params x y related => second.relates params x y (first.relates params x y related), List.Subset.trans first.tagged second.tagged⟩

section Merging

variable {first second : RelationGroup} (first_laid_out : first.LaidOut dims paramCount)
  (second_laid_out : second.LaidOut dims paramCount) (ends_eq : first.ends = second.ends)
include first_laid_out second_laid_out ends_eq

/-- Groups with the same ends have relations between tuples of the same dimensions. -/
theorem same_dims : second.relation.source.dim = first.relation.source.dim
    ∧ second.relation.target.dim = first.relation.target.dim := by
  have source_eq : first.source = second.source := congrArg Prod.fst ends_eq
  have target_eq : first.target = second.target := congrArg Prod.snd ends_eq
  have source_at : dims[first.source]? = some second.relation.source.dim := source_eq ▸ second_laid_out.source
  have target_at : dims[first.target]? = some second.relation.target.dim := target_eq ▸ second_laid_out.target
  exact ⟨Option.mem_unique source_at first_laid_out.source, Option.mem_unique target_at first_laid_out.target⟩

theorem laidOut_merge : (first.merge second).LaidOut dims paramCount := by
  obtain ⟨source_dim, target_dim⟩ := same_dims first_laid_out second_laid_out ends_eq
  refine ⟨forall_mem_append.mpr ⟨first_laid_out.relation, fun conjunct conjunct_mem => ?_⟩, first_laid_out.params,
    first_laid_out.source_tag, first_laid_out.target_tag, first_laid_out.source, first_laid_out.target⟩
  have total : ∀ {left right : Tuple}, left.tag = none → right.tag = none → left.dim = right.dim →
      left.totalDim = right.totalDim := by
    intro left right left_tag right_tag dim_eq
    simp [Tuple.totalDim, Tuple.tagDim, left_tag, right_tag, dim_eq]
  have laid_out := second_laid_out.relation conjunct conjunct_mem
  rw [total second_laid_out.source_tag first_laid_out.source_tag source_dim, second_laid_out.params,
    total second_laid_out.target_tag first_laid_out.target_tag target_dim, ← first_laid_out.params] at laid_out
  exact laid_out

theorem within_merge : first.Within (first.merge second) ∧ second.Within (first.merge second) := by
  obtain ⟨source_dim, target_dim⟩ := same_dims first_laid_out second_laid_out ends_eq
  refine ⟨⟨rfl, rfl, ?_, subset_append_left _ _⟩,
    ⟨congrArg Prod.fst ends_eq, congrArg Prod.snd ends_eq, ?_, subset_append_right _ _⟩⟩
  · rintro params x y ⟨conjunct, conjunct_mem, columns, joins, holds⟩
    exact ⟨conjunct, mem_append_left _ conjunct_mem, columns, ⟨joins.source, joins.target⟩, holds⟩
  · rintro params x y ⟨conjunct, conjunct_mem, columns, joins, holds⟩
    exact ⟨conjunct, mem_append_right _ conjunct_mem, columns,
      ⟨source_dim ▸ joins.source, target_dim ▸ joins.target⟩, holds⟩

end Merging

theorem exists_within_insert (group_laid_out : group.LaidOut dims paramCount)
    (laid_out : ∀ other ∈ groups, other.LaidOut dims paramCount) :
    ∀ small ∈ group :: groups, ∃ large ∈ group.insert groups, small.Within large := by
  rcases insert_eq group groups with ⟨_, inserted⟩ | ⟨before, first, after, rfl, ends_eq, inserted⟩
  · intro small small_mem
    refine ⟨small, ?_, Within.refl small⟩
    rw [inserted, mem_append, mem_singleton]
    exact (mem_cons.mp small_mem).symm
  · have first_laid_out := laid_out first (mem_append_right _ mem_cons_self)
    obtain ⟨first_within, group_within⟩ := within_merge first_laid_out group_laid_out ends_eq
    rw [inserted, forall_mem_cons, forall_mem_append, forall_mem_cons]
    have merged_mem : first.merge group ∈ before ++ first.merge group :: after := mem_append_right _ mem_cons_self
    refine ⟨⟨_, merged_mem, group_within⟩, fun other in_before => ?_, ⟨_, merged_mem, first_within⟩, fun other in_after => ?_⟩
    · exact ⟨other, mem_append_left _ in_before, Within.refl other⟩
    · exact ⟨other, mem_append_right _ (mem_cons_of_mem _ in_after), Within.refl other⟩

theorem foldl_insert_spec (added : List RelationGroup) (added_laid_out : ∀ group ∈ added, group.LaidOut dims paramCount)
    (laid_out : ∀ group ∈ groups, group.LaidOut dims paramCount) :
    (∀ group ∈ added.foldl (fun collected group => group.insert collected) groups, group.LaidOut dims paramCount)
      ∧ ∀ small ∈ added ++ groups, ∃ large ∈ added.foldl (fun collected group => group.insert collected) groups,
          small.Within large := by
  induction added generalizing groups with
  | nil => exact ⟨laid_out, fun group group_mem => ⟨group, group_mem, Within.refl group⟩⟩
  | cons first later ih =>
    obtain ⟨first_laid_out, later_laid_out⟩ := forall_mem_cons.mp added_laid_out
    have inserted := exists_within_insert first_laid_out laid_out
    obtain ⟨final_laid_out, final⟩ := ih later_laid_out (forall_mem_insert first_laid_out laid_out
      fun other ends_eq other_laid_out => laidOut_merge other_laid_out first_laid_out ends_eq)
    refine ⟨final_laid_out, fun small small_mem => ?_⟩
    rw [cons_append, mem_cons, mem_append, or_left_comm, ← mem_cons] at small_mem
    rcases small_mem with in_later | in_groups
    · exact final small (mem_append_left _ in_later)
    · obtain ⟨middle, middle_mem, within_middle⟩ := inserted small in_groups
      obtain ⟨large, large_mem, within_large⟩ := final middle (mem_append_right _ middle_mem)
      exact ⟨large, large_mem, within_middle.trans within_large⟩

/-- The group has the pairs of a relation between two positions, and its tagged form if the kind keeps it. -/
structure Covers (group : RelationGroup) (kind : Kind) (relation : Relation) (i j : ℕ) : Prop where
  source : group.source = i
  target : group.target = j
  relates : ∀ params x y, relation.Relates params x y → group.relation.Relates params x y
  tagged : Graph.keepsTags kind = true → ∀ tagged, relation.TaggedAs tagged → tagged ∈ group.tagged

theorem Covers.within (covers : group.Covers kind relation i j) (within : group.Within large) :
    large.Covers kind relation i j where
  source := within.source.trans covers.source
  target := within.target.trans covers.target
  relates params x y related := within.relates params x y (covers.relates params x y related)
  tagged keeps tagged as_tagged := within.tagged (covers.tagged keeps tagged as_tagged)

end RelationGroup

/-! ### Grouping -/

namespace Graph

variable {graph next : Graph} {edges : List Edge}

/-- What the group of a relation between two statements of the graph holds. -/
structure Grouped (graph : Graph) (kind : Kind) (relation : Relation) (group : RelationGroup) :
    Prop where
  source : graph.findNode? relation.source.name = some group.source
  target : graph.findNode? relation.target.name = some group.target
  source_dim : graph.dims[group.source]? = some relation.source.dim
  target_dim : graph.dims[group.target]? = some relation.target.dim
  untagged : relation.untag = .ok group.relation
  tagged : ∀ tagged, tagged ∈ group.tagged ↔ keepsTags kind = true ∧ relation.TaggedAs tagged

theorem groupOf_ok {result : Option RelationGroup} (done : graph.groupOf kind relation = .ok result) :
    relation.LaidOut ∧ (∀ group, result = some group → graph.Grouped kind relation group)
      ∧ ∀ i j, graph.findNode? relation.source.name = some i → graph.findNode? relation.target.name = some j →
          ∃ group, result = some group := by
  simp only [groupOf, bind_ok] at done
  obtain ⟨_, validated, done⟩ := done
  refine ⟨laidOut_of_validate validated, ?_⟩
  split at done
  next source target source_found target_found =>
    simp only [bind_ok, node, ofOption_ok] at done
    obtain ⟨sourceNode, source_at, targetNode, target_at, done⟩ := done
    split at done
    · obtain ⟨_, impossible, _⟩ := bind_ok.mp done
      exact (throw_ok.mp impossible).elim
    next fits =>
      obtain ⟨untagged, untagged_ok, done⟩ := bind_ok.mp done
      obtain rfl := pure_ok.mp done
      obtain ⟨source_dim, target_dim⟩ := not_or.mp fits
      refine ⟨fun group group_eq => ?_, fun _ _ _ _ => ⟨_, rfl⟩⟩
      obtain rfl := Option.some.inj group_eq
      refine ⟨source_found, target_found, ?_, ?_, untagged_ok, fun tagged => ?_⟩
      · simp [dims, source_at, not_not.mp source_dim]
      · simp [dims, target_at, not_not.mp target_dim]
      · cases keeps : keepsTags kind with
        | false => simp
        | true => simp [taggedAs_iff untagged_ok, apply_ite (tagged ∈ ·)]
  next outside =>
    obtain rfl := pure_ok.mp done
    exact ⟨fun group group_eq => absurd group_eq (Option.some_ne_none group).symm,
      fun i j i_found j_found => (outside i j i_found j_found).elim⟩

section Grouped

variable (grouped : graph.Grouped kind relation group) (laid_out : relation.LaidOut)
include grouped laid_out

theorem Grouped.laidOut (params_eq : relation.params.length = graph.params.length) :
    group.LaidOut graph.dims graph.params.length := by
  obtain ⟨source_eq, target_eq, untagged_params, untagged_laid_out, _⟩ :=
    relates_of_untag laid_out grouped.untagged
  refine ⟨untagged_laid_out, (congrArg List.length untagged_params).trans params_eq, congrArg Tuple.tag source_eq,
    congrArg Tuple.tag target_eq, ?_, ?_⟩
  · exact grouped.source_dim.trans (congrArg (some ·.dim) source_eq.symm)
  · exact grouped.target_dim.trans (congrArg (some ·.dim) target_eq.symm)

theorem Grouped.covers : group.Covers kind relation group.source group.target where
  source := rfl
  target := rfl
  relates _ _ _ := (relates_of_untag laid_out grouped.untagged).2.2.2.2.mpr
  tagged keeps tagged as_tagged := (grouped.tagged tagged).mpr ⟨keeps, as_tagged⟩

end Grouped

/-- The groups of several relations: what all their relations bring, merged where the ends agree. -/
theorem groupRelations_ok {relations : List Relation} (done : graph.groupRelations kind relations = .ok groups) :
    ∃ found : List RelationGroup, groups = found.foldl (fun collected group => group.insert collected) []
      ∧ (∀ group ∈ found, ∃ relation ∈ relations, relation.LaidOut ∧ graph.Grouped kind relation group)
      ∧ ∀ relation ∈ relations, relation.LaidOut ∧ ∀ i j, graph.findNode? relation.source.name = some i →
          graph.findNode? relation.target.name = some j → ∃ group ∈ found, graph.Grouped kind relation group := by
  simp only [groupRelations, bind_ok, pure_ok, mapM_ok] at done
  obtain ⟨results, each, rfl⟩ := done
  refine ⟨_, rfl, fun group group_mem => ?_, fun relation relation_mem => ?_⟩
  · obtain ⟨result, result_mem, result_eq⟩ := mem_filterMap.mp group_mem
    obtain ⟨relation, relation_mem, grouped⟩ := each.exists_left result_mem
    obtain ⟨laid_out, as_group, _⟩ := groupOf_ok grouped
    exact ⟨relation, relation_mem, laid_out, as_group group result_eq⟩
  · obtain ⟨result, result_mem, grouped⟩ := each.exists_right relation_mem
    obtain ⟨laid_out, as_group, found⟩ := groupOf_ok grouped
    refine ⟨laid_out, fun i j i_found j_found => ?_⟩
    obtain ⟨group, rfl⟩ := found i j i_found j_found
    exact ⟨group, mem_filterMap.mpr ⟨some group, result_mem, rfl⟩, as_group group rfl⟩

/-- The groups of several relations cover them. -/
theorem groupRelations_spec {relations : List Relation}
    (params_eq : ∀ relation ∈ relations, relation.params.length = graph.params.length)
    (done : graph.groupRelations kind relations = .ok groups) : (∀ group ∈ groups, group.LaidOut graph.dims graph.params.length)
      ∧ ∀ relation ∈ relations, ∀ i j, graph.findNode? relation.source.name = some i →
          graph.findNode? relation.target.name = some j → ∃ group ∈ groups, group.Covers kind relation i j := by
  obtain ⟨found, rfl, origins, grouped⟩ := groupRelations_ok done
  have found_laid_out : ∀ group ∈ found, group.LaidOut graph.dims graph.params.length := by
    intro group group_mem
    obtain ⟨relation, relation_mem, laid_out, as_group⟩ := origins group group_mem
    exact as_group.laidOut laid_out (params_eq relation relation_mem)
  obtain ⟨laid_out, inserted⟩ := RelationGroup.foldl_insert_spec found found_laid_out
    fun group (group_mem : group ∈ []) => absurd group_mem not_mem_nil
  refine ⟨laid_out, fun relation relation_mem i j i_found j_found => ?_⟩
  obtain ⟨relation_laid_out, has_group⟩ := grouped relation relation_mem
  obtain ⟨group, group_mem, as_group⟩ := has_group i j i_found j_found
  obtain ⟨large, large_mem, within⟩ := inserted group (mem_append_left _ group_mem)
  obtain rfl := Option.mem_unique as_group.source i_found
  obtain rfl := Option.mem_unique as_group.target j_found
  exact ⟨large, large_mem, (as_group.covers relation_laid_out).within within⟩

/-! ### Adding groups -/

/-- A kind is added to the first edge with the ends and the relation of the group, or to a new edge behind the others. -/
theorem addKind_eq (kind : Kind) (group : RelationGroup) (edges : List Edge) :
    ∃ before edge after, addKind kind group edges = before ++ (edge.withKind kind).withTagged kind group.tagged :: after
      ∧ edge.source = group.source ∧ edge.target = group.target ∧ edge.relation = group.relation
      ∧ (edges = before ++ edge :: after
        ∨ edges = before ++ after ∧ edge = ofRelation group.source group.target group.relation) := by
  induction edges with
  | nil => exact ⟨[], _, [], rfl, rfl, rfl, rfl, Or.inr ⟨rfl, rfl⟩⟩
  | cons first later ih =>
    unfold addKind
    split_ifs with same
    · simp only [Edge.joins, Bool.and_eq_true, decide_eq_true_eq] at same
      exact ⟨[], first, later, rfl, same.1.1, same.1.2, same.2, Or.inl rfl⟩
    · obtain ⟨before, edge, after, added, source_eq, target_eq, relation_eq, origin⟩ := ih
      refine ⟨first :: before, edge, after, by rw [added, cons_append], source_eq, target_eq, relation_eq, ?_⟩
      exact origin.imp (congrArg (first :: ·)) (And.imp_left (congrArg (first :: ·)))

/-- What holds of the edges, and of the edge of the group with the kind, holds after the kind is added. -/
theorem forall_mem_addKind {holds : Edge → Prop} (all : ∀ edge ∈ edges, holds edge)
    (added : ∀ edge : Edge, edge.source = group.source → edge.target = group.target →
      edge.relation = group.relation →
      edge ∈ edges ∨ edge = ofRelation group.source group.target group.relation →
      holds ((edge.withKind kind).withTagged kind group.tagged)) : ∀ edge ∈ addKind kind group edges, holds edge := by
  obtain ⟨before, edge, after, eq, source_eq, target_eq, relation_eq, origin⟩ := addKind_eq kind group edges
  have edge_holds := added edge source_eq target_eq relation_eq
  rw [eq, forall_mem_append, forall_mem_cons]
  rcases origin with rfl | ⟨rfl, fresh⟩
  · rw [forall_mem_append, forall_mem_cons] at all
    exact ⟨all.1, edge_holds (Or.inl (mem_append_right _ mem_cons_self)), all.2.2⟩
  · rw [forall_mem_append] at all
    exact ⟨all.1, edge_holds (Or.inr fresh), all.2⟩

theorem exists_within_addKind (edge_mem : edge ∈ edges) : ∃ kept ∈ addKind kind group edges, edge.Within kept := by
  obtain ⟨before, grown, after, eq, _, _, _, origin⟩ := addKind_eq kind group edges
  have unchanged : edge ∈ before ∨ edge ∈ after → ∃ kept ∈ addKind kind group edges, edge.Within kept := by
    intro elsewhere
    refine ⟨edge, ?_, Edge.Within.refl edge⟩
    rw [eq, mem_append, mem_cons]
    exact elsewhere.imp_right Or.inr
  rcases origin with rfl | ⟨rfl, _⟩
  · rw [mem_append, mem_cons, or_left_comm] at edge_mem
    rcases edge_mem with rfl | elsewhere
    · exact ⟨_, eq ▸ mem_append_right _ mem_cons_self, edge.within_withKind_withTagged kind group.tagged⟩
    · exact unchanged elsewhere
  · exact unchanged (mem_append.mp edge_mem)

/-- Adding a kind brings its key to the edge of the group, and moves no other key. -/
theorem stands_addKind {key : Kind × ℕ × ℕ} {position : ℕ} : Stands (addKind kind group edges) key position ↔
    Stands edges key position ∨ key = (kind, group.source, group.target) ∧ position = positionOf group edges := by
  have key_iff (edge : Edge) (ends_eq : (edge.source, edge.target) = (group.source, group.target)) :
      ((edge.withKind kind).withTagged kind group.tagged).has key.1 = true
          ∧ (((edge.withKind kind).withTagged kind group.tagged).source,
            ((edge.withKind kind).withTagged kind group.tagged).target) = key.2
        ↔ (edge.has key.1 = true ∧ (edge.source, edge.target) = key.2)
          ∨ key = (kind, group.source, group.target) := by
    obtain ⟨source_eq, target_eq, _⟩ := edge.withKind_withTagged_eq kind group.tagged
    rw [source_eq, target_eq, has_withTagged, has_withKind, or_and_right, ends_eq, Prod.ext_iff (x := key), eq_comm (b := key.2)]
  induction edges generalizing position with
  | nil =>
    cases position with
    | zero =>
      rw [addKind, stands_cons_zero, key_iff _ rfl]
      simp [stands_nil, positionOf, has, ofRelation]
    | succ position => simp [addKind, stands_cons_succ, stands_nil, positionOf]
  | cons first later ih =>
    unfold addKind positionOf
    rw [findIdx_cons]
    split_ifs with same
    · simp only [same, cond_true]
      simp only [Edge.joins, Bool.and_eq_true, decide_eq_true_eq] at same
      cases position with
      | zero =>
        rw [stands_cons_zero, stands_cons_zero, key_iff first (Prod.ext same.1.1 same.1.2)]
        simp
      | succ position => simp [stands_cons_succ]
    · simp only [same, cond_false]
      cases position with
      | zero => simp [stands_cons_zero]
      | succ position =>
        rw [stands_cons_succ, stands_cons_succ, Nat.succ_inj]
        exact ih

theorem exists_carries_addKind (covers : group.Covers kind relation i j) (edges : List Edge) :
    ∃ edge ∈ addKind kind group edges, edge.Carries kind relation i j := by
  obtain ⟨before, edge, after, eq, source_eq, target_eq, relation_eq, _⟩ := addKind_eq kind group edges
  obtain ⟨same_source, same_target, same_relation, _⟩ := edge.withKind_withTagged_eq kind group.tagged
  refine ⟨_, eq ▸ mem_append_right _ mem_cons_self, ⟨?_, ?_, ?_, ?_, ?_⟩⟩
  · rw [same_source, source_eq, covers.source]
  · rw [same_target, target_eq, covers.target]
  · rw [has_withTagged, has_withKind]
    exact Or.inr rfl
  · rw [same_relation, relation_eq]
    exact covers.relates
  · intro keeps tagged as_tagged
    rw [taggedOf_withKind_withTagged, if_pos ⟨rfl, keeps⟩]
    exact mem_append_right _ (covers.tagged keeps tagged as_tagged)

/-- The pairs of a relation between two positions, if there are any, are carried by an edge of the graph. -/
def Carries (graph : Graph) (kind : Kind) (relation : Relation) (i j : ℕ) : Prop :=
  ∀ params x y, relation.Relates params x y → ∃ edge ∈ graph.edges, edge.Carries kind relation i j

theorem Carries.links (carries : graph.Carries kind relation i j) {params x y : ℕ → ℤ}
    (related : relation.Relates params x y) : graph.Links kind i j params x y := by
  obtain ⟨edge, edge_mem, edge_carries⟩ := carries params x y related
  exact ⟨edge, edge_mem, edge_carries.source, edge_carries.target, edge_carries.has_kind,
    edge_carries.relates params x y related⟩

/-- The graph has at least the edges of another, perhaps with more kinds and tagged relations. -/
def Enriches (later earlier : Graph) : Prop := ∀ edge ∈ earlier.edges, ∃ kept ∈ later.edges, edge.Within kept

theorem Carries.enriched {later : Graph} (carries : graph.Carries kind relation i j)
    (enriched : later.Enriches graph) : later.Carries kind relation i j := by
  intro params x y related
  obtain ⟨edge, edge_mem, edge_carries⟩ := carries params x y related
  obtain ⟨kept, kept_mem, within⟩ := enriched edge edge_mem
  exact ⟨kept, kept_mem, edge_carries.within within⟩

/-- A group is added without the empty disjuncts of its relation, if it has others. -/
theorem addGroup_ok (done : addGroup kind graph group = .ok next) :
    ∃ relation, group.relation.dropEmpty = .ok relation ∧ (relation.disjuncts = [] ∧ next = graph
      ∨ relation.disjuncts ≠ [] ∧ { graph with edges := addKind kind { group with relation := relation } graph.edges }.enterEdge
        (kind, positionOf { group with relation := relation } graph.edges) = .ok next) := by
  simp only [addGroup, bind_ok] at done
  obtain ⟨relation, dropped, done⟩ := done
  refine ⟨relation, dropped, ?_⟩
  split at done
  next empty => exact Or.inl ⟨List.isEmpty_iff.mp empty, (pure_ok.mp done).symm⟩
  next has_disjuncts => exact Or.inr ⟨fun empty => has_disjuncts (List.isEmpty_iff.mpr empty), done⟩

theorem edges_of_addGroup (done : addGroup kind graph group = .ok next) :
    (∃ edges table, next = { graph with edges := edges, edgeTable := table }) ∧ next.Enriches graph := by
  obtain ⟨relation, _, ⟨_, rfl⟩ | ⟨_, added⟩⟩ := addGroup_ok done
  · exact ⟨⟨_, _, rfl⟩, fun edge edge_mem => ⟨edge, edge_mem, Edge.Within.refl edge⟩⟩
  · obtain ⟨_, _, rfl, _⟩ := enterEdge_ok added
    exact ⟨⟨_, _, rfl⟩, fun edge => exists_within_addKind⟩

/-- Adding a group keeps the table in step with the edges. -/
theorem tabled_of_addGroup (tabled : graph.Tabled) (done : addGroup kind graph group = .ok next) : next.Tabled := by
  obtain ⟨relation, _, ⟨_, rfl⟩ | ⟨_, added⟩⟩ := addGroup_ok done
  · exact tabled
  · obtain ⟨edge, table, rfl, edge_at, lookup_iff⟩ := enterEdge_ok added
    have stands : Stands (addKind kind { group with relation := relation } graph.edges) (kind, group.source, group.target)
        (positionOf { group with relation := relation } graph.edges) := stands_addKind.mpr (Or.inr ⟨rfl, rfl⟩)
    obtain ⟨found, found_at, _, ends_eq⟩ := stands
    obtain rfl := Option.mem_unique edge_at found_at
    intro key position
    rw [lookup_iff, tabled, stands_addKind, ends_eq]

theorem addGroup_spec (well_formed : graph.WellFormed) (laid_out : group.LaidOut graph.dims graph.params.length)
    (done : addGroup kind graph group = .ok next) :
    next.WellFormed ∧ ∀ relation i j, group.Covers kind relation i j → next.Carries kind relation i j := by
  obtain ⟨relation, dropped, outcome⟩ := addGroup_ok done
  obtain ⟨relation_eq, _⟩ := dropEmpty_ok dropped
  obtain ⟨relation_laid_out, images⟩ := images_of_dropEmpty laid_out.relation dropped
  rcases outcome with ⟨empty, rfl⟩ | ⟨_, added⟩
  · refine ⟨well_formed, fun given i j covers params x y related => ?_⟩
    exact absurd empty (disjuncts_ne_nil ((covers.relates params x y related).of_images (images params x y)))
  · obtain ⟨_, _, rfl, _⟩ := enterEdge_ok added
    have dropped_laid_out : ({ group with relation := relation } : RelationGroup).LaidOut graph.dims graph.params.length := by
      refine ⟨relation_laid_out, ?_, ?_, ?_, ?_, ?_⟩ <;> rw [ofRelation, relation_eq]
      exacts [laid_out.params, laid_out.source_tag, laid_out.target_tag, laid_out.source, laid_out.target]
    refine ⟨⟨well_formed.size, well_formed.nodes, forall_mem_addKind well_formed.edges ?_⟩, fun given i j covers _ _ _ _ => ?_⟩
    · intro edge edge_source edge_target edge_relation _
      obtain ⟨same_source, same_target, same_relation, _⟩ := edge.withKind_withTagged_eq kind group.tagged
      exact dropped_laid_out.of_eq (same_source.trans edge_source) (same_target.trans edge_target)
        (same_relation.trans edge_relation)
    · have dropped_covers : ({ group with relation := relation } : RelationGroup).Covers kind given i j :=
        ⟨covers.source, covers.target,
          fun params x y related => (covers.relates params x y related).of_images (images params x y), covers.tagged⟩
      exact exists_carries_addKind dropped_covers graph.edges

/-! ### Building -/

section Building

variable {params : List String} {domains : List Domain} {relations : List (Kind × List Relation)}
  {start : Graph} {steps : List (Kind × RelationGroup)}

/-- Adds a group of a kind. -/
def addStep (graph : Graph) (step : Kind × RelationGroup) : Checked Graph :=
  addGroup step.1 graph step.2

/-- The steps add the groups of the relations, as the nodes of the start group them, and nothing else. -/
structure Steps (start : Graph) (relations : List (Kind × List Relation))
    (steps : List (Kind × RelationGroup)) : Prop where
  grouped : ∀ entry ∈ relations, ∃ groups, start.groupRelations entry.1 entry.2 = .ok groups
    ∧ ∀ group ∈ groups, (entry.1, group) ∈ steps
  origin : ∀ step ∈ steps, ∃ entry ∈ relations, ∃ groups, start.groupRelations entry.1 entry.2 = .ok groups
    ∧ entry.1 = step.1 ∧ step.2 ∈ groups

theorem edges_of_addSteps (steps_ok : steps.foldlM addStep graph = .ok start) :
    ∃ edges table, start = { graph with edges := edges, edgeTable := table } := by
  refine foldlM_invariant (fun state => ∃ edges table, state = { graph with edges := edges, edgeTable := table }) steps_ok
    ⟨_, _, rfl⟩ ?_
  rintro _ step after _ ⟨_, _, rfl⟩ added
  obtain ⟨⟨edges, table, rfl⟩, _⟩ := edges_of_addGroup added
  exact ⟨edges, table, rfl⟩

theorem addAll_ok (start : Graph) (edges : List Edge) (table : EdgeTable)
    (done : relations.foldlM addRelations { start with edges := edges, edgeTable := table } = .ok graph) :
    ∃ steps, start.Steps relations steps ∧ steps.foldlM addStep { start with edges := edges, edgeTable := table } = .ok graph := by
  induction relations generalizing edges table with
  | nil => exact ⟨[], ⟨by simp, by simp⟩, done⟩
  | cons entry later ih =>
    simp only [foldlM_cons, addRelations, bind_ok] at done
    obtain ⟨next, ⟨groups, grouped, added⟩, done⟩ := done
    have grouped : start.groupRelations entry.1 entry.2 = .ok groups := grouped
    have steps_ok : (groups.map (entry.1, ·)).foldlM addStep { start with edges := edges, edgeTable := table } = .ok next := by
      rw [foldlM_map]
      exact added
    obtain ⟨edges, table, rfl⟩ := edges_of_addSteps steps_ok
    obtain ⟨steps, covered, later_ok⟩ := ih edges table done
    refine ⟨groups.map (entry.1, ·) ++ steps, ⟨?_, ?_⟩, ?_⟩
    · refine forall_mem_cons.mpr ⟨⟨groups, grouped, fun group group_mem => ?_⟩, fun other other_mem => ?_⟩
      · exact mem_append_left _ (mem_map_of_mem group_mem)
      · obtain ⟨others, others_ok, others_mem⟩ := covered.grouped other other_mem
        exact ⟨others, others_ok, fun group group_mem => mem_append_right _ (others_mem group group_mem)⟩
    · refine forall_mem_append.mpr ⟨?_, fun step step_mem => ?_⟩
      · rintro _ step_mem
        obtain ⟨group, group_mem, rfl⟩ := mem_map.mp step_mem
        exact ⟨entry, mem_cons_self, groups, grouped, rfl, group_mem⟩
      · obtain ⟨other, other_mem, origin⟩ := covered.origin step step_mem
        exact ⟨other, mem_cons_of_mem _ other_mem, origin⟩
    · rw [foldlM_append, bind_ok]
      exact ⟨_, steps_ok, later_ok⟩

theorem edges_of_ofDomains (done : ofDomains params domains = .ok graph) : graph.edges = [] ∧ graph.Tabled := by
  simp only [ofDomains, bind_ok, pure_ok] at done
  obtain ⟨_, _, _, _, rfl⟩ := done
  exact ⟨rfl, fun key position => ⟨fun found => absurd found (by simp), fun stands => absurd stands stands_nil⟩⟩

/-- A graph is built by adding the groups of the relations to the graph of the domains. -/
theorem build_ok (done : build params domains relations = .ok graph) :
    ∃ start, ofDomains params domains = .ok start ∧ (∃ edges table, graph = { start with edges := edges, edgeTable := table })
      ∧ ∃ steps, start.Steps relations steps ∧ steps.foldlM addStep start = .ok graph := by
  simp only [build, bind_ok] at done
  obtain ⟨start, started, folded⟩ := done
  obtain ⟨steps, covered, steps_ok⟩ := addAll_ok start start.edges start.edgeTable folded
  exact ⟨start, started, edges_of_addSteps steps_ok, steps, covered, steps_ok⟩

/-- The table of a built graph leads to its edges. -/
theorem tabled_of_build (done : build params domains relations = .ok graph) : graph.Tabled := by
  obtain ⟨start, started, _, steps, _, steps_ok⟩ := build_ok done
  exact foldlM_invariant Tabled steps_ok (edges_of_ofDomains started).2 fun _ _ _ _ => tabled_of_addGroup

theorem ofDomains_spec (params_eq : ∀ domain ∈ domains, domain.space.params = params.length)
    (done : ofDomains params domains = .ok graph) : graph.params = params ∧ graph.AtBandStart ∧ graph.counters.totalRows = 0
      ∧ graph.nodes.map (·.space) = domains.map (·.space) := by
  simp only [ofDomains, bind_ok, pure_ok, mapM_ok] at done
  obtain ⟨_, reserved, nodes, each, rfl⟩ := done
  have made : ∀ {domain : Domain} {node : Node}, Node.ofSpace domain.space = .ok node →
      node.space = domain.space ∧ node.schedule.rows = [] ∧ node.bands = [] ∧ node.coincident = []
        ∧ node.schedule.cols = 1 + domain.space.params + domain.space.dim := by
    intro domain node ok
    simp only [Node.ofSpace, bind_ok, pure_ok, Size.checked_ok_iff] at ok
    obtain ⟨_, ⟨_, rfl⟩, _, _, rfl⟩ := ok
    exact ⟨rfl, rfl, rfl, rfl, rfl⟩
  have each_made := fun node node_mem => each.exists_left (b := node) node_mem
  refine ⟨rfl, ⟨⟨?_, ?_, ?_⟩, ?_, rfl, ?_⟩, rfl, (each.map_eq fun _ _ ok => (made ok).1.symm).symm⟩
  · have size := Size.reserve_ok_iff.mp reserved
    rw [each.length_eq] at size
    exact size
  · intro node node_mem
    obtain ⟨domain, domain_mem, ok⟩ := each_made node node_mem
    obtain ⟨space_eq, _, _, _, cols_eq⟩ := made ok
    have domain_params := params_eq domain domain_mem
    exact ⟨space_eq ▸ domain_params, by rw [cols_eq, domain_params, space_eq]⟩
  · intro edge edge_mem
    cases edge_mem
  · intro node node_mem
    obtain ⟨domain, _, ok⟩ := each_made node node_mem
    obtain ⟨_, rows_eq, bands_eq, coincident_eq, _⟩ := made ok
    exact ⟨by rw [RowMatrix.height, rows_eq]; rfl, by rw [bands_eq]; rfl, by rw [coincident_eq]; rfl⟩
  · intro node node_mem entry entry_mem
    obtain ⟨domain, _, ok⟩ := each_made node node_mem
    rw [(made ok).2.2.1] at entry_mem
    cases entry_mem

/-- A built graph is at the start of its first band and carries the relations it was built from. -/
theorem carries_of_build (domain_params : ∀ domain ∈ domains, domain.space.params = params.length)
    (relation_params : ∀ entry ∈ relations, ∀ relation ∈ entry.2, relation.params.length = params.length)
    (done : build params domains relations = .ok graph) :
    graph.params = params ∧ graph.AtBandStart ∧ graph.counters.totalRows = 0 ∧ graph.nodes.map (·.space) = domains.map (·.space)
      ∧ ∀ entry ∈ relations, ∀ relation ∈ entry.2, ∀ i j, graph.findNode? relation.source.name = some i →
          graph.findNode? relation.target.name = some j → graph.Carries entry.1 relation i j := by
  obtain ⟨start, started, ⟨_, _, rfl⟩, steps, covered, steps_ok⟩ := build_ok done
  obtain ⟨start_params, at_start, rows_eq, spaces_eq⟩ := ofDomains_spec domain_params started
  rw [← start_params] at relation_params
  obtain ⟨⟨_, well_formed⟩, carried, _⟩ := foldlM_collects
    (fun state : Graph => (∃ edges table, state = { start with edges := edges, edgeTable := table }) ∧ state.WellFormed)
    (fun (step : Kind × RelationGroup) state => ∀ relation i j, step.2.Covers step.1 relation i j →
      state.Carries step.1 relation i j) steps_ok ⟨⟨_, _, rfl⟩, at_start.well_formed⟩ (by
      rintro _ step after step_mem ⟨⟨_, _, rfl⟩, state_well_formed⟩ added
      obtain ⟨entry, entry_mem, groups, grouped, _, group_mem⟩ := covered.origin step step_mem
      have laid_out := (groupRelations_spec (relation_params entry entry_mem) grouped).1 step.2 group_mem
      obtain ⟨after_well_formed, step_carries⟩ := addGroup_spec state_well_formed laid_out added
      obtain ⟨⟨edges, table, rfl⟩, enriched⟩ := edges_of_addGroup added
      refine ⟨⟨⟨edges, table, rfl⟩, after_well_formed⟩, step_carries, fun earlier collected relation i j covers => ?_⟩
      exact (collected relation i j covers).enriched enriched)
  refine ⟨start_params, ⟨well_formed, at_start.has_rows, at_start.band_start, at_start.closed⟩, rows_eq, spaces_eq, ?_⟩
  intro entry entry_mem relation relation_mem i j i_found j_found
  obtain ⟨groups, grouped, groups_mem⟩ := covered.grouped entry entry_mem
  obtain ⟨group, group_mem, covers⟩ :=
    (groupRelations_spec (relation_params entry entry_mem) grouped).2 relation relation_mem i j i_found j_found
  exact carried (entry.1, group) (groups_mem group group_mem) relation i j covers

end Building

end Graph

end AffineSchedule
