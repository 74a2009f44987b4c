import AffineSchedule.Proofs.Dependence.Faults
import AffineSchedule.Proofs.Dependence.Origin

namespace AffineSchedule

open Checked List

variable {graph : Graph} {edge : Edge} {kind : Kind} {relation : Relation} {x y : ℕ → ℤ}
  {name : String}

/-- A relation that can do without its tags has a tagged form. -/
theorem Relation.exists_taggedAs (relation : Relation) {untagged : Relation}
    (done : relation.untag = .ok untagged) : ∃ tagged, relation.TaggedAs tagged := by
  by_cases fully : relation.isFullyTagged = true
  · exact ⟨relation, .itself fully⟩
  · exact ⟨untagged.withDummyTags, .dummy (Bool.eq_false_iff.mpr fully) done⟩

namespace Graph

open Edge

/-! ### Edges between named statements -/

/-- The name of the statement at a position. -/
def nameAt? (graph : Graph) (index : ℕ) : Option String := graph.nodes[index]?.map (·.name)

/-- The edges of a kind from one statement to another. -/
def edgesBetween (graph : Graph) (kind : Kind) (source target : String) : List Edge :=
  graph.edges.filter fun edge =>
    edge.has kind && graph.nameAt? edge.source = some source && graph.nameAt? edge.target = some target

theorem nameAt?_of_findNode? {index : ℕ} (found : graph.findNode? name = some index) :
    graph.nameAt? index = some name := by
  obtain ⟨node, node_at, name_eq⟩ := findNode?_eq_some found
  rw [nameAt?, node_at, Option.map_some, name_eq]

/-- The relation has the dimensions of the nodes that it joins, and can do without its tags. -/
def Admits (graph : Graph) (relation : Relation) : Prop :=
  ∀ i j, graph.findNode? relation.source.name = some i → graph.findNode? relation.target.name = some j →
    graph.dims[i]? = some relation.source.dim ∧ graph.dims[j]? = some relation.target.dim
      ∧ ∃ untagged, relation.untag = .ok untagged

/-- Every relation that a graph is built from is laid out and suits the nodes that it joins. -/
theorem admits_of_build {params : List String} {domains : List Domain}
    {relations : List (Kind × List Relation)} (done : build params domains relations = .ok graph) :
    ∀ entry ∈ relations, ∀ relation ∈ entry.2, relation.LaidOut ∧ graph.Admits relation := by
  obtain ⟨start, _, ⟨_, _, rfl⟩, steps, covered, _⟩ := build_ok done
  intro entry entry_mem relation relation_mem
  obtain ⟨groups, grouped, _⟩ := covered.grouped entry entry_mem
  obtain ⟨_, _, _, each⟩ := groupRelations_ok grouped
  obtain ⟨laid_out, has_group⟩ := each relation relation_mem
  refine ⟨laid_out, fun i j i_found j_found => ?_⟩
  obtain ⟨group, _, as_group⟩ := has_group i j i_found j_found
  obtain rfl := Option.mem_unique as_group.source i_found
  obtain rfl := Option.mem_unique as_group.target j_found
  exact ⟨as_group.source_dim, as_group.target_dim, group.relation, as_group.untagged⟩

/-! ### Pairs of a built graph -/

/-- The graph is built from domains and relations over the same parameters. -/
structure Built (params : List String) (domains : List Domain)
    (relations : List (Kind × List Relation)) (graph : Graph) : Prop where
  domain_params : ∀ domain ∈ domains, domain.space.params = params.length
  relation_params : ∀ entry ∈ relations, ∀ relation ∈ entry.2, relation.params.length = params.length
  done : build params domains relations = .ok graph

/-- The relation is given for a kind, from one statement to another. -/
def Given (relations : List (Kind × List Relation)) (kind : Kind) (source target : String)
    (relation : Relation) : Prop :=
  ∃ entry ∈ relations, entry.1 = kind ∧ relation ∈ entry.2 ∧ relation.source.name = source
    ∧ relation.target.name = target

namespace Built

variable {params : List String} {domains : List Domain} {relations : List (Kind × List Relation)}
  (built : Built params domains relations graph)
include built

theorem wellFormed : graph.WellFormed := (carries_of_build built.domain_params built.relation_params built.done).2.1.well_formed

theorem drawn (edge_mem : edge ∈ graph.edges) : edge.Drawn graph.findNode? relations := drawn_of_build built.done edge edge_mem

/-- A declared statement is found. -/
theorem exists_findNode? (declared : ∃ domain ∈ domains, domain.space.name = name) :
    ∃ index, graph.findNode? name = some index := by
  obtain ⟨_, _, _, spaces_eq, _⟩ := carries_of_build built.domain_params built.relation_params built.done
  obtain ⟨domain, domain_mem, name_eq⟩ := declared
  have space_mem : domain.space ∈ graph.nodes.map (·.space) := spaces_eq ▸ mem_map_of_mem domain_mem
  obtain ⟨node, node_mem, space_eq⟩ := mem_map.mp space_mem
  obtain rfl : node.name = name := (congrArg Space.name space_eq).trans name_eq
  exact exists_findNode?_of_mem node_mem

/-- The pairs of an edge are given by relations of its kinds. -/
theorem exists_given (edge_mem : edge ∈ graph.edges) (has_kind : edge.has kind = true) {params : ℕ → ℤ}
    (related : edge.relation.Relates params x y) :
    ∃ entry ∈ relations, entry.1 = kind ∧ ∃ relation ∈ entry.2, relation.Between graph.findNode? edge.source edge.target
      ∧ (∃ untagged, relation.untag = .ok untagged) ∧ relation.Relates params x y := by
  obtain ⟨conjunct, conjunct_mem, columns, joins, holds⟩ := related
  obtain ⟨entry, entry_mem, kind_eq, stems⟩ := (built.drawn edge_mem).stems kind has_kind
  obtain ⟨relation, relation_mem, between, untagged, untagged_ok, disjunct_mem⟩ := stems conjunct conjunct_mem
  refine ⟨entry, entry_mem, kind_eq, relation, relation_mem, between, ⟨untagged, untagged_ok⟩, ?_⟩
  -- The dimensions of the nodes are those of the edge and those of the relation.
  obtain ⟨source_dim, target_dim, _⟩ := (admits_of_build built.done entry entry_mem relation relation_mem).2 _ _
    between.source between.target
  have laid_out := built.wellFormed.edges edge edge_mem
  have source_eq := Option.mem_unique laid_out.source source_dim
  have target_eq := Option.mem_unique laid_out.target target_dim
  obtain ⟨untagged_source, untagged_target, _, _, same⟩ := Relation.relates_of_untag between.laid_out untagged_ok
  refine same.mp ⟨conjunct, disjunct_mem, columns, ⟨?_, ?_⟩, holds⟩
  · rw [untagged_source]
    exact source_eq ▸ joins.source
  · rw [untagged_target]
    exact target_eq ▸ joins.target

/-- The ends of an edge are found by their names. -/
theorem mem_edgesBetween_iff {source target : String} :
    edge ∈ graph.edgesBetween kind source target ↔ edge ∈ graph.edges ∧ edge.has kind = true
      ∧ graph.findNode? source = some edge.source ∧ graph.findNode? target = some edge.target := by
  simp only [edgesBetween, mem_filter, Bool.and_eq_true, decide_eq_true_eq, and_assoc]
  refine and_congr_right fun edge_mem => and_congr_right fun has_kind => ⟨?_, ?_⟩
  · rintro ⟨source_name, target_name⟩
    have edge_drawn := built.drawn edge_mem
    obtain ⟨conjunct, conjunct_mem⟩ := exists_mem_of_ne_nil _ edge_drawn.inhabited
    obtain ⟨_, _, _, stems⟩ := edge_drawn.stems kind has_kind
    obtain ⟨relation, _, between, _⟩ := stems conjunct conjunct_mem
    obtain rfl := Option.some.inj ((nameAt?_of_findNode? between.source).symm.trans source_name)
    obtain rfl := Option.some.inj ((nameAt?_of_findNode? between.target).symm.trans target_name)
    exact ⟨between.source, between.target⟩
  · rintro ⟨source_found, target_found⟩
    exact ⟨nameAt?_of_findNode? source_found, nameAt?_of_findNode? target_found⟩

theorem length_edgesBetween_le (kind : Kind) (source target : String) :
    (graph.edgesBetween kind source target).length ≤ 1 := by
  have apart : Distinct (graph.edgesBetween kind source target) :=
    (tabled_of_build built.done).distinct.sublist filter_sublist
  have ends : ∀ edge ∈ graph.edgesBetween kind source target, edge ∈ graph.edges ∧ edge.has kind = true
      ∧ graph.findNode? source = some edge.source ∧ graph.findNode? target = some edge.target :=
    fun _ => built.mem_edgesBetween_iff.mp
  match listed : graph.edgesBetween kind source target with
  | [] | [_] => simp
  | first :: second :: later =>
    rw [listed] at apart ends
    obtain ⟨_, first_has, first_source, first_target⟩ := ends first mem_cons_self
    obtain ⟨_, second_has, second_source, second_target⟩ := ends second (mem_cons_of_mem _ mem_cons_self)
    have not_second := (pairwise_cons.mp apart).1 second mem_cons_self (Option.mem_unique first_source second_source)
      (Option.mem_unique first_target second_target) kind first_has
    rw [not_second] at second_has
    cases second_has

theorem eq_of_mem_edgesBetween {source target : String} {other : Edge}
    (edge_mem : edge ∈ graph.edgesBetween kind source target)
    (other_mem : other ∈ graph.edgesBetween kind source target) : edge = other := by
  have one := le_antisymm (built.length_edgesBetween_le kind source target) (length_pos_of_mem edge_mem)
  obtain ⟨only, listed⟩ := length_eq_one_iff.mp one
  rw [listed, mem_singleton] at edge_mem other_mem
  exact edge_mem.trans other_mem.symm

variable {source target : String}

/-- A relation between the ends of an edge has the names of the ends. -/
theorem given_of_between (edge_mem : edge ∈ graph.edgesBetween kind source target)
    {entry : Kind × List Relation} (entry_mem : entry ∈ relations) (kind_eq : entry.1 = kind)
    (relation_mem : relation ∈ entry.2) (between : relation.Between graph.findNode? edge.source edge.target) :
    Given relations kind source target relation := by
  obtain ⟨_, _, source_found, target_found⟩ := built.mem_edgesBetween_iff.mp edge_mem
  refine ⟨entry, entry_mem, kind_eq, relation_mem, Option.some.inj ?_, Option.some.inj ?_⟩
  · exact (nameAt?_of_findNode? between.source).symm.trans (nameAt?_of_findNode? source_found)
  · exact (nameAt?_of_findNode? between.target).symm.trans (nameAt?_of_findNode? target_found)

/-- The graph carries what is given between two statements. -/
theorem carries {i j : ℕ} (i_found : graph.findNode? source = some i) (j_found : graph.findNode? target = some j)
    (given : Given relations kind source target relation) : graph.Carries kind relation i j := by
  obtain ⟨entry, entry_mem, rfl, relation_mem, rfl, rfl⟩ := given
  obtain ⟨_, _, _, _, carries⟩ := carries_of_build built.domain_params built.relation_params built.done
  exact carries entry entry_mem relation relation_mem i j i_found j_found

theorem carries_of_mem_edgesBetween (edge_mem : edge ∈ graph.edgesBetween kind source target)
    (given : Given relations kind source target relation) {params : ℕ → ℤ} (related : relation.Relates params x y) :
    edge.Carries kind relation edge.source edge.target := by
  obtain ⟨_, _, source_found, target_found⟩ := built.mem_edgesBetween_iff.mp edge_mem
  obtain ⟨other, other_mem, carries⟩ := built.carries source_found target_found given params x y related
  obtain rfl : other = edge := by
    refine built.eq_of_mem_edgesBetween (built.mem_edgesBetween_iff.mpr ⟨other_mem, carries.has_kind, ?_, ?_⟩) edge_mem
    · rw [carries.source, source_found]
    · rw [carries.target, target_found]
  exact carries

end Built

/-! ### Results -/

/-- No dependence is lost or invented. Between two declared statements there is at most one edge of a kind. Its pairs
    are those of the relations given for the kind, for some values of the tags. The relations that it keeps for a
    kind with tags are tagged at both ends, and have the same pairs. -/
theorem edgesBetween_exact {params : List String} {domains : List Domain}
    {relations : List (Kind × List Relation)} {graph : Graph}
    (built : Built params domains relations graph) (kind : Kind) (source target : String)
    (source_declared : ∃ domain ∈ domains, domain.space.name = source)
    (target_declared : ∃ domain ∈ domains, domain.space.name = target) :
    (graph.edgesBetween kind source target).length ≤ 1
      ∧ (∀ params x y : ℕ → ℤ, (∃ edge ∈ graph.edgesBetween kind source target, edge.relation.Relates params x y)
          ↔ ∃ relation, Given relations kind source target relation ∧ relation.Relates params x y)
      ∧ (kind = .condition ∨ kind = .conditionalValidity → ∀ edge ∈ graph.edgesBetween kind source target,
          (∀ tagged ∈ edge.taggedOf kind, tagged.isFullyTagged = true)
            ∧ ∀ params x y : ℕ → ℤ, (∃ tagged ∈ edge.taggedOf kind, tagged.Relates params x y)
                ↔ edge.relation.Relates params x y) := by
  refine ⟨built.length_edgesBetween_le kind source target, fun params x y => ⟨?_, ?_⟩, fun keeps edge edge_mem => ⟨?_, ?_⟩⟩
  · rintro ⟨edge, edge_mem, related⟩
    obtain ⟨in_graph, has_kind, _⟩ := built.mem_edgesBetween_iff.mp edge_mem
    obtain ⟨entry, entry_mem, kind_eq, relation, relation_mem, between, _, relates⟩ :=
      built.exists_given in_graph has_kind related
    exact ⟨relation, built.given_of_between edge_mem entry_mem kind_eq relation_mem between, relates⟩
  · rintro ⟨relation, given, related⟩
    obtain ⟨i, i_found⟩ := built.exists_findNode? source_declared
    obtain ⟨j, j_found⟩ := built.exists_findNode? target_declared
    obtain ⟨edge, edge_mem, rfl, rfl, has_kind, edge_related⟩ := (built.carries i_found j_found given).links related
    exact ⟨edge, built.mem_edgesBetween_iff.mpr ⟨edge_mem, has_kind, i_found, j_found⟩, edge_related⟩
  · intro tagged tagged_mem
    obtain ⟨in_graph, _⟩ := built.mem_edgesBetween_iff.mp edge_mem
    obtain ⟨_, _, _, _, _, _, as_tagged⟩ := (built.drawn in_graph).tagged kind tagged tagged_mem
    exact as_tagged.isFullyTagged
  · obtain ⟨in_graph, has_kind, _⟩ := built.mem_edgesBetween_iff.mp edge_mem
    refine fun params x y => ⟨?_, fun related => ?_⟩
    · rintro ⟨tagged, tagged_mem, related⟩
      obtain ⟨entry, entry_mem, kind_eq, relation, relation_mem, between, as_tagged⟩ :=
        (built.drawn in_graph).tagged kind tagged tagged_mem
      have given := built.given_of_between edge_mem entry_mem kind_eq relation_mem between
      have relates := (as_tagged.relates_iff between.laid_out).mp related
      exact (built.carries_of_mem_edgesBetween edge_mem given relates).relates params x y relates
    · obtain ⟨entry, entry_mem, kind_eq, relation, relation_mem, between, ⟨untagged, untagged_ok⟩, relates⟩ :=
        built.exists_given in_graph has_kind related
      have given := built.given_of_between edge_mem entry_mem kind_eq relation_mem between
      obtain ⟨tagged, as_tagged⟩ := relation.exists_taggedAs untagged_ok
      have keeps_tags : keepsTags kind = true := by rcases keeps with rfl | rfl <;> rfl
      have tagged_mem := (built.carries_of_mem_edgesBetween edge_mem given relates).tagged keeps_tags tagged as_tagged
      exact ⟨tagged, tagged_mem, (as_tagged.relates_iff between.laid_out).mpr relates⟩

/-- A pair of accesses: the source is tagged with its own coordinate, the target with nothing. -/
def taggedAccess : Relation :=
  { source := { name := "S", dim := 1, tag := some { name := "A", dim := 1 } }
    target := { name := "T", dim := 1, tag := some { name := "B", dim := 0 } }
    params := []
    disjuncts := [{
      inputs := 2, outputs := 1, locals := 0
      system := { dim := 3, params := 0, constraints := [
        { sense := .zero, form := { constant := 0, coeffs := [1, -1, 0], params := [] } },
        { sense := .zero, form := { constant := 0, coeffs := [0, -1, 1], params := [] } }] } }] }

/-- The access without its tags, a step later. -/
def plainAccess : Relation := Relation.shifted "S" "T" (-1)

/-- Two lines. -/
def lines : List Domain :=
  [Domain.unconstrained (Space.named "S" 1), Domain.unconstrained (Space.named "T" 1)]

set_option maxRecDepth 100000 in
theorem exists_built_accesses : ∃ graph, Built [] lines [(.condition, [taggedAccess, plainAccess])] graph := by
  have done : (build [] lines [(.condition, [taggedAccess, plainAccess])]).toOption.isSome = true := by decide +kernel
  obtain ⟨graph, graph_ok⟩ := Option.isSome_iff_exists.mp done
  refine ⟨graph, by decide, by decide, ok_of_toOption graph_ok⟩

/-- Both accesses become pairs of one edge, which keeps two tagged relations. -/
theorem edgesBetween_exact_accesses : ∃ graph, Built [] lines [(.condition, [taggedAccess, plainAccess])] graph
    ∧ ∃ edge ∈ graph.edgesBetween .condition "S" "T", edge.relation.Relates (fun _ => 0) (fun _ => 5) (fun _ => 6) := by
  obtain ⟨graph, built⟩ := exists_built_accesses
  have exact_pairs := (edgesBetween_exact built .condition "S" "T" (by decide) (by decide)).2.1
  exact ⟨graph, built, (exact_pairs _ _ _).mpr ⟨plainAccess, ⟨_, List.mem_singleton_self _, rfl, by decide, rfl, rfl⟩,
    Relation.shifted_relates "S" "T" (-1) _ rfl⟩⟩

end Graph

end AffineSchedule
