import AffineSchedule.Proofs.Dependence.Pairs
import AffineSchedule.Proofs.Relation.Query

namespace AffineSchedule

open Checked List

variable {a b : Node} {edge narrowed twin : Edge} {relation tagged image : Relation} {names : List String}

/-- A tagged relation over the parameters of a graph that stands beside the relation of an edge. -/
structure Relation.Tagging (relation : Relation) (names : List String) (tagged : Relation) : Prop where
  laid_out : tagged.LaidOut
  params : tagged.params = names
  fully : tagged.isFullyTagged = true
  source : tagged.source.dim = relation.source.dim
  target : tagged.target.dim = relation.target.dim

namespace Edge

/-- An edge has disjuncts, none of them reported empty, and the tagged relations that it keeps stand beside its relation. -/
structure Kept (edge : Edge) : Prop where
  inhabited : edge.relation.disjuncts ≠ []
  holding : ∀ disjunct ∈ edge.relation.disjuncts, disjunct.MayHold
  tagged : ∀ kind, ∀ tagged ∈ edge.taggedOf kind,
    ∃ names, names.length = edge.relation.params.length ∧ edge.relation.Tagging names tagged

/-- The relation of an edge of a kind relates two instances, and so does a tagged relation kept for the kind. -/
structure RelatesAs (edge : Edge) (names : List String) (kind : Kind) (params : ℕ → ℤ)
    (x y : TaggedInstance) : Prop where
  has_kind : edge.has kind = true
  related : edge.relation.Relates params (coordinates x.point) (coordinates y.point)
  tagged : ∃ tagged ∈ edge.taggedOf kind, edge.relation.Tagging names tagged ∧ tagged.RelatesTagged params x y

section

variable (core_eq : edge.core = twin.core)
include core_eq

theorem taggedOf_of_core_eq (kind : Kind) :
    edge.taggedOf kind = twin.taggedOf kind := by
  cases kind with
  | condition => exact congrArg (·.taggedCondition) core_eq
  | conditionalValidity => exact congrArg (·.taggedValidity) core_eq
  | validity | coincidence | proximity => rfl

theorem RelatesAs.of_core_eq {kind : Kind} {params : ℕ → ℤ}
    {x y : TaggedInstance} (related : edge.RelatesAs names kind params x y) : twin.RelatesAs names kind params x y := by
  have relation_eq : edge.relation = twin.relation := congrArg (·.relation) core_eq
  obtain ⟨tagged, tagged_mem, tagging, tagged_related⟩ := related.tagged
  refine ⟨has_of_core_eq core_eq kind ▸ related.has_kind, relation_eq ▸ related.related, tagged,
    taggedOf_of_core_eq core_eq kind ▸ tagged_mem, relation_eq ▸ tagging, tagged_related⟩

end

theorem Kept.of_core_eq (kept : edge.Kept) (core_eq : edge.core = twin.core) : twin.Kept := by
  have relation_eq : edge.relation = twin.relation := congrArg (·.relation) core_eq
  refine ⟨relation_eq ▸ kept.inhabited, relation_eq ▸ kept.holding, fun kind => ?_⟩
  rw [← taggedOf_of_core_eq core_eq kind, ← relation_eq]
  exact kept.tagged kind

end Edge

namespace Graph

open Edge

/-- Two tagged instances at two positions are linked by a dependence of a kind. -/
def LinksTagged (graph : Graph) (kind : Kind) (i j : ℕ) (params : ℕ → ℤ) (x y : TaggedInstance) : Prop :=
  ∃ edge ∈ graph.edges, edge.source = i ∧ edge.target = j ∧ edge.RelatesAs graph.params kind params x y

section Links

variable {graph next : Graph} {kind : Kind} {i j : ℕ} {params : ℕ → ℤ} {x y : TaggedInstance}

theorem LinksTagged.links (linked : graph.LinksTagged kind i j params x y) :
    graph.Links kind i j params (coordinates x.point) (coordinates y.point) := by
  obtain ⟨edge, edge_mem, source_eq, target_eq, related⟩ := linked
  exact ⟨edge, edge_mem, source_eq, target_eq, related.has_kind, related.related⟩

theorem LinksTagged.exists_ends (linked : graph.LinksTagged kind i j params x y) (well_formed : graph.WellFormed) :
    ∃ a b, graph.nodes[i]? = some a ∧ graph.nodes[j]? = some b := by
  obtain ⟨edge, edge_mem, rfl, rfl, _⟩ := linked
  exact well_formed.exists_ends edge_mem

theorem LinksTagged.of_edges_eq (linked : graph.LinksTagged kind i j params x y) (params_eq : next.params = graph.params)
    (edges_eq : graph.SameEdges next) : next.LinksTagged kind i j params x y := by
  obtain ⟨edge, edge_mem, rfl, rfl, related⟩ := linked
  obtain ⟨twin, twin_mem, core_eq⟩ := SameEdges.exists_twin edges_eq.symm edge_mem
  exact ⟨twin, twin_mem, congrArg (·.source) core_eq, congrArg (·.target) core_eq,
    params_eq ▸ related.of_core_eq core_eq.symm⟩

/-! ### Times by position -/

/-- The time that a row of the node at a position gives a tagged instance, zero where there is no such row. -/
def timeOf (graph : Graph) (i row : ℕ) (params : ℕ → ℤ) (x : TaggedInstance) : ℤ :=
  graph.nodes[i]?.elim 0 (·.timeAt row params (coordinates x.point))

section Times

variable {row count : ℕ}

theorem timeOf_eq (a_at : graph.nodes[i]? = some a) : graph.timeOf i row params x = a.timeAt row params (coordinates x.point) := by
  rw [timeOf, a_at]
  rfl

theorem timeOf_congr {related : Node → Node → Prop} (nodes : Forall₂ related graph.nodes next.nodes)
    (same : ∀ a b, a ∈ graph.nodes → related a b → ∀ params x, b.timeAt row params x = a.timeAt row params x) :
    next.timeOf i row params x = graph.timeOf i row params x := by
  cases a_at : graph.nodes[i]? with
  | none =>
    have b_at : next.nodes[i]? = none := getElem?_eq_none (nodes.length_eq ▸ List.getElem?_eq_none_iff.mp a_at)
    rw [timeOf, timeOf, a_at, b_at]
  | some a =>
    obtain ⟨b, b_at, a_related⟩ := nodes.getElem?_right a_at
    rw [timeOf_eq a_at, timeOf_eq b_at, same a b (mem_of_getElem? a_at) a_related]

theorem SameRows.timeOf_eq (same : next.SameRows graph) : next.timeOf i row params x = graph.timeOf i row params x :=
  timeOf_congr same.nodes fun _ _ _ node_same => node_same.timeAt_eq row

variable (has_rows : ∀ node ∈ graph.nodes, node.HasRows count)
include has_rows

theorem timeOf_prolongs (nodes : Forall₂ (fun before after : Node => after.Prolongs before) graph.nodes next.nodes)
    (inside : row < count) : next.timeOf i row params x = graph.timeOf i row params x :=
  timeOf_congr nodes fun a _ a_mem prolonged => prolonged.timeAt_eq (has_rows a a_mem) inside

theorem timeOf_eq_zero (beyond : count ≤ row) : graph.timeOf i row params x = 0 := by
  cases a_at : graph.nodes[i]? with
  | none =>
    rw [timeOf, a_at]
    rfl
  | some a => rw [timeOf_eq a_at, (has_rows a (mem_of_getElem? a_at)).timeAt_eq_zero beyond]

end Times

/-! ### Narrowing -/

/-- A narrowed tagged relation stands beside the narrowed relation. -/
theorem tagging_of_narrowRelation {sourceRows targetRows : RowMatrix} (tagging : relation.Tagging names tagged)
    (done : narrowRelation sourceRows targetRows tagged = .ok image) (disjuncts : List Conjunct) :
    { relation with disjuncts := disjuncts }.Tagging names image := by
  obtain ⟨image_eq, restricts⟩ := narrowRelation_ok done
  refine ⟨(restricts tagging.laid_out).1, ?_, ?_, ?_, ?_⟩
  · rw [image_eq, tagging.params]
  · rw [image_eq]
    exact tagging.fully
  · rw [image_eq, tagging.source]
  · rw [image_eq, tagging.target]

theorem kept_of_narrowEdge (kept : edge.Kept) (done : graph.narrowEdge edge = .ok narrowed)
    (inhabited : narrowed.relation.disjuncts ≠ []) : narrowed.Kept := by
  obtain ⟨_, _, _, _, narrowed_eq, relation_ok, each⟩ := narrowEdge_parts done
  have relation_eq := congrArg (·.relation) narrowed_eq
  obtain ⟨_, _, dropped⟩ := bind_ok.mp relation_ok
  refine ⟨inhabited, fun disjunct disjunct_mem => (Relation.mem_of_dropEmpty dropped disjunct_mem).2,
    fun kind image image_mem => ?_⟩
  obtain ⟨images, narrowed_each, taggedOf_eq⟩ := each kind
  rw [taggedOf_eq] at image_mem
  obtain ⟨tagged, tagged_mem, image_ok⟩ := narrowed_each.exists_left (mem_filter.mp image_mem).1
  obtain ⟨names, length_eq, tagging⟩ := kept.tagged kind tagged tagged_mem
  rw [relation_eq]
  exact ⟨names, length_eq, tagging_of_narrowRelation tagging image_ok _⟩

section

variable (well_formed : graph.WellFormed) (laid_out : edge.LaidOut graph.dims graph.params.length)
include well_formed laid_out

/-- A narrowed tagged relation has the pairs on which the rows of the ends of the edge agree. -/
theorem relatesTagged_narrowRelation_iff
    (a_at : graph.nodes[edge.source]? = some a) (b_at : graph.nodes[edge.target]? = some b)
    (tagging : edge.relation.Tagging names tagged) (names_length : names.length = graph.params.length)
    (done : narrowRelation a.schedule b.schedule tagged = .ok image) : image.RelatesTagged params x y ↔
      tagged.RelatesTagged params x y
        ∧ RowsAgree a.schedule b.schedule graph.params.length params (coordinates x.point) (coordinates y.point) := by
  have narrows := ((narrowRelation_ok done).2 tagging.laid_out).2
  rw [tagging.params, names_length, tagging.source, tagging.target, (well_formed.nodes a (mem_of_getElem? a_at)).cols,
    (well_formed.nodes b (mem_of_getElem? b_at)).cols, dim_eq_of_dims a_at laid_out.source,
    dim_eq_of_dims b_at laid_out.target] at narrows
  exact (narrows rfl rfl).relatesTagged_iff

theorem relatesAs_of_narrowEdge (done : graph.narrowEdge edge = .ok narrowed) (a_at : graph.nodes[edge.source]? = some a)
    (b_at : graph.nodes[edge.target]? = some b) (related : edge.RelatesAs graph.params kind params x y)
    (agree : ∀ row, a.timeAt row params (coordinates x.point) = b.timeAt row params (coordinates y.point)) :
    narrowed.RelatesAs graph.params kind params x y := by
  obtain ⟨_, narrows⟩ := narrowEdge_ok well_formed laid_out done
  obtain ⟨source, target, source_at, target_at, narrowed_eq, _, kept⟩ := narrowEdge_parts done
  obtain rfl := Option.mem_unique source_at a_at
  obtain rfl := Option.mem_unique target_at b_at
  obtain ⟨tagged, tagged_mem, tagging, tagged_related⟩ := related.tagged
  obtain ⟨images, each, taggedOf_eq⟩ := kept kind
  obtain ⟨image, image_mem, image_ok⟩ := each.exists_right tagged_mem
  have agree_rows := rowsAgree_of_timeAt_eq (well_formed.nodes source (mem_of_getElem? a_at)).params
    (well_formed.nodes target (mem_of_getElem? b_at)).params agree
  have image_related := (relatesTagged_narrowRelation_iff well_formed laid_out a_at b_at tagging rfl image_ok).mpr
    ⟨tagged_related, agree_rows⟩
  refine ⟨?_, (narrows _ _ a_at b_at).relates_iff.mpr ⟨related.related, agree_rows⟩, image, ?_, ?_, image_related⟩
  · rw [narrowed_eq]
    exact related.has_kind
  · rw [taggedOf_eq, mem_filter]
    exact ⟨image_mem, by simpa using disjuncts_ne_nil image_related.relates⟩
  · rw [narrowed_eq]
    exact tagging_of_narrowRelation tagging image_ok _

end

/-- Narrowing keeps the links between tagged instances with the same times. -/
theorem LinksTagged.narrow (linked : graph.LinksTagged kind i j params x y) (well_formed : graph.WellFormed)
    (done : graph.narrowEdges = .ok next) (agree : ∀ row, graph.timeOf i row params x = graph.timeOf j row params y) :
    next.LinksTagged kind i j params x y := by
  obtain ⟨edge, edge_mem, rfl, rfl, related⟩ := linked
  obtain ⟨a, b, a_at, b_at⟩ := well_formed.exists_ends edge_mem
  simp only [timeOf_eq a_at, timeOf_eq b_at] at agree
  obtain ⟨next_eq, _, narrowed_of_mem⟩ := narrowEdges_ok done
  obtain ⟨after, narrow_ok, after_mem⟩ := narrowed_of_mem edge edge_mem
  have laid_out := well_formed.edges edge edge_mem
  have after_related := relatesAs_of_narrowEdge well_formed laid_out narrow_ok a_at b_at related agree
  obtain ⟨_, _, _, _, after_eq, _⟩ := narrowEdge_parts narrow_ok
  have params_eq : next.params = graph.params := congrArg (·.params) next_eq
  exact ⟨after, after_mem (disjuncts_ne_nil after_related.related), by rw [after_eq], by rw [after_eq], params_eq ▸ after_related⟩

end Links

end Graph

/-! ### Built graphs -/

/-- The tagged form of a relation has the layout and the dimensions of the relation. -/
theorem Relation.TaggedAs.tagging {other : Relation} (as_tagged : relation.TaggedAs tagged) (laid_out : relation.LaidOut)
    (source_dim : relation.source.dim = other.source.dim) (target_dim : relation.target.dim = other.target.dim) :
    other.Tagging relation.params tagged := by
  cases as_tagged with
  | itself fully => exact ⟨laid_out, rfl, fully, source_dim, target_dim⟩
  | @dummy untagged _ done =>
    obtain ⟨source_eq, target_eq, params_eq, untagged_laid_out, _⟩ := relates_of_untag laid_out done
    refine ⟨?_, params_eq, rfl, ?_, ?_⟩
    · intro conjunct conjunct_mem
      have conjunct_laid_out := untagged_laid_out conjunct conjunct_mem
      rw [source_eq, target_eq] at conjunct_laid_out
      simp only [withDummyTags, source_eq, target_eq]
      exact conjunct_laid_out
    · exact (congrArg Tuple.dim source_eq).trans source_dim
    · exact (congrArg Tuple.dim target_eq).trans target_dim

namespace Graph.Built

variable {params : List String} {domains : List Domain} {relations : List (Kind × List Relation)}
  {graph : Graph} (built : Built params domains relations graph)
include built

theorem tagging {entry : Kind × List Relation} (entry_mem : entry ∈ relations) (relation_mem : relation ∈ entry.2)
    (edge_mem : edge ∈ graph.edges) (source_found : graph.findNode? relation.source.name = some edge.source)
    (target_found : graph.findNode? relation.target.name = some edge.target)
    (as_tagged : relation.TaggedAs tagged) : edge.relation.Tagging relation.params tagged := by
  obtain ⟨laid_out, admits⟩ := admits_of_build built.done entry entry_mem relation relation_mem
  obtain ⟨source_dim, target_dim, _⟩ := admits _ _ source_found target_found
  have edge_laid_out := built.wellFormed.edges edge edge_mem
  exact as_tagged.tagging laid_out (Option.some.inj (source_dim.symm.trans edge_laid_out.source))
    (Option.some.inj (target_dim.symm.trans edge_laid_out.target))

theorem kept : ∀ edge ∈ graph.edges, edge.Kept := by
  intro edge edge_mem
  have drawn := drawn_of_build built.done edge edge_mem
  refine ⟨drawn.inhabited, drawn.holding, fun kind tagged tagged_mem => ?_⟩
  obtain ⟨entry, entry_mem, _, relation, relation_mem, between, as_tagged⟩ := drawn.tagged kind tagged tagged_mem
  refine ⟨relation.params, ?_, built.tagging entry_mem relation_mem edge_mem between.source between.target as_tagged⟩
  obtain ⟨params_eq, _⟩ := carries_of_build built.domain_params built.relation_params built.done
  rw [built.relation_params entry entry_mem relation relation_mem, (built.wellFormed.edges edge edge_mem).params, params_eq]

/-- A built graph links the tagged pairs of the relations it was built from, for the kinds that keep tags. -/
theorem linksTagged {entry : Kind × List Relation} (entry_mem : entry ∈ relations)
    (relation_mem : relation ∈ entry.2) (keeps_tags : keepsTags entry.1 = true) (names : relation.params = params) {i j : ℕ}
    (i_found : graph.findNode? relation.source.name = some i) (j_found : graph.findNode? relation.target.name = some j)
    {values : ℕ → ℤ} {x y : TaggedInstance} (related : relation.RelatesTagged values x y) :
    graph.LinksTagged entry.1 i j values x y := by
  obtain ⟨params_eq, _, _, _, carried⟩ := carries_of_build built.domain_params built.relation_params built.done
  obtain ⟨edge, edge_mem, carries⟩ := carried entry entry_mem relation relation_mem i j i_found j_found values _ _ related.relates
  obtain ⟨laid_out, admits⟩ := admits_of_build built.done entry entry_mem relation relation_mem
  obtain ⟨_, _, untagged, untagged_ok⟩ := admits i j i_found j_found
  obtain ⟨tagged, as_tagged⟩ := relation.exists_taggedAs untagged_ok
  refine ⟨edge, edge_mem, carries.source, carries.target, carries.has_kind, carries.relates values _ _ related.relates,
    tagged, carries.tagged keeps_tags tagged as_tagged, ?_, as_tagged.relatesTagged laid_out related⟩
  rw [params_eq, ← names]
  exact built.tagging entry_mem relation_mem edge_mem (carries.source ▸ i_found) (carries.target ▸ j_found) as_tagged

end Graph.Built

end AffineSchedule
