import AffineSchedule.Proofs.Dependence.Build
import AffineSchedule.Proofs.Dependence.Subgraph
import AffineSchedule.Proofs.Linear.Faults

namespace AffineSchedule

open Checked List

/-! ### Relations -/

namespace Polyhedron

section

variable (polyhedron : Polyhedron)

@[simp] theorem routine_add (constraint : Constraint) :
    Routine (polyhedron.add constraint) := by
  simp [add]

@[simp] theorem routine_alignParams (source target : List String) :
    Routine (polyhedron.alignParams source target) := by
  simp [alignParams]

@[simp] theorem routine_isEmpty : Routine polyhedron.isEmpty := by
  simp [isEmpty, isIndivisible, constraintRow]

end

end Polyhedron

namespace Conjunct

section

variable (conjunct : Conjunct)

@[simp] theorem routine_width : Routine conjunct.width := by
  simp [width]

@[simp] theorem routine_add (constraint : Constraint) : Routine (conjunct.add constraint) := by
  simp [add]

@[simp] theorem routine_rowDistance (sourceRow targetRow : List ℤ) :
    Routine (conjunct.rowDistance sourceRow targetRow) := by
  simp [rowDistance, rowForm]

end

end Conjunct

namespace Relation

section

variable (relation : Relation)

@[simp] theorem routine_alignParams (params : List String) :
    Routine (relation.alignParams params) := by
  simp [alignParams]

@[simp] theorem routine_validate : Routine relation.validate := by
  simp [validate, Conjunct.validate, Tuple.columns, Fault.Routine]

@[simp] theorem routine_onEqualRows (sourceRows targetRows : RowMatrix) :
    Routine (relation.onEqualRows sourceRows targetRows) := by
  have equating : ∀ conjunct rows, Routine (equateRows conjunct rows) := fun _ _ => by simp [equateRows]
  simp [onEqualRows, equating]

@[simp] theorem routine_dropEmpty : Routine relation.dropEmpty := by
  simp [dropEmpty]

@[simp] theorem routine_reachesDistance (sourceRow targetRow : List ℤ) (sign : ℤ) :
    Routine (relation.reachesDistance sourceRow targetRow sign) := by
  simp [reachesDistance, conjunctReaches]

@[simp] theorem routine_isAlwaysEqual (sourceRows targetRows : RowMatrix) :
    Routine (relation.isAlwaysEqual sourceRows targetRows) := by
  have separating : ∀ rows, Routine (relation.separates rows) := fun _ => by simp [separates]
  simp [isAlwaysEqual, separating]

end

@[simp] theorem routine_sidesMeet (left : Relation) (leftSide : Side) (right : Relation)
    (rightSide : Side) : Routine (left.sidesMeet leftSide right rightSide) := by
  have meeting : ∀ params first second, Routine (conjunctsMeet params leftSide rightSide first second) := fun _ _ _ => by
    simp [conjunctsMeet, joinConjuncts]
  simp [sidesMeet, meeting]

end Relation

/-! ### Nodes and rows -/

variable {graph : Graph}

namespace Node

@[simp] theorem routine_updateBasis (node : Node) : Routine node.updateBasis := by
  simp [updateBasis]

@[simp] theorem routine_pushRow (node : Node) (row : List ℤ) (band : Option ℕ) (coincident : Bool) :
    Routine (node.pushRow row band coincident) := by
  simp [pushRow]

theorem routine_updateBandId (node : Node) (band : ℕ) {change : ℕ → Checked ℕ}
    (routine : ∀ identifier, Routine (change identifier)) : Routine (node.updateBandId band change) := by
  simp [updateBandId, routine]

end Node

namespace Graph

section

variable (graph : Graph)

@[simp] theorem routine_node (index : ℕ) : Routine (graph.node index) := by
  simp [node]

@[simp] theorem routine_updateRowsNeeded : Routine graph.updateRowsNeeded := by
  simp [updateRowsNeeded]

@[simp] theorem routine_resetBand : Routine graph.resetBand := by
  simp [resetBand, Fault.Routine]

@[simp] theorem routine_padRows : Routine graph.padRows := by
  simp [padRows]

end

/-- A row is appended if there is room for it and it has an entry for every node. -/
theorem routine_appendRow {rows : List (List ℤ)} {flag : Bool}
    (room : graph.counters.totalRows < graph.counters.maxRows) (length_eq : rows.length = graph.nodes.length) :
    Routine (graph.appendRow rows flag) := by
  simp [appendRow, checkCapacity, room, length_eq]

theorem routine_appendConstantRow {value : Node → ℤ} (room : graph.counters.totalRows < graph.counters.maxRows) :
    Routine (graph.appendConstantRow value) := by
  simp [appendConstantRow, checkCapacity, room]

end Graph

namespace Graph

open Edge

variable {edges : List Edge} {filter : ComponentFilter} {group : RelationGroup} {kind : Kind}
  {groups : List RelationGroup} {edge : Edge} {next : Graph} {used : List (Kind × ℕ × ℕ)}
  {relations : List (Kind × List Relation)}

/-! ### The table of edges -/

/-- An edge is entered if the table does not lead to another one under its key. -/
theorem routine_enterEdge {entry : Kind × ℕ} (free : ∀ edge other, graph.edges[entry.2]? = some edge →
      graph.edgeTable.lookup (entry.1, edge.source, edge.target) = some other → other = entry.2) :
    Routine (graph.enterEdge entry) := by
  simp only [enterEdge, faultsIn_bind_iff, ofOption_ok]
  refine ⟨by simp, fun edge edge_at => ?_⟩
  rw [if_neg]
  · exact faultsIn_pure _
  · simp only [Option.any_eq_true, decide_eq_true_eq, not_exists, not_and, not_not]
    exact fun other => free edge other edge_at

/-- Distinct edges are entered without a conflict. -/
theorem routine_withEdges (graph : Graph) (distinct : Distinct edges) : Routine (graph.withEdges edges) := by
  -- At every point the table leads to positions where its keys stand.
  refine (meets_foldlM (fun state : Graph => state.edges = edges
    ∧ ∀ key position, state.edgeTable.lookup key = some position → Stands edges key position)
    ⟨rfl, fun _ _ found => absurd found (by simp)⟩ ?_).faults
  rintro state entry entry_mem ⟨rfl, leads⟩
  obtain ⟨edge, edge_at, has_kind⟩ := mem_tableEntries.mp entry_mem
  have stands : Stands state.edges (entry.1, edge.source, edge.target) entry.2 := ⟨edge, edge_at, has_kind, rfl⟩
  refine ⟨routine_enterEdge fun found other found_at led => ?_, fun next entered => ?_⟩
  · obtain rfl := Option.mem_unique edge_at found_at
    exact distinct_iff.mp distinct _ _ _ (leads _ _ led) stands
  · obtain ⟨found, _, rfl, found_at, lookup_iff⟩ := enterEdge_ok entered
    obtain rfl := Option.mem_unique edge_at found_at
    refine ⟨rfl, fun key position led => ?_⟩
    rcases (lookup_iff key position).mp led with before | ⟨rfl, rfl⟩
    · exact leads key position before
    · exact stands

/-! ### Narrowing -/

@[simp] theorem routine_narrowRelation (sourceRows targetRows : RowMatrix) (relation : Relation) :
    Routine (narrowRelation sourceRows targetRows relation) := by
  simp [narrowRelation]

theorem alike_of_narrowEdge {next : Edge} (done : graph.narrowEdge edge = .ok next) : edge.Alike next := by
  simp only [narrowEdge, bind_ok, pure_ok] at done
  obtain ⟨_, _, _, _, _, _, _, _, _, _, rfl⟩ := done
  exact ⟨rfl, rfl, rfl⟩

/-- Narrowing leaves at most one edge per kind between two nodes, so it breaks no contract. -/
theorem routine_narrowEdges (tabled : graph.Tabled) : Routine graph.narrowEdges := by
  have each : ∀ edge, Routine (graph.narrowEdge edge) := by
    intro edge
    simp [narrowEdge, narrowAll]
  simp only [narrowEdges, faultsIn_bind_iff]
  refine ⟨faultsIn_mapM fun edge _ => each edge, fun narrowed narrowed_ok => ?_⟩
  have narrowed_distinct := tabled.distinct.of_alike ((mapM_ok.mp narrowed_ok).imp fun _ _ done => alike_of_narrowEdge done)
  exact routine_withEdges graph (narrowed_distinct.sublist filter_sublist)

/-! ### Extraction -/

/-- No edge of validity or conditional validity leads to an earlier component. -/
def Forward (graph : Graph) : Prop :=
  ∀ edge ∈ graph.edges, edge.isAnyValidity = true → ∀ a b, graph.nodes[edge.source]? = some a →
    graph.nodes[edge.target]? = some b → a.component ≤ b.component

theorem forward_assign {follows : ℕ → ℕ → Bool}
    (along : ∀ edge ∈ graph.edges, edge.isAnyValidity = true → follows edge.target edge.source = true) :
    (graph.assign (Components.compute graph.nodes.length follows)).Forward := by
  intro edge edge_mem any_validity a b
  exact component_le_of_assign (along edge edge_mem any_validity)

theorem forward_detectStrong (tabled : graph.Tabled) : graph.detectStrong.Forward := by
  refine forward_assign fun edge edge_mem any_validity => ?_
  rw [hasValidityEdge, Bool.or_eq_true]
  exact ((Bool.or_eq_true _ _).mp any_validity).imp (tabled.hasEdge_of_mem edge_mem) (tabled.hasEdge_of_mem edge_mem)

theorem forward_detectWeak (tabled : graph.Tabled) : graph.detectWeak.Forward := by
  refine forward_assign fun edge edge_mem any_validity => ?_
  rw [Bool.or_eq_true]
  exact Or.inr (((Bool.or_eq_true _ _).mp any_validity).elim (tabled.hasAnyEdge_of_mem edge_mem)
    (tabled.hasAnyEdge_of_mem edge_mem))

/-- Nodes with the same components, and the same edges between them, are ordered alike. -/
theorem Forward.of_components (forward : graph.Forward) (nodes : SameComponents graph.nodes next.nodes)
    (edges_eq : graph.SameEdges next) : next.Forward := by
  intro edge edge_mem any_validity a b a_at b_at
  refine edges_eq.forall_ends nodes ?_
    (fun edge edge_mem a b a_at b_at any_validity => forward edge edge_mem any_validity a b a_at b_at)
    edge edge_mem a b a_at b_at any_validity
  intro twin edge a_before a b_before b core_eq a_component b_component in_order any_validity
  have any_eq : twin.isAnyValidity = edge.isAnyValidity := congrArg (·.isAnyValidity) core_eq
  rw [a_component, b_component]
  exact in_order (any_eq.trans any_validity)

theorem keepsNode_of_keepsEdge {source target : ℕ} (keeps : filter.keepsEdge source target = true)
    (forward : source ≤ target) : filter.keepsNode source = true ∧ filter.keepsNode target = true := by
  cases filter with
  | exactly limit => simpa [ComponentFilter.keepsEdge, ComponentFilter.keepsNode] using keeps
  | atMost limit =>
    have within : target ≤ limit := of_decide_eq_true keeps
    exact ⟨decide_eq_true (forward.trans within), decide_eq_true within⟩
  | atLeast limit =>
    have within : limit ≤ source := of_decide_eq_true keeps
    exact ⟨decide_eq_true within, decide_eq_true (within.trans forward)⟩

theorem routine_extractEdge (forward : graph.Forward) (edge_mem : edge ∈ graph.edges) :
    Routine (graph.extractEdge filter edge) := by
  simp only [extractEdge, faultsIn_bind_iff, routine_node, true_and, faultsIn_ite_iff, faultsIn_pure, implies_true]
  intro source source_ok target target_ok selected
  cases any_validity : edge.isAnyValidity with
  | false => split <;> simp
  | true =>
    simp only [node, ofOption_ok] at source_ok target_ok
    have in_order := forward edge edge_mem any_validity source target source_ok target_ok
    obtain ⟨keeps_source, keeps_target⟩ := keepsNode_of_keepsEdge (by simpa using selected) in_order
    rw [newPosition_of_inPart ⟨source, source_ok, keeps_source⟩,
      newPosition_of_inPart ⟨target, target_ok, keeps_target⟩]
    simp

/-- Selected nodes keep their order. -/
theorem selectedBefore_lt {nodes : List Node} {first second : ℕ} {node : Node}
    (node_at : nodes[first]? = some node) (keeps : filter.keepsNode node.component = true) (before : first < second) :
    selectedBefore filter nodes first < selectedBefore filter nodes second := by
  have longer : nodes.take (first + 1) <+: nodes.take second := take_prefix_take_left (by omega)
  have counted := (longer.sublist.filter fun node => filter.keepsNode node.component).length_le
  rw [take_add_one, node_at, Option.toList_some, filter_append, length_append,
    filter_cons_of_pos (by simpa using keeps), length_cons] at counted
  unfold selectedBefore
  omega

theorem eq_of_selectedBefore_eq {first second : ℕ} (first_in : graph.InPart filter first) (second_in : graph.InPart filter second)
    (same_place : selectedBefore filter graph.nodes first = selectedBefore filter graph.nodes second) :
    first = second := by
  obtain ⟨a, a_at, keeps_a⟩ := first_in
  obtain ⟨b, b_at, keeps_b⟩ := second_in
  rcases Nat.lt_trichotomy first second with before | same | behind
  · exact absurd same_place (selectedBefore_lt a_at keeps_a before).ne
  · exact same
  · exact absurd same_place (selectedBefore_lt b_at keeps_b behind).ne'

theorem distinct_of_extracted {moved : List (Option Edge)} (distinct : Distinct edges)
    (each : Forall₂ (fun edge result => graph.extractEdge filter edge = .ok result) edges moved) :
    Distinct (moved.filterMap id) := by
  induction each with
  | nil => exact List.Pairwise.nil
  | @cons edge result later rest extracted tail ih =>
    obtain ⟨apart, later_distinct⟩ := pairwise_cons.mp distinct
    cases result with
    | none => exact ih later_distinct
    | some place =>
      refine pairwise_cons.mpr ⟨fun other other_mem => ?_, ih later_distinct⟩
      obtain ⟨_, result_mem, rfl⟩ := mem_filterMap.mp other_mem
      obtain ⟨before, before_mem, before_ok⟩ := tail.exists_left result_mem
      obtain ⟨source_in, target_in, rfl⟩ := extractEdge_eq_some extracted
      obtain ⟨other_source_in, other_target_in, rfl⟩ := extractEdge_eq_some before_ok
      intro source_eq target_eq
      exact apart before before_mem (eq_of_selectedBefore_eq source_in other_source_in source_eq)
        (eq_of_selectedBefore_eq target_in other_target_in target_eq)

/-- A part is extracted without breaking a contract: no selected edge of validity leaves it. -/
theorem routine_extract (filter : ComponentFilter) (forward : graph.Forward) (tabled : graph.Tabled) :
    Routine (graph.extract filter) := by
  simp only [extract, faultsIn_bind_iff]
  refine ⟨faultsIn_mapM fun edge edge_mem => routine_extractEdge forward edge_mem, fun moved moved_ok => ?_⟩
  exact routine_withEdges _ (distinct_of_extracted tabled.distinct (mapM_ok.mp moved_ok))

theorem tabled_of_extract {part : Graph} (extracted : graph.extract filter = .ok part) : part.Tabled := by
  obtain ⟨moved, _, checked⟩ := bind_ok.mp extracted
  exact (withEdges_ok checked).2

/-! ### Building -/

/-- Edges have their kinds from groups that have been added between their ends. -/
def Uses (used : List (Kind × ℕ × ℕ)) (edges : List Edge) : Prop :=
  ∀ edge ∈ edges, ∀ kind, edge.has kind = true → (kind, edge.source, edge.target) ∈ used

theorem uses_addKind (uses : Uses used edges) (kind : Kind) (group : RelationGroup) :
    Uses ((kind, group.ends) :: used) (addKind kind group edges) := by
  refine forall_mem_addKind (fun edge edge_mem other has_other => mem_cons_of_mem _ (uses edge edge_mem other has_other)) ?_
  intro edge edge_source edge_target _ origin other has_other
  obtain ⟨source_eq, target_eq, _⟩ := edge.withKind_withTagged_eq kind group.tagged
  rw [source_eq, target_eq, edge_source, edge_target]
  rw [has_withTagged, has_withKind] at has_other
  rcases has_other with had | rfl
  · rcases origin with edge_mem | rfl
    · exact mem_cons_of_mem _ (edge_source ▸ edge_target ▸ uses edge edge_mem other had)
    · simp [has, ofRelation] at had
  · exact mem_cons_self

section

variable (graph : Graph) (kind : Kind)

@[simp] theorem routine_groupOf (relation : Relation) :
    Routine (graph.groupOf kind relation) := by
  simp only [groupOf, faultsIn_bind_iff, Relation.routine_validate, true_and]
  intro _ _
  split <;> simp [Relation.untag, Conjunct.untag, Conjunct.untaggedPositions, Tuple.columns, Polyhedron.relayout,
    Fault.Routine]

end

theorem nodup_of_groupRelations {relations : List Relation}
    (done : graph.groupRelations kind relations = .ok groups) : (groups.map RelationGroup.ends).Nodup := by
  obtain ⟨found, rfl, _⟩ := groupRelations_ok done
  exact List.foldlRecOn (motive := fun collected : List RelationGroup => (collected.map RelationGroup.ends).Nodup) found _
    nodup_nil fun _ nodup _ _ => RelationGroup.nodup_ends_insert nodup

theorem meets_addGroup (uses : Uses used graph.edges) (unused : (kind, group.ends) ∉ used) (tabled : graph.Tabled) :
    Meets Fault.Routine (addGroup kind graph group) fun next =>
      next.Tabled ∧ Uses ((kind, group.ends) :: used) next.edges := by
  constructor
  · simp only [addGroup, faultsIn_bind_iff, Relation.routine_dropEmpty, true_and, faultsIn_ite_iff, faultsIn_pure,
      implies_true]
    -- The table leads nowhere under the key of the group, for no edge between its ends has the kind yet.
    refine fun relation _ _ => routine_enterEdge fun edge other edge_at led => absurd ?_ unused
    obtain ⟨found, found_at, _, ends_eq⟩ := stands_addKind.mpr (Or.inr ⟨rfl, rfl⟩)
    obtain rfl := Option.mem_unique edge_at found_at
    obtain ⟨before, before_at, has_kind, before_ends⟩ := (tabled _ _).mp led
    have is_used := uses before (mem_of_getElem? before_at) kind has_kind
    rwa [before_ends.trans ends_eq] at is_used
  · intro next added
    refine ⟨tabled_of_addGroup tabled added, ?_⟩
    obtain ⟨relation, _, ⟨_, rfl⟩ | ⟨_, entered⟩⟩ := addGroup_ok added
    · exact fun edge edge_mem other has_other => mem_cons_of_mem _ (uses edge edge_mem other has_other)
    · obtain ⟨_, _, rfl, _⟩ := enterEdge_ok entered
      exact uses_addKind uses kind _

theorem meets_addGroups (nodup : (groups.map RelationGroup.ends).Nodup) (uses : Uses used graph.edges)
    (unused : ∀ entry ∈ used, entry.1 ≠ kind ∨ entry.2 ∉ groups.map RelationGroup.ends) (tabled : graph.Tabled) :
    Meets Fault.Routine (groups.foldlM (addGroup kind) graph) fun next =>
      next.Tabled ∧ ∃ later, Uses later next.edges ∧ ∀ entry ∈ later, entry ∈ used ∨ entry.1 = kind := by
  induction groups generalizing graph used with
  | nil => exact meets_pure ⟨tabled, used, uses, fun _ => Or.inl⟩
  | cons group later ih =>
    obtain ⟨group_apart, later_nodup⟩ := nodup_cons.mp nodup
    have group_unused : (kind, group.ends) ∉ used := fun is_used =>
      (unused _ is_used).elim (fun differs => differs rfl) fun differs => differs mem_cons_self
    rw [foldlM_cons]
    refine (meets_addGroup uses group_unused tabled).bind fun after _ ⟨after_tabled, after_uses⟩ => ?_
    refine (ih later_nodup after_uses ?_ after_tabled).imp fun next ⟨next_tabled, longer, next_uses, origins⟩ => ?_
    · refine forall_mem_cons.mpr ⟨Or.inr group_apart, fun entry entry_mem => ?_⟩
      exact (unused entry entry_mem).imp_right fun differs in_later => differs (mem_cons_of_mem _ in_later)
    · refine ⟨next_tabled, longer, next_uses, fun entry entry_mem => ?_⟩
      rcases origins entry entry_mem with in_used | of_kind
      · rcases mem_cons.mp in_used with rfl | in_used
        · exact Or.inr rfl
        · exact Or.inl in_used
      · exact Or.inr of_kind

theorem meets_addAll (nodup : (relations.map Prod.fst).Nodup) (uses : Uses used graph.edges)
    (unused : ∀ entry ∈ used, entry.1 ∉ relations.map Prod.fst) (tabled : graph.Tabled) :
    Meets Fault.Routine (relations.foldlM addRelations graph) Tabled := by
  induction relations generalizing graph used with
  | nil => exact meets_pure tabled
  | cons entry later ih =>
    obtain ⟨fresh_kind, later_nodup⟩ := nodup_cons.mp nodup
    rw [foldlM_cons, addRelations, bind_assoc]
    have grouping : Routine (graph.groupRelations entry.1 entry.2) := by simp [groupRelations]
    refine grouping.bind fun groups grouped => ?_
    have entry_unused : ∀ other ∈ used, other.1 ≠ entry.1 ∨ other.2 ∉ groups.map RelationGroup.ends :=
      fun other other_mem => Or.inl fun same => unused other other_mem (same ▸ mem_cons_self)
    refine (meets_addGroups (nodup_of_groupRelations grouped) uses entry_unused tabled).bind ?_
    rintro next _ ⟨next_tabled, longer, next_uses, origins⟩
    refine ih later_nodup next_uses (fun other other_mem => ?_) next_tabled
    rcases origins other other_mem with in_used | of_kind
    · exact fun in_later => unused other in_used (mem_cons_of_mem _ in_later)
    · exact of_kind ▸ fresh_kind

section

variable (params : List String) (domains : List Domain)

/-- Relations given once per kind make a graph with at most one edge per kind between two nodes. -/
theorem routine_build (nodup : (relations.map Prod.fst).Nodup) :
    Routine (build params domains relations) := by
  refine faultsIn_bind_iff.mpr ⟨by simp [ofDomains, Node.ofSpace], fun start started => ?_⟩
  obtain ⟨no_edges, tabled⟩ := edges_of_ofDomains started
  have nothing_used : Uses [] start.edges := fun edge edge_mem => absurd (no_edges ▸ edge_mem) not_mem_nil
  exact (meets_addAll nodup nothing_used (fun _ entry_mem => absurd entry_mem not_mem_nil) tabled).faults

end

end Graph

end AffineSchedule
