import AffineSchedule.SchedulingProblem
import AffineSchedule.Proofs.Alignment
import AffineSchedule.Proofs.Construction.Contracts
import AffineSchedule.Proofs.Dependence.Tagged
import AffineSchedule.Proofs.Schedule.Times

namespace AffineSchedule

open Checked AffineSchedule.Graph List Domain

variable {problem : SchedulingProblem} {domain : Domain} {name : String} {a : Instance} {params : List String}
  {finished : Construction} {graph : Graph} {domains : List Domain}

/-! ### Domains -/

namespace Domain

section

variable (domains : List Domain)

theorem find?_insert (domain : Domain) (name : String) :
    find? (insert domains domain) name = (find? domains name).or (find? [domain] name) := by
  unfold insert
  split
  case isTrue present =>
    by_cases same_name : domain.space.name = name
    · rw [same_name] at present
      rw [Option.or_of_isSome present]
    · simp [find?, same_name]
  case isFalse => rw [find?, find?_append]; rfl

theorem find?_foldl_insert (collected : List Domain) (name : String) :
    find? (domains.foldl insert collected) name = (find? collected name).or (find? domains name) := by
  induction domains generalizing collected with
  | nil => simp [find?]
  | cons domain later ih =>
    have first_or : (find? [domain] name).or (find? later name) = find? (domain :: later) name :=
      find?_append.symm
    rw [foldl_cons, ih, find?_insert, Option.or_assoc, first_or]

end

/-- What holds of all domains holds of the collected ones. -/
theorem forall_mem_collect {property : Domain → Prop} (all : ∀ domain ∈ domains, property domain) :
    ∀ domain ∈ collect domains, property domain := by
  have kept : ∀ collected, (∀ domain ∈ collected, property domain) →
      ∀ domain ∈ domains.foldl insert collected, property domain := by
    induction domains with
    | nil => exact fun collected => id
    | cons first later ih =>
      obtain ⟨first_holds, later_hold⟩ := forall_mem_cons.mp all
      intro collected collected_hold
      refine ih later_hold _ ?_
      unfold insert
      split
      case isTrue => exact collected_hold
      case isFalse =>
        exact forall_mem_append.mpr ⟨collected_hold, forall_mem_singleton.mpr first_holds⟩
  exact kept [] (fun domain domain_mem => absurd domain_mem not_mem_nil)

/-- Every statement has one of the collected domains. -/
theorem nodup_collect (domains : List Domain) : ((collect domains).map (·.space.name)).Nodup := by
  refine List.foldlRecOn (motive := fun collected : List Domain => (collected.map (·.space.name)).Nodup) domains
    insert (b := []) nodup_nil fun collected nodup domain _ => ?_
  unfold insert
  split
  case isTrue => exact nodup
  case isFalse absent =>
    rw [map_append, nodup_append_comm, map_singleton, singleton_append, nodup_cons]
    refine ⟨fun name_mem => absent ?_, nodup⟩
    obtain ⟨other, other_mem, name_eq⟩ := mem_map.mp name_mem
    exact find?_isSome.mpr ⟨other, other_mem, decide_eq_true name_eq⟩

theorem find?_of_forall₂ {aligned : List Domain}
    (each : Forall₂ (fun domain result => alignParams domain params = .ok result) domains aligned)
    (found : find? domains name = some domain) :
    ∃ result, find? aligned name = some result ∧ result.space = domain.space.withParams params := by
  have spaces := each.imp fun _ _ made => (alignParams_ok made).1
  rw [find?, find?_eq_bind_findIdx?_getElem?, Option.bind_eq_some_iff] at found
  obtain ⟨index, index_found, domain_at⟩ := found
  obtain ⟨result, result_at, space_eq⟩ := spaces.getElem?_right domain_at
  refine ⟨result, ?_, space_eq⟩
  rw [find?, find?_eq_bind_findIdx?_getElem?, ← spaces.findIdx?_eq fun before after same => ?_, index_found]
  · exact result_at
  · rw [same, Space.withParams]

end Domain

/-! ### The budget of a graph without rows -/

namespace Graph

/-- The largest number of dimensions of a statement. -/
def deepest (graph : Graph) : ℕ := graph.nodes.foldl (fun most node => max most node.space.dim) 0

theorem budget_of_ofDomains (done : ofDomains params domains = .ok graph) :
    graph.Budget graph.nodes.length graph.deepest graph.nodes.length := by
  simp only [ofDomains, bind_ok, pure_ok] at done
  obtain ⟨_, _, nodes, _, rfl⟩ := done
  refine ⟨le_rfl, ?_, fun node node_mem => ?_⟩
  · simp
  · exact (le_foldl_max (fun node : Node => node.space.dim) node_mem).trans (Nat.le_add_right _ _)

end Graph

namespace SchedulingProblem

/-- The statement has a domain. -/
def Declares (problem : SchedulingProblem) (name : String) : Prop := ∃ domain ∈ problem.domain, domain.space.name = name

/-- The statement has a domain, and the point as many coordinates as the domain has dimensions. -/
def HasInstance (problem : SchedulingProblem) (a : Instance) : Prop :=
  ∃ domain, Domain.find? problem.domain a.statement = some domain ∧ a.point.length = domain.space.dim

theorem Declares.find? (declared : problem.Declares name) :
    ∃ domain, Domain.find? problem.domain name = some domain := by
  obtain ⟨domain, domain_mem, name_eq⟩ := declared
  exact Option.isSome_iff_exists.mp (find?_isSome.mpr ⟨domain, domain_mem, decide_eq_true name_eq⟩)

theorem HasInstance.declares (has_instance : problem.HasInstance a) : problem.Declares a.statement := by
  obtain ⟨domain, found, _⟩ := has_instance
  have named_so : decide (domain.space.name = a.statement) = true :=
    find?_some (p := fun domain : Domain => decide (domain.space.name = a.statement)) found
  exact ⟨domain, mem_of_find?_eq_some found, of_decide_eq_true named_so⟩

/-! ### One parameter list -/

/-- The aligned problem has the statements and the relations of the problem, over one parameter list. -/
structure Aligns (aligned problem : SchedulingProblem) : Prop where
  domain_params : ∀ domain ∈ aligned.domain, domain.space.params = aligned.params.length
  domain_names : (aligned.domain.map (·.space.name)).Nodup
  relation_params : ∀ kind, ∀ relation ∈ aligned.ofKind kind, relation.params = aligned.params
  find? : ∀ name domain, Domain.find? problem.domain name = some domain → ∃ result,
    Domain.find? aligned.domain name = some result ∧ result.space = domain.space.withParams aligned.params
  relations : ∀ kind, ∀ relation ∈ problem.ofKind kind, ∃ result ∈ aligned.ofKind kind,
    relation.alignParams aligned.params = .ok result
  origins : ∀ kind, ∀ result ∈ aligned.ofKind kind, ∃ relation ∈ problem.ofKind kind,
    relation.alignParams aligned.params = .ok result

theorem aligns_of_align {aligned : SchedulingProblem} (done : problem.align = .ok aligned) :
    Aligns aligned problem := by
  simp only [align, bind_ok, pure_ok, mapM_ok] at done
  obtain ⟨params, _, domains, domains_ok, validity, validity_ok, coincidence, coincidence_ok, proximity, proximity_ok,
    condition, condition_ok, conditional, conditional_ok, aligned_eq⟩ := done
  have params_eq : aligned.params = params := congrArg (·.params) aligned_eq.symm
  have domain_eq : aligned.domain = Domain.collect domains := congrArg (·.domain) aligned_eq.symm
  rw [← params_eq] at domains_ok validity_ok coincidence_ok proximity_ok condition_ok conditional_ok
  have each : ∀ kind, Forall₂ (fun (relation result : Relation) =>
      relation.alignParams aligned.params = .ok result) (problem.ofKind kind) (aligned.ofKind kind) := by
    intro kind
    have of_kind : aligned.ofKind kind = _ := congrArg (·.ofKind kind) aligned_eq.symm
    rw [of_kind]
    cases kind with
    | validity => exact validity_ok
    | coincidence => exact coincidence_ok
    | condition => exact condition_ok
    | conditionalValidity => exact conditional_ok
    | proximity => exact proximity_ok
  refine ⟨?_, domain_eq ▸ nodup_collect domains, ?_, ?_, ?_, ?_⟩
  · rw [domain_eq]
    refine forall_mem_collect fun domain domain_mem => ?_
    obtain ⟨before, _, aligned_ok⟩ := domains_ok.exists_left domain_mem
    rw [(alignParams_ok aligned_ok).1]
    rfl
  · intro kind relation relation_mem
    obtain ⟨before, _, aligned_ok⟩ := (each kind).exists_left relation_mem
    exact (Relation.relates_alignParams_iff aligned_ok).2.2.1
  · intro name domain found
    obtain ⟨result, result_found, space_eq⟩ := find?_of_forall₂ domains_ok found
    rw [domain_eq, collect, find?_foldl_insert]
    exact ⟨result, result_found, space_eq⟩
  · intro kind relation relation_mem
    exact (each kind).exists_right relation_mem
  · intro kind result result_mem
    exact (each kind).exists_left result_mem

/-- The relations of every kind are over the common parameter list. -/
theorem Aligns.entry_params {aligned : SchedulingProblem} (aligns : Aligns aligned problem) :
    ∀ entry ∈ aligned.relations, ∀ relation ∈ entry.2, relation.params.length = aligned.params.length := by
  intro entry entry_mem relation relation_mem
  obtain ⟨kind, _, rfl⟩ := mem_map.mp entry_mem
  rw [aligns.relation_params kind relation relation_mem]

/-! ### Solved problems -/

/-- A schedule comes from a finished graph that has grown from the graph of the problem. -/
structure Solved (problem : SchedulingProblem) (schedule : Schedule) (start final : Graph) : Prop where
  params : schedule.params = start.params
  rows : schedule.totalRows = final.counters.totalRows
  start_rows : start.counters.totalRows = 0
  names : (start.nodes.map (·.name)).Nodup
  grows : Graph.Grows start.Links start final
  laid_out : ∀ node ∈ final.nodes, node.LaidOut start.params.length
  spans : ∀ node ∈ final.nodes, node.Spans
  statements : Forall₂ (fun (node : Node) (statement : StatementSchedule) => statement.Shows node)
    final.nodes schedule.statements
  nodes : ∀ name domain, Domain.find? problem.domain name = some domain → ∃ (i : ℕ) (node : Node),
    start.findNode? name = some i ∧ start.nodes[i]? = some node ∧ node.space.dim = domain.space.dim
  links : ∀ kind, ∀ relation ∈ problem.ofKind kind, relation.NamesOnce → ∀ i j,
    start.findNode? relation.source.name = some i → start.findNode? relation.target.name = some j →
    ∀ (values : String → ℤ) (x y : ℕ → ℤ), relation.Relates (named relation.params values) x y →
    start.Links kind i j (named schedule.params values) x y

/-- The node of a statement is found where its domain is. -/
theorem exists_findNode? (spaces_eq : graph.nodes.map (·.space) = domains.map (·.space)) (names : (graph.nodes.map (·.name)).Nodup)
    (found : Domain.find? domains name = some domain) : ∃ (i : ℕ) (node : Node),
      graph.findNode? name = some i ∧ graph.nodes[i]? = some node ∧ node.space = domain.space := by
  obtain ⟨i, domain_at⟩ := getElem?_of_mem (mem_of_find?_eq_some found)
  obtain ⟨node, node_at, space_eq⟩ := (forall₂_of_map_eq spaces_eq).getElem?_left domain_at
  have named_so := find?_some (p := fun domain : Domain => decide (domain.space.name = name)) found
  obtain rfl : node.name = name := (congrArg Space.name space_eq).trans (of_decide_eq_true named_so)
  exact ⟨i, node, findNode?_of_nodup names node_at, node_at, space_eq⟩

theorem nodup_relations (problem : SchedulingProblem) : (problem.relations.map Prod.fst).Nodup := by
  have kinds_eq : problem.relations.map Prod.fst = Kind.all := by
    simp [relations, Function.comp_def]
  rw [kinds_eq]
  decide

theorem kept_unplaced_iff {edge : Edge} : edge.unplaced.Kept ↔ edge.Kept := by
  have taggedOf_eq : ∀ kind, edge.unplaced.taggedOf kind = edge.taggedOf kind := fun kind => by cases kind <;> rfl
  constructor
  · exact fun kept => ⟨kept.inhabited, kept.holding, fun kind => taggedOf_eq kind ▸ kept.tagged kind⟩
  · exact fun kept => ⟨kept.inhabited, kept.holding, fun kind => taggedOf_eq kind ▸ kept.tagged kind⟩

/-- Faults that do not blame the construction or its solver, for any dependences with the parts that narrowing relies on. -/
def blameless (options : Options) : Regime options where
  allowed fault := (∀ contract, fault ≠ .internal contract) ∧ fault ≠ .solver .unbounded
  suits _ _ edge := edge.Kept
  routine fault is_routine := by
    constructor
    · rintro contract rfl
      exact is_routine
    · rintro rfl
      exact is_routine
  unfinished loop := ⟨fun _ => Fault.noConfusion, Fault.noConfusion⟩
  narrows kept narrow_ok inhabited := kept_unplaced_iff.mpr (kept_of_narrowEdge (kept_unplaced_iff.mp kept) narrow_ok inhabited)
  carried _ _ cause := ⟨fun _ => Fault.noConfusion, Fault.noConfusion⟩
  stuck _ _ cause := ⟨fun _ => Fault.noConfusion, Fault.noConfusion⟩

section Graph

variable {aligned : SchedulingProblem} {options : Options} (align_ok : problem.align = .ok aligned)
  {start : Graph} (start_ok : aligned.graph = .ok start)
include align_ok start_ok

/-- The graph of a problem with a statement is ready. -/
theorem ready_of_graph {regime : Regime options} (nonempty : aligned.domain ≠ []) (suited : start.Suited regime.suits) :
    Ready regime start.nodes.length start.deepest start := by
  have aligns := aligns_of_align align_ok
  obtain ⟨_, at_start, _, spaces_eq, _⟩ := carries_of_build aligns.domain_params aligns.entry_params start_ok
  refine ⟨at_start, ?_, tabled_of_build start_ok, suited, ?_, ?_⟩
  · rintro no_nodes
    rw [no_nodes, map_nil, eq_comm, map_eq_nil_iff] at spaces_eq
    exact nonempty spaces_eq
  · intro edge edge_mem is_local
    rw [(drawn_of_build start_ok edge edge_mem).nothing_local] at is_local
    cases is_local
  · obtain ⟨first, first_ok, ⟨_, _, rfl⟩, _⟩ := build_ok start_ok
    have budget := budget_of_ofDomains first_ok
    exact ⟨budget.max_rows, budget.total, budget.rank⟩

theorem suited_blameless (options : Options) : start.Suited (blameless options).suits := by
  have aligns := aligns_of_align align_ok
  have built : Built aligned.params aligned.domain aligned.relations start := ⟨aligns.domain_params, aligns.entry_params, start_ok⟩
  exact fun edge edge_mem _ _ _ _ => kept_unplaced_iff.mpr (built.kept edge edge_mem)

theorem ready_blameless (options : Options) (nonempty : aligned.domain ≠ []) :
    Ready (blameless options) start.nodes.length start.deepest start :=
  ready_of_graph align_ok start_ok nonempty (suited_blameless align_ok start_ok options)

/-- The schedule of a finished graph solves the problem of the graph. -/
theorem solved_of_graph {schedule : Schedule} (course : Course options start finished.graph)
    (done : Schedule.ofGraph finished.graph = .ok schedule) : Solved problem schedule start finished.graph := by
  have aligns := aligns_of_align align_ok
  simp only [Schedule.ofGraph, bind_ok, pure_ok, mapM_ok] at done
  obtain ⟨statements, each, rfl⟩ := done
  obtain ⟨params_eq, at_start, start_rows, spaces_eq, linked⟩ :=
    Graph.carries_of_build aligns.domain_params aligns.entry_params start_ok
  have grows := course.grows at_start
  have schedule_params : finished.graph.params = start.params := grows.params
  have names : (start.nodes.map (·.name)).Nodup := by
    have names_eq : start.nodes.map (·.name) = aligned.domain.map (·.space.name) :=
      (forall₂_of_map_eq spaces_eq).map_eq fun _ _ space_eq => congrArg Space.name space_eq
    exact names_eq ▸ aligns.domain_names
  refine ⟨schedule_params, rfl, start_rows, names, grows, ?_, course.spans,
    each.imp fun _ _ made => StatementSchedule.shows_of_ofNode made, ?_, ?_⟩
  · exact grows.nodes.forall_mem (fun _ _ _ prolonged laid_out => prolonged.laidOut laid_out)
      at_start.well_formed.nodes
  · intro name domain found
    obtain ⟨result, result_found, result_space⟩ := aligns.find? name domain found
    obtain ⟨i, node, node_found, node_at, node_space⟩ := exists_findNode? spaces_eq names result_found
    refine ⟨i, node, node_found, node_at, ?_⟩
    rw [node_space, result_space]
    rfl
  · intro kind relation relation_mem once i j i_found j_found values x y related
    obtain ⟨result, result_mem, result_ok⟩ := aligns.relations kind relation relation_mem
    obtain ⟨source_eq, target_eq, _, relates⟩ := Relation.relates_alignParams_iff result_ok
    have entry_mem : (kind, aligned.ofKind kind) ∈ aligned.relations :=
      mem_map.mpr ⟨kind, kind.mem_all, rfl⟩
    have schedule_names : (Schedule.ofStatements finished.graph.params finished.graph.counters.totalRows statements).params
        = aligned.params := schedule_params.trans params_eq
    rw [schedule_names]
    exact (linked (kind, aligned.ofKind kind) entry_mem result result_mem i j (source_eq ▸ i_found)
      (target_eq ▸ j_found)).links ((relates once values x y).mpr related)

end Graph

section Schedule

variable {options : Options} {schedule : Schedule} (done : problem.schedule options = .ok schedule)
include done

/-- A computed schedule is that of a finished graph, unless the problem has no statement. -/
theorem graph_of_schedule : ∃ aligned, problem.align = .ok aligned ∧ (aligned.domain = [] ∧ schedule.statements = []
    ∨ aligned.domain ≠ [] ∧ ∃ start finished, aligned.graph = .ok start ∧ start.schedule options = .ok finished
      ∧ Schedule.ofGraph finished.graph = .ok schedule ∧ Course options start finished.graph
      ∧ Solved problem schedule start finished.graph) := by
  obtain ⟨aligned, align_ok, done⟩ := bind_ok.mp done
  refine ⟨aligned, align_ok, ?_⟩
  split at done
  case isTrue is_empty =>
    obtain rfl := pure_ok.mp done
    exact Or.inl ⟨List.isEmpty_iff.mp is_empty, rfl⟩
  case isFalse has_domain =>
    have nonempty : aligned.domain ≠ [] := by simpa using has_domain
    obtain ⟨start, start_ok, done⟩ := bind_ok.mp done
    obtain ⟨finished, finished_ok, done⟩ := bind_ok.mp done
    have contained := contained_of_schedule (ready_blameless align_ok start_ok options nonempty)
    have course := (contained.result finished finished_ok).course
    exact Or.inr ⟨nonempty, start, finished, start_ok, finished_ok, done, course, solved_of_graph align_ok start_ok course done⟩

/-- A computed schedule solves its problem, unless the problem has no statement. -/
theorem solved_of_schedule :
    (schedule.statements = [] ∧ ∀ name, Domain.find? problem.domain name = none)
      ∨ ∃ start final, Solved problem schedule start final := by
  obtain ⟨aligned, align_ok, ⟨no_domain, no_statement⟩ | ⟨_, start, finished, _, _, _, _, solved⟩⟩ := graph_of_schedule done
  · refine Or.inl ⟨no_statement, fun name => Option.eq_none_iff_forall_not_mem.mpr fun domain found => ?_⟩
    obtain ⟨result, result_found, _⟩ := (aligns_of_align align_ok).find? name domain found
    rw [no_domain] at result_found
    cases result_found
  · exact Or.inr ⟨start, finished.graph, solved⟩

end Schedule

section Solved

variable {schedule : Schedule} {start final : Graph} (solved : Solved problem schedule start final)
include solved

/-- The schedule of a statement shows the node that stands for it. -/
theorem Solved.statement? (found : Domain.find? problem.domain name = some domain) :
    ∃ (i : ℕ) (node : Node) (statement : StatementSchedule), start.findNode? name = some i
      ∧ final.nodes[i]? = some node ∧ schedule.statement? name = some statement ∧ statement.Shows node
      ∧ statement.space.dim = domain.space.dim := by
  obtain ⟨i, before, before_found, before_at, dim_eq⟩ := solved.nodes name domain found
  obtain ⟨node, node_at, prolonged⟩ := solved.grows.nodes.getElem?_right before_at
  obtain ⟨statement, statement_at, shows⟩ := solved.statements.getElem?_right node_at
  refine ⟨i, node, statement, before_found, node_at, ?_, shows, (shows.space.trans prolonged.space) ▸ dim_eq⟩
  have names_eq : start.nodes.map (·.name) = schedule.statements.map (·.name) := (forall₂_trans (fun _ _ _ prolonged shows => shows.space.trans prolonged.space) solved.grows.nodes solved.statements).map_eq
    fun before statement space_eq => congrArg Space.name space_eq.symm
  obtain ⟨twin, twin_at, name_eq⟩ := findNode?_eq_some before_found
  obtain rfl := Option.mem_unique before_at twin_at
  obtain rfl : statement.name = name := (congrArg Space.name (shows.space.trans prolonged.space)).trans name_eq
  have statement_mem := mem_of_getElem? statement_at
  obtain ⟨other, other_found⟩ : ∃ other, schedule.statement? statement.name = some other :=
    Option.isSome_iff_exists.mp (find?_isSome.mpr ⟨statement, statement_mem, decide_eq_true rfl⟩)
  have named_so := find?_some (p := fun other : StatementSchedule => decide (other.name = statement.name)) other_found
  rw [other_found, inj_on_of_nodup_map (names_eq ▸ solved.names) (mem_of_find?_eq_some other_found) statement_mem
    (of_decide_eq_true named_so)]

/-- The rows of two statements respect the pairs of a relation between them. -/
theorem Solved.respects {kind : Kind} {relation : Relation} (relation_mem : relation ∈ problem.ofKind kind)
    (once : relation.NamesOnce) {values : String → ℤ} {b : Instance} (contains : relation.Contains values a b)
    (a_declared : problem.Declares a.statement) (b_declared : problem.Declares b.statement) :
    ∃ (S T : StatementSchedule) (p q : Node), schedule.statement? a.statement = some S
      ∧ schedule.statement? b.statement = some T ∧ S.Shows p ∧ T.Shows q ∧ p.HasRows schedule.totalRows
      ∧ q.HasRows schedule.totalRows
      ∧ ∀ row, p.AgreeBefore q row (named schedule.params values) (coordinates a.point) (coordinates b.point) →
          Node.Respects kind p q row (named schedule.params values) (coordinates a.point) (coordinates b.point) := by
  obtain ⟨a_name, _, b_name, _, related⟩ := contains
  obtain ⟨a_domain, a_found⟩ := a_declared.find?
  obtain ⟨b_domain, b_found⟩ := b_declared.find?
  obtain ⟨i, p, S, i_found, p_at, S_found, p_shown, _⟩ := solved.statement? a_found
  obtain ⟨j, q, T, j_found, q_at, T_found, q_shown, _⟩ := solved.statement? b_found
  have link := solved.links kind relation relation_mem once i j (a_name ▸ i_found) (b_name ▸ j_found) values _ _ related
  have has_rows := solved.rows ▸ solved.grows.has_rows
  refine ⟨S, T, p, q, S_found, T_found, p_shown, q_shown, has_rows p (mem_of_getElem? p_at), has_rows q (mem_of_getElem? q_at),
    fun row agree => ?_⟩
  exact solved.grows.respects kind i j _ _ _ link p q p_at q_at row (solved.start_rows ▸ Nat.zero_le row) agree

end Solved

end SchedulingProblem

end AffineSchedule
