import AffineSchedule.Dependence.Graph
import AffineSchedule.Proofs.Checked

namespace AffineSchedule

open Checked List

variable {graph next : Graph} {edge first second : Edge} {edges : List Edge}
  {kind : Kind} {key : Kind × ℕ × ℕ} {position : ℕ}

/-! ### One edge per kind -/

namespace Edge

/-- Two edges do not share a kind, unless they have different ends. -/
def Apart (first second : Edge) : Prop :=
  first.source = second.source → first.target = second.target →
    ∀ kind, first.has kind = true → second.has kind = false

/-- No two edges between the same nodes share a kind. -/
def Distinct (edges : List Edge) : Prop := edges.Pairwise Apart

/-- The second edge has the ends and the kinds of the first. -/
structure Alike (before after : Edge) : Prop where
  source : after.source = before.source
  target : after.target = before.target
  kinds : after.kinds = before.kinds

theorem Apart.of_alike {first_after second_after : Edge} (apart : first.Apart second)
    (first_alike : first.Alike first_after) (second_alike : second.Alike second_after) :
    first_after.Apart second_after := by
  intro source_eq target_eq kind has_kind
  rw [first_alike.source, second_alike.source] at source_eq
  rw [first_alike.target, second_alike.target] at target_eq
  rw [has, first_alike.kinds] at has_kind
  rw [has, second_alike.kinds]
  exact apart source_eq target_eq kind has_kind

theorem Distinct.of_alike {results : List Edge} (distinct : Distinct edges)
    (each : Forall₂ Alike edges results) : Distinct results := by
  induction each with
  | nil => exact List.Pairwise.nil
  | @cons edge result later rest head_alike tail_alike ih =>
    obtain ⟨apart, later_distinct⟩ := pairwise_cons.mp distinct
    refine pairwise_cons.mpr ⟨fun other other_mem => ?_, ih later_distinct⟩
    obtain ⟨before, before_mem, alike⟩ := tail_alike.exists_left other_mem
    exact (apart before before_mem).of_alike head_alike alike

/-- The edge at a position has the kind and the ends of a key. -/
def Stands (edges : List Edge) (key : Kind × ℕ × ℕ) (position : ℕ) : Prop :=
  ∃ edge, edges[position]? = some edge ∧ edge.has key.1 = true ∧ (edge.source, edge.target) = key.2

theorem stands_nil : ¬ Stands [] key position := by
  simp [Stands]

theorem stands_cons_zero : Stands (edge :: edges) key 0 ↔
    edge.has key.1 = true ∧ (edge.source, edge.target) = key.2 := by
  simp [Stands]

theorem stands_cons_succ : Stands (edge :: edges) key (position + 1) ↔ Stands edges key position := by
  simp [Stands]

/-- A key stands at one position only if the edges are distinct, and only then. -/
theorem distinct_iff : Distinct edges ↔
    ∀ key first second, Stands edges key first → Stands edges key second → first = second := by
  rw [Distinct, pairwise_iff_getElem]
  constructor
  · have apart_of_lt : (∀ i j (i_lt : i < edges.length) (j_lt : j < edges.length), i < j → edges[i].Apart edges[j]) →
        ∀ key first second, Stands edges key first → Stands edges key second → ¬ first < second := by
      rintro apart key i j ⟨edge, edge_at, has_kind, ends_eq⟩ ⟨other, other_at, other_has, other_ends⟩ before
      obtain ⟨i_lt, rfl⟩ := List.getElem?_eq_some_iff.mp edge_at
      obtain ⟨j_lt, rfl⟩ := List.getElem?_eq_some_iff.mp other_at
      obtain ⟨source_eq, target_eq⟩ := Prod.mk.inj (ends_eq.trans other_ends.symm)
      rw [apart i j i_lt j_lt before source_eq target_eq _ has_kind] at other_has
      cases other_has
    intro apart key i j i_stands j_stands
    have not_before := apart_of_lt apart key i j i_stands j_stands
    have not_behind := apart_of_lt apart key j i j_stands i_stands
    omega
  · intro unique i j i_lt j_lt before source_eq target_eq kind has_kind
    rw [Bool.eq_false_iff]
    intro other_has
    exact Nat.ne_of_lt before (unique (kind, edges[i].source, edges[i].target) i j
      ⟨_, getElem?_eq_getElem i_lt, has_kind, rfl⟩
      ⟨_, getElem?_eq_getElem j_lt, other_has, by rw [source_eq, target_eq]⟩)

end Edge

namespace Graph

open Edge

/-! ### Entering edges -/

/-- Entering an edge puts its position under the kind and its ends, where no other was. -/
theorem enterEdge_ok {entry : Kind × ℕ} (done : graph.enterEdge entry = .ok next) :
    ∃ edge table, next = { graph with edgeTable := table } ∧ graph.edges[entry.2]? = some edge
      ∧ ∀ key position, table.lookup key = some position ↔ graph.edgeTable.lookup key = some position
        ∨ key = (entry.1, edge.source, edge.target) ∧ position = entry.2 := by
  simp only [enterEdge, bind_ok, ofOption_ok] at done
  obtain ⟨edge, edge_at, done⟩ := done
  split at done
  · simp only [bind_ok, throw_ok, false_and, exists_false, and_false] at done
  next free =>
    obtain rfl := pure_ok.mp done
    refine ⟨edge, _, rfl, edge_at, fun key position => ?_⟩
    rw [lookup_cons]
    rcases eq_or_ne key (entry.1, edge.source, edge.target) with rfl | differs
    · simp only [Option.any_eq_true, decide_eq_true_eq, not_exists, not_and, not_not] at free
      simp only [beq_self_eq_true, Option.some.injEq, true_and]
      exact ⟨fun same => Or.inr same.symm, fun found => found.elim (fun found => (free position found).symm) Eq.symm⟩
    · simp [beq_eq_false_iff_ne.mpr differs, differs]

/-- A table that is filled with entries leads to these and to what it has led to before. -/
theorem enterEdges_ok {entries : List (Kind × ℕ)} (done : entries.foldlM enterEdge graph = .ok next) :
    ∃ table, next = { graph with edgeTable := table } ∧ ∀ key position, table.lookup key = some position ↔
      graph.edgeTable.lookup key = some position ∨ (key.1, position) ∈ entries
        ∧ ∃ edge, graph.edges[position]? = some edge ∧ (edge.source, edge.target) = key.2 := by
  induction entries generalizing graph with
  | nil =>
    obtain rfl := pure_ok.mp done
    exact ⟨_, rfl, by simp⟩
  | cons entry later ih =>
    rw [foldlM_cons, bind_ok] at done
    obtain ⟨middle, entered, done⟩ := done
    obtain ⟨edge, _, rfl, edge_at, middle_lookup⟩ := enterEdge_ok entered
    obtain ⟨table, rfl, next_lookup⟩ := ih done
    refine ⟨table, rfl, fun key position => ?_⟩
    rw [next_lookup, middle_lookup, mem_cons, or_assoc, or_and_right]
    refine or_congr_right (or_congr_left ⟨?_, ?_⟩)
    · rintro ⟨rfl, rfl⟩
      exact ⟨rfl, edge, edge_at, rfl⟩
    · rintro ⟨rfl, found, found_at, ends_eq⟩
      obtain rfl := Option.mem_unique edge_at found_at
      exact ⟨Prod.ext rfl ends_eq.symm, rfl⟩

theorem mem_tableEntries : (kind, position) ∈ tableEntries edges ↔ ∃ edge, edges[position]? = some edge ∧ edge.has kind = true := by
  simp [tableEntries, mem_zipIdx_iff_getElem?, kind.mem_all]

/-! ### Tables of edges -/

/-- The table of a graph leads under each key to the edges of that kind between these nodes. -/
def Tabled (graph : Graph) : Prop :=
  ∀ key position, graph.edgeTable.lookup key = some position ↔ Stands graph.edges key position

/-- Other edges come with their own table. -/
theorem withEdges_ok (done : graph.withEdges edges = .ok next) :
    (∃ table, next = { graph with edges := edges, edgeTable := table }) ∧ next.Tabled := by
  obtain ⟨table, rfl, lookup_iff⟩ := enterEdges_ok done
  refine ⟨⟨table, rfl⟩, fun key position => ?_⟩
  rw [lookup_iff, mem_tableEntries]
  constructor
  · rintro (found | ⟨⟨edge, edge_at, has_kind⟩, found, found_at, ends_eq⟩)
    · cases found
    · obtain rfl := Option.mem_unique edge_at found_at
      exact ⟨edge, edge_at, has_kind, ends_eq⟩
  · rintro ⟨edge, edge_at, has_kind, ends_eq⟩
    exact Or.inr ⟨⟨edge, edge_at, has_kind⟩, edge, edge_at, ends_eq⟩

section Tabled

variable (tabled : graph.Tabled)
include tabled

theorem Tabled.distinct : Distinct graph.edges := by
  refine distinct_iff.mpr fun key i j i_stands j_stands => ?_
  exact Option.mem_unique ((tabled key i).mpr i_stands) ((tabled key j).mpr j_stands)

/-- The table and the list agree on whether there is an edge. -/
theorem Tabled.hasEdge_iff {source target : ℕ} : graph.hasEdge kind source target = true ↔
    ∃ edge ∈ graph.edges, edge.joins source target = true ∧ edge.has kind = true := by
  simp only [hasEdge, Option.isSome_iff_exists, tabled (kind, source, target), joins, Bool.and_eq_true, decide_eq_true_eq]
  constructor
  · rintro ⟨position, edge, edge_at, has_kind, ends_eq⟩
    exact ⟨edge, mem_of_getElem? edge_at, Prod.mk.inj ends_eq, has_kind⟩
  · rintro ⟨edge, edge_mem, ⟨source_eq, target_eq⟩, has_kind⟩
    obtain ⟨position, edge_at⟩ := getElem?_of_mem edge_mem
    exact ⟨position, edge, edge_at, has_kind, Prod.ext source_eq target_eq⟩

/-- An edge of a kind is found between its ends. -/
theorem Tabled.hasEdge_of_mem (edge_mem : edge ∈ graph.edges) (has_kind : edge.has kind = true) :
    graph.hasEdge kind edge.source edge.target = true :=
  tabled.hasEdge_iff.mpr ⟨edge, edge_mem, by simp [joins], has_kind⟩

/-- An edge of any kind is found between its ends. -/
theorem Tabled.hasAnyEdge_of_mem (edge_mem : edge ∈ graph.edges) (has_kind : edge.has kind = true) :
    graph.hasAnyEdge edge.source edge.target = true := by
  rw [hasAnyEdge, any_eq_true]
  exact ⟨kind, kind.mem_all, tabled.hasEdge_of_mem edge_mem has_kind⟩

end Tabled

end Graph

end AffineSchedule
