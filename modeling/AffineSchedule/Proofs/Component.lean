import AffineSchedule.Component
import Mathlib.Data.List.Nodup
import Mathlib.Data.List.Range
import Mathlib.Data.Finset.Card
import Mathlib.Data.Finset.Range
import Mathlib.Logic.Relation
import Mathlib.Tactic

namespace AffineSchedule

open List

variable {node i j size : ℕ} {entry : ℕ × ℕ} {members : List ℕ} {closed earlier : List (List ℕ)}

namespace Search

variable {successors : ℕ → List ℕ} {path : List ℕ} {before search : Search} {low : ℕ}

/-- A node is reached from another along successors. -/
def Reaches (successors : ℕ → List ℕ) : ℕ → ℕ → Prop :=
  Relation.ReflTransGen fun node next => next ∈ successors node

/-- Components, the latest first: the nodes of each reach each other, and their successors are in it or in the
    components before it. -/
def Settled (successors : ℕ → List ℕ) : List (List ℕ) → Prop
  | [] => True
  | members :: earlier => members ≠ [] ∧ (∀ a ∈ members, ∀ b ∈ members, Reaches successors a b)
      ∧ (∀ a ∈ members, ∀ next ∈ successors a, next ∈ members ∨ next ∈ earlier.flatten) ∧ Settled successors earlier

/-- A search with the nodes on the current path still open. What has been entered is on the stack or in a closed
    component, and its successors have been entered unless it is on the path. On the stack, the nodes on the path reach
    what stands above them, and every node leads down to one on the path. -/
structure Explored (successors : ℕ → List ℕ) (size : ℕ) (path : List ℕ) (search : Search) : Prop where
  bounded : ∀ node ∈ search.entered, node < size
  nodup : search.entered.Nodup
  parts : search.entered.Perm (search.stack.map (·.1) ++ search.closed.flatten)
  numbered : search.stack.Pairwise fun upper lower => lower.2 < upper.2
  numbered_lt : ∀ entry ∈ search.stack, entry.2 < search.entered.length
  on_stack : ∀ node ∈ path, node ∈ search.stack.map (·.1)
  left : ∀ node ∈ search.entered, node ∉ path → ∀ next ∈ successors node, next ∈ search.entered
  up : ∀ upper ∈ search.stack, ∀ lower ∈ search.stack, lower.1 ∈ path → lower.2 ≤ upper.2 →
    Reaches successors lower.1 upper.1
  down : ∀ upper ∈ search.stack, ∃ lower ∈ search.stack, lower.1 ∈ path ∧ lower.2 ≤ upper.2
    ∧ Reaches successors upper.1 lower.1
  settled : Settled successors search.closed

namespace Explored

variable (explored : Explored successors size path search)
include explored

theorem nodup_parts : (search.stack.map (·.1) ++ search.closed.flatten).Nodup := explored.parts.nodup_iff.mp explored.nodup

theorem mem_entered : node ∈ search.entered ↔ node ∈ search.stack.map (·.1) ∨ node ∈ search.closed.flatten :=
  explored.parts.mem_iff.trans mem_append

theorem entry_entered (entry_mem : entry ∈ search.stack) : entry.1 ∈ search.entered :=
  explored.mem_entered.mpr (Or.inl (mem_map_of_mem entry_mem))

/-- A node has one entry on the stack. -/
theorem entry_unique {a b : ℕ × ℕ} (a_mem : a ∈ search.stack) (b_mem : b ∈ search.stack) (same : a.1 = b.1) : a = b :=
  inj_on_of_nodup_map explored.nodup_parts.of_append_left a_mem b_mem same

theorem closed_of_reaches (node_closed : node ∈ search.closed.flatten) (reached : Reaches successors node j) :
    j ∈ search.closed.flatten := by
  have step : ∀ {closed : List (List ℕ)}, Settled successors closed → ∀ a ∈ closed.flatten, ∀ next ∈ successors a,
      next ∈ closed.flatten := by
    intro closed
    induction closed with
    | nil => simp
    | cons members earlier ih =>
      rintro ⟨_, _, leads, settled⟩ a a_mem next next_mem
      rw [flatten_cons, mem_append] at a_mem ⊢
      rcases a_mem with inside | before
      · exact leads a inside next next_mem
      · exact Or.inr (ih settled a before next next_mem)
  induction reached with
  | refl => exact node_closed
  | tail _ edge ih => exact step explored.settled _ ih _ edge

theorem mem_of_full (full : size ≤ search.entered.length) (node_lt : node < size) : node ∈ search.entered := by
  have subset : search.entered.toFinset ⊆ Finset.range size := by
    intro other other_mem
    exact Finset.mem_range.mpr (explored.bounded other (mem_toFinset.mp other_mem))
  have same : search.entered.toFinset = Finset.range size := by
    apply Finset.eq_of_subset_of_card_le subset
    rw [Finset.card_range, toFinset_card_of_nodup explored.nodup]
    exact full
  rw [← mem_toFinset, same]
  exact Finset.mem_range.mpr node_lt

/-- A new node that is reached from the path may be entered. -/
theorem enter (fresh : node ∉ search.entered) (node_lt : node < size)
    (path_reaches : ∀ open_node ∈ path, Reaches successors open_node node) :
    Explored successors size (node :: path) (search.enter node) := by
  have other_entry : ∀ entry ∈ search.stack, entry.1 ≠ node := by
    rintro entry entry_mem rfl
    exact fresh (explored.entry_entered entry_mem)
  refine ⟨forall_mem_cons.mpr ⟨node_lt, explored.bounded⟩, nodup_cons.mpr ⟨fresh, explored.nodup⟩,
    explored.parts.cons node, pairwise_cons.mpr ⟨explored.numbered_lt, explored.numbered⟩, ?_, ?_, ?_, ?_, ?_, explored.settled⟩
  · refine forall_mem_cons.mpr ⟨Nat.lt_succ_self _, fun entry entry_mem => ?_⟩
    exact (explored.numbered_lt entry entry_mem).trans (Nat.lt_succ_self _)
  · exact forall_mem_cons.mpr ⟨mem_cons_self, fun other other_mem =>
      mem_cons_of_mem node (explored.on_stack other other_mem)⟩
  · intro other other_mem off_path next next_mem
    rw [mem_cons, not_or] at off_path
    exact mem_cons_of_mem node (explored.left other ((mem_cons.mp other_mem).resolve_left off_path.1) off_path.2 next next_mem)
  · intro upper upper_mem lower lower_mem on_path order
    rcases mem_cons.mp upper_mem with rfl | upper_mem <;> rcases mem_cons.mp lower_mem with rfl | lower_mem
    · exact Relation.ReflTransGen.refl
    · exact path_reaches lower.1 ((mem_cons.mp on_path).resolve_left (other_entry lower lower_mem))
    · exact absurd (explored.numbered_lt upper upper_mem) (Nat.not_lt.mpr order)
    · exact explored.up upper upper_mem lower lower_mem ((mem_cons.mp on_path).resolve_left (other_entry lower lower_mem)) order
  · refine forall_mem_cons.mpr ⟨⟨_, mem_cons_self, mem_cons_self, le_rfl, Relation.ReflTransGen.refl⟩, ?_⟩
    intro upper upper_mem
    obtain ⟨lower, lower_mem, on_path, order, reached⟩ := explored.down upper upper_mem
    exact ⟨lower, mem_cons_of_mem _ lower_mem, mem_cons_of_mem _ on_path, order, reached⟩

end Explored

/-! ### Visits -/

/-- No successor of a node has an entry on the stack that is lower than told. -/
def LeadsNoLower (successors : ℕ → List ℕ) (stack : List (ℕ × ℕ)) (low node : ℕ) : Prop :=
  ∀ next ∈ successors node, ∀ older ∈ stack, older.1 = next → low ≤ older.2

/-- What the visit of a node leaves behind: a stack that has grown, by nodes that lead no lower than told. If the node
    leads below its own number, it reaches the entry in question. -/
structure Visits (successors : ℕ → List ℕ) (size : ℕ) (path : List ℕ) (before : Search) (node : ℕ) (after : Search)
    (low : ℕ) : Prop where
  explored : Explored successors size path after
  entered : before.entered <:+ after.entered
  node_entered : node ∈ after.entered
  stack : ∃ fresh, after.stack = fresh ++ before.stack ∧ ∀ entry ∈ fresh, LeadsNoLower successors before.stack low entry.1
  found : before.entered.length ≤ low ∨ ∃ older ∈ before.stack, older.2 = low ∧ Reaches successors node older.1

/-- The successors of a node that has been entered, up to some point. -/
structure Follows (successors : ℕ → List ℕ) (size : ℕ) (path : List ℕ) (before : Search) (node : ℕ) (followed : List ℕ)
    (after : Search) (low : ℕ) : Prop where
  explored : Explored successors size (node :: path) after
  entered : (before.enter node).entered <:+ after.entered
  stack : ∃ fresh, after.stack = fresh ++ (node, before.entered.length) :: before.stack
    ∧ ∀ entry ∈ fresh, LeadsNoLower successors before.stack low entry.1
  low_le : low ≤ before.entered.length
  found : low = before.entered.length ∨ ∃ older ∈ before.stack, older.2 = low ∧ Reaches successors node older.1
  followed : ∀ next ∈ followed, next ∈ after.entered ∧ ∀ older ∈ before.stack, older.1 = next → low ≤ older.2

namespace Follows

variable {after below : Search} {followed : List ℕ} {next belowLow : ℕ}
  (follows : Follows successors size path before node followed after low)
include follows

theorem mem_of_old (old : entry ∈ before.stack) : entry ∈ after.stack := by
  obtain ⟨fresh, stack_eq, _⟩ := follows.stack
  simp [stack_eq, old]

theorem old_of_lt (entry_mem : entry ∈ after.stack) (lower : entry.2 < before.entered.length) : entry ∈ before.stack := by
  obtain ⟨fresh, stack_eq, _⟩ := follows.stack
  have numbered := follows.explored.numbered
  rw [stack_eq, pairwise_append] at numbered
  rw [stack_eq, mem_append, mem_cons] at entry_mem
  rcases entry_mem with above | rfl | old
  · have order := numbered.2.2 entry above _ mem_cons_self
    omega
  · omega
  · exact old

section

variable (edge : next ∈ successors node)
include edge

/-- A successor that leads to an entry of the stack. -/
theorem found_min
    (leads : before.entered.length < belowLow ∨ ∃ entry ∈ after.stack, entry.2 = belowLow ∧ Reaches successors next entry.1) :
    min low belowLow = before.entered.length
      ∨ ∃ older ∈ before.stack, older.2 = min low belowLow ∧ Reaches successors node older.1 := by
  have low_le := follows.low_le
  rcases le_or_gt low belowLow with kept | lowered
  · rw [min_eq_left kept]
    exact follows.found
  · rw [min_eq_right lowered.le]
    rcases leads with high | ⟨entry, entry_mem, number_eq, reached⟩
    · omega
    · have old := follows.old_of_lt entry_mem (by omega)
      exact Or.inr ⟨entry, old, number_eq, Relation.ReflTransGen.head edge reached⟩

/-- A successor that has been entered before counts if it is on the stack. -/
theorem seen (known : next ∈ after.entered) :
    Follows successors size path before node (followed ++ [next]) after (after.lower low next) := by
  obtain ⟨fresh, stack_eq, leads⟩ := follows.stack
  have lower_le : after.lower low next ≤ low := by
    unfold lower
    split
    · exact min_le_left _ _
    · exact le_rfl
  have lower_spec : ∀ older ∈ after.stack, older.1 = next → after.lower low next ≤ older.2 := by
    intro older older_mem same
    unfold lower
    split
    next number found =>
      obtain ⟨_, _, entries_eq, _⟩ := lookup_eq_some_iff.mp found
      have entry_mem : (next, number) ∈ after.stack := by simp [entries_eq]
      rw [follows.explored.entry_unique older_mem entry_mem same]
      exact min_le_right _ _
    next missing => exact absurd same.symm (by simpa using lookup_eq_none_iff.mp missing older older_mem)
  refine ⟨follows.explored, follows.entered, ⟨fresh, stack_eq, fun entry entry_mem other edge older old same =>
    lower_le.trans (leads entry entry_mem other edge older old same)⟩, lower_le.trans follows.low_le, ?_, ?_⟩
  · unfold lower
    split
    next number found =>
      obtain ⟨_, _, entries_eq, _⟩ := lookup_eq_some_iff.mp found
      exact follows.found_min edge (Or.inr ⟨(next, number), by simp [entries_eq], rfl, Relation.ReflTransGen.refl⟩)
    next => exact follows.found
  · intro other other_mem
    rcases mem_append.mp other_mem with earlier | last
    · obtain ⟨entered, above⟩ := follows.followed other earlier
      exact ⟨entered, fun older old same => lower_le.trans (above older old same)⟩
    · obtain rfl := mem_singleton.mp last
      exact ⟨known, fun older old same => lower_spec older (follows.mem_of_old old) same⟩

/-- A new successor is visited, and the node leads as low as the successor does. -/
theorem visited (fresh_next : next ∉ after.entered) (visits : Visits successors size (node :: path) after next below belowLow) :
    Follows successors size path before node (followed ++ [next]) below (min low belowLow) := by
  obtain ⟨fresh, stack_eq, leads⟩ := follows.stack
  obtain ⟨above, below_eq, above_leads⟩ := visits.stack
  refine ⟨visits.explored, follows.entered.trans visits.entered, ⟨above ++ fresh, ?_, ?_⟩,
    (min_le_left _ _).trans follows.low_le, follows.found_min edge ?_, ?_⟩
  · rw [below_eq, stack_eq, append_assoc]
  · intro entry entry_mem other other_edge older old same
    rcases mem_append.mp entry_mem with in_above | in_fresh
    · exact (min_le_right _ _).trans (above_leads entry in_above other other_edge older (follows.mem_of_old old) same)
    · exact (min_le_left _ _).trans (leads entry in_fresh other other_edge older old same)
  · refine visits.found.imp_left fun high => ?_
    have grown := follows.entered.length_le
    simp only [Search.enter, length_cons] at grown
    omega
  · intro other other_mem
    rcases mem_append.mp other_mem with earlier | last
    · obtain ⟨entered, above_low⟩ := follows.followed other earlier
      exact ⟨visits.entered.subset entered, fun older old same => (min_le_left _ _).trans (above_low older old same)⟩
    · obtain rfl := mem_singleton.mp last
      refine ⟨visits.node_entered, fun older old same => ?_⟩
      exact absurd (same ▸ follows.explored.entry_entered (follows.mem_of_old old)) fresh_next

end

/-- A node all of whose successors have been followed is off the path. -/
theorem left (all_followed : ∀ next ∈ successors node, next ∈ followed) :
    ∀ other ∈ after.entered, other ∉ path → ∀ next ∈ successors other, next ∈ after.entered := by
  intro other other_mem off_path next next_mem
  rcases eq_or_ne other node with rfl | different
  · exact (follows.followed next (all_followed next next_mem)).1
  · refine follows.explored.left other other_mem ?_ next next_mem
    rw [mem_cons, not_or]
    exact ⟨different, off_path⟩

section

variable (explored : Explored successors size path before) (all_followed : ∀ next ∈ successors node, next ∈ followed)
include explored all_followed

/-- A node that leads below its number stays on the stack, and leads to the path through the entry it reaches. -/
theorem keep (leads_lower : low ≠ before.entered.length) : Visits successors size path before node after low := by
  obtain ⟨fresh, stack_eq, leads⟩ := follows.stack
  obtain ⟨bottom, bottom_mem, number_eq, bottom_reached⟩ := follows.found.resolve_left leads_lower
  obtain ⟨landing, landing_mem, landing_open, landing_le, landing_reached⟩ := explored.down bottom bottom_mem
  have node_entered : node ∈ after.entered := follows.entered.subset mem_cons_self
  refine ⟨{ follows.explored with
      on_stack := fun other other_mem => follows.explored.on_stack other (mem_cons_of_mem node other_mem)
      left := follows.left all_followed
      up := fun upper upper_mem lower lower_mem on_path order =>
        follows.explored.up upper upper_mem lower lower_mem (mem_cons_of_mem node on_path) order
      down := fun upper upper_mem => ?_ }, (suffix_cons _ _).trans follows.entered, node_entered,
    ⟨fresh ++ [(node, before.entered.length)], by simp [stack_eq], ?_⟩, Or.inr ⟨bottom, bottom_mem, number_eq, bottom_reached⟩⟩
  · obtain ⟨lower, lower_mem, on_path, order, reached⟩ := follows.explored.down upper upper_mem
    rcases mem_cons.mp on_path with is_node | on_path
    · -- the way down ends at the node itself and goes on from there
      have lower_eq : lower = (node, before.entered.length) :=
        follows.explored.entry_unique lower_mem (by simp [stack_eq]) is_node
      have low_le := follows.low_le
      rw [lower_eq] at order reached
      exact ⟨landing, follows.mem_of_old landing_mem, landing_open, by omega, (reached.trans bottom_reached).trans landing_reached⟩
    · exact ⟨lower, lower_mem, on_path, order, reached⟩
  · simp only [forall_mem_append, forall_mem_singleton]
    exact ⟨leads, fun next edge older old same => (follows.followed next (all_followed next edge)).2 older old same⟩

theorem members_lead (low_eq : low = before.entered.length)
    {fresh : List (ℕ × ℕ)} (stack_eq : after.stack = fresh ++ (node, before.entered.length) :: before.stack)
    (leads : ∀ entry ∈ fresh, LeadsNoLower successors before.stack low entry.1) :
    ∀ a ∈ node :: fresh.map (·.1), ∀ next ∈ successors a, next ∈ node :: fresh.map (·.1) ∨ next ∈ after.closed.flatten := by
  have distinct := follows.explored.nodup_parts.of_append_left
  rw [stack_eq, map_append, map_cons] at distinct
  have inside : ∀ next ∈ after.entered, (∀ older ∈ before.stack, older.1 = next → low ≤ older.2) →
      next ∈ node :: fresh.map (·.1) ∨ next ∈ after.closed.flatten := by
    intro next next_mem above
    refine (follows.explored.mem_entered.mp next_mem).imp_left fun on_stack => ?_
    rw [stack_eq, map_append, map_cons, mem_append, mem_cons] at on_stack
    rcases on_stack with in_fresh | rfl | old
    · exact mem_cons_of_mem node in_fresh
    · exact mem_cons_self
    · obtain ⟨older, older_mem, same⟩ := mem_map.mp old
      have number_lt := explored.numbered_lt older older_mem
      have number_le := above older older_mem same
      omega
  refine forall_mem_cons.mpr ⟨fun next edge => ?_, fun a a_mem next edge => ?_⟩
  · obtain ⟨entered, above⟩ := follows.followed next (all_followed next edge)
    exact inside next entered above
  · obtain ⟨entry, entry_mem, rfl⟩ := mem_map.mp a_mem
    -- a node above is not open, as the open ones are the node and some that were on the stack before
    have off_path : entry.1 ∉ node :: path := by
      intro on_path
      refine disjoint_of_nodup_append distinct a_mem ?_
      rcases mem_cons.mp on_path with same | on_path
      · exact same ▸ mem_cons_self
      · exact mem_cons_of_mem node (explored.on_stack _ on_path)
    have entered := follows.explored.entry_entered (show entry ∈ after.stack by simp [stack_eq, entry_mem])
    exact inside next (follows.explored.left entry.1 entered off_path next edge) (leads entry entry_mem next edge)

/-- A node that leads no lower than to itself closes its component. -/
theorem close (low_eq : low = before.entered.length) : Visits successors size path before node (after.close node) low := by
  obtain ⟨fresh, stack_eq, leads⟩ := follows.stack
  have distinct := follows.explored.nodup_parts
  have leave := follows.members_lead explored all_followed low_eq stack_eq leads
  have above_eq : after.stack.takeWhile (·.1 ≠ node) = fresh := by
    have others : ∀ entry ∈ fresh, decide (entry.1 ≠ node) = true := by
      intro entry entry_mem
      rw [decide_eq_true_eq]
      rintro rfl
      have apart := distinct.of_append_left
      rw [stack_eq, map_append] at apart
      exact disjoint_of_nodup_append apart (mem_map_of_mem entry_mem) mem_cons_self
    rw [stack_eq, takeWhile_append_of_pos others, takeWhile_cons_of_neg (by simp), append_nil]
  have closed_eq : after.close node
      = { after with stack := before.stack, closed := (node :: fresh.map (·.1)) :: after.closed } := by
    rw [Search.close, above_eq, stack_eq]
    simp
  -- a way from above the node down to an open one would leave what the component leads to
  have back : ∀ a ∈ node :: fresh.map (·.1), Reaches successors a node := by
    intro a a_mem
    have stays : ∀ b, Reaches successors a b → b ∈ node :: fresh.map (·.1) ∨ b ∈ after.closed.flatten := by
      intro b reached
      induction reached with
      | refl => exact Or.inl a_mem
      | tail _ edge ih =>
        rcases ih with inside | closed
        · exact leave _ inside _ edge
        · exact Or.inr (follows.explored.closed_of_reaches closed (Relation.ReflTransGen.single edge))
    obtain ⟨entry, entry_mem, rfl⟩ : ∃ entry ∈ after.stack, entry.1 = a := by
      rcases mem_cons.mp a_mem with rfl | in_fresh
      · exact ⟨(a, before.entered.length), by simp [stack_eq], rfl⟩
      · obtain ⟨entry, entry_mem, rfl⟩ := mem_map.mp in_fresh
        exact ⟨entry, by simp [stack_eq, entry_mem], rfl⟩
    obtain ⟨lower, lower_mem, on_path, _, reached⟩ := follows.explored.down entry entry_mem
    rcases mem_cons.mp on_path with is_node | on_path
    · exact is_node ▸ reached
    · have old := explored.on_stack _ on_path
      rw [stack_eq] at distinct
      simp only [map_append, map_cons, nodup_append, nodup_cons, mem_append, mem_cons] at distinct
      rcases stays lower.1 reached with inside | closed
      · rcases mem_cons.mp inside with same | in_fresh
        · exact absurd (same ▸ old) distinct.1.2.1.1
        · exact absurd rfl (distinct.1.2.2 _ in_fresh _ (Or.inr old))
      · exact absurd rfl (distinct.2.2 _ (Or.inr (Or.inr old)) _ closed)
  have forth : ∀ a ∈ node :: fresh.map (·.1), Reaches successors node a := by
    refine forall_mem_cons.mpr ⟨Relation.ReflTransGen.refl, fun a a_mem => ?_⟩
    obtain ⟨entry, entry_mem, rfl⟩ := mem_map.mp a_mem
    have numbered := follows.explored.numbered
    rw [stack_eq, pairwise_append] at numbered
    exact follows.explored.up entry (by simp [stack_eq, entry_mem]) (node, before.entered.length) (by simp [stack_eq])
      mem_cons_self (numbered.2.2 entry entry_mem _ mem_cons_self).le
  rw [closed_eq]
  have entered := (suffix_cons _ _).trans follows.entered
  refine ⟨⟨follows.explored.bounded, follows.explored.nodup, ?_, explored.numbered, fun entry entry_mem => ?_,
    explored.on_stack, follows.left all_followed, explored.up, explored.down,
    cons_ne_nil _ _, fun a a_mem b b_mem => (back a a_mem).trans (forth b b_mem), leave, follows.explored.settled⟩,
    entered, follows.entered.subset mem_cons_self, ⟨[], rfl, by simp⟩, Or.inl low_eq.ge⟩
  · refine follows.explored.parts.trans ?_
    refine perm_iff_count.mpr fun a => ?_
    simp only [stack_eq, map_append, map_cons, flatten_cons, count_append, count_cons]
    omega
  · exact (explored.numbered_lt entry entry_mem).trans_le entered.length_le

end

end Follows

theorem visits_visit (successors_lt : ∀ node, ∀ next ∈ successors node, next < size) :
    ∀ (depth : ℕ) {path : List ℕ} {search : Search} {node : ℕ}, Explored successors size path search →
      (∀ open_node ∈ path, Reaches successors open_node node) → size ≤ search.entered.length + depth → node < size →
      node ∉ search.entered →
      Visits successors size path search node (visit successors depth search node).1 (visit successors depth search node).2 := by
  intro depth
  induction depth with
  | zero =>
    intro path search node explored _ enough node_lt new
    exact absurd (explored.mem_of_full enough node_lt) new
  | succ depth ih =>
    intro path search node explored path_reaches enough node_lt new
    let follow (state : Search × ℕ) (next : ℕ) : Search × ℕ :=
      if next ∈ state.1.entered then (state.1, state.1.lower state.2 next)
      else ((visit successors depth state.1 next).1, min state.2 (visit successors depth state.1 next).2)
    -- the successors in turn, each of them reached from every open node
    have follow_all : ∀ (later followed : List ℕ) (state : Search × ℕ), (∀ next ∈ later, next ∈ successors node) →
        Follows successors size path search node followed state.1 state.2 →
        Follows successors size path search node (followed ++ later) (later.foldl follow state).1
          (later.foldl follow state).2 := by
      intro later
      induction later with
      | nil =>
        intro followed state _ follows
        rwa [append_nil]
      | cons next rest rest_ih =>
        intro followed state edges follows
        obtain ⟨edge, rest_edges⟩ := forall_mem_cons.mp edges
        rw [foldl_cons, append_cons]
        refine rest_ih (followed ++ [next]) _ rest_edges ?_
        simp only [follow]
        split_ifs with known
        · exact follows.seen edge known
        · refine follows.visited edge known (ih follows.explored ?_ ?_ (successors_lt node next edge) known)
          · have step : Reaches successors node next := Relation.ReflTransGen.single edge
            exact forall_mem_cons.mpr ⟨step, fun open_node open_mem => (path_reaches open_node open_mem).trans step⟩
          · have grown := follows.entered.length_le
            simp only [Search.enter, length_cons] at grown
            omega
    have entered : Follows successors size path search node [] (search.enter node) search.entered.length :=
      ⟨explored.enter new node_lt path_reaches, suffix_refl _, ⟨[], rfl, by simp⟩, le_rfl, Or.inl rfl, by simp⟩
    have follows := follow_all (successors node) [] (search.enter node, search.entered.length) (fun _ edge => edge) entered
    rw [nil_append] at follows
    unfold visit
    dsimp only
    split_ifs with leads_itself
    · exact follows.close explored (fun _ edge => edge) leads_itself
    · exact follows.keep explored (fun _ edge => edge) leads_itself

theorem explored_foldl (successors_lt : ∀ node, ∀ next ∈ successors node, next < size) :
    ∀ (nodes : List ℕ) {search : Search}, (∀ node ∈ nodes, node < size) → Explored successors size [] search →
      Explored successors size [] (nodes.foldl (explore successors size) search)
        ∧ search.entered ⊆ (nodes.foldl (explore successors size) search).entered
        ∧ nodes ⊆ (nodes.foldl (explore successors size) search).entered := by
  intro nodes
  induction nodes with
  | nil =>
    intro search _ explored
    exact ⟨explored, fun _ entered => entered, by simp⟩
  | cons node later ih =>
    intro search nodes_lt explored
    obtain ⟨node_lt, later_lt⟩ := forall_mem_cons.mp nodes_lt
    obtain ⟨next_explored, next_entered, node_entered⟩ : Explored successors size [] (explore successors size search node)
        ∧ search.entered ⊆ (explore successors size search node).entered
        ∧ node ∈ (explore successors size search node).entered := by
      unfold explore
      split_ifs with known
      · exact ⟨explored, fun _ entered => entered, known⟩
      · have visits := visits_visit successors_lt size explored (by simp) (Nat.le_add_left _ _) node_lt known
        exact ⟨visits.explored, visits.entered.subset, visits.node_entered⟩
    obtain ⟨final_explored, still_entered, later_entered⟩ := ih later_lt next_explored
    exact ⟨final_explored, fun _ entered => still_entered (next_entered entered),
      cons_subset.mpr ⟨still_entered node_entered, later_entered⟩⟩

theorem Explored.closed_of_entered (explored : Explored successors size [] search) (node_entered : node ∈ search.entered) :
    node ∈ search.closed.flatten := by
  rcases explored.mem_entered.mp node_entered with on_stack | closed
  · obtain ⟨entry, entry_mem, _⟩ := mem_map.mp on_stack
    obtain ⟨_, _, on_path, _⟩ := explored.down entry entry_mem
    cases on_path
  · exact closed

/-! ### Numbering -/

/-- The place of the component of a node, counted from the component closed first. -/
def place (closed : List (List ℕ)) (node : ℕ) : ℕ := closed.reverse.findIdx (·.contains node)

theorem place_lt (node_mem : node ∈ closed.flatten) : place closed node < closed.length := by
  obtain ⟨members, members_mem, inside⟩ := mem_flatten.mp node_mem
  rw [← length_reverse]
  exact findIdx_lt_length_of_exists ⟨members, mem_reverse.mpr members_mem, contains_iff_mem.mpr inside⟩

theorem place_of_earlier (node_mem : node ∈ earlier.flatten) : place (members :: earlier) node = place earlier node := by
  have inside := place_lt node_mem
  rw [place, ← length_reverse] at inside
  rw [place, reverse_cons, findIdx_append, if_pos inside, place]

theorem place_of_member (not_earlier : node ∉ earlier.flatten) (node_mem : node ∈ members) :
    place (members :: earlier) node = earlier.length := by
  have outside : earlier.reverse.findIdx (·.contains node) = earlier.reverse.length := by
    rw [findIdx_eq_length]
    intro group group_mem
    rw [contains_eq_mem, decide_eq_false_iff_not]
    exact fun inside => not_earlier (mem_flatten_of_mem (mem_reverse.mp group_mem) inside)
  rw [place, reverse_cons, findIdx_append, outside, if_neg (lt_irrefl _), length_reverse]
  simp [findIdx_cons, node_mem]

/-- Settled components in their places: every place is taken, a node comes no earlier than its successors, and nodes in
    one place reach each other. -/
theorem Settled.places (settled : Settled successors closed) (distinct : closed.flatten.Nodup) :
    (∀ number < closed.length, ∃ node ∈ closed.flatten, place closed node = number)
      ∧ (∀ a ∈ closed.flatten, ∀ next ∈ successors a, next ∈ closed.flatten ∧ place closed next ≤ place closed a)
      ∧ ∀ a ∈ closed.flatten, ∀ b ∈ closed.flatten, place closed a = place closed b → Reaches successors a b := by
  induction closed with
  | nil => simp
  | cons members earlier ih =>
    obtain ⟨inhabited, mutual_reach, leads, settled⟩ := settled
    rw [flatten_cons] at distinct
    obtain ⟨taken, order, together⟩ := ih settled distinct.of_append_right
    have own : ∀ {node}, node ∈ members → node ∉ earlier.flatten := fun inside =>
      disjoint_of_nodup_append distinct inside
    rw [flatten_cons]
    simp only [forall_mem_append]
    refine ⟨fun number number_lt => ?_, ⟨fun a a_mem next edge => ?_, fun a a_mem next edge => ?_⟩, ⟨?_, ?_⟩⟩
    · rcases Nat.lt_succ_iff_lt_or_eq.mp number_lt with below | rfl
      · obtain ⟨node, node_mem, rfl⟩ := taken number below
        exact ⟨node, mem_append_right _ node_mem, place_of_earlier node_mem⟩
      · obtain ⟨node, node_mem⟩ := exists_mem_of_ne_nil members inhabited
        exact ⟨node, mem_append_left _ node_mem, place_of_member (own node_mem) node_mem⟩
    · rw [place_of_member (own a_mem) a_mem, mem_append]
      rcases leads a a_mem next edge with inside | before
      · exact ⟨Or.inl inside, (place_of_member (own inside) inside).le⟩
      · exact ⟨Or.inr before, (place_of_earlier before).trans_le (place_lt before).le⟩
    · obtain ⟨next_mem, next_le⟩ := order a a_mem next edge
      rw [place_of_earlier a_mem, place_of_earlier next_mem]
      exact ⟨mem_append_right _ next_mem, next_le⟩
    · refine fun a a_mem => ⟨fun b b_mem _ => mutual_reach a a_mem b b_mem, fun b b_mem same => ?_⟩
      rw [place_of_member (own a_mem) a_mem, place_of_earlier b_mem] at same
      exact absurd same.symm (place_lt b_mem).ne
    · refine fun a a_mem => ⟨fun b b_mem same => ?_, fun b b_mem same => ?_⟩
      · rw [place_of_earlier a_mem, place_of_member (own b_mem) b_mem] at same
        exact absurd same (place_lt a_mem).ne
      · rw [place_of_earlier a_mem, place_of_earlier b_mem] at same
        exact together a a_mem b b_mem same

end Search

namespace Components

open Search

variable {follows : ℕ → ℕ → Bool}

theorem mem_successors {next : ℕ} :
    next ∈ successors size follows node ↔ next < size ∧ next ≠ node ∧ follows node next = true := by
  simp [successors]

/-- The components in the order in which they are closed, the latest first. -/
def closedOf (size : ℕ) (follows : ℕ → ℕ → Bool) : List (List ℕ) :=
  ((List.range size).foldl (explore (successors size follows) size) start).closed

theorem labels_compute : (compute size follows).labels = (List.range size).map (place (closedOf size follows)) := rfl

/-- The component of a node. -/
def label (components : Components) (node : ℕ) : ℕ := components.labels.getD node 0

theorem label_compute (node_lt : node < size) : (compute size follows).label node = place (closedOf size follows) node := by
  rw [label, labels_compute, getD_eq_getElem?_getD, getElem?_map, getElem?_range node_lt]
  rfl

theorem count_compute : (compute size follows).count = (closedOf size follows).length := length_reverse

/-- The search ends with settled components of all nodes. -/
theorem closedOf_spec (size : ℕ) (follows : ℕ → ℕ → Bool) : Settled (successors size follows) (closedOf size follows)
    ∧ (closedOf size follows).flatten.Nodup ∧ ∀ node, node ∈ (closedOf size follows).flatten ↔ node < size := by
  have started : Explored (successors size follows) size [] start := by constructor <;> simp [start, Settled]
  obtain ⟨explored, _, all_entered⟩ := explored_foldl (fun _ _ edge => (mem_successors.mp edge).1) (List.range size)
    (by simp) started
  refine ⟨explored.settled, explored.nodup_parts.of_append_right, fun node => ⟨fun closed => ?_, fun node_lt => ?_⟩⟩
  · exact explored.bounded node (explored.mem_entered.mpr (Or.inr closed))
  · exact explored.closed_of_entered (all_entered (mem_range.mpr node_lt))

/-- Components are numbered below their count. -/
theorem label_lt_count (node_lt : node < size) : (compute size follows).label node < (compute size follows).count := by
  rw [label_compute node_lt, count_compute]
  exact place_lt (((closedOf_spec size follows).2.2 node).mpr node_lt)

/-- Every number below the count is the component of a node. -/
theorem exists_label {component : ℕ} (component_lt : component < (compute size follows).count) :
    ∃ node < size, (compute size follows).label node = component := by
  obtain ⟨settled, distinct, closed_iff⟩ := closedOf_spec size follows
  rw [count_compute] at component_lt
  obtain ⟨node, node_mem, place_eq⟩ := (settled.places distinct).1 component component_lt
  have node_lt := (closed_iff node).mp node_mem
  exact ⟨node, node_lt, (label_compute node_lt).trans place_eq⟩

theorem count_le_size : (compute size follows).count ≤ size := by
  have covered : Finset.range (compute size follows).count ⊆ (Finset.range size).image (compute size follows).label := by
    intro component component_mem
    obtain ⟨node, node_lt, label_eq⟩ := exists_label (Finset.mem_range.mp component_mem)
    exact Finset.mem_image.mpr ⟨node, Finset.mem_range.mpr node_lt, label_eq⟩
  simpa using (Finset.card_le_card covered).trans Finset.card_image_le

/-- A component comes after the components it depends on. -/
theorem label_le_of_follows (i_lt : i < size) (j_lt : j < size) (depends : follows i j = true) :
    (compute size follows).label j ≤ (compute size follows).label i := by
  rcases eq_or_ne j i with rfl | different
  · exact le_rfl
  · obtain ⟨settled, distinct, closed_iff⟩ := closedOf_spec size follows
    rw [label_compute i_lt, label_compute j_lt]
    exact ((settled.places distinct).2.1 i ((closed_iff i).mpr i_lt) j (mem_successors.mpr ⟨j_lt, different, depends⟩)).2

/-- Node `i` depends on node `j`, both below the bound. -/
def DependsOn (size : ℕ) (follows : ℕ → ℕ → Bool) (i j : ℕ) : Prop := i < size ∧ j < size ∧ follows i j = true

/-- A way along dependences leads to components that are not later. -/
theorem label_le_of_leads (leads : Relation.ReflTransGen (DependsOn size follows) i j) :
    (compute size follows).label j ≤ (compute size follows).label i := by
  induction leads with
  | refl => exact le_rfl
  | tail _ depends ih => exact (label_le_of_follows depends.1 depends.2.1 depends.2.2).trans ih

/-- Nodes with the same component depend on each other. -/
theorem leads_of_label_eq (i_lt : i < size) (j_lt : j < size)
    (same : (compute size follows).label i = (compute size follows).label j) :
    Relation.ReflTransGen (DependsOn size follows) i j := by
  obtain ⟨settled, distinct, closed_iff⟩ := closedOf_spec size follows
  rw [label_compute i_lt, label_compute j_lt] at same
  have reached := (settled.places distinct).2.2 i ((closed_iff i).mpr i_lt) j ((closed_iff j).mpr j_lt) same
  clear same j_lt
  induction reached with
  | refl => exact Relation.ReflTransGen.refl
  | @tail middle last walked edge ih =>
    obtain ⟨last_lt, _, depends⟩ := mem_successors.mp edge
    have middle_lt : middle < size := by
      rcases Relation.ReflTransGen.cases_tail walked with rfl | ⟨_, _, into⟩
      · exact i_lt
      · exact (mem_successors.mp into).1
    exact ih.tail ⟨middle_lt, last_lt, depends⟩

/-- The components are the classes of nodes that lead to each other, numbered without gaps and so that a node that
    depends on another component has the larger number. If dependences go both ways, they are the connected components. -/
theorem compute_exact (size : ℕ) (follows : ℕ → ℕ → Bool) : (compute size follows).labels.length = size
      ∧ (∀ i < size, ∀ j < size, (compute size follows).label i = (compute size follows).label j ↔
          Relation.ReflTransGen (DependsOn size follows) i j ∧ Relation.ReflTransGen (DependsOn size follows) j i)
      ∧ (∀ component, component < (compute size follows).count ↔ ∃ node < size, (compute size follows).label node = component)
      ∧ (∀ i < size, ∀ j < size, follows i j = true → (compute size follows).label i ≠ (compute size follows).label j →
          (compute size follows).label j < (compute size follows).label i)
      ∧ ((∀ i < size, ∀ j < size, follows i j = follows j i) → ∀ i < size, ∀ j < size,
          ((compute size follows).label i = (compute size follows).label j ↔ Relation.EqvGen (DependsOn size follows) i j)) := by
  have same_iff : ∀ i < size, ∀ j < size, (compute size follows).label i = (compute size follows).label j ↔
      Relation.ReflTransGen (DependsOn size follows) i j ∧ Relation.ReflTransGen (DependsOn size follows) j i := by
    intro i i_lt j j_lt
    refine ⟨fun same => ⟨leads_of_label_eq i_lt j_lt same, leads_of_label_eq j_lt i_lt same.symm⟩, fun ⟨forth, back⟩ => ?_⟩
    exact le_antisymm (label_le_of_leads back) (label_le_of_leads forth)
  refine ⟨by rw [labels_compute, List.length_map, List.length_range], same_iff, fun component => ⟨exists_label, ?_⟩, ?_, ?_⟩
  · rintro ⟨node, node_lt, rfl⟩
    exact label_lt_count node_lt
  · intro i i_lt j j_lt depends different
    exact lt_of_le_of_ne (label_le_of_follows i_lt j_lt depends) different.symm
  · intro symmetric i i_lt j j_lt
    have both_ways : Std.Symm (DependsOn size follows) :=
      ⟨fun a b depends => ⟨depends.2.1, depends.1, symmetric a depends.1 b depends.2.1 ▸ depends.2.2⟩⟩
    rw [same_iff i i_lt j j_lt, Relation.EqvGen.eqvGen_eq_reflTransGen]
    exact ⟨And.left, fun leads => ⟨leads, symm leads⟩⟩

/-- Two nodes that depend on each other behind a third. -/
theorem compute_exact_pairBehind : (compute 3 fun i j => (i, j) ∈ [(0, 2), (2, 0), (2, 1)]).labels = [1, 0, 1]
    ∧ (compute 3 fun i j => (i, j) ∈ [(0, 2), (2, 0), (2, 1)]).label 1
      < (compute 3 fun i j => (i, j) ∈ [(0, 2), (2, 0), (2, 1)]).label 2 :=
  ⟨by decide, (compute_exact 3 fun i j => (i, j) ∈ [(0, 2), (2, 0), (2, 1)]).2.2.2.1 2 (by decide) 1 (by decide) (by decide)
    (by decide)⟩

end Components

end AffineSchedule
