import AffineSchedule.Linear.Lattice
import AffineSchedule.Proofs.Linear.IntegerSearch

namespace AffineSchedule

open Checked List Function

variable {point : Point} {problem : Problem} {rows : List Row} {count limit budget : ℕ} {outcome : Feasibility} {size : ℕ}
  {result row : Row} {σ : Assignment}

namespace Linear

/-- The assignment of integers to the columns. -/
def integerAssignment (v : ℕ → ℤ) : Assignment := fun column => v column

namespace Lattice

variable {value : ℚ} {index : ℕ} {pending : List (List Row)}

/-- The columns of the parts of free variables: the negative part of each, then the positive one. -/
def parts (v : Assignment) : Assignment := fun column =>
  if column % 2 = 0 then max (-v (column / 2)) 0 else max (v (column / 2)) 0

section

variable (v : Assignment)

theorem parts_even (k : ℕ) : parts v (2 * k) = max (-v k) 0 := by
  have even : 2 * k % 2 = 0 := by omega
  have half : 2 * k / 2 = k := by omega
  rw [parts, if_pos even, half]

theorem parts_odd (k : ℕ) : parts v (2 * k + 1) = max (v k) 0 := by
  have odd : ¬ (2 * k + 1) % 2 = 0 := by omega
  have half : (2 * k + 1) / 2 = k := by omega
  rw [parts, if_neg odd, half]

theorem parts_nonneg (column : ℕ) : 0 ≤ parts v column := by
  unfold parts
  split_ifs <;> exact le_max_right _ _

/-- The difference of the parts is the variable. -/
theorem parts_sub (k : ℕ) : parts v (2 * k + 1) - parts v (2 * k) = v k := by
  rw [parts_even, parts_odd, max_zero_sub_max_neg_zero_eq_self]

/-- The sum of the parts is the absolute value of the variable. -/
theorem parts_add (k : ℕ) : parts v (2 * k) + parts v (2 * k + 1) = |v k| := by
  rw [parts_even, parts_odd, add_comm, max_zero_add_max_neg_zero_eq_abs_self]

end

/-- The free variables with given parts. -/
def recombined (σ : Assignment) : Assignment := fun index => σ (2 * index + 1) - σ (2 * index)

theorem recombined_parts (v : Assignment) : recombined (parts v) = v := funext (parts_sub v)

theorem termsValue_of_split {terms : List (ℕ × ℤ)} {pieces : List (List (ℕ × ℤ))} (σ : Assignment)
    (split : terms.mapM (fun term => do
      return [(← Size.checked (2 * term.1 + 1), term.2), (2 * term.1, ← Word.neg term.2)]) = .ok pieces) :
    Form.termsValue pieces.flatten σ = Form.termsValue terms (recombined σ) := by
  rw [mapM_ok] at split
  induction split with
  | nil => rfl
  | @cons term piece _ _ piece_ok _ ih =>
    simp only [bind_ok, pure_ok, Word.neg_ok, Size.checked_ok_iff]
      at piece_ok
    obtain ⟨_, ⟨_, rfl⟩, _, ⟨_, rfl⟩, rfl⟩ := piece_ok
    rw [flatten_cons, Form.termsValue_append, ih, Form.termsValue_cons, Form.termsValue_cons,
      Form.termsValue_cons, Form.termsValue_nil, recombined]
    push_cast
    ring

theorem splitRow_holds_iff (σ : Assignment) (split : splitRow row = .ok result) :
    result.Holds σ ↔ row.Holds (recombined σ) := by
  simp only [splitRow, bind_ok] at split
  obtain ⟨pieces, pieces_ok, made⟩ := split
  rw [Row.make_holds_iff made, Row.Holds, Form.value, Form.value, termsValue_of_split σ pieces_ok]

theorem within_splitRow (split : splitRow row = .ok result) (within : row.form.Within count) :
    result.form.Within (2 * count) := by
  simp only [splitRow, bind_ok, mapM_ok] at split
  obtain ⟨pieces, pieces_ok, made⟩ := split
  refine Row.within_make made fun term term_mem => ?_
  obtain ⟨piece, piece_mem, in_piece⟩ := mem_flatten.mp term_mem
  obtain ⟨old, old_mem, piece_ok⟩ := pieces_ok.exists_left piece_mem
  simp only [pure_ok, Size.checked_ok_iff] at piece_ok
  obtain ⟨_, ⟨_, rfl⟩, _, _, rfl⟩ := piece_ok
  have bound := within old old_mem
  rcases mem_pair.mp in_piece with rfl | rfl <;> dsimp only <;> omega

/-- The problem over the parts: two columns for each variable, and rows that hold at the parts where the rows
    hold. -/
theorem splitProblem_spec (split : splitProblem count rows = .ok problem) : problem.columns = 2 * count ∧ problem.Bounded ∧
      ∀ σ, (∀ row ∈ problem.rows, row.Holds σ) ↔ ∀ row ∈ rows, row.Holds (recombined σ) := by
  simp only [splitProblem, bind_ok, Size.checked_ok_iff] at split
  obtain ⟨_, ⟨_, rfl⟩, empty, made, folded⟩ := split
  obtain rfl := Problem.ofColumns_ok made
  obtain ⟨splitRows, splitRows_ok, rfl, within⟩ := Problem.foldlM_addRow_ok folded
  refine ⟨length_replicate, within, fun σ => ?_⟩
  exact (mapM_ok.mp splitRows_ok).forall_mem_iff fun _ _ _ result_ok => splitRow_holds_iff σ result_ok

section

variable (length_eq : point.length = 2 * count)
include length_eq

/-- The variables of a point, one after the other. -/
theorem values_eq :
    values point = (List.range count).map (recombined (Point.assignment point)) := by
  induction count generalizing point with
  | zero =>
    obtain rfl := length_eq_zero_iff.mp length_eq
    rfl
  | succ count ih =>
    obtain _ | ⟨negative, _ | ⟨positive, later⟩⟩ := point
    · simp at length_eq
    · simp at length_eq
      omega
    · have later_length : later.length = 2 * count := by
        simp only [length_cons] at length_eq
        omega
      rw [values, ih later_length, range_succ_eq_map, map_cons, map_map]
      rfl

theorem exists_integer_of_find? (none_found : (values point).zipIdx.find? (fun entry => entry.1.den ≠ 1) = none) :
    ∃ v, recombined (Point.assignment point) = integerAssignment v := by
  refine ⟨fun k => (recombined (Point.assignment point) k).num, funext fun k => ?_⟩
  by_cases inside : k < count
  · have whole := find?_eq_none.mp none_found (recombined (Point.assignment point) k, k)
      (by simp [values_eq length_eq, mk_mem_zipIdx_iff_getElem?, inside])
    exact ((Rat.den_eq_one_iff _).mp (by simpa using whole)).symm
  · have beyond : point.length ≤ 2 * k := by omega
    simp [recombined, Point.assignment, integerAssignment, beyond, beyond.trans (Nat.le_succ _)]

/-- A fractional variable that is found is one of the variables. -/
theorem of_find?_eq_some (found : (values point).zipIdx.find? (fun entry => entry.1.den ≠ 1) = some (value, index)) :
    index < count ∧ value = recombined (Point.assignment point) index ∧ value.den ≠ 1 := by
  have fractional := find?_some found
  have entry_mem := mem_of_find?_eq_some found
  rw [values_eq length_eq, mk_mem_zipIdx_iff_getElem?, getElem?_map, Option.map_eq_some_iff] at entry_mem
  obtain ⟨_, at_index, rfl⟩ := entry_mem
  obtain ⟨inside, same⟩ := List.getElem?_eq_some_iff.mp at_index
  rw [getElem_range] at same
  exact ⟨by simpa using inside, same ▸ rfl, by simpa using fractional⟩

end

/-! ### One node -/

theorem branches_ok {children : List (List Row)}
    (branched : branches rows index value = .ok children) : ∃ down up : Row, children = [rows ++ [down], rows ++ [up]]
      ∧ (∀ columns, 2 * index + 1 < columns → down.form.Within columns ∧ up.form.Within columns)
      ∧ ∀ σ, (down.Holds σ ↔ recombined σ index ≤ ⌊value⌋) ∧ (up.Holds σ ↔ ⌊value⌋ + 1 ≤ recombined σ index) := by
  simp only [branches, branchBound, bind_ok, pure_ok, Word.add_ok_iff, Word.neg_ok] at branched
  obtain ⟨bound, bounded, _, ⟨_, rfl⟩, _, ⟨_, rfl⟩, up, up_made, down, down_made, rfl⟩ := branched
  split_ifs at bounded
  obtain rfl : ⌊value⌋ = bound := Except.ok.inj bounded
  refine ⟨down, up, rfl, fun columns inside => ?_, fun σ => ⟨?_, ?_⟩⟩
  · have even_inside : 2 * index < columns := by omega
    exact ⟨Row.within_make down_made (by simp [Form.Within, inside, even_inside]),
      Row.within_make up_made (by simp [Form.Within, inside, even_inside])⟩
  · rw [Row.make_holds_iff down_made]
    simp only [Sense.Admits, Form.value, Form.termsValue_cons, Form.termsValue_nil, recombined]
    push_cast
    constructor <;> intro <;> linarith
  · rw [Row.make_holds_iff up_made]
    simp only [Sense.Admits, Form.value, Form.termsValue_cons, Form.termsValue_nil, recombined]
    push_cast
    constructor <;> intro <;> linarith

/-- The rows of a node hold together with those of the problem. -/
def Keeps (problem : Problem) (rows : List Row) (σ : Assignment) : Prop := Satisfies σ (problem.rows ++ rows)

theorem keeps_append_iff : Keeps problem (rows ++ [row]) σ ↔ Keeps problem rows σ ∧ row.Holds σ := by
  simp only [Keeps, ← append_assoc]
  exact ⟨fun ⟨nonneg, holds⟩ => ⟨⟨nonneg, (forall_mem_append.mp holds).1⟩, by simpa using (forall_mem_append.mp holds).2⟩,
    fun ⟨⟨nonneg, holds⟩, row_holds⟩ => ⟨nonneg, forall_mem_append.mpr ⟨holds, by simpa using row_holds⟩⟩⟩

/-- The problem is over the parts of `count` variables, and the nodes only name its columns. -/
structure Opens (problem : Problem) (count : ℕ) (nodes : List (List Row)) : Prop where
  columns : problem.columns = 2 * count
  bounded : problem.Bounded
  within : ∀ rows ∈ nodes, ∀ row ∈ rows, row.form.Within problem.columns

namespace Opens

variable (opens : Opens problem count (rows :: pending))
include opens

theorem all_within : ∀ row ∈ problem.rows ++ rows, row.form.Within problem.columns :=
  forall_mem_append.mpr ⟨opens.bounded, opens.within rows mem_cons_self⟩

theorem later : Opens problem count pending :=
  ⟨opens.columns, opens.bounded, fun other other_mem => opens.within other (mem_cons_of_mem _ other_mem)⟩

theorem children {children : List (List Row)} (inside : index < count)
    (branched : branches rows index value = .ok children) : Opens problem count (children ++ pending) := by
  obtain ⟨rows_within, later_within⟩ := forall_mem_cons.mp opens.within
  obtain ⟨down, up, rfl, within, _⟩ := branches_ok branched
  obtain ⟨down_within, up_within⟩ := within problem.columns (by rw [opens.columns]; omega)
  refine ⟨opens.columns, opens.bounded, ?_⟩
  exact forall_mem_cons.mpr ⟨forall_mem_append.mpr ⟨rows_within, by simpa using down_within⟩,
    forall_mem_cons.mpr ⟨forall_mem_append.mpr ⟨rows_within, by simpa using up_within⟩, later_within⟩⟩

end Opens

/-- What a search does at its first node: it drops a node without a point, ends at a node with an integral point, and
    splits a node at a fractional variable of one of its points. -/
inductive Visits (problem : Problem) (count budget : ℕ) (rows : List Row) (pending : List (List Row)) (outcome : Feasibility) :
    Prop
  | dropped (none_kept : ∀ σ, ¬ Keeps problem rows σ) (opens : Opens problem count pending)
      (rest : searchNodes problem budget pending = .ok outcome)
  | found (ended : outcome = .feasible) {σ : Assignment} (kept : Keeps problem rows σ) {v : ℕ → ℤ}
      (integral : recombined σ = integerAssignment v)
  | split {σ : Assignment} (kept : Keeps problem rows σ) {index : ℕ} (inside : index < count)
      (fractional : (recombined σ index).den ≠ 1) {down up : Row}
      (below : ∀ τ, down.Holds τ ↔ recombined τ index ≤ ⌊recombined σ index⌋)
      (above : ∀ τ, up.Holds τ ↔ ⌊recombined σ index⌋ + 1 ≤ recombined τ index)
      (opens : Opens problem count ((rows ++ [down]) :: (rows ++ [up]) :: pending))
      (rest : searchNodes problem budget ((rows ++ [down]) :: (rows ++ [up]) :: pending) = .ok outcome)

theorem visits_of_searchNodes (opens : Opens problem count (rows :: pending))
    (searched : searchNodes problem (budget + 1) (rows :: pending) = .ok outcome) :
    Visits problem count budget rows pending outcome := by
  simp only [searchNodes, bind_ok] at searched
  obtain ⟨answer, relaxed, continued⟩ := searched
  cases answer with
  | none => exact .dropped (not_satisfies_of_lexmin opens.all_within relaxed) opens.later continued
  | some point =>
    obtain ⟨length_eq, kept⟩ := satisfies_of_lexmin opens.all_within relaxed
    rw [opens.columns] at length_eq
    cases fractional : (values point).zipIdx.find? (fun entry => decide (entry.1.den ≠ 1)) with
    | none =>
      simp only [fractional, pure_ok] at continued
      obtain ⟨v, integral⟩ := exists_integer_of_find? length_eq fractional
      exact .found continued.symm kept integral
    | some entry =>
      obtain ⟨value, index⟩ := entry
      obtain ⟨inside, rfl, not_whole⟩ := of_find?_eq_some length_eq fractional
      simp only [fractional, bind_ok] at continued
      obtain ⟨children, branched, continued⟩ := continued
      have children_opens := opens.children inside branched
      obtain ⟨down, up, rfl, _, holds_iff⟩ := branches_ok branched
      exact .split kept inside not_whole (fun τ => (holds_iff τ).1) (fun τ => (holds_iff τ).2) children_opens continued

/-! ### The whole search -/

theorem not_keeps_of_searchNodes (opens : Opens problem count pending)
    (searched : searchNodes problem budget pending = .ok .infeasible) :
    ∀ rows ∈ pending, ∀ σ, Keeps problem rows σ → ∀ v, recombined σ ≠ integerAssignment v := by
  induction budget generalizing pending with
  | zero =>
    cases pending with
    | nil => simp
    | cons => simp [searchNodes] at searched
  | succ budget ih =>
    cases pending with
    | nil => simp
    | cons rows later =>
      rw [forall_mem_cons]
      cases visits_of_searchNodes opens searched with
      | dropped none_kept later_opens rest =>
        exact ⟨fun σ kept => absurd kept (none_kept σ), ih later_opens rest⟩
      | found ended => cases ended
      | @split _ _ index _ _ down up below above children_opens rest =>
        obtain ⟨in_down, others⟩ := forall_mem_cons.mp (ih children_opens rest)
        obtain ⟨in_up, in_later⟩ := forall_mem_cons.mp others
        refine ⟨fun τ kept v integral => ?_, in_later⟩
        have at_index : recombined τ index = v index := congrFun integral index
        -- an integer is at most the whole part of the value or above it
        by_cases low : down.Holds τ
        · exact in_down τ (keeps_append_iff.mpr ⟨kept, low⟩) v integral
        · refine in_up τ (keeps_append_iff.mpr ⟨kept, (above τ).mpr ?_⟩) v integral
          rw [below, at_index, not_le] at low
          rw [at_index]
          exact_mod_cast low

theorem exists_of_searchNodes (opens : Opens problem count pending)
    (searched : searchNodes problem budget pending = .ok .feasible) :
    ∃ σ, Keeps problem [] σ ∧ ∃ v, recombined σ = integerAssignment v := by
  induction budget generalizing pending with
  | zero => cases pending <;> simp [searchNodes] at searched
  | succ budget ih =>
    cases pending with
    | nil => simp [searchNodes] at searched
    | cons rows later =>
      cases visits_of_searchNodes opens searched with
      | dropped _ later_opens rest => exact ih later_opens rest
      | found _ kept integral =>
        exact ⟨_, ⟨kept.nonneg, by simpa using (forall_mem_append.mp kept.holds).1⟩, _, integral⟩
      | split _ _ _ _ _ children_opens rest => exact ih children_opens rest

/-! ### Confined nodes -/

/-- The points of a node have their variables in integer ranges of a given size in all. -/
def Confined (problem : Problem) (count : ℕ) (rows : List Row) (size : ℕ) : Prop :=
  ∃ lower upper : ℕ → ℤ, ∑ k ∈ Finset.range count, (upper k - lower k).toNat = size
    ∧ ∀ σ, Keeps problem rows σ → ∀ k < count, lower k ≤ recombined σ k ∧ recombined σ k ≤ upper k

/-- The nodes that a search below a confined node may need. -/
def allowance : ℕ → ℕ
  | 0 => 1
  | size + 1 => 2 * allowance size + 1

theorem allowance_pos (size : ℕ) : 0 < allowance size := by
  cases size <;> simp [allowance]

theorem allowance_mono {smaller : ℕ} (le : smaller ≤ size) : allowance smaller ≤ allowance size := by
  induction le with
  | refl => exact le_rfl
  | step _ ih =>
    rw [allowance]
    omega

/-- A row that moves a variable into a smaller range leaves ranges of a smaller size. -/
theorem confined_append {lower upper : ℕ → ℤ} {low high : ℤ} (inside : index < count)
    (ranges : ∀ σ, Keeps problem rows σ → ∀ k < count, lower k ≤ recombined σ k ∧ recombined σ k ≤ upper k)
    (moved : ∀ σ, Keeps problem rows σ → row.Holds σ → low ≤ recombined σ index ∧ recombined σ index ≤ high)
    (proper : 0 < upper index - lower index) (smaller : high - low < upper index - lower index) :
    ∃ size < ∑ k ∈ Finset.range count, (upper k - lower k).toNat, Confined problem count (rows ++ [row]) size := by
  refine ⟨_, Finset.sum_lt_sum (fun k _ => ?_) ⟨index, Finset.mem_range.mpr inside, ?_⟩,
    Function.update lower index low, Function.update upper index high, rfl, fun σ kept k k_inside => ?_⟩
  · by_cases here : k = index
    · subst here
      simp only [update_self]
      omega
    · rw [update_of_ne here, update_of_ne here]
  · simp only [update_self]
    omega
  · obtain ⟨kept, holds⟩ := keeps_append_iff.mp kept
    by_cases here : k = index
    · subst here
      simp only [update_self]
      exact moved σ kept holds
    · rw [update_of_ne here, update_of_ne here]
      exact ranges σ kept k k_inside

/-- A branch at a fractional variable shrinks the range of the variable in both children. -/
theorem Confined.split {down up : Row} (confined : Confined problem count rows size) (kept : Keeps problem rows σ)
    (inside : index < count) (fractional : (recombined σ index).den ≠ 1)
    (below : ∀ τ, down.Holds τ ↔ recombined τ index ≤ ⌊recombined σ index⌋)
    (above : ∀ τ, up.Holds τ ↔ ⌊recombined σ index⌋ + 1 ≤ recombined τ index) :
    (∃ smaller < size, Confined problem count (rows ++ [down]) smaller)
      ∧ ∃ smaller < size, Confined problem count (rows ++ [up]) smaller := by
  obtain ⟨lower, upper, rfl, ranges⟩ := confined
  obtain ⟨lower_le, le_upper⟩ := ranges σ kept index inside
  have lower_floor : lower index ≤ ⌊recombined σ index⌋ := Int.le_floor.mpr lower_le
  have floor_upper : ⌊recombined σ index⌋ < upper index := by
    refine lt_of_le_of_ne (Int.floor_le_iff.mpr (by linarith)) fun same => fractional ?_
    rw [le_antisymm le_upper (same ▸ Int.floor_le _)]
    rfl
  constructor
  · exact confined_append inside ranges
      (fun τ τ_kept low => ⟨(ranges τ τ_kept index inside).1, (below τ).mp low⟩) (by omega) (by omega)
  · exact confined_append inside ranges
      (fun τ τ_kept high => ⟨by exact_mod_cast (above τ).mp high, (ranges τ τ_kept index inside).2⟩) (by omega) (by omega)

theorem unknown_of_confined : ∀ {rows : List Row} {pending : List (List Row)} {budget : ℕ},
    Opens problem count (rows :: pending) → Confined problem count rows size →
    searchNodes problem (budget + allowance size) (rows :: pending) = .ok .unknown →
    ∃ more, budget ≤ more ∧ Opens problem count pending ∧ searchNodes problem more pending = .ok .unknown := by
  induction size using Nat.strong_induction_on with
  | _ size ih =>
    intro rows pending budget opens confined searched
    obtain ⟨spent, spent_eq⟩ := Nat.exists_eq_add_of_lt (allowance_pos size)
    rw [spent_eq, Nat.zero_add, ← Nat.add_assoc] at searched
    cases visits_of_searchNodes opens searched with
    | dropped _ later_opens rest => exact ⟨_, Nat.le_add_right _ _, later_opens, rest⟩
    | found ended => cases ended
    | split kept inside fractional below above children_opens rest =>
      obtain ⟨⟨low, low_lt, low_confined⟩, high, high_lt, high_confined⟩ :=
        confined.split kept inside fractional below above
      -- the node itself takes one visit, and each child at most the allowance of the next smaller size
      obtain ⟨smaller, rfl⟩ := Nat.exists_eq_add_of_lt low_lt
      have low_allowance : allowance low ≤ allowance (low + smaller) := allowance_mono (Nat.le_add_right _ _)
      have high_allowance : allowance high ≤ allowance (low + smaller) := allowance_mono (by omega)
      rw [allowance] at spent_eq
      obtain ⟨more, more_le, others_open, rest⟩ := ih low low_lt children_opens low_confined
        (show searchNodes problem (budget + spent - allowance low + allowance low) _ = _ by
          rwa [Nat.sub_add_cancel (by omega)])
      obtain ⟨last, last_le, later_opens, rest⟩ := ih high high_lt others_open high_confined
        (show searchNodes problem (more - allowance high + allowance high) _ = _ by rwa [Nat.sub_add_cancel (by omega)])
      exact ⟨last, by omega, later_opens, rest⟩

/-- The search over integer points starts from the parts of the variables. -/
theorem opens_of_integerFeasible (searched : integerFeasible count rows limit = .ok outcome) :
    ∃ problem, Opens problem count [[]] ∧ searchNodes problem limit [[]] = .ok outcome
      ∧ ∀ σ, Keeps problem [] σ ↔ (∀ column, 0 ≤ σ column) ∧ ∀ row ∈ rows, row.Holds (recombined σ) := by
  obtain ⟨problem, split, searched⟩ := bind_ok.mp searched
  obtain ⟨columns_eq, bounded, holds_iff⟩ := splitProblem_spec split
  refine ⟨problem, ⟨columns_eq, bounded, by simp⟩, searched, fun σ => ?_⟩
  rw [Keeps, append_nil, ← holds_iff]
  exact ⟨fun ⟨nonneg, holds⟩ => ⟨nonneg, holds⟩, fun ⟨nonneg, holds⟩ => ⟨nonneg, holds⟩⟩

end Lattice

/-- Rows over free variables that are reported infeasible have no integer point. -/
theorem not_holds_of_integerFeasible (infeasible : integerFeasible count rows limit = .ok .infeasible)
    (v : ℕ → ℤ) : ¬ ∀ row ∈ rows, row.Holds (integerAssignment v) := by
  intro holds
  obtain ⟨problem, opens, searched, keeps_iff⟩ := Lattice.opens_of_integerFeasible infeasible
  have kept : Lattice.Keeps problem [] (Lattice.parts (integerAssignment v)) :=
    (keeps_iff _).mpr ⟨Lattice.parts_nonneg _, (Lattice.recombined_parts _).symm ▸ holds⟩
  exact Lattice.not_keeps_of_searchNodes opens searched [] (by simp) _ kept v (Lattice.recombined_parts _)

/-- Rows over free variables that are reported feasible have an integer point. -/
theorem holds_of_integerFeasible (feasible : integerFeasible count rows limit = .ok .feasible) :
    ∃ v : ℕ → ℤ, ∀ row ∈ rows, row.Holds (integerAssignment v) := by
  obtain ⟨problem, opens, searched, keeps_iff⟩ := Lattice.opens_of_integerFeasible feasible
  obtain ⟨σ, kept, v, integral⟩ := Lattice.exists_of_searchNodes opens searched
  exact ⟨v, integral ▸ ((keeps_iff σ).mp kept).2⟩

theorem exists_holds_of_integerFeasible (searched : integerFeasible count rows limit = .ok outcome) (positive : 0 < limit)
    (not_infeasible : outcome ≠ .infeasible) : ∃ σ : Assignment, ∀ row ∈ rows, row.Holds σ := by
  obtain ⟨problem, opens, searched, keeps_iff⟩ := Lattice.opens_of_integerFeasible searched
  obtain ⟨budget, rfl⟩ := Nat.exists_eq_add_of_lt positive
  rw [Nat.zero_add] at searched
  cases Lattice.visits_of_searchNodes opens searched with
  | dropped _ _ rest =>
    simp only [Lattice.searchNodes, Except.ok.injEq] at rest
    exact absurd rest.symm not_infeasible
  | found _ kept => exact ⟨_, ((keeps_iff _).mp kept).2⟩
  | split kept => exact ⟨_, ((keeps_iff _).mp kept).2⟩

/-- Where the rows bound every free variable, a search with a large enough budget comes to an answer: it may be refused
    for a number that does not fit, but it does not run out of nodes. -/
theorem bounded_rows_decided (bounded : ∃ bound : ℚ, ∀ σ : Assignment, (∀ row ∈ rows, row.Holds σ) → ∀ k < count, |σ k| ≤ bound) :
    ∃ nodes, ∀ limit, nodes ≤ limit → integerFeasible count rows limit ≠ .ok .unknown := by
  obtain ⟨bound, within⟩ := bounded
  let size := ∑ _k ∈ Finset.range count, (⌈bound⌉ - ⌊-bound⌋).toNat
  refine ⟨Lattice.allowance size, fun limit enough searched => ?_⟩
  obtain ⟨problem, opens, searched, keeps_iff⟩ := Lattice.opens_of_integerFeasible searched
  have confined : Lattice.Confined problem count [] size := by
    refine ⟨fun _ => ⌊-bound⌋, fun _ => ⌈bound⌉, rfl, fun σ kept k inside => ?_⟩
    obtain ⟨above, below⟩ := abs_le.mp (within _ ((keeps_iff σ).mp kept).2 k inside)
    exact ⟨(Int.floor_le _).trans above, below.trans (Int.le_ceil _)⟩
  rw [← Nat.sub_add_cancel enough] at searched
  obtain ⟨_, _, _, rest⟩ := Lattice.unknown_of_confined opens confined searched
  simp [Lattice.searchNodes] at rest

/-- The rows `1 ≤ 3 x` and `3 x ≤ 2`, which no integer satisfies. -/
def thirdRows : List Row :=
  [{ sense := .nonnegative, form := { terms := [(0, 3)], constant := -1 } },
    { sense := .nonnegative, form := { terms := [(0, -3)], constant := 2 } }]

theorem bounded_rows_decided_third : ∃ nodes, ∀ limit, nodes ≤ limit → integerFeasible 1 thirdRows limit ≠ .ok .unknown := by
  refine bounded_rows_decided ⟨1, fun σ holds k inside => ?_⟩
  obtain rfl : k = 0 := by omega
  simp only [thirdRows, forall_mem_cons, Row.Holds, Sense.Admits, Form.value, Form.termsValue_cons,
    Form.termsValue_nil] at holds
  push_cast at holds
  obtain ⟨low, high, _⟩ := holds
  exact abs_le.mpr ⟨by linarith, by linarith⟩

end Linear

end AffineSchedule
