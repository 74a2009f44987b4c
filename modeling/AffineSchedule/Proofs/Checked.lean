import AffineSchedule.Fault
import Mathlib.Data.List.Forall2

/-! ### Related lists -/

namespace List

variable {α β : Type} {related : α → β → Prop} {left : List α} {right : List β}

/-- Lists of the same length that are related at every position are related. -/
theorem forall₂_of_getElem? (length_eq : left.length = right.length)
    (each : ∀ (index : ℕ) (a : α) (b : β), left[index]? = some a → right[index]? = some b → related a b) :
    Forall₂ related left right := by
  rw [forall₂_iff_get]
  refine ⟨length_eq, fun index left_lt right_lt => ?_⟩
  exact each index _ _ (getElem?_eq_getElem left_lt) (getElem?_eq_getElem right_lt)

theorem forall₂_of_map_eq {γ : Type} {ofLeft : α → γ} {ofRight : β → γ} (maps_eq : left.map ofLeft = right.map ofRight) :
    Forall₂ (fun a b => ofLeft a = ofRight b) left right := by
  rwa [← forall₂_eq_eq_eq, forall₂_map_left_iff, forall₂_map_right_iff] at maps_eq

namespace Forall₂

variable (each : Forall₂ related left right)
include each

section

variable {holdsLeft : α → Prop} {holdsRight : β → Prop}

/-- A condition that holds of corresponding entries passes from one list to the other. -/
theorem forall_mem
    (carry : ∀ a b, a ∈ left → related a b → holdsLeft a → holdsRight b) (all : ∀ a ∈ left, holdsLeft a) :
    ∀ b ∈ right, holdsRight b := by
  induction each with
  | nil => simp
  | cons head_related _ ih =>
    obtain ⟨head_holds, tail_holds⟩ := forall_mem_cons.mp all
    refine forall_mem_cons.mpr ⟨carry _ _ mem_cons_self head_related head_holds, ?_⟩
    exact ih (fun a b a_mem => carry a b (mem_cons_of_mem _ a_mem)) tail_holds

/-- Conditions that say the same of corresponding entries say the same of the lists. -/
theorem forall_mem_iff (same : ∀ a b, a ∈ left → related a b → (holdsRight b ↔ holdsLeft a)) :
    (∀ b ∈ right, holdsRight b) ↔ ∀ a ∈ left, holdsLeft a := by
  induction each with
  | nil => simp
  | cons head_related _ ih =>
    rw [forall_mem_cons, forall_mem_cons, same _ _ mem_cons_self head_related,
      ih fun a b a_mem => same a b (mem_cons_of_mem _ a_mem)]

end

/-- Every entry of one list has a counterpart in the other. -/
theorem exists_right {a : α} (a_mem : a ∈ left) : ∃ b ∈ right, related a b := by
  induction each with
  | nil => cases a_mem
  | cons head_related _ ih =>
    rcases mem_cons.mp a_mem with rfl | a_later
    · exact ⟨_, mem_cons_self, head_related⟩
    · obtain ⟨b, b_mem, a_related⟩ := ih a_later
      exact ⟨b, mem_cons_of_mem _ b_mem, a_related⟩

theorem exists_left {b : β} (b_mem : b ∈ right) : ∃ a ∈ left, related a b := each.flip.exists_right b_mem

/-- Counterparts stand at the same positions. -/
theorem getElem?_right {index : ℕ} {a : α} (a_at : left[index]? = some a) :
    ∃ b, right[index]? = some b ∧ related a b := by
  induction each generalizing index with
  | nil => cases a_at
  | cons head_related _ ih =>
    cases index with
    | zero =>
      obtain rfl := Option.some.inj a_at
      exact ⟨_, rfl, head_related⟩
    | succ index => exact ih a_at

/-- Counterparts stand at the same positions, read from the right. -/
theorem getElem?_left {index : ℕ} {b : β} (b_at : right[index]? = some b) :
    ∃ a, left[index]? = some a ∧ related a b :=
  each.flip.getElem?_right b_at

theorem getElem?_none {index : ℕ} (missing : left[index]? = none) : right[index]? = none := by
  rw [getElem?_eq_none_iff] at missing ⊢
  exact each.length_eq ▸ missing

/-- Entries at the same position are related. -/
theorem related_at {index : ℕ} {a : α} {b : β} (a_at : left[index]? = some a) (b_at : right[index]? = some b) :
    related a b := by
  obtain ⟨other, other_at, a_related⟩ := each.getElem?_right a_at
  exact Option.mem_unique other_at b_at ▸ a_related

/-- Related entries with equal images give equal lists of images. -/
theorem map_eq {γ : Type} {ofLeft : α → γ} {ofRight : β → γ} (same : ∀ a b, related a b → ofLeft a = ofRight b) :
    left.map ofLeft = right.map ofRight := by
  induction each with
  | nil => rfl
  | cons head_related _ ih => rw [map_cons, map_cons, same _ _ head_related, ih]

/-- Tests that say the same of counterparts find counterparts. -/
theorem findIdx?_eq {testLeft : α → Bool} {testRight : β → Bool} (same : ∀ a b, related a b → testLeft a = testRight b) :
    left.findIdx? testLeft = right.findIdx? testRight := by
  have maps_eq := congrArg (List.findIdx? id) (each.map_eq same)
  rwa [findIdx?_map, findIdx?_map] at maps_eq

/-- What follows for counterparts holds of all of them. -/
theorem imp_of_mem {weaker : α → β → Prop} (implies : ∀ a ∈ left, ∀ b ∈ right, related a b → weaker a b) :
    Forall₂ weaker left right := by
  refine forall₂_of_getElem? each.length_eq fun index a b a_at b_at => ?_
  exact implies a (mem_of_getElem? a_at) b (mem_of_getElem? b_at) (each.related_at a_at b_at)

/-- What follows for the counterparts of counterparts holds of all of them. -/
theorem trans_of_mem {γ : Type} {further : β → γ → Prop} {last : List γ} {whole : α → γ → Prop}
    (later : Forall₂ further right last)
    (implies : ∀ a ∈ left, ∀ b ∈ right, ∀ c ∈ last, related a b → further b c → whole a c) : Forall₂ whole left last := by
  refine forall₂_of_getElem? (each.length_eq.trans later.length_eq) fun index a c a_at c_at => ?_
  obtain ⟨b, b_at, a_related⟩ := each.getElem?_right a_at
  exact implies a (mem_of_getElem? a_at) b (mem_of_getElem? b_at) c (mem_of_getElem? c_at) a_related
    (later.related_at b_at c_at)

end Forall₂

/-- Relations between three lists compose entry by entry. -/
theorem forall₂_trans {γ : Type} {further : β → γ → Prop} {last : List γ} {whole : α → γ → Prop}
    (compose : ∀ a b c, related a b → further b c → whole a c) (before : Forall₂ related left right)
    (after : Forall₂ further right last) : Forall₂ whole left last :=
  before.trans_of_mem after fun a _ b _ c _ => compose a b c

end List

namespace AffineSchedule

open List

/-- Every value of a list is at most the largest one. -/
theorem le_foldl_max {α : Type} (value : α → ℕ) {entries : List α} {entry : α} (entry_mem : entry ∈ entries) :
    value entry ≤ entries.foldl (fun most other => max most (value other)) 0 := by
  have le_most : ∀ (entries : List α) (most : ℕ), (entry ∈ entries ∨ value entry ≤ most) →
      value entry ≤ entries.foldl (fun most other => max most (value other)) most := by
    intro entries
    induction entries with
    | nil => exact fun most reached => reached.resolve_left not_mem_nil
    | cons first later ih =>
      intro most reached
      apply ih (max most (value first))
      rcases reached with in_entries | below
      · rcases mem_cons.mp in_entries with rfl | in_later
        · exact Or.inr (Nat.le_max_right most _)
        · exact Or.inl in_later
      · exact Or.inr (Nat.le_trans below (Nat.le_max_left most _))
  exact le_most entries 0 (Or.inl entry_mem)

namespace Checked

variable {α β : Type}

/-! ### Single steps -/

section

variable {first : Checked α} {next : α → Checked β}

/-- A sequence of two steps succeeds when both succeed. -/
theorem bind_ok {result : β} :
    (first >>= next) = .ok result ↔ ∃ value, first = .ok value ∧ next value = .ok result := by
  cases first with
  | error fault => simp [bind, Except.bind]
  | ok value => simp [bind, Except.bind]

/-- Continuations that agree unless one of them stops with a fault make computations agree that do not stop with it. -/
theorem bind_congr_of_ne {other : α → Checked β} {fault : Fault} (unstopped : (first >>= next) ≠ .error fault)
    (agree : ∀ value, first = .ok value → next value ≠ .error fault → other value = next value) :
    (first >>= other) = (first >>= next) := by
  cases first with
  | error _ => rfl
  | ok value => exact agree value rfl unstopped

/-- A choice between two first steps with one continuation. -/
theorem ite_bind {condition : Prop} [Decidable condition] {second : Checked α} :
    (if condition then first >>= next else second >>= next) = (if condition then first else second) >>= next :=
  (apply_ite (· >>= next) condition first second).symm

end

/-- A pure step delivers its value. -/
theorem pure_ok {value result : α} : (pure value : Checked α) = .ok result ↔ value = result := by
  simp [pure, Except.pure]

/-- A refusal delivers nothing. -/
theorem throw_ok {fault : Fault} {result : α} : (throw fault : Checked α) = .ok result ↔ False := by
  simp [throw, throwThe, MonadExceptOf.throw]

theorem ok_of_toOption {computed : Checked α} {result : α} (found : computed.toOption = some result) :
    computed = .ok result := by
  cases computed with
  | ok value => exact congrArg Except.ok (Option.some.inj found)
  | error fault => cases found

/-- A lookup succeeds when there is a value. -/
theorem ofOption_ok {found : Option α} {result : α} : ofOption found = .ok result ↔ found = some result := by
  cases found <;> simp [ofOption]

/-- A requirement succeeds when it holds. -/
theorem require_ok {condition : Prop} [Decidable condition] {result : Unit} :
    require condition = .ok result ↔ condition := by
  by_cases holds : condition <;> simp [require, holds]

/-! ### Passes over a list -/

section Passes

variable {step : α → Checked β} {entries : List α}

/-- A pass that maps every entry succeeds when every entry is mapped. -/
theorem mapM_ok {results : List β} : entries.mapM step = .ok results ↔
      Forall₂ (fun entry result => step entry = .ok result) entries results := by
  induction entries generalizing results with
  | nil =>
    rw [mapM_nil, pure_ok, forall₂_nil_left_iff]
    exact eq_comm
  | cons entry later ih =>
    simp only [mapM_cons, bind_ok, pure_ok, ih, forall₂_cons_left_iff]
    constructor
    · rintro ⟨result, entry_ok, rest, later_ok, rfl⟩
      exact ⟨result, rest, entry_ok, later_ok, rfl⟩
    · rintro ⟨result, rest, entry_ok, later_ok, rfl⟩
      exact ⟨result, entry_ok, rest, later_ok, rfl⟩

/-- A pass succeeds if every entry is mapped, with what is known about each result. -/
theorem exists_mapM_ok {property : α → β → Prop}
    (each : ∀ entry ∈ entries, ∃ result, step entry = .ok result ∧ property entry result) :
    ∃ results, entries.mapM step = .ok results ∧ Forall₂ property entries results := by
  induction entries with
  | nil => exact ⟨[], rfl, List.Forall₂.nil⟩
  | cons entry later ih =>
    obtain ⟨⟨result, entry_ok, result_holds⟩, later_each⟩ := forall_mem_cons.mp each
    obtain ⟨results, later_ok, results_hold⟩ := ih later_each
    refine ⟨result :: results, ?_, List.Forall₂.cons result_holds results_hold⟩
    rw [mapM_ok] at later_ok ⊢
    exact List.Forall₂.cons entry_ok later_ok

/-- A pass whose result is known at every entry. -/
theorem mapM_ok_map {value : α → β} (each : ∀ entry ∈ entries, step entry = .ok (value entry)) :
    entries.mapM step = .ok (entries.map value) := by
  rw [mapM_ok, forall₂_map_right_iff, forall₂_same]
  exact each

end Passes

section

variable {step : β → α → Checked β} {entries : List α} {start final : β} (kept : β → Prop)

/-- What the steps of a fold keep, the whole fold keeps. -/
theorem foldlM_invariant (folded : entries.foldlM step start = .ok final) (at_start : kept start)
    (at_step : ∀ state entry next, entry ∈ entries → kept state → step state entry = .ok next → kept next) :
    kept final := by
  induction entries generalizing start with
  | nil =>
    rw [foldlM_nil, pure_ok] at folded
    exact folded ▸ at_start
  | cons entry later ih =>
    rw [foldlM_cons, bind_ok] at folded
    obtain ⟨next, entry_ok, later_ok⟩ := folded
    refine ih later_ok (at_step start entry next mem_cons_self at_start entry_ok) ?_
    intro state other following other_mem
    exact at_step state other following (mem_cons_of_mem entry other_mem)

/-- What every step of a fold establishes about its own entry, and later steps keep, holds of all entries
    in the end. -/
theorem foldlM_collects (collected : α → β → Prop) (folded : entries.foldlM step start = .ok final) (at_start : kept start)
    (at_step : ∀ state entry next, entry ∈ entries → kept state → step state entry = .ok next →
      kept next ∧ collected entry next ∧ ∀ earlier, collected earlier state → collected earlier next) :
    kept final ∧ (∀ entry ∈ entries, collected entry final) ∧ ∀ earlier, collected earlier start → collected earlier final := by
  induction entries generalizing start with
  | nil =>
    rw [foldlM_nil, pure_ok] at folded
    subst folded
    exact ⟨at_start, by simp, fun _ was_collected => was_collected⟩
  | cons entry later ih =>
    rw [foldlM_cons, bind_ok] at folded
    obtain ⟨next, entry_ok, later_ok⟩ := folded
    obtain ⟨next_kept, entry_collected, still_collected⟩ :=
      at_step start entry next mem_cons_self at_start entry_ok
    obtain ⟨final_kept, later_collected, carried⟩ := ih later_ok next_kept fun state other following other_mem =>
      at_step state other following (mem_cons_of_mem entry other_mem)
    exact ⟨final_kept, forall_mem_cons.mpr ⟨carried entry entry_collected, later_collected⟩,
      fun earlier was_collected => carried earlier (still_collected earlier was_collected)⟩

end

/-- A fold over groups is the fold over all their entries. -/
theorem foldlM_flatMap {γ : Type} {step : β → α → Checked β} {group : γ → List α} (entries : List γ) (start : β) :
    (entries.flatMap group).foldlM step start = entries.foldlM (fun state entry => (group entry).foldlM step state) start := by
  induction entries generalizing start with
  | nil => rfl
  | cons entry later ih => simp only [flatMap_cons, foldlM_append, foldlM_cons, ih]

/-- A pass over a list for its refusals succeeds when no entry is refused. -/
theorem forM_ok {step : α → Checked Unit} {entries : List α} :
    entries.forM step = .ok () ↔ ∀ entry ∈ entries, step entry = .ok () := by
  induction entries with
  | nil => exact iff_of_true rfl (by simp)
  | cons first later ih =>
    rw [forM_eq_forM, forM_cons, bind_ok, forall_mem_cons, ← ih]
    exact ⟨fun ⟨_, first_ok, later_ok⟩ => ⟨first_ok, later_ok⟩, fun ⟨first_ok, later_ok⟩ => ⟨(), first_ok, later_ok⟩⟩

section Tests

variable {test : α → Checked Bool} {entries : List α} {entry : α}

/-- A search delivers whether some entry answers it; if none does, all have been asked. -/
theorem anyM_ok {answer : Bool} (searched : entries.anyM test = .ok answer) :
    answer = true ∧ (∃ entry ∈ entries, test entry = .ok true) ∨ answer = false ∧ ∀ entry ∈ entries, test entry = .ok false := by
  induction entries with
  | nil =>
    rw [anyM_nil, pure_ok] at searched
    exact Or.inr ⟨searched.symm, by simp⟩
  | cons first later ih =>
    rw [anyM_cons, bind_ok] at searched
    obtain ⟨found, first_ok, later_ok⟩ := searched
    cases found with
    | true => exact Or.inl ⟨(pure_ok.mp later_ok).symm, first, mem_cons_self, first_ok⟩
    | false =>
      rcases ih later_ok with ⟨passes, other, other_mem, other_ok⟩ | ⟨fails, all⟩
      · exact Or.inl ⟨passes, other, mem_cons_of_mem first other_mem, other_ok⟩
      · exact Or.inr ⟨fails, forall_mem_cons.mpr ⟨first_ok, all⟩⟩

theorem of_anyM_ok_false (searched : entries.anyM test = .ok false) (entry_mem : entry ∈ entries) : test entry = .ok false := by
  rcases anyM_ok searched with ⟨impossible, _⟩ | ⟨_, all⟩
  · cases impossible
  · exact all entry entry_mem

/-- A search that succeeds has been answered by some entry. -/
theorem exists_of_anyM_ok_true (searched : entries.anyM test = .ok true) : ∃ entry ∈ entries, test entry = .ok true := by
  rcases anyM_ok searched with ⟨_, found⟩ | ⟨impossible, _⟩
  · exact found
  · cases impossible

/-- A search succeeds if some entry would answer it. -/
theorem anyM_eq_true {answer : Bool} (searched : entries.anyM test = .ok answer) (entry_mem : entry ∈ entries)
    (passes : ∀ result, test entry = .ok result → result = true) : answer = true := by
  cases answer with
  | true => rfl
  | false => exact passes false (of_anyM_ok_false searched entry_mem)

theorem of_allM_ok_true (tested : entries.allM test = .ok true) (entry_mem : entry ∈ entries) : test entry = .ok true := by
  induction entries with
  | nil => cases entry_mem
  | cons first later ih =>
    rw [allM_cons, bind_ok] at tested
    obtain ⟨answer, first_ok, later_ok⟩ := tested
    cases answer with
    | false => simp [pure_ok] at later_ok
    | true =>
      rcases mem_cons.mp entry_mem with rfl | entry_later
      · exact first_ok
      · exact ih later_ok entry_later

/-- The filter tests all entries, and collects those that pass in reverse, in front of those it has already. -/
theorem filterAuxM_ok {earlier result : List α} (filtered : entries.filterAuxM test earlier = .ok result) :
    (∀ entry ∈ entries, ∃ answer, test entry = .ok answer)
      ∧ ∀ entry, entry ∈ result ↔ entry ∈ earlier ∨ entry ∈ entries ∧ test entry = .ok true := by
  induction entries generalizing earlier with
  | nil =>
    rw [List.filterAuxM, pure_ok] at filtered
    simp [← filtered]
  | cons first rest ih =>
    rw [List.filterAuxM, bind_ok] at filtered
    obtain ⟨answer, first_ok, rest_ok⟩ := filtered
    obtain ⟨rest_tested, collected⟩ := ih rest_ok
    refine ⟨forall_mem_cons.mpr ⟨⟨answer, first_ok⟩, rest_tested⟩, fun entry => ?_⟩
    rw [collected]
    by_cases same : entry = first
    · subst same
      cases answer <;> simp [first_ok]
    · cases answer <;> simp [same]

variable {kept : List α} (filtered : entries.filterM test = .ok kept)
include filtered

/-- An entry that passes the test of a successful filter is kept, and an entry that is kept has passed. -/
theorem mem_filterM (entry : α) : entry ∈ kept ↔ entry ∈ entries ∧ test entry = .ok true := by
  rw [List.filterM, bind_ok] at filtered
  obtain ⟨reversed, passed, unreversed⟩ := filtered
  rw [← pure_ok.mp unreversed, mem_reverse, (filterAuxM_ok passed).2]
  simp

theorem tested_of_filterM (entry_mem : entry ∈ entries) : ∃ answer, test entry = .ok answer := by
  rw [List.filterM, bind_ok] at filtered
  obtain ⟨reversed, passed, _⟩ := filtered
  exact (filterAuxM_ok passed).1 entry entry_mem

end Tests

end Checked

end AffineSchedule
