import AffineSchedule.Schedule.Forest
import AffineSchedule.Proofs.Schedule.Bands
import AffineSchedule.Proofs.Schedule.Soundness

namespace AffineSchedule

open Checked List

variable {member level : ℕ} {statements : List StatementSchedule} {identifier rows : ℕ} {band : Band} {group : ℕ × List ℕ}
  {groups : List (ℕ × List ℕ)} {statement : StatementSchedule}

/-! ### Parts of maps -/

namespace TimeMap

/-- The outputs between two rows. -/
def between (map : TimeMap) (start stop : ℕ) : TimeMap := { map with outputs := (map.outputs.take stop).drop start }

theorem slice_ok {map : TimeMap} {start stop : ℕ} (ordered : start ≤ stop) (within : stop ≤ map.outputs.length) :
    map.slice start stop = .ok (map.between start stop) :=
  bind_ok.mpr ⟨(), require_ok.mpr ⟨ordered, within⟩, rfl⟩

end TimeMap

/-! ### Statements by position -/

/-- The statement at a position; for a position without one, a statement without bands. -/
def memberAt (statements : List StatementSchedule) (member : ℕ) : StatementSchedule := statements.getD member default

theorem memberAt_eq (statement_at : statements[member]? = some statement) : memberAt statements member = statement := by
  rw [memberAt, getD_eq_getElem?_getD, statement_at]
  rfl

theorem getElem?_memberAt (inside : member < statements.length) : statements[member]? = some (memberAt statements member) := by
  rw [getElem?_eq_getElem inside, memberAt_eq (getElem?_eq_getElem inside)]

theorem memberAt_mem (inside : member < statements.length) :
    memberAt statements member ∈ statements := mem_of_getElem? (getElem?_memberAt inside)

theorem StatementSchedule.Banded.bandStart_mono (banded : statement.Banded rows) {first last : ℕ} (first_le : first ≤ last)
    (last_le : last ≤ statement.bandCount) : statement.bandStart first ≤ statement.bandStart last := by
  induction last, first_le using Nat.le_induction with
  | base => exact le_rfl
  | succ last _ ih =>
    have step := banded.nonempty last (Nat.lt_of_succ_le last_le)
    exact (ih (Nat.le_of_succ_le last_le)).trans step.le

theorem StatementSchedule.Banded.bandStart_le (banded : statement.Banded rows) (level : ℕ) :
    statement.bandStart level ≤ rows := by
  cases level with
  | zero => exact Nat.zero_le rows
  | succ level => exact banded.stop_le level

namespace Band

/-! ### Forests -/

/-- A band at a depth of a forest. -/
inductive At : ℕ → List Band → Band → Prop
  | root {bands : List Band} {band : Band} (band_mem : band ∈ bands) : At 0 bands band
  | child {depth : ℕ} {bands : List Band} {parent band : Band} (parent_mem : parent ∈ bands)
      (inside : At depth parent.children band) : At (depth + 1) bands band

/-- Every one of some statements is a member of one of the bands, and of one only. -/
structure Partitions (bands : List Band) (members : List ℕ) : Prop where
  inhabited : ∀ band ∈ bands, band.rows.members ≠ []
  once : ∀ band ∈ bands, band.rows.members.Nodup
  disjoint : bands.Pairwise fun a b => a.rows.members.Disjoint b.rows.members
  covers : ∀ member, member ∈ members ↔ ∃ band ∈ bands, member ∈ band.rows.members

/-- The rows of a band are those that a member has on a level. A placeholder stands for a member that has none. -/
structure ShowsAt (rows : BandRows) (level member : ℕ) (statement : StatementSchedule) : Prop where
  level_le : level ≤ statement.bandCount
  start : statement.bandStart level = rows.start
  finished : rows.isPlaceholder = true → statement.bandCount = level
  continues : rows.isPlaceholder = false → level < statement.bandCount ∧ statement.bandStop level = rows.stop
    ∧ (statement.coincident.take rows.stop).drop rows.start = rows.coincident
  map : rows.mapOf member = some (statement.map.between rows.start rows.stop)

/-- A band fits its members on a level, and its children divide those that have further bands, and their placeholders. -/
structure Fits (statements : List StatementSchedule) (level : ℕ) (band : Band) : Prop where
  once : band.rows.members.Nodup
  inside : ∀ member ∈ band.rows.members, member < statements.length
  shows_at : ∀ member ∈ band.rows.members, ShowsAt band.rows level member (memberAt statements member)
  last : band.children = [] → ∀ member ∈ band.rows.members, (memberAt statements member).bandCount ≤ level + 1
  parts : band.children ≠ [] → Partitions band.children band.rows.members
  starts : ∀ child ∈ band.children, child.rows.start = band.rows.stop

/-- A band and all bands nested in it fit their members. -/
inductive FitsDown (statements : List StatementSchedule) : ℕ → Band → Prop
  | intro {level : ℕ} {band : Band} (fits : band.Fits statements level)
      (children : ∀ child ∈ band.children, FitsDown statements (level + 1) child) : FitsDown statements level band

theorem FitsDown.fits (down : FitsDown statements level band) : band.Fits statements level := by
  cases down with
  | intro fits _ => exact fits

theorem FitsDown.children (down : FitsDown statements level band) :
    ∀ child ∈ band.children, FitsDown statements (level + 1) child := by
  cases down with
  | intro _ children => exact children

theorem FitsDown.fits_at {depth : ℕ} {bands : List Band} (down : ∀ band ∈ bands, FitsDown statements level band)
    (at_depth : At depth bands band) : band.Fits statements (level + depth) := by
  induction at_depth generalizing level with
  | root band_mem => exact (down _ band_mem).fits
  | child parent_mem _ ih =>
    have fits := ih (down _ parent_mem).children
    rwa [Nat.add_assoc, Nat.add_comm 1] at fits

/-- The bands of some statements on a level. -/
structure Describes (statements : List StatementSchedule) (level start : ℕ) (members : List ℕ) (bands : List Band) : Prop where
  inhabited : ∀ band ∈ bands, band.rows.members ≠ []
  perm : (bands.flatMap (·.rows.members)).Perm members
  starts : ∀ band ∈ bands, band.rows.start = start
  down : ∀ band ∈ bands, FitsDown statements level band

/-- A band of the given statements, with all bands below it. -/
structure Heads (statements : List StatementSchedule) (level start : ℕ) (members : List ℕ) (band : Band) : Prop where
  members : band.rows.members = members
  start : band.rows.start = start
  down : FitsDown statements level band

section Describes

variable {start : ℕ} {members : List ℕ} {bands : List Band}

theorem Describes.partitions (describes : Describes statements level start members bands) (once : members.Nodup) :
    Partitions bands members := by
  have bands_once := describes.perm.nodup_iff.mpr once
  obtain ⟨once_each, disjoint⟩ := nodup_flatMap.mp bands_once
  refine ⟨describes.inhabited, once_each, disjoint, fun member => ?_⟩
  rw [← describes.perm.mem_iff, mem_flatMap]

theorem Describes.of_perm (describes : Describes statements level start members bands) {sorted : List Band}
    (sorted_perm : sorted.Perm bands) : Describes statements level start members sorted := by
  have same : ∀ {band}, band ∈ sorted → band ∈ bands := fun band_mem => sorted_perm.mem_iff.mp band_mem
  refine ⟨fun band band_mem => describes.inhabited band (same band_mem), ?_,
    fun band band_mem => describes.starts band (same band_mem), fun band band_mem => describes.down band (same band_mem)⟩
  exact (sorted_perm.flatMap fun _ _ => List.Perm.refl _).trans describes.perm

theorem describes_of_heads {lists : List (List ℕ)} (each : Forall₂ (Heads statements level start) lists bands)
    (inhabited : ∀ list ∈ lists, list ≠ []) (perm : lists.flatten.Perm members) :
    Describes statements level start members bands := by
  have of_list : ∀ band ∈ bands, ∃ list ∈ lists, Heads statements level start list band := fun band band_mem =>
    each.exists_left band_mem
  have lists_eq : lists = bands.map (·.rows.members) := by
    have maps_eq : lists.map id = bands.map (·.rows.members) :=
      each.map_eq fun list band heads => heads.members.symm
    rwa [map_id] at maps_eq
  refine ⟨fun band band_mem => ?_, ?_, fun band band_mem => ?_, fun band band_mem => ?_⟩
  · obtain ⟨list, list_mem, heads⟩ := of_list band band_mem
    rw [heads.members]
    exact inhabited list list_mem
  · rw [flatMap_def, ← lists_eq]
    exact perm
  · obtain ⟨_, _, heads⟩ := of_list band band_mem
    exact heads.start
  · obtain ⟨_, _, heads⟩ := of_list band band_mem
    exact heads.down

end Describes

/-! ### Siblings -/

theorem sortSiblings_perm (statements : List StatementSchedule) (enclosing : List (ℕ × ℕ)) (bands : List Band) :
    (sortSiblings statements enclosing bands).Perm bands := by
  have length_eq : ∀ {row : ℕ} {bands : List Band} {constants : List ℤ},
      bands.mapM (orderingConstant statements row) = some constants → constants.length = bands.length := by
    intro row bands
    induction bands with
    | nil =>
      rintro constants found
      obtain rfl : [] = constants := by simpa using found
      rfl
    | cons band later ih =>
      rintro constants found
      rw [mapM_cons] at found
      obtain ⟨constant, _, found⟩ := Option.bind_eq_some_iff.mp found
      obtain ⟨others, others_found, found⟩ := Option.bind_eq_some_iff.mp found
      obtain rfl := Option.some.inj found
      rw [length_cons, length_cons, ih others_found]
  unfold sortSiblings
  split
  case h_1 => exact List.Perm.refl _
  case h_2 row length found =>
    split
    case h_1 => exact List.Perm.refl _
    case h_2 constants constants_eq =>
      split
      case isFalse => exact List.Perm.refl _
      case isTrue =>
        refine ((mergeSort_perm _ _).map _).trans ?_
        rw [map_snd_zip (length_eq constants_eq).ge]

theorem insertMember_perm (groups : List (ℕ × List ℕ)) (identifier member : ℕ) :
    ((insertMember groups identifier member).flatMap (·.2)).Perm (member :: groups.flatMap (·.2)) := by
  induction groups with
  | nil => exact List.Perm.refl _
  | cons group later ih =>
    obtain ⟨first, members⟩ := group
    rw [insertMember]
    split
    case isTrue =>
      rw [flatMap_cons, flatMap_cons, append_assoc]
      exact perm_middle
    case isFalse =>
      rw [flatMap_cons, flatMap_cons]
      exact (ih.append_left members).trans perm_middle

/-- A group is one that was there, or it has the new member behind those of its identifier. -/
theorem mem_insertMember (group_mem : group ∈ insertMember groups identifier member) :
    group ∈ groups ∨ group.1 = identifier ∧ ∃ earlier, group.2 = earlier ++ [member]
      ∧ (earlier = [] ∨ (identifier, earlier) ∈ groups) := by
  induction groups with
  | nil =>
    obtain rfl := mem_singleton.mp group_mem
    exact Or.inr ⟨rfl, [], rfl, Or.inl rfl⟩
  | cons head later ih =>
    obtain ⟨first, members⟩ := head
    rw [insertMember] at group_mem
    split at group_mem
    case isTrue same =>
      rcases mem_cons.mp group_mem with rfl | in_later
      · exact Or.inr ⟨same, members, rfl, Or.inr (same ▸ mem_cons_self)⟩
      · exact Or.inl (mem_cons_of_mem _ in_later)
    case isFalse =>
      rcases mem_cons.mp group_mem with rfl | in_later
      · exact Or.inl mem_cons_self
      · rcases ih in_later with was_there | ⟨same, earlier, members_eq, earlier_mem⟩
        · exact Or.inl (mem_cons_of_mem _ was_there)
        · exact Or.inr ⟨same, earlier, members_eq, earlier_mem.imp_right (mem_cons_of_mem _)⟩

/-- The groups have the members that were inserted, each with its identifier. -/
structure Groups (identified : List (ℕ × ℕ)) (groups : List (ℕ × List ℕ)) : Prop where
  perm : (groups.flatMap (·.2)).Perm (identified.map (·.2))
  inhabited : ∀ group ∈ groups, group.2 ≠ []
  identified : ∀ group ∈ groups, ∀ member ∈ group.2, (group.1, member) ∈ identified

theorem Groups.insert {identified : List (ℕ × ℕ)} (grouped : Groups identified groups) (entry : ℕ × ℕ) :
    Groups (identified ++ [entry]) (insertMember groups entry.1 entry.2) := by
  refine ⟨?_, fun group group_mem => ?_, fun group group_mem member member_mem => ?_⟩
  · refine (insertMember_perm groups entry.1 entry.2).trans ((grouped.perm.cons _).trans ?_)
    rw [map_append]
    exact (perm_append_singleton _ _).symm
  · rcases mem_insertMember group_mem with was_there | ⟨_, earlier, members_eq, _⟩
    · exact grouped.inhabited group was_there
    · rw [members_eq]
      exact append_ne_nil_of_right_ne_nil _ (cons_ne_nil _ _)
  · rcases mem_insertMember group_mem with was_there | ⟨same, earlier, members_eq, earlier_mem⟩
    · exact mem_append_left _ (grouped.identified group was_there member member_mem)
    · rw [members_eq] at member_mem
      rcases mem_append.mp member_mem with in_earlier | is_new
      · rcases earlier_mem with rfl | earlier_mem
        · cases in_earlier
        · rw [same]
          exact mem_append_left _ (grouped.identified _ earlier_mem member in_earlier)
      · rw [same, mem_singleton.mp is_new]
        exact mem_append_right _ mem_cons_self

theorem groups_foldl (identified : List (ℕ × ℕ)) :
    Groups identified (identified.foldl (fun groups entry => insertMember groups entry.1 entry.2) []) := by
  have grown : ∀ (entries earlier : List (ℕ × ℕ)) (groups : List (ℕ × List ℕ)), Groups earlier groups →
      Groups (earlier ++ entries) (entries.foldl (fun groups entry => insertMember groups entry.1 entry.2) groups) := by
    intro entries
    induction entries with
    | nil =>
      intro earlier groups grouped
      rwa [append_nil]
    | cons entry later ih =>
      intro earlier groups grouped
      have inserted := ih _ _ (grouped.insert entry)
      rwa [append_assoc, singleton_append] at inserted
  exact grown identified [] [] ⟨List.Perm.refl _, by simp, by simp⟩

/-! ### One level -/

/-- Statements that share all bands before a level, and have as many. -/
structure Active (statements : List StatementSchedule) (level start : ℕ) (members : List ℕ) : Prop where
  once : members.Nodup
  inside : ∀ member ∈ members, member < statements.length
  level_le : ∀ member ∈ members, level ≤ (memberAt statements member).bandCount
  start : ∀ member ∈ members, (memberAt statements member).bandStart level = start
  ids : ∀ a ∈ members, ∀ b ∈ members, ∀ earlier < level,
    (memberAt statements a).bandIds[earlier]? = (memberAt statements b).bandIds[earlier]?

theorem mapOf_eq {rows : BandRows} (ofMember : ℕ → TimeMap) (maps_eq : rows.partialMaps = rows.members.map ofMember)
    (member_mem : member ∈ rows.members) : rows.mapOf member = some (ofMember member) := by
  rw [BandRows.mapOf, maps_eq]
  generalize rows.members = members at member_mem
  induction members with
  | nil => cases member_mem
  | cons first later ih =>
    rw [map_cons, zip_cons_cons, lookup_cons]
    by_cases same : member = first
    · simp [same]
    · have in_later := (mem_cons.mp member_mem).resolve_left same
      rw [beq_eq_false_iff_ne.mpr same]
      exact ih in_later

theorem mapOf_eq_none {rows : BandRows} (not_mem : member ∉ rows.members) : rows.mapOf member = none := by
  rw [BandRows.mapOf, lookup_eq_none_iff]
  rintro ⟨other, map⟩ entry_mem
  simp only [bne_iff_ne]
  rintro rfl
  exact not_mem (of_mem_zip entry_mem).1

/-- The statements with a band on a level, each behind the identifier of this band. -/
def identifiedAt (statements : List StatementSchedule) (level : ℕ) (members : List ℕ) : List (ℕ × ℕ) :=
  (members.filter fun member => level < (memberAt statements member).bandCount).map fun member =>
    ((memberAt statements member).bandIds.getD level 0, member)

theorem identified_members (statements : List StatementSchedule) (level : ℕ) (members : List ℕ) :
    (identifiedAt statements level members).map (·.2)
      = members.filter fun member => level < (memberAt statements member).bandCount := by
  rw [identifiedAt, map_map]
  exact map_id _

theorem headD_mem {group : List ℕ} (nonempty : group ≠ []) : group.headD 0 ∈ group := by
  cases group with
  | nil => exact absurd rfl nonempty
  | cons first later => exact mem_cons_self

/-- The members of a group share the band on its level. -/
theorem Active.of_group {schedule : Schedule} (banded : schedule.Banded) {start : ℕ} {members group : List ℕ}
    (active : Active schedule.statements level start members) (once : group.Nodup) (subset : group ⊆ members)
    (continues : ∀ member ∈ group, (memberAt schedule.statements member).bandIds[level]? = some identifier) :
    Active schedule.statements (level + 1) ((memberAt schedule.statements (group.headD 0)).bandStop level) group := by
  have inside : ∀ member ∈ group, member < schedule.statements.length := fun member member_mem =>
    active.inside member (subset member_mem)
  have level_lt : ∀ member ∈ group, level < (memberAt schedule.statements member).bandCount := by
    intro member member_mem
    have in_ids := (List.getElem?_eq_some_iff.mp (continues member member_mem)).1
    rwa [(banded.statements _ (memberAt_mem (inside member member_mem))).ids] at in_ids
  have ids : ∀ a ∈ group, ∀ b ∈ group, ∀ earlier < level + 1,
      (memberAt schedule.statements a).bandIds[earlier]? = (memberAt schedule.statements b).bandIds[earlier]? := by
    intro a a_mem b b_mem earlier earlier_lt
    rcases Nat.lt_succ_iff_lt_or_eq.mp earlier_lt with before | rfl
    · exact active.ids a (subset a_mem) b (subset b_mem) earlier before
    · rw [continues a a_mem, continues b b_mem]
  refine ⟨once, inside, level_lt, fun member member_mem => ?_, ids⟩
  have first_mem := headD_mem (ne_nil_of_mem member_mem)
  have shared := banded.shares _ (memberAt_mem (inside member member_mem)) _ (memberAt_mem (inside _ first_mem)) level
    (level_lt member member_mem) (level_lt _ first_mem)
    fun earlier earlier_le => ids member member_mem _ first_mem earlier (Nat.lt_succ_of_le earlier_le)
  rw [StatementSchedule.bandStart_succ]
  exact shared.1

section Level

variable {schedule : Schedule} (banded : schedule.Banded) {start stop : ℕ}
include banded

theorem placeholder_fits (inside : member < schedule.statements.length)
    (finished : (memberAt schedule.statements member).bandCount = level)
    (start_eq : (memberAt schedule.statements member).bandStart level = start) :
    ∃ band, placeholder (memberAt schedule.statements member) member = .ok band
      ∧ Heads schedule.statements level start [member] band := by
  have statement_banded := banded.statements _ (memberAt_mem inside)
  have last_eq : (memberAt schedule.statements member).bandEnds.getLastD 0 = start := by
    rw [← StatementSchedule.bandStart_bandCount, finished, start_eq]
  have start_le := statement_banded.bandStart_le level
  rw [start_eq, ← statement_banded.outputs] at start_le
  refine ⟨node ⟨[member], start, 0, [], [(memberAt schedule.statements member).map.between start start]⟩ [], ?_, rfl, rfl,
    .intro ⟨nodup_singleton member, ?_, ?_, ?_, ?_, ?_⟩ ?_⟩
  · rw [placeholder, last_eq]
    exact bind_ok.mpr ⟨_, TimeMap.slice_ok le_rfl start_le, rfl⟩
  · exact forall_mem_singleton.mpr inside
  · refine forall_mem_singleton.mpr ⟨finished.ge, start_eq, fun _ => finished, fun real => ?_, ?_⟩
    · cases real
    · simp [BandRows.mapOf, BandRows.stop, rows]
  · exact fun _ => forall_mem_singleton.mpr (finished.le.trans (Nat.le_succ level))
  · exact fun has_children => absurd rfl has_children
  · exact fun _ impossible => absurd impossible not_mem_nil
  · exact fun _ impossible => absurd impossible not_mem_nil

theorem sharedRows_shows {group : List ℕ} (nonempty : group ≠ [])
    (next : Active schedule.statements (level + 1) ((memberAt schedule.statements (group.headD 0)).bandStop level) group)
    (start_eq : ∀ member ∈ group, (memberAt schedule.statements member).bandStart level = start) :
    ∃ rows, sharedRows schedule.statements level group = .ok rows ∧ rows.members = group ∧ rows.start = start
      ∧ rows.stop = (memberAt schedule.statements (group.headD 0)).bandStop level
      ∧ ∀ member ∈ group, ShowsAt rows level member (memberAt schedule.statements member) := by
  have first_mem := headD_mem nonempty
  have first_lt := next.inside _ first_mem
  have first_banded := banded.statements _ (memberAt_mem first_lt)
  have first_start := start_eq _ first_mem
  have start_lt := first_banded.nonempty level (next.level_le _ first_mem)
  have stop_le := first_banded.stop_le level
  rw [first_start] at start_lt
  generalize stop_eq : (memberAt schedule.statements (group.headD 0)).bandStop level = stop at next start_lt stop_le ⊢
  have lookup_ok : ∀ member ∈ group, Checked.ofOption schedule.statements[member]?
      = .ok (memberAt schedule.statements member) := fun member member_mem =>
    ofOption_ok.mpr (getElem?_memberAt (next.inside member member_mem))
  have maps_ok : (group.mapM fun member => do
      (← Checked.ofOption schedule.statements[member]?).map.slice start stop)
        = .ok (group.map fun member => (memberAt schedule.statements member).map.between start stop) := by
    refine mapM_ok_map fun member member_mem => bind_ok.mpr ⟨_, lookup_ok member member_mem, ?_⟩
    have outputs_eq := (banded.statements _ (memberAt_mem (next.inside member member_mem))).outputs
    exact TimeMap.slice_ok start_lt.le (outputs_eq ▸ stop_le)
  refine ⟨⟨group, start, stop - start, ((memberAt schedule.statements (group.headD 0)).coincident.take stop).drop start,
    group.map fun member => (memberAt schedule.statements member).map.between start stop⟩, ?_, rfl, rfl,
    Nat.add_sub_of_le start_lt.le, fun member member_mem => ?_⟩
  · refine bind_ok.mpr ⟨_, lookup_ok _ first_mem, ?_⟩
    dsimp only
    rw [first_start, stop_eq]
    refine bind_ok.mpr ⟨_, maps_ok, bind_ok.mpr ⟨(), require_ok.mpr ?_, rfl⟩⟩
    rwa [first_banded.flags]
  · have stop_sum : start + (stop - start) = stop := Nat.add_sub_of_le start_lt.le
    have member_lt : level < (memberAt schedule.statements member).bandCount := next.level_le member member_mem
    have member_stop : (memberAt schedule.statements member).bandStop level = stop := next.start member member_mem
    refine ⟨member_lt.le, start_eq member member_mem, fun is_placeholder => ?_, fun _ => ⟨member_lt, ?_, ?_⟩, ?_⟩
    · have no_rows : stop - start = 0 := by simpa [BandRows.isPlaceholder] using is_placeholder
      omega
    · rw [BandRows.stop, stop_sum, member_stop]
    · have shared := banded.shares _ (memberAt_mem (next.inside member member_mem)) _ (memberAt_mem first_lt) level member_lt
        (next.level_le _ first_mem)
        fun earlier earlier_le => next.ids member member_mem _ first_mem earlier (Nat.lt_succ_of_le earlier_le)
      have flags_eq := shared.2
      rw [member_stop, stop_eq] at flags_eq
      rw [BandRows.stop, stop_sum]
      exact congrArg (List.drop start) flags_eq
    · rw [BandRows.stop, stop_sum]
      exact mapOf_eq (fun other => (memberAt schedule.statements other).map.between start stop) rfl member_mem

variable {members : List ℕ}

theorem group_fits (levels : ℕ) (enclosing : List (ℕ × ℕ)) (active : Active schedule.statements level start members)
    (once : group.2.Nodup) (subset : group.2 ⊆ members) (nonempty : group.2 ≠ [])
    (continues : ∀ member ∈ group.2, (memberAt schedule.statements member).bandIds[level]? = some group.1)
    (below : ∀ stop enclosing, Active schedule.statements (level + 1) stop group.2 →
      ∃ bands, bandsAt schedule.statements levels (level + 1) group.2 enclosing = .ok bands
        ∧ Describes schedule.statements (level + 1) stop group.2 bands) : ∃ band, (do
        let rows ← sharedRows schedule.statements level group.2
        let shared := (members.map fun member => (member, memberAt schedule.statements member)).filter
          fun (entry : ℕ × StatementSchedule) => group.2.contains entry.1
        if shared.any fun (entry : ℕ × StatementSchedule) => level + 1 < entry.2.bandCount then
          let nested ← bandsAt schedule.statements levels (level + 1) group.2 (enclosing ++ [(rows.start, rows.length)])
          return node rows nested
        else return node rows []) = .ok band
      ∧ Heads schedule.statements level start group.2 band := by
  have next := active.of_group banded once subset continues
  obtain ⟨rows, rows_ok, members_eq, rows_start, rows_stop, shows_at⟩ :=
    sharedRows_shows banded nonempty next fun member member_mem => active.start member (subset member_mem)
  rw [← members_eq] at shows_at
  by_cases any_left : ((members.map fun member => (member, memberAt schedule.statements member)).filter
      fun (entry : ℕ × StatementSchedule) => group.2.contains entry.1).any (fun entry => level + 1 < entry.2.bandCount) = true
  · obtain ⟨nested, nested_ok, describes⟩ := below _ (enclosing ++ [(rows.start, rows.length)]) next
    refine ⟨node rows nested, ?_, members_eq, rows_start, .intro ⟨?_, ?_, shows_at, ?_, ?_, ?_⟩ describes.down⟩
    · refine bind_ok.mpr ⟨rows, rows_ok, ?_⟩
      dsimp only
      rw [if_pos any_left]
      exact bind_ok.mpr ⟨nested, nested_ok, rfl⟩
    · exact members_eq ▸ once
    · exact members_eq ▸ next.inside
    · intro no_children
      obtain rfl : nested = [] := no_children
      exact absurd (nil_perm.mp describes.perm) nonempty
    · exact fun _ => members_eq ▸ describes.partitions once
    · exact fun child child_mem => (describes.starts child child_mem).trans rows_stop.symm
  · refine ⟨node rows [], ?_, members_eq, rows_start, .intro ⟨?_, ?_, shows_at, fun _ => ?_, ?_, ?_⟩ ?_⟩
    · refine bind_ok.mpr ⟨rows, rows_ok, ?_⟩
      dsimp only
      rw [if_neg any_left]
      rfl
    · exact members_eq ▸ once
    · exact members_eq ▸ next.inside
    · intro member member_mem
      rw [show (node rows []).rows.members = group.2 from members_eq] at member_mem
      by_contra continuing
      refine any_left (any_eq_true.mpr ⟨(member, memberAt schedule.statements member), ?_, ?_⟩)
      · rw [mem_filter]
        exact ⟨mem_map_of_mem (subset member_mem), by simpa using member_mem⟩
      · simpa using continuing
    · exact fun has_children => absurd rfl has_children
    · exact fun _ impossible => absurd impossible not_mem_nil
    · exact fun _ impossible => absurd impossible not_mem_nil

theorem placeholders_fit (active : Active schedule.statements level start members) :
    ∃ bands, ((members.map fun member => (member, memberAt schedule.statements member)).filter
        fun entry => entry.2.bandCount ≤ level).mapM (fun entry => placeholder entry.2 entry.1) = .ok bands
      ∧ Forall₂ (Heads schedule.statements level start)
        ((members.filter fun member => (memberAt schedule.statements member).bandCount ≤ level).map ([·])) bands := by
  have each : ∀ member ∈ members.filter fun member => (memberAt schedule.statements member).bandCount ≤ level,
      ∃ band, placeholder (memberAt schedule.statements member) member = .ok band
        ∧ Heads schedule.statements level start [member] band := by
    intro member filtered
    obtain ⟨member_mem, finished⟩ := mem_filter.mp filtered
    have count_eq := le_antisymm (of_decide_eq_true finished) (active.level_le member member_mem)
    exact placeholder_fits banded (active.inside member member_mem) count_eq (active.start member member_mem)
  obtain ⟨bands, bands_ok, heads⟩ := exists_mapM_ok each
  refine ⟨bands, ?_, forall₂_map_left_iff.mpr heads⟩
  rw [filter_map, mapM_map]
  exact bands_ok

omit banded in
theorem of_mem_identifiedAt {entry : ℕ × ℕ} (entry_mem : entry ∈ identifiedAt schedule.statements level members) :
    entry.2 ∈ members ∧ level < (memberAt schedule.statements entry.2).bandCount
      ∧ entry.1 = (memberAt schedule.statements entry.2).bandIds.getD level 0 := by
  obtain ⟨member, filtered, rfl⟩ := mem_map.mp entry_mem
  obtain ⟨member_mem, continuing⟩ := mem_filter.mp filtered
  exact ⟨member_mem, of_decide_eq_true continuing, rfl⟩

theorem getElem?_bandIds (inside : member < schedule.statements.length)
    (continuing : level < (memberAt schedule.statements member).bandCount) :
    (memberAt schedule.statements member).bandIds[level]? = some ((memberAt schedule.statements member).bandIds.getD level 0) := by
  rw [← (banded.statements _ (memberAt_mem inside)).ids] at continuing
  rw [getD_eq_getElem?_getD, getElem?_eq_getElem continuing]
  rfl

theorem identified_ok (active : Active schedule.statements level start members) :
    ((members.map fun member => (member, memberAt schedule.statements member)).filter
        fun entry => level < entry.2.bandCount).mapM
      (fun entry => do return (← Checked.ofOption entry.2.bandIds[level]?, entry.1))
        = .ok (identifiedAt schedule.statements level members) := by
  rw [filter_map, mapM_map]
  refine mapM_ok_map fun member filtered => bind_ok.mpr ⟨_, ofOption_ok.mpr ?_, rfl⟩
  obtain ⟨member_mem, continuing⟩ := mem_filter.mp filtered
  exact getElem?_bandIds banded (active.inside member member_mem) (of_decide_eq_true continuing)

/-- The bands of statements that share all bands before a level. -/
theorem describes_of_bandsAt {levels : ℕ} {enclosing : List (ℕ × ℕ)} (active : Active schedule.statements level start members)
    (enough : ∀ member ∈ members, (memberAt schedule.statements member).bandCount < levels + level) :
    ∃ bands, bandsAt schedule.statements levels level members enclosing = .ok bands
      ∧ Describes schedule.statements level start members bands := by
  induction levels generalizing level start members enclosing with
  | zero =>
    obtain rfl : members = [] := by
      refine eq_nil_iff_forall_not_mem.mpr fun member member_mem => ?_
      have too_many := enough member member_mem
      have level_le := active.level_le member member_mem
      omega
    exact ⟨[], rfl, by simp, List.Perm.refl _, by simp, by simp⟩
  | succ levels ih =>
    have entries_ok : (members.mapM fun index => do
        return (index, ← Checked.ofOption schedule.statements[index]?))
          = .ok (members.map fun member => (member, memberAt schedule.statements member)) := by
      refine mapM_ok_map fun member member_mem => bind_ok.mpr ⟨_, ?_, rfl⟩
      exact ofOption_ok.mpr (getElem?_memberAt (active.inside member member_mem))
    obtain ⟨placeholders, placeholders_ok, placeholders_head⟩ := placeholders_fit banded active
    have grouped := groups_foldl (identifiedAt schedule.statements level members)
    have grouped_perm := grouped.perm
    rw [identified_members] at grouped_perm
    have groups_once : (List.flatMap Prod.snd _).Nodup := grouped_perm.nodup_iff.mpr (active.once.filter _)
    obtain ⟨shared, shared_ok, shared_head⟩ := exists_mapM_ok fun group group_mem => by
      have of_group := fun member member_mem => of_mem_identifiedAt (grouped.identified group group_mem member member_mem)
      refine group_fits banded levels enclosing active ((nodup_flatMap.mp groups_once).1 group group_mem)
        (fun member member_mem => (of_group member member_mem).1) (grouped.inhabited group group_mem) ?_ ?_
      · intro member member_mem
        obtain ⟨in_members, continuing, identifier_eq⟩ := of_group member member_mem
        rw [identifier_eq]
        exact getElem?_bandIds banded (active.inside member in_members) continuing
      · intro stop inner next
        refine ih next fun member member_mem => ?_
        have few := enough member (of_group member member_mem).1
        omega
    have heads := rel_append placeholders_head (forall₂_map_left_iff.mpr shared_head)
    refine ⟨sortSiblings schedule.statements enclosing (placeholders ++ shared), ?_,
      (describes_of_heads heads ?_ ?_).of_perm (sortSiblings_perm _ _ _)⟩
    · rw [bandsAt]
      exact bind_ok.mpr ⟨_, entries_ok, bind_ok.mpr ⟨_, placeholders_ok,
        bind_ok.mpr ⟨_, identified_ok banded active, bind_ok.mpr ⟨_, shared_ok, rfl⟩⟩⟩⟩
    · intro list list_mem
      rcases mem_append.mp list_mem with of_placeholder | of_group
      · obtain ⟨member, _, rfl⟩ := mem_map.mp of_placeholder
        exact cons_ne_nil _ _
      · obtain ⟨group, group_mem, rfl⟩ := mem_map.mp of_group
        exact grouped.inhabited group group_mem
    · have singles : ∀ list : List ℕ, (list.map ([·])).flatten = list := by
        intro list
        rw [← flatMap_def, flatMap_singleton']
      have continuing_eq : members.filter (fun member => level < (memberAt schedule.statements member).bandCount)
          = members.filter fun member => !decide ((memberAt schedule.statements member).bandCount ≤ level) := by
        apply filter_congr
        intro member _
        rw [← decide_not, decide_eq_decide, Nat.not_le]
      rw [flatten_append, singles, ← flatMap_def]
      refine (grouped_perm.append_left _).trans ?_
      rw [continuing_eq]
      exact filter_append_perm _ members

end Level

end Band

/-! ### Results -/

/-- Every schedule with its rows in bands has a forest. -/
theorem Schedule.exists_forest {schedule : Schedule} (banded : schedule.Banded) : ∃ bands, schedule.forest = .ok bands
      ∧ Band.Describes schedule.statements 0 0 (List.range schedule.statements.length) bands := by
  refine Band.describes_of_bandsAt banded ⟨nodup_range, fun member => mem_range.mp, fun _ _ => Nat.zero_le _,
    fun _ _ => rfl, fun _ _ _ _ _ impossible => absurd impossible (Nat.not_lt_zero _)⟩ fun member member_mem => ?_
  exact Nat.lt_succ_of_le (le_foldl_max _ (memberAt_mem (mem_range.mp member_mem)))

namespace SchedulingProblem

variable {problem : SchedulingProblem} {options : Options} {schedule : Schedule}

/-- The bands of every computed schedule form a forest. Its roots divide the statements, and the children of a band divide
    its members and start where it stops. The members of a band with rows have these rows and flags in their own band at
    this depth. -/
theorem forest_partitions (done : problem.schedule options = .ok schedule) :
    ∃ bands, schedule.forest = .ok bands ∧ Band.Partitions bands (List.range schedule.statements.length)
      ∧ ∀ depth band, Band.At depth bands band → (band.children ≠ [] → Band.Partitions band.children band.rows.members)
        ∧ (∀ child ∈ band.children, child.rows.start = band.rows.stop)
        ∧ (band.rows.isPlaceholder = false → ∀ member ∈ band.rows.members, ∃ statement,
            schedule.statements[member]? = some statement ∧ depth < statement.bandCount
              ∧ statement.bandStart depth = band.rows.start ∧ statement.bandStop depth = band.rows.stop
              ∧ (statement.coincident.take band.rows.stop).drop band.rows.start = band.rows.coincident) := by
  obtain ⟨bands, bands_ok, describes⟩ := Schedule.exists_forest (banded_of_schedule done)
  refine ⟨bands, bands_ok, describes.partitions List.nodup_range, fun depth band at_depth => ?_⟩
  have fits := Band.FitsDown.fits_at describes.down at_depth
  rw [Nat.zero_add] at fits
  refine ⟨fits.parts, fits.starts, fun has_rows member member_mem => ?_⟩
  have shows_at := fits.shows_at member member_mem
  obtain ⟨depth_lt, stop_eq, flags_eq⟩ := shows_at.continues has_rows
  exact ⟨_, getElem?_memberAt (fits.inside member member_mem), depth_lt, shows_at.start, stop_eq, flags_eq⟩

/-- The line and its copy share all bands. -/
theorem forest_partitions_copiedLine : copiedLine.schedule {} = .ok copiedLineSchedule
    ∧ ∃ bands, copiedLineSchedule.forest = .ok bands ∧ Band.Partitions bands [0, 1] := by
  obtain ⟨bands, bands_ok, partitions, _⟩ := forest_partitions copiedLine_schedule
  exact ⟨copiedLine_schedule, bands, bands_ok, partitions⟩

end SchedulingProblem

end AffineSchedule
