import AffineSchedule.Proofs.Construction.Termination

namespace AffineSchedule

open Checked AffineSchedule.Graph

variable {scope : Scope}

/-! ### Steps that are cut short -/

section Cuts

variable {fault : Fault} {nested other : NestedStep} {options : Options} {state : Construction}

/-- A nested step answers as another one does, or with the fault. -/
def NestedStep.Cuts (fault : Fault) (nested other : NestedStep) : Prop :=
  ∀ scope state, Checked.Cuts (· = fault) (nested scope state) (other scope state)

variable (cuts : nested.Cuts fault other)
include cuts

theorem cuts_continueBands : Cuts (· = fault) (continueBands nested state) (continueBands other state) :=
  .bind (.refl _) fun _ => cuts _ _

theorem cuts_constructPart {filter : ComponentFilter} :
    Cuts (· = fault) (constructPart nested scope state filter) (constructPart other scope state filter) :=
  .bind (.refl _) fun _ => .bind (cuts _ _) fun _ => .refl _

theorem cuts_constructComponents {start : BandCounters} (components : List ℕ) :
    Cuts (· = fault) (constructComponents nested start components state) (constructComponents other start components state) := by
  induction components generalizing state with
  | nil => exact .refl _
  | cons component later ih => exact .bind (cuts_constructPart cuts) fun _ => ih

theorem cuts_separateComponents {forced : Bool} :
    Cuts (· = fault) (separateComponents nested options forced state) (separateComponents other options forced state) := by
  rw [separateComponents_eq_bind nested, separateComponents_eq_bind other]
  exact .bind (.refl _) fun _ => .bind (.refl _) fun _ => .bind (cuts_constructComponents cuts _) fun _ => .refl _

theorem cuts_splitAfter : Cuts (· = fault) (splitAfter nested state) (splitAfter other state) := by
  rw [splitAfter, splitAfter]
  split
  · exact .bind (.refl _) fun _ => .bind (.refl _) fun _ => .bind (.refl _) fun _ => .bind (cuts_constructPart cuts) fun _ =>
      .bind (cuts_constructPart cuts) fun _ => .refl _
  · exact .refl _

theorem cuts_carryDependences :
    Cuts (· = fault) (carryDependences nested options state) (carryDependences other options state) := by
  refine .bind (.refl _) fun carrying => ?_
  dsimp only
  split
  · split
    · exact cuts_separateComponents cuts
    · exact .refl _
  · refine .bind (.refl _) fun appended => ?_
    split
    · exact .bind (.refl _) fun _ => cuts_continueBands cuts
    · exact cuts_continueBands cuts

theorem cuts_resolveStuck : Cuts (· = fault) (resolveStuck nested options state) (resolveStuck other options state) := by
  simp only [resolveStuck]
  split
  · exact cuts_continueBands cuts
  split
  · exact cuts_splitAfter cuts
  split
  · exact cuts_continueBands cuts
  · exact cuts_carryDependences cuts

theorem cuts_constructConnected :
    Cuts (· = fault) (constructConnected nested options state) (constructConnected other options state) := by
  refine .bind (.refl _) fun graph => ?_
  split
  · exact cuts_carryDependences cuts
  · refine .bind (.refl _) fun ⟨bandEnd, filled⟩ => ?_
    cases bandEnd with
    | complete => exact .refl _
    | stuck => exact cuts_resolveStuck cuts

/-- A nested step that is cut short cuts short the step on top of it, where it is called. -/
theorem constructStep_cuts : NestedStep.Cuts fault (constructStep nested options) (constructStep other options) := by
  intro scope state
  cases scope with
  | connected => exact cuts_constructConnected cuts
  | whole =>
    simp only [constructStep]
    split <;> split
    · exact cuts_separateComponents cuts
    · exact cuts_constructConnected cuts
    · exact cuts_separateComponents cuts
    · exact cuts_constructConnected cuts

end Cuts

theorem construct_cuts (options : Options) (depth more : ℕ) :
    NestedStep.Cuts (.unfinished .bands) (construct options depth) (construct options (depth + more)) := by
  induction depth with
  | zero => exact fun _ _ => Or.inr ⟨_, rfl, rfl⟩
  | succ depth ih =>
    rw [Nat.succ_add]
    exact constructStep_cuts ih

/-! ### States that are entered -/

/-- A nested step with another answer for one state. -/
def NestedStep.answering (nested : NestedStep) (scope : Scope) (state : Construction) (answer : Checked Construction) :
    NestedStep := fun asked given => if asked = scope ∧ given = state then answer else nested asked given

/-- A step on top of nested ones enters a state: with another answer for it the step would deliver something else. As a
    fault of a nested step stops the step, this holds of every state that a nested step is called with. -/
def NestedStep.Consults (nested : NestedStep) (step : NestedStep → Checked Construction) (scope : Scope)
    (state : Construction) : Prop := ∃ answer, step (nested.answering scope state answer) ≠ step nested

/-- The graph whose components a step tells apart first. -/
def Graph.separated (graph : Graph) (options : Options) : Graph :=
  match options.fuse with
  | .minimal => graph.detectStrong
  | .maximal => graph.detectWeak

/-- The states that the construction of a graph enters, with the nesting that is left. A graph with one component is
    passed on to be constructed as a connected one. -/
inductive Entered (options : Options) (start : Graph) : ℕ → Scope → Construction → Prop
  | root : Entered options start start.nesting .whole { graph := start, cache := ConeCache.empty }
  | passed {depth : ℕ} {state : Construction} (entered : Entered options start depth .whole state)
      (connected : (state.graph.separated options).componentCount ≤ 1) :
      Entered options start depth .connected { state with graph := state.graph.separated options }
  | nested {depth : ℕ} {scope asked : Scope} {state given : Construction}
      (entered : Entered options start (depth + 1) scope state)
      (consults : (construct options depth).Consults (fun nested => constructStep nested options scope state) asked given) :
      Entered options start depth asked given

/-- A fault that a step is given in a state that it enters stops the step. -/
theorem NestedStep.Consults.stops {nested : NestedStep} {options : Options} {asked : Scope} {state given : Construction}
    (consults : nested.Consults (fun nested => constructStep nested options scope state) asked given) (fault : Fault) :
    constructStep (nested.answering asked given (.error fault)) options scope state = .error fault := by
  obtain ⟨answer, different⟩ := consults
  have cuts : ∀ answer, (nested.answering asked given (.error fault)).Cuts fault (nested.answering asked given answer) := by
    intro answer other_scope other
    by_cases here : other_scope = asked ∧ other = given
    · exact Or.inr ⟨fault, rfl, if_pos here⟩
    · exact Or.inl ((if_neg here).trans (if_neg here).symm)
  have same : nested.answering asked given (nested asked given) = nested := by
    funext other_scope other
    by_cases here : other_scope = asked ∧ other = given
    · obtain ⟨rfl, rfl⟩ := here
      exact if_pos ⟨rfl, rfl⟩
    · exact if_neg here
  rcases constructStep_cuts (cuts answer) scope state with changed | ⟨_, rfl, stopped⟩
  · rcases constructStep_cuts (cuts (nested asked given)) scope state with unchanged | ⟨_, rfl, stopped⟩
    · rw [same] at unchanged
      exact absurd (changed.symm.trans unchanged) different
    · exact stopped
  · exact stopped

theorem sameBooks_separated (graph : Graph) (options : Options) :
    (graph.separated options).SameBooks graph := by
  unfold separated
  cases options.fuse with
  | minimal => exact sameBooks_assign
  | maximal => exact sameBooks_assign

theorem sameEdges_separated (graph : Graph) (options : Options) :
    graph.SameEdges (graph.separated options) := by
  unfold separated
  split <;> rfl

/-- Every graph that is entered is orderly, with a table of its edges, and leaves less to do than the nesting that is left. -/
theorem orderly_of_entered {options : Options} {start : Graph} (orderly : start.Orderly)
    (tabled : start.Tabled) {depth : ℕ} {state : Construction} (entered : Entered options start depth scope state) :
    state.graph.Orderly ∧ state.graph.Tabled ∧ state.graph.allowance < depth := by
  induction entered with
  | root => exact ⟨orderly, tabled, start.allowance_lt_nesting⟩
  | @passed depth state _ _ ih =>
    have same := sameBooks_separated state.graph options
    exact ⟨ih.1.of_sameBooks same, ih.2.1.of_sameEdges (sameEdges_separated state.graph options), same.allowance_eq.trans_lt ih.2.2⟩
  | @nested depth scope asked state given _ consults ih =>
    by_contra unlike
    -- A fault in this state only would not be noticed where the graphs are orderly and small enough.
    have ends : ((construct options depth).answering asked given (.error (.unfinished .bands))).Ends depth := by
      intro other_scope other other_orderly other_tabled other_less
      have elsewhere : ¬(other_scope = asked ∧ other = given) := by
        rintro ⟨_, rfl⟩
        exact unlike ⟨other_orderly, other_tabled, other_less⟩
      rw [NestedStep.answering, if_neg elsewhere]
      exact construct_ends options depth other_scope other other_orderly other_tabled other_less
    exact ((constructStep_ends ends scope state ih.1 ih.2.1 ih.2.2).faults _ (consults.stops (.unfinished .bands))).2 rfl

namespace Graph

variable {params : List String} {domains : List Domain} {relations : List (Kind × List Relation)}
  {graph : Graph}

/-! ### Two lines -/

/-- A line without rows. -/
def freshLine (name : String) : Node :=
  { space := Space.named name 1
    schedule := RowMatrix.zeros 0 2
    rank := 0
    basis := RowMatrix.identity 1
    coordinates := RowMatrix.identity 1
    firstColumn := 0
    component := 0
    bands := []
    bandIds := []
    coincident := [] }

/-- Two lines, each a component of its own. -/
def twoLines : Graph :=
  { params := []
    nodes := [freshLine "S", freshLine "T"]
    edges := []
    edgeTable := []
    sorted := [0, 1]
    rowsNeeded := 1
    componentCount := 0
    conflict := none
    counters := { rows := 0, totalRows := 0, band := 0, bandStart := 0, maxRows := 4 } }

theorem twoLines_built : build [] [.unconstrained (Space.named "S" 1), .unconstrained (Space.named "T" 1)] [] = .ok twoLines := by
  apply Checked.ok_of_toOption
  decide +kernel

/-! ### A plane -/

/-- The dependences of a plane that is ordered along its second dimension. -/
def planeSteps : List Relation :=
  let plane := Domain.unconstrained (Space.named "S" 2)
  (Relation.translation plane plane [0, 1]).toOption.toList

def steppedPlane : Graph :=
  (build [] [.unconstrained (Space.named "S" 2)] [(.validity, planeSteps)]).toOption.get (by decide +kernel)

/-- The plane behind a row that carries its dependences, with the cones that were computed for them. -/
def carriedPlane : Construction where
  graph := { steppedPlane with
    nodes := steppedPlane.nodes.map fun node => { node with
      schedule := ⟨3, [[0, 0, 1]], by decide⟩
      rank := 1
      basis := ⟨2, [[0, 1], [1, 0]], by decide⟩
      coordinates := ⟨2, [[0, 1], [1, 0]], by decide⟩
      firstColumn := 4
      bands := [some 0]
      coincident := [false] }
    edges := []
    edgeTable := []
    rowsNeeded := 2
    componentCount := 1
    counters := { rows := 1, totalRows := 1, band := 1, bandStart := 1, maxRows := 5 } }
  cache :=
    let cones := planeSteps.flatMap fun relation => relation.disjuncts.map (ConeCache.empty.get .distance)
    ⟨cones.flatMap fun cone => (cone.toOption.map (·.2.entries)).getD []⟩

theorem carriedPlane_entered : Entered { algorithm := .carrying } steppedPlane 7 .whole carriedPlane := by
  have nesting_eq : steppedPlane.nesting = 7 + 1 := by decide +kernel
  have first : Entered { algorithm := .carrying } steppedPlane (7 + 1) .whole ⟨steppedPlane, ConeCache.empty⟩ :=
    nesting_eq ▸ .root
  refine first.nested ⟨.error .overflow, fun same => ?_⟩
  have both_delivered := congrArg (fun delivered => delivered.toOption.isSome) same
  revert both_delivered
  decide +kernel

/-! ### Results -/

/-- Whenever the construction of a built graph enters a step, every node has the rows that are counted, all of them before
    the current band, in bands numbered without gaps; its rank, its basis and the inverse of the basis belong to its
    rows. Whenever it leaves a step, every node has all rows: those of bands numbered without gaps, then padding. -/
theorem books_of_entered (built : build params domains relations = .ok graph) {options : Options} {depth : ℕ}
    {scope : Scope} {state : Construction} (entered : Entered options graph depth scope state) :
    state.graph.counters.totalRows = state.graph.counters.bandStart
      ∧ (∀ node ∈ state.graph.nodes, node.HasRows state.graph.counters.totalRows
          ∧ (∃ labels, GapFree state.graph.counters.band labels ∧ node.bands = labels.map some) ∧ node.Framed)
      ∧ ∀ final, construct options depth scope state = .ok final →
          ∀ node ∈ final.graph.nodes, node.Finished final.graph.counters.totalRows := by
  obtain ⟨orderly, tabled, less⟩ := orderly_of_entered (orderly_of_build built) (tabled_of_build built) entered
  refine ⟨orderly.band_start.symm, fun node node_mem => ⟨orderly.has_rows node node_mem, ?_, orderly.framed node node_mem⟩,
    fun final delivered node node_mem => ?_⟩
  · obtain ⟨labels, gap_free, _, bands_eq⟩ := orderly.gapFree
    exact ⟨labels, gap_free, bands_eq node node_mem⟩
  · have finishes := (construct_ends options depth scope state orderly tabled less).result final delivered
    obtain ⟨before, _, settles⟩ := finishes.nodes.exists_left node_mem
    exact settles.finished

/-- The plane is entered again behind its first band, with the basis of the row in it, and left with all rows. -/
theorem books_of_entered_carriedPlane : Entered { algorithm := .carrying } steppedPlane 7 .whole carriedPlane
    ∧ (∀ node ∈ carriedPlane.graph.nodes, node.HasRows 1
      ∧ (∃ labels, GapFree 1 labels ∧ node.bands = labels.map some) ∧ node.Framed)
    ∧ ∀ final, construct { algorithm := .carrying } 7 .whole carriedPlane = .ok final →
      ∀ node ∈ final.graph.nodes, node.Finished final.graph.counters.totalRows := by
  have built : build [] [.unconstrained (Space.named "S" 2)] [(.validity, planeSteps)] = .ok steppedPlane :=
    Checked.ok_of_toOption (Option.some_get _).symm
  exact ⟨carriedPlane_entered, (books_of_entered built carriedPlane_entered).2⟩

/-- The construction of a built graph comes to an end: it is never out of the nesting or the rows that it grants itself.
    With more nesting, and with more steps for any band, it would go the same way. -/
theorem schedule_ends (built : build params domains relations = .ok graph) (options : Options) :
    graph.schedule options ≠ .error (.unfinished .bands) ∧ graph.schedule options ≠ .error (.unfinished .rows)
      ∧ (∀ depth ≥ graph.nesting,
          construct options depth .whole { graph := graph, cache := ConeCache.empty } = graph.schedule options)
      ∧ ∀ depth state, Entered options graph depth .connected state → ∀ needed,
          state.graph.detectStrong.updateRowsNeeded = .ok needed → ∀ steps ≥ needed.clearLocal.bandSteps,
          fillBand options needed.clearLocal.hasCoincidence needed.clearLocal.hasConditionalPairs steps
              needed.clearLocal.hasCoincidence { state with graph := needed.clearLocal }
            = fillBand options needed.clearLocal.hasCoincidence needed.clearLocal.hasConditionalPairs
              needed.clearLocal.bandSteps needed.clearLocal.hasCoincidence { state with graph := needed.clearLocal } := by
  have orderly := orderly_of_build built
  have in_time := (construct_ends options graph.nesting .whole ⟨graph, ConeCache.empty⟩ orderly (tabled_of_build built)
    graph.allowance_lt_nesting).faults
  refine ⟨fun stopped => ?_, fun stopped => ?_, fun depth enough => ?_, fun depth state entered needed needed_ok steps enough => ?_⟩
  · exact (in_time _ stopped).2 rfl
  · exact (in_time _ stopped).1 rfl
  · obtain ⟨more, rfl⟩ := Nat.exists_eq_add_of_le enough
    refine ((construct_cuts options graph.nesting more .whole ⟨graph, ConeCache.empty⟩).resolve_right ?_).symm
    rintro ⟨_, rfl, stopped⟩
    exact (in_time _ stopped).2 rfl
  · obtain ⟨more, rfl⟩ := Nat.exists_eq_add_of_le enough
    have entered_orderly := (orderly_of_entered orderly (tabled_of_build built) entered).1
    have detected_orderly := entered_orderly.of_sameBooks ((sameBooks_of_updateRowsNeeded needed_ok).trans sameBooks_assign)
    have cleared_orderly : needed.clearLocal.Orderly := detected_orderly.of_sameBooks (.of_nodes rfl rfl)
    refine fillBand_add more fun stopped => ?_
    exact (timely_fillBand cleared_orderly _ stopped).1 rfl

/-- The construction of two lines ends, with any nesting from eight steps on in the same way. -/
theorem schedule_ends_twoLines : twoLines.schedule {} ≠ .error (.unfinished .bands)
    ∧ twoLines.schedule {} ≠ .error (.unfinished .rows)
    ∧ construct {} 100 .whole ⟨twoLines, ConeCache.empty⟩ = twoLines.schedule {} := by
  obtain ⟨in_bands, in_rows, same, _⟩ := schedule_ends twoLines_built {}
  exact ⟨in_bands, in_rows, same 100 (by decide)⟩

end Graph

end AffineSchedule
