import AffineSchedule.Construction.Carrying
import AffineSchedule.Construction.Conditional
import AffineSchedule.Construction.NextRow
import AffineSchedule.Dependence.Narrowing
import AffineSchedule.Dependence.Subgraph

namespace AffineSchedule

structure Construction where
  graph : Graph
  cache : ConeCache
deriving DecidableEq, Repr

/-- What a nested step works on. -/
inductive Scope where
  /-- A graph whose components are separated first. -/
  | whole
  /-- A graph that is taken as connected. -/
  | connected
deriving DecidableEq, Repr

abbrev NestedStep : Type := Scope → Construction → Checked Construction

/-! ### Rows of one band -/

/-- How the search for the rows of a band ended. -/
inductive BandEnd where
  | complete
  | stuck
deriving DecidableEq, Repr

/-- Adds rows to the current band until the graph has all rows or there is no further one. A violated
    conditional validity drops the band, which starts again with more local conditions. -/
def fillBand (options : Options) (hasCoincidence checksConditional : Bool) :
    Nat → Bool → Construction → Checked (BandEnd × Construction)
  | 0, _, _ => .error (.unfinished .rows)
  | steps + 1, useCoincidence, state => do
      if state.graph.rowsNeeded ≤ state.graph.counters.rows then return (.complete, state)
      let fresh := { state.graph with conflict := none }
      let search ← fresh.nextRow state.cache options useCoincidence
      match search.rows with
      | none =>
          let searched : Construction := { graph := search.graph, cache := search.cache }
          let isEmpty : Bool := search.graph.counters.totalRows = search.graph.counters.bandStart
          if useCoincidence && (!options.outerCoincidence || !isEmpty) then
            fillBand options hasCoincidence checksConditional steps false searched
          else return (.stuck, searched)
      | some rows =>
          let appended ← search.graph.appendRow rows (!hasCoincidence || useCoincidence)
          if !checksConditional then
            fillBand options hasCoincidence checksConditional steps useCoincidence
              { graph := appended, cache := search.cache }
          else
            let (violated, checked) ← appended.checkConditional
            if violated then
              fillBand options hasCoincidence checksConditional steps hasCoincidence
                { graph := ← checked.resetBand, cache := search.cache }
            else
              fillBand options hasCoincidence checksConditional steps useCoincidence
                { graph := checked, cache := search.cache }

/-- Enough steps for a band: every drop of the band makes another edge local, and between two drops there
    is at most one step per row needed, one step that gives up coincidence, and a last one. -/
def Graph.bandSteps (graph : Graph) : Nat :=
  (graph.edges.length + 1) * (graph.rowsNeeded + 2)

/-! ### Nested steps -/

/-- Drops the dependences carried so far and continues with a new band. -/
def continueBands (nested : NestedStep) (state : Construction) : Checked Construction := do
  nested .whole { state with graph := (← state.graph.narrowEdges).nextBand }

/-- Constructs a part of the graph and brings its rows back, with its row and band counts. -/
def constructPart (nested : NestedStep) (scope : Scope) (state : Construction) (filter : ComponentFilter) :
    Checked Construction := do
  let finished ← nested scope { state with graph := ← state.graph.extract filter }
  let restored := state.graph.restore finished.graph filter
  return {
    graph := { restored with counters := { restored.counters with
      totalRows := finished.graph.counters.totalRows
      band := finished.graph.counters.band } }
    cache := finished.cache }

def Construction.withCounts (state : Construction) (totalRows band : Nat) : Construction :=
  { state with graph := { state.graph with
      counters := { state.graph.counters with totalRows := totalRows, band := band } } }

/-- Constructs the listed components one by one, each from the same row and band counts, and keeps the
    largest counts. -/
def constructComponents (nested : NestedStep) (start : BandCounters) :
    List Nat → Construction → Checked Construction
  | [], state => .ok state
  | component :: later, state => do
      let rows := state.graph.counters.totalRows
      let band := state.graph.counters.band
      let finished ← constructPart nested .connected (state.withCounts start.totalRows start.band)
        (.exactly component)
      let counters := finished.graph.counters
      constructComponents nested start later
        (finished.withCounts (max rows counters.totalRows) (max band counters.band))

/-- Constructs every component on its own, behind an ordering row if they are to be separated, and pads
    them to a common number of rows. -/
def separateComponents (nested : NestedStep) (options : Options) (forced : Bool)
    (state : Construction) : Checked Construction := do
  let ordered ←
    if forced || options.fuse = .minimal || options.separateComponents then state.graph.splitOnComponents
    else pure state.graph
  let band := ordered.counters.band
  let labelled := { ordered with
    nodes := ← ordered.nodes.mapM fun node => node.updateBandId band (Size.add · node.component) }
  let finished ← constructComponents nested labelled.counters (List.range labelled.componentCount)
    { state with graph := labelled }
  return { finished with graph := ← finished.graph.padRows }

/-- Splits the graph behind the source of its conflict, orders the two parts by a constant row and
    constructs them. -/
def splitAfter (nested : NestedStep) (state : Construction) : Checked Construction := do
  let some (component, _) := state.graph.conflict | throw (.internal .splitWithoutConflict)
  let reset ← state.graph.resetBand
  let isLater (node : Node) : Bool := component < node.component
  let ordered := (← reset.appendConstantRow fun node => if isLater node then 1 else 0).nextBand
  let start := ordered.counters
  let earlier := (ordered.nodes.filter fun node => !isLater node).length
  let labelled := { ordered with
    nodes := ← ordered.nodes.mapM fun node =>
      if isLater node then node.updateBandId start.band fun _ => .ok earlier else .ok node }
  let first ← constructPart nested .whole { state with graph := labelled } (.atMost component)
  let firstCounters := first.graph.counters
  let second ← constructPart nested .whole (first.withCounts start.totalRows start.band)
    (.atLeast (component + 1))
  let counters := second.graph.counters
  let joined := second.withCounts (max counters.totalRows firstCounters.totalRows)
    (max counters.band firstCounters.band)
  return { joined with graph := ← joined.graph.padRows }

/-- Adds a row that carries as many dependences as possible, and continues with the dependences left. If
    the row is trivial the components are separated. -/
def carryDependences (nested : NestedStep) (options : Options) (state : Construction) :
    Checked Construction := do
  let carrying ← state.graph.carryingRow state.cache options
  let searched : Construction := { graph := carrying.graph, cache := carrying.cache }
  if carrying.isTrivial then
    if 1 < carrying.graph.componentCount then separateComponents nested options true searched
    else throw (.unschedulable .noNonTrivialSolution)
  else
    let appended ← carrying.graph.appendRow carrying.rows false
    let split ← if options.splitScaled then appended.splitFactor else pure appended
    continueBands nested { searched with graph := split }

/-- Orders the statements of a graph with all rows by the components of the dependences left. -/
def sortStatements (graph : Graph) : Checked Graph := do
  if graph.nodes.length ≤ 1 then return graph
  let narrowed ← graph.narrowEdges
  if narrowed.edges.isEmpty then return narrowed
  narrowed.detectStrong.appendConstantRow (·.ordinal)

def closeBand (graph : Graph) : Graph :=
  if graph.counters.bandStart < graph.counters.totalRows then graph.nextBand else graph

/-- What follows when there is no further row in the current band. -/
def resolveStuck (nested : NestedStep) (options : Options) (state : Construction) :
    Checked Construction :=
  let isEmpty : Bool := state.graph.counters.totalRows = state.graph.counters.bandStart
  if !options.maximizeBandDepth && !isEmpty then continueBands nested state
  else if state.graph.conflict.isSome then splitAfter nested state
  else if !isEmpty then continueBands nested state
  else carryDependences nested options state

/-- Constructs the rows of a graph that is taken as connected. -/
def constructConnected (nested : NestedStep) (options : Options) (state : Construction) :
    Checked Construction := do
  let graph ← state.graph.detectStrong.updateRowsNeeded
  if options.algorithm = .carrying && graph.edges.any (·.isAnyValidity) then
    carryDependences nested options { state with graph := graph }
  else
    let cleared := graph.clearLocal
    let (bandEnd, filled) ← fillBand options cleared.hasCoincidence cleared.hasConditionalPairs
      cleared.bandSteps cleared.hasCoincidence { state with graph := cleared }
    match bandEnd with
    | .stuck => resolveStuck nested options filled
    | .complete => return { filled with graph := ← sortStatements (closeBand filled.graph) }

def constructStep (nested : NestedStep) (options : Options) : NestedStep
  | .connected, state => constructConnected nested options state
  | .whole, state =>
      let separated := match options.fuse with
        | .minimal => state.graph.detectStrong
        | .maximal => state.graph.detectWeak
      if 1 < separated.componentCount then
        separateComponents nested options false { state with graph := separated }
      else constructConnected nested options { state with graph := separated }

def construct (options : Options) : Nat → NestedStep
  | 0 => fun _ _ => .error (.unfinished .bands)
  | depth + 1 => constructStep (construct options depth) options

def Graph.nesting (graph : Graph) : Nat :=
  graph.counters.maxRows + graph.nodes.length + 2

def Graph.schedule (graph : Graph) (options : Options) : Checked Construction :=
  construct options graph.nesting .whole { graph := graph, cache := ConeCache.empty }

end AffineSchedule
