import AffineSchedule.Schedule

namespace AffineSchedule

structure BandRows where
  /-- Positions of the statements that share the rows, in schedule order. -/
  members : List Nat
  start : Nat
  /-- The number of rows; zero for a placeholder. -/
  length : Nat
  coincident : List Bool
  /-- The maps of the members, restricted to the rows. -/
  partialMaps : List TimeMap
deriving DecidableEq, Repr

/-- A band with the bands nested in it. -/
inductive Band where
  | node (rows : BandRows) (children : List Band)
deriving Repr

namespace BandRows

def stop (rows : BandRows) : Nat := rows.start + rows.length

/-- The band stands for a statement with no rows left. -/
def isPlaceholder (rows : BandRows) : Bool := rows.length = 0

def mapOf (rows : BandRows) (member : Nat) : Option TimeMap :=
  (rows.members.zip rows.partialMaps).lookup member

end BandRows

namespace Band

def rows : Band → BandRows
  | node rows _ => rows

def children : Band → List Band
  | node _ children => children

mutual

/-- The map of a member from this band down to its last one. -/
def suffixOf (member : Nat) : Band → Option TimeMap
  | node rows children =>
      match rows.mapOf member with
      | none => none
      | some own =>
          match suffixAmong member children with
          | some rest => some (own.append rest)
          | none => some own

/-- The map of a member from the first band on that has it. -/
def suffixAmong (member : Nat) : List Band → Option TimeMap
  | [] => none
  | band :: later =>
      match suffixOf member band with
      | some map => some map
      | none => suffixAmong member later

end

def suffixMaps (band : Band) : List TimeMap := band.rows.members.filterMap (band.suffixOf ·)

mutual

/-- The band and all bands nested in it, children before parents. -/
def postOrder : Band → List Band
  | node rows children => postOrderAll children ++ [node rows children]

def postOrderAll : List Band → List Band
  | [] => []
  | band :: later => postOrder band ++ postOrderAll later

end

/-- The line of a band, with one line for each of its maps below it. -/
def renderRows (depth : Nat) (rows : BandRows) : Checked String := do
  let maps ← rows.partialMaps.mapM (·.render)
  let indent := String.join (List.replicate depth "  ")
  let flags := String.ofList (rows.coincident.map fun flag => if flag then 'C' else '-')
  let members := ", ".intercalate (rows.members.map toString)
  return indent ++ "band rows " ++ toString rows.start ++ ".." ++ toString rows.stop ++ " [" ++ flags
    ++ "] members [" ++ members ++ "]\n"
    ++ String.join (maps.map fun map => indent ++ "  " ++ map ++ "\n")

mutual

def renderAt (depth : Nat) : Band → Checked String
  | node rows children => do return (← renderRows depth rows) ++ (← renderAll (depth + 1) children)

def renderAll (depth : Nat) : List Band → Checked String
  | [] => .ok ""
  | band :: later => do return (← renderAt depth band) ++ (← renderAll depth later)

end

def render (band : Band) : Checked String := band.renderAt 0

/-! ### Building the forest -/

/-- The placeholder for a statement without further bands. -/
def placeholder (statement : StatementSchedule) (position : Nat) : Checked Band := do
  let stop := statement.bandEnds.getLastD 0
  return node {
    members := [position]
    start := stop
    length := 0
    coincident := []
    partialMaps := [← statement.map.slice stop stop] } []

def insertMember (groups : List (Nat × List Nat)) (identifier member : Nat) : List (Nat × List Nat) :=
  match groups with
  | [] => [(identifier, [member])]
  | (first, members) :: later =>
      if first = identifier then (first, members ++ [member]) :: later
      else (first, members) :: insertMember later identifier member

/-- The rows that the members of a group share on a level, as the first of them has them. -/
def sharedRows (statements : List StatementSchedule) (level : Nat) (members : List Nat) :
    Checked BandRows := do
  let lookup (position : Nat) : Checked StatementSchedule := Checked.ofOption statements[position]?
  let first ← lookup (members.headD 0)
  let start := first.bandStart level
  let stop := first.bandStop level
  let maps ← members.mapM fun member => do (← lookup member).map.slice start stop
  Checked.require (stop ≤ first.coincident.length)
  return {
    members := members
    start := start
    length := stop - start
    coincident := (first.coincident.take stop).drop start
    partialMaps := maps }

/-- The constant that a row of the first member of a band has. -/
def orderingConstant (statements : List StatementSchedule) (row : Nat) (band : Band) : Option Int := do
  let first ← statements[band.rows.members.headD 0]?
  let form ← first.map.outputs[row]?
  form.constant?

/-- Orders siblings by the constants that the nearest enclosing band with a single row gives them, if
    these constants tell all of them apart. `enclosing` holds the first row and the number of rows of the
    enclosing bands, the outermost first. -/
def sortSiblings (statements : List StatementSchedule) (enclosing : List (Nat × Nat)) (bands : List Band) :
    List Band :=
  match enclosing.reverse.find? (·.2 = 1) with
  | none => bands
  | some (row, _) =>
      match bands.mapM (orderingConstant statements row) with
      | none => bands
      | some constants =>
          if constants.Nodup then ((constants.zip bands).mergeSort fun a b => a.1 ≤ b.1).map (·.2)
          else bands

/-- The bands of some statements on a level, with the bands below them. The first argument bounds the
    number of levels. -/
def bandsAt (statements : List StatementSchedule) : Nat → Nat → List Nat → List (Nat × Nat) →
    Checked (List Band)
  | 0, _, _, _ => .ok []
  | levels + 1, level, active, enclosing => do
      let lookup (position : Nat) : Checked StatementSchedule := Checked.ofOption statements[position]?
      let entries ← active.mapM fun position => do return (position, ← lookup position)
      let finished := entries.filter fun entry => entry.2.bandCount ≤ level
      let placeholders ← finished.mapM fun entry => placeholder entry.2 entry.1
      let continuing := entries.filter fun entry => level < entry.2.bandCount
      let identified ← continuing.mapM fun entry => do
        return (← Checked.ofOption entry.2.bandIds[level]?, entry.1)
      let groups := identified.foldl (fun groups entry => insertMember groups entry.1 entry.2) []
      let shared ← groups.mapM fun group => do
        let rows ← sharedRows statements level group.2
        let members := entries.filter fun entry => group.2.contains entry.1
        if members.any fun entry => level + 1 < entry.2.bandCount then
          let nested ← bandsAt statements levels (level + 1) group.2
            (enclosing ++ [(rows.start, rows.length)])
          return node rows nested
        else return node rows []
      return sortSiblings statements enclosing (placeholders ++ shared)

end Band

namespace Schedule

def forest (schedule : Schedule) : Checked (List Band) :=
  let statements := schedule.statements
  let levels := statements.foldl (fun most statement => max most statement.bandCount) 0
  Band.bandsAt statements (levels + 1) 0 (List.range statements.length) []

/-- The maps read off a forest, padded to the common number of rows. -/
def forestMaps (schedule : Schedule) (forest : List Band) : Checked (List TimeMap) :=
  schedule.statements.zipIdx.mapM fun entry =>
    let found := (Band.suffixAmong entry.2 forest).getD { entry.1.map with outputs := [] }
    found.padded schedule.totalRows

end Schedule

end AffineSchedule
