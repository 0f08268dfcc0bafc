import TextrpBriij.Api.Errors

/-! # The stream ID generator of one instance

The fields and steps of `MultiWriterIdGenerator` under their own names. Internally all
IDs are positive; a negative stream negates them when they leave the generator. Sets
are lists of which only the members matter, and the heap of known persisted positions
is the list of its elements in the order in which it pops them.
-/
namespace TextrpBriij.Storage
open Api

abbrev Positions := AList fun _ : String => ℤ

def Positions.values (p : Positions) : List ℤ := p.entries.map Sigma.snd

structure Generator where
  instanceName : String
  writers : List String
  positive : Bool
  currentPositions : Positions
  unfinishedIds : List ℤ
  inFlightFetches : List ℤ
  finishedIds : List ℤ
  persistedUptoPosition : ℤ
  knownPersistedPositions : List ℤ
  maxSeenAllocatedStreamId : ℤ
  maxPositionOfLocalInstance : ℤ

def factorOf (positive : Bool) : ℤ := if positive then 1 else -1

namespace Generator
variable (g : Generator)

def returnFactor : ℤ := factorOf g.positive

def idle : Bool := g.unfinishedIds.isEmpty && g.inFlightFetches.isEmpty

/-- `_current_positions.get(self._instance_name, 0)`. -/
def ownPosition : ℤ := (g.currentPositions.lookup g.instanceName).getD 0

def otherPositions : List ℤ :=
  (g.currentPositions.entries.filter (fun e => e.1 ≠ g.instanceName)).map Sigma.snd

def minCurr : ℤ :=
  let others := g.otherPositions.min?.getD g.ownPosition
  if g.ownPosition ≠ 0 ∧ g.idle = false then min others g.ownPosition else others

/-- The loop over the heap: positions passed are dropped, and a position just above
the current one moves it up. -/
def skipRuns : ℤ → List ℤ → ℤ × List ℤ
  | upto, [] => (upto,[])
  | upto, k :: known =>
    if k ≤ upto then skipRuns upto known
    else if k = upto + 1 then skipRuns (upto + 1) known
    else (upto,k :: known)

def addPersistedPosition (newId : ℤ) : Generator :=
  let known := g.knownPersistedPositions.orderedInsert (· ≤ ·) newId
  let upto := max g.minCurr g.persistedUptoPosition
  let localMax := max g.maxPositionOfLocalInstance upto
  { g with
    maxPositionOfLocalInstance :=
      if g.idle then max g.maxSeenAllocatedStreamId localMax else localMax
    persistedUptoPosition := (skipRuns upto known).1
    knownPersistedPositions := (skipRuns upto known).2 }

/-! ## Allocation

`_load_next_mult_id_txn` takes the lock three times; between the first two it asks the
sequence for IDs.
-/

def registerFetch : Generator :=
  { g with inFlightFetches := g.maxSeenAllocatedStreamId :: g.inFlightFetches }

/-- With no ID at all there is no last element to take, and nothing changes. -/
def recordFetch (streamIds : List ℤ) : Generator :=
  let unfinished := g.unfinishedIds ++ streamIds
  match unfinished.max? with
  | none => g
  | some last => { g with
      unfinishedIds := unfinished
      maxSeenAllocatedStreamId := max g.maxSeenAllocatedStreamId last }

def releaseFetch (currentMax : ℤ) : Generator :=
  { g with inFlightFetches := g.inFlightFetches.erase currentMax }

def minUnfinished : Option ℤ :=
  match g.unfinishedIds.min?, g.inFlightFetches.min? with
  | some u, some f => some (min u (f + 1))
  | none, some f => some (f + 1)
  | some u, none => some u
  | none, none => none

def moveOwnPosition (newCur : Option ℤ) : Generator :=
  match newCur with
  | none => g
  | some newCur =>
    if newCur = 0 then g
    else { g with
      currentPositions := g.currentPositions.insert g.instanceName (max g.ownPosition newCur)
      maxPositionOfLocalInstance :=
        max (max g.ownPosition newCur) g.maxPositionOfLocalInstance }

/-- The part of `_mark_ids_as_finished` before the loop: `max` of an empty set raises. -/
def settleFinished : Except Error Generator :=
  match g.minUnfinished with
  | some least =>
    .ok ({ g with finishedIds := g.finishedIds.filter (least ≤ ·) }.moveOwnPosition
      (g.finishedIds.filter (· < least)).max?)
  | none =>
    match g.finishedIds.max? with
    | none => .error (.raised "ValueError")
    | some newCur => .ok ({ g with finishedIds := [] }.moveOwnPosition (some newCur))

def markIdsAsFinished (nextIds : List ℤ) : Except Error Generator :=
  match { g with
      unfinishedIds := g.unfinishedIds.filter (· ∉ nextIds)
      finishedIds := g.finishedIds ++ nextIds }.settleFinished with
  | .error e => .error e
  | .ok settled => .ok (nextIds.foldl addPersistedPosition settled)

def getCurrentTokenForWriter (instanceName : String) : ℤ :=
  if g.instanceName = instanceName then g.returnFactor * g.maxPositionOfLocalInstance
  else g.returnFactor * max
    ((g.currentPositions.lookup instanceName).getD g.persistedUptoPosition) g.persistedUptoPosition

def getPersistedUptoPosition : ℤ := g.returnFactor * g.persistedUptoPosition

def advance (instanceName : String) (newId : ℤ) : Generator :=
  let new := newId * g.returnFactor
  { g with
    currentPositions := g.currentPositions.insert instanceName
      (max new ((g.currentPositions.lookup instanceName).getD 0))
    maxSeenAllocatedStreamId := max g.maxSeenAllocatedStreamId new }.addPersistedPosition new

end Generator

/-- What a generator reads of the database: the rows of `stream_positions` for its
stream, the writer and ID of each row of the stream's tables, and the last value of
the Postgres sequence, which has been called before. On SQLite there is no sequence. -/
structure Database where
  streamPositions : Positions
  tables : List (List (String × ℤ))
  lastValue : Option ℤ

def Positions.restrict (p : Positions) (writers : List String) (factor : ℤ) : Positions where
  entries := (p.entries.filter (fun e => e.1 ∈ writers)).map (fun e => ⟨e.1,e.2 * factor⟩)
  nodupKeys := by
    have hkeys : ((p.entries.filter (fun e => e.1 ∈ writers)).map
        (fun e => (⟨e.1,e.2 * factor⟩ : (_ : String) × ℤ))).keys =
        (p.entries.filter (fun e => e.1 ∈ writers)).keys := by
      simp [List.keys,Function.comp_def]
    rw [List.NodupKeys,hkeys]
    exact p.nodupKeys.sublist List.filter_sublist

variable (positive : Bool) (db : Database)

/-- `check_consistency` for one table. A sequence that lags behind the table is moved up; SQLite
has none. -/
def checkTable (table : List (String × ℤ)) : Except Error Database :=
  match db.lastValue with
  | none => .ok db
  | some lastValue =>
    let maxStreamId := max ((table.map (fun row => factorOf positive * row.2)).max?.getD 0) 0
    match db.streamPositions.values.max? with
    | some maxPosition =>
      if maxPosition ≠ 0 ∧ lastValue < maxPosition then .error (.raised "IncorrectDatabaseSetup")
      else .ok { db with lastValue := some (max lastValue maxStreamId) }
    | none => .ok { db with lastValue := some (max lastValue maxStreamId) }

def checkConsistency : Except Error Database :=
  db.tables.foldlM (checkTable positive) db

def Database.deleteStale (writers : List String) : Database :=
  if writers = [] then db
  else { db with streamPositions := db.streamPositions.restrict writers 1 }

def Positions.upsert (p : Positions) (positive : Bool) (name : String) (pos : ℤ) : Positions :=
  match p.lookup name with
  | none => p.insert name pos
  | some old => if positive ∧ old < pos ∨ ¬positive ∧ old > pos then p.insert name pos else p

def loadPositions (name : String) (writers : List String) (positive : Bool) (db : Database) : Positions :=
  let positions := if writers = [] then ∅
    else db.streamPositions.restrict writers (factorOf positive)
  match db.lastValue with
  | some lastValue => if name ∈ writers then positions.insert name lastValue else positions
  | none => positions

def tableMax (table : List (String × ℤ)) : ℤ :=
  max ((table.map (fun row => factorOf positive * row.2)).max?.getD 1) 1

def laterRows (tables : List (List (String × ℤ))) (minStreamId : ℤ) : List (String × ℤ) :=
  (tables.flatMap (fun table => table.filter (fun row =>
    if positive then minStreamId * factorOf positive ≤ row.2
    else row.2 ≤ minStreamId * factorOf positive))).insertionSort (fun a b => a.2 ≤ b.2)

namespace Generator

def blank (name : String) (writers : List String) (positive : Bool) : Generator where
  instanceName := name
  writers := writers
  positive := positive
  currentPositions := ∅
  unfinishedIds := []
  inFlightFetches := []
  finishedIds := []
  persistedUptoPosition := 1
  knownPersistedPositions := []
  maxSeenAllocatedStreamId := 1
  maxPositionOfLocalInstance := 1

def loadRow (g : Generator) (row : String × ℤ) : Generator :=
  let streamId := g.returnFactor * row.2
  let g' := g.addPersistedPosition streamId
  if row.1 = g.instanceName then
    { g' with currentPositions := g'.currentPositions.insert row.1 streamId }
  else g'

def defaultPosition (g : Generator) (writer : String) : Generator :=
  match g.currentPositions.lookup writer with
  | some _ => g
  | none => { g with
      currentPositions := g.currentPositions.insert writer g.persistedUptoPosition }

def loadRows (g : Generator) (db : Database) : Generator :=
  match g.currentPositions.values.min? with
  | none => { g with
      persistedUptoPosition := db.tables.foldl (fun m t => max m (tableMax g.positive t)) 1 }
  | some minStreamId => (laterRows g.positive db.tables minStreamId).foldl loadRow
      { g with persistedUptoPosition := minStreamId }

def loadCurrentIds (name : String) (writers : List String) (positive : Bool) (db : Database) : Generator :=
  writers.foldl defaultPosition (loadRows { blank name writers positive with
      currentPositions := loadPositions name writers positive db } db)

/-- `__init__` after the sequence has been checked. -/
def construct (name : String) (writers : List String) (positive : Bool) (db : Database) : Generator :=
  let g := loadCurrentIds name writers positive db
  let maxSeen := max (g.currentPositions.values.max?.getD 1) g.persistedUptoPosition
  { g with
    maxSeenAllocatedStreamId := maxSeen
    maxPositionOfLocalInstance := maxSeen
    currentPositions := if writers = [] then g.currentPositions.insert name g.persistedUptoPosition
      else g.currentPositions }

end Generator

end TextrpBriij.Storage
