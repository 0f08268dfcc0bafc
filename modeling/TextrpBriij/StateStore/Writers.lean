import TextrpBriij.StateStore.Reading

/-! # Writing state groups

The four transactions that write state groups: new groups as a delta or in full, the groups of a
batch of events, the background update that turns full groups into deltas, and the removal of
groups, which turns deltas on them into full groups.
-/
namespace TextrpBriij.StateStore
open Api State
open TextrpBriij.Stream (DatabaseEngine)

namespace StateDb

def insertGroup (db : StateDb) (group : ℕ) (roomId : String) (prev : Option ℕ)
    (entries : StateMap String) : StateDb where
  stateGroups := db.stateGroups ++ [(group,roomId)]
  stateGroupEdges := db.stateGroupEdges ++ prev.toList.map fun p => (group,p)
  stateGroupsState := db.stateGroupsState ++ entries.entries.map fun entry => (group,entry.1,entry.2)

def reencode (db : StateDb) (group : ℕ) (prev : Option ℕ) (entries : StateMap String) : StateDb where
  stateGroups := db.stateGroups
  stateGroupEdges := db.stateGroupEdges.filter (fun edge => edge.1 ≠ group) ++
    prev.toList.map fun p => (group,p)
  stateGroupsState := db.stateGroupsState.filter (fun row => row.1 ≠ group) ++
    entries.entries.map fun entry => (group,entry.1,entry.2)

def removeGroups (db : StateDb) (groups : List ℕ) : StateDb where
  stateGroups := db.stateGroups.filter fun row => row.1 ∉ groups
  stateGroupEdges := db.stateGroupEdges.filter fun edge => edge.1 ∉ groups
  stateGroupsState := db.stateGroupsState.filter fun row => row.1 ∉ groups

end StateDb

def maxStateDeltaHops : ℕ := 100

def countHops (db : StateDb) : ℕ → ℕ → ℕ
  | 0, _ => 0
  | fuel + 1, group =>
    match db.prevGroup group with
    | some (prev + 1) => 1 + countHops db fuel (prev + 1)
    | _ => 0

variable (engine : DatabaseEngine) (db : StateDb)

/-- PostgreSQL also counts the group itself. -/
def countStateGroupHops (group : ℕ) : ℕ :=
  match engine with
  | .postgres => (db.sgs (group + 1) group).length
  | .sqlite => countHops db (group + 1) group

/-- `store_state_group`, with the ID that the sequence gives to the group. The state of the
previous group is read through the caches, which hold what is in the database. -/
def storeStateGroup (stateGroup : ℕ) (roomId : String)
    (prevGroup : Option ℕ) (deltaIds currentStateIds : Option (StateMap String)) :
    Except Error StateDb :=
  match prevGroup, deltaIds, currentStateIds with
  | none, _, none => throw (.raised "Exception")
  | some _, none, _ => throw (.raised "Exception")
  | none, _, some current => pure (db.insertGroup stateGroup roomId none current)
  | some prev, some delta, current =>
    if prev ∉ db.groupIds then throw (.raised "Exception")
    else if countStateGroupHops engine db prev ≥ maxStateDeltaHops then
      let full := match current with
        | some current => current
        | none => delta ∪ StateDb.getStateGroupsFromGroups engine db .all prev
      pure (db.insertGroup stateGroup roomId none full)
    else pure (db.insertGroup stateGroup roomId (some prev) delta)

structure BatchedEvent where
  eventId : String
  type : String
  /-- Not given when the event is not a state event. -/
  stateKey : Option String

/-- One group for each state event, on the group before it. The context of an event that is not
a state event has an empty delta, and adds nothing. -/
def insertDeltasGroup (roomId : String) : StateDb → ℕ → List BatchedEvent → List ℕ → StateDb
  | db, _, [], _ => db
  | db, sgBefore, event :: events, stateGroups =>
    match event.stateKey, stateGroups with
    | none, stateGroups => insertDeltasGroup roomId db sgBefore events stateGroups
    | some _, [] => db
    | some stateKey, sgAfter :: stateGroups =>
      let delta := (∅ : StateMap String).insert (event.type,stateKey) event.eventId
      insertDeltasGroup roomId (db.insertGroup sgAfter roomId (some sgBefore) delta) sgAfter events stateGroups

def storeStateDeltasForBatched (stateGroups : List ℕ) (roomId : String)
    (prevGroup : ℕ) (events : List BatchedEvent) : Except Error StateDb :=
  if prevGroup ∉ db.groupIds then throw (.raised "Exception")
  else pure (insertDeltasGroup roomId db prevGroup events stateGroups)

/-- `coalesce(max(id), 0)` of the groups of the room before the group. -/
def lastGroupBefore (group : ℕ) (roomId : String) : ℕ :=
  ((db.stateGroups.filter fun row => row.1 < group ∧ row.2 = roomId).map (·.1)).max?.getD 0

/-- A group without an edge is stored as a delta on the group before it, if that loses no key. -/
def deduplicate (group : ℕ) (roomId : String) : StateDb :=
  let prev := lastGroupBefore db group roomId
  if prev = 0 then db
  else if countStateGroupHops engine db prev ≥ maxStateDeltaHops then db
  else
    let prevState := StateDb.getStateGroupsFromGroups engine db .all prev
    let currState := StateDb.getStateGroupsFromGroups engine db .all group
    if ∀ key ∈ prevState.keys, key ∈ currState.keys then
      db.reencode group (some prev)
        (Entries.restrict currState fun key value => prevState.lookup key ≠ some value)
    else db

def backgroundDeduplicateState (engine : DatabaseEngine) (maxGroup : ℕ) : ℕ → ℕ → StateDb → StateDb
  | 0, _, db => db
  | count + 1, lastStateGroup, db =>
    match (db.stateGroups.filter fun row => lastStateGroup < row.1 ∧ row.1 ≤ maxGroup).argmin (·.1) with
    | none => db
    | some (group,roomId) =>
      if group = 0 then db
      else if db.stateGroupEdges.any fun edge => edge.1 = group then db
      else backgroundDeduplicateState engine maxGroup count group (deduplicate engine db group roomId)

/-- `_purge_unreferenced_state_groups`, with the groups that are ready to be deleted. -/
def purgeUnreferencedStateGroups (stateGroupsToDelete : List ℕ) : StateDb :=
  if stateGroupsToDelete = [] then db
  else
    let rows := db.stateGroupEdges.filter fun edge => edge.2 ∈ stateGroupsToDelete
    let remaining := ((rows.map (·.1)).filter fun group => group ∉ stateGroupsToDelete).dedup
    let full := remaining.foldl (fun db group =>
      db.reencode group none (StateDb.getStateGroupsFromGroups engine db .all group)) db
    full.removeGroups stateGroupsToDelete

end TextrpBriij.StateStore
