import TextrpBriij.StateStore.Writers

/-! # Deleting state groups

Groups that may be unreferenced are marked as pending deletion and deleted after a delay, unless
an event that refers to them is being persisted or may have been. The events are in another
database, so that references and groups are never seen in one transaction.
-/
namespace TextrpBriij.StateStore
open AuthChain (Dict)
open Api State
open TextrpBriij.Stream (DatabaseEngine)

structure PendingRow where
  insertionTs : ℕ
  sequenceNumber : ℕ

structure DeletionTables where
  /-- `state_groups_pending_deletion`, which is unique in `state_group`. -/
  pendingDeletion : Dict ℕ PendingRow
  /-- The next value of the `sequence_number` column. -/
  nextSequenceNumber : ℕ
  /-- `state_groups_persisting`, with the name of the instance. -/
  persisting : List (ℕ × String)

def delayBeforeDeletionMs : ℕ := 10 * 60 * 1000

namespace DeletionTables

def sequenceNumber (t : DeletionTables) (group : ℕ) : Option ℕ :=
  (t.pendingDeletion.lookup group).map (·.sequenceNumber)

variable (t : DeletionTables) (db : StateDb)

def isPersisting (group : ℕ) : Prop := ∃ row ∈ t.persisting, row.1 = group

instance (t : DeletionTables) (group : ℕ) : Decidable (t.isPersisting group) :=
  inferInstanceAs (Decidable (∃ row ∈ t.persisting, row.1 = group))

def insertPending (now group : ℕ) : DeletionTables :=
  { t with
    pendingDeletion := t.pendingDeletion.insert group ⟨now,t.nextSequenceNumber⟩
    nextSequenceNumber := t.nextSequenceNumber + 1 }

def bumpDeletion (now : ℕ) (stateGroups : List ℕ) : DeletionTables :=
  stateGroups.foldl (fun t group =>
    if group ∈ t.pendingDeletion then t.insertPending now group else t) t

def markAsPendingDeletion (now : ℕ) (stateGroups : List ℕ) : DeletionTables :=
  stateGroups.foldl (fun t group =>
    if group ∈ t.pendingDeletion then t else t.insertPending now group) t

def removePending (stateGroups : List ℕ) : DeletionTables :=
  { t with pendingDeletion := Entries.restrict t.pendingDeletion fun group _ => group ∉ stateGroups }

/-- The rows are inserted together, which fails if there is one of them already. -/
def markAsPersisting (instanceName : String) (stateGroups : List ℕ) : Except Error DeletionTables :=
  if ∃ group ∈ stateGroups, group ∉ db.groupIds then throw (.raised "Exception")
  else if ∃ group ∈ stateGroups, (group,instanceName) ∈ t.persisting then
    throw (.raised "IntegrityError")
  else pure { t with persisting := t.persisting ++ stateGroups.map fun group => (group,instanceName) }

def unmark (instanceName : String) (stateGroups : List ℕ) : DeletionTables :=
  { t with persisting :=
    t.persisting.filter fun row => ¬(row.1 ∈ stateGroups ∧ row.2 = instanceName) }

def finishPersisting (now : ℕ) (instanceName : String) (stateGroups : List ℕ)
    (error : Bool) : DeletionTables :=
  if error then (t.unmark instanceName stateGroups).bumpDeletion now stateGroups
  else (t.unmark instanceName stateGroups).removePending stateGroups

def candidates : List (ℕ × String × PendingRow) :=
  t.pendingDeletion.entries.flatMap fun entry =>
    (db.stateGroups.filter fun group => group.1 = entry.1 ∧ ¬t.isPersisting entry.1).map fun group =>
      (entry.1,group.2,entry.2)

/-- `_get_next_state_group_collection_to_delete_txn`, when the oldest row it picks is one of the
room and time given. -/
def nextCollectionToDelete (now : ℕ) (roomId : String) (insertionTs : ℕ) : Option (Dict ℕ ℕ) :=
  let rows := t.candidates db
  let found := rows.filter fun row => row.2.1 = roomId ∧ row.2.2.insertionTs = insertionTs
  if found ≠ [] ∧ insertionTs + delayBeforeDeletionMs < now ∧
      ∀ row ∈ rows, insertionTs ≤ row.2.2.insertionTs then
    some (found.foldl (fun groups row => groups.insert row.1 row.2.2.sequenceNumber) ∅)
  else none

def readyForPotentialDeletion (now : ℕ) (groupsToSequences : Dict ℕ ℕ) : List ℕ :=
  let listed := t.pendingDeletion.entries.filter fun entry => entry.1 ∈ groupsToSequences
  let isReady (entry : (_ : ℕ) × PendingRow) : Bool :=
    groupsToSequences.lookup entry.1 = some entry.2.sequenceNumber ∧
      entry.2.insertionTs + delayBeforeDeletionMs ≤ now
  let persisting := (t.persisting.map (·.1)).filter fun group => group ∈ groupsToSequences
  let notReady := persisting ++ (listed.filter fun entry => !isReady entry).map (·.1)
  let canBeDeleted := ((listed.filter isReady).map (·.1)).filter fun group => group ∉ notReady
  let ancestors := groupsToSequences.keys.flatMap fun group => (db.sgs (group + 1) group).drop 1
  if notReady = [] then canBeDeleted else canBeDeleted.filter fun group => group ∉ ancestors

end DeletionTables

structure StatefulEvent where
  eventId : String
  rejected : Bool
  outlier : Bool
  stateGroup : Option ℕ
  stateGroupBeforeEvent : Option ℕ
  deriving DecidableEq

namespace StatefulEvent

def storedGroup (event : StatefulEvent) : Option ℕ :=
  if event.rejected then event.stateGroupBeforeEvent else event.stateGroup

def markedGroups (event : StatefulEvent) : Except Error (List ℕ) :=
  if event.rejected || event.outlier then pure []
  else
    match event.stateGroup with
    | none => throw (.raised "AssertionError")
    | some group =>
      match event.stateGroupBeforeEvent with
      | some (before + 1) => pure [group,before + 1]
      | _ => pure [group]

end StatefulEvent

def referencedStateGroups (events : List StatefulEvent) : Except Error (List ℕ) := do
  let groups ← events.mapM StatefulEvent.markedGroups
  pure groups.flatten.dedup

/-- `_store_event_state_mappings_txn`. The column is not nullable. -/
def storeEventStateMappings (rows : Dict String ℕ) (events : List StatefulEvent) :
    Except Error (Dict String ℕ) :=
  events.foldlM (fun rows event =>
    if event.outlier then pure rows
    else
      match event.storedGroup with
      | none => throw (.raised "IntegrityError")
      | some group => pure (rows.insert event.eventId group)) rows

/-- `_update_state_for_partial_state_event_txn` updates a row that is there. -/
def updateStateForPartialStateEvent (rows : Dict String ℕ) (event : StatefulEvent) :
    Except Error (Dict String ℕ) :=
  if event.outlier then throw (.raised "AssertionError")
  else
    match event.storedGroup with
    | none => throw (.raised "IntegrityError")
    | some group => pure (if event.eventId ∈ rows then rows.insert event.eventId group else rows)

def isReferenced (rows : Dict String ℕ) (group : ℕ) : Bool := rows.entries.any fun row => row.2 = group

structure Persist where
  instanceName : String
  /-- The groups that were marked as persisting. -/
  stateGroups : List ℕ
  chunk : List StatefulEvent
  written : Bool

structure Deletion where
  groupsToSequences : Dict ℕ ℕ
  /-- The groups that `get_referenced_state_groups` has not come to. -/
  unchecked : List ℕ
  /-- The groups that it has found to be referenced. -/
  referenced : List ℕ

structure DeletionWorld where
  now : ℕ
  db : StateDb
  lastId : ℕ
  tables : DeletionTables
  eventToStateGroups : Dict String ℕ
  persists : List Persist
  deletions : List Deletion

namespace DeletionWorld

def empty : DeletionWorld := ⟨0,⟨[],[],[]⟩,0,⟨∅,1,[]⟩,∅,[],[]⟩

inductive Action where
  | wait (ms : ℕ)
  /-- A new group, in full or on a group that is there. -/
  | storeStateGroup (group : ℕ) (roomId : String) (prevGroup : Option ℕ) (entries : StateMap String)
  | bump (stateGroups : List ℕ)
  | markAsPendingDeletion (stateGroups : List ℕ)
  | startPersisting (instanceName : String) (eventsAndContexts chunk : List StatefulEvent)
  /-- The events of the chunk that are stored. -/
  | storeEvents (persist : ℕ) (events : List StatefulEvent)
  | finishPersisting (persist : ℕ) (error : Bool)
  | updatePartialState (event : StatefulEvent)
  | purgeHistory (eventIds : List String)
  | fetchNext (roomId : String) (insertionTs : ℕ)
  | checkReferences (deletion : ℕ)
  | markAsUsed (deletion : ℕ)
  | purge (deletion : ℕ)

/-- `simple_select_many_batch` reads 100 groups in a transaction. -/
def batchSize : ℕ := 100

def step (engine : DatabaseEngine) (w : DeletionWorld) : Action → Option DeletionWorld
  | .wait ms => some { w with now := w.now + ms }
  | .storeStateGroup group roomId prevGroup entries =>
    if w.lastId < group ∧ ∀ prev ∈ prevGroup, prev ∈ w.db.groupIds then
      some { w with
        db := w.db.insertGroup group roomId prevGroup entries
        lastId := group
        tables := w.tables.bumpDeletion w.now prevGroup.toList }
    else none
  | .bump stateGroups =>
    let existing := stateGroups.filter fun group => group ∈ w.db.groupIds
    some { w with tables := w.tables.bumpDeletion w.now existing }
  | .markAsPendingDeletion stateGroups =>
    some { w with tables := w.tables.markAsPendingDeletion w.now stateGroups }
  | .startPersisting instanceName eventsAndContexts chunk =>
    if ∀ event ∈ chunk, event ∈ eventsAndContexts then
      match referencedStateGroups eventsAndContexts with
      | .error _ => none
      | .ok stateGroups =>
        match w.tables.markAsPersisting w.db instanceName stateGroups with
        | .error _ => none
        | .ok tables =>
          some { w with
            tables := tables
            persists := w.persists ++ [⟨instanceName,stateGroups,chunk,false⟩] }
    else none
  | .storeEvents i events =>
    w.persists[i]?.bind fun persist =>
      if persist.written = false ∧ ∀ event ∈ events, event ∈ persist.chunk then
        match storeEventStateMappings w.eventToStateGroups events with
        | .error _ => none
        | .ok rows =>
          some { w with
            eventToStateGroups := rows
            persists := w.persists.set i { persist with written := true } }
      else none
  | .finishPersisting i error =>
    w.persists[i]?.bind fun persist =>
      if error || persist.written then
        some { w with
          tables := w.tables.finishPersisting w.now persist.instanceName persist.stateGroups error
          persists := w.persists.eraseIdx i }
      else none
  | .updatePartialState event =>
    match updateStateForPartialStateEvent w.eventToStateGroups event with
    | .error _ => none
    | .ok rows => some { w with eventToStateGroups := rows }
  | .purgeHistory eventIds =>
    some { w with eventToStateGroups :=
      Entries.restrict w.eventToStateGroups fun eventId _ => eventId ∉ eventIds }
  | .fetchNext roomId insertionTs =>
    (w.tables.nextCollectionToDelete w.db w.now roomId insertionTs).map fun groups =>
      { w with deletions := w.deletions ++ [⟨groups,groups.keys,[]⟩] }
  | .checkReferences i =>
    w.deletions[i]?.bind fun deletion =>
      let batch := deletion.unchecked.take batchSize
      if batch = [] then none
      else
        let found := batch.filter (isReferenced w.eventToStateGroups)
        let checked := { deletion with
          unchecked := deletion.unchecked.drop batchSize
          referenced := deletion.referenced ++ found }
        some { w with deletions := w.deletions.set i checked }
  | .markAsUsed i =>
    w.deletions[i]?.bind fun deletion =>
      if deletion.unchecked = [] ∧ deletion.referenced ≠ [] then
        let left := Entries.restrict deletion.groupsToSequences fun group _ =>
          group ∉ deletion.referenced
        some { w with
          tables := w.tables.removePending deletion.referenced
          deletions := w.deletions.set i ⟨left,[],[]⟩ }
      else none
  | .purge i =>
    w.deletions[i]?.bind fun deletion =>
      if deletion.unchecked = [] ∧ deletion.referenced = [] then
        let toDelete := w.tables.readyForPotentialDeletion w.db w.now deletion.groupsToSequences
        some { w with
          db := purgeUnreferencedStateGroups engine w.db toDelete
          tables := w.tables.removePending toDelete
          deletions := w.deletions.eraseIdx i }
      else none

end DeletionWorld

end TextrpBriij.StateStore
