import TextrpBriij.EventAuth.Levels
import TextrpBriij.Foundation.Worklist
import TextrpBriij.Persist.Extremities

/-! # The current state after a batch

What `_calculate_new_forward_extremities_and_state_delta` returns for a batch: the extremities
and the change of the current state, found without resolving states where the code knows a
shortcut. The stores and the state resolution handler are the fields that the code reads.
-/
namespace TextrpBriij.Persist
open List
open AuthChain (Dict)
open Api Events EventAuth Python State

structure DeltaState where
  toDelete : List (String × String)
  toInsert : StateMap String
  noLongerInRoom : Bool

def DeltaState.apply (delta : DeltaState) (current : StateMap String) : StateMap String :=
  Entries.update current delta.toDelete delta.toInsert

/-- The resolved state, and the state group if one of the given groups has that state. -/
structure StateCacheEntry where
  state : StateMap String
  stateGroup : Option ℕ

structure Server where
  env : Env
  hostname : String
  timeMsec : ℤ
  /-- For a room version, the states of the groups and the events in flight. -/
  resolveStateGroups : Json → List (ℕ × StateMap String) → List EventBase → StateCacheEntry

/-- What the databases hold for the room. -/
structure RoomStore where
  tables : Tables
  latestEventIds : List String
  /-- `event_to_state_groups` -/
  stateGroups : String → Option ℕ
  stateForGroup : ℕ → StateMap String
  currentState : StateMap String
  roomVersion : String
  events : List EventBase
  membershipFromEventId : String → Option String
  isLocalHostInRoomIgnoringUsers : List String → Bool

def Server.isMineId (server : Server) (userId : String) : Bool :=
  match userId.toList.dropWhile (· ≠ ':') with
  | _ :: hostname => String.ofList hostname = server.hostname
  | [] => false

def RoomStore.getEvents (store : RoomStore) (eventIds : List String) : List EventBase :=
  store.events.filter fun e => e.eventId ∈ eventIds

def EventPersistencePair.stateGroup (p : EventPersistencePair) : Except Error (Option ℕ) :=
  if p.isRejected then throw (.raised "RuntimeError") else pure p.context.stateGroup

def stateGroupDeltas (eventsContext : List EventPersistencePair) :
    Except Error (Dict (ℕ × ℕ) (StateMap String)) :=
  eventsContext.foldlM (fun deltas p => do
    match ← p.stateGroup with
    | none => if p.isOutlier then pure deltas else throw (.raised "Exception")
    | some _ => pure (p.context.stateGroupDeltas ∪ deltas)) ∅

/-- `event_id_to_state_group`. The groups of the old extremities come from the database, those
of the others from the batch if they are there. -/
def stateGroupOf (store : RoomStore) (eventsContext : List EventPersistencePair)
    (oldLatestEventIds : List String) (eventId : String) : Except Error ℕ :=
  let fromContext := if eventId ∈ oldLatestEventIds then none else
    eventsContext.findSome? fun p => if p.eventId = eventId then p.context.stateGroup else none
  match fromContext.or (store.stateGroups eventId) with
  | some group => pure group
  | none => throw (.raised "RuntimeError")

def versionFromBatch : List EventPersistencePair → Except Error Json
  | [] => pure .null
  | p :: rest => do
    if p.event.type = "m.room.create" then
      if (← p.event.requireStateKey) = "" then
        pure (p.event.contentGet "room_version" (.str "1"))
      else versionFromBatch rest
    else versionFromBatch rest

def roomVersionFor (store : RoomStore) (eventsContext : List EventPersistencePair) : Except Error Json := do
  let version ← versionFromBatch eventsContext
  pure (if version.truthy then version else .str store.roomVersion)

/-- The loop over the prev events of our own dummy events. Each round goes one event further
back, so in an acyclic store a round for each event is enough. -/
def refersToOwnEvent (server : Server) (store : RoomStore) : ℕ → List EventBase → Bool
  | 0, _ => false
  | _ + 1, [] => false
  | fuel + 1, e :: rest =>
    let own := (e :: rest).filter fun e => server.isMineId e.sender
    own.any (fun e => e.type ≠ "org.matrix.dummy_event") ||
      refersToOwnEvent server store fuel (store.getEvents (own.flatMap (·.prevEventIds)))

def RoomStore.prevEvents (store : RoomStore) (eventId : String) : List String :=
  (store.getEvents [eventId]).flatMap fun e =>
    e.prevEventIds.filter fun id => id ∈ store.events.map (·.eventId)

variable {store : RoomStore}

theorem mem_getEvents {ids : List String} {e : EventBase} :
    e ∈ store.getEvents ids ↔ e ∈ store.events ∧ e.eventId ∈ ids := by
  simp [RoomStore.getEvents]

theorem refersToOwnEvent_add {server : Server} {rank : String → ℕ}
    (hrank : Worklist.Ranked store.prevEvents rank) (fuel more : ℕ) {events : List EventBase}
    (hevents : ∀ e ∈ events, e ∈ store.events ∧ rank e.eventId < fuel) :
    refersToOwnEvent server store (fuel + more) events = refersToOwnEvent server store fuel events := by
  induction fuel generalizing events with
  | zero =>
    cases events with
    | nil => cases more <;> rfl
    | cons e rest => exact absurd (hevents e mem_cons_self).2 (Nat.not_lt_zero _)
  | succ fuel ih =>
    rw [Nat.add_right_comm]
    cases events with
    | nil => rfl
    | cons e rest =>
      rw [refersToOwnEvent]
      congr 1
      apply ih
      intro f hf
      obtain ⟨hf,hprev⟩ := mem_getEvents.mp hf
      obtain ⟨own,hown,hid⟩ := mem_flatMap.mp hprev
      obtain ⟨hstore,hlt⟩ := hevents own (mem_filter.mp hown).1
      have hedge : f.eventId ∈ store.prevEvents own.eventId := by
        refine mem_flatMap.mpr ⟨own,mem_getEvents.mpr ⟨hstore,mem_singleton.mpr rfl⟩,?_⟩
        exact mem_filter.mpr ⟨hid,by simpa using ⟨f,hf,rfl⟩⟩
      have := hrank _ _ hedge
      exact ⟨hf,by omega⟩

/-- In an acyclic store the rounds of the model are enough, more of them change nothing. -/
theorem refersToOwnEvent_enough {server : Server}
    (hacyclic : Util.Acyclic store.prevEvents) {events : List EventBase}
    (hevents : ∀ e ∈ events, e ∈ store.events) (more : ℕ) :
    refersToOwnEvent server store (store.events.length + 1 + more) events =
      refersToOwnEvent server store (store.events.length + 1) events := by
  have hclosed : ∀ id, ∀ prev ∈ store.prevEvents id, prev ∈ (store.events.map (·.eventId)).toFinset := by
    intro id prev hprev
    obtain ⟨e,-,hin⟩ := mem_flatMap.mp hprev
    simpa using (mem_filter.mp hin).2
  obtain ⟨rank,hrank,hbound⟩ := Worklist.exists_ranked hacyclic _ hclosed
  have hcard := toFinset_card_le (store.events.map (·.eventId))
  rw [length_map] at hcard
  refine refersToOwnEvent_add hrank _ more fun e he => ⟨hevents e he,?_⟩
  exact Nat.lt_succ_of_le ((hbound e.eventId).trans hcard)

variable (server : Server)

def mayDrop (store : RoomStore) (newSenders : List String) (currentDepth : ℤ)
    (event : EventBase) : Except Error Bool := do
  if refersToOwnEvent server store (store.events.length + 1) [event] then pure false
  else if event.originServerTs < server.timeMsec - 24 * 60 * 60 * 1000 ∧
      event.depth < currentDepth - 100 then pure true
  else
    let domain ← getDomainFromId server.env event.sender
    pure (decide (domain ∈ newSenders) && decide (event.depth < currentDepth - 20))

def pruneExtremities (store : RoomStore) (newLatestEventIds : List String)
    (resolvedStateGroup : ℕ) (groupOf : String → Except Error ℕ)
    (eventsContext : List EventPersistencePair) : Except Error (List String) := do
  let groups ← newLatestEventIds.mapM fun e => do pure (e,← groupOf e)
  let newNewExtrems := (groups.filter fun row => row.2 = resolvedStateGroup).map (·.1)
  let droppedExtrems := newLatestEventIds.filter (· ∉ newNewExtrems)
  if eventsContext.any (·.eventId ∈ droppedExtrems) then pure newLatestEventIds
  else
    let newSenders ← eventsContext.mapM fun p => getDomainFromId server.env p.event.sender
    match (eventsContext.map (·.event.depth)).max? with
    | none => throw (.raised "ValueError")
    | some currentDepth =>
      let drop ← (store.getEvents droppedExtrems).allM (mayDrop server store newSenders currentDepth)
      pure (if drop then newNewExtrems else newLatestEventIds)

def extremitiesOfResolved (store : RoomStore) (newLatestEventIds : List String)
    (newStateGroups : List ℕ) (groupOf : String → Except Error ℕ)
    (eventsContext : List EventPersistencePair) (res : StateCacheEntry) :
    Except Error (List String) :=
  match res.stateGroup with
  | some group =>
    if group ≠ 0 ∧ group ∈ newStateGroups then
      pruneExtremities server store newLatestEventIds group groupOf eventsContext
    else pure newLatestEventIds
  | none => pure newLatestEventIds

def sameSet {α : Type} [DecidableEq α] (a b : List α) : Prop := a ⊆ b ∧ b ⊆ a

instance {α : Type} [DecidableEq α] (a b : List α) : Decidable (sameSet a b) :=
  inferInstanceAs (Decidable (_ ∧ _))

def getNewStateAfterEvents (store : RoomStore)
    (eventsContext : List EventPersistencePair) (oldLatestEventIds newLatestEventIds : List String) :
    Except Error (Option (StateMap String) × Option (StateMap String) × List String) := do
  let deltas ← stateGroupDeltas eventsContext
  let groupOf := stateGroupOf store eventsContext oldLatestEventIds
  let oldStateGroups := (← oldLatestEventIds.mapM groupOf).dedup
  let newStateGroups := (← newLatestEventIds.mapM groupOf).dedup
  if sameSet oldStateGroups newStateGroups then pure (none,none,newLatestEventIds)
  else
    let known := match newStateGroups, oldStateGroups with
      | [newStateGroup], [oldStateGroup] => deltas.lookup (oldStateGroup,newStateGroup)
      | _, _ => none
    match known, newStateGroups with
    | some deltaIds, _ => pure (none,some deltaIds,newLatestEventIds)
    | none, [newStateGroup] => pure (some (store.stateForGroup newStateGroup),none,newLatestEventIds)
    | none, _ =>
      let version ← roomVersionFor store eventsContext
      let res := server.resolveStateGroups version
        (newStateGroups.map fun group => (group,store.stateForGroup group))
        (eventsContext.map (·.event))
      let extremities ←
        extremitiesOfResolved server store newLatestEventIds newStateGroups groupOf eventsContext res
      pure (some res.state,none,extremities)

def calculateStateDelta (store : RoomStore) (currentState : StateMap String) : DeltaState where
  toDelete := store.currentState.keys.filter fun key => key ∉ currentState.keys
  toInsert := Entries.restrict currentState fun key eventId =>
    some eventId ≠ store.currentState.lookup key
  noLongerInRoom := false

def isServerStillJoined (store : RoomStore)
    (evCtxRm : List EventPersistencePair) (delta : DeltaState) : Except Error Bool := do
  let isLocal : String × String → Bool := fun key =>
    decide (key.1 = "m.room.member") && server.isMineId key.2
  let changed := (delta.toInsert.keys ++ delta.toDelete).filter isLocal
  if changed = [] then pure true
  else
    let inserted := (Entries.restrict delta.toInsert fun key _ => isLocal key).entries.map (·.2)
    let joinedInBatch ← inserted.anyM fun eventId => evCtxRm.anyM fun p =>
      if p.eventId = eventId then do pure ((← p.event.membership).isStr "join") else pure false
    if joinedInBatch then pure true
    else if inserted.any (store.membershipFromEventId · = some "join") then pure true
    else pure (store.isLocalHostInRoomIgnoringUsers (changed.map (·.2)))

def allSinglePrevNotState (evCtxRm : List EventPersistencePair) : Bool :=
  evCtxRm.all fun p => decide (p.prevEventIds.length = 1) && p.event.stateKey.isNone

def calculateNewForwardExtremitiesAndStateDelta (store : RoomStore)
    (evCtxRm : List EventPersistencePair) : Except Error (Option (List String) × Option DeltaState) := do
  let latestEventIds := store.latestEventIds
  let newLatestEventIds := calculateNewExtremities store.tables evCtxRm latestEventIds
  if sameSet newLatestEventIds latestEventIds then pure (none,none)
  else if newLatestEventIds = [] then throw (.raised "AssertionError")
  else if latestEventIds.dedup.length = 1 ∧ newLatestEventIds.dedup.length = 1 ∧
      allSinglePrevNotState evCtxRm then
    pure (some newLatestEventIds,none)
  else
    let (currentState,deltaIds,newForwardExtremities) ←
      getNewStateAfterEvents server store evCtxRm latestEventIds newLatestEventIds
    if newForwardExtremities = [] then throw (.raised "AssertionError")
    else
      let delta := match deltaIds, currentState with
        | some deltaIds, _ => some { toDelete := [], toInsert := deltaIds, noLongerInRoom := false }
        | none, some currentState => some (calculateStateDelta store currentState)
        | none, none => none
      match delta with
      | none => pure (some newForwardExtremities,none)
      | some delta =>
        let isStillJoined ← isServerStillJoined server store evCtxRm delta
        pure (some newForwardExtremities,some { delta with noLongerInRoom := !isStillJoined })

end TextrpBriij.Persist
