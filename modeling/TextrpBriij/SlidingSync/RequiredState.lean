import TextrpBriij.Types.StateFilter

/-! # Changes of the required state

A connection remembers for each room which state the client has been sent, as a map from event
types to state keys. When a request asks for other state, the map to remember next and the state
to fetch follow from the old map, the new one and the state that changed in between.
-/
namespace TextrpBriij.SlidingSync
open AuthChain (Dict)
open State TextrpBriij.Types

def wildcard : String := "*"

def lazy : String := "$LAZY"

def me : String := "$ME"

def member : String := "m.room.member"

def maxNumberPreviousStateKeysToRemember : ℕ := 100

abbrev RequiredStateMap := Dict String (Finset String)

/-- `required_state_map.get(event_type, set())` -/
def keysOf (stateMap : RequiredStateMap) (eventType : String) : Finset String :=
  (stateMap.lookup eventType).getD ∅

/-- The arguments of `_required_state_changes`. -/
structure RequiredStateInput where
  userId : String
  prevRequiredStateMap : RequiredStateMap
  requestRequiredStateMap : RequiredStateMap
  previouslyReturnedLazyUserIds : Finset String
  requestLazyLoadUserIds : Finset String
  stateDeltas : StateMap String

structure RequiredStateChangesReturn where
  changedRequiredStateMap : Option RequiredStateMap
  addedStateFilter : StateFilter
  extraUsersToAddToLazyCache : Finset String := ∅
  lazyMembersInvalidated : Finset String := ∅

/-- The orders of the sets that are iterated: that of the event types, and those of the state keys
of each of them. -/
structure SetOrders where
  types : Iteration
  keys : String → Iteration

def SetOrders.sorted : SetOrders := ⟨.listed,fun _ => .listed⟩

/-- A set in the order in which it is iterated at a place. -/
def elements (it : Iteration) (place : ℕ) (s : Finset String) : List String :=
  it.order place s.sort

namespace RequiredStateInput

variable (i : RequiredStateInput)

def lazyMembersInvalidated : Finset String :=
  ((i.stateDeltas.keys.filter fun delta => delta.1 = member ∧ delta.2 ∉ i.requestLazyLoadUserIds ∧
    delta.2 ∈ i.previouslyReturnedLazyUserIds).map (·.2)).toFinset

def unchanged : Bool :=
  ∀ eventType ∈ i.prevRequiredStateMap.keys ++ i.requestRequiredStateMap.keys,
    i.prevRequiredStateMap.lookup eventType = i.requestRequiredStateMap.lookup eventType

/-- The keys of `changed_types_to_state_keys`, in the order of the deltas. -/
def changedTypes : List String := (i.stateDeltas.keys.map (·.1)).eraseDups

variable (eventType : String) (orders : SetOrders)

def changedStateKeys : Finset String :=
  ((i.stateDeltas.keys.filter fun delta => delta.1 = eventType).map (·.2)).toFinset

def oldStateKeys : Finset String := keysOf i.prevRequiredStateMap eventType

def requestStateKeys : Finset String :=
  keysOf i.requestRequiredStateMap eventType

/-- The requested keys with as many of the previous ones as may be remembered. -/
def remember (order : Iteration) (requested inheritable : Finset String) : Finset String :=
  if (requested ∪ inheritable).card > maxNumberPreviousStateKeysToRemember then
    if requested.card < maxNumberPreviousStateKeysToRemember then
      requested ∪ ((elements order 0 inheritable).take
        (maxNumberPreviousStateKeysToRemember - requested.card)).toFinset
    else requested
  else requested ∪ inheritable

def addedType (eventType stateKey : String) : Option (String × Option String) :=
  if stateKey = me then some (eventType,some i.userId)
  else if stateKey = lazy then none
  else if eventType = member then
    if stateKey ∉ i.previouslyReturnedLazyUserIds then some (eventType,some stateKey) else none
  else some (eventType,some stateKey)

abbrev Additions := RequiredStateMap × List (String × Option String)

def addRound (orders : SetOrders) (acc : Additions) (eventType : String) : Additions :=
  let (changes,added) := acc
  let old := i.oldStateKeys eventType
  let requested := i.requestStateKeys eventType
  if old = requested then (changes,added)
  else if requested \ old = ∅ then (changes,added)
  else if eventType = member ∧ lazy ∉ old ∧ lazy ∈ requested then
    (changes.insert eventType requested,added)
  else
    let invalidated := (old \ requested) ∩ i.changedStateKeys eventType
    let inheritable := (old \ {wildcard,lazy}) \ invalidated
    let changes := changes.insert eventType (remember (orders.keys eventType) requested inheritable)
    if wildcard ∈ old then (changes,added)
    else if wildcard ∈ requested then (changes,added ++ [(eventType,none)])
    else (changes,added ++ (elements (orders.keys eventType) 1 (requested \ old)).filterMap
      (i.addedType eventType))

def eventTypes : List String :=
  elements orders.types 0 (i.prevRequiredStateMap.keys.toFinset ∪ i.requestRequiredStateMap.keys.toFinset)

def additions : Additions :=
  (i.eventTypes orders).foldl (i.addRound orders) (∅,[])

def previouslyRequiredStateMembers : Finset String :=
  if me ∈ i.oldStateKeys member then insert i.userId (i.oldStateKeys member)
  else i.oldStateKeys member

def addedLazyMembers : List (String × Option String) :=
  (elements orders.types 1 ((i.requestLazyLoadUserIds \ i.previouslyReturnedLazyUserIds) \
    i.previouslyRequiredStateMembers)).map fun userId => (member,some userId)

def changedWithMe : Finset String :=
  if i.userId ∈ i.changedStateKeys eventType then insert me (i.changedStateKeys eventType)
  else i.changedStateKeys eventType

def removeRound (changes : RequiredStateMap) (eventType : String) : RequiredStateMap :=
  let old := i.oldStateKeys eventType
  let requested := i.requestStateKeys eventType
  let invalidated := (old \ requested) ∩ i.changedWithMe eventType
  if old = requested then changes
  else if requested \ old ≠ ∅ then changes
  else if decide (wildcard ∈ old) ≠ decide (wildcard ∈ requested) then
    changes.insert eventType requested
  else if eventType = member ∧ decide (lazy ∈ old) ≠ decide (lazy ∈ requested) then
    changes.insert eventType requested
  else if eventType = member ∧ (lazy ∈ old ∨ lazy ∈ requested) ∧ invalidated ≠ ∅ then
    changes.insert eventType requested
  else if invalidated ≠ ∅ then changes.insert eventType (old \ invalidated)
  else changes

def changes : RequiredStateMap :=
  i.changedTypes.foldl i.removeRound (i.additions orders).1

/-- The members that were sent explicitly and have not changed. The variable `request_state_keys`
is that of the last round of the loops. -/
def usersToAddToLazyCache : Finset String :=
  let lastType := (i.eventTypes orders ++ i.changedTypes).getLast?.getD member
  if keysOf (i.changes orders) member ≠ ∅ ∧ lazy ∈ i.requestStateKeys lastType then
    (((i.oldStateKeys member) \ {wildcard,lazy}).image fun stateKey =>
      if stateKey = me then i.userId else stateKey).filter fun userId =>
        (member,userId) ∉ i.stateDeltas.keys
  else ∅

def applyChange (stateMap : RequiredStateMap) (change : (_ : String) × Finset String) : RequiredStateMap :=
  if change.2 ≠ ∅ then stateMap.insert change.1 change.2 else stateMap.erase change.1

def newRequiredStateMap : Option RequiredStateMap :=
  let changes := i.changes orders
  if changes.entries = [] then none
  else some (changes.entries.foldl applyChange i.prevRequiredStateMap)

def requiredStateChanges : RequiredStateChangesReturn :=
  let prevWildcard := i.oldStateKeys wildcard
  let requestWildcard := i.requestStateKeys wildcard
  if i.unchanged then
    -- No types make `StateFilter.none()`.
    { changedRequiredStateMap := none
      addedStateFilter := .fromTypes ((elements orders.types 1 (i.requestLazyLoadUserIds \
        i.previouslyReturnedLazyUserIds)).map fun userId => (member,some userId))
      lazyMembersInvalidated := i.lazyMembersInvalidated }
  else if wildcard ∈ prevWildcard then
    { changedRequiredStateMap := some i.requestRequiredStateMap
      addedStateFilter := .none
      lazyMembersInvalidated := i.lazyMembersInvalidated }
  else if requestWildcard \ prevWildcard ≠ ∅ then
    { changedRequiredStateMap := some i.requestRequiredStateMap
      addedStateFilter := .all
      lazyMembersInvalidated := i.lazyMembersInvalidated }
  else if prevWildcard \ requestWildcard ≠ ∅ then
    { changedRequiredStateMap := some i.requestRequiredStateMap
      addedStateFilter := .none
      lazyMembersInvalidated := i.lazyMembersInvalidated }
  else
    { changedRequiredStateMap := i.newRequiredStateMap orders
      addedStateFilter := .fromTypes ((i.additions orders).2 ++ i.addedLazyMembers orders)
      extraUsersToAddToLazyCache := i.usersToAddToLazyCache orders
      lazyMembersInvalidated := i.lazyMembersInvalidated }

end RequiredStateInput

end TextrpBriij.SlidingSync
