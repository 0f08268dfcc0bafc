import TextrpBriij.AuthChain.Difference
import TextrpBriij.Foundation.Worklist
import TextrpBriij.State.StateMap

/-! # The auth chain difference of state sets with unpersisted events

`_get_auth_chain_difference` of the second state resolution algorithm. The store knows the
persisted events only, so the unpersisted ones are searched here, and the persisted events that
they lead to take their place in the state sets that the store is asked about. Sets are lists
without a fixed order, and an iteration over one is in whatever order `Iteration` gives.
-/
namespace TextrpBriij.State
open AuthChain (Dict unionMinusIntersection)
open Api

namespace V2

/-- `StateResolutionStore.get_auth_chain_difference` for a room: the auth difference of the
state sets, and the conflicted subgraph. -/
abbrev DifferenceStore := List (List String) → Option (List String) → List String →
  Except Error (List String × Option (List String))

section
variable {Event : Type} (authEventIds : Event → List String) (unpersistedEvents : Dict String Event)

def authIdsOf (eventId : String) : List String :=
  ((unpersistedEvents.lookup eventId).map authEventIds).getD []

def unpersistedAuth (eventId : String) : List String :=
  (authIdsOf authEventIds unpersistedEvents eventId).filter (· ∈ unpersistedEvents)

structure AuthSearch where
  chain : List String
  eventToNextEvent : Dict String (List String)

/-- `chain.add(auth_id)` and `event_to_next_event.setdefault(auth_id, set()).add(event_id)` -/
def AuthSearch.add (eventId : String) (s : AuthSearch) (authId : String) : AuthSearch where
  chain := s.chain.insert authId
  eventToNextEvent := s.eventToNextEvent.insert authId
    (((s.eventToNextEvent.lookup authId).getD []).insert eventId)

def AuthSearch.visit (s : AuthSearch) (eventId : String) : AuthSearch :=
  (authIdsOf authEventIds unpersistedEvents eventId).foldl (AuthSearch.add eventId) s

/-- The loop over `to_search`, a stack. An event is searched once for each path to it. -/
def searchAuth : ℕ → List String → AuthSearch → AuthSearch
  | 0, _, s => s
  | _ + 1, [], s => s
  | fuel + 1, e :: toSearch, s =>
    searchAuth fuel ((unpersistedAuth authEventIds unpersistedEvents e).reverse ++ toSearch)
      (s.visit authEventIds unpersistedEvents e)

structure Searched where
  eventsToAuthChain : Dict String (List String)
  eventToNextEvent : Dict String (List String)

def Searched.add (s : Searched) (eventId : String) : Searched :=
  let fuel := Worklist.budget (unpersistedAuth authEventIds unpersistedEvents)
    unpersistedEvents.keys.length [eventId]
  let found := searchAuth authEventIds unpersistedEvents fuel [eventId] ⟨[eventId],s.eventToNextEvent⟩
  ⟨s.eventsToAuthChain.insert eventId found.chain,found.eventToNextEvent⟩

def searchUnpersisted (it : Iteration) : Searched :=
  (it.order 0 unpersistedEvents.keys).foldl (Searched.add authEventIds unpersistedEvents) ⟨∅,∅⟩

end

section
variable {Event : Type} (unpersistedEvents : Dict String Event) (eventsToAuthChain : Dict String (List String))

def cutStateSet (it : Iteration) (stateSet : StateMap String) : List String × List String :=
  (it.order 1 (values stateSet)).foldl (fun ids eventId =>
    match eventsToAuthChain.lookup eventId with
    | some eventChain => (ids.1 ∪ eventChain.filter (· ∉ unpersistedEvents),
        ids.2 ∪ eventChain.filter (· ∈ unpersistedEvents))
    | none => (ids.1.insert eventId,ids.2)) ([],[])

def cutConflicted (it : Iteration) (conflictedState : List String) : List String × List String :=
  (it.order 2 conflictedState).foldl (fun ids conflictedEventId =>
    match eventsToAuthChain.lookup conflictedEventId with
    | some eventChain => (ids.1.insert conflictedEventId,
        ids.2 ∪ eventChain.filter (· ∉ unpersistedEvents))
    | none => ids) ([],[])

end

structure Cut where
  stateSetsIds : List (List String)
  additional : List String
  unpersistedConflictedEvents : List String
  authDifferenceUnpersistedPart : List String

def cut {Event : Type} (it : Iteration) (unpersistedEvents : Dict String Event)
    (eventsToAuthChain : Dict String (List String)) (stateSets : List (StateMap String))
    (conflictedState : Option (List String)) : Except Error Cut := do
  if unpersistedEvents.keys = [] then
    pure ⟨stateSets.map fun stateSet => (values stateSet).dedup,[],[],[]⟩
  else
    let ids := stateSets.map (cutStateSet unpersistedEvents eventsToAuthChain it)
    let conflicted := cutConflicted unpersistedEvents eventsToAuthChain it (conflictedState.getD [])
    -- The first of the sets is looked at before the others.
    if ids = [] then throw (.raised "IndexError")
    pure ⟨ids.map fun i => i.1,conflicted.2,conflicted.1, unionMinusIntersection (ids.map fun i => i.2)⟩

/-- The loop over `search_queue`, a set that any element may be popped from. -/
def forwardsConflicted (it : Iteration) (eventToNextEvent : Dict String (List String)) :
    ℕ → List String → List String → List String
  | 0, _, forwards => forwards
  | _ + 1, [], forwards => forwards
  | fuel + 1, frontierEvent :: searchQueue, forwards =>
    forwardsConflicted it eventToNextEvent fuel
      (it.order 4 (searchQueue ∪ (eventToNextEvent.lookup frontierEvent).getD []))
      (forwards.insert frontierEvent)

def expandSubgraph (it : Iteration) (searched : Searched) (c : Cut) (conflictedState : List String)
    (conflictedSubgraph : List String) : List String :=
  let subgraph := conflictedSubgraph ∪ conflictedState
  let subgraphFrontier := subgraph ∩ c.additional
  let searchQueue := it.order 3 (subgraphFrontier ∪ c.unpersistedConflictedEvents)
  let next := fun e => (searched.eventToNextEvent.lookup e).getD []
  let fuel := Worklist.budget next searched.eventsToAuthChain.keys.length searchQueue
  let forwards := forwardsConflicted it searched.eventToNextEvent fuel searchQueue []
  let backwards := c.unpersistedConflictedEvents.foldl (fun set uce =>
    set ∪ (searched.eventsToAuthChain.lookup uce).getD []) []
  subgraph ∪ backwards ∩ forwards

def getAuthChainDifference {Event : Type} (authEventIds : Event → List String) (it : Iteration)
    (stateSets : List (StateMap String)) (unpersistedEvents : Dict String Event)
    (stateResStore : DifferenceStore) (conflictedState : Option (List String)) :
    Except Error (List String) := do
  let searched := searchUnpersisted authEventIds unpersistedEvents it
  let c ← cut it unpersistedEvents searched.eventsToAuthChain stateSets conflictedState
  let persistedConflicted := conflictedState.map fun conflicted =>
    conflicted.filter (· ∉ c.unpersistedConflictedEvents)
  let difference ← stateResStore c.stateSetsIds persistedConflicted c.additional
  let authDifference := difference.1 ∪ c.authDifferenceUnpersistedPart
  match persistedConflicted,difference.2 with
  | some conflicted,some subgraph =>
    let subgraph := if unpersistedEvents.keys = [] then subgraph
      else expandSubgraph it searched c conflicted subgraph
    pure (authDifference ∪ subgraph)
  | none,some subgraph => pure (authDifference ∪ subgraph)
  | _,none => pure authDifference

end V2
end TextrpBriij.State
