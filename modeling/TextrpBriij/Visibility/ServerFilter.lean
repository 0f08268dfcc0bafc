import TextrpBriij.EventAuth.Levels
import TextrpBriij.Visibility.ClientFilters

/-! # Which events a server may see

The history visibility and the memberships of the server at each event are read from the state,
and a predicate of its own decides for each event. One event whose state cannot be read stops the
whole list.
-/
namespace TextrpBriij.Visibility
open Api EventAuth Events Python State TextrpBriij.Types

/-- What the filter reads of the server. -/
structure ServerStorage where
  env : Env
  isErased : String → Bool
  isPartialStateRoom : String → Bool
  /-- The IDs of the state after each event that is not an outlier. -/
  stateIdsForEvent : String → Option (StateMap String)
  getEvent : String → Option EventBase
  pruneEvent : ClientEvent → ClientEvent

/-- The arguments of `filter_events_for_server` but for the events. -/
structure ServerRequest where
  targetServerName : String
  localServerName : String
  redact : Bool
  filterOutErasedSenders : Bool
  filterOutRemotePartialStateEvents : Bool

namespace ServerStorage

variable (storage : ServerStorage) (request : ServerRequest)

/-- `get_state_ids_for_events` for one event. Event IDs identify events, so the maps from event IDs
of the source are lists along the events here. -/
def stateIds (stateFilter : StateFilter) (event : ClientEvent) : Except Error (StateMap String) :=
  match storage.stateIdsForEvent event.eventId with
  | some stateIds => pure (stateFilter.filterState stateIds)
  | none => throw (.raised "RuntimeError")

def assertStr : Json → Except Error String
  | .str vis => pure vis
  | _ => throw (.raised "AssertionError")

def visibilityIn (stateIds : StateMap String) : Except Error String :=
  match (stateIds.lookup historyVisKey).filter (· ≠ "") with
  | none => pure "shared"
  | some visibilityId =>
    match storage.getEvent visibilityId with
    | none => throw (.raised "KeyError")
    | some visEvent => assertStr (visEvent.contentGet "history_visibility" (.str "shared"))

/-- `_event_to_history_vis`. The state of outliers is not asked for. -/
def eventToHistoryVis (events : List ClientEvent) : Except Error (List String) := do
  let eventToStateIds ← events.mapM fun event =>
    if event.outlier then pure ∅
    else storage.stateIds (.fromTypes [(historyVisKey.1,some historyVisKey.2)]) event
  eventToStateIds.mapM storage.visibilityIn

def serverNameOf (id : String) : Option String :=
  match id.toList.dropWhile (· ≠ ':') with
  | _ :: domain => some (String.ofList domain)
  | [] => none

/-- The function `include` of `_event_to_memberships`. -/
def isOfServer (serverName stateKey : String) : Bool := serverNameOf stateKey = some serverName

def memberEvents (serverName : String) (stateIds : StateMap String) : List EventBase :=
  stateIds.entries.filterMap fun entry =>
    if isOfServer serverName entry.1.2 then storage.getEvent entry.2 else none

def membershipOf (event : EventBase) : Except Error (String × Json) := do
  pure (← event.requireStateKey,← event.membership)

def isRestricted (historyVisibility : String) : Bool :=
  historyVisibility ∉ ["shared","world_readable"]

/-- `_event_to_memberships` for the events with restricted visibility; the others get no
memberships. -/
def eventToMemberships (serverName : String) (events : List (ClientEvent × String)) :
    Except Error (List (List (String × Json))) := do
  let eventToStateIds ← events.mapM fun entry =>
    if isRestricted entry.2 then storage.stateIds (.fromTypes [("m.room.member",none)]) entry.1
    else pure ∅
  eventToStateIds.mapM fun stateIds => (storage.memberEvents serverName stateIds).mapM membershipOf

end ServerStorage

def letsSee (historyVisibility membership : String) : Bool :=
  (membership = "invite" ∧ historyVisibility = "invited") ∨ membership = "join"

/-- The loop over the memberships. `UserID::try_from` wants a sigil and a colon. -/
def seesByMembership (targetServerName historyVisibility : String) : List (String × String) → Except Error Bool
  | [] => pure false
  | (stateKey,membership) :: memberships =>
    if stateKey.toList.head? ≠ some '@' then throw (.raised "ValueError")
    else
      match ServerStorage.serverNameOf stateKey with
      | none => throw (.raised "ValueError")
      | some serverName =>
        if serverName ≠ targetServerName then throw (.raised "ValueError")
        else if letsSee historyVisibility membership then pure true
        else seesByMembership targetServerName historyVisibility memberships

def toStrings (memberships : List (String × Json)) : Except Error (List (String × String)) :=
  memberships.mapM fun entry =>
    match entry.2 with
    | .str membership => pure (entry.1,membership)
    | _ => throw (.raised "TypeError")

def eventVisibleToServer (targetServerName historyVisibility : String)
    (erased partialStateInvisible : Bool) (memberships : List (String × Json)) :
    Except Error Bool := do
  let memberships ← toStrings memberships
  if erased then pure false
  else if partialStateInvisible then pure false
  else if historyVisibility ≠ "invited" ∧ historyVisibility ≠ "joined" then pure true
  else seesByMembership targetServerName historyVisibility memberships

namespace ServerStorage

variable (storage : ServerStorage) (request : ServerRequest)

def erasedSender (event : ClientEvent) : Bool :=
  request.filterOutErasedSenders && storage.isErased event.sender

def partialStateInvisible (event : ClientEvent) : Except Error Bool :=
  if request.filterOutRemotePartialStateEvents then do
    let senderDomain ← getDomainFromId storage.env event.sender
    pure (senderDomain ≠ request.localServerName && storage.isPartialStateRoom event.roomId)
  else pure false

def filterEventsForServer (events : List ClientEvent) : Except Error (List ClientEvent) := do
  let invisible ← events.mapM (storage.partialStateInvisible request)
  let historyVis ← storage.eventToHistoryVis events
  let memberships ← storage.eventToMemberships request.targetServerName (events.zip historyVis)
  let visible ← (events.zip (historyVis.zip (invisible.zip memberships))).mapM fun entry =>
    eventVisibleToServer request.targetServerName entry.2.1 (storage.erasedSender request entry.1)
      entry.2.2.1 entry.2.2.2
  pure ((events.zip visible).filterMap fun entry =>
    if entry.2 then some entry.1 else if request.redact then some (storage.pruneEvent entry.1)
    else none)

end ServerStorage

end TextrpBriij.Visibility
