import TextrpBriij.Events.EventBase
import TextrpBriij.Types.StateFilter

/-! # Which events a client may see

One filter takes the events for a user with the state after each of them, the other takes the
users for an event with the state before it. Both check the event first, then the history
visibility and at last the membership of the user.
-/
namespace TextrpBriij.Visibility
open Api Events Python State TextrpBriij.Types

/-- An event with the data of this server about it. -/
structure ClientEvent extends EventBase where
  softFailed : Bool
  policyServerSpammy : Bool
  outlier : Bool
  /-- The `prev_content` of the unsigned data. The server itself puts the content of the replaced
  event there, so it is an object. -/
  prevContent : Option Fields
  /-- The field of sticky events, `None` when it is missing. -/
  sticky : Json

variable (e : ClientEvent) (storage : ClientStorage) (userIds : List String) (userId : String)
variable (event : ClientEvent) (visibility : String)

def ClientEvent.isState : Bool := e.stateKey.isSome

def visibilityPriority : List String := ["world_readable","shared","invited","joined"]

def membershipPriority : List String := ["join","invite","knock","leave","ban"]

def oneOf (values : List String) (default : String) : Json → String
  | .str s => if s ∈ values then s else default
  | _ => default

def firstOf (values : List String) (old new : String) : String :=
  if values.idxOf old < values.idxOf new then old else new

def ClientEvent.prevGet (key : String) : Json :=
  ((e.prevContent.getD []).lookup key).getD .null

def historyVisKey : String × String := ("m.room.history_visibility","")

def getEffectiveRoomVisibilityFromState (state : StateMap EventBase) : String :=
  match state.lookup historyVisKey with
  | none => "shared"
  | some event =>
    oneOf visibilityPriority "shared" (event.contentGet "history_visibility" (.str "shared"))

/-- `_check_history_visibility`, whether it is `ALLOWED`. -/
def checkHistoryVisibility (isPeeking : Bool) : Bool :=
  let visibility := if event.type = "m.room.history_visibility" then
      firstOf visibilityPriority
        (oneOf visibilityPriority "shared" (event.prevGet "history_visibility")) visibility
    else visibility
  (visibility = "shared" ∧ isPeeking = false) ∨ visibility = "world_readable"

structure RetentionPolicy where
  maxLifetime : Option ℤ

/-- `_check_filter_send_to_client`, whether it is `DENIED`. -/
def checkFilterSendToClient (now : ℤ) (retentionPolicy : RetentionPolicy)
    (senderIgnored : Bool) : Bool :=
  event.type = "org.matrix.dummy_event" ∨ (event.isState = false ∧ senderIgnored) ∨
    event.type = "m.room.aliases" ∨ (event.isState = false ∧
      retentionPolicy.maxLifetime.any fun maxLifetime => event.originServerTs < now - maxLifetime)

structure CheckMembershipReturn where
  allowed : Bool
  joined : Bool

def checkVisibility (membership : Json) (visibility : String) (isPeeking : Bool) : CheckMembershipReturn :=
  if membership.isStr "join" then ⟨true,true⟩
  else if visibility = "joined" then ⟨false,false⟩
  else if visibility = "invited" then ⟨membership.isStr "invite",false⟩
  else if visibility = "shared" ∧ isPeeking then ⟨false,false⟩
  else ⟨true,false⟩

def isOwnMembership (event : ClientEvent) (userId : String) : Except Error Bool :=
  if event.type = "m.room.member" then do pure (decide ((← event.requireStateKey) = userId))
  else pure false

def checkMembership (state : StateMap EventBase) (isPeeking : Bool) : Except Error CheckMembershipReturn := do
  if ← isOwnMembership event userId then
    let membership := oneOf membershipPriority "leave" (event.contentGet "membership" .null)
    let prevMembership := oneOf membershipPriority "leave" (event.prevGet "membership")
    if membership = "leave" ∧ (prevMembership = "join" ∨ prevMembership = "invite") then
      pure ⟨true,false⟩
    else
      let membership := firstOf membershipPriority prevMembership membership
      pure (checkVisibility (.str membership) visibility isPeeking)
  else
    match state.lookup ("m.room.member",userId) with
    | none => pure (checkVisibility .null visibility isPeeking)
    | some membershipEvent =>
      pure (checkVisibility (← membershipEvent.membership) visibility isPeeking)

/-- What the filters read of the server. -/
structure ClientStorage where
  now : ℤ
  isServerAdmin : String → Bool
  returnSoftFailedEvents : String → Bool
  returnPolicyServerSpammyEvents : String → Bool
  /-- The first user ignores the second. -/
  ignores : String → String → Bool
  isErased : String → Bool
  retentionPolicyForRoom : String → RetentionPolicy
  /-- The state after each event that is not an outlier. -/
  stateForEvent : String → Option (StateMap EventBase)
  getEvent : String → Option EventBase
  pruneEvent : ClientEvent → ClientEvent
  msc4354Enabled : Bool

def checkClientAllowedToSeeEvent (filterSendToClient isPeeking : Bool) (alwaysIncludeIds : List String)
    (senderIgnored : Bool) (retentionPolicy : RetentionPolicy)
    (state : Option (StateMap EventBase)) (senderErased : Bool) :
    Except Error (Option ClientEvent) :=
  if filterSendToClient ∧ checkFilterSendToClient event storage.now retentionPolicy senderIgnored then
    pure none
  else if event.eventId ∈ alwaysIncludeIds then pure (some event)
  else if event.outlier then do
    if ← isOwnMembership event userId then pure (some event) else pure none
  else
    match state with
    | none => throw (.raised "Exception")
    | some state => do
      let visibility := getEffectiveRoomVisibilityFromState state
      if senderErased = false ∧ checkHistoryVisibility event visibility isPeeking then
        pure (some event)
      else
        let result ← checkMembership userId event visibility state isPeeking
        if result.allowed = false then pure none
        else if senderErased ∧ result.joined = false then pure (some (storage.pruneEvent event))
        else pure (some event)

def ClientEvent.isCallInvite : Bool := e.type = "m.call.invite" ∧ e.isState = false

def ClientEvent.stickyDuration : Option ℤ :=
  match e.sticky with
  | .obj fields =>
    match fields.lookup "duration_ms" with
    | some (.int n) => if 0 ≤ n then some (min n 3600000) else none
    | _ => none
  | _ => none

structure SeenEvent where
  event : ClientEvent
  membership : Json
  stickyTtl : Option ℤ

def stickyTtl : Option ℤ :=
  if storage.msc4354Enabled then
    event.stickyDuration.bind fun duration =>
      let expiresAt := min event.originServerTs storage.now + duration
      if storage.now < expiresAt then some (expiresAt - storage.now) else none
  else none

def membershipAfter (state : Option (StateMap EventBase)) : Except Error Json := do
  if ← isOwnMembership event userId then event.membership
  else
    match state with
    | none => throw (.raised "Exception")
    | some state =>
      match state.lookup ("m.room.member",userId) with
      | some membershipEvent => membershipEvent.membership
      | none => pure (.str "leave")

def isPublicCallInvite (state : Option (StateMap EventBase)) : Except Error Bool :=
  if event.isCallInvite then
    match state with
    | none => throw (.raised "AssertionError")
    | some state => pure ((state.lookup ("m.room.join_rules","")).any fun joinRules =>
        (joinRules.contentGet "join_rule" .null).isStr "public")
  else pure false

/-- The function `allowed` of the filter for one user. The retention policies are only there where
the events are sent to a client. -/
def allowed (storage : ClientStorage) (userId : String) (isPeeking : Bool)
    (alwaysIncludeIds : List String) (filterSendToClient : Bool) (types : StateFilter)
    (event : ClientEvent) : Except Error (Option SeenEvent) := do
  let state := if event.outlier then none
    else (storage.stateForEvent event.eventId).map types.filterState
  if filterSendToClient = false then throw (.raised "NameError")
  let filtered ← checkClientAllowedToSeeEvent storage userId event filterSendToClient isPeeking
    alwaysIncludeIds (storage.ignores userId event.sender)
    (storage.retentionPolicyForRoom event.roomId) state (storage.isErased event.sender)
  match filtered with
  | none => pure none
  | some filtered =>
    if ← isPublicCallInvite event state then pure none
    else
      let membership ← membershipAfter userId event state
      pure (some ⟨filtered,membership,stickyTtl storage filtered⟩)

def notSoftFailed (filterSendToClient : Bool) (events : List ClientEvent) : List ClientEvent :=
  if filterSendToClient ∧ storage.isServerAdmin userId ∧ storage.returnSoftFailedEvents userId then
    events
  else if filterSendToClient ∧ storage.isServerAdmin userId ∧ storage.returnPolicyServerSpammyEvents userId then
    events.filter fun e => e.softFailed = false ∨ e.policyServerSpammy
  else events.filter fun e => e.softFailed = false

def filterAndTransformEventsForClient (events : List ClientEvent) (isPeeking : Bool) (alwaysIncludeIds : List String)
    (filterSendToClient : Bool) : Except Error (List SeenEvent) := do
  let foundCallInvite := (events.filter fun e => e.softFailed = false).any (·.isCallInvite)
  let types := [(historyVisKey.1,some historyVisKey.2),("m.room.member",some userId)] ++
    if foundCallInvite then [("m.room.join_rules",some "")] else []
  let seen ← (notSoftFailed storage userId filterSendToClient events).mapM
    (allowed storage userId isPeeking alwaysIncludeIds filterSendToClient (.fromTypes types))
  pure (seen.filterMap id)

def getStateMap (prevStateIds : StateMap String) (stateFilter : StateFilter) : StateMap EventBase :=
  let stateMap := Entries.filterMapValues storage.getEvent (stateFilter.filterState prevStateIds)
  match event.stateKey with
  | some stateKey => stateMap.insert (event.type,stateKey) event.toEventBase
  | none => stateMap

def isDenied : Bool :=
  checkFilterSendToClient event storage.now (storage.retentionPolicyForRoom event.roomId)
    (storage.ignores userId event.sender)

/-- `allowed_user_ids` after the checks for sending. -/
def notDenied (filterSendToClient : Bool) : List String :=
  if filterSendToClient then userIds.dedup.filter fun userId => isDenied storage userId event = false
  else userIds.dedup

def usersAllowed (state : StateMap EventBase) (isPeeking : Bool) : Except Error (List String) := do
  let checked ← userIds.mapM fun userId => do
    pure (userId,(← checkMembership userId event visibility state isPeeking).allowed)
  pure ((checked.filter (·.2)).map (·.1))

def filterEventForClientsWithState (prevStateIds : StateMap String) (isPeeking filterSendToClient : Bool) :
    Except Error (List String) :=
  if event.softFailed then pure []
  else
    let allowedUserIds := notDenied storage userIds event filterSendToClient
    if event.outlier then
      if event.type = "m.room.member" then do
        let stateKey ← event.requireStateKey
        pure (if stateKey ∈ allowedUserIds then [stateKey] else [])
      else pure []
    else
      let visibility := getEffectiveRoomVisibilityFromState (getStateMap storage event prevStateIds
        (.fromTypes [(historyVisKey.1,some historyVisKey.2)]))
      if checkHistoryVisibility event visibility isPeeking then pure allowedUserIds
      else
        let stateMap := getStateMap storage event prevStateIds (.fromTypes
          (allowedUserIds.map (fun userId => ("m.room.member",some userId)) ++
            [(historyVisKey.1,some historyVisKey.2)]))
        usersAllowed allowedUserIds event visibility stateMap isPeeking

end TextrpBriij.Visibility
