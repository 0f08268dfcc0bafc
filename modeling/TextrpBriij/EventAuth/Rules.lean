import TextrpBriij.EventAuth.Levels

/-! # The auth rules that depend on room state

`check_state_dependent_auth_rules` and the rules it is made of. A rule returns, or raises what
the source raises, with the text of the error. Checks of signatures are done elsewhere, except
for third party invites.
-/
namespace TextrpBriij.EventAuth
open Api Python Events
open State (StateMap Iteration)

variable (env : Env)

def authError (code : ℕ) (msg : String) : Error := .authError code msg .forbidden

def unstableSpecAuthError (msg : String) (errcode : Codes) : Error := .authError 403 msg errcode

def memberKey (userId : String) : String × String := ("m.room.member",userId)

variable (it : Iteration) (roomVersion : RoomVersion) (event : EventBase) (membership : Json)
variable (targetUserId : String) (authEvents : StateMap EventBase) (c : MembershipContext)

def canFederate : Bool :=
  match authEvents.lookup createKey with
  | none => false
  | some creationEvent =>
    match creationEvent.contentGet "m.federate" (.bool true) with
    | .bool true => true
    | _ => false

def memberIs (member : Option EventBase) (membership : String) : Except Error Bool :=
  match member with
  | none => pure false
  | some m => do
    let actual ← m.membership
    pure (actual.isStr membership)

def checkJoinedRoom (member : Option EventBase) (userId : Json) (roomId : String) : Except Error Unit := do
  let joined ← memberIs member "join"
  if joined then pure ()
  else throw (authError 403 ("User " ++ env.str userId ++ " not in room " ++ roomId ++ " (" ++
    (match member with | none => "None" | some m => env.reprEvent m) ++ ")"))

def checkEventSenderInRoom : Except Error Unit :=
  checkJoinedRoom env (authEvents.lookup (memberKey event.sender)) (.str event.sender) event.roomId

def getPublicKeys (inviteEvent : EventBase) : Except Error (List Json) := do
  let own := match inviteEvent.content.lookup "public_key" with
    | none => []
    | some key =>
      [.obj (("public_key",key) :: match inviteEvent.content.lookup "key_validity_url" with
        | none => []
        | some url => [("key_validity_url",url)])]
  let others ← (inviteEvent.contentGet "public_keys" (.arr [])).elements
  pure (own ++ others)

def isEd25519 (keyName : String) : Bool := "ed25519:".toList.isPrefixOf keyName.toList

/-- The loop over the keys of a signature block. The first key that is tried decides whether
the loop over the servers is left. -/
def verifyKeys (publicKey : Json) (signed : Fields) (server : String) : List String → Option Verification
  | [] => none
  | keyName :: keys =>
    if isEd25519 keyName then some (env.verifySignedJson publicKey keyName signed server)
    else verifyKeys publicKey signed server keys

def verifyServers (publicKey : Json) (signed : Fields) : Fields → Except Error Bool
  | [] => pure false
  | (server,block) :: rest => do
    let keys ← block.items
    match verifyKeys env publicKey signed server (keys.map fun k => k.1) with
    | none => verifyServers publicKey signed rest
    | some .valid => pure true
    | some .caught => pure false
    | some (.raises e) => throw e

def verifyPublicKeys (signed : Fields) : List Json → Except Error Bool
  | [] => pure false
  | publicKeyObject :: rest => do
    let publicKey ← publicKeyObject.at "public_key"
    let signatures ← fieldAt signed "signatures"
    let servers ← signatures.items
    let verified ← verifyServers env publicKey signed servers
    if verified then pure true else verifyPublicKeys signed rest

/-- `auth_events.get((type, key))` for a key that is any JSON value. -/
def lookupJson (type : String) (key : Json) : Except Error (Option EventBase) :=
  match key with
  | .str s => pure (authEvents.lookup (type,s))
  | key => if key.hashable then pure none else throw (.raised "TypeError")

/-- `content["third_party_invite"]["signed"]`, if both are dicts and it has the three keys. -/
def signedBlock : Option Fields :=
  match event.content.lookup "third_party_invite" with
  | some (.obj thirdPartyInvite) =>
    match thirdPartyInvite.lookup "signed" with
    | some (.obj signed) =>
      if ["mxid","token","signatures"].all (hasField signed) then some signed else none
    | _ => none
  | _ => none

def verifyThirdPartyInvite : Except Error Bool :=
  match signedBlock event with
  | none => pure false
  | some signed => do
    let token ← fieldAt signed "token"
    match ← lookupJson authEvents "m.room.third_party_invite" token with
    | none => pure false
    | some inviteEvent =>
      if inviteEvent.sender ≠ event.sender then pure false
      else
        let mxid ← fieldAt signed "mxid"
        let stateKey ← event.requireStateKey
        if !mxid.isStr stateKey then pure false
        else
          let publicKeys ← getPublicKeys inviteEvent
          verifyPublicKeys env signed publicKeys

/-- What the membership rules know of the room when they come to the membership itself. -/
structure MembershipContext where
  callerInRoom : Bool
  callerInvited : Bool
  callerKnocked : Bool
  targetInRoom : Bool
  targetBanned : Bool
  userLevel : ℤ
  targetLevel : ℤ
  inviteLevel : ℤ
  banLevel : ℤ

def joinRulesKey : String × String := ("m.room.join_rules","")

def joinRule : Json :=
  match authEvents.lookup joinRulesKey with
  | some joinRuleEvent => joinRuleEvent.contentGet "join_rule" (.str "invite")
  | none => .str "invite"

def isCreatorJoin : Except Error Bool :=
  match event.prevEventIds,authEvents.lookup createKey with
  | [prev],some create =>
    if membership.isStr "join" ∧ prev = create.eventId then do
      let creator ← (if roomVersion.implicitRoomCreator then pure (.str create.sender)
        else fieldAt create.content "creator")
      let stateKey ← event.requireStateKey
      pure (creator.isStr stateKey)
    else pure false
  | _,_ => pure false

def membershipContext : Except Error MembershipContext := do
  let caller := authEvents.lookup (memberKey event.sender)
  let callerInRoom ← memberIs caller "join"
  let callerInvited ← memberIs caller "invite"
  let callerKnocked ← (if roomVersion.knockJoinRule then memberIs caller "knock" else pure false)
  let target := authEvents.lookup (memberKey targetUserId)
  let targetInRoom ← memberIs target "join"
  let targetBanned ← memberIs target "ban"
  let userLevel ← getUserPowerLevel env event.sender authEvents
  let targetLevel ← getUserPowerLevel env targetUserId authEvents
  let inviteLevel ← getNamedLevel env authEvents "invite" 0
  let banLevel ← getNamedLevel env authEvents "ban" 50
  pure ⟨callerInRoom,callerInvited,callerKnocked,targetInRoom,targetBanned,userLevel,targetLevel,
    inviteLevel,banLevel⟩

def checkInvite : Except Error Unit :=
  if c.targetBanned then throw (authError 403 (targetUserId ++ " is banned from the room"))
  else if c.targetInRoom then
    throw (unstableSpecAuthError (targetUserId ++ " is already in the room.") .alreadyJoined)
  else if c.userLevel < c.inviteLevel then
    throw (unstableSpecAuthError "You don't have permission to invite users" .insufficientPower)
  else pure ()

def checkAuthorisedJoin : Except Error Unit := do
  let authorisingUser := event.contentGet "join_authorised_via_users_server" .null
  if authorisingUser.isNone then
    throw (authError 403 "Join event is missing authorising user.")
  else
    let memberEvent ← lookupJson authEvents "m.room.member" authorisingUser
    checkJoinedRoom env memberEvent authorisingUser event.roomId
    -- A user with a member event is named by a string.
    match authorisingUser with
    | .str user =>
      let authorisingUserLevel ← getUserPowerLevel env user authEvents
      if authorisingUserLevel < c.inviteLevel then
        throw (authError 403 "Join event authorised by invalid server.")
      else pure ()
    | _ => pure ()

def checkJoin : Except Error Unit :=
  if event.sender ≠ targetUserId then
    throw (authError 403 "Cannot force another user to join.")
  else if c.targetBanned then throw (authError 403 "You are banned from this room")
  else if (joinRule authEvents).isStr "public" then pure ()
  else if (roomVersion.restrictedJoinRule ∧ (joinRule authEvents).isStr "restricted") ∨
      (roomVersion.knockRestrictedJoinRule ∧ (joinRule authEvents).isStr "knock_restricted") then
    if ¬c.callerInRoom ∧ ¬c.callerInvited then checkAuthorisedJoin env event authEvents c
    else pure ()
  else if (joinRule authEvents).isStr "invite" ∨
      (roomVersion.knockJoinRule ∧ (joinRule authEvents).isStr "knock") ∨
      (roomVersion.knockRestrictedJoinRule ∧ (joinRule authEvents).isStr "knock_restricted") then
    if c.callerInRoom ∨ c.callerInvited then pure ()
    else throw (authError 403 "You are not invited to this room.")
  else throw (authError 403 "You are not allowed to join this room")

def checkLeave : Except Error Unit :=
  if c.targetBanned ∧ c.userLevel < c.banLevel then
    throw (unstableSpecAuthError ("You cannot unban user " ++ targetUserId ++ ".") .insufficientPower)
  else if targetUserId ≠ event.sender then do
    let kickLevel ← getNamedLevel env authEvents "kick" 50
    if c.userLevel < kickLevel ∨ c.userLevel ≤ c.targetLevel then
      throw (unstableSpecAuthError ("You cannot kick user " ++ targetUserId ++ ".") .insufficientPower)
    else pure ()
  else pure ()

def checkBan : Except Error Unit :=
  if c.userLevel < c.banLevel then
    throw (unstableSpecAuthError "You don't have permission to ban" .insufficientPower)
  else if c.userLevel ≤ c.targetLevel then
    throw (unstableSpecAuthError "You don't have permission to ban this user" .insufficientPower)
  else pure ()

def checkKnock : Except Error Unit :=
  if ¬(joinRule authEvents).isStr "knock" ∧ (¬roomVersion.knockRestrictedJoinRule ∨
      ¬(joinRule authEvents).isStr "knock_restricted") then
    throw (authError 403 "You don't have permission to knock")
  else if targetUserId ≠ event.sender then
    throw (authError 403 "You cannot knock for other users")
  else if c.targetInRoom then
    throw (unstableSpecAuthError "You cannot knock on a room you are already in" .alreadyJoined)
  else if c.callerInvited then throw (authError 403 "You are already invited to this room")
  else if c.targetBanned then throw (authError 403 "You are banned from this room")
  else pure ()

/-- The rules for each membership, once the caller may change memberships at all. -/
def checkMembership : Except Error Unit :=
  if membership.isStr "invite" then checkInvite targetUserId c
  else if membership.isStr "join" then checkJoin env roomVersion event targetUserId authEvents c
  else if membership.isStr "leave" then checkLeave env event targetUserId authEvents c
  else if membership.isStr "ban" then checkBan c
  else if roomVersion.knockJoinRule ∧ membership.isStr "knock" then
    checkKnock roomVersion event targetUserId authEvents c
  else throw (authError 500 ("Unknown membership " ++ env.str membership))

/-- The rules for a member event, once the room and both users are known. Except to join or to
knock, the caller has to be in the room or to turn down an invite or a knock. -/
def checkMembershipChange : Except Error Unit :=
  if membership.isStr "invite" ∧ hasField event.content "third_party_invite" then do
    let verified ← verifyThirdPartyInvite env event authEvents
    if ¬verified then throw (authError 403 "You are not invited to this room.")
    else if c.targetBanned then throw (authError 403 (targetUserId ++ " is banned from the room"))
    else pure ()
  else if membership.isStr "join" ∨ membership.isStr "knock" then
    checkMembership env roomVersion event membership targetUserId authEvents c
  else if (c.callerInvited ∨ c.callerKnocked) ∧ membership.isStr "leave" ∧
      targetUserId = event.sender then pure ()
  else if ¬c.callerInRoom then
    throw (unstableSpecAuthError (event.sender ++ " not in room " ++ event.roomId ++ ".") .notJoined)
  else checkMembership env roomVersion event membership targetUserId authEvents c

def checkFederates (createEvent : EventBase) (userId : String) (authEvents : StateMap EventBase) :
    Except Error Unit := do
  let creatingDomain ← getDomainFromId env createEvent.sender
  let domain ← getDomainFromId env userId
  if creatingDomain ≠ domain ∧ ¬canFederate authEvents then
    throw (authError 403 "This room has been marked as unfederatable.")
  else pure ()

def isMembershipChangeAllowed : Except Error Unit := do
  let membership ← event.membership
  let creatorJoin ← isCreatorJoin roomVersion event membership authEvents
  if creatorJoin then pure ()
  else
    let targetUserId ← event.requireStateKey
    match authEvents.lookup createKey with
    | none => throw (authError 403 "Create event missing from auth_events")
    | some createEvent =>
      checkFederates env createEvent targetUserId authEvents
      let c ← membershipContext env roomVersion event targetUserId authEvents
      checkMembershipChange env roomVersion event membership targetUserId authEvents c

/-- The user that a state key starts with; `none` is the `ValueError` that the source catches.
The first colon after the sigil ends the local part, and an underscore ends the user ID. -/
def stateKeyUserId (stateKey : String) : Option String :=
  match stateKey.toList with
  | [] => none
  | c :: rest =>
    match rest.dropWhile (· ≠ ':') with
    | [] => none
    | _ :: tail =>
      let domain := tail.takeWhile (· ≠ '_')
      let userId := String.ofList (c :: rest.takeWhile (· ≠ ':') ++ ':' :: domain)
      if validUserId env userId then some userId else none

def checkOthersStateKey (event : EventBase) (stateKey : String) (userLevel : ℤ)
    (authEvents : StateMap EventBase) : Except Error Unit :=
  if event.roomVersion.msc3757Enabled then
    match stateKeyUserId env stateKey with
    | none => throw (.synapseError 400
        "State key neither equals a valid user ID, nor starts with one plus an underscore"
        .badJson)
    | some owner =>
      if owner = event.sender then pure ()
      else do
        let ownerLevel ← getUserPowerLevel env owner authEvents
        if userLevel > ownerLevel then pure ()
        else throw (authError 403 "You are not allowed to set others state")
  else throw (authError 403 "You are not allowed to set others state")

def canSendEvent : Except Error Unit := do
  let sendLevel ← getSendLevel env event.type event.stateKey (getPowerLevelEvent authEvents)
  let userLevel ← getUserPowerLevel env event.sender authEvents
  if userLevel < sendLevel then
    throw (unstableSpecAuthError ("You don't have permission to post that to the room. " ++
      "user_level (" ++ toString userLevel ++ ") < send_level (" ++ toString sendLevel ++ ")")
      .insufficientPower)
  else
    match event.stateKey with
    | none => pure ()
    | some stateKey =>
      if stateKey.toList.head? = some '@' ∧ stateKey ≠ event.sender then
        checkOthersStateKey env event stateKey userLevel authEvents
      else pure ()

/-- Returns whether the target has to be looked at again once it is known. -/
def checkRedaction : Except Error Bool := do
  let userLevel ← getUserPowerLevel env event.sender authEvents
  let redactLevel ← getNamedLevel env authEvents "redact" 50
  if userLevel ≥ redactLevel then pure false
  else if roomVersion.eventFormat = .roomV1V2 then
    let redacterDomain ← getDomainFromId env event.eventId
    match event.redacts with
    | .str redacts =>
      let redacteeDomain ← getDomainFromId env redacts
      if redacterDomain = redacteeDomain then pure true
      else throw (authError 403 "You don't have permission to redact events")
    | _ => pure false
  else pure true

def levelNames : List String :=
  ["users_default","events_default","state_default","ban","redact","kick","invite"]

def checkUserEntry (entry : String × Json) : Except Error Unit :=
  if ¬isUserId entry.1 then
    throw (.synapseError 400 ("Not a valid user_id: " ++ entry.1) .unknown)
  else
    match entry.2.toInt env.intOfString with
    | .error _ => throw (.synapseError 400 ("Not a valid power level: " ++ env.str entry.2) .unknown)
    | .ok _ => pure ()

def checkCreatorsAbsent (userList : Fields) (authEvents : StateMap EventBase) : Except Error Unit :=
  match authEvents.lookup createKey with
  | none => throw (.synapseError 400
      "Cannot check power levels without a create event in auth_events" .unknown)
  | some createEvent =>
    if hasField userList createEvent.sender then
      throw (.synapseError 400
        ("Creator user " ++ createEvent.sender ++ " must not appear in content.users") .unknown)
    else
      let additionalCreators := createEvent.contentGet "additional_creators" (.arr [])
      if additionalCreators.truthy then do
        let entries ← additionalCreators.elements
        let creators ← hashSet entries
        if creators.any fun creator => userList.any fun user => creator.isStr user.1 then
          throw (.synapseError 400 "Additional creators users must not appear in content.users" .unknown)
        else pure ()
      else pure ()

def isInt : Json → Bool
  | .int _ => true
  | _ => false

def isIntMap : Json → Bool
  | .obj fields => fields.all fun f => isInt f.2
  | _ => false

def checkIntLevels (field : String × Json) : Except Error Unit :=
  if levelNames.contains field.1 ∧ ¬isInt field.2 then
    throw (.synapseError 400 (env.repr field.2 ++ " must be an integer.") .unknown)
  else if ["events","notifications","users"].contains field.1 ∧ ¬isIntMap field.2 then
    throw (.synapseError 400
      (env.repr field.2 ++ " must be a dict wherein all the values are integers.") .unknown)
  else pure ()

/-- `set(list(old_list) + list(new_list))` for a nested map of the power levels. -/
def nestedLevels (place : ℕ) (oldContent newContent : Fields) (dir : String) :
    Except Error (List (Json × Option String)) := do
  let old ← ((oldContent.lookup dir).getD (.obj [])).elements
  let new ← ((newContent.lookup dir).getD (.obj [])).elements
  let keys ← hashSet (old ++ new)
  pure ((it.order place keys).map fun key => (key,some dir))

/-- `int(loc[level])` if the level is there, where the location is a nested map or the content
itself. -/
def levelAt (content : Fields) (level : Json) (dir : Option String) : Except Error (Option ℤ) := do
  let loc := match dir with
    | some dir => (content.lookup dir).getD (.obj [])
    | none => .obj content
  let present ← loc.contains level
  if present then
    let value ← loc.item level
    let n ← value.toInt env.intOfString
    pure (some n)
  else pure none

def checkLevel (oldContent : Fields) (userLevel : ℤ)
    (level : Json × Option String) : Except Error Unit := do
  let oldLevel ← levelAt env oldContent level.1 level.2
  let newLevel ← levelAt env event.content level.1 level.2
  if newLevel.isSome ∧ newLevel = oldLevel then pure ()
  else if level.2 = some "users" ∧ ¬level.1.isStr event.sender ∧ oldLevel = some userLevel then
    throw (authError 403 "You don't have permission to remove ops level equal to your own")
  else if (oldLevel.any fun l => l > userLevel) ∨ (newLevel.any fun l => l > userLevel) then
    throw (authError 403 "You don't have permission to add ops level greater than your own")
  else pure ()

def levelsToCheck (oldContent newContent : Fields) : Except Error (List (Json × Option String)) := do
  let users ← nestedLevels it 10 oldContent newContent "users"
  let events ← nestedLevels it 11 oldContent newContent "events"
  let notifications ← (if roomVersion.limitNotificationsPowerLevels then
      nestedLevels it 12 oldContent newContent "notifications"
    else pure [])
  pure (levelNames.map (fun name => (.str name,none)) ++ users ++ events ++ notifications)

def validatePowerLevels : Except Error Unit := do
  let userList ← (event.contentGet "users" (.obj [])).items
  userList.forM (checkUserEntry env)
  (if roomVersion.msc4289CreatorPowerEnabled then checkCreatorsAbsent userList authEvents
    else pure ())
  (if event.type = "m.room.power_levels" ∧ roomVersion.enforceIntPowerLevels then
    event.content.forM (checkIntLevels env) else pure ())

def comparePowerLevels (it : Iteration) (roomVersion : RoomVersion) (event currentState : EventBase)
    (authEvents : StateMap EventBase) : Except Error Unit := do
  let userLevel ← getUserPowerLevel env event.sender authEvents
  let levels ← levelsToCheck it roomVersion currentState.content event.content
  levels.forM (checkLevel env event currentState.content userLevel)

def checkPowerLevels : Except Error Unit := do
  validatePowerLevels env roomVersion event authEvents
  let stateKey ← event.requireStateKey
  match authEvents.lookup (event.type,stateKey) with
  | none => pure ()
  | some currentState => comparePowerLevels env it roomVersion event currentState authEvents

/-- `{(e.type, e.state_key): e for e in auth_events}` -/
def authDict (authEvents : List EventBase) : Except Error (StateMap EventBase) :=
  authEvents.foldlM (fun d e => do
    let stateKey ← e.requireStateKey
    pure (d.insert (e.type,stateKey) e)) ∅

def checkAliases : Except Error Unit :=
  match event.stateKey with
  | none => throw (authError 403 "Alias event must be a state event")
  | some stateKey =>
    if stateKey = "" then throw (authError 403 "Alias event must have non-empty state_key")
    else do
      let senderDomain ← getDomainFromId env event.sender
      if stateKey ≠ senderDomain then
        throw (authError 403 "Alias event's state_key does not match sender's domain")
      else pure ()

def checkThirdPartyInvite : Except Error Unit := do
  let userLevel ← getUserPowerLevel env event.sender authEvents
  let inviteLevel ← getNamedLevel env authEvents "invite" 0
  if userLevel < inviteLevel then
    throw (unstableSpecAuthError "You don't have permission to invite users" .insufficientPower)
  else pure ()

/-- The rules by the type of the event, once the server of the sender may take part. -/
def checkByType : Except Error Unit :=
  if event.type = "m.room.aliases" ∧ event.roomVersion.specialCaseAliasesAuth then
    checkAliases env event
  else if event.type = "m.room.member" then
    isMembershipChangeAllowed env event.roomVersion event authEvents
  else do
    checkEventSenderInRoom env event authEvents
    if event.type = "m.room.third_party_invite" then checkThirdPartyInvite env event authEvents
    else
      canSendEvent env event authEvents
      if event.type = "m.room.power_levels" then
        checkPowerLevels env it event.roomVersion event authEvents
      else if event.type = "m.room.redaction" then
        let _ ← checkRedaction env event.roomVersion event authEvents
        pure ()
      else pure ()

def checkAgainstState : Except Error Unit :=
  match authEvents.lookup createKey with
  | none => throw (authError 403
      ("Event " ++ event.eventId ++ " is missing a create event in auth_events."))
  | some createEvent => do
    checkFederates env createEvent event.sender authEvents
    checkByType env it event authEvents

def checkStateDependentAuthRules (it : Iteration) (event : EventBase)
    (authEvents : List EventBase) : Except Error Unit :=
  if event.type = "m.room.create" then pure ()
  else do
    let authEvents ← authDict authEvents
    checkAgainstState env it event authEvents

/-- The key `(type, value)` for any JSON value, which `set.add` has to hash. Only strings are
state keys. -/
def jsonKey (type : String) (key : Json) : Except Error (List (String × String)) :=
  match key with
  | .str s => pure [(type,s)]
  | key => if key.hashable then pure [] else throw (.raised "TypeError")

def authTypesForMember : Except Error (List (String × String)) := do
  let membership ← event.membership
  let joinRules := if membership.isStr "join" ∨ membership.isStr "invite" ∨
      membership.isStr "knock" then [joinRulesKey] else []
  let stateKey ← event.requireStateKey
  let invite ← (if membership.isStr "invite" then
      match event.content.lookup "third_party_invite" with
      | none => pure []
      | some thirdPartyInvite => do
        let signed ← thirdPartyInvite.at "signed"
        let token ← signed.at "token"
        jsonKey "m.room.third_party_invite" token
    else pure [])
  let authoriser ← (if roomVersion.restrictedJoinRule ∧ membership.isStr "join" then
      match event.content.lookup "join_authorised_via_users_server" with
      | none => pure []
      | some user => jsonKey "m.room.member" user
    else pure [])
  pure (joinRules ++ [memberKey stateKey] ++ invite ++ authoriser)

def authTypesForEvent : Except Error (List (String × String)) :=
  if event.type = "m.room.create" then pure []
  else do
    let others ← (if event.type = "m.room.member" then authTypesForMember roomVersion event
      else pure [])
    pure ([powerLevelsKey,memberKey event.sender,createKey] ++ others)

end TextrpBriij.EventAuth
