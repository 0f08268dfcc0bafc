import TextrpBriij.Events.EventBase
import TextrpBriij.State.StateMap

/-! # Power levels

The levels that users have and actions need, read from the create event and the power levels
event of a room state. What the rules take from the Python runtime and from libraries is in
`Env`; every result holds for any of it.
-/
namespace TextrpBriij.EventAuth
open Api Python Events
open State (StateMap)

/-- The outcome of decoding a public key and checking a signature of a JSON object with it.
Only a `KeyError` and a failed verification are caught. -/
inductive Verification where
  | valid
  | caught
  | raises (e : Error)

structure Env where
  /-- What `int` reads from a string; `none` is a `ValueError`. -/
  intOfString : String → Option ℤ
  repr : Json → String
  str : Json → String
  reprEvent : EventBase → String
  validIpv6 : String → Bool
  /-- The public key, the name of the key, the signed object and the server that signed it. -/
  verifySignedJson : Json → String → Fields → String → Verification

variable (env : Env)

/-- `string[string.find(":") + 1:]` -/
def getDomainFromId (string : String) : Except Error String :=
  match string.toList.dropWhile (· ≠ ':') with
  | _ :: domain => pure (String.ofList domain)
  | [] => throw (.synapseError 400 ("Invalid ID: " ++ env.repr (.str string)) .unknown)

/-- The host of a server name; `none` is a `ValueError`. -/
def parseServerName (serverName : String) : Option String :=
  let name := serverName.toList
  if name.getLast? = some ']' then some serverName
  else if ':' ∈ name then
    -- The port is what follows the last colon.
    let port := (name.reverse.takeWhile (· ≠ ':')).reverse
    (env.intOfString (String.ofList port)).map fun _ =>
      String.ofList (name.take (name.length - port.length - 1))
  else some serverName

def isHostChar (c : Char) : Bool :=
  ('0' ≤ c ∧ c ≤ '9') || ('a' ≤ c ∧ c ≤ 'z') || ('A' ≤ c ∧ c ≤ 'Z') || c == '-'

def validServerName (serverName : String) : Bool :=
  match parseServerName env serverName with
  | none => false
  | some host =>
    match host.toList with
    | '[' :: rest => rest.getLast? = some ']' && rest.length ≠ 1 &&
        env.validIpv6 (String.ofList rest.dropLast)
    | name => (name.splitOn '.').all fun label => !label.isEmpty && label.all isHostChar

/-- Whether `UserID.from_string` returns. -/
def isUserId (s : String) : Bool :=
  match s.toList with
  | '@' :: rest => ':' ∈ rest
  | _ => false

def validUserId (s : String) : Bool :=
  isUserId s && validServerName env (String.ofList ((s.toList.dropWhile (· ≠ ':')).tail))

def createKey : String × String := ("m.room.create","")

def powerLevelsKey : String × String := ("m.room.power_levels","")

def creatorPowerLevel : ℤ := 2 ^ 53

def getPowerLevelEvent (authEvents : StateMap EventBase) : Option EventBase :=
  authEvents.lookup powerLevelsKey

/-- The level of a user without a power levels event: the creator has 100. -/
def creatorLevel (createEvent : EventBase) (userId : String) : Except Error ℤ := do
  let creator ← (if createEvent.roomVersion.implicitRoomCreator then
      pure (.str createEvent.sender)
    else fieldAt createEvent.content "creator")
  pure (if creator.isStr userId then 100 else 0)

/-- The level of a user who has none in the content of a power levels event. -/
def usersDefault (content : Fields) : Except Error ℤ :=
  let level := (content.lookup "users_default").getD (.int 0)
  if level.isNone then pure 0 else level.toInt env.intOfString

def userLevel (content : Fields) (userId : String) : Except Error ℤ := do
  let level ← ((content.lookup "users").getD (.obj [])).get userId .null
  if level.isNone then usersDefault env content else level.toInt env.intOfString

def getUserPowerLevel (userId : String) (authEvents : StateMap EventBase) : Except Error ℤ :=
  match authEvents.lookup createKey with
  | none => throw (.raised "AssertionError")
  | some createEvent => do
    let creator ← (if createEvent.roomVersion.msc4289CreatorPowerEnabled then
        isCreator createEvent userId
      else pure false)
    if creator then pure creatorPowerLevel
    else
      match getPowerLevelEvent authEvents with
      | some powerLevelEvent => userLevel env powerLevelEvent.content userId
      | none => creatorLevel createEvent userId

def getNamedLevel (authEvents : StateMap EventBase) (name : String) (default : ℤ) : Except Error ℤ :=
  match getPowerLevelEvent authEvents with
  | none => pure default
  | some powerLevelEvent =>
    let level := powerLevelEvent.contentGet name .null
    if level.isNone then pure default else level.toInt env.intOfString

def getSendLevel (etype : String) (stateKey : Option String)
    (powerLevelsEvent : Option EventBase) : Except Error ℤ := do
  let content := (powerLevelsEvent.map EventBase.content).getD []
  let sendLevel ← ((content.lookup "events").getD (.obj [])).get etype .null
  let sendLevel := if sendLevel.isNone then
      if stateKey.isSome then (content.lookup "state_default").getD (.int 50)
      else (content.lookup "events_default").getD (.int 0)
    else sendLevel
  sendLevel.toInt env.intOfString

end TextrpBriij.EventAuth
