import TextrpBriij.Api.RoomVersions
import TextrpBriij.Python.Values

/-! # Events

The fields of an event that state resolution and the auth rules read. The content is a JSON
object with any values.
-/
namespace TextrpBriij.Events
open Api Python

structure EventBase where
  roomVersion : RoomVersion
  eventId : String
  roomId : String
  type : String
  /-- Not given when the event is not a state event. -/
  stateKey : Option String
  sender : String
  content : Fields
  /-- The `redacts` field outside the content, `None` when it is missing. -/
  redactsField : Json
  prevEventIds : List String
  authEventIds : List String
  depth : ℤ
  originServerTs : ℤ
  rejectedReason : Option String

namespace EventBase

def requireStateKey (e : EventBase) : Except Error String :=
  match e.stateKey with
  | some key => pure key
  | none => throw (.raised "AttributeError")

def contentGet (e : EventBase) (key : String) (default : Json) : Json :=
  (e.content.lookup key).getD default

def membership (e : EventBase) : Except Error Json := fieldAt e.content "membership"

def redacts (e : EventBase) : Json :=
  if e.roomVersion.updatedRedactionRules then e.contentGet "redacts" .null else e.redactsField

end EventBase

def isCreator (create : EventBase) (userId : String) : Except Error Bool := do
  if create.type ≠ "m.room.create" then throw (.raised "AssertionError")
  if create.sender = userId then pure true
  else if create.roomVersion.msc4289CreatorPowerEnabled then
    let entries ← (create.contentGet "additional_creators" (.arr [])).elements
    let additionalCreators ← hashSet entries
    pure (additionalCreators.any (·.isStr userId))
  else pure false

end TextrpBriij.Events
