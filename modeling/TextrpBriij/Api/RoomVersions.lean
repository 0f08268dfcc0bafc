import Mathlib

/-! # Room versions

The attributes of a room version that state resolution and the auth rules read. The others
(identifier, disposition, key validity, strictness of the JSON encoding, relation redactions,
push features and room IDs as hashes) are not read there.
-/
namespace TextrpBriij.Api

inductive EventFormatVersions where
  | roomV1V2
  | roomV3
  | roomV4Plus
  | roomV11HydraPlus
  deriving DecidableEq, Repr

inductive StateResolutionVersions where
  | v1
  | v2
  | v2_1
  deriving DecidableEq, Repr

structure RoomVersion where
  eventFormat : EventFormatVersions
  stateRes : StateResolutionVersions
  specialCaseAliasesAuth : Bool
  limitNotificationsPowerLevels : Bool
  implicitRoomCreator : Bool
  updatedRedactionRules : Bool
  restrictedJoinRule : Bool
  knockJoinRule : Bool
  knockRestrictedJoinRule : Bool
  enforceIntPowerLevels : Bool
  msc3757Enabled : Bool
  msc4289CreatorPowerEnabled : Bool
  /-- Each version with the `knock_restricted` join rule has the `restricted` one too. -/
  restricted_of_knockRestricted : knockRestrictedJoinRule = true → restrictedJoinRule = true

namespace RoomVersions

def v1 : RoomVersion where
  eventFormat := .roomV1V2
  stateRes := .v1
  specialCaseAliasesAuth := true
  limitNotificationsPowerLevels := false
  implicitRoomCreator := false
  updatedRedactionRules := false
  restrictedJoinRule := false
  knockJoinRule := false
  knockRestrictedJoinRule := false
  enforceIntPowerLevels := false
  msc3757Enabled := false
  msc4289CreatorPowerEnabled := false
  restricted_of_knockRestricted := by decide

def v2 : RoomVersion := { v1 with stateRes := .v2 }

def v3 : RoomVersion := { v2 with eventFormat := .roomV3 }

def v4 : RoomVersion := { v3 with eventFormat := .roomV4Plus }

/-- Differs from the version before in key validity only. -/
def v5 : RoomVersion := v4

def v6 : RoomVersion :=
  { v5 with specialCaseAliasesAuth := false, limitNotificationsPowerLevels := true }

def v7 : RoomVersion := { v6 with knockJoinRule := true }

def v8 : RoomVersion :=
  { v7 with restrictedJoinRule := true, restricted_of_knockRestricted := fun _ => rfl }

/-- Differs from the version before in the redaction of join rules only. -/
def v9 : RoomVersion := v8

def v10 : RoomVersion :=
  { v9 with
    knockRestrictedJoinRule := true
    enforceIntPowerLevels := true
    restricted_of_knockRestricted := fun _ => rfl }

/-- Differs from `v10` in the push features only. -/
def msc1767v10 : RoomVersion := v10

def msc3757v10 : RoomVersion := { v10 with msc3757Enabled := true }

def v11 : RoomVersion := { v10 with implicitRoomCreator := true, updatedRedactionRules := true }

def msc3757v11 : RoomVersion := { v11 with msc3757Enabled := true }

def hydraV11 : RoomVersion :=
  { v11 with
    eventFormat := .roomV11HydraPlus
    stateRes := .v2_1
    msc4289CreatorPowerEnabled := true }

def v12 : RoomVersion := hydraV11

end RoomVersions

end TextrpBriij.Api
