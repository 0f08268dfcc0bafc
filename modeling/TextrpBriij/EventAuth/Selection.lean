import TextrpBriij.EventAuth.PowerLevels

/-! # The selected auth events suffice

The rules read a room state at the keys of `auth_types_for_event` and nowhere else, with one
exception: a power levels event whose state key is not empty is compared with the power levels
event of that state key, which is not selected.
-/
namespace TextrpBriij.EventAuth
open Api Python Events Fallible List
open State (StateMap Iteration)

variable {env : Env} {it : Iteration} {event : EventBase} {s s' : StateMap EventBase}
  {roomVersion : RoomVersion} {membership : Json} {target : String}
variable {type stateKey domain : String} {keys : List (String × String)}

def Agree (keys : List (String × String)) (s s' : StateMap EventBase) : Prop :=
  ∀ key ∈ keys, s.lookup key = s'.lookup key

section reads
variable (hcreate : s.lookup createKey = s'.lookup createKey)
  (hlevels : s.lookup powerLevelsKey = s'.lookup powerLevelsKey)
  (hsender : s.lookup (memberKey event.sender) = s'.lookup (memberKey event.sender))

theorem lookupJson_congr {key : Json} (h : ∀ k, key = .str k → s.lookup (type,k) = s'.lookup (type,k)) :
    lookupJson s type key = lookupJson s' type key := by
  cases key with
  | str k => simp only [lookupJson,h k rfl]
  | _ => rfl

include hsender in
theorem checkEventSenderInRoom_congr :
    checkEventSenderInRoom env event s = checkEventSenderInRoom env event s' := by
  simp only [checkEventSenderInRoom,hsender]

include hlevels in
theorem getNamedLevel_congr (name : String) (default : ℤ) :
    getNamedLevel env s name default = getNamedLevel env s' name default := by
  simp only [getNamedLevel,getPowerLevelEvent,hlevels]

section
include hcreate

theorem canFederate_congr : canFederate s = canFederate s' := by
  simp only [canFederate,hcreate]

theorem checkFederates_congr (createEvent : EventBase) (userId : String) :
    checkFederates env createEvent userId s = checkFederates env createEvent userId s' := by
  simp only [checkFederates,canFederate_congr hcreate]

theorem validatePowerLevels_congr :
    validatePowerLevels env roomVersion event s = validatePowerLevels env roomVersion event s' := by
  simp only [validatePowerLevels,checkCreatorsAbsent,hcreate]

theorem isCreatorJoin_congr : isCreatorJoin roomVersion event membership s =
      isCreatorJoin roomVersion event membership s' := by
  simp only [isCreatorJoin,hcreate]

include hlevels

theorem getUserPowerLevel_congr (userId : String) :
    getUserPowerLevel env userId s = getUserPowerLevel env userId s' := by
  simp only [getUserPowerLevel,getPowerLevelEvent,hcreate,hlevels]

theorem canSendEvent_congr : canSendEvent env event s = canSendEvent env event s' := by
  simp only [canSendEvent,checkOthersStateKey,getPowerLevelEvent,hlevels,
    getUserPowerLevel_congr hcreate hlevels]

theorem checkThirdPartyInvite_congr :
    checkThirdPartyInvite env event s = checkThirdPartyInvite env event s' := by
  simp only [checkThirdPartyInvite,getUserPowerLevel_congr hcreate hlevels, getNamedLevel_congr hlevels]

theorem checkRedaction_congr :
    checkRedaction env roomVersion event s = checkRedaction env roomVersion event s' := by
  simp only [checkRedaction,getUserPowerLevel_congr hcreate hlevels,getNamedLevel_congr hlevels]

theorem checkPowerLevels_congr (hcurrent : ∀ stateKey, event.stateKey = some stateKey →
      s.lookup (event.type,stateKey) = s'.lookup (event.type,stateKey)) :
    checkPowerLevels env it roomVersion event s = checkPowerLevels env it roomVersion event s' := by
  unfold checkPowerLevels EventBase.requireStateKey
  rw [validatePowerLevels_congr hcreate]
  cases hkey : event.stateKey with
  | none => rfl
  | some stateKey =>
    simp only [pure_eq,ok_bind,hcurrent stateKey hkey,comparePowerLevels,
      getUserPowerLevel_congr hcreate hlevels]

include hsender in
theorem membershipContext_congr (htarget : s.lookup (memberKey target) = s'.lookup (memberKey target)) :
    membershipContext env roomVersion event target s = membershipContext env roomVersion event target s' := by
  simp only [membershipContext,hsender,htarget,getUserPowerLevel_congr hcreate hlevels,
    getNamedLevel_congr hlevels]

end

structure MemberAgree (roomVersion : RoomVersion) (event : EventBase) (membership : Json)
    (target : String) (s s' : StateMap EventBase) : Prop where
  create : s.lookup createKey = s'.lookup createKey
  levels : s.lookup powerLevelsKey = s'.lookup powerLevelsKey
  sender : s.lookup (memberKey event.sender) = s'.lookup (memberKey event.sender)
  target : s.lookup (memberKey target) = s'.lookup (memberKey target)
  joinRules : membership.isStr "join" ∨ membership.isStr "invite" ∨ membership.isStr "knock" →
    s.lookup joinRulesKey = s'.lookup joinRulesKey
  invite : membership.isStr "invite" → ∀ signed token, signedBlock event = some signed →
    signed.lookup "token" = some (.str token) →
    s.lookup ("m.room.third_party_invite",token) = s'.lookup ("m.room.third_party_invite",token)
  authoriser : roomVersion.restrictedJoinRule → membership.isStr "join" →
    ∀ user, event.content.lookup "join_authorised_via_users_server" = some (.str user) →
      s.lookup (memberKey user) = s'.lookup (memberKey user)

namespace MemberAgree
variable {c : MembershipContext} (h : MemberAgree roomVersion event membership target s s')
include h

theorem joinRule_eq (hjoin : membership.isStr "join" ∨ membership.isStr "invite" ∨ membership.isStr "knock") :
    joinRule s = joinRule s' := by
  simp only [joinRule,h.joinRules hjoin]

theorem verifyThirdPartyInvite_eq (hinvite : membership.isStr "invite") :
    verifyThirdPartyInvite env event s = verifyThirdPartyInvite env event s' := by
  unfold verifyThirdPartyInvite
  cases hsigned : signedBlock event with
  | none => rfl
  | some signed =>
    cases htoken : fieldAt signed "token" with
    | error e => simp only [htoken,error_bind]
    | ok token =>
      have hlookup : lookupJson s "m.room.third_party_invite" token =
          lookupJson s' "m.room.third_party_invite" token := by
        apply lookupJson_congr
        rintro k rfl
        exact h.invite hinvite signed k hsigned (fieldAt_eq_ok.mp htoken)
      simp only [htoken,ok_bind,hlookup]

theorem checkAuthorisedJoin_eq (hrestricted : roomVersion.restrictedJoinRule)
    (hjoin : membership.isStr "join") :
    checkAuthorisedJoin env event s c = checkAuthorisedJoin env event s' c := by
  have hlookup : lookupJson s "m.room.member" (event.contentGet "join_authorised_via_users_server" .null) =
      lookupJson s' "m.room.member" (event.contentGet "join_authorised_via_users_server" .null) := by
    apply lookupJson_congr
    intro k hk
    cases hfield : event.content.lookup "join_authorised_via_users_server" with
    | none =>
      rw [EventBase.contentGet,hfield] at hk
      cases hk
    | some v =>
      rw [EventBase.contentGet,hfield] at hk
      obtain rfl : v = .str k := hk
      exact h.authoriser hrestricted hjoin k hfield
  simp only [checkAuthorisedJoin,hlookup,getUserPowerLevel_congr h.create h.levels]

theorem checkJoin_eq (hjoin : membership.isStr "join") :
    checkJoin env roomVersion event target s c = checkJoin env roomVersion event target s' c := by
  have hrule := h.joinRule_eq (.inl hjoin)
  by_cases hrestricted : roomVersion.restrictedJoinRule
  · simp only [checkJoin,hrule,h.checkAuthorisedJoin_eq hrestricted hjoin]
  · have hknock : ¬roomVersion.knockRestrictedJoinRule := fun hknock =>
      hrestricted (roomVersion.restricted_of_knockRestricted hknock)
    simp only [checkJoin,hrule,hrestricted,hknock,Bool.false_eq_true,false_and,or_false,if_false]

theorem checkMembership_eq : checkMembership env roomVersion event membership target s c =
      checkMembership env roomVersion event membership target s' c := by
  unfold checkMembership
  split
  · rfl
  split
  · rename_i hjoin
    exact h.checkJoin_eq hjoin
  split
  · simp only [checkLeave,getNamedLevel_congr h.levels]
  split
  · rfl
  split
  · rename_i hknock
    simp only [checkKnock,h.joinRule_eq (.inr (.inr hknock.2))]
  · rfl

theorem checkMembershipChange_eq : checkMembershipChange env roomVersion event membership target s c =
      checkMembershipChange env roomVersion event membership target s' c := by
  unfold checkMembershipChange
  rw [h.checkMembership_eq]
  split
  · rename_i hinvite
    rw [h.verifyThirdPartyInvite_eq hinvite.1]
  · rfl

end MemberAgree

theorem jsonKey_str {k : String} (h : jsonKey type (.str k) = .ok keys) : keys = [(type,k)] :=
  (Except.ok.inj h).symm

include hcreate hlevels hsender

theorem MemberAgree.of_authTypes (hkeys : authTypesForMember roomVersion event = .ok keys)
    (hmembership : event.membership = .ok membership) (htarget : event.stateKey = some target)
    (h : Agree keys s s') : MemberAgree roomVersion event membership target s s' := by
  obtain ⟨membership',hmembership',hkeys⟩ := bind_eq_ok.mp hkeys
  cases hmembership.symm.trans hmembership'
  obtain ⟨target',htarget',hkeys⟩ := bind_eq_ok.mp hkeys
  rw [requireStateKey_eq_ok,htarget] at htarget'
  cases htarget'
  obtain ⟨invite,hinvite,hkeys⟩ := bind_eq_ok.mp hkeys
  obtain ⟨authoriser,hauthoriser,hkeys⟩ := bind_eq_ok.mp hkeys
  cases hkeys
  refine ⟨hcreate,hlevels,hsender,h _ (by simp),fun hjoin => ?_,?_,?_⟩
  · apply h
    rw [if_pos hjoin]
    simp
  · intro hisInvite signed token hsigned htoken
    apply h
    rw [if_pos hisInvite] at hinvite
    unfold signedBlock at hsigned
    split at hsigned
    · rename_i thirdPartyInvite hthird
      split at hsigned
      · rename_i signed' hsigned'
        split at hsigned
        · cases hsigned
          simp only [hthird,Json.at,fieldAt,hsigned',htoken,pure_eq,ok_bind] at hinvite
          simp [jsonKey_str hinvite]
        · cases hsigned
      · cases hsigned
    · cases hsigned
  · intro hrestricted hjoin user huser
    apply h
    rw [if_pos ⟨hrestricted,hjoin⟩,huser] at hauthoriser
    simp [jsonKey_str hauthoriser,memberKey]

theorem isMembershipChangeAllowed_congr (hkeys : authTypesForMember roomVersion event = .ok keys)
    (h : Agree keys s s') : isMembershipChangeAllowed env roomVersion event s =
      isMembershipChangeAllowed env roomVersion event s' := by
  unfold isMembershipChangeAllowed
  cases hmembership : event.membership with
  | error e => rfl
  | ok membership =>
    simp only [isCreatorJoin_congr hcreate,hcreate]
    cases htarget : event.stateKey with
    | none => simp only [EventBase.requireStateKey,htarget]; rfl
    | some target =>
      have hagree := MemberAgree.of_authTypes hcreate hlevels hsender hkeys hmembership htarget h
      simp only [requireStateKey_eq_ok.mpr htarget,ok_bind,checkFederates_congr hcreate,
        membershipContext_congr hcreate hlevels hsender hagree.target,
        hagree.checkMembershipChange_eq]

end reads

/-- The rules give the same outcome on states that agree at the selected keys, unless the event
is a power levels event with a state key that is not empty. -/
theorem checkAgainstState_congr (htype : event.type ≠ "m.room.create")
    (hkeys : authTypesForEvent event.roomVersion event = .ok keys)
    (hplain : event.type = "m.room.power_levels" → ∀ k, event.stateKey = some k → k = "")
    (h : Agree keys s s') :
    checkAgainstState env it event s = checkAgainstState env it event s' := by
  rw [authTypesForEvent,if_neg htype] at hkeys
  obtain ⟨others,hothers,hkeys⟩ := bind_eq_ok.mp hkeys
  cases hkeys
  have hcreate : s.lookup createKey = s'.lookup createKey := h _ (by simp)
  have hlevels : s.lookup powerLevelsKey = s'.lookup powerLevelsKey := h _ (by simp)
  have hsender : s.lookup (memberKey event.sender) = s'.lookup (memberKey event.sender) :=
    h _ (by simp)
  have hrules : checkByType env it event s = checkByType env it event s' := by
    unfold checkByType
    split
    · rfl
    split
    · rename_i hmember
      rw [if_pos hmember] at hothers
      exact isMembershipChangeAllowed_congr hcreate hlevels hsender hothers
        fun key hkey => h key (mem_append_right _ hkey)
    · rw [checkEventSenderInRoom_congr hsender,checkThirdPartyInvite_congr hcreate hlevels,
        canSendEvent_congr hcreate hlevels,checkRedaction_congr hcreate hlevels]
      by_cases hpower : event.type = "m.room.power_levels"
      · have hcurrent : ∀ k, event.stateKey = some k → s.lookup (event.type,k) = s'.lookup (event.type,k) := by
          intro k hk
          rw [hplain hpower k hk,hpower]
          exact hlevels
        rw [checkPowerLevels_congr hcreate hlevels hcurrent]
      · simp only [if_neg hpower]
  simp only [checkAgainstState,hcreate,checkFederates_congr hcreate,hrules]

/-- The event, with the given state key, meets the rules that do not depend on the levels in
force: the sender has a domain, the state key is not that of another user or may be set, and
the levels are well formed. -/
structure Postable (env : Env) (event : EventBase) (stateKey : String) : Prop where
  sender : ∃ domain, getDomainFromId env event.sender = .ok domain
  stateKey : stateKey.toList.head? = some '@' → stateKey ≠ event.sender →
    event.roomVersion.msc3757Enabled ∧ (stateKeyUserId env stateKey).isSome
  users : ∃ users, event.contentGet "users" (.obj []) = .obj users ∧
    ∀ entry ∈ users, checkUserEntry env entry = .ok ()
  levels : event.roomVersion.enforceIntPowerLevels → ∀ field ∈ event.content, checkIntLevels env field = .ok ()

/-- A power levels event that is compared with an event that is not selected. -/
def ReadsUnselected (env : Env) (event : EventBase) : Prop :=
  event.type = "m.room.power_levels" ∧
    ∃ stateKey, event.stateKey = some stateKey ∧ stateKey ≠ "" ∧ Postable env event stateKey

def roomEvent (event : EventBase) (type stateKey sender : String) (content : Fields) : EventBase where
  roomVersion := event.roomVersion
  eventId := "$event"
  roomId := event.roomId
  type := type
  stateKey := some stateKey
  sender := sender
  content := content
  redactsField := .null
  prevEventIds := []
  authEventIds := []
  depth := 1
  originServerTs := 0
  rejectedReason := none

def openCreate (event : EventBase) (domain : String) : EventBase :=
  roomEvent event "m.room.create" "" (":" ++ domain) []

def openMember (event : EventBase) : EventBase :=
  roomEvent event "m.room.member" event.sender event.sender [("membership",.str "join")]

def openLevels (event : EventBase) : EventBase :=
  roomEvent event "m.room.power_levels" "" event.sender [("users",.obj [(event.sender,.int 100)])]

def highLevels (event : EventBase) (stateKey : String) (level : ℤ) : EventBase :=
  roomEvent event "m.room.power_levels" stateKey event.sender [("ban",.int level)]

structure IsOpen (event : EventBase) (domain : String) (s : StateMap EventBase) : Prop where
  create : s.lookup createKey = some (openCreate event domain)
  member : s.lookup (memberKey event.sender) = some (openMember event)
  levels : s.lookup powerLevelsKey = some (openLevels event)

theorem othersStateKey_of_canSendEvent (hkey : event.stateKey = some stateKey)
    (hat : stateKey.toList.head? = some '@') (hother : stateKey ≠ event.sender)
    (h : canSendEvent env event s = .ok ()) :
    event.roomVersion.msc3757Enabled ∧ (stateKeyUserId env stateKey).isSome := by
  obtain ⟨sendLevel,-,h⟩ := bind_eq_ok.mp h
  obtain ⟨level,-,h⟩ := bind_eq_ok.mp h
  split at h
  · cases h
  simp only [hkey,if_pos (And.intro hat hother)] at h
  unfold checkOthersStateKey at h
  split at h
  · rename_i hversion
    cases howner : stateKeyUserId env stateKey with
    | none =>
      rw [howner] at h
      cases h
    | some owner => exact ⟨hversion,rfl⟩
  · cases h

theorem postable_of_accepted (htype : event.type = "m.room.power_levels")
    (hkey : event.stateKey = some stateKey) (h : checkAgainstState env it event s = .ok ()) :
    Postable env event stateKey := by
  unfold checkAgainstState at h
  split at h
  · cases h
  obtain ⟨_,hfederates,h⟩ := bind_eq_ok.mp h
  obtain ⟨_,-,hfederates⟩ := bind_eq_ok.mp hfederates
  obtain ⟨domain,hdomain,-⟩ := bind_eq_ok.mp hfederates
  unfold checkByType at h
  simp only [htype] at h
  obtain ⟨_,-,h⟩ := bind_eq_ok.mp h
  obtain ⟨_,hsend,h⟩ := bind_eq_ok.mp h
  obtain ⟨_,hvalid,-⟩ := bind_eq_ok.mp h
  obtain ⟨users,husers,hvalid⟩ := bind_eq_ok.mp hvalid
  obtain ⟨_,hentries,hvalid⟩ := bind_eq_ok.mp hvalid
  obtain ⟨_,-,hints⟩ := bind_eq_ok.mp hvalid
  constructor
  · exact ⟨domain,hdomain⟩
  · intro hat hother
    exact othersStateKey_of_canSendEvent hkey hat hother hsend
  · exact ⟨users,Json.items_eq_ok.mp husers,forM_eq_ok.mp hentries⟩
  · intro hversion
    rw [if_pos ⟨htype,hversion⟩] at hints
    exact forM_eq_ok.mp hints

theorem getDomainFromId_colon (domain : String) : getDomainFromId env (":" ++ domain) = .ok domain := by
  simp [getDomainFromId]

theorem isUserId_of_stateKeyUserId {owner : String}
    (h : stateKeyUserId env stateKey = some owner) : isUserId owner := by
  unfold stateKeyUserId at h
  split at h
  · cases h
  · split at h
    · cases h
    · simp only [Option.ite_none_right_eq_some,Option.some.injEq] at h
      obtain ⟨hvalid,rfl⟩ := h
      exact (Bool.and_eq_true_iff.mp hvalid).1

namespace IsOpen
variable {domain : String} (h : IsOpen event domain s)
include h

theorem getUserPowerLevel_eq (user : String) : getUserPowerLevel env user s =
      .ok (if event.roomVersion.msc4289CreatorPowerEnabled ∧ ":" ++ domain = user then
        creatorPowerLevel else if user = event.sender then 100 else 0) := by
  have hlevel : userLevel env (openLevels event).content user =
      .ok (if user = event.sender then 100 else 0) := by
    by_cases hsame : user = event.sender
    · subst hsame
      simp [userLevel,openLevels,roomEvent,Json.get,Json.isNone,Json.toInt]
    · have hbeq : (user == event.sender) = false := by simpa using hsame
      simp [userLevel,openLevels,roomEvent,Json.get,Json.isNone,Json.toInt,usersDefault,hsame, lookup,hbeq]
  unfold getUserPowerLevel getPowerLevelEvent
  simp only [h.create,h.levels,hlevel]
  by_cases hpower : event.roomVersion.msc4289CreatorPowerEnabled
  · by_cases hcreator : ":" ++ domain = user
    · simp [openCreate,roomEvent,isCreator,hpower,hcreator]
    · simp [openCreate,roomEvent,isCreator,hcreator,EventBase.contentGet,Json.elements, hashSet]
  · simp [openCreate,roomEvent,hpower]

theorem senderLevel_eq : ∃ level, getUserPowerLevel env event.sender s = .ok level ∧
    100 ≤ level ∧ level ≤ creatorPowerLevel := by
  refine ⟨_,h.getUserPowerLevel_eq event.sender,?_⟩
  split
  · simp [creatorPowerLevel]
  · simp [creatorPowerLevel]

omit h in
theorem checkFederates_ok (hdomain : getDomainFromId env event.sender = .ok domain) :
    checkFederates env (openCreate event domain) event.sender s = .ok () := by
  simp [checkFederates,openCreate,roomEvent,getDomainFromId_colon,hdomain]

theorem checkEventSenderInRoom_ok : checkEventSenderInRoom env event s = .ok () := by
  simp [checkEventSenderInRoom,checkJoinedRoom,memberIs,h.member,openMember,roomEvent,
    EventBase.membership,fieldAt]

theorem canSendEvent_ok (hkey : event.stateKey = some stateKey)
    (hpost : Postable env event stateKey) : canSendEvent env event s = .ok () := by
  obtain ⟨level,hlevel,hlow,-⟩ := @senderLevel_eq env event s domain h
  have hsend : getSendLevel env event.type (some stateKey) (getPowerLevelEvent s) = .ok 50 := by
    simp [getSendLevel,getPowerLevelEvent,h.levels,openLevels,roomEvent,lookup,Json.get, Json.isNone,Json.toInt]
  unfold canSendEvent
  simp only [hkey,hsend,hlevel,ok_bind]
  rw [if_neg (by omega)]
  split
  · rename_i hother
    obtain ⟨hversion,hvalid⟩ := hpost.stateKey hother.1 hother.2
    obtain ⟨owner,howner⟩ := Option.isSome_iff_exists.mp hvalid
    unfold checkOthersStateKey
    simp only [hversion,howner,if_true]
    split
    · rfl
    · rename_i hnotSender
      have hnotCreator : ¬":" ++ domain = owner := by
        rintro rfl
        have hid := isUserId_of_stateKeyUserId howner
        simp [isUserId] at hid
      simp only [h.getUserPowerLevel_eq,hnotCreator,and_false,if_false,if_neg hnotSender,ok_bind]
      rw [if_pos (by omega)]
      rfl
  · rfl

theorem validatePowerLevels_ok (hpost : Postable env event stateKey) :
    validatePowerLevels env event.roomVersion event s = .ok () := by
  obtain ⟨users,husers,hentries⟩ := hpost.users
  have hcreators : checkCreatorsAbsent users s = .ok () := by
    have habsent : hasField users (":" ++ domain) = false := by
      unfold hasField
      cases hlookup : users.lookup (":" ++ domain) with
      | none => rfl
      | some v =>
        have hcheck := hentries _ (mem_of_lookup hlookup)
        simp [checkUserEntry,isUserId] at hcheck
    simp [checkCreatorsAbsent,h.create,openCreate,roomEvent,habsent,EventBase.contentGet, Json.truthy]
  unfold validatePowerLevels
  simp only [husers,Json.items,pure_eq,ok_bind,forM_eq_ok.mpr hentries,hcreators,ite_self]
  split
  · rename_i hints
    exact forM_eq_ok.mpr (hpost.levels hints.2)
  · rfl

section
variable (htype : event.type = "m.room.power_levels") (hkey : event.stateKey = some stateKey)
include htype hkey

theorem accepts (hpost : Postable env event stateKey) (hdomain : getDomainFromId env event.sender = .ok domain)
    (hnone : s.lookup ("m.room.power_levels",stateKey) = none) :
    checkAgainstState env it event s = .ok () := by
  rw [← htype] at hnone
  unfold checkAgainstState checkByType checkPowerLevels
  simp only [h.create,checkFederates_ok hdomain,h.checkEventSenderInRoom_ok,
    h.canSendEvent_ok hkey hpost,h.validatePowerLevels_ok hpost,requireStateKey_eq_ok.mpr hkey,
    hnone,ok_bind]
  simp [htype]

theorem rejects {level : ℤ} (hhigh : creatorPowerLevel < level)
    (hban : levelAt env event.content (.str "ban") none ≠ .ok (some level))
    (hcurrent : s.lookup ("m.room.power_levels",stateKey) =
      some (highLevels event stateKey level)) : checkAgainstState env it event s ≠ .ok () := by
  intro hok
  unfold checkAgainstState at hok
  simp only [h.create] at hok
  obtain ⟨_,-,hok⟩ := bind_eq_ok.mp hok
  unfold checkByType at hok
  simp only [htype] at hok
  obtain ⟨_,-,hok⟩ := bind_eq_ok.mp hok
  obtain ⟨_,-,hok⟩ := bind_eq_ok.mp hok
  rw [← htype] at hcurrent
  obtain ⟨senderLevel,hsender,hchecked⟩ := checkPowerLevels_ok hkey hcurrent hok
  obtain ⟨level',hlevel,-,hle⟩ := @senderLevel_eq env event s domain h
  cases hsender.symm.trans hlevel
  obtain ⟨old,new,hold,hnew,hcase⟩ := checkLevel_ok (hchecked.names "ban" (by decide))
  have holdLevel : levelAt env (highLevels event stateKey level).content (.str "ban") none =
      .ok (some level) := by
    rfl
  cases holdLevel.symm.trans hold
  rcases hcase with hsame | hbound
  · rw [hsame] at hnew
    exact hban hnew
  · have := hbound.2 level rfl
    omega

end

end IsOpen

def openRoom (event : EventBase) (domain : String) : List EventBase :=
  [openCreate event domain,openMember event,openLevels event]

def openState (event : EventBase) (domain : String) : StateMap EventBase :=
  (((∅ : StateMap EventBase).insert createKey (openCreate event domain)).insert
    (memberKey event.sender) (openMember event)).insert powerLevelsKey (openLevels event)

theorem authDict_openRoom (event : EventBase) (domain : String) :
    authDict (openRoom event domain) = .ok (openState event domain) := rfl

theorem authDict_openRoom_append (event : EventBase) (domain stateKey : String) (level : ℤ) :
    authDict (openRoom event domain ++ [highLevels event stateKey level]) =
      .ok ((openState event domain).insert ("m.room.power_levels",stateKey)
        (highLevels event stateKey level)) := rfl

theorem isOpen_openState (event : EventBase) (domain : String) :
    IsOpen event domain (openState event domain) := by
  have hmember : createKey ≠ memberKey event.sender := by simp [createKey,memberKey]
  have hlevels : memberKey event.sender ≠ powerLevelsKey := by simp [powerLevelsKey,memberKey]
  constructor
  · rw [openState,AList.lookup_insert_ne (by decide),AList.lookup_insert_ne hmember, AList.lookup_insert]
  · rw [openState,AList.lookup_insert_ne hlevels,AList.lookup_insert]
  · rw [openState,AList.lookup_insert]

theorem IsOpen.insert (h : IsOpen event domain s) (hkey : stateKey ≠ "") (levels : EventBase) :
    IsOpen event domain (s.insert ("m.room.power_levels",stateKey) levels) := by
  have hlevels : powerLevelsKey ≠ ("m.room.power_levels",stateKey) := by
    intro heq
    exact hkey (congrArg Prod.snd heq).symm
  constructor
  · rw [AList.lookup_insert_ne (by simp [createKey]),h.create]
  · rw [AList.lookup_insert_ne (by simp [memberKey]),h.member]
  · rw [AList.lookup_insert_ne hlevels,h.levels]

theorem IsOpen.agree (h : IsOpen event domain s) (h' : IsOpen event domain s') :
    Agree [powerLevelsKey,memberKey event.sender,createKey] s s' := by
  intro key hmem
  simp only [mem_cons,not_mem_nil,or_false] at hmem
  rcases hmem with rfl | rfl | rfl
  · rw [h.levels,h'.levels]
  · rw [h.member,h'.member]
  · rw [h.create,h'.create]

theorem openState_lookup (hkey : stateKey ≠ "") :
    (openState event domain).lookup ("m.room.power_levels",stateKey) = none := by
  have hlevels : ("m.room.power_levels",stateKey) ≠ powerLevelsKey := by
    intro heq
    exact hkey (congrArg Prod.snd heq)
  rw [openState,AList.lookup_insert_ne hlevels,AList.lookup_insert_ne (by simp [memberKey])]
  rfl

theorem exists_highLevel (env : Env) (event : EventBase) : ∃ level, creatorPowerLevel < level ∧
      levelAt env event.content (.str "ban") none ≠ .ok (some level) := by
  by_cases h : levelAt env event.content (.str "ban") none = .ok (some (creatorPowerLevel + 1))
  · refine ⟨creatorPowerLevel + 2,by omega,?_⟩
    rw [h]
    simp
  · exact ⟨creatorPowerLevel + 1,by omega,h⟩

/-- States that agree at the selected keys give the same verdict on an event, unless it is a
power levels event that is compared with power levels that are not selected. -/
theorem selected_auth_events_suffice_iff (env : Env) (it : Iteration) (event : EventBase) :
    (∀ (events₁ events₂ : List EventBase) (state₁ state₂ : StateMap EventBase)
      (keys : List (String × String)), authTypesForEvent event.roomVersion event = .ok keys →
      authDict events₁ = .ok state₁ → authDict events₂ = .ok state₂ → Agree keys state₁ state₂ →
      (checkStateDependentAuthRules env it event events₁ = .ok () ↔
        checkStateDependentAuthRules env it event events₂ = .ok ())) ↔
      ¬ReadsUnselected env event := by
  constructor
  · rintro hsame ⟨htype,stateKey,hkey,hne,hpost⟩
    obtain ⟨domain,hdomain⟩ := hpost.sender
    obtain ⟨level,hhigh,hban⟩ := exists_highLevel env event
    have hcreate : event.type ≠ "m.room.create" := by
      rw [htype]
      decide
    have hkeys : authTypesForEvent event.roomVersion event =
        .ok [powerLevelsKey,memberKey event.sender,createKey] := by
      simp [authTypesForEvent,htype]
    have hopen := isOpen_openState event domain
    have hopen' := hopen.insert hne (highLevels event stateKey level)
    have hiff := hsame _ _ _ _ _ hkeys (authDict_openRoom event domain)
      (authDict_openRoom_append event domain stateKey level) (hopen.agree hopen')
    simp only [checkStateDependentAuthRules,if_neg hcreate,authDict_openRoom,ok_bind] at hiff
    exact hopen'.rejects htype hkey hhigh hban (AList.lookup_insert _)
      (hiff.mp (hopen.accepts htype hkey hpost hdomain (openState_lookup hne)))
  · intro hplain events₁ events₂ state₁ state₂ keys hkeys hstate₁ hstate₂ hagree
    by_cases hcreate : event.type = "m.room.create"
    · simp only [checkStateDependentAuthRules,if_pos hcreate]
    simp only [checkStateDependentAuthRules,if_neg hcreate,hstate₁,hstate₂,ok_bind]
    by_cases hother : event.type = "m.room.power_levels" ∧
        ∃ stateKey, event.stateKey = some stateKey ∧ stateKey ≠ ""
    · -- An event that is not well formed is accepted by no state.
      obtain ⟨htype,stateKey,hkey,hne⟩ := hother
      have hreject : ∀ state, checkAgainstState env it event state ≠ .ok () := by
        intro state hok
        exact hplain ⟨htype,stateKey,hkey,hne,postable_of_accepted htype hkey hok⟩
      simp only [hreject]
    · rw [checkAgainstState_congr hcreate hkeys _ hagree]
      intro htype k hk
      by_contra hne
      exact hother ⟨htype,k,hk,hne⟩

/-- A user with level 100 sets power levels with a state key of its own. Levels in force with
that state key refuse the event, and they are not among the selected auth events. -/
def otherLevels : EventBase :=
  plainEvent "$new" "m.room.power_levels" "other" "@alice:s" []

theorem unselected_levels_decide :
    authTypesForEvent otherLevels.roomVersion otherLevels =
        .ok [powerLevelsKey,memberKey "@alice:s",createKey] ∧
      Agree [powerLevelsKey,memberKey "@alice:s",createKey] (openState otherLevels "s")
        ((openState otherLevels "s").insert ("m.room.power_levels","other")
          (highLevels otherLevels "other" 101)) ∧
      checkStateDependentAuthRules plainEnv Iteration.listed otherLevels
        (openRoom otherLevels "s") = .ok () ∧
      checkStateDependentAuthRules plainEnv Iteration.listed otherLevels
        (openRoom otherLevels "s" ++ [highLevels otherLevels "other" 101]) =
        .error (authError 403
          "You don't have permission to add ops level greater than your own") := by
  have hopen := isOpen_openState otherLevels "s"
  have hkey : "other" ≠ "" := by decide
  exact ⟨rfl,hopen.agree (hopen.insert hkey _),rfl,rfl⟩

end TextrpBriij.EventAuth
