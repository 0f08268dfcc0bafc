import TextrpBriij.EventAuth.Exceptions

/-! # Exceptions of the membership rules, and of all rules

The reads of the rules for member events, and with them the exact condition under which the
whole check raises nothing but `AuthError`.
-/
namespace TextrpBriij.EventAuth
open Api Python Events Fallible List Option
open State (StateMap Iteration)

variable {env : Env} {event : EventBase} {s : StateMap EventBase} {create : EventBase} {target : String}

def ServersReadable (env : Env) (publicKey : Json) (signed : Fields) : Fields → Prop
  | [] => True
  | (server,block) :: rest => ∃ keys, block = .obj keys ∧
      match verifyKeys env publicKey signed server (keys.map fun k => k.1) with
      | none => ServersReadable env publicKey signed rest
      | some (.raises e) => IsAuthError e
      | some _ => True

theorem onlyAuthErrors_verifyServers {publicKey : Json} {signed servers : Fields} :
    RaisesOnly IsAuthError (verifyServers env publicKey signed servers) ↔
      ServersReadable env publicKey signed servers := by
  induction servers with
  | nil => simp [verifyServers,ServersReadable]
  | cons entry rest ih =>
    obtain ⟨server,block⟩ := entry
    simp only [verifyServers,ServersReadable]
    cases block with
    | obj keys =>
      simp only [Json.items,pure_eq,ok_bind,Json.obj.injEq,exists_eq_left']
      cases verifyKeys env publicKey signed server (keys.map fun k => k.1) with
      | none => exact ih
      | some outcome => cases outcome <;> simp
    | _ => simp [Json.items]

def PublicKeysReadable (env : Env) (signed : Fields) : List Json → Prop
  | [] => True
  | publicKeyObject :: rest => ∃ fields publicKey servers, publicKeyObject = .obj fields ∧
      fields.lookup "public_key" = some publicKey ∧
      signed.lookup "signatures" = some (.obj servers) ∧
      ServersReadable env publicKey signed servers ∧
      (verifyServers env publicKey signed servers = .ok false → PublicKeysReadable env signed rest)

theorem onlyAuthErrors_verifyPublicKeys {signed : Fields} {keys : List Json} :
    RaisesOnly IsAuthError (verifyPublicKeys env signed keys) ↔ PublicKeysReadable env signed keys := by
  induction keys with
  | nil => simp [verifyPublicKeys,PublicKeysReadable]
  | cons publicKeyObject rest ih =>
    simp only [verifyPublicKeys,PublicKeysReadable]
    cases publicKeyObject with
    | obj fields =>
      simp only [Json.at,fieldAt,Json.obj.injEq,exists_and_left,exists_eq_left']
      cases fields.lookup "public_key" with
      | none => simp
      | some publicKey =>
        cases signed.lookup "signatures" with
        | none => simp
        | some signatures =>
          cases signatures with
          | obj servers =>
            simp only [pure_eq,ok_bind,Json.items,some.injEq,Json.obj.injEq,
              exists_eq_left',raisesOnly_bind,onlyAuthErrors_verifyServers]
            apply and_congr_right
            intro _
            cases verifyServers env publicKey signed servers with
            | error e => simp
            | ok verified => cases verified <;> simp [ih]
          | _ => simp [Json.items]
    | _ => simp [Json.at]

/-- `list.extend` takes strings, lists and dicts. -/
def isIterable : Json → Bool
  | .obj _ => true
  | .arr _ => true
  | .str _ => true
  | _ => false

theorem onlyAuthErrors_getPublicKeys {inviteEvent : EventBase} :
    RaisesOnly IsAuthError (getPublicKeys inviteEvent) ↔
      isIterable (inviteEvent.contentGet "public_keys" (.arr [])) := by
  unfold getPublicKeys
  cases inviteEvent.contentGet "public_keys" (.arr []) <;> simp [Json.elements,isIterable]

def ThirdPartyInviteReadable (env : Env) (event : EventBase) (s : StateMap EventBase)
    (target : String) : Prop :=
  ∀ signed, signedBlock event = some signed → ∀ token, signed.lookup "token" = some token →
    token.hashable = true ∧ ∀ inviteEvent,
      lookupJson s "m.room.third_party_invite" token = .ok (some inviteEvent) →
      inviteEvent.sender = event.sender → signed.lookup "mxid" = some (.str target) →
      isIterable (inviteEvent.contentGet "public_keys" (.arr [])) = true ∧
      ∀ keys, getPublicKeys inviteEvent = .ok keys → PublicKeysReadable env signed keys

theorem signedBlock_fields {signed : Fields} (h : signedBlock event = some signed) :
    ∃ token mxid, signed.lookup "token" = some token ∧ signed.lookup "mxid" = some mxid := by
  unfold signedBlock at h
  split at h
  · split at h
    · simp only [all_cons,ite_none_right_eq_some, Bool.and_eq_true,some.injEq] at h
      obtain ⟨⟨hmxid,htoken,-⟩,rfl⟩ := h
      obtain ⟨token,htoken⟩ := isSome_iff_exists.mp htoken
      obtain ⟨mxid,hmxid⟩ := isSome_iff_exists.mp hmxid
      exact ⟨token,mxid,htoken,hmxid⟩
    · cases h
  · cases h

theorem onlyAuthErrors_verifyThirdPartyInvite (hkey : event.stateKey = some target) :
    RaisesOnly IsAuthError (verifyThirdPartyInvite env event s) ↔
      ThirdPartyInviteReadable env event s target := by
  unfold verifyThirdPartyInvite ThirdPartyInviteReadable
  cases hsigned : signedBlock event with
  | none => simp
  | some signed =>
    obtain ⟨token,mxid,htoken,hmxid⟩ := signedBlock_fields hsigned
    simp only [fieldAt,htoken,hmxid,pure_eq,ok_bind,requireStateKey_eq_ok.mpr hkey,
      some.injEq,forall_eq',raisesOnly_bind,onlyAuthErrors_lookupJson]
    apply and_congr_right
    intro _
    cases lookupJson s "m.room.third_party_invite" token with
    | error e => simp
    | ok found =>
      cases found with
      | none => simp
      | some inviteEvent =>
        by_cases hsender : inviteEvent.sender = event.sender
        · by_cases htarget : mxid = .str target
          · subst htarget
            simp [hsender,Json.isStr,raisesOnly_bind,onlyAuthErrors_getPublicKeys,
              onlyAuthErrors_verifyPublicKeys]
          · have hnot : mxid.isStr target = false := by
              rw [Bool.eq_false_iff]
              intro h
              exact htarget (Json.isStr_iff.mp h)
            simp [hnot,htarget]
        · simp [hsender]

@[mk_iff] structure ContextReadable (env : Env) (event : EventBase) (target : String)
    (s : StateMap EventBase) (create : EventBase) : Prop where
  callerMember : MemberReadable (s.lookup (memberKey event.sender))
  targetMember : MemberReadable (s.lookup (memberKey target))
  callerLevel : UserLevelReadable env s create event.sender
  targetLevel : UserLevelReadable env s create target
  invite : NamedLevelReadable env s "invite"
  ban : NamedLevelReadable env s "ban"

theorem onlyAuthErrors_membershipContext (hcreate : s.lookup createKey = some create)
    (htype : create.type = "m.room.create") {roomVersion : RoomVersion} :
    RaisesOnly IsAuthError (membershipContext env roomVersion event target s) ↔
      ContextReadable env event target s create := by
  have hknocked : NoAuthErrors (if roomVersion.knockJoinRule then
      memberIs (s.lookup (memberKey event.sender)) "knock" else pure false) := by
    simp [raisesOnly_ite]
  have hconj : RaisesOnly IsAuthError (membershipContext env roomVersion event target s) ↔
      MemberReadable (s.lookup (memberKey event.sender)) ∧
      MemberReadable (s.lookup (memberKey event.sender)) ∧
      (roomVersion.knockJoinRule → MemberReadable (s.lookup (memberKey event.sender))) ∧
      MemberReadable (s.lookup (memberKey target)) ∧
      MemberReadable (s.lookup (memberKey target)) ∧
      UserLevelReadable env s create event.sender ∧ UserLevelReadable env s create target ∧
      NamedLevelReadable env s "invite" ∧ NamedLevelReadable env s "ban" := by
    apply raisesOnly_bind_and (noAuthErrors_memberIs _ _) onlyAuthErrors_memberIs
    intro callerInRoom
    apply raisesOnly_bind_and (noAuthErrors_memberIs _ _) onlyAuthErrors_memberIs
    intro callerInvited
    apply raisesOnly_bind_and hknocked (by simp [raisesOnly_ite,onlyAuthErrors_memberIs])
    intro callerKnocked
    apply raisesOnly_bind_and (noAuthErrors_memberIs _ _) onlyAuthErrors_memberIs
    intro targetInRoom
    apply raisesOnly_bind_and (noAuthErrors_memberIs _ _) onlyAuthErrors_memberIs
    intro targetBanned
    apply raisesOnly_bind_and (noAuthErrors_getUserPowerLevel _)
      (onlyAuthErrors_getUserPowerLevel hcreate htype)
    intro userLevel
    apply raisesOnly_bind_and (noAuthErrors_getUserPowerLevel _)
      (onlyAuthErrors_getUserPowerLevel hcreate htype)
    intro targetLevel
    apply raisesOnly_bind_and (noAuthErrors_getNamedLevel _ _) onlyAuthErrors_getNamedLevel
    intro inviteLevel
    simp [raisesOnly_bind,onlyAuthErrors_getNamedLevel]
  rw [hconj,contextReadable_iff]
  tauto

def AuthorisedJoinReadable (env : Env) (event : EventBase) (s : StateMap EventBase)
    (create : EventBase) : Prop :=
  (event.contentGet "join_authorised_via_users_server" .null).isNone = false →
    (event.contentGet "join_authorised_via_users_server" .null).hashable = true ∧
    ∀ member, lookupJson s "m.room.member"
        (event.contentGet "join_authorised_via_users_server" .null) = .ok member →
      MemberReadable member ∧ (memberIs member "join" = .ok true →
        ∀ user, event.contentGet "join_authorised_via_users_server" .null = .str user →
          UserLevelReadable env s create user)

theorem checkJoinedRoom_ok_iff {member : Option EventBase} {user : Json} {roomId : String} :
    checkJoinedRoom env member user roomId = .ok () ↔ memberIs member "join" = .ok true := by
  unfold checkJoinedRoom
  cases memberIs member "join" with
  | error e => simp
  | ok joined => simp

section room
variable (hcreate : s.lookup createKey = some create) (htype : create.type = "m.room.create")

include hcreate htype in
theorem onlyAuthErrors_checkAuthorisedJoin {c : MembershipContext} :
    RaisesOnly IsAuthError (checkAuthorisedJoin env event s c) ↔ AuthorisedJoinReadable env event s create := by
  simp only [checkAuthorisedJoin,AuthorisedJoinReadable]
  generalize event.contentGet "join_authorised_via_users_server" .null = user
  cases hnone : user.isNone with
  | true => simp
  | false =>
    simp only [Bool.false_eq_true,if_false,forall_const]
    rw [raisesOnly_bind,onlyAuthErrors_lookupJson]
    apply and_congr_right
    intro _
    apply forall_congr'
    intro member
    apply imp_congr_right
    intro _
    rw [raisesOnly_check,onlyAuthErrors_checkJoinedRoom,checkJoinedRoom_ok_iff]
    apply and_congr_right
    intro _
    apply imp_congr_right
    intro _
    cases user with
    | str user =>
      simp [raisesOnly_bind,raisesOnly_ite,onlyAuthErrors_getUserPowerLevel hcreate htype]
    | _ => simp

@[mk_iff] structure ChangeReadable (env : Env) (event : EventBase) (membership : Json) (target : String)
    (s : StateMap EventBase) (create : EventBase) (c : MembershipContext) : Prop where
  thirdParty : membership.isStr "invite" = true → hasField event.content "third_party_invite" = true →
    ThirdPartyInviteReadable env event s target
  join : membership.isStr "join" = true → event.sender = target → c.targetBanned = false →
    ¬(joinRule s).isStr "public" →
    (event.roomVersion.restrictedJoinRule ∧ (joinRule s).isStr "restricted") ∨
      (event.roomVersion.knockRestrictedJoinRule ∧ (joinRule s).isStr "knock_restricted") →
    c.callerInRoom = false → c.callerInvited = false → AuthorisedJoinReadable env event s create
  leave : membership.isStr "leave" = true → c.callerInRoom = true →
    ¬(c.targetBanned = true ∧ c.userLevel < c.banLevel) → target ≠ event.sender →
    NamedLevelReadable env s "kick"

theorem onlyAuthErrors_checkLeave {c : MembershipContext} :
    RaisesOnly IsAuthError (checkLeave env event target s c) ↔
      (¬(c.targetBanned ∧ c.userLevel < c.banLevel) → target ≠ event.sender →
        NamedLevelReadable env s "kick") := by
  simp [checkLeave,raisesOnly_ite,raisesOnly_bind,onlyAuthErrors_getNamedLevel]

include hcreate htype in
theorem onlyAuthErrors_checkJoin {c : MembershipContext} :
    RaisesOnly IsAuthError (checkJoin env event.roomVersion event target s c) ↔
      (event.sender = target → c.targetBanned = false → ¬(joinRule s).isStr "public" →
        (event.roomVersion.restrictedJoinRule ∧ (joinRule s).isStr "restricted") ∨
          (event.roomVersion.knockRestrictedJoinRule ∧ (joinRule s).isStr "knock_restricted") →
        c.callerInRoom = false → c.callerInvited = false →
        AuthorisedJoinReadable env event s create) := by
  simp only [checkJoin,raisesOnly_ite,onlyAuthErrors_checkAuthorisedJoin hcreate htype]
  simp

variable {membership : Json}

theorem onlyAuthErrors_checkMembership {c : MembershipContext} : RaisesOnly IsAuthError
      (checkMembership env event.roomVersion event membership target s c) ↔
      (membership.isStr "join" → RaisesOnly IsAuthError (checkJoin env event.roomVersion event target s c)) ∧
      (membership.isStr "leave" → RaisesOnly IsAuthError (checkLeave env event target s c)) := by
  have hinvite : RaisesOnly IsAuthError (checkInvite target c) := by
    simp [checkInvite,raisesOnly_ite]
  have hban : RaisesOnly IsAuthError (checkBan c) := by
    simp [checkBan,raisesOnly_ite]
  have hknock : RaisesOnly IsAuthError (checkKnock event.roomVersion event target s c) := by
    simp [checkKnock,raisesOnly_ite]
  by_cases hjoin : membership = .str "join"
  · subst hjoin
    simp [checkMembership]
  by_cases hleave : membership = .str "leave"
  · subst hleave
    simp [checkMembership]
  simp [checkMembership,raisesOnly_ite,hjoin,hleave,hinvite,hban,hknock]

include hcreate htype in
theorem onlyAuthErrors_checkMembershipChange {c : MembershipContext}
    (hkey : event.stateKey = some target) : RaisesOnly IsAuthError
      (checkMembershipChange env event.roomVersion event membership target s c) ↔
      ChangeReadable env event membership target s create c := by
  have hjoinIff := @onlyAuthErrors_checkJoin env event s create target hcreate htype c
  have hiff : RaisesOnly IsAuthError (checkMembershipChange env event.roomVersion event membership target s c) ↔
      (membership = .str "invite" → hasField event.content "third_party_invite" →
        ThirdPartyInviteReadable env event s target) ∧
      (membership = .str "join" → RaisesOnly IsAuthError (checkJoin env event.roomVersion event target s c)) ∧
      (membership = .str "leave" → c.callerInRoom →
        RaisesOnly IsAuthError (checkLeave env event target s c)) := by
    unfold checkMembershipChange
    by_cases hinvite : membership = .str "invite"
    · subst hinvite
      cases hasField event.content "third_party_invite" <;>
        simp [raisesOnly_bind,raisesOnly_ite,onlyAuthErrors_verifyThirdPartyInvite hkey,
          onlyAuthErrors_checkMembership]
    by_cases hjoin : membership = .str "join"
    · subst hjoin
      simp [onlyAuthErrors_checkMembership]
    by_cases hleave : membership = .str "leave"
    · subst hleave
      by_cases hself : target = event.sender
      · -- Nothing is read when a user leaves.
        simp [raisesOnly_ite,onlyAuthErrors_checkMembership,onlyAuthErrors_checkLeave,hself]
      · simp [raisesOnly_ite,onlyAuthErrors_checkMembership,hself]
    simp [raisesOnly_ite,hinvite,hjoin,hleave,onlyAuthErrors_checkMembership]
  rw [hiff,hjoinIff,onlyAuthErrors_checkLeave,changeReadable_iff]
  simp

def Federates (env : Env) (create : EventBase) (userId : String) (s : StateMap EventBase) : Prop :=
  getDomainFromId env create.sender = getDomainFromId env userId ∨ canFederate s = true

theorem onlyAuthErrors_checkFederates {userId : String} :
    RaisesOnly IsAuthError (checkFederates env create userId s) ↔
      hasDomain create.sender ∧ hasDomain userId := by
  apply raisesOnly_bind_and (noAuthErrors_getDomainFromId _) onlyAuthErrors_getDomainFromId
  intro creatingDomain
  rw [raisesOnly_bind,onlyAuthErrors_getDomainFromId]
  simp [raisesOnly_ite]

theorem checkFederates_ok_iff {userId : String} (hsender : hasDomain create.sender) (huser : hasDomain userId) :
    checkFederates env create userId s = .ok () ↔ Federates env create userId s := by
  obtain ⟨creatingDomain,hcreating⟩ := exists_ok_of_raisesOnly
    (onlyAuthErrors_getDomainFromId.mpr hsender) (@noAuthErrors_getDomainFromId env _)
  obtain ⟨domain,hdomain⟩ := exists_ok_of_raisesOnly
    (onlyAuthErrors_getDomainFromId.mpr huser) (@noAuthErrors_getDomainFromId env _)
  unfold checkFederates Federates
  rw [hcreating,hdomain]
  cases canFederate s <;> simp

def CreatorJoinReadable (event create : EventBase) (membership : Json) : Prop :=
  membership.isStr "join" → event.prevEventIds = [create.eventId] →
    (event.roomVersion.implicitRoomCreator = true ∨ hasField create.content "creator" = true) ∧
      event.stateKey.isSome = true

include hcreate in
theorem onlyAuthErrors_isCreatorJoin :
    RaisesOnly IsAuthError (isCreatorJoin event.roomVersion event membership s) ↔
      CreatorJoinReadable event create membership := by
  unfold isCreatorJoin CreatorJoinReadable
  rw [hcreate]
  match event.prevEventIds with
  | [] => simp
  | [prev] =>
    by_cases hprev : membership = .str "join" ∧ prev = create.eventId
    · obtain ⟨rfl,rfl⟩ := hprev
      simp only [Json.isStr,beq_self_eq_true,forall_const]
      apply raisesOnly_bind_and
      · simp [raisesOnly_ite]
      · cases event.roomVersion.implicitRoomCreator <;> simp [onlyAuthErrors_fieldAt]
      · intro creator
        rw [raisesOnly_bind,onlyAuthErrors_requireStateKey]
        simp
    · have hnot : ¬(membership.isStr "join" ∧ prev = create.eventId) := by
        simpa using hprev
      simp only [if_neg hnot,pure_eq,raisesOnly_ok,true_iff,cons.injEq,and_true]
      intro hjoin heq
      exact absurd ⟨hjoin,heq⟩ hnot
  | _ :: _ :: _ => simp

section
variable (env event s create)

def MemberEventReadable : Prop :=
  ∃ membership, event.content.lookup "membership" = some membership ∧
    CreatorJoinReadable event create membership ∧
    (isCreatorJoin event.roomVersion event membership s = .ok false →
      ∃ target, event.stateKey = some target ∧ hasDomain target = true ∧
        (Federates env create target s → ContextReadable env event target s create ∧
          ∀ c, membershipContext env event.roomVersion event target s = .ok c →
            ChangeReadable env event membership target s create c))

def SentReadable : Prop :=
  if event.type = "m.room.third_party_invite" then
    UserLevelReadable env s create event.sender ∧ NamedLevelReadable env s "invite"
  else
    SendReadable env event s create ∧ (canSendEvent env event s = .ok () →
      (event.type = "m.room.power_levels" → PowerLevelsReadable env event s create) ∧
      (event.type = "m.room.redaction" → RedactionReadable env event s create))

def RulesReadable : Prop :=
  if event.type = "m.room.aliases" ∧ event.roomVersion.specialCaseAliasesAuth then True
  else if event.type = "m.room.member" then MemberEventReadable env event s create
  else MemberReadable (s.lookup (memberKey event.sender)) ∧
    (memberIs (s.lookup (memberKey event.sender)) "join" = .ok true → SentReadable env event s create)

/-- All that the rules read, of the event and of the state it is checked against, can be read. -/
@[mk_iff] structure EventReadable : Prop where
  creator : hasDomain create.sender = true
  sender : hasDomain event.sender = true
  rules : Federates env create event.sender s → RulesReadable env event s create

end

include hcreate htype in
theorem onlyAuthErrors_isMembershipChangeAllowed (hsender : hasDomain create.sender) :
    RaisesOnly IsAuthError (isMembershipChangeAllowed env event.roomVersion event s) ↔
      MemberEventReadable env event s create := by
  have hrules : ∀ membership target, event.stateKey = some target → (RaisesOnly IsAuthError (do
        checkFederates env create target s
        let c ← membershipContext env event.roomVersion event target s
        checkMembershipChange env event.roomVersion event membership target s c) ↔
      hasDomain target ∧ (Federates env create target s → ContextReadable env event target s create ∧
          ∀ c, membershipContext env event.roomVersion event target s = .ok c →
            ChangeReadable env event membership target s create c)) := by
    intro membership target hkey
    rw [raisesOnly_check,onlyAuthErrors_checkFederates,raisesOnly_bind,
      onlyAuthErrors_membershipContext hcreate htype]
    simp only [onlyAuthErrors_checkMembershipChange hcreate htype hkey,hsender,true_and]
    apply and_congr_right
    intro htarget
    rw [checkFederates_ok_iff hsender htarget]
  unfold isMembershipChangeAllowed MemberEventReadable EventBase.membership
  rw [raisesOnly_bind_iff (noAuthErrors_fieldAt _ _)]
  simp only [fieldAt_eq_ok]
  apply exists_congr
  intro membership
  apply and_congr_right
  intro _
  rw [raisesOnly_bind,onlyAuthErrors_isCreatorJoin hcreate]
  apply and_congr_right
  intro _
  rw [Bool.forall_bool,and_iff_left (by simp)]
  apply imp_congr_right
  intro _
  simp only [Bool.false_eq_true,if_false,hcreate]
  rw [raisesOnly_bind_iff (noAuthErrors_requireStateKey _)]
  simp only [requireStateKey_eq_ok]
  exact exists_congr fun target => and_congr_right fun hkey => hrules membership target hkey

theorem onlyAuthErrors_checkAliases (hsender : hasDomain event.sender) :
    RaisesOnly IsAuthError (checkAliases env event) := by
  unfold checkAliases
  cases event.stateKey with
  | none => simp
  | some stateKey =>
    rw [raisesOnly_ite,raisesOnly_bind,onlyAuthErrors_getDomainFromId]
    simp [raisesOnly_ite,hsender]

include hcreate htype in
theorem onlyAuthErrors_checkThirdPartyInvite : RaisesOnly IsAuthError (checkThirdPartyInvite env event s) ↔
      UserLevelReadable env s create event.sender ∧ NamedLevelReadable env s "invite" := by
  apply raisesOnly_bind_and
  · simp
  · exact onlyAuthErrors_getUserPowerLevel hcreate htype
  · intro userLevel
    rw [raisesOnly_bind,onlyAuthErrors_getNamedLevel]
    simp [raisesOnly_ite]

include hcreate htype in
theorem onlyAuthErrors_checkByType (hcreator : hasDomain create.sender) (hsender : hasDomain event.sender) :
    (∀ it : Iteration, RaisesOnly IsAuthError (checkByType env it event s)) ↔
      RulesReadable env event s create := by
  have : Nonempty Iteration := ⟨.listed⟩
  unfold checkByType RulesReadable
  by_cases haliases : event.type = "m.room.aliases" ∧ event.roomVersion.specialCaseAliasesAuth
  · simp [haliases,onlyAuthErrors_checkAliases hsender]
  by_cases hmember : event.type = "m.room.member"
  · simp [hmember,onlyAuthErrors_isMembershipChangeAllowed hcreate htype hcreator]
  simp only [haliases,hmember,if_false,raisesOnly_check,checkEventSenderInRoom,
    onlyAuthErrors_checkJoinedRoom,checkJoinedRoom_ok_iff,SentReadable]
  rw [forall_and,forall_const]
  apply and_congr_right
  intro _
  rw [forall_comm]
  apply forall_congr'
  intro _
  by_cases hinvite : event.type = "m.room.third_party_invite"
  · simp [hinvite,onlyAuthErrors_checkThirdPartyInvite hcreate htype]
  simp only [hinvite,if_false,raisesOnly_check,onlyAuthErrors_canSendEvent hcreate htype]
  rw [forall_and,forall_const]
  apply and_congr_right
  intro _
  rw [forall_comm]
  apply forall_congr'
  intro _
  by_cases hlevels : event.type = "m.room.power_levels"
  · simp [hlevels,onlyAuthErrors_checkPowerLevels hcreate htype hlevels]
  by_cases hredaction : event.type = "m.room.redaction"
  · simp [hredaction,raisesOnly_bind,onlyAuthErrors_checkRedaction hcreate htype]
  simp [hlevels,hredaction]

include hcreate htype in
theorem onlyAuthErrors_checkAgainstState :
    (∀ it : Iteration, RaisesOnly IsAuthError (checkAgainstState env it event s)) ↔
      EventReadable env event s create := by
  have : Nonempty Iteration := ⟨.listed⟩
  unfold checkAgainstState
  simp only [hcreate,raisesOnly_check,onlyAuthErrors_checkFederates]
  rw [forall_and,forall_const,forall_comm,eventReadable_iff,and_assoc]
  apply and_congr_right
  intro hcreator
  apply and_congr_right
  intro hsender
  rw [checkFederates_ok_iff hcreator hsender,onlyAuthErrors_checkByType hcreate htype hcreator hsender]

end room

def WellKeyed (d : StateMap EventBase) : Prop :=
  ∀ key e, d.lookup key = some e → e.type = key.1 ∧ e.stateKey = some key.2

theorem WellKeyed.insert {d : StateMap EventBase} {e : EventBase} {stateKey : String}
    (hd : WellKeyed d) (hkey : e.stateKey = some stateKey) :
    WellKeyed (d.insert (e.type,stateKey) e) := by
  intro key e' he'
  rcases Entries.insert_cases he' with ⟨rfl,rfl⟩ | ⟨-,hold⟩
  · exact ⟨rfl,hkey⟩
  · exact hd key e' hold

variable {events : List EventBase}

theorem authDict_spec (h : ∀ e ∈ events, e.stateKey.isSome) : ∃ d, authDict events = .ok d ∧ WellKeyed d := by
  apply foldlM_spec fun (_ : List EventBase) d => WellKeyed d
  · intro key e he
    simp at he
  · intro pre a post d hevents hd
    have ha : a ∈ events := by rw [hevents]; simp
    obtain ⟨stateKey,hkey⟩ := isSome_iff_exists.mp (h a ha)
    refine ⟨d.insert (a.type,stateKey) a,?_,hd.insert hkey⟩
    rw [requireStateKey_eq_ok.mpr hkey]
    rfl

theorem noAuthErrors_authDict : NoAuthErrors (authDict events) := by
  exact raisesOnly_foldlM fun d e => by simp [raisesOnly_bind]

theorem stateKeys_of_authDict {s : StateMap EventBase}
    (h : authDict events = .ok s) : ∀ e ∈ events, e.stateKey.isSome := by
  unfold authDict at h
  generalize (∅ : StateMap EventBase) = d at h
  induction events generalizing d with
  | nil => simp
  | cons e events ih =>
    obtain ⟨d',hd',h⟩ := bind_eq_ok.mp h
    obtain ⟨stateKey,hkey,-⟩ := bind_eq_ok.mp hd'
    rw [requireStateKey_eq_ok] at hkey
    simp only [forall_mem_cons,hkey,isSome_some,true_and]
    exact ih d' h

/-- The check of an event raises nothing but `AuthError`, in any order of the sets, exactly when
all that the rules read can be read. -/
theorem malformed_event_rejected_iff (env : Env) (event : EventBase) (events : List EventBase) :
    (∀ it : Iteration,
      RaisesOnly IsAuthError (checkStateDependentAuthRules env it event events)) ↔
      event.type = "m.room.create" ∨ ((∀ e ∈ events, e.stateKey.isSome = true) ∧
        ∀ s create, authDict events = .ok s → s.lookup createKey = some create →
          EventReadable env event s create) := by
  unfold checkStateDependentAuthRules
  by_cases hevent : event.type = "m.room.create"
  · simp [hevent]
  simp only [hevent,if_false,false_or,raisesOnly_bind_iff noAuthErrors_authDict]
  constructor
  · intro h
    obtain ⟨s,hs,-⟩ := h .listed
    have hkeys := stateKeys_of_authDict hs
    refine ⟨hkeys,?_⟩
    intro s' create hs' hcreate
    cases hs.symm.trans hs'
    obtain ⟨d,hd,hkeyed⟩ := authDict_spec hkeys
    cases hs.symm.trans hd
    apply (onlyAuthErrors_checkAgainstState hcreate (hkeyed _ _ hcreate).1).mp
    intro it
    obtain ⟨s',hs',hcheck⟩ := h it
    cases hs.symm.trans hs'
    exact hcheck
  · intro h it
    obtain ⟨s,hs,hkeyed⟩ := authDict_spec h.1
    refine ⟨s,hs,?_⟩
    cases hcreate : s.lookup createKey with
    | none =>
      -- The event is then rejected for the missing create event.
      unfold checkAgainstState
      simp [hcreate]
    | some create =>
      have hread := h.2 s create hs hcreate
      exact (onlyAuthErrors_checkAgainstState hcreate (hkeyed _ _ hcreate).1).mpr hread it

/-- Power levels for a user who is not a user ID abort the check with a `SynapseError`. -/
theorem malformed_power_levels_abort :
    createdByAlice.type = "m.room.create" ∧
      checkStateDependentAuthRules plainEnv .listed
        (plainEvent "$levels" "m.room.power_levels" "" "@alice:s"
          [("users",.obj [("bad",.int 1)])])
        [createdByAlice,memberEvent "$1" "@alice:s" "@alice:s" "join"] =
        .error (.synapseError 400 "Not a valid user_id: bad" .unknown) ∧
      ¬IsAuthError (.synapseError 400 "Not a valid user_id: bad" .unknown) :=
  ⟨rfl,rfl,id⟩

end TextrpBriij.EventAuth
