import TextrpBriij.EventAuth.Rules

/-! # What an accepted member event went through

Each rule has one lemma that says what holds when it returns. From these follows that a ban
holds: what is accepted for a banned user is a new ban, the lifting of the ban by a user with
the power for it, or the first join of the creator, which is checked against no state.
-/
namespace TextrpBriij.EventAuth
open Api Python Events Fallible
open State (StateMap Iteration)

variable {env : Env} {it : Iteration} {event : EventBase} {authEvents : StateMap EventBase}
  {roomVersion : RoomVersion} {membership : Json} {target : String} {c : MembershipContext}

@[simp] theorem Json.isStr_iff {v : Json} {s : String} : v.isStr s ↔ v = .str s := by
  unfold Json.isStr
  split
  · simp
  · rename_i h
    simp only [Bool.false_eq_true,false_iff]
    exact h s

variable {name key : String}

theorem memberIs_some {m : EventBase} {b : Bool}
    (h : memberIs (some m) name = .ok b) : ∃ v, m.membership = .ok v ∧ b = v.isStr name := by
  obtain ⟨v,hv,hb⟩ := bind_eq_ok.mp h
  exact ⟨v,hv,(Except.ok.inj hb).symm⟩

theorem requireStateKey_eq_ok : event.requireStateKey = .ok key ↔ event.stateKey = some key := by
  unfold EventBase.requireStateKey
  cases event.stateKey <;> simp

structure MembershipContext.Holds (env : Env) (event : EventBase) (target : String)
    (authEvents : StateMap EventBase) (c : MembershipContext) : Prop where
  callerInRoom : memberIs (authEvents.lookup (memberKey event.sender)) "join" = .ok c.callerInRoom
  callerInvited : memberIs (authEvents.lookup (memberKey event.sender)) "invite" = .ok c.callerInvited
  callerKnocked : c.callerKnocked → memberIs (authEvents.lookup (memberKey event.sender)) "knock" = .ok true
  targetBanned : memberIs (authEvents.lookup (memberKey target)) "ban" = .ok c.targetBanned
  userLevel : getUserPowerLevel env event.sender authEvents = .ok c.userLevel
  targetLevel : getUserPowerLevel env target authEvents = .ok c.targetLevel
  banLevel : getNamedLevel env authEvents "ban" 50 = .ok c.banLevel

theorem membershipContext_holds (h : membershipContext env roomVersion event target authEvents = .ok c) :
    c.Holds env event target authEvents := by
  obtain ⟨inRoom,hinRoom,h⟩ := bind_eq_ok.mp h
  obtain ⟨invited,hinvited,h⟩ := bind_eq_ok.mp h
  obtain ⟨knocked,hknocked,h⟩ := bind_eq_ok.mp h
  obtain ⟨targetIn,-,h⟩ := bind_eq_ok.mp h
  obtain ⟨banned,hbanned,h⟩ := bind_eq_ok.mp h
  obtain ⟨userLevel,huser,h⟩ := bind_eq_ok.mp h
  obtain ⟨targetLevel,htarget,h⟩ := bind_eq_ok.mp h
  obtain ⟨inviteLevel,-,h⟩ := bind_eq_ok.mp h
  obtain ⟨banLevel,hban,h⟩ := bind_eq_ok.mp h
  cases h
  refine ⟨hinRoom,hinvited,fun htrue => ?_,hbanned,huser,htarget,hban⟩
  obtain rfl : knocked := htrue
  split at hknocked
  · exact hknocked
  · cases hknocked

theorem isMembershipChangeAllowed_ok (h : isMembershipChangeAllowed env roomVersion event authEvents = .ok ()) :
    ∃ membership, event.membership = .ok membership ∧
      (isCreatorJoin roomVersion event membership authEvents = .ok true ∨
        ∃ target c, event.stateKey = some target ∧ c.Holds env event target authEvents ∧
          checkMembershipChange env roomVersion event membership target authEvents c = .ok ()) := by
  obtain ⟨membership,hmembership,h⟩ := bind_eq_ok.mp h
  obtain ⟨creatorJoin,hcreator,h⟩ := bind_eq_ok.mp h
  refine ⟨membership,hmembership,?_⟩
  cases creatorJoin with
  | true => exact .inl hcreator
  | false =>
    obtain ⟨target,htarget,h⟩ := bind_eq_ok.mp h
    cases hcreate : authEvents.lookup createKey with
    | none =>
      rw [hcreate] at h
      cases h
    | some createEvent =>
      rw [hcreate] at h
      obtain ⟨-,-,h⟩ := bind_eq_ok.mp h
      obtain ⟨c,hc,h⟩ := bind_eq_ok.mp h
      exact .inr ⟨target,c,requireStateKey_eq_ok.mp htarget,membershipContext_holds hc,h⟩

theorem checkStateDependentAuthRules_ok {events : List EventBase} (htype : event.type ≠ "m.room.create")
    (h : checkStateDependentAuthRules env it event events = .ok ()) :
    ∃ state createEvent, authDict events = .ok state ∧ state.lookup createKey = some createEvent ∧
      checkFederates env createEvent event.sender state = .ok () ∧
      checkByType env it event state = .ok () := by
  rw [checkStateDependentAuthRules,if_neg htype] at h
  obtain ⟨state,hstate,h⟩ := bind_eq_ok.mp h
  unfold checkAgainstState at h
  cases hcreate : state.lookup createKey with
  | none =>
    rw [hcreate] at h
    cases h
  | some createEvent =>
    rw [hcreate] at h
    obtain ⟨_,hfederates,h⟩ := bind_eq_ok.mp h
    exact ⟨state,createEvent,hstate,hcreate,hfederates,h⟩

/-- The user is the creator, and joins right after the create event. -/
def IsFirstJoin (event : EventBase) (authEvents : StateMap EventBase) (user : String) : Prop :=
  event.membership = .ok (.str "join") ∧ ∃ create, authEvents.lookup createKey = some create ∧
    event.prevEventIds = [create.eventId] ∧
    if event.roomVersion.implicitRoomCreator then create.sender = user
    else create.content.lookup "creator" = some (.str user)

theorem fieldAt_eq_ok {fields : Fields} {v : Json} :
    fieldAt fields key = .ok v ↔ fields.lookup key = some v := by
  unfold fieldAt
  cases fields.lookup key <;> simp

theorem isFirstJoin_of_isCreatorJoin (hmembership : event.membership = .ok membership)
    (hkey : event.stateKey = some target)
    (h : isCreatorJoin event.roomVersion event membership authEvents = .ok true) :
    IsFirstJoin event authEvents target := by
  unfold isCreatorJoin at h
  split at h
  · rename_i prev create hprev hcreate
    split at h
    · rename_i hjoin
      obtain ⟨creator,hcreator,h⟩ := bind_eq_ok.mp h
      obtain ⟨stateKey,hstateKey,h⟩ := bind_eq_ok.mp h
      rw [requireStateKey_eq_ok,hkey] at hstateKey
      cases hstateKey
      have hsame : creator = .str target := Json.isStr_iff.mp (Except.ok.inj h)
      subst hsame
      rw [Json.isStr_iff.mp hjoin.1] at hmembership
      refine ⟨hmembership,create,hcreate,by rw [hprev,hjoin.2],?_⟩
      split at hcreator
      · rename_i himplicit
        rw [if_pos himplicit]
        exact Json.str.inj (Except.ok.inj hcreator)
      · rename_i himplicit
        rw [if_neg himplicit]
        exact fieldAt_eq_ok.mp hcreator
    · cases h
  · cases h

theorem memberIs_of_banned {member : Option EventBase} {b : Bool}
    (hban : memberIs member "ban" = .ok true) (h : memberIs member name = .ok b)
    (hname : name ≠ "ban") : b = false := by
  cases member with
  | none => cases hban
  | some m =>
    obtain ⟨v,hv,hb⟩ := memberIs_some hban
    obtain ⟨v',hv',rfl⟩ := memberIs_some h
    cases hv.symm.trans hv'
    rw [Json.isStr_iff.mp hb.symm]
    simp [Json.isStr,Ne.symm hname]

section banned
variable (hban : c.targetBanned = true)
include hban

theorem checkInvite_banned : checkInvite target c ≠ .ok () := by
  simp [checkInvite,hban]

theorem checkJoin_banned : checkJoin env roomVersion event target authEvents c ≠ .ok () := by
  unfold checkJoin
  split <;> simp

theorem checkKnock_banned : checkKnock roomVersion event target authEvents c ≠ .ok () := by
  unfold checkKnock
  repeat' split
  all_goals simp_all

theorem checkLeave_banned (hother : target ≠ event.sender)
    (h : checkLeave env event target authEvents c = .ok ()) :
    c.banLevel ≤ c.userLevel ∧ c.targetLevel < c.userLevel ∧
      ∃ kickLevel, getNamedLevel env authEvents "kick" 50 = .ok kickLevel ∧ kickLevel ≤ c.userLevel := by
  unfold checkLeave at h
  split at h
  · cases h
  · rename_i hunban
    obtain ⟨kickLevel,hkick,h⟩ := bind_eq_ok.mp h
    split at h
    · cases h
    · have hle : c.banLevel ≤ c.userLevel := by
        by_contra hlt
        exact hunban ⟨hban,by omega⟩
      exact ⟨hle,by omega,kickLevel,hkick,by omega⟩

end banned

theorem checkBan_ok (h : checkBan c = .ok ()) : c.banLevel ≤ c.userLevel ∧ c.targetLevel < c.userLevel := by
  unfold checkBan at h
  split at h
  · cases h
  · split at h
    · cases h
    · omega

theorem checkMembershipChange_banned (hc : c.Holds env event target authEvents) (hban : c.targetBanned)
    (h : checkMembershipChange env roomVersion event membership target authEvents c = .ok ()) :
    c.callerInRoom ∧ c.banLevel ≤ c.userLevel ∧ c.targetLevel < c.userLevel ∧
      (membership = .str "ban" ∨ membership = .str "leave" ∧
        ∃ kickLevel, getNamedLevel env authEvents "kick" 50 = .ok kickLevel ∧ kickLevel ≤ c.userLevel) := by
  have hbanned := hban ▸ hc.targetBanned
  -- The sender is not the target, who is neither in the room nor invited nor knocking.
  have hother : ∀ name, name ≠ "ban" → memberIs (authEvents.lookup (memberKey event.sender)) name = .ok true →
      target ≠ event.sender := by
    rintro name hname hmember rfl
    cases memberIs_of_banned hbanned hmember hname
  unfold checkMembershipChange at h
  split at h
  · obtain ⟨verified,-,h⟩ := bind_eq_ok.mp h
    split at h <;> cases h
  split at h
  · rename_i hjoin
    unfold checkMembership at h
    rcases hjoin with hjoin | hknock
    · obtain rfl := Json.isStr_iff.mp hjoin
      exact absurd h (checkJoin_banned hban)
    · obtain rfl := Json.isStr_iff.mp hknock
      have hknocks : roomVersion.knockJoinRule := by
        by_contra hnot
        simp [hnot] at h
      simp only [hknocks] at h
      exact absurd h (checkKnock_banned hban)
  split at h
  · rename_i hleave
    rcases hleave.1 with hinvited | hknocked
    · exact absurd hleave.2.2 (hother "invite" (by decide) (hinvited ▸ hc.callerInvited))
    · exact absurd hleave.2.2 (hother "knock" (by decide) (hc.callerKnocked hknocked))
  split at h
  · cases h
  rename_i hnjoin _ hin
  have hinRoom : c.callerInRoom := by simpa using hin
  unfold checkMembership at h
  split at h
  · exact absurd h (checkInvite_banned hban)
  split at h
  · rename_i hjoin
    exact absurd (.inl hjoin) hnjoin
  split at h
  · rename_i hleave
    have htarget := hother "join" (by decide) (hinRoom ▸ hc.callerInRoom)
    obtain ⟨hle,hlt,hkick⟩ := checkLeave_banned hban htarget h
    exact ⟨hinRoom,hle,hlt,.inr ⟨Json.isStr_iff.mp hleave,hkick⟩⟩
  split at h
  · rename_i hbans
    obtain ⟨hle,hlt⟩ := checkBan_ok h
    exact ⟨hinRoom,hle,hlt,.inl (Json.isStr_iff.mp hbans)⟩
  split at h
  · exact absurd h (checkKnock_banned hban)
  · cases h

theorem memberIs_join {member : Option EventBase} (h : memberIs member "join" = .ok true) :
    ∃ m, member = some m ∧ m.membership = .ok (.str "join") := by
  cases member with
  | none => cases h
  | some m =>
    obtain ⟨v,hv,hjoin⟩ := memberIs_some h
    rw [Json.isStr_iff.mp hjoin.symm] at hv
    exact ⟨m,rfl,hv⟩

/-- What is accepted for a banned user is the first join of the creator, or a ban or a leave by
another user, who is joined, has the level to ban and is above the banned user; to lift the ban
the level to kick is needed too. -/
theorem banned_user_stays_banned (env : Env) (it : Iteration) (event : EventBase)
    (events : List EventBase) (state : StateMap EventBase) (hstate : authDict events = .ok state)
    (t : String) (member : EventBase) (hmember : state.lookup (memberKey t) = some member)
    (hban : member.membership = .ok (.str "ban")) (htype : event.type = "m.room.member")
    (hkey : event.stateKey = some t)
    (hok : checkStateDependentAuthRules env it event events = .ok ()) :
    IsFirstJoin event state t ∨
      ∃ sender userLevel targetLevel banLevel, event.sender ≠ t ∧
        state.lookup (memberKey event.sender) = some sender ∧
        sender.membership = .ok (.str "join") ∧
        getUserPowerLevel env event.sender state = .ok userLevel ∧
        getUserPowerLevel env t state = .ok targetLevel ∧
        getNamedLevel env state "ban" 50 = .ok banLevel ∧
        banLevel ≤ userLevel ∧ targetLevel < userLevel ∧
        (event.membership = .ok (.str "ban") ∨ event.membership = .ok (.str "leave") ∧
          ∃ kickLevel, getNamedLevel env state "kick" 50 = .ok kickLevel ∧
            kickLevel ≤ userLevel) := by
  obtain ⟨state',createEvent,hstate',-,-,hrules⟩ :=
    checkStateDependentAuthRules_ok (by rw [htype]; decide) hok
  cases hstate.symm.trans hstate'
  have hallowed : isMembershipChangeAllowed env event.roomVersion event state = .ok () := by
    simpa [checkByType,htype] using hrules
  obtain ⟨membership,hmembership,hcase⟩ := isMembershipChangeAllowed_ok hallowed
  rcases hcase with hcreator | ⟨target,c,htarget,hc,hchange⟩
  · exact .inl (isFirstJoin_of_isCreatorJoin hmembership hkey hcreator)
  · cases hkey.symm.trans htarget
    have hbanned : memberIs (state.lookup (memberKey t)) "ban" = .ok true := by
      rw [hmember]
      simp [memberIs,hban,Json.isStr]
    have hbans : c.targetBanned = true :=
      Except.ok.inj (hc.targetBanned.symm.trans hbanned)
    obtain ⟨hin,hle,hlt,hkind⟩ := checkMembershipChange_banned hc hbans hchange
    obtain ⟨sender,hsender,hjoined⟩ := memberIs_join (hin ▸ hc.callerInRoom)
    have hother : event.sender ≠ t := by
      intro hsame
      rw [hsame,hmember] at hsender
      cases hsender
      have hsameName : "ban" = "join" := Json.str.inj (Except.ok.inj (hban.symm.trans hjoined))
      exact absurd hsameName (by decide)
    refine .inr ⟨sender,c.userLevel,c.targetLevel,c.banLevel,hother,hsender,hjoined,hc.userLevel,
      hc.targetLevel,hc.banLevel,hle,hlt,?_⟩
    rcases hkind with rfl | ⟨rfl,hkick⟩
    · exact .inl hmembership
    · exact .inr ⟨hmembership,hkick⟩

/-! A room of two users, one of them banned. -/

def plainEnv : Env where
  intOfString _ := none
  repr _ := ""
  str _ := ""
  reprEvent _ := ""
  validIpv6 _ := false
  verifySignedJson _ _ _ _ := .caught

def plainEvent (eventId type stateKey sender : String) (content : Fields) : EventBase where
  roomVersion := RoomVersions.v1
  eventId := eventId
  roomId := "!room:s"
  type := type
  stateKey := some stateKey
  sender := sender
  content := content
  redactsField := .null
  prevEventIds := ["$create"]
  authEventIds := []
  depth := 2
  originServerTs := 0
  rejectedReason := none

def createdByAlice : EventBase :=
  plainEvent "$create" "m.room.create" "" "@alice:s" [("creator",.str "@alice:s")]

def memberEvent (eventId user sender membership : String) : EventBase :=
  plainEvent eventId "m.room.member" user sender [("membership",.str membership)]

def bobIsBanned : List EventBase :=
  [createdByAlice,memberEvent "$1" "@alice:s" "@alice:s" "join", memberEvent "$2" "@bob:s" "@alice:s" "ban"]

def bobIsBannedState : StateMap EventBase :=
  (((∅ : StateMap EventBase).insert createKey createdByAlice).insert (memberKey "@alice:s")
    (memberEvent "$1" "@alice:s" "@alice:s" "join")).insert (memberKey "@bob:s")
      (memberEvent "$2" "@bob:s" "@alice:s" "ban")

theorem banned_user_stays_banned_bob :
    checkStateDependentAuthRules plainEnv .listed (memberEvent "$3" "@bob:s" "@alice:s" "leave")
        bobIsBanned = .ok () ∧
      (IsFirstJoin (memberEvent "$3" "@bob:s" "@alice:s" "leave") bobIsBannedState "@bob:s" ∨
        ∃ sender userLevel targetLevel banLevel, "@alice:s" ≠ "@bob:s" ∧
          bobIsBannedState.lookup (memberKey "@alice:s") = some sender ∧
          sender.membership = .ok (.str "join") ∧
          getUserPowerLevel plainEnv "@alice:s" bobIsBannedState = .ok userLevel ∧
          getUserPowerLevel plainEnv "@bob:s" bobIsBannedState = .ok targetLevel ∧
          getNamedLevel plainEnv bobIsBannedState "ban" 50 = .ok banLevel ∧
          banLevel ≤ userLevel ∧ targetLevel < userLevel ∧
          ((memberEvent "$3" "@bob:s" "@alice:s" "leave").membership = .ok (.str "ban") ∨
            (memberEvent "$3" "@bob:s" "@alice:s" "leave").membership = .ok (.str "leave") ∧
            ∃ kickLevel, getNamedLevel plainEnv bobIsBannedState "kick" 50 = .ok kickLevel ∧
              kickLevel ≤ userLevel)) :=
  ⟨rfl,banned_user_stays_banned plainEnv .listed (memberEvent "$3" "@bob:s" "@alice:s" "leave")
    bobIsBanned bobIsBannedState rfl "@bob:s" (memberEvent "$2" "@bob:s" "@alice:s" "ban") rfl rfl
    rfl rfl rfl⟩

/-- The first join of the creator is accepted in a state where the creator is banned. -/
theorem banned_creator_joins :
    ∃ state, authDict [createdByAlice,memberEvent "$2" "@alice:s" "@bob:s" "ban"] = .ok state ∧
      (∃ member, state.lookup (memberKey "@alice:s") = some member ∧
        member.membership = .ok (.str "ban")) ∧
      (memberEvent "$1" "@alice:s" "@alice:s" "join").membership = .ok (.str "join") ∧
      checkStateDependentAuthRules plainEnv .listed
        (memberEvent "$1" "@alice:s" "@alice:s" "join")
        [createdByAlice,memberEvent "$2" "@alice:s" "@bob:s" "ban"] = .ok () :=
  ⟨_,rfl,⟨_,rfl,rfl⟩,rfl,rfl⟩

end TextrpBriij.EventAuth
