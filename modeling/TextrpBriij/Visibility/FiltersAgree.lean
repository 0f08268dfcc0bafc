import TextrpBriij.Visibility.ClientFilters

/-! # The two client filters compared

Where the state after the event is the prior state with the event, both filters look at the same
history visibility and membership. What is left are the checks that only one of them makes.
-/
namespace TextrpBriij.Visibility
open Api Events Fallible Python State TextrpBriij.Types List
open StateFilter (contains_all contains_fromTypes lookup_filterState)

variable (storage : ClientStorage) (userId : String) (userIds : List String) (event : ClientEvent)
  (prevStateIds : StateMap String) (isPeeking filterSendToClient : Bool)

abbrev stateWith : StateMap EventBase :=
  getStateMap storage event prevStateIds .all

def isLax : Bool :=
  checkHistoryVisibility event
    (getEffectiveRoomVisibilityFromState (stateWith storage event prevStateIds)) isPeeking

def membershipAt : Except Error CheckMembershipReturn :=
  checkMembership userId event (getEffectiveRoomVisibilityFromState (stateWith storage event prevStateIds))
    (stateWith storage event prevStateIds) isPeeking

def membershipAllows : Bool :=
  match membershipAt storage userId event prevStateIds isPeeking with
  | .ok result => result.allowed
  | .error _ => false

def isMalformed : Bool := event.type = "m.room.member" ∧ event.stateKey = none

def isOwn (event : ClientEvent) (userId : String) : Bool :=
  event.type = "m.room.member" ∧ event.stateKey = some userId

def isPublicCall : Bool :=
  event.isCallInvite ∧ ((stateWith storage event prevStateIds).lookup ("m.room.join_rules","")).any
    fun joinRules => (joinRules.contentGet "join_rule" .null).isStr "public"

def isVisible : Bool :=
  isLax storage event prevStateIds isPeeking ∨ membershipAllows storage userId event prevStateIds isPeeking

/-- Where the filters are compared: the event is no outlier, the state after it is the state before
it with the event, its member events have a membership, and neither an option of an administrator
nor the erasure of the sender matters. -/
structure Comparable : Prop where
  outlier : event.outlier = false
  stateAfter : ∃ state, storage.stateForEvent event.eventId = some state ∧
    ∀ key, state.lookup key = (stateWith storage event prevStateIds).lookup key
  memberships : ∀ user member, (prevStateIds.lookup ("m.room.member",user)).bind storage.getEvent =
    some member → hasField member.content "membership" = true
  softFailed : storage.returnSoftFailedEvents userId = false
  spammy : storage.returnPolicyServerSpammyEvents userId = false
  erased : storage.isErased event.sender = false

/-- Both filters return, and they agree on the user. -/
def Agree : Prop :=
  ∃ kept included,
    filterAndTransformEventsForClient storage userId [event] isPeeking [] filterSendToClient = .ok kept ∧
    filterEventForClientsWithState storage userIds event prevStateIds isPeeking filterSendToClient =
      .ok included ∧ (kept ≠ [] ↔ userId ∈ included)

/-- The event is soft failed, or it is sent to a client, has the state key and the membership that
are read, and is not a visible call invite in a public room. -/
def AgreesOn : Prop :=
  event.softFailed = true ∨ (filterSendToClient = true ∧
    (isMalformed event = true → isDenied storage userId event = true ∧
      (isLax storage event prevStateIds isPeeking = true ∨
        ∀ user ∈ userIds, isDenied storage user event = true)) ∧
    (isDenied storage userId event = false → isVisible storage userId event prevStateIds isPeeking = true →
        isPublicCall storage event prevStateIds = false ∧
          (isOwn event userId = true → hasField event.content "membership" = true)))

variable {storage userId userIds event prevStateIds isPeeking filterSendToClient} {visibility : String}
  {stateFilter : StateFilter} {key : String × String}

theorem lookup_filterMapValues_filterState :
    (Entries.filterMapValues storage.getEvent (stateFilter.filterState prevStateIds)).lookup key =
      if stateFilter.contains key then (prevStateIds.lookup key).bind storage.getEvent else none := by
  rw [Entries.lookup_filterMapValues,lookup_filterState]
  cases stateFilter.contains key <;> simp

theorem lookup_getStateMap (h : stateFilter.contains key) :
    (getStateMap storage event prevStateIds stateFilter).lookup key =
      (stateWith storage event prevStateIds).lookup key := by
  unfold stateWith getStateMap
  cases event.stateKey with
  | none => simp [lookup_filterMapValues_filterState,contains_all,h]
  | some stateKey =>
    by_cases hkey : key = (event.type,stateKey)
    · subst hkey
      simp
    · simp [AList.lookup_insert_ne hkey,lookup_filterMapValues_filterState,contains_all,h]

theorem lookup_stateWith (h : ∀ k, event.stateKey = some k → key ≠ (event.type,k)) :
    (stateWith storage event prevStateIds).lookup key = (prevStateIds.lookup key).bind storage.getEvent := by
  unfold stateWith getStateMap
  cases hstateKey : event.stateKey with
  | none => simp [lookup_filterMapValues_filterState,contains_all]
  | some stateKey =>
    simp [AList.lookup_insert_ne (h stateKey hstateKey),lookup_filterMapValues_filterState,contains_all]

variable {state state' : StateMap EventBase}

theorem effectiveVisibility_congr (h : state.lookup historyVisKey = state'.lookup historyVisKey) :
    getEffectiveRoomVisibilityFromState state = getEffectiveRoomVisibilityFromState state' := by
  rw [getEffectiveRoomVisibilityFromState,h]
  rfl

section
variable (h : state.lookup ("m.room.member",userId) = state'.lookup ("m.room.member",userId))
include h

theorem checkMembership_congr : checkMembership userId event visibility state isPeeking =
      checkMembership userId event visibility state' isPeeking := by
  rw [checkMembership,h]
  rfl

theorem membershipAfter_congr :
    membershipAfter userId event (some state) = membershipAfter userId event (some state') := by
  simp only [membershipAfter,h]

end

theorem isOwnMembership_eq : isOwnMembership event userId =
    if isMalformed event then .error (.raised "AttributeError") else .ok (isOwn event userId) := by
  unfold isOwnMembership isMalformed isOwn EventBase.requireStateKey
  by_cases htype : event.type = "m.room.member"
  · cases hkey : event.stateKey with
    | none => simp [htype]
    | some key => simp [htype]
  · simp [htype]

section
variable (h : Comparable storage userId event prevStateIds)
include h

theorem Comparable.membership_ok {user : String} {member : EventBase} (hown : isOwn event user = false)
    (hlookup : (stateWith storage event prevStateIds).lookup ("m.room.member",user) = some member) :
    ∃ membership, member.membership = .ok membership := by
  have hprev : (prevStateIds.lookup ("m.room.member",user)).bind storage.getEvent = some member := by
    rw [← lookup_stateWith]
    · exact hlookup
    · rintro k hk heq
      simp only [Prod.mk.injEq] at heq
      simp [isOwn,← heq.1,hk,heq.2] at hown
  have hfield := h.memberships user member hprev
  obtain ⟨v,hv⟩ := Option.isSome_iff_exists.mp hfield
  exact ⟨v,by rw [EventBase.membership,fieldAt,hv]; rfl⟩

theorem Comparable.membershipAt_eq (user : String) :
    (isMalformed event ∧ membershipAt storage user event prevStateIds isPeeking =
        .error (.raised "AttributeError")) ∨
      (isMalformed event = false ∧ ∃ result, membershipAt storage user event prevStateIds isPeeking =
        .ok result ∧ membershipAllows storage user event prevStateIds isPeeking = result.allowed) := by
  cases hmalformed : isMalformed event with
  | true =>
    refine .inl ⟨rfl,?_⟩
    rw [membershipAt,checkMembership,isOwnMembership_eq,hmalformed]
    rfl
  | false =>
    refine .inr ⟨rfl,?_⟩
    suffices hok : ∃ result, membershipAt storage user event prevStateIds isPeeking = .ok result by
      obtain ⟨result,hok⟩ := hok
      exact ⟨result,hok,by rw [membershipAllows,hok]⟩
    rw [membershipAt,checkMembership,isOwnMembership_eq,hmalformed]
    cases hown : isOwn event user with
    | true =>
      simp only [Bool.false_eq_true,if_false]
      split
      · exact ⟨_,rfl⟩
      · exact ⟨_,rfl⟩
    | false =>
      cases hlookup : (stateWith storage event prevStateIds).lookup ("m.room.member",user) with
      | none => exact ⟨_,rfl⟩
      | some member =>
        obtain ⟨membership,hmembership⟩ := h.membership_ok hown hlookup
        simp only [hmembership]
        exact ⟨_,rfl⟩

theorem Comparable.usersAllowed_eq {users : List String}
    (hcheck : ∀ user ∈ users, checkMembership user event visibility state isPeeking =
      membershipAt storage user event prevStateIds isPeeking) :
    usersAllowed users event visibility state isPeeking =
      if isMalformed event ∧ users ≠ [] then .error (.raised "AttributeError")
      else .ok (users.filter fun user =>
        membershipAllows storage user event prevStateIds isPeeking) := by
  unfold usersAllowed
  cases hmalformed : isMalformed event with
  | true =>
    cases users with
    | nil => simp
    | cons user users =>
      rcases @Comparable.membershipAt_eq _ _ _ _ isPeeking h user with ⟨-,herror⟩ | ⟨hfalse,-⟩
      · rw [mapM_cons,hcheck user mem_cons_self,herror]
        simp
      · rw [hmalformed] at hfalse
        cases hfalse
  | false =>
    rw [mapM_eq_ok (g := fun user => (user,membershipAllows storage user event prevStateIds isPeeking))]
    · simp [filter_map,Function.comp_def]
    · intro user huser
      rcases @Comparable.membershipAt_eq _ _ _ _ isPeeking h user with ⟨htrue,-⟩ | ⟨-,result,hresult,hallows⟩
      · rw [hmalformed] at htrue
        cases htrue
      · rw [hcheck user huser,hresult,hallows]
        rfl

theorem Comparable.filterEvent_eq (hsoft : event.softFailed = false) :
    filterEventForClientsWithState storage userIds event prevStateIds isPeeking filterSendToClient =
      if isLax storage event prevStateIds isPeeking then
        .ok (notDenied storage userIds event filterSendToClient)
      else if isMalformed event ∧ notDenied storage userIds event filterSendToClient ≠ [] then
        .error (.raised "AttributeError")
      else .ok ((notDenied storage userIds event filterSendToClient).filter fun user =>
        membershipAllows storage user event prevStateIds isPeeking) := by
  have hvisibility : getEffectiveRoomVisibilityFromState (getStateMap storage event prevStateIds
      (.fromTypes [(historyVisKey.1,some historyVisKey.2)])) =
        getEffectiveRoomVisibilityFromState (stateWith storage event prevStateIds) := by
    apply effectiveVisibility_congr
    apply lookup_getStateMap
    simp [contains_fromTypes]
  unfold filterEventForClientsWithState
  simp only [hsoft,h.outlier,hvisibility]
  change (if isLax storage event prevStateIds isPeeking then _ else _) = _
  split
  · rfl
  · apply h.usersAllowed_eq
    intro user huser
    apply checkMembership_congr
    apply lookup_getStateMap
    rw [contains_fromTypes]
    right
    exact mem_append_left _ (mem_map_of_mem huser)

theorem Comparable.allowed_eq (hdenied : isDenied storage userId event = false)
    (hvis : stateFilter.contains historyVisKey)
    (hmember : stateFilter.contains ("m.room.member",userId))
    (hrules : event.isCallInvite → stateFilter.contains ("m.room.join_rules","")) :
    allowed storage userId isPeeking [] true stateFilter event =
      if isMalformed event then .error (.raised "AttributeError")
      else if isVisible storage userId event prevStateIds isPeeking = false ∨
        isPublicCall storage event prevStateIds then .ok none
      else membershipAfter userId event (some (stateWith storage event prevStateIds)) >>=
        fun membership => .ok (some ⟨event,membership,stickyTtl storage event⟩) := by
  obtain ⟨state,hstate,hlookup⟩ := h.stateAfter
  have hfiltered : ∀ key, stateFilter.contains key → (stateFilter.filterState state).lookup key =
        (stateWith storage event prevStateIds).lookup key := by
    intro key hkey
    rw [lookup_filterState,hkey,hlookup]
    simp
  have hafter := @membershipAfter_congr userId event _ _ (hfiltered _ hmember)
  have hvisibility := effectiveVisibility_congr (hfiltered _ hvis)
  have hpublic : isPublicCallInvite event (some (stateFilter.filterState state)) =
      .ok (isPublicCall storage event prevStateIds) := by
    unfold isPublicCallInvite isPublicCall
    cases hinvite : event.isCallInvite with
    | true => simp [hfiltered _ (hrules hinvite)]
    | false => simp
  have hcheck : checkClientAllowedToSeeEvent storage userId event true isPeeking []
      (storage.ignores userId event.sender) (storage.retentionPolicyForRoom event.roomId)
      (some (stateFilter.filterState state)) false =
        if isLax storage event prevStateIds isPeeking then .ok (some event)
        else membershipAt storage userId event prevStateIds isPeeking >>= fun result =>
          .ok (if result.allowed then some event else none) := by
    unfold isDenied at hdenied
    have hmembership : checkMembership userId event
        (getEffectiveRoomVisibilityFromState (stateWith storage event prevStateIds))
        (stateFilter.filterState state) isPeeking = membershipAt storage userId event prevStateIds isPeeking :=
      checkMembership_congr (hfiltered _ hmember)
    unfold checkClientAllowedToSeeEvent
    simp only [hdenied,if_false,not_mem_nil,h.outlier,hvisibility,true_and]
    change (if isLax storage event prevStateIds isPeeking then _ else _) = _
    split
    · rfl
    · congr 1
      funext result
      cases result.allowed <;> rfl
  unfold allowed
  simp only [h.outlier,hstate,h.erased,Bool.false_eq_true,if_false,Option.map_some,hcheck]
  rcases @Comparable.membershipAt_eq _ _ _ _ isPeeking h userId with ⟨hmalformed,herror⟩ |
    ⟨hmalformed,result,hresult,hallows⟩
  · have hinvite : isPublicCall storage event prevStateIds = false := by
      have htype : event.type = "m.room.member" := (of_decide_eq_true hmalformed).1
      simp [isPublicCall,ClientEvent.isCallInvite,htype]
    have hraise : membershipAfter userId event (some (stateWith storage event prevStateIds)) =
        .error (.raised "AttributeError") := by
      rw [membershipAfter,isOwnMembership_eq,hmalformed]
      rfl
    rw [if_pos hmalformed,herror]
    cases isLax storage event prevStateIds isPeeking with
    | true => simp [hpublic,hinvite,hafter,hraise]
    | false => rfl
  · rw [hmalformed,hresult]
    unfold isVisible
    cases isLax storage event prevStateIds isPeeking with
    | true =>
      cases hinvite : isPublicCall storage event prevStateIds with
      | true => simp [hpublic,hinvite]
      | false => simp [hpublic,hinvite,hafter]
    | false =>
      rw [hallows]
      cases hallowed : result.allowed with
      | false => simp [hallowed]
      | true =>
        cases hinvite : isPublicCall storage event prevStateIds with
        | true => simp [hallowed,hpublic,hinvite]
        | false => simp [hallowed,hpublic,hinvite,hafter]

theorem Comparable.filterAndTransform_softFailed (hsoft : event.softFailed) :
    filterAndTransformEventsForClient storage userId [event] isPeeking [] filterSendToClient = .ok [] := by
  simp [filterAndTransformEventsForClient,notSoftFailed,h.softFailed,h.spammy,hsoft]

omit h in
theorem filterAndTransform_eq (hsoft : event.softFailed = false) : ∃ stateFilter : StateFilter,
      stateFilter.contains historyVisKey ∧
      stateFilter.contains ("m.room.member",userId) ∧
      (event.isCallInvite → stateFilter.contains ("m.room.join_rules","")) ∧
      filterAndTransformEventsForClient storage userId [event] isPeeking [] filterSendToClient =
        allowed storage userId isPeeking [] filterSendToClient stateFilter event >>= fun seen =>
          .ok seen.toList := by
  refine ⟨.fromTypes ([(historyVisKey.1,some historyVisKey.2),("m.room.member",some userId)] ++
    if event.isCallInvite then [("m.room.join_rules",some "")] else []),?_,?_,?_,?_⟩
  · simp [contains_fromTypes]
  · simp [contains_fromTypes]
  · intro hinvite
    simp [contains_fromTypes,hinvite]
  · have hevents : notSoftFailed storage userId filterSendToClient [event] = [event] := by
      simp [notSoftFailed,hsoft]
    have hfound : ([event].filter fun e => e.softFailed = false).any (·.isCallInvite) = event.isCallInvite := by
      simp [hsoft]
    simp only [filterAndTransformEventsForClient,hevents,hfound,mapM_cons]
    cases allowed storage userId isPeeking [] filterSendToClient _ event with
    | error e => rfl
    | ok seen => rfl

theorem Comparable.membershipAfter_cases (hmalformed : isMalformed event = false) :
    (∃ membership, membershipAfter userId event (some (stateWith storage event prevStateIds)) =
      .ok membership ∧ (isOwn event userId → hasField event.content "membership")) ∨
    (membershipAfter userId event (some (stateWith storage event prevStateIds)) =
      .error (.raised "KeyError") ∧ isOwn event userId ∧ hasField event.content "membership" = false) := by
  rw [membershipAfter,isOwnMembership_eq,hmalformed]
  cases hown : isOwn event userId with
  | true =>
    cases hfield : event.content.lookup "membership" with
    | none =>
      right
      simp [EventBase.membership,fieldAt,hasField,hfield]
    | some membership =>
      left
      simp [EventBase.membership,fieldAt,hasField,hfield]
  | false =>
    left
    cases hlookup : (stateWith storage event prevStateIds).lookup ("m.room.member",userId) with
    | none => exact ⟨_,rfl,fun h => nomatch h⟩
    | some member =>
      obtain ⟨membership,hmembership⟩ := h.membership_ok hown hlookup
      exact ⟨membership,hmembership,fun h => nomatch h⟩

end

theorem allowed_of_denied (hdenied : isDenied storage userId event = true) :
    allowed storage userId isPeeking [] true stateFilter event = .ok none := by
  unfold isDenied at hdenied
  simp [allowed,checkClientAllowedToSeeEvent,hdenied]

theorem mem_notDenied (huser : userId ∈ userIds) :
    userId ∈ notDenied storage userIds event true ↔ isDenied storage userId event = false := by
  simp [notDenied,huser]

theorem notDenied_eq_nil : notDenied storage userIds event true = [] ↔
    ∀ user ∈ userIds, isDenied storage user event := by
  simp [notDenied]

section
variable (h : Comparable storage userId event prevStateIds) (huser : userId ∈ userIds)
  (hsoft : event.softFailed = false)
include h huser hsoft

theorem Comparable.agree_iff_of_denied (hdenied : isDenied storage userId event) :
    Agree storage userId userIds event prevStateIds isPeeking true ↔
      (isMalformed event → isLax storage event prevStateIds isPeeking ∨
        ∀ user ∈ userIds, isDenied storage user event) := by
  have hnot : userId ∉ notDenied storage userIds event true := by
    rw [mem_notDenied huser,hdenied]
    exact Bool.false_ne_true ∘ Eq.symm
  have hfirst : filterAndTransformEventsForClient storage userId [event] isPeeking [] true = .ok [] := by
    obtain ⟨stateFilter,-,-,-,heq⟩ := filterAndTransform_eq hsoft
    rw [heq,allowed_of_denied hdenied]
    rfl
  rw [← notDenied_eq_nil]
  unfold Agree
  rw [hfirst,h.filterEvent_eq hsoft]
  constructor
  · rintro ⟨kept,included,-,hsecond,-⟩ hmalformed
    cases hlax : isLax storage event prevStateIds isPeeking with
    | true => exact .inl rfl
    | false =>
      right
      by_contra hne
      rw [hlax,if_neg Bool.false_ne_true,if_pos ⟨hmalformed,hne⟩] at hsecond
      cases hsecond
  · intro hok
    cases hlax : isLax storage event prevStateIds isPeeking with
    | true => exact ⟨[],_,rfl,rfl,by simp [hnot]⟩
    | false =>
      have hreturns : ¬(isMalformed event ∧ notDenied storage userIds event true ≠ []) := by
        rintro ⟨hmalformed,hne⟩
        rcases hok hmalformed with hlax' | hnil
        · rw [hlax] at hlax'
          cases hlax'
        · exact hne hnil
      refine ⟨[],_,rfl,by rw [if_neg Bool.false_ne_true,if_neg hreturns],?_⟩
      simp [hnot]

theorem Comparable.filterEvent_included (hdenied : isDenied storage userId event = false)
    (hmalformed : isMalformed event = false) : ∃ included,
      filterEventForClientsWithState storage userIds event prevStateIds isPeeking true = .ok included ∧
        (userId ∈ included ↔ isVisible storage userId event prevStateIds isPeeking) := by
  rw [h.filterEvent_eq hsoft,hmalformed]
  have hmem := (@mem_notDenied storage userId userIds event huser).mpr hdenied
  cases hlax : isLax storage event prevStateIds isPeeking with
  | true => exact ⟨_,rfl,by simp [hmem,isVisible,hlax]⟩
  | false => exact ⟨_,rfl,by simp [hmem,isVisible,hlax]⟩

/-- For a user who is not denied the event, the two filters differ in call invites and in what they
read of the user's own membership. -/
theorem Comparable.agree_iff_of_not_denied (hdenied : isDenied storage userId event = false) :
    Agree storage userId userIds event prevStateIds isPeeking true ↔ isMalformed event = false ∧
      (isVisible storage userId event prevStateIds isPeeking → isPublicCall storage event prevStateIds = false ∧
          (isOwn event userId → hasField event.content "membership")) := by
  obtain ⟨stateFilter,hvis,hmember,hrules,hfirst⟩ :=
    filterAndTransform_eq hsoft
  unfold Agree
  rw [hfirst,h.allowed_eq hdenied hvis hmember hrules]
  cases hmalformed : isMalformed event with
  | true => simp
  | false =>
    obtain ⟨included,hsecond,hmem⟩ := h.filterEvent_included huser hsoft hdenied hmalformed
    rw [hsecond]
    cases hvisible : isVisible storage userId event prevStateIds isPeeking with
    | false =>
      rw [hvisible] at hmem
      refine iff_of_true ⟨[],included,rfl,rfl,?_⟩ ⟨rfl,fun h => nomatch h⟩
      simp [hmem]
    | true =>
      rw [hvisible] at hmem
      have hin : userId ∈ included := hmem.mpr rfl
      cases hpublic : isPublicCall storage event prevStateIds with
      | true => simp [hin]
      | false =>
        rcases h.membershipAfter_cases hmalformed with ⟨membership,hok,hfield⟩ | ⟨herror,hown,hfield⟩
        · rw [hok]
          refine iff_of_true ⟨_,included,rfl,rfl,?_⟩ ⟨rfl,fun _ => ⟨rfl,hfield⟩⟩
          simp [hin]
        · rw [herror]
          simp [hown,hfield]

end

/-- The filters agree on just these events. -/
theorem filters_agree_iff (storage : ClientStorage) (userId : String) (userIds : List String)
    (event : ClientEvent) (prevStateIds : StateMap String) (isPeeking filterSendToClient : Bool)
    (h : Comparable storage userId event prevStateIds) (huser : userId ∈ userIds) :
    Agree storage userId userIds event prevStateIds isPeeking filterSendToClient ↔
      AgreesOn storage userId userIds event prevStateIds isPeeking filterSendToClient := by
  unfold AgreesOn
  cases hsoft : event.softFailed with
  | true =>
    refine iff_of_true ⟨[],[],h.filterAndTransform_softFailed hsoft,?_,by simp⟩ (.inl rfl)
    simp [filterEventForClientsWithState,hsoft]
  | false =>
    simp only [Bool.false_eq_true,false_or]
    cases filterSendToClient with
    | false =>
      obtain ⟨stateFilter,-,-,-,hfirst⟩ :=
        filterAndTransform_eq hsoft
      refine iff_of_false ?_ fun hand => Bool.false_ne_true hand.1
      rintro ⟨kept,included,hkept,-⟩
      rw [hfirst] at hkept
      cases hkept
    | true =>
      cases hdenied : isDenied storage userId event with
      | true =>
        rw [h.agree_iff_of_denied huser hsoft hdenied]
        simp
      | false =>
        rw [h.agree_iff_of_not_denied huser hsoft hdenied]
        simp

def message : ClientEvent where
  roomVersion := RoomVersions.v10
  eventId := "$message"
  roomId := "!room:s"
  type := "m.room.message"
  stateKey := none
  sender := "@alice:s"
  content := []
  redactsField := .null
  prevEventIds := []
  authEventIds := []
  depth := 2
  originServerTs := 0
  rejectedReason := none
  softFailed := false
  policyServerSpammy := false
  outlier := false
  prevContent := none
  sticky := .null

def quietStorage : ClientStorage where
  now := 0
  isServerAdmin _ := false
  returnSoftFailedEvents _ := false
  returnPolicyServerSpammyEvents _ := false
  ignores _ _ := false
  isErased _ := false
  retentionPolicyForRoom _ := ⟨none⟩
  stateForEvent _ := some ∅
  getEvent _ := none
  pruneEvent e := e
  msc4354Enabled := false

theorem message_comparable (userId : String) : Comparable quietStorage userId message ∅ where
  outlier := rfl
  stateAfter := by
    refine ⟨∅,rfl,fun key => ?_⟩
    rfl
  memberships user member h := by simp at h
  softFailed := rfl
  spammy := rfl
  erased := rfl

theorem filters_agree_message :
    Agree quietStorage "@bob:s" ["@bob:s"] message ∅ false true ∧
      filterEventForClientsWithState quietStorage ["@bob:s"] message ∅ false true = .ok ["@bob:s"] := by
  constructor
  · refine (filters_agree_iff quietStorage "@bob:s" ["@bob:s"] message ∅ false true
      (message_comparable _) (by simp)).mpr (.inr ⟨rfl,?_,?_⟩)
    · intro h
      exact absurd h (by decide +kernel)
    · intro _ _
      exact ⟨by decide +kernel,fun h => absurd h (by decide +kernel)⟩
  · rfl

/-- Where the event is not sent to a client, the filter for one user raises. -/
theorem filter_without_sending_raises :
    Comparable quietStorage "@bob:s" message ∅ ∧
      (filterAndTransformEventsForClient quietStorage "@bob:s" [message] false [] false).map
        (·.length) = .error (.raised "NameError") ∧
      filterEventForClientsWithState quietStorage ["@bob:s"] message ∅ false false =
        .ok ["@bob:s"] ∧
      ¬Agree quietStorage "@bob:s" ["@bob:s"] message ∅ false false := by
  refine ⟨message_comparable _,rfl,rfl,?_⟩
  rintro ⟨kept,included,hkept,-⟩
  cases hkept

end TextrpBriij.Visibility
