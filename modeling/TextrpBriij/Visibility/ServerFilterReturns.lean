import TextrpBriij.EventAuth.Membership
import TextrpBriij.Visibility.FiltersAgree
import TextrpBriij.Visibility.ServerFilter

/-! # When a server is served

What a server should be shown of a list of events is read off the state at each event, with the
history visibility that clients get. The filter returns that list exactly when it can read the
state it looks at.
-/
namespace TextrpBriij.Visibility
open Api EventAuth Events Fallible Python State TextrpBriij.Types List AList

namespace ServerStorage

variable (storage : ServerStorage) (request : ServerRequest)

/-- The state at the event; there is none for outliers. -/
def stateAt (event : ClientEvent) : StateMap EventBase :=
  if event.outlier then ∅
  else Entries.filterMapValues storage.getEvent ((storage.stateIdsForEvent event.eventId).getD ∅)

def effectiveVisibility (event : ClientEvent) : String :=
  getEffectiveRoomVisibilityFromState (storage.stateAt event)

def memberOf (event : EventBase) : Option (String × String) :=
  match event.stateKey,event.content.lookup "membership" with
  | some stateKey,some (.str membership) => some (stateKey,membership)
  | _,_ => none

def membersAt (serverName : String) (event : ClientEvent) : List (String × String) :=
  (storage.memberEvents serverName ((StateFilter.fromTypes [("m.room.member",none)]).filterState
    ((storage.stateIdsForEvent event.eventId).getD ∅))).filterMap memberOf

def isInvisible (event : ClientEvent) : Bool :=
  request.filterOutRemotePartialStateEvents && (serverNameOf event.sender ≠ some request.localServerName &&
      storage.isPartialStateRoom event.roomId)

def isMembersOnly (historyVisibility : String) : Bool :=
  historyVisibility = "invited" ∨ historyVisibility = "joined"

def isShown (event : ClientEvent) : Bool :=
  !storage.erasedSender request event && !storage.isInvisible request event &&
    (!isMembersOnly (storage.effectiveVisibility event) ||
      (storage.membersAt request.targetServerName event).any fun member =>
        letsSee (storage.effectiveVisibility event) member.2)

def shownForm (event : ClientEvent) (shown : Bool) : Option ClientEvent :=
  if shown then some event else if request.redact then some (storage.pruneEvent event) else none

def shownEvents (events : List ClientEvent) : List ClientEvent :=
  events.filterMap fun event => storage.shownForm request event (storage.isShown request event)

def sentVisibility (event : ClientEvent) : Json :=
  match (storage.stateAt event).lookup historyVisKey with
  | none => .str "shared"
  | some visEvent => visEvent.contentGet "history_visibility" (.str "shared")

/-- Up to the first member that lets the server see the event, the state keys have a sigil. -/
def keysReadable (historyVisibility : String) : List (String × String) → Bool
  | [] => true
  | (stateKey,membership) :: members => stateKey.toList.head? = some '@' &&
      (letsSee historyVisibility membership || keysReadable historyVisibility members)

/-- What the filter has to be able to read of the state at an event. -/
structure IsReadable (event : ClientEvent) : Prop where
  sender : request.filterOutRemotePartialStateEvents = true → ∃ domain, serverNameOf event.sender = some domain
  visibility : ∃ vis, storage.sentVisibility event = .str vis
  members : storage.erasedSender request event = false → storage.isInvisible request event = false →
    isMembersOnly (storage.effectiveVisibility event) = true → keysReadable (storage.effectiveVisibility event)
        (storage.membersAt request.targetServerName event) = true

/-- The state of the events is known, its events are stored, and its member events were accepted
with a membership. -/
structure HasState (events : List ClientEvent) : Prop where
  known : ∀ event ∈ events, event.outlier = false →
    ∃ stateIds, storage.stateIdsForEvent event.eventId = some stateIds
  stored : ∀ event ∈ events, ∀ stateIds, storage.stateIdsForEvent event.eventId = some stateIds →
    ∀ key id, stateIds.lookup key = some id → id ≠ "" ∧ ∃ stateEvent,
      storage.getEvent id = some stateEvent ∧ stateEvent.stateKey = some key.2 ∧
      (key.1 = "m.room.member" → ∃ membership, stateEvent.content.lookup "membership" = some (.str membership))

variable {storage request} {events : List ClientEvent} {event : ClientEvent}

theorem effectiveVisibility_eq : storage.effectiveVisibility event =
    oneOf visibilityPriority "shared" (storage.sentVisibility event) := by
  unfold effectiveVisibility getEffectiveRoomVisibilityFromState sentVisibility
  cases (storage.stateAt event).lookup historyVisKey with
  | none => decide
  | some visEvent => rfl

theorem getDomainFromId_eq_ok {id domain : String} :
    getDomainFromId storage.env id = .ok domain ↔ serverNameOf id = some domain := by
  unfold getDomainFromId serverNameOf
  cases id.toList.dropWhile (· ≠ ':') with
  | nil => simp
  | cons c rest => simp

theorem partialStateInvisible_eq (h : request.filterOutRemotePartialStateEvents →
    ∃ domain, serverNameOf event.sender = some domain) :
    storage.partialStateInvisible request event = .ok (storage.isInvisible request event) := by
  unfold partialStateInvisible isInvisible
  cases hflag : request.filterOutRemotePartialStateEvents with
  | false => rfl
  | true =>
    obtain ⟨domain,hdomain⟩ := h hflag
    rw [getDomainFromId_eq_ok.mpr hdomain,hdomain]
    simp

theorem sender_of_partialStateInvisible {invisible : Bool}
    (h : storage.partialStateInvisible request event = .ok invisible)
    (hflag : request.filterOutRemotePartialStateEvents) :
    ∃ domain, serverNameOf event.sender = some domain := by
  rw [partialStateInvisible,if_pos hflag] at h
  obtain ⟨domain,hdomain,-⟩ := bind_eq_ok.mp h
  exact ⟨domain,getDomainFromId_eq_ok.mp hdomain⟩

theorem stateIds_eq (h : storage.HasState events) (he : event ∈ events)
    (hout : event.outlier = false) (stateFilter : StateFilter) :
    storage.stateIds stateFilter event =
      .ok (stateFilter.filterState ((storage.stateIdsForEvent event.eventId).getD ∅)) := by
  obtain ⟨stateIds,hids⟩ := h.known event he hout
  rw [ServerStorage.stateIds,hids]
  rfl

def visibilityIds (storage : ServerStorage) (event : ClientEvent) : StateMap String :=
  if event.outlier then ∅
  else (StateFilter.fromTypes [(historyVisKey.1,some historyVisKey.2)]).filterState
    ((storage.stateIdsForEvent event.eventId).getD ∅)

theorem visibilityIn_eq (h : storage.HasState events) (he : event ∈ events) :
    storage.visibilityIn (storage.visibilityIds event) = assertStr (storage.sentVisibility event) := by
  unfold visibilityIn visibilityIds sentVisibility stateAt
  cases hout : event.outlier with
  | true => rfl
  | false =>
    obtain ⟨stateIds,hids⟩ := h.known event he hout
    have hcontains : (StateFilter.fromTypes [(historyVisKey.1,some historyVisKey.2)]).contains
        historyVisKey := StateFilter.contains_fromTypes.mpr (by simp)
    simp only [Bool.false_eq_true,if_false,hids,Option.getD_some,StateFilter.lookup_filterState,
      hcontains,if_true,Entries.lookup_filterMapValues]
    cases hvis : stateIds.lookup historyVisKey with
    | none => rfl
    | some id =>
      obtain ⟨hid,visEvent,hget,-⟩ := h.stored event he stateIds hids _ id hvis
      have hkept : (some id).filter (· ≠ "") = some id := by simp [hid]
      simp only [hkept,hget,Option.bind_some]

theorem eventToHistoryVis_eq (h : storage.HasState events) : storage.eventToHistoryVis events =
    events.mapM fun event => assertStr (storage.sentVisibility event) := by
  have hids : ∀ event ∈ events, (if event.outlier then pure ∅
      else storage.stateIds (.fromTypes [(historyVisKey.1,some historyVisKey.2)]) event) =
        Except.ok (storage.visibilityIds event) := by
    intro event he
    unfold visibilityIds
    cases hout : event.outlier with
    | true => rfl
    | false => exact stateIds_eq h he hout _
  rw [eventToHistoryVis,mapM_eq_ok hids,ok_bind,mapM_map]
  exact mapM_congr fun event he => visibilityIn_eq h he

def memberIds (storage : ServerStorage) (event : ClientEvent) : StateMap String :=
  (StateFilter.fromTypes [("m.room.member",none)]).filterState ((storage.stateIdsForEvent event.eventId).getD ∅)

variable {serverName vis : String}

section
variable (h : storage.HasState events) (he : event ∈ events)
include h he

theorem exists_member
    {member : EventBase} (hin : member ∈ storage.memberEvents serverName (storage.memberIds event)) :
    ∃ stateKey membership, member.stateKey = some stateKey ∧
      member.content.lookup "membership" = some (.str membership) ∧
      isOfServer serverName stateKey := by
  obtain ⟨⟨key,id⟩,hentry,hget⟩ := mem_filterMap.mp hin
  obtain ⟨hserver,hget⟩ := Option.ite_none_right_eq_some.mp hget
  have hlookup : (storage.memberIds event).lookup key = some id := mem_lookup_iff.mpr hentry
  rw [memberIds,StateFilter.lookup_filterState] at hlookup
  obtain ⟨hcontains,hlookup⟩ := Option.ite_none_right_eq_some.mp hlookup
  have htype : key.1 = "m.room.member" := by
    have := StateFilter.contains_fromTypes.mp hcontains
    simpa using this
  cases hids : storage.stateIdsForEvent event.eventId with
  | none =>
    rw [hids] at hlookup
    cases hlookup
  | some stateIds =>
    rw [hids] at hlookup
    obtain ⟨-,stored,hstored,hkey,hmember⟩ := h.stored event he stateIds hids key id hlookup
    cases hstored.symm.trans hget
    obtain ⟨membership,hmembership⟩ := hmember htype
    exact ⟨key.2,membership,hkey,hmembership,hserver⟩

theorem memberEvents_eq (serverName : String) :
    (storage.memberEvents serverName (storage.memberIds event)).mapM membershipOf =
      .ok ((storage.membersAt serverName event).map fun member => (member.1,.str member.2)) := by
  have hmember : ∀ member ∈ storage.memberEvents serverName (storage.memberIds event),
      ∃ stateKey membership, membershipOf member = .ok (stateKey,.str membership) ∧
        memberOf member = some (stateKey,membership) := by
    intro member hin
    obtain ⟨stateKey,membership,hkey,hlookup,-⟩ := exists_member h he hin
    refine ⟨stateKey,membership,?_,?_⟩
    · simp [membershipOf,EventBase.requireStateKey,EventBase.membership,fieldAt,hkey,hlookup]
    · simp [memberOf,hkey,hlookup]
  change _ = Except.ok (map _ ((storage.memberEvents serverName (storage.memberIds event)).filterMap memberOf))
  generalize storage.memberEvents serverName (storage.memberIds event) = found at hmember
  induction found with
  | nil => rfl
  | cons member found ih =>
    obtain ⟨stateKey,membership,hread,hof⟩ := hmember member mem_cons_self
    have hrest := ih fun other hin => hmember other (mem_cons_of_mem _ hin)
    rw [mapM_cons,hread,hrest,filterMap_cons,hof]
    rfl

theorem isOfServer_of_mem_membersAt {member : String × String}
    (hin : member ∈ storage.membersAt serverName event) :
    serverNameOf member.1 = some serverName := by
  obtain ⟨found,hfound,hof⟩ := mem_filterMap.mp hin
  obtain ⟨stateKey,membership,hkey,hlookup,hserver⟩ := exists_member h he hfound
  simp only [memberOf,hkey,hlookup,Option.some.injEq] at hof
  subst hof
  exact of_decide_eq_true hserver

end

theorem toStrings_eq (members : List (String × String)) :
    toStrings (members.map fun member => (member.1,.str member.2)) = .ok members := by
  rw [toStrings,mapM_map]
  exact (mapM_eq_ok (g := id) fun member _ => rfl).trans (by rw [map_id])

theorem seesByMembership_eq_ok {historyVis : String} {shown : Bool} {members : List (String × String)}
    (hserver : ∀ member ∈ members, serverNameOf member.1 = some serverName) :
    seesByMembership serverName historyVis members = .ok shown ↔ keysReadable historyVis members ∧
        shown = members.any fun member => letsSee historyVis member.2 := by
  induction members with
  | nil => simp [seesByMembership,keysReadable]
  | cons member members ih =>
    obtain ⟨stateKey,membership⟩ := member
    have hkey : serverNameOf stateKey = some serverName := hserver _ mem_cons_self
    have hrest := ih fun other hin => hserver other (mem_cons_of_mem _ hin)
    rw [seesByMembership,hkey,keysReadable,any_cons]
    by_cases hsigil : stateKey.toList.head? = some '@'
    · cases hsees : letsSee historyVis membership with
      | true => simp [hsigil]
      | false => simpa [hsigil] using hrest
    · simp [hsigil]

def sentString (storage : ServerStorage) (event : ClientEvent) : String :=
  match storage.sentVisibility event with
  | .str vis => vis
  | _ => ""

theorem sentString_eq (h : storage.sentVisibility event = .str vis) : storage.sentString event = vis := by
  rw [sentString,h]

theorem isMembersOnly_sent (h : storage.sentVisibility event = .str vis) :
    isMembersOnly vis = isMembersOnly (storage.effectiveVisibility event) ∧
      (isMembersOnly vis → storage.effectiveVisibility event = vis) := by
  rw [effectiveVisibility_eq,h,oneOf]
  split
  · exact ⟨rfl,fun _ => rfl⟩
  · rename_i hinvalid
    have hopen : isMembersOnly vis = false := by
      simp only [visibilityPriority,mem_cons,not_or] at hinvalid
      simp [isMembersOnly,hinvalid]
    rw [hopen]
    exact ⟨by decide,fun hfalse => by cases hfalse⟩

def readMembers (storage : ServerStorage) (serverName : String) (event : ClientEvent) :
    List (String × String) :=
  if isRestricted (storage.sentString event) then storage.membersAt serverName event else []

theorem eventToMemberships_eq (h : storage.HasState events) (serverName : String) :
    storage.eventToMemberships serverName (events.map fun event => (event,storage.sentString event)) =
      .ok (events.map fun event =>
        (storage.readMembers serverName event).map fun member => (member.1,.str member.2)) := by
  have hids : ∀ event ∈ events, (if isRestricted (storage.sentString event) then
      storage.stateIds (.fromTypes [("m.room.member",none)]) event else pure ∅) =
        Except.ok (if isRestricted (storage.sentString event) then storage.memberIds event
          else ∅) := by
    intro event he
    split
    · rename_i hrestricted
      refine stateIds_eq h he ?_ _
      -- The visibility at an outlier is `shared`.
      cases hout : event.outlier with
      | false => rfl
      | true =>
        have hshared : storage.sentString event = "shared" := by
          simp [sentString,sentVisibility,stateAt,hout]
        rw [hshared] at hrestricted
        exact absurd hrestricted (by decide)
    · rfl
  rw [eventToMemberships,mapM_map]
  refine bind_eq_ok.mpr ⟨_,mapM_eq_ok hids,?_⟩
  rw [mapM_map]
  apply mapM_eq_ok
  intro event he
  unfold readMembers
  simp only [Function.comp_apply]
  split
  · exact memberEvents_eq h he serverName
  · rfl

def decision (storage : ServerStorage) (request : ServerRequest) (event : ClientEvent) : Except Error Bool :=
  eventVisibleToServer request.targetServerName (storage.sentString event)
    (storage.erasedSender request event) (storage.isInvisible request event)
    ((storage.readMembers request.targetServerName event).map fun member => (member.1,.str member.2))

theorem decision_eq_ok (h : storage.HasState events) (he : event ∈ events)
    (hvis : storage.sentVisibility event = .str vis) {shown : Bool} :
    storage.decision request event = .ok shown ↔
      (storage.erasedSender request event = false → storage.isInvisible request event = false →
        isMembersOnly (storage.effectiveVisibility event) → keysReadable (storage.effectiveVisibility event)
            (storage.membersAt request.targetServerName event)) ∧
      shown = storage.isShown request event := by
  obtain ⟨honly,heffective⟩ := isMembersOnly_sent hvis
  rw [decision,eventVisibleToServer,toStrings_eq,sentString_eq hvis,isShown]
  cases storage.erasedSender request event with
  | true => simp
  | false =>
    cases storage.isInvisible request event with
    | true => simp
    | false =>
      cases hcase : isMembersOnly vis with
      | false =>
        have hopen : vis ≠ "invited" ∧ vis ≠ "joined" := by
          simpa [isMembersOnly] using hcase
        rw [← honly,hcase]
        simp [hopen]
      | true =>
        have hnot : ¬(vis ≠ "invited" ∧ vis ≠ "joined") := by
          intro hopen
          simp [isMembersOnly,hopen] at hcase
        have hrestricted : isRestricted vis := by
          rcases of_decide_eq_true hcase with rfl | rfl
          · decide
          · decide
        have hloop := @seesByMembership_eq_ok request.targetServerName vis shown _
          fun member hin => isOfServer_of_mem_membersAt h he hin
        rw [← honly,hcase,heffective hcase,readMembers,sentString_eq hvis,if_pos hrestricted]
        simpa [hnot] using hloop

theorem filterEventsForServer_eq (h : storage.HasState events)
    (hsender : ∀ event ∈ events, request.filterOutRemotePartialStateEvents →
      ∃ domain, serverNameOf event.sender = some domain)
    (hvis : ∀ event ∈ events, ∃ vis, storage.sentVisibility event = .str vis) :
    storage.filterEventsForServer request events = (do
      let visible ← events.mapM (storage.decision request)
      pure ((events.zip visible).filterMap fun entry =>
        storage.shownForm request entry.1 entry.2)) := by
  have hinvisible : events.mapM (storage.partialStateInvisible request) =
      .ok (events.map (storage.isInvisible request)) :=
    mapM_eq_ok fun event he => partialStateInvisible_eq (hsender event he)
  have hhistory : storage.eventToHistoryVis events = .ok (events.map storage.sentString) := by
    rw [eventToHistoryVis_eq h]
    apply mapM_eq_ok
    intro event he
    obtain ⟨vis,hsent⟩ := hvis event he
    rw [sentString_eq hsent,hsent]
    rfl
  rw [filterEventsForServer,hinvisible,ok_bind,hhistory,ok_bind,← map_prod_left_eq_zip,
    eventToMemberships_eq h,ok_bind,zip_map',zip_map',← map_prod_left_eq_zip,
    mapM_map]
  rfl

/-- The filter returns what should be shown exactly when it can read the state at each event. -/
theorem filterEventsForServer_returns_iff (h : storage.HasState events) :
    storage.filterEventsForServer request events = .ok (storage.shownEvents request events) ↔
      ∀ event ∈ events, storage.IsReadable request event := by
  constructor
  · intro hok
    have hsender : ∀ event ∈ events, request.filterOutRemotePartialStateEvents = true →
        ∃ domain, serverNameOf event.sender = some domain := by
      intro event he hflag
      obtain ⟨_,hinvisible,-⟩ := bind_eq_ok.mp hok
      obtain ⟨_,hevent⟩ := exists_of_mapM_eq_ok hinvisible he
      exact sender_of_partialStateInvisible hevent hflag
    have hvis : ∀ event ∈ events, ∃ vis, storage.sentVisibility event = .str vis := by
      intro event he
      obtain ⟨_,-,hrest⟩ := bind_eq_ok.mp hok
      obtain ⟨_,hhistory,-⟩ := bind_eq_ok.mp hrest
      rw [eventToHistoryVis_eq h] at hhistory
      obtain ⟨_,hevent⟩ := exists_of_mapM_eq_ok hhistory he
      cases hsent : storage.sentVisibility event with
      | str vis => exact ⟨vis,rfl⟩
      | _ =>
        rw [hsent] at hevent
        cases hevent
    rw [filterEventsForServer_eq h hsender hvis] at hok
    obtain ⟨_,hdecided,-⟩ := bind_eq_ok.mp hok
    intro event he
    obtain ⟨vis,hsent⟩ := hvis event he
    obtain ⟨_,hevent⟩ := exists_of_mapM_eq_ok hdecided he
    exact ⟨hsender event he,⟨vis,hsent⟩,((decision_eq_ok h he hsent).mp hevent).1⟩
  · intro hread
    have hdecided : events.mapM (storage.decision request) = .ok (events.map (storage.isShown request)) := by
      apply mapM_eq_ok
      intro event he
      obtain ⟨vis,hsent⟩ := (hread event he).visibility
      exact (decision_eq_ok h he hsent).mpr ⟨(hread event he).members,rfl⟩
    rw [filterEventsForServer_eq h (fun event he => (hread event he).sender)
      (fun event he => (hread event he).visibility),hdecided,ok_bind,← map_prod_left_eq_zip,
      filterMap_map]
    rfl

def stateEvent (type stateKey : String) (content : Fields) : EventBase :=
  { message.toEventBase with type := type,stateKey := some stateKey,content := content }

def roomStorage (visibility : Json) (memberKey : String) : ServerStorage where
  env := plainEnv
  isErased _ := false
  isPartialStateRoom _ := false
  stateIdsForEvent _ :=
    some ((AList.singleton historyVisKey "$vis").insert ("m.room.member",memberKey) "$member")
  getEvent id :=
    if id = "$vis" then
      some (stateEvent "m.room.history_visibility" "" [("history_visibility",visibility)])
    else if id = "$member" then
      some (stateEvent "m.room.member" memberKey [("membership",.str "join")])
    else none
  pruneEvent e := e

def remoteRequest : ServerRequest where
  targetServerName := "remote"
  localServerName := "s"
  redact := false
  filterOutErasedSenders := true
  filterOutRemotePartialStateEvents := true

theorem roomStorage_hasState (visibility : Json) (memberKey : String) :
    (roomStorage visibility memberKey).HasState [message] where
  known _ _ _ := ⟨_,rfl⟩
  stored := by
    intro event _ stateIds hids key id hlookup
    cases hids
    rcases Entries.insert_cases hlookup with ⟨rfl,rfl⟩ | ⟨-,hlookup⟩
    · exact ⟨by decide,_,rfl,rfl,fun _ => ⟨"join",rfl⟩⟩
    · obtain ⟨rfl,rfl⟩ : key = historyVisKey ∧ id = "$vis" := by
        have hentry := mem_lookup_iff.mp hlookup
        simpa [AList.singleton] using hentry
      exact ⟨by decide,_,rfl,rfl,fun htype => absurd htype (by decide)⟩

theorem joined_server_is_served :
    (roomStorage (.str "joined") "@bob:remote").filterEventsForServer remoteRequest [message] =
      .ok ((roomStorage (.str "joined") "@bob:remote").shownEvents remoteRequest [message]) ∧
    ((roomStorage (.str "joined") "@bob:remote").shownEvents remoteRequest [message]).length = 1 := by
  constructor
  · refine (filterEventsForServer_returns_iff (roomStorage_hasState _ _)).mpr ?_
    intro event he
    obtain rfl := mem_singleton.mp he
    exact ⟨fun _ => ⟨"s",by decide +kernel⟩,⟨"joined",rfl⟩,fun _ _ _ => by decide +kernel⟩
  · decide +kernel

/-- A visibility that is no string, and a member without a sigil, each stop the whole list. -/
theorem odd_state_event_raises :
    (roomStorage (.int 5) "@bob:remote").HasState [message] ∧
    (roomStorage (.int 5) "@bob:remote").effectiveVisibility message = "shared" ∧
    (roomStorage (.int 5) "@bob:remote").filterEventsForServer remoteRequest [message] =
      .error (.raised "AssertionError") ∧
    (roomStorage (.str "joined") "bob:remote").HasState [message] ∧
    (roomStorage (.str "joined") "bob:remote").filterEventsForServer remoteRequest [message] =
      .error (.raised "ValueError") := by
  exact ⟨roomStorage_hasState _ _,rfl,rfl,roomStorage_hasState _ _,rfl⟩

end ServerStorage

end TextrpBriij.Visibility
