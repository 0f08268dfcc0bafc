import TextrpBriij.EventAuth.Membership
import TextrpBriij.Persist.CurrentState
import TextrpBriij.Persist.ExtremityRuns

/-! # The current state follows the extremities

The current state of a room should be the resolution of the states after its forward
extremities. A batch keeps this, with one exception: a chain of messages that starts at a
soft-failed event takes over the state before that event.
-/
namespace TextrpBriij.Persist
open List
open AuthChain (Dict)
open Api Fallible State

/-- A room state as the function that it is looked up as. -/
abbrev RoomState := String × String → Option String

def asState (state : StateMap String) : RoomState := fun key => state.lookup key

variable {stateAfter : String → RoomState} {resolution : Set RoomState → RoomState}
variable {server : Server} {store : RoomStore} {batch : List EventPersistencePair}

def statesAfter (stateAfter : String → RoomState) (eventIds : List String) : Set RoomState :=
  {s | ∃ id ∈ eventIds, stateAfter id = s}

/-- The state groups stand for the states after the events, and the handler resolves states. -/
structure Stands (stateAfter : String → RoomState) (resolution : Set RoomState → RoomState)
    (server : Server) (store : RoomStore) (batch : List EventPersistencePair) : Prop where
  stored : ∀ id group, store.stateGroups id = some group → asState (store.stateForGroup group) = stateAfter id
  inBatch : ∀ p ∈ batch, p.isRejected = false → ∀ group, p.context.stateGroup = some group →
    asState (store.stateForGroup group) = stateAfter p.eventId
  onePrev : ∀ p ∈ batch, p.event.stateKey = none → ∀ prev, p.prevEventIds = [prev] →
    stateAfter p.eventId = stateAfter prev
  deltas : ∀ p ∈ batch, ∀ old new delta, p.context.stateGroupDeltas.lookup (old,new) = some delta →
    asState (store.stateForGroup new) = asState (Entries.update (store.stateForGroup old) [] delta)
  single : ∀ s, resolution {s} = s
  resolved : ∀ version groups events, asState (server.resolveStateGroups version groups events).state =
      resolution {s | ∃ row ∈ groups, asState row.2 = s}
  resolvedGroup : ∀ version groups events group,
    (server.resolveStateGroups version groups events).stateGroup = some group →
    ∀ state, (group,state) ∈ groups →
      asState (server.resolveStateGroups version groups events).state = asState state

/-- The delta leads from the current state to the resolution of the states after the
extremities that are returned with it. -/
def Follows (stateAfter : String → RoomState) (resolution : Set RoomState → RoomState)
    (store : RoomStore) (extremities : Option (List String)) (delta : Option DeltaState) : Prop :=
  asState (match delta with
    | some delta => delta.apply store.currentState
    | none => store.currentState) =
    resolution (statesAfter stateAfter (extremities.getD store.latestEventIds))

theorem stateGroupDeltas_spec {deltas : Dict (ℕ × ℕ) (StateMap String)}
    (h : stateGroupDeltas batch = .ok deltas) :
    (∀ p ∈ batch, p.isRejected = false) ∧ ∀ key delta, deltas.lookup key = some delta →
      ∃ p ∈ batch, p.context.stateGroupDeltas.lookup key = some delta := by
  refine foldlM_preserves (fun (pre : List EventPersistencePair) deltas =>
    (∀ p ∈ pre, p.isRejected = false) ∧ ∀ key delta, deltas.lookup key = some delta →
      ∃ p ∈ pre, p.context.stateGroupDeltas.lookup key = some delta) h (by simp) ?_
  intro pre p deltas deltas' ⟨hpre,hdeltas⟩ hstep
  obtain ⟨group,hgroup,hstep⟩ := bind_eq_ok.mp hstep
  have hfalse : p.isRejected = false := by
    by_contra htrue
    rw [Bool.not_eq_false] at htrue
    simp [EventPersistencePair.stateGroup,htrue] at hgroup
  refine ⟨forall_mem_append.mpr ⟨hpre,forall_mem_singleton.mpr hfalse⟩,fun key delta hlookup => ?_⟩
  have hbefore : deltas.lookup key = some delta →
      ∃ q ∈ pre ++ [p], q.context.stateGroupDeltas.lookup key = some delta := by
    intro hlookup
    obtain ⟨q,hq,heq⟩ := hdeltas key delta hlookup
    exact ⟨q,mem_append_left _ hq,heq⟩
  cases group with
  | none =>
    cases houtlier : p.isOutlier with
    | false => simp [houtlier] at hstep
    | true =>
      simp only [houtlier,if_true,pure_eq,Except.ok.injEq] at hstep
      exact hbefore (hstep ▸ hlookup)
  | some group =>
    simp only [pure_eq,Except.ok.injEq] at hstep
    rw [← hstep,Entries.lookup_union] at hlookup
    cases hp : p.context.stateGroupDeltas.lookup key with
    | some delta' =>
      rw [hp,Option.some_or] at hlookup
      exact ⟨p,by simp,by rw [hp,hlookup]⟩
    | none =>
      rw [hp] at hlookup
      exact hbefore hlookup

variable {old ids new extremities : List String}

section
variable (h : Stands stateAfter resolution server store batch) (hbatch : ∀ p ∈ batch, p.isRejected = false)
include h hbatch

theorem Stands.stateGroupOf {id : String} {group : ℕ} (hgroup : stateGroupOf store batch old id = .ok group) :
    asState (store.stateForGroup group) = stateAfter id := by
  unfold Persist.stateGroupOf at hgroup
  dsimp only at hgroup
  split at hgroup
  · rename_i found hfound
    obtain rfl := Except.ok.inj hgroup
    rcases Option.or_eq_some_iff.mp hfound with hcontext | ⟨-,hdb⟩
    · split at hcontext
      · cases hcontext
      · obtain ⟨p,hp,heq⟩ := exists_of_findSome?_eq_some hcontext
        split at heq
        · rename_i hid
          rw [← hid]
          exact h.inBatch p hp (hbatch p hp) found heq
        · cases heq
    · exact h.stored id found hdb
  · cases hgroup

theorem Stands.statesOfGroups {groups : List ℕ}
    (hgroups : ids.mapM (Persist.stateGroupOf store batch old) = .ok groups) :
    {s | ∃ group ∈ groups.dedup, asState (store.stateForGroup group) = s} = statesAfter stateAfter ids := by
  ext s
  constructor
  · rintro ⟨group,hgroup,rfl⟩
    obtain ⟨id,hid,hok⟩ := (mem_of_mapM_eq_ok hgroups).mp (mem_dedup.mp hgroup)
    exact ⟨id,hid,(h.stateGroupOf hbatch hok).symm⟩
  · rintro ⟨id,hid,rfl⟩
    obtain ⟨group,hok⟩ := exists_of_mapM_eq_ok hgroups hid
    have hgroup := (mem_of_mapM_eq_ok hgroups).mpr ⟨id,hid,hok⟩
    exact ⟨group,mem_dedup.mpr hgroup,h.stateGroupOf hbatch hok⟩

end

theorem pruneExtremities_spec {group : ℕ} {groupOf : String → Except Error ℕ}
    (h : pruneExtremities server store new group groupOf batch = .ok extremities) :
    extremities = new ∨ ∀ id, id ∈ extremities ↔ id ∈ new ∧ groupOf id = .ok group := by
  obtain ⟨groups,hgroups,h⟩ := bind_eq_ok.mp h
  have hmem : ∀ id, id ∈ (groups.filter fun row => row.2 = group).map (·.1) ↔
      id ∈ new ∧ groupOf id = .ok group := by
    intro id
    have hrow : (id,group) ∈ groups ↔ id ∈ new ∧ groupOf id = .ok group := by
      rw [mem_of_mapM_eq_ok hgroups]
      constructor
      · rintro ⟨e,he,hok⟩
        obtain ⟨g,hg,heq⟩ := bind_eq_ok.mp hok
        cases heq
        exact ⟨he,hg⟩
      · rintro ⟨hid,hok⟩
        exact ⟨id,hid,bind_eq_ok.mpr ⟨group,hok,rfl⟩⟩
    rw [← hrow,mem_map]
    constructor
    · rintro ⟨row,hfilter,rfl⟩
      obtain ⟨hin,heq⟩ := mem_filter.mp hfilter
      rw [decide_eq_true_eq] at heq
      exact heq ▸ hin
    · exact fun hin => ⟨(id,group),mem_filter.mpr ⟨hin,by simp⟩,rfl⟩
  dsimp only at h
  split at h
  · exact .inl (Except.ok.inj h).symm
  · obtain ⟨newSenders,-,h⟩ := bind_eq_ok.mp h
    split at h
    · cases h
    · obtain ⟨drop,-,h⟩ := bind_eq_ok.mp h
      have hextremities := Except.ok.inj h
      cases drop with
      | true => exact .inr (hextremities ▸ hmem)
      | false => exact .inl hextremities.symm

theorem states_singleton (group : ℕ) : {s | ∃ g ∈ [group], asState (store.stateForGroup g) = s} =
      {asState (store.stateForGroup group)} := by
  ext s
  simp [eq_comm]

theorem Stands.statesAfter_pruned (h : Stands stateAfter resolution server store batch)
    (hbatch : ∀ p ∈ batch, p.isRejected = false) {kept : List String} {groups : List ℕ}
    (hgroups : new.mapM (Persist.stateGroupOf store batch old) = .ok groups) {group : ℕ}
    (hgroup : group ∈ groups.dedup)
    (hkept : ∀ id, id ∈ kept ↔ id ∈ new ∧ Persist.stateGroupOf store batch old id = .ok group) :
    statesAfter stateAfter kept = {asState (store.stateForGroup group)} := by
  ext s
  constructor
  · rintro ⟨id,hid,rfl⟩
    exact (h.stateGroupOf hbatch ((hkept id).mp hid).2).symm
  · rintro rfl
    obtain ⟨id,hid,hok⟩ := (mem_of_mapM_eq_ok hgroups).mp (mem_dedup.mp hgroup)
    exact ⟨id,(hkept id).mpr ⟨hid,hok⟩,(h.stateGroupOf hbatch hok).symm⟩

theorem getNewStateAfterEvents_spec (h : Stands stateAfter resolution server store batch)
    {state deltaIds : Option (StateMap String)}
    (hrun : getNewStateAfterEvents server store batch old new = .ok (state,deltaIds,extremities)) :
    (state = none ∧ deltaIds = none ∧ statesAfter stateAfter old = statesAfter stateAfter extremities) ∨
    (∃ before after delta, deltaIds = some delta ∧ statesAfter stateAfter old = {asState before} ∧
      statesAfter stateAfter extremities = {asState after} ∧
      asState after = asState (Entries.update before [] delta)) ∨
    ∃ full, state = some full ∧ deltaIds = none ∧
      asState full = resolution (statesAfter stateAfter extremities) := by
  obtain ⟨deltas,hdeltas,hrun⟩ := bind_eq_ok.mp hrun
  obtain ⟨oldGroups,hold,hrun⟩ := bind_eq_ok.mp hrun
  obtain ⟨newGroups,hnew,hrun⟩ := bind_eq_ok.mp hrun
  obtain ⟨hbatch,hdelta⟩ := stateGroupDeltas_spec hdeltas
  have holdStates := h.statesOfGroups hbatch hold
  have hnewStates := h.statesOfGroups hbatch hnew
  dsimp only at hrun
  split at hrun
  · rename_i hsame
    cases hrun
    refine .inl ⟨rfl,rfl,?_⟩
    rw [← holdStates,← hnewStates]
    ext s
    exact exists_congr fun group => and_congr_left' ⟨fun hin => hsame.1 hin,fun hin => hsame.2 hin⟩
  split at hrun
  · rename_i delta hknown
    cases hrun
    split at hknown
    · rename_i newGroup oldGroup hnewGroup holdGroup
      obtain ⟨p,hp,hlookup⟩ := hdelta _ _ hknown
      refine .inr (.inl ⟨store.stateForGroup oldGroup,store.stateForGroup newGroup,delta,rfl,?_,?_,
        h.deltas p hp oldGroup newGroup delta hlookup⟩)
      · rw [← holdStates,holdGroup,states_singleton]
      · rw [← hnewStates,hnewGroup,states_singleton]
    · cases hknown
  · rename_i newGroup _ hnewGroup
    cases hrun
    refine .inr (.inr ⟨_,rfl,rfl,?_⟩)
    rw [← hnewStates,hnewGroup,states_singleton,h.single]
  · obtain ⟨version,-,hrun⟩ := bind_eq_ok.mp hrun
    obtain ⟨kept,hkept,hrun⟩ := bind_eq_ok.mp hrun
    cases hrun
    refine .inr (.inr ⟨_,rfl,rfl,?_⟩)
    have hall : asState (server.resolveStateGroups version
        (newGroups.dedup.map fun group => (group,store.stateForGroup group))
        (batch.map (·.event))).state = resolution (statesAfter stateAfter new) := by
      rw [h.resolved,← hnewStates]
      ext s
      simp
    unfold extremitiesOfResolved at hkept
    split at hkept
    · rename_i group hgroup
      split at hkept
      · rename_i hin
        rcases pruneExtremities_spec hkept with rfl | hpruned
        · exact hall
        · rw [h.resolvedGroup _ _ _ group hgroup _ (mem_map_of_mem hin.2)]
          rw [h.statesAfter_pruned hbatch hnew hin.2 hpruned,h.single]
      · exact Except.ok.inj hkept ▸ hall
    · exact Except.ok.inj hkept ▸ hall

def SkipsState (store : RoomStore) (batch : List EventPersistencePair) : Prop :=
  let new := calculateNewExtremities store.tables batch store.latestEventIds
  ¬sameSet new store.latestEventIds ∧ store.latestEventIds.dedup.length = 1 ∧
    new.dedup.length = 1 ∧ allSinglePrevNotState batch = true

def chainStart (batch : List EventPersistencePair) : ℕ → String → String
  | 0, eventId => eventId
  | fuel + 1, eventId =>
    match batch.find? fun p => p.eventId = eventId with
    | some p =>
      match p.prevEventIds with
      | [prev] => chainStart batch fuel prev
      | _ => eventId
    | none => eventId

/-- A chain of messages starts at an event with the state of the old extremity. -/
def KeepsState (stateAfter : String → RoomState) (store : RoomStore)
    (batch : List EventPersistencePair) : Prop :=
  SkipsState store batch → ∀ old ∈ store.latestEventIds,
    ∀ new ∈ calculateNewExtremities store.tables batch store.latestEventIds,
      stateAfter (chainStart batch batch.length new) = stateAfter old

variable {extremities : Option (List String)}

theorem calculate_cases {delta : Option DeltaState}
    (h : calculateNewForwardExtremitiesAndStateDelta server store batch = .ok (extremities,delta)) :
    let new := calculateNewExtremities store.tables batch store.latestEventIds
    (sameSet new store.latestEventIds ∧ extremities = none ∧ delta = none) ∨
    (SkipsState store batch ∧ extremities = some new ∧ delta = none) ∨
    ∃ state deltaIds kept, extremities = some kept ∧
      getNewStateAfterEvents server store batch store.latestEventIds new = .ok (state,deltaIds,kept) ∧
      ((state = none ∧ deltaIds = none ∧ delta = none) ∨
        (∃ ids stays, deltaIds = some ids ∧ delta = some ⟨[],ids,stays⟩) ∨
        ∃ full stays, state = some full ∧ deltaIds = none ∧
          delta = some { calculateStateDelta store full with noLongerInRoom := stays }) := by
  intro new
  unfold calculateNewForwardExtremitiesAndStateDelta at h
  dsimp only at h
  split at h
  · rename_i hsame
    cases h
    exact .inl ⟨hsame,rfl,rfl⟩
  rename_i hsame
  split at h
  · cases h
  split at h
  · rename_i hskip
    cases h
    exact .inr (.inl ⟨⟨hsame,hskip⟩,rfl,rfl⟩)
  obtain ⟨⟨state,deltaIds,kept⟩,hrun,h⟩ := bind_eq_ok.mp h
  split at h
  · cases h
  refine .inr (.inr ⟨state,deltaIds,kept,?_⟩)
  cases deltaIds with
  | some ids =>
    obtain ⟨joined,-,h⟩ := bind_eq_ok.mp h
    cases h
    exact ⟨rfl,hrun,.inr (.inl ⟨ids,!joined,rfl,rfl⟩)⟩
  | none =>
    cases state with
    | none =>
      cases h
      exact ⟨rfl,hrun,.inl ⟨rfl,rfl,rfl⟩⟩
    | some full =>
      obtain ⟨joined,-,h⟩ := bind_eq_ok.mp h
      cases h
      exact ⟨rfl,hrun,.inr (.inr ⟨full,!joined,rfl,rfl,rfl⟩)⟩

/-- Where the states are looked at, a rejected event in the batch makes the call raise. -/
theorem not_rejected_of_returned {delta : Option DeltaState}
    (h : calculateNewForwardExtremitiesAndStateDelta server store batch = .ok (extremities,delta))
    (hchange : ¬sameSet (calculateNewExtremities store.tables batch store.latestEventIds)
      store.latestEventIds) (hskip : ¬SkipsState store batch) :
    ∀ p ∈ batch, p.isRejected = false := by
  rcases calculate_cases h with ⟨hsame,-⟩ | ⟨hskips,-⟩ | ⟨state,deltaIds,kept,-,hrun,-⟩
  · exact absurd hsame hchange
  · exact absurd hskips hskip
  · obtain ⟨deltas,hdeltas,-⟩ := bind_eq_ok.mp hrun
    exact (stateGroupDeltas_spec hdeltas).1

theorem calculate_of_skipsState (h : SkipsState store batch) :
    calculateNewForwardExtremitiesAndStateDelta server store batch =
      .ok (some (calculateNewExtremities store.tables batch store.latestEventIds),none) := by
  obtain ⟨hsame,hskip⟩ := h
  have hne : calculateNewExtremities store.tables batch store.latestEventIds ≠ [] := by
    intro hnil
    rw [hnil] at hskip
    simp at hskip
  unfold calculateNewForwardExtremitiesAndStateDelta
  rw [if_neg hsame,if_neg hne,if_pos hskip]
  rfl

theorem Stands.stateAfter_chainStart (h : Stands stateAfter resolution server store batch)
    (hall : allSinglePrevNotState batch = true) (fuel : ℕ) (id : String) :
    stateAfter (chainStart batch fuel id) = stateAfter id := by
  induction fuel generalizing id with
  | zero => rfl
  | succ fuel ih =>
    rw [chainStart]
    split
    · rename_i p hfind
      have hp := mem_of_find?_eq_some hfind
      have hid : p.eventId = id := by simpa using find?_some hfind
      split
      · rename_i prev hprev
        have hmessage := all_eq_true.mp hall p hp
        simp only [Bool.and_eq_true,Option.isNone_iff_eq_none] at hmessage
        rw [ih prev,← hid,h.onePrev p hp hmessage.2 prev hprev]
      · rfl
    · rfl

theorem statesAfter_single (hlength : ids.dedup.length = 1) {id : String}
    (hid : id ∈ ids) : statesAfter stateAfter ids = {stateAfter id} := by
  obtain ⟨only,honly⟩ := length_eq_one_iff.mp hlength
  have hmem : ∀ other, other ∈ ids ↔ other = only := by
    intro other
    rw [← mem_dedup,honly,mem_singleton]
  obtain rfl := (hmem id).mp hid
  ext s
  simp [statesAfter,hmem]

theorem asState_calculateStateDelta (full : StateMap String) (stays : Bool) :
    asState ({ calculateStateDelta store full with noLongerInRoom := stays }.apply
      store.currentState) = asState full := by
  funext key
  refine Entries.lookup_update_difference ?_ ?_ key
  · intro key
    simp only [calculateStateDelta,mem_filter,decide_eq_true_eq]
    rfl
  · intro key v
    simp [calculateStateDelta,Entries.lookup_restrict]

theorem asState_apply_congr {current before delta : StateMap String} {stays : Bool}
    (h : asState current = asState before) : asState (DeltaState.apply ⟨[],delta,stays⟩ current) =
      asState (Entries.update before [] delta) := by
  funext key
  have hkey : current.lookup key = before.lookup key := congrFun h key
  simp [asState,DeltaState.apply,Entries.lookup_update,hkey]

/-- Whenever the batch returns a delta, the current state follows the extremities, if and only
if the batch is not taken for a chain of messages that starts at another state. -/
theorem current_state_follows_iff (h : Stands stateAfter resolution server store batch)
    (hcurrent : asState store.currentState =
      resolution (statesAfter stateAfter store.latestEventIds)) :
    (∀ extremities delta,
      calculateNewForwardExtremitiesAndStateDelta server store batch = .ok (extremities,delta) →
        Follows stateAfter resolution store extremities delta) ↔
      KeepsState stateAfter store batch := by
  constructor
  · intro hfollows hskip old hold new hnew
    have hstate := hfollows _ _ (calculate_of_skipsState hskip)
    obtain ⟨-,hlength,hlength',hall⟩ := hskip
    simp only [Follows,Option.getD_some] at hstate
    rw [hcurrent,statesAfter_single hlength hold,statesAfter_single hlength' hnew,h.single, h.single] at hstate
    rw [h.stateAfter_chainStart hall,hstate]
  · intro hkeeps extremities delta hrun
    rcases calculate_cases hrun with ⟨hsame,rfl,rfl⟩ | ⟨hskip,rfl,rfl⟩ | ⟨state,deltaIds,kept,rfl,hstate,hdelta⟩
    · exact hcurrent
    · have hsingle := hskip
      obtain ⟨-,hlength,hlength',hall⟩ := hsingle
      obtain ⟨old,hold⟩ := exists_mem_of_length_pos (show 0 < store.latestEventIds.dedup.length by omega)
      obtain ⟨new,hnew⟩ := exists_mem_of_length_pos (show 0 < (calculateNewExtremities
        store.tables batch store.latestEventIds).dedup.length by omega)
      rw [mem_dedup] at hold hnew
      have heq := hkeeps hskip old hold new hnew
      rw [h.stateAfter_chainStart hall] at heq
      simp only [Follows,Option.getD_some]
      rw [hcurrent,statesAfter_single hlength hold,statesAfter_single hlength' hnew,heq]
    · simp only [Follows,Option.getD_some]
      rcases getNewStateAfterEvents_spec h hstate with ⟨rfl,rfl,hsame⟩ |
        ⟨before,after,ids,rfl,hbefore,hafter,hupdate⟩ | ⟨full,rfl,rfl,hfull⟩
      · rcases hdelta with ⟨-,-,rfl⟩ | ⟨ids,stays,hids,-⟩ | ⟨full,stays,hfull,-⟩
        · rw [hcurrent,hsame]
        · cases hids
        · cases hfull
      · rcases hdelta with ⟨-,hids,-⟩ | ⟨ids',stays,hids,rfl⟩ | ⟨full,stays,-,hids,-⟩
        · cases hids
        · cases hids
          rw [hbefore,h.single] at hcurrent
          rw [hafter,h.single,hupdate]
          exact asState_apply_congr hcurrent
        · cases hids
      · rcases hdelta with ⟨hnone,-⟩ | ⟨ids,stays,hids,-⟩ | ⟨full',stays,heq,-,rfl⟩
        · cases hnone
        · cases hids
        · cases heq
          rw [← hfull]
          exact asState_calculateStateDelta full stays

/-! ## A topic on two servers

With the states merged to what they agree on, the topic is taken over when it is accepted, and
is lost when it was soft-failed and a message follows it.
-/

def agreed : List (ℕ × StateMap String) → StateMap String
  | [] => ∅
  | first :: rest => Entries.restrict first.2 fun key eventId =>
    rest.all fun row => row.2.lookup key = some eventId

open Classical in
noncomputable def unconflicted (states : Set RoomState) : RoomState := fun key =>
  if h : ∃ eventId, states.Nonempty ∧ ∀ s ∈ states, s key = some eventId then some h.choose else none

theorem unconflicted_eq_some {states : Set RoomState} {key : String × String} {eventId : String} :
    unconflicted states key = some eventId ↔ states.Nonempty ∧ ∀ s ∈ states, s key = some eventId := by
  unfold unconflicted
  split
  · rename_i h
    rw [Option.some.injEq]
    constructor
    · intro heq
      exact heq ▸ h.choose_spec
    · rintro ⟨⟨s,hs⟩,hall⟩
      exact Option.some.inj ((h.choose_spec.2 s hs).symm.trans (hall s hs))
  · rename_i h
    simp only [reduceCtorEq,false_iff]
    exact fun hall => h ⟨eventId,hall⟩

theorem unconflicted_single (s : RoomState) : unconflicted {s} = s := by
  funext key
  apply Option.ext
  intro eventId
  rw [unconflicted_eq_some]
  simp

theorem asState_agreed (groups : List (ℕ × StateMap String)) :
    asState (agreed groups) = unconflicted {s | ∃ row ∈ groups, asState row.2 = s} := by
  funext key
  apply Option.ext
  intro eventId
  rw [unconflicted_eq_some]
  cases groups with
  | nil => simp [agreed,asState]
  | cons first rest =>
    have hlookup : asState (agreed (first :: rest)) key = some eventId ↔
        first.2.lookup key = some eventId ∧ ∀ row ∈ rest, row.2.lookup key = some eventId := by
      simp [agreed,asState,Entries.lookup_restrict]
    rw [hlookup]
    constructor
    · rintro ⟨hfirst,hrest⟩
      refine ⟨⟨_,first,mem_cons_self,rfl⟩,?_⟩
      rintro s ⟨row,hrow,rfl⟩
      rcases mem_cons.mp hrow with rfl | hrow
      · exact hfirst
      · exact hrest row hrow
    · rintro ⟨-,hall⟩
      exact ⟨hall _ ⟨first,mem_cons_self,rfl⟩, fun row hrow => hall _ ⟨row,mem_cons_of_mem _ hrow,rfl⟩⟩

def agreeingServer : Server := ⟨EventAuth.plainEnv,"hs",0,fun _ groups _ => ⟨agreed groups,none⟩⟩

def topicState : StateMap String := (∅ : StateMap String).insert ("m.room.topic","") "$topic"

def topic : EventPersistencePair :=
  let event := (message "$topic" ["$a"]).event
  { message "$topic" ["$a"] with
    event := { event with type := "m.room.topic", stateKey := some "" }
    context := ⟨none,some 2,(∅ : Dict (ℕ × ℕ) (StateMap String)).insert (1,2) topicState⟩ }

def reply : EventPersistencePair :=
  { message "$reply" ["$topic"] with context := ⟨none,some 2,∅⟩ }

def topicStore (persisted : List EventPersistencePair) : RoomStore where
  tables := .of persisted
  latestEventIds := ["$a"]
  stateGroups id := if id = "$a" then some 1 else if id = "$topic" then some 2 else none
  stateForGroup group := if group = 2 then topicState else ∅
  currentState := ∅
  roomVersion := "10"
  events := []
  membershipFromEventId _ := none
  isLocalHostInRoomIgnoringUsers _ := true

def topicStateAfter (id : String) : RoomState := if id = "$a" then asState ∅ else asState topicState

theorem topicStore_stands {persisted batch : List EventPersistencePair}
    (hbatch : batch = [topic] ∨ batch = [reply]) :
    Stands topicStateAfter unconflicted agreeingServer (topicStore persisted) batch where
  stored id group hgroup := by
    simp only [topicStore] at hgroup ⊢
    split at hgroup
    · rename_i hid
      cases hgroup
      simp [topicStateAfter,hid]
    · rename_i hid
      split at hgroup
      · cases hgroup
        simp [topicStateAfter,hid]
      · cases hgroup
  inBatch p hp _ group hgroup := by
    rcases hbatch with rfl | rfl <;> obtain rfl := mem_singleton.mp hp <;>
      obtain rfl := Option.some.inj hgroup <;> rfl
  onePrev p hp hstate prev hprev := by
    rcases hbatch with rfl | rfl <;> obtain rfl := mem_singleton.mp hp
    · cases hstate
    · obtain rfl : "$topic" = prev := (cons.inj hprev).1
      rfl
  deltas p hp old new delta hlookup := by
    rcases hbatch with rfl | rfl <;> obtain rfl := mem_singleton.mp hp
    · by_cases hkey : (old,new) = (1,2)
      · cases hkey
        cases hlookup
        rfl
      · have hnone : topic.context.stateGroupDeltas.lookup (old,new) = none :=
          AList.lookup_insert_ne hkey
        rw [hnone] at hlookup
        cases hlookup
    · cases hlookup
  single := unconflicted_single
  resolved _ groups _ := asState_agreed groups
  resolvedGroup _ _ _ _ hgroup := by cases hgroup

theorem topicStore_current (persisted : List EventPersistencePair) :
    asState (topicStore persisted).currentState =
      unconflicted (statesAfter topicStateAfter (topicStore persisted).latestEventIds) := by
  have hstates : statesAfter topicStateAfter (topicStore persisted).latestEventIds =
      {topicStateAfter "$a"} := statesAfter_single rfl mem_cons_self
  rw [hstates,unconflicted_single]
  rfl

/-- The topic is accepted, and the current state takes it over. -/
theorem current_state_follows_topic :
    ∃ delta, calculateNewForwardExtremitiesAndStateDelta agreeingServer
        (topicStore [message "$a" []]) [topic] = .ok (some ["$topic"],some delta) ∧
      delta.toInsert = topicState ∧
      Follows topicStateAfter unconflicted (topicStore [message "$a" []]) (some ["$topic"])
        (some delta) := by
  refine ⟨_,rfl,rfl,?_⟩
  refine (current_state_follows_iff (topicStore_stands (.inl rfl)) (topicStore_current _)).mpr ?_ _ _ rfl
  rintro ⟨-,-,-,hall⟩
  simp [allSinglePrevNotState,topic] at hall

/-- The topic was soft-failed. The message after it has the topic in its state and becomes the
only extremity, but the current state stays without it. -/
theorem reply_after_soft_failed_topic :
    let store := topicStore [message "$a" [],softFailed topic]
    Stands topicStateAfter unconflicted agreeingServer store [reply] ∧ asState store.currentState =
        unconflicted (statesAfter topicStateAfter store.latestEventIds) ∧
      calculateNewForwardExtremitiesAndStateDelta agreeingServer store [reply] = .ok (some ["$reply"],none) ∧
      ¬Follows topicStateAfter unconflicted store (some ["$reply"]) none := by
  intro store
  have hskip : SkipsState store [reply] := by
    unfold SkipsState
    decide
  have hrun := @calculate_of_skipsState agreeingServer store [reply] hskip
  refine ⟨topicStore_stands (.inr rfl),topicStore_current _,hrun,fun hfollows => ?_⟩
  have hstates : statesAfter topicStateAfter ["$reply"] = {topicStateAfter "$reply"} :=
    statesAfter_single rfl mem_cons_self
  simp only [Follows,Option.getD_some] at hfollows
  rw [hstates,unconflicted_single] at hfollows
  have hkey : (none : Option String) = some "$topic" := congrFun hfollows ("m.room.topic","")
  cases hkey

end TextrpBriij.Persist
