import TextrpBriij.StateStore.Meaning

/-! # Histories of the state store

The store under any sequence of the four writers. Beside the tables stands the map that each
group was created with, which no writer reads.
-/
namespace TextrpBriij.StateStore
open State TextrpBriij.Types StateDb List Option Function
open TextrpBriij.Stream (DatabaseEngine)

def overridden (state : String × String → Option String) (delta : StateMap String) :
    String × String → Option String :=
  fun key => (delta.lookup key).or (state key)

structure World where
  db : StateDb
  /-- The map that the group was created with. -/
  created : ℕ → String × String → Option String
  /-- The last ID that the sequence has given. -/
  lastId : ℕ

/-- The calls, with the IDs that the sequence gives to them. Each call is made when the one
before it has returned. -/
inductive Call where
  | storeStateGroup (stateGroup : ℕ) (roomId : String) (prevGroup : Option ℕ)
      (deltaIds currentStateIds : Option (StateMap String))
  | storeStateDeltasForBatched (stateGroups : List ℕ) (roomId : String) (prevGroup : ℕ)
      (events : List BatchedEvent)
  | backgroundDeduplicateState (maxGroup count lastStateGroup : ℕ)
  | purgeUnreferencedStateGroups (stateGroupsToDelete : List ℕ)

def Call.deleted : Call → List ℕ
  | .purgeUnreferencedStateGroups stateGroupsToDelete => stateGroupsToDelete
  | _ => []

def givenState (created : ℕ → String × String → Option String) (prevGroup : Option ℕ)
    (deltaIds currentStateIds : Option (StateMap String)) : String × String → Option String :=
  match prevGroup, deltaIds with
  | some prev, some delta => overridden (created prev) delta
  | _, _ => fun key => currentStateIds.bind (·.lookup key)

def givenStates : (ℕ → String × String → Option String) → ℕ → List BatchedEvent → List ℕ →
    ℕ → String × String → Option String
  | created, _, [], _ => created
  | created, sgBefore, event :: events, stateGroups =>
    match event.stateKey, stateGroups with
    | none, stateGroups => givenStates created sgBefore events stateGroups
    | some _, [] => created
    | some stateKey, sgAfter :: stateGroups =>
      let delta := (∅ : StateMap String).insert (event.type,stateKey) event.eventId
      givenStates (update created sgAfter (overridden (created sgBefore) delta)) sgAfter events stateGroups

namespace World

def empty : World := ⟨⟨[],[],[]⟩,fun _ _ => none,0⟩

/-- A call that raises leaves the tables as they are. -/
def call (engine : DatabaseEngine) (w : World) : Call → World
  | .storeStateGroup stateGroup roomId prevGroup deltaIds currentStateIds =>
    match storeStateGroup engine w.db stateGroup roomId prevGroup deltaIds currentStateIds with
    | .error _ => w
    | .ok db =>
      let state := givenState w.created prevGroup deltaIds currentStateIds
      ⟨db,update w.created stateGroup state,stateGroup⟩
  | .storeStateDeltasForBatched stateGroups roomId prevGroup events =>
    match storeStateDeltasForBatched w.db stateGroups roomId prevGroup events with
    | .error _ => w
    | .ok db => ⟨db,givenStates w.created prevGroup events stateGroups,stateGroups.getLastD w.lastId⟩
  | .backgroundDeduplicateState maxGroup count lastStateGroup =>
    { w with db := backgroundDeduplicateState engine maxGroup count lastStateGroup w.db }
  | .purgeUnreferencedStateGroups stateGroupsToDelete =>
    { w with db := purgeUnreferencedStateGroups engine w.db stateGroupsToDelete }

/-- The sequence gives increasing IDs, one for each state event of a batch. If a group is stored
with a previous group, a delta and the full state, they are consistent. -/
def Consistent (w : World) : Call → Prop
  | .storeStateGroup stateGroup _ prevGroup deltaIds currentStateIds =>
    w.lastId < stateGroup ∧ ∀ prev ∈ prevGroup, ∀ delta ∈ deltaIds, ∀ current ∈ currentStateIds,
      ∀ key, current.lookup key = overridden (w.created prev) delta key
  | .storeStateDeltasForBatched stateGroups _ _ events =>
    (w.lastId :: stateGroups).IsChain (· < ·) ∧ stateGroups.length = events.countP (·.stateKey.isSome)
  | .backgroundDeduplicateState .. => True
  | .purgeUnreferencedStateGroups _ => True

/-- The states of the store after any sequence of calls. -/
inductive Reachable (engine : DatabaseEngine) : World → Prop
  | empty : Reachable engine .empty
  | call {w : World} {c : Call} : Reachable engine w → w.Consistent c → Reachable engine (w.call engine c)

end World

variable {db : StateDb} {created : ℕ → String × String → Option String} {lastId group : ℕ}

structure Faithful (db : StateDb) (created : ℕ → String × String → Option String) (lastId : ℕ) :
    Prop where
  wellFormed : db.WellFormed
  le_lastId : ∀ g ∈ db.groupIds, g ≤ lastId
  stateOf : ∀ g ∈ db.groupIds, ∀ key, db.stateOf g key = created g key

/-- What a writer does to the groups there are: it deletes some, and leaves the others as they are. -/
structure Leaves (deleted : List ℕ) (w w' : World) : Prop where
  faithful : Faithful w'.db w'.created w'.lastId
  lastId_le : w.lastId ≤ w'.lastId
  mem_iff : ∀ g ≤ w.lastId, (g ∈ w'.db.groupIds ↔ g ∈ w.db.groupIds ∧ g ∉ deleted)
  created : ∀ g ≤ w.lastId, w'.created g = w.created g

theorem Leaves.refl {w : World} (h : Faithful w.db w.created w.lastId) : Leaves [] w w :=
  ⟨h,le_rfl,by simp,fun _ _ => rfl⟩

theorem Leaves.trans {w w' w'' : World} (h : Leaves [] w w') (h' : Leaves [] w' w'') : Leaves [] w w'' where
  faithful := h'.faithful
  lastId_le := h.lastId_le.trans h'.lastId_le
  mem_iff g hg := by simpa [h.mem_iff g hg] using h'.mem_iff g (hg.trans h.lastId_le)
  created g hg := (h'.created g (hg.trans h.lastId_le)).trans (h.created g hg)

theorem Faithful.insertGroup (h : Faithful db created lastId) (hid : lastId < group)
    (roomId : String) {prev : Option ℕ} {entries : StateMap String}
    (hprev : ∀ p, prev = some p → p ∈ db.groupIds) {state : String × String → Option String}
    (hstate : ∀ key, (entries.lookup key).or (prev.bind fun p => created p key) = state key) :
    Leaves [] ⟨db,created,lastId⟩
      ⟨db.insertGroup group roomId prev entries,update created group state,group⟩ := by
  obtain ⟨hwf,hids,hle,hold,hnew⟩ := @insertGroup_spec db group prev entries h.wellFormed lastId
    h.le_lastId hid roomId hprev
  refine ⟨⟨hwf,hle,fun g hg key => ?_⟩,hid.le,fun g hg => ?_,fun g hg => ?_⟩
  · dsimp only
    rcases (hids g).mp hg with hg | rfl
    · have hne : g ≠ group := ((h.le_lastId g hg).trans_lt hid).ne
      rw [hold g hg,h.stateOf g hg,update_of_ne hne]
    · rw [hnew,update_self,← hstate]
      cases prev with
      | none => rfl
      | some p => rw [bind_some,bind_some,h.stateOf p (hprev p rfl)]
  · simp [hids,(hg.trans_lt hid).ne]
  · exact update_of_ne (hg.trans_lt hid).ne _ _

theorem Faithful.mono (h : Faithful db created lastId) {lastId' : ℕ} (hle : lastId ≤ lastId') :
    Faithful db created lastId' :=
  ⟨h.wellFormed,fun g hg => (h.le_lastId g hg).trans hle,h.stateOf⟩

theorem le_getLastD {ids : List ℕ} (h : (lastId :: ids).IsChain (· < ·)) : lastId ≤ ids.getLastD lastId := by
  induction ids generalizing lastId with
  | nil => exact le_rfl
  | cons id ids ih =>
    obtain ⟨hlt,hrest⟩ := isChain_cons_cons.mp h
    rw [getLastD_cons]
    exact hlt.le.trans (ih hrest)

theorem Faithful.insertDeltasGroup (h : Faithful db created lastId) (roomId : String) {sgBefore : ℕ}
    (hbefore : sgBefore ∈ db.groupIds) (events : List BatchedEvent) {stateGroups : List ℕ}
    (hids : (lastId :: stateGroups).IsChain (· < ·)) :
    Leaves [] ⟨db,created,lastId⟩ ⟨insertDeltasGroup roomId db sgBefore events stateGroups,
      givenStates created sgBefore events stateGroups,stateGroups.getLastD lastId⟩ := by
  induction events generalizing db created lastId sgBefore stateGroups with
  | nil => exact ⟨h.mono (le_getLastD hids),le_getLastD hids,by simp [StateStore.insertDeltasGroup],
      fun _ _ => rfl⟩
  | cons event events ih =>
    cases hkey : event.stateKey with
    | none =>
      simp only [StateStore.insertDeltasGroup,givenStates,hkey]
      exact ih h hbefore hids
    | some stateKey =>
      cases stateGroups with
      | nil =>
        simp only [StateStore.insertDeltasGroup,givenStates,hkey]
        exact .refl h
      | cons sgAfter stateGroups =>
        obtain ⟨hlt,hrest⟩ := isChain_cons_cons.mp hids
        simp only [StateStore.insertDeltasGroup,givenStates,hkey]
        rw [getLastD_cons]
        have hprev : ∀ p, some sgBefore = some p → p ∈ db.groupIds := by
          rintro p ⟨⟩
          exact hbefore
        refine .trans (h.insertGroup hlt roomId hprev fun key => rfl) (ih ?_ ?_ hrest)
        · exact (h.insertGroup hlt roomId hprev fun key => rfl).faithful
        · simp [groupIds,StateDb.insertGroup]

theorem Faithful.storeStateGroup (h : Faithful db created lastId) (engine : DatabaseEngine)
    (hid : lastId < group) {roomId : String} {prevGroup : Option ℕ}
    {deltaIds currentStateIds : Option (StateMap String)}
    (hsame : ∀ prev ∈ prevGroup, ∀ delta ∈ deltaIds, ∀ current ∈ currentStateIds, ∀ key,
      current.lookup key = overridden (created prev) delta key) {db' : StateDb}
    (hstore : storeStateGroup engine db group roomId prevGroup deltaIds currentStateIds = .ok db') :
    Leaves [] ⟨db,created,lastId⟩
      ⟨db',update created group (givenState created prevGroup deltaIds currentStateIds),group⟩ := by
  have hnone : ∀ p, (none : Option ℕ) = some p → p ∈ db.groupIds := fun p hp => by cases hp
  cases prevGroup with
  | none =>
    cases currentStateIds with
    | none => cases hstore
    | some current =>
      cases hstore
      refine h.insertGroup hid roomId hnone fun key => ?_
      simp [givenState]
  | some prev =>
    cases deltaIds with
    | none => cases hstore
    | some delta =>
      simp only [StateStore.storeStateGroup] at hstore
      split at hstore
      · cases hstore
      rename_i hin
      rw [not_not] at hin
      split at hstore
      · -- the chain is too long, and the state is stored in full
        cases hstore
        refine h.insertGroup hid roomId hnone fun key => ?_
        rw [bind_none,or_none]
        cases currentStateIds with
        | some current => exact hsame prev rfl delta rfl current rfl key
        | none =>
          rw [Entries.lookup_union,lookup_readAll h.wellFormed engine hin,h.stateOf prev hin]
          rfl
      · cases hstore
        refine h.insertGroup hid roomId (fun p hp => ?_) fun key => rfl
        cases hp
        exact hin

theorem Faithful.call {engine : DatabaseEngine} {w : World} (h : Faithful w.db w.created w.lastId)
    {c : Call} (hc : w.Consistent c) : Leaves c.deleted w (w.call engine c) := by
  cases c with
  | storeStateGroup stateGroup roomId prevGroup deltaIds currentStateIds =>
    obtain ⟨hid,hsame⟩ := hc
    unfold World.call
    dsimp only
    split
    · exact .refl h
    · rename_i db hstore
      exact h.storeStateGroup engine hid hsame hstore
  | storeStateDeltasForBatched stateGroups roomId prevGroup events =>
    unfold World.call
    dsimp only
    split
    · exact .refl h
    · rename_i db hstore
      unfold StateStore.storeStateDeltasForBatched at hstore
      split at hstore
      · cases hstore
      · rename_i hin
        cases hstore
        exact h.insertDeltasGroup roomId (not_not.mp hin) events hc.1
  | backgroundDeduplicateState maxGroup count lastStateGroup =>
    have hkeeps := backgroundDeduplicateState_keeps h.wellFormed engine maxGroup count lastStateGroup
    refine ⟨⟨hkeeps.wellFormed,fun g hg => ?_,fun g hg key => ?_⟩,le_rfl,fun g _ => ?_,fun _ _ => rfl⟩
    · exact h.le_lastId g (hkeeps.groupIds ▸ hg)
    · exact (hkeeps.stateOf g key).trans (h.stateOf g (hkeeps.groupIds ▸ hg) key)
    · simp [World.call,Call.deleted,hkeeps.groupIds]
  | purgeUnreferencedStateGroups stateGroupsToDelete =>
    have hids := @mem_groupIds_purge w.db engine stateGroupsToDelete
    obtain ⟨hwf,hstates⟩ := purge_spec h.wellFormed engine stateGroupsToDelete
    refine ⟨⟨hwf,fun g hg => ?_,fun g hg key => ?_⟩,le_rfl,fun g _ => hids,fun _ _ => rfl⟩
    · exact h.le_lastId g (hids.mp hg).1
    · obtain ⟨hold,hstays⟩ := hids.mp hg
      exact (hstates g hstays key).trans (h.stateOf g hold key)

theorem World.Reachable.faithful {engine : DatabaseEngine} {w : World} (h : w.Reachable engine) :
    Faithful w.db w.created w.lastId := by
  induction h with
  | empty => exact ⟨⟨nofun,nofun,.nil,nofun,.nil⟩,nofun,nofun⟩
  | call _ hc ih => exact (ih.call hc).faithful

/-- After any sequence of calls, each group that is still there reads as the map it was created
with, each edge goes to an existing group with a smaller ID, and both engines read the same part
of the map for each filter. -/
theorem state_group_keeps_its_meaning {engine : DatabaseEngine} {w : World} (h : w.Reachable engine) :
    (∀ g ∈ w.db.groupIds, ∀ key,
      (getStateGroupsFromGroups engine w.db .all g).lookup key = w.created g key) ∧
    (∀ edge ∈ w.db.stateGroupEdges,
      edge.1 ∈ w.db.groupIds ∧ edge.2 ∈ w.db.groupIds ∧ edge.2 < edge.1) ∧
    ∀ f : StateFilter, f.nonEmpty = true → ∀ g ∈ w.db.groupIds, ∀ key,
      (getStateGroupsFromGroups .postgres w.db f g).lookup key =
        (if f.contains key then w.created g key else none) ∧
      (getStateGroupsFromGroups .sqlite w.db f g).lookup key =
        (if f.contains key then w.created g key else none) := by
  have hfaithful := h.faithful
  have hread : ∀ (engine : DatabaseEngine) (f : StateFilter), ∀ g ∈ w.db.groupIds, ∀ key,
      (getStateGroupsFromGroups engine w.db f g).lookup key =
        if f.contains key then w.created g key else none := by
    intro engine f g hg key
    have hpos := hfaithful.wellFormed.positive g hg
    rw [lookup_getStateGroupsFromGroups hfaithful.wellFormed engine hpos,hfaithful.stateOf g hg]
  refine ⟨fun g hg key => ?_,hfaithful.wellFormed.edges,fun f _ g hg key => ?_⟩
  · rw [hread engine .all g hg,StateFilter.contains_all,if_pos rfl]
  · exact ⟨hread .postgres f g hg key,hread .sqlite f g hg key⟩

def topicAndName : List Call :=
  [.storeStateGroup 1 "!r" none none (some ((∅ : StateMap String).insert ("m.room.topic","") "$t")),
    .storeStateGroup 2 "!r" (some 1) (some ((∅ : StateMap String).insert ("m.room.name","") "$n")) none,
    .purgeUnreferencedStateGroups [1]]

theorem topic_survives_removal :
    let w := topicAndName.foldl (World.call .sqlite) .empty
    w.db.groupIds = [2] ∧ (getStateGroupsFromGroups .sqlite w.db .all 2).lookup ("m.room.topic","") =
      some "$t" := by
  have hreachable : (topicAndName.foldl (World.call .sqlite) .empty).Reachable .sqlite := by
    rw [topicAndName,foldl_cons,foldl_cons,foldl_cons,foldl_nil]
    refine .call (.call (.call .empty ?_) ?_) ?_
    · refine ⟨by decide,fun prev hprev => ?_⟩
      cases hprev
    · refine ⟨by decide +kernel,fun prev _ delta _ current hcurrent => ?_⟩
      cases hcurrent
    · trivial
  refine ⟨by decide +kernel,?_⟩
  rw [(state_group_keeps_its_meaning hreachable).1 2 (by decide +kernel)]
  decide +kernel

end TextrpBriij.StateStore
