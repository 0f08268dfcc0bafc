import TextrpBriij.StateStore.Writers

/-! # State groups keep their meaning

Each write leaves the map of every group as it was, and a new group gets the map that it was
created with.
-/
namespace TextrpBriij.StateStore
open State TextrpBriij.Types DeltaChain StateDb List
open TextrpBriij.Stream (DatabaseEngine)

variable {db db' : StateDb} {group : ℕ} {prev : Option ℕ} {entries : StateMap String}
variable {key : String × String} {v : String}

theorem mem_rows {e : (String × String) × String} :
    (group,e.1,e.2) ∈ entries.entries.map (fun entry => (group,entry.1,entry.2)) ↔
      entries.lookup e.1 = some e.2 := by
  rw [mem_map]
  constructor
  · intro hin
    obtain ⟨entry,hentry,heq⟩ := hin
    obtain ⟨hkey,hv⟩ := Prod.mk.inj (Prod.mk.inj heq).2
    rw [← hkey,← hv]
    exact AList.mem_lookup_iff.mpr hentry
  · intro hlookup
    exact ⟨⟨e.1,e.2⟩,AList.mem_lookup_iff.mp hlookup,rfl⟩

theorem rows_nodup : ((entries.entries.map fun entry => (group,entry.1,entry.2)).map
    fun row : ℕ × (String × String) × String => (row.1,row.2.1)).Nodup := by
  rw [map_map]
  have hkeys : (entries.entries.map fun entry => entry.1).Nodup := entries.keys_nodup
  have hpair : (entries.entries.map fun entry => (group,entry.1)) =
      (entries.entries.map fun entry => entry.1).map fun key => (group,key) := by
    rw [map_map]
    rfl
  change (entries.entries.map fun entry => (group,entry.1)).Nodup
  rw [hpair]
  exact hkeys.map fun a b h => (Prod.mk.inj h).2

def Before (db : StateDb) (group : ℕ) (prev : Option ℕ) : Prop :=
  ∀ p, prev = some p → p ∈ db.groupIds ∧ p < group

section
variable (h : db.WellFormed) (hgroup : group ∈ db.groupIds) (hprev : Before db group prev)
include h hgroup hprev

theorem WellFormed.reencode : (db.reencode group prev entries).WellFormed where
  positive := h.positive
  edges := by
    intro edge hedge
    rcases mem_append.mp hedge with hold | hnew
    · exact h.edges edge (mem_filter.mp hold).1
    · obtain ⟨p,hp,rfl⟩ := mem_map.mp hnew
      obtain ⟨hin,hlt⟩ := hprev p (Option.mem_toList.mp hp)
      exact ⟨hgroup,hin,hlt⟩
  edges_nodup := by
    change (map _ (_ ++ _)).Nodup
    rw [map_append,nodup_append]
    refine ⟨h.edges_nodup.sublist (filter_sublist.map _),?_,?_⟩
    · simp
    · intro a ha b hb
      obtain ⟨edge,hedge,rfl⟩ := mem_map.mp ha
      have hne : edge.1 ≠ group := by simpa using (mem_filter.mp hedge).2
      obtain ⟨edge',hedge',rfl⟩ := mem_map.mp hb
      obtain ⟨p,-,rfl⟩ := mem_map.mp hedge'
      exact hne
  rows := by
    intro row hrow
    rcases mem_append.mp hrow with hold | hnew
    · exact h.rows row (mem_filter.mp hold).1
    · obtain ⟨entry,-,rfl⟩ := mem_map.mp hnew
      exact hgroup
  rows_nodup := by
    change (map _ (_ ++ _)).Nodup
    rw [map_append,nodup_append]
    refine ⟨h.rows_nodup.sublist (filter_sublist.map _),rows_nodup,?_⟩
    intro a ha b hb
    obtain ⟨row,hrow,rfl⟩ := mem_map.mp ha
    have hne : row.1 ≠ group := by simpa using (mem_filter.mp hrow).2
    obtain ⟨row',hrow',rfl⟩ := mem_map.mp hb
    obtain ⟨entry,-,rfl⟩ := mem_map.mp hrow'
    exact fun heq => hne (Prod.mk.inj heq).1

theorem prevGroup_reencode (g : ℕ) : (db.reencode group prev entries).prevGroup g =
      if g = group then prev else db.prevGroup g := by
  apply Option.ext
  intro p
  rw [prevGroup_eq_some (WellFormed.reencode h hgroup hprev)]
  have hnew : (g,p) ∈ prev.toList.map (fun p => (group,p)) ↔ g = group ∧ prev = some p := by
    simp only [mem_map,Option.mem_toList,Prod.mk.injEq]
    constructor
    · intro hin
      obtain ⟨q,hq,hg,rfl⟩ := hin
      exact ⟨hg.symm,hq⟩
    · intro hin
      exact ⟨p,hin.2,hin.1.symm,rfl⟩
  change (g,p) ∈ db.stateGroupEdges.filter _ ++ _ ↔ _
  rw [mem_append,hnew]
  by_cases hg : g = group
  · simp [hg]
  · simp [hg,prevGroup_eq_some h]

theorem ownEntry_reencode (g : ℕ) (key : String × String) : (db.reencode group prev entries).ownEntry g key =
      if g = group then entries.lookup key else db.ownEntry g key := by
  apply Option.ext
  intro v
  rw [ownEntry_eq_some (WellFormed.reencode h hgroup hprev)]
  change (g,key,v) ∈ db.stateGroupsState.filter _ ++ _ ↔ _
  by_cases hg : g = group
  · subst hg
    rw [if_pos rfl,← @mem_rows g entries (key,v)]
    simp
  · have hnot : (g,key,v) ∉ entries.entries.map fun entry => (group,entry.1,entry.2) := by
      intro hin
      obtain ⟨entry,-,heq⟩ := mem_map.mp hin
      exact hg (Prod.mk.inj heq).1.symm
    rw [if_neg hg,ownEntry_eq_some h]
    simp [hg,hnot]

theorem stateOf_reencode (hsame : ∀ key, (entries.lookup key).or (prev.bind fun p => db.stateOf p key) =
      db.stateOf group key) (g : ℕ) (key : String × String) :
    (db.reencode group prev entries).stateOf g key = db.stateOf g key := by
  have hdescends := (@WellFormed.reencode db group prev entries h hgroup hprev).descends
  refine value_reencode h.descends hdescends group ?_ ?_ ?_ g key
  · intro g hg
    rw [prevGroup_reencode h hgroup hprev,if_neg hg]
  · intro g hg key
    rw [ownEntry_reencode h hgroup hprev,if_neg hg]
  · intro key
    rw [prevGroup_reencode h hgroup hprev,ownEntry_reencode h hgroup hprev,if_pos rfl,if_pos rfl]
    exact hsame key

end

def addGroup (db : StateDb) (group : ℕ) (roomId : String) : StateDb :=
  { db with stateGroups := db.stateGroups ++ [(group,roomId)] }

theorem mem_groupIds_addGroup {roomId : String} {g : ℕ} :
    g ∈ (addGroup db group roomId).groupIds ↔ g ∈ db.groupIds ∨ g = group := by
  simp [addGroup,groupIds]

theorem WellFormed.addGroup (h : db.WellFormed) (hpos : 0 < group) (roomId : String) :
    (addGroup db group roomId).WellFormed where
  positive := by
    intro g hg
    rcases mem_groupIds_addGroup.mp hg with hold | rfl
    · exact h.positive g hold
    · exact hpos
  edges := by
    intro edge hedge
    obtain ⟨hfirst,hsecond,hlt⟩ := h.edges edge hedge
    exact ⟨mem_groupIds_addGroup.mpr (.inl hfirst),mem_groupIds_addGroup.mpr (.inl hsecond),hlt⟩
  edges_nodup := h.edges_nodup
  rows := by
    intro row hrow
    exact mem_groupIds_addGroup.mpr (.inl (h.rows row hrow))
  rows_nodup := h.rows_nodup

theorem insertGroup_eq (h : db.WellFormed) (hnew : group ∉ db.groupIds) (roomId : String) :
    db.insertGroup group roomId prev entries = (addGroup db group roomId).reencode group prev entries := by
  have hedges : db.stateGroupEdges.filter (fun edge => edge.1 ≠ group) = db.stateGroupEdges := by
    apply filter_eq_self.mpr
    intro edge hedge
    have hne : edge.1 ≠ group := fun heq => hnew (heq ▸ (h.edges edge hedge).1)
    simpa using hne
  have hrows : db.stateGroupsState.filter (fun row => row.1 ≠ group) = db.stateGroupsState := by
    apply filter_eq_self.mpr
    intro row hrow
    have hne : row.1 ≠ group := fun heq => hnew (heq ▸ h.rows row hrow)
    simpa using hne
  unfold StateDb.insertGroup StateDb.reencode
  simp only [StateStore.addGroup,hedges,hrows]

theorem insertGroup_spec (h : db.WellFormed) {lastId : ℕ} (hle : ∀ g ∈ db.groupIds, g ≤ lastId)
    (hid : lastId < group) (roomId : String) (hprev : ∀ p, prev = some p → p ∈ db.groupIds) :
    (db.insertGroup group roomId prev entries).WellFormed ∧
    (∀ g, g ∈ (db.insertGroup group roomId prev entries).groupIds ↔ g ∈ db.groupIds ∨ g = group) ∧
    (∀ g ∈ (db.insertGroup group roomId prev entries).groupIds, g ≤ group) ∧
    (∀ g ∈ db.groupIds, ∀ key, (db.insertGroup group roomId prev entries).stateOf g key = db.stateOf g key) ∧
    ∀ key, (db.insertGroup group roomId prev entries).stateOf group key =
      (entries.lookup key).or (prev.bind fun p => db.stateOf p key) := by
  have hfresh : ∀ g ∈ db.groupIds, g < group := fun g hg => (hle g hg).trans_lt hid
  have hnew : group ∉ db.groupIds := fun hin => lt_irrefl _ (hfresh group hin)
  have hadd := WellFormed.addGroup h (Nat.zero_lt_of_lt hid) roomId
  have hin : group ∈ (addGroup db group roomId).groupIds := mem_groupIds_addGroup.mpr (.inr rfl)
  have hbefore : Before (addGroup db group roomId) group prev := by
    intro p hp
    have hold := hprev p hp
    exact ⟨mem_groupIds_addGroup.mpr (.inl hold),hfresh p hold⟩
  rw [insertGroup_eq h hnew]
  have hwf := @WellFormed.reencode _ group prev entries hadd hin hbefore
  have hold : ∀ g ∈ db.groupIds, ∀ key,
      ((addGroup db group roomId).reencode group prev entries).stateOf g key = db.stateOf g key := by
    intro g hg key
    refine value_congr h.descends hwf.descends (S := {g | g ∈ db.groupIds}) ?_ ?_ ?_ hg key
    · intro g hg p hp
      exact (h.edges _ ((prevGroup_eq_some h).mp hp)).2.1
    · intro g hg
      have hne : g ≠ group := fun heq => hnew (heq ▸ hg)
      rw [prevGroup_reencode hadd hin hbefore,if_neg hne]
      rfl
    · intro g hg key
      have hne : g ≠ group := fun heq => hnew (heq ▸ hg)
      rw [ownEntry_reencode hadd hin hbefore,if_neg hne]
      rfl
  refine ⟨hwf,fun g => mem_groupIds_addGroup,fun g hg => ?_,hold,fun key => ?_⟩
  · exact (mem_groupIds_addGroup.mp hg).elim (fun hg => (hfresh g hg).le) le_of_eq
  have hvalue : ((addGroup db group roomId).reencode group prev entries).stateOf group key = _ :=
    value_eq hwf.descends group key
  rw [hvalue,prevGroup_reencode hadd hin hbefore,ownEntry_reencode hadd hin hbefore,if_pos rfl, if_pos rfl]
  cases prev with
  | none => rfl
  | some p => exact congrArg _ (hold p (hprev p rfl) key)

variable {groups : List ℕ}

theorem mem_groupIds_removeGroups {g : ℕ} :
    g ∈ (db.removeGroups groups).groupIds ↔ g ∈ db.groupIds ∧ g ∉ groups := by
  simp only [groupIds,removeGroups,mem_map,mem_filter,decide_eq_true_eq]
  constructor
  · intro hin
    obtain ⟨row,⟨hrow,hnot⟩,rfl⟩ := hin
    exact ⟨⟨row,hrow,rfl⟩,hnot⟩
  · intro hin
    obtain ⟨⟨row,hrow,rfl⟩,hnot⟩ := hin
    exact ⟨row,⟨hrow,hnot⟩,rfl⟩

theorem removeGroups_spec (h : db.WellFormed)
    (hfree : ∀ edge ∈ db.stateGroupEdges, edge.2 ∈ groups → edge.1 ∈ groups) :
    (db.removeGroups groups).WellFormed ∧ ∀ g, g ∉ groups → ∀ key,
      (db.removeGroups groups).stateOf g key = db.stateOf g key := by
  have hwf : (db.removeGroups groups).WellFormed := by
    refine ⟨?_,?_,h.edges_nodup.sublist (filter_sublist.map _),?_, h.rows_nodup.sublist (filter_sublist.map _)⟩
    · intro g hg
      exact h.positive g (mem_groupIds_removeGroups.mp hg).1
    · intro edge hedge
      obtain ⟨hin,hnot⟩ := mem_filter.mp hedge
      rw [decide_eq_true_eq] at hnot
      obtain ⟨hfirst,hsecond,hlt⟩ := h.edges edge hin
      refine ⟨mem_groupIds_removeGroups.mpr ⟨hfirst,hnot⟩,?_,hlt⟩
      exact mem_groupIds_removeGroups.mpr ⟨hsecond,fun hin' => hnot (hfree edge hin hin')⟩
    · intro row hrow
      obtain ⟨hin,hnot⟩ := mem_filter.mp hrow
      rw [decide_eq_true_eq] at hnot
      exact mem_groupIds_removeGroups.mpr ⟨h.rows row hin,hnot⟩
  refine ⟨hwf,fun g hg key => ?_⟩
  refine value_congr h.descends hwf.descends (S := {g | g ∉ groups}) ?_ ?_ ?_ hg key
  · intro g hg p hp hin
    exact hg (hfree _ ((prevGroup_eq_some h).mp hp) hin)
  · intro g hg
    apply Option.ext
    intro p
    rw [prevGroup_eq_some hwf,prevGroup_eq_some h]
    change (g,p) ∈ filter _ _ ↔ _
    rw [mem_filter]
    exact and_iff_left (decide_eq_true hg)
  · intro g hg key
    apply Option.ext
    intro v
    rw [ownEntry_eq_some hwf,ownEntry_eq_some h]
    change (g,key,v) ∈ filter _ _ ↔ _
    rw [mem_filter]
    exact and_iff_left (decide_eq_true hg)

structure Keeps (db db' : StateDb) : Prop where
  wellFormed : db'.WellFormed
  groupIds : db'.groupIds = db.groupIds
  stateOf : ∀ g key, db'.stateOf g key = db.stateOf g key

theorem Keeps.refl (h : db.WellFormed) : Keeps db db := ⟨h,rfl,fun _ _ => rfl⟩

theorem Keeps.trans {db'' : StateDb} (h : Keeps db db') (h' : Keeps db' db'') : Keeps db db'' :=
  ⟨h'.wellFormed,h'.groupIds.trans h.groupIds,fun g key => (h'.stateOf g key).trans (h.stateOf g key)⟩

theorem Keeps.reencode (h : db.WellFormed) (hgroup : group ∈ db.groupIds) (hprev : Before db group prev)
    (hsame : ∀ key, (entries.lookup key).or (prev.bind fun p => db.stateOf p key) =
      db.stateOf group key) : Keeps db (db.reencode group prev entries) :=
  ⟨WellFormed.reencode h hgroup hprev,rfl,stateOf_reencode h hgroup hprev hsame⟩

theorem lookup_readAll (h : db.WellFormed) (engine : DatabaseEngine) (hgroup : group ∈ db.groupIds) :
    (getStateGroupsFromGroups engine db .all group).lookup key = db.stateOf group key := by
  rw [lookup_getStateGroupsFromGroups h engine (h.positive group hgroup),StateFilter.contains_all, if_pos rfl]

theorem lastGroupBefore_spec {roomId : String} (hne : lastGroupBefore db group roomId ≠ 0) :
    lastGroupBefore db group roomId ∈ db.groupIds ∧ lastGroupBefore db group roomId < group := by
  unfold lastGroupBefore at hne ⊢
  cases hmax : ((db.stateGroups.filter fun row => row.1 < group ∧ row.2 = roomId).map (·.1)).max? with
  | none =>
    rw [hmax] at hne
    exact absurd rfl hne
  | some p =>
    obtain ⟨row,hrow,heq⟩ := mem_map.mp (max?_mem hmax)
    obtain ⟨hin,hlt⟩ := mem_filter.mp hrow
    rw [decide_eq_true_eq] at hlt
    rw [← heq]
    exact ⟨mem_map_of_mem hin,hlt.1⟩

section
variable (h : db.WellFormed) (engine : DatabaseEngine)
include h engine

theorem deduplicate_keeps (hgroup : group ∈ db.groupIds) (roomId : String) :
    Keeps db (deduplicate engine db group roomId) := by
  unfold deduplicate
  dsimp only
  split
  · exact .refl h
  rename_i hne
  split
  · exact .refl h
  split
  · rename_i hkeys
    obtain ⟨hin,hlt⟩ := lastGroupBefore_spec hne
    generalize lastGroupBefore db group roomId = p at hkeys hin hlt ⊢
    have hprevState := fun key => @lookup_readAll db p key h engine hin
    have hcurrState := fun key => @lookup_readAll db group key h engine hgroup
    refine .reencode h hgroup (fun q hq => ?_) fun key => ?_
    · cases hq
      exact ⟨hin,hlt⟩
    · rw [Entries.lookup_restrict,hcurrState,hprevState]
      cases hcurr : db.stateOf group key with
      | some v =>
        by_cases hsame : db.stateOf p key = some v
        · simp [Option.filter,hsame]
        · simp [hsame]
      | none =>
        have hprev : db.stateOf p key = none := by
          by_contra hsome
          rw [← hprevState] at hsome
          have hmem := hkeys key (AList.lookup_isSome.mp (Option.isSome_iff_ne_none.mpr hsome))
          have := AList.lookup_isSome.mpr hmem
          rw [hcurrState,hcurr] at this
          cases this
        simp [hprev]
  · exact .refl h

theorem backgroundDeduplicateState_keeps (maxGroup count lastStateGroup : ℕ) :
    Keeps db (backgroundDeduplicateState engine maxGroup count lastStateGroup db) := by
  induction count generalizing db lastStateGroup with
  | zero => exact .refl h
  | succ count ih =>
    rw [backgroundDeduplicateState]
    split
    · exact .refl h
    · rename_i group roomId hmin
      split
      · exact .refl h
      split
      · exact .refl h
      · have hin : group ∈ db.groupIds :=
          mem_map_of_mem (mem_filter.mp (argmin_mem hmin)).1
        have hkeeps := deduplicate_keeps h engine hin roomId
        exact hkeeps.trans (ih hkeeps.wellFormed group)

theorem Keeps.full (hgroup : group ∈ db.groupIds) :
    Keeps db (db.reencode group none (getStateGroupsFromGroups engine db .all group)) := by
  refine .reencode h hgroup (fun p hp => by cases hp) fun key => ?_
  rw [lookup_readAll h engine hgroup,Option.bind_none,Option.or_none]

theorem storeInFull_spec (hgroups : ∀ g ∈ groups, g ∈ db.groupIds) :
    let full := groups.foldl (fun db group =>
      db.reencode group none (getStateGroupsFromGroups engine db .all group)) db
    Keeps db full ∧ ∀ edge ∈ full.stateGroupEdges, edge ∈ db.stateGroupEdges ∧ edge.1 ∉ groups := by
  induction groups generalizing db with
  | nil => exact ⟨.refl h,fun edge hedge => ⟨hedge,not_mem_nil⟩⟩
  | cons group groups ih =>
    have hkeeps := Keeps.full h engine (hgroups group mem_cons_self)
    have hrest : ∀ g ∈ groups, g ∈ (db.reencode group none
        (getStateGroupsFromGroups engine db .all group)).groupIds := by
      intro g hg
      exact hgroups g (mem_cons_of_mem _ hg)
    obtain ⟨hfull,hedges⟩ := ih hkeeps.wellFormed hrest
    refine ⟨hkeeps.trans hfull,fun edge hedge => ?_⟩
    obtain ⟨hstep,hnot⟩ := hedges edge hedge
    have hold : edge ∈ db.stateGroupEdges ∧ edge.1 ≠ group := by
      simpa [StateDb.reencode] using hstep
    exact ⟨hold.1,fun hin => (mem_cons.mp hin).elim hold.2 hnot⟩

end

theorem mem_groupIds_purge (engine : DatabaseEngine) {toDelete : List ℕ} {g : ℕ} :
    g ∈ (purgeUnreferencedStateGroups engine db toDelete).groupIds ↔ g ∈ db.groupIds ∧ g ∉ toDelete := by
  unfold purgeUnreferencedStateGroups
  split
  · rename_i hnil
    rw [hnil]
    simp
  · rw [mem_groupIds_removeGroups]
    have hfull : ∀ groups : List ℕ, (groups.foldl (fun db group => db.reencode group none
        (getStateGroupsFromGroups engine db .all group)) db).groupIds = db.groupIds := by
      intro groups
      induction groups generalizing db with
      | nil => rfl
      | cons group groups ih => exact ih
    rw [hfull]

/-- The groups that stay are stored in full where they were stored on a group that goes. -/
theorem purge_spec (h : db.WellFormed) (engine : DatabaseEngine) (toDelete : List ℕ) :
    (purgeUnreferencedStateGroups engine db toDelete).WellFormed ∧ ∀ g, g ∉ toDelete → ∀ key,
      (purgeUnreferencedStateGroups engine db toDelete).stateOf g key = db.stateOf g key := by
  unfold purgeUnreferencedStateGroups
  split
  · rename_i hnil
    subst hnil
    exact ⟨h,fun _ _ _ => rfl⟩
  dsimp only
  generalize hremaining : (((db.stateGroupEdges.filter fun edge => edge.2 ∈ toDelete).map
    (·.1)).filter fun group => group ∉ toDelete).dedup = remaining
  have hmem : ∀ g, g ∈ remaining ↔
      (∃ edge ∈ db.stateGroupEdges, edge.2 ∈ toDelete ∧ edge.1 = g) ∧ g ∉ toDelete := by
    intro g
    rw [← hremaining]
    simp
  have hgroups : ∀ g ∈ remaining, g ∈ db.groupIds := by
    intro g hg
    obtain ⟨⟨edge,hedge,-,rfl⟩,-⟩ := (hmem g).mp hg
    exact (h.edges edge hedge).1
  obtain ⟨hkeeps,hedges⟩ := storeInFull_spec h engine hgroups
  have hfree : ∀ edge ∈ (remaining.foldl (fun db group => db.reencode group none
      (getStateGroupsFromGroups engine db .all group)) db).stateGroupEdges,
      edge.2 ∈ toDelete → edge.1 ∈ toDelete := by
    intro edge hedge hin
    obtain ⟨hold,hnot⟩ := hedges edge hedge
    by_contra hstays
    exact hnot ((hmem edge.1).mpr ⟨⟨edge,hold,hin,rfl⟩,hstays⟩)
  obtain ⟨hwf,hstates⟩ := removeGroups_spec hkeeps.wellFormed hfree
  exact ⟨hwf,fun g hg key => (hstates g hg key).trans (hkeeps.stateOf g key)⟩

end TextrpBriij.StateStore
