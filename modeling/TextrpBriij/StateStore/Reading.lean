import TextrpBriij.Foundation.DeltaChain
import TextrpBriij.Stream.Bounds
import TextrpBriij.Types.StateFilter

/-! # Reading state groups

A state group is stored as the rows in which it differs from the group before it. PostgreSQL
takes the row with the highest group for each key, the loop for SQLite goes from group to group
and takes what it finds first.
-/
namespace TextrpBriij.StateStore
open State TextrpBriij.Types DeltaChain List
open TextrpBriij.Stream (DatabaseEngine)
open StateFilter (conditionsOf meets)

structure StateDb where
  /-- `state_groups`: the ID and the room. -/
  stateGroups : List (ℕ × String)
  stateGroupEdges : List (ℕ × ℕ)
  /-- `state_groups_state`: the group, the type and state key, and the event. -/
  stateGroupsState : List (ℕ × (String × String) × String)

namespace StateDb

def groupIds (db : StateDb) : List ℕ := db.stateGroups.map (·.1)

def prevGroup (db : StateDb) (group : ℕ) : Option ℕ :=
  (db.stateGroupEdges.find? fun edge => edge.1 = group).map (·.2)

def ownEntry (db : StateDb) (group : ℕ) (key : String × String) : Option String :=
  (db.stateGroupsState.find? fun row => row.1 = group ∧ row.2.1 = key).map (·.2.2)

def stateOf (db : StateDb) (group : ℕ) (key : String × String) : Option String :=
  value db.prevGroup db.ownEntry group key

def sgs (db : StateDb) : ℕ → ℕ → List ℕ
  | 0, _ => []
  | fuel + 1, group =>
    group :: (db.stateGroupEdges.filter fun edge => edge.1 = group).flatMap fun edge =>
      sgs db fuel edge.2

/-- `SELECT DISTINCT ON (type, state_key) ... ORDER BY type, state_key, state_group DESC` -/
def distinctOn (rows : List (ℕ × (String × String) × String)) : List ((String × String) × String) :=
  (rows.map (·.2.1)).dedup.filterMap fun key =>
    ((rows.filter fun row => row.2.1 = key).argmax (·.1)).map fun row => (key,row.2.2)

/-- The query for PostgreSQL, with a clause for each condition if there are few of them. An
empty filter would leave no `SELECT` at all, and is not asked for. -/
def readPostgres (db : StateDb) (f : StateFilter) (group : ℕ) : StateMap String :=
  let rows := db.stateGroupsState.filter fun row => row.1 ∈ db.sgs (group + 1) group
  let combos := f.types.entries.flatMap conditionsOf
  let selected :=
    if !f.includeOthers && !f.isFull && decide (combos.length < 10) then
      (combos.flatMap fun combo => distinctOn (rows.filter fun row => combo.holds row.2.1)).dedup
    else distinctOn (rows.filter fun row => meets f.makeSqlFilterClause row.2.1)
  selected.foldl (fun results row => results.insert row.1 row.2) ∅

def addMissing (results : StateMap String) (row : ℕ × (String × String) × String) : StateMap String :=
  if row.2.1 ∈ results then results else results.insert row.2.1 row.2.2

def loopSqlite (db : StateDb) (f : StateFilter) : ℕ → Option ℕ → StateMap String → StateMap String
  | 0, _, results => results
  | _ + 1, none, results => results
  | _ + 1, some 0, results => results
  | fuel + 1, some (group + 1), results =>
    let rows := db.stateGroupsState.filter fun row =>
      decide (row.1 = group + 1) && meets f.makeSqlFilterClause row.2.1
    let results := rows.foldl addMissing results
    if f.maxEntriesReturned = some results.entries.length then results
    else loopSqlite db f fuel (db.prevGroup (group + 1)) results

/-- `_get_state_groups_from_groups_txn` for one group. -/
def getStateGroupsFromGroups (engine : DatabaseEngine) (db : StateDb) (f : StateFilter)
    (group : ℕ) : StateMap String :=
  match engine with
  | .postgres => db.readPostgres f group
  | .sqlite => db.loopSqlite f (group + 1) (some group) ∅

structure WellFormed (db : StateDb) : Prop where
  positive : ∀ group ∈ db.groupIds, 0 < group
  edges : ∀ edge ∈ db.stateGroupEdges, edge.1 ∈ db.groupIds ∧ edge.2 ∈ db.groupIds ∧ edge.2 < edge.1
  edges_nodup : (db.stateGroupEdges.map (·.1)).Nodup
  rows : ∀ row ∈ db.stateGroupsState, row.1 ∈ db.groupIds
  rows_nodup : (db.stateGroupsState.map fun row => (row.1,row.2.1)).Nodup

variable {db : StateDb} {f : StateFilter} {group : ℕ} {key : String × String} {v : String}

theorem prevGroup_eq_some (h : db.WellFormed) {prev : ℕ} :
    db.prevGroup group = some prev ↔ (group,prev) ∈ db.stateGroupEdges := by
  have hfind : ∀ edge, db.stateGroupEdges.find? (fun edge => edge.1 = group) = some edge ↔ _ := fun edge =>
    Entries.find?_eq_some_of_unique fun a ha b hb hpa hpb => inj_on_of_nodup_map h.edges_nodup ha hb (by simp_all)
  simp [prevGroup,hfind]

theorem ownEntry_eq_some (h : db.WellFormed) :
    db.ownEntry group key = some v ↔ (group,key,v) ∈ db.stateGroupsState := by
  have hfind : ∀ row, db.stateGroupsState.find? (fun row => row.1 = group ∧ row.2.1 = key) = some row ↔ _ :=
    fun row => Entries.find?_eq_some_of_unique fun a ha b hb hpa hpb =>
      inj_on_of_nodup_map h.rows_nodup ha hb (by simp_all)
  rw [ownEntry,Option.map_eq_some_iff]
  simp only [hfind,decide_eq_true_eq]
  constructor
  · rintro ⟨row,⟨hrow,rfl,rfl⟩,rfl⟩
    exact hrow
  · exact fun hin => ⟨_,⟨hin,rfl,rfl⟩,rfl⟩

theorem WellFormed.descends (h : db.WellFormed) : Descends db.prevGroup := by
  intro group prev hprev
  exact (h.edges _ ((prevGroup_eq_some h).mp hprev)).2.2

theorem filter_eq_find {edges : List (ℕ × ℕ)} (h : (edges.map (·.1)).Nodup) (group : ℕ) :
    (edges.filter fun edge => edge.1 = group) = (edges.find? fun edge => edge.1 = group).toList := by
  induction edges with
  | nil => rfl
  | cons edge rest ih =>
    rw [map_cons,nodup_cons] at h
    by_cases hedge : edge.1 = group
    · have hrest : (rest.filter fun edge => edge.1 = group) = [] := by
        apply filter_eq_nil_iff.mpr
        intro other hother
        have hne : other.1 ≠ edge.1 := fun heq => h.1 (heq ▸ mem_map_of_mem hother)
        simpa [← hedge] using hne
      simp [hedge,hrest]
    · simp [hedge,ih h.2]

theorem sgs_eq_chain (h : db.WellFormed) (fuel group : ℕ) :
    db.sgs fuel group = chain db.prevGroup fuel group := by
  induction fuel generalizing group with
  | zero => rfl
  | succ fuel ih =>
    rw [sgs]
    congr 1
    rw [filter_eq_find h.edges_nodup,prevGroup]
    cases db.stateGroupEdges.find? fun edge => edge.1 = group with
    | none => rfl
    | some edge => simp [ih]

theorem argmax_eq_some {rows : List (ℕ × (String × String) × String)}
    {row : ℕ × (String × String) × String} (hin : row ∈ rows)
    (hmax : ∀ other ∈ rows, other.1 ≤ row.1) (hunique : ∀ other ∈ rows, other.1 = row.1 → other = row) :
    rows.argmax (·.1) = some row := by
  cases hargmax : rows.argmax (·.1) with
  | none => exact absurd (argmax_eq_none.mp hargmax) (ne_nil_of_mem hin)
  | some other =>
    have hother := argmax_mem hargmax
    have hle : row.1 ≤ other.1 := le_of_mem_argmax hin hargmax
    rw [hunique other hother (Nat.le_antisymm (hmax other hother) hle)]

theorem mem_distinctOn (h : db.WellFormed) (p : String × String → Bool) :
    (key,v) ∈ distinctOn ((db.stateGroupsState.filter fun row =>
      row.1 ∈ db.sgs (group + 1) group).filter fun row => p row.2.1) ↔
      p key ∧ db.stateOf group key = some v := by
  rw [stateOf,value_eq_some_iff h.descends,← sgs_eq_chain h]
  generalize db.sgs (group + 1) group = groups
  have hrow : ∀ row, row ∈ ((db.stateGroupsState.filter fun row => row.1 ∈ groups).filter
      fun row => p row.2.1).filter (fun row => row.2.1 = key) ↔
      row ∈ db.stateGroupsState ∧ row.1 ∈ groups ∧ p key ∧ row.2.1 = key := by
    intro row
    simp only [mem_filter,decide_eq_true_eq]
    constructor
    · intro hall
      exact ⟨hall.1.1.1,hall.1.1.2,hall.2 ▸ hall.1.2,hall.2⟩
    · intro hall
      obtain ⟨hin,hgroup,hp,hkey⟩ := hall
      exact ⟨⟨⟨hin,hgroup⟩,hkey ▸ hp⟩,hkey⟩
  have hexists : ∀ other, db.ownEntry other key ≠ none ↔ ∃ w, (other,key,w) ∈ db.stateGroupsState := by
    intro other
    rw [Option.ne_none_iff_exists']
    exact exists_congr fun w => ownEntry_eq_some h
  unfold distinctOn
  rw [mem_filterMap]
  constructor
  · intro hin
    obtain ⟨key',-,hmap⟩ := hin
    obtain ⟨row,hmax,heq⟩ := Option.map_eq_some_iff.mp hmap
    obtain ⟨rfl,rfl⟩ := Prod.mk.inj heq
    obtain ⟨hin,hgroup,hp,hkey⟩ := (hrow row).mp (argmax_mem hmax)
    refine ⟨hp,row.1,hgroup,(ownEntry_eq_some h).mpr ?_,fun other hother hne => ?_⟩
    · rw [← hkey]
      exact hin
    · obtain ⟨w,hw⟩ := (hexists other).mp hne
      exact le_of_mem_argmax ((hrow (other,key',w)).mpr ⟨hw,hother,hp,rfl⟩) hmax
  · intro hall
    obtain ⟨hp,node,hnode,hown,hmax⟩ := hall
    have hin := (hrow (node,key,v)).mpr ⟨(ownEntry_eq_some h).mp hown,hnode,hp,rfl⟩
    refine ⟨key,mem_dedup.mpr ?_,Option.map_eq_some_iff.mpr ?_⟩
    · exact mem_map.mpr ⟨(node,key,v),(mem_filter.mp hin).1,rfl⟩
    · refine ⟨_,argmax_eq_some hin ?_ ?_,rfl⟩
      · intro row hother
        obtain ⟨hrowin,hgroup,-,hkey⟩ := (hrow row).mp hother
        exact hmax row.1 hgroup ((hexists _).mpr ⟨row.2.2,hkey ▸ hrowin⟩)
      · intro row hother hgroup
        obtain ⟨hrowin,-,-,hkey⟩ := (hrow row).mp hother
        exact inj_on_of_nodup_map h.rows_nodup hrowin ((ownEntry_eq_some h).mp hown) (Prod.ext hgroup hkey)

theorem any_combos (h : f.includeOthers = false) :
    (f.types.entries.flatMap conditionsOf).any (·.holds key) = f.contains key := by
  rw [StateFilter.any_conditionsOf f.types.nodupKeys]
  rw [StateFilter.contains,h]
  rfl

theorem lookup_readPostgres (h : db.WellFormed) : (db.readPostgres f group).lookup key = some v ↔
      f.contains key ∧ db.stateOf group key = some v := by
  have hselected : ∀ {selected : List ((String × String) × String)},
      (∀ key v, (key,v) ∈ selected ↔ f.contains key ∧ db.stateOf group key = some v) →
      ((selected.foldl (fun results row => results.insert row.1 row.2)
        (∅ : StateMap String)).lookup key = some v ↔ f.contains key ∧ db.stateOf group key = some v) := by
    intro selected hmem
    rw [Entries.lookup_foldl_insert,hmem]
    intro key v v' hv hv'
    exact Option.some.inj (((hmem key v).mp hv).2.symm.trans ((hmem key v').mp hv').2)
  unfold readPostgres
  dsimp only
  split
  · rename_i hconditions
    simp only [Bool.and_eq_true,Bool.not_eq_true'] at hconditions
    apply hselected
    intro key v
    rw [mem_dedup,mem_flatMap,← any_combos hconditions.1.1,any_eq_true]
    constructor
    · intro hin
      obtain ⟨combo,hcombo,hrow⟩ := hin
      obtain ⟨hholds,hstate⟩ := (mem_distinctOn h combo.holds).mp hrow
      exact ⟨⟨combo,hcombo,hholds⟩,hstate⟩
    · intro hin
      obtain ⟨⟨combo,hcombo,hholds⟩,hstate⟩ := hin
      exact ⟨combo,hcombo,(mem_distinctOn h combo.holds).mpr ⟨hholds,hstate⟩⟩
  · apply hselected
    intro key v
    rw [mem_distinctOn h,StateFilter.meets_makeSqlFilterClause]

theorem lookup_addMissing (results : StateMap String) (rows : List (ℕ × (String × String) × String)) :
    (rows.foldl addMissing results).lookup key =
      (results.lookup key).or ((rows.find? fun row => row.2.1 = key).map (·.2.2)) := by
  induction rows generalizing results with
  | nil => simp
  | cons row rows ih =>
    rw [foldl_cons,ih]
    unfold addMissing
    by_cases hkey : row.2.1 = key
    · subst hkey
      by_cases hin : row.2.1 ∈ results
      · obtain ⟨w,hw⟩ := Option.isSome_iff_exists.mp (AList.lookup_isSome.mpr hin)
        simp [hin,hw]
      · have hnone : results.lookup row.2.1 = none := AList.lookup_eq_none.mpr hin
        simp [hin,hnone]
    · by_cases hin : row.2.1 ∈ results
      · simp [hin,hkey]
      · simp [hin,hkey,AList.lookup_insert_ne (Ne.symm hkey)]

theorem lookup_round (results : StateMap String) :
    ((db.stateGroupsState.filter fun row => decide (row.1 = group) &&
      meets f.makeSqlFilterClause row.2.1).foldl addMissing results).lookup key =
      (results.lookup key).or (if f.contains key then db.ownEntry group key else none) := by
  rw [lookup_addMissing,find?_filter,ownEntry]
  congr 1
  have hpred : ∀ row : ℕ × (String × String) × String,
      (decide ((decide (row.1 = group) && meets f.makeSqlFilterClause row.2.1) ∧
        row.2.1 = key)) = (f.contains key && decide (row.1 = group ∧ row.2.1 = key)) := by
    intro row
    rw [StateFilter.meets_makeSqlFilterClause]
    by_cases hkey : row.2.1 = key
    · subst hkey
      cases f.contains row.2.1 <;> simp
    · simp [hkey]
  simp only [decide_eq_true_eq,hpred]
  cases f.contains key with
  | true => simp
  | false => simp

theorem mem_of_maxEntriesReturned {results : StateMap String} (hresults : ∀ key, key ∈ results → f.contains key)
    (hmax : f.maxEntriesReturned = some results.entries.length) (hkey : f.contains key) :
    key ∈ results := by
  unfold StateFilter.maxEntriesReturned at hmax
  cases hwild : f.hasWildcards with
  | true => simp [hwild] at hmax
  | false =>
    have hlength : f.concreteTypes.length = results.keys.length := by
      have hkeys : results.keys.length = results.entries.length := length_map _
      simpa [hwild,hkeys] using hmax
    have hsub : results.keys ⊆ f.concreteTypes := fun key hin =>
      (StateFilter.contains_iff_mem_concreteTypes hwild).mp (hresults key hin)
    have hperm : results.keys.Perm f.concreteTypes :=
      (results.keys_nodup.subperm hsub).perm_of_length_le hlength.le
    exact hperm.mem_iff.mpr ((StateFilter.contains_iff_mem_concreteTypes hwild).mp hkey)

theorem lookup_loopSqlite (h : db.WellFormed) {fuel : ℕ} (hpos : 0 < group) (hfuel : group < fuel)
    {results : StateMap String} (hresults : ∀ key, key ∈ results → f.contains key) :
    (db.loopSqlite f fuel (some group) results).lookup key =
      (results.lookup key).or (if f.contains key then db.stateOf group key else none) := by
  induction fuel generalizing group results with
  | zero => omega
  | succ fuel ih =>
    cases group with
    | zero => omega
    | succ group =>
      rw [loopSqlite]
      generalize hround : (db.stateGroupsState.filter fun row => decide (row.1 = group + 1) &&
        meets f.makeSqlFilterClause row.2.1).foldl addMissing results = round
      have hlookup : ∀ key, round.lookup key = (results.lookup key).or
          (if f.contains key then db.ownEntry (group + 1) key else none) := by
        intro key
        rw [← hround,lookup_round]
      have hin : ∀ key, key ∈ round → f.contains key := by
        intro key hkey
        by_contra hnot
        obtain ⟨w,hw⟩ := Option.isSome_iff_exists.mp (AList.lookup_isSome.mpr hkey)
        have hnone : results.lookup key = none :=
          AList.lookup_eq_none.mpr fun hold => hnot (hresults key hold)
        rw [hlookup,hnone,if_neg hnot] at hw
        cases hw
      have hstate : db.stateOf (group + 1) key = (db.ownEntry (group + 1) key).or
          ((db.prevGroup (group + 1)).bind fun p => db.stateOf p key) := value_eq h.descends _ _
      split
      · rename_i hmax
        rw [hlookup]
        cases hcontains : f.contains key with
        | false => simp
        | true =>
          have hfound := mem_of_maxEntriesReturned hin hmax hcontains
          obtain ⟨w,hw⟩ := Option.isSome_iff_exists.mp (AList.lookup_isSome.mpr hfound)
          rw [hlookup,hcontains,if_pos rfl] at hw
          rw [if_pos rfl,if_pos rfl,hstate,← Option.or_assoc,hw,Option.some_or]
      · cases hprev : db.prevGroup (group + 1) with
        | none =>
          have hend : db.loopSqlite f fuel none round = round := by
            cases fuel <;> rfl
          rw [hend,hlookup,hstate,hprev]
          simp
        | some prev =>
          have hedge := h.edges _ ((prevGroup_eq_some h).mp hprev)
          rw [ih (h.positive _ hedge.2.1) (by omega) hin,hlookup,hstate,hprev]
          cases f.contains key with
          | false => simp
          | true => simp [Option.or_assoc]

theorem lookup_getStateGroupsFromGroups (h : db.WellFormed) (engine : DatabaseEngine)
    (hpos : 0 < group) : (getStateGroupsFromGroups engine db f group).lookup key =
      if f.contains key then db.stateOf group key else none := by
  cases engine with
  | postgres =>
    apply Option.ext
    intro v
    change (db.readPostgres f group).lookup key = some v ↔ _
    rw [lookup_readPostgres h]
    simp
  | sqlite =>
    change (db.loopSqlite f (group + 1) (some group) ∅).lookup key = _
    rw [lookup_loopSqlite h hpos (Nat.lt_succ_self _) (by simp)]
    simp

end StateDb

end TextrpBriij.StateStore
