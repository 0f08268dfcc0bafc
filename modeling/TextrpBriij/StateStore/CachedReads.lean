import TextrpBriij.Foundation.Runs
import TextrpBriij.StateStore.Caching
import TextrpBriij.StateStore.History

/-! # Reads through the caches equal reads of the database

Whatever is cached is true of the stored groups, which do not change, so a call that finds all
it was asked for in the caches returns what the database would have returned.
-/
namespace TextrpBriij.StateStore
open List AList Runs
open AuthChain (Dict)
open State TextrpBriij.Types Util StateDb
open TextrpBriij.Stream (DatabaseEngine)

/-- An update of a cache that runs after the commit of a transaction. -/
structure Prefill where
  members : Bool
  sequence : ℕ
  group : ℕ
  value : StateMap String

structure CachedStore where
  db : StateDb
  lastId : ℕ
  caches : Caches
  callbacks : List Prefill
  readings : List Reading

namespace CachedStore

/-- After a restart of the process nothing is cached. -/
def start (w : World) : CachedStore := ⟨w.db,w.lastId,.empty,[],[]⟩

inductive Action where
  | getStateForGroups (groups : FrozenSet ℕ) (stateFilter : StateFilter)
  /-- The next step of a call. -/
  | advance (reading : ℕ)
  | evict (members : Bool) (keepKey : ℕ × String × String → Bool) (keepFull : ℕ → Bool)
  /-- `insert_delta_group_txn`, or a round of `insert_deltas_group_txn`. -/
  | insertDeltaGroup (group : ℕ) (roomId : String) (prevGroup : ℕ) (deltaIds : StateMap String)
  | insertFullState (group : ℕ) (roomId : String) (currentStateIds : StateMap String)
  /-- The transaction runs a callback. -/
  | callAfter (callback : ℕ)

def step (engine : DatabaseEngine) (s : CachedStore) : Action → Option CachedStore
  | .getStateForGroups groups stateFilter =>
    if ∀ group ∈ groups.1, group ∈ s.db.groupIds then
      some { s with readings :=
        s.readings ++ [⟨groups,stateFilter,.lookUpNonMembers groups.1 ∅ []⟩] }
    else none
  | .advance i =>
    s.readings[i]?.map fun reading =>
      let next := reading.advance engine s.db s.caches
      { s with caches := next.1, readings := s.readings.set i { reading with progress := next.2 } }
  | .evict members keepKey keepFull =>
    some { s with caches := s.caches.set members ((s.caches.get members).evict keepKey keepFull) }
  | .insertDeltaGroup group roomId prevGroup deltaIds =>
    if s.lastId < group ∧ prevGroup ∈ s.db.groupIds then
      some { s with db := s.db.insertGroup group roomId (some prevGroup) deltaIds, lastId := group }
    else none
  | .insertFullState group roomId currentStateIds =>
    if s.lastId < group then
      let prefill (members : Bool) : Prefill :=
        ⟨members,(s.caches.get members).sequence,group,half members currentStateIds⟩
      some { s with
        db := s.db.insertGroup group roomId none currentStateIds
        lastId := group
        callbacks := s.callbacks ++ [prefill true,prefill false] }
    else none
  | .callAfter i =>
    s.callbacks[i]?.map fun callback =>
      let cache := s.caches.get callback.members
      { s with
        caches := s.caches.set callback.members
          (cache.update callback.sequence callback.group callback.value none)
        callbacks := s.callbacks.eraseIdx i }

end CachedStore

variable {f : StateFilter} {state : String × String → Option String} {map : StateMap String}
variable {db : StateDb}

def Answers (f : StateFilter) (state : String × String → Option String) (map : StateMap String) : Prop :=
  ∀ key, map.lookup key = if f.contains key then state key else none

variable {cache : GroupCache}

theorem answers_filterState (h : ∀ key, f.contains key → map.lookup key = state key) :
    Answers f state (f.filterState map) := by
  intro key
  rw [StateFilter.lookup_filterState]
  cases hcontains : f.contains key with
  | false => rfl
  | true => exact h key hcontains

theorem getStateForGroupUsingCache_spec {groups : Set ℕ}
    {dict : ℕ → String × String → Option String} (h : cache.Agrees groups dict) (group : ℕ) :
    ((getStateForGroupUsingCache cache group f).2.1 →
      Answers f (dict group) (getStateForGroupUsingCache cache group f).1) ∧
    (getStateForGroupUsingCache cache group f).2.2.Agrees groups dict := by
  have hasked : ∀ key, f.contains key →
      ∀ keys ∈ if f.hasWildcards then none else some f.concreteTypes, key ∈ keys := by
    intro key hcontains keys hkeys
    cases hwild : f.hasWildcards with
    | true => simp [hwild] at hkeys
    | false =>
      obtain rfl : f.concreteTypes = keys := by simpa [hwild] using hkeys
      exact (StateFilter.contains_iff_mem_concreteTypes hwild).mp hcontains
  unfold getStateForGroupUsingCache
  dsimp only
  generalize (if f.hasWildcards then none else some f.concreteTypes) = asked at hasked ⊢
  obtain ⟨htells,hagrees⟩ := h.get group asked
  generalize cache.get group asked = found at htells hagrees ⊢
  split
  · refine ⟨fun hfull => answers_filterState fun key hcontains => ?_,hagrees⟩
    exact htells.full hfull key (hasked key hcontains)
  · refine ⟨fun hgot => answers_filterState fun key hcontains => ?_,hagrees⟩
    simp only [Bool.not_eq_true',Bool.or_eq_false_iff,any_eq_false] at hgot
    obtain ⟨hwild,hall⟩ := hgot
    have hkey := hall key ((StateFilter.contains_iff_mem_concreteTypes hwild).mp hcontains)
    cases hlookup : found.1.value.lookup key with
    | some v => exact (htells.value key v hlookup).symm
    | none =>
      have hnot := lookup_eq_none.mp hlookup
      have habsent : key ∈ found.1.knownAbsent := by simpa [hnot] using hkey
      exact (htells.knownAbsent key habsent).symm

def halfOf (members : Bool) (db : StateDb) (group : ℕ) (key : String × String) : Option String :=
  if isMember key == members then db.stateOf group key else none

def Coherent (db : StateDb) (caches : Caches) : Prop :=
  ∀ members, (caches.get members).Agrees {group | group ∈ db.groupIds} (halfOf members db)

variable {members : Bool}

theorem contains_filterFor {key : String × String} (h : isMember key = members) :
    (filterFor f members).contains key = f.contains key := by
  cases members with
  | true => exact StateFilter.contains_member (of_decide_eq_true h)
  | false => exact StateFilter.contains_nonMember (of_decide_eq_false h)

theorem lookup_half (members : Bool) (key : String × String) :
    (half members map).lookup key = if isMember key == members then map.lookup key else none := by
  rw [half,Entries.lookup_restrict]
  cases isMember key == members <;> cases map.lookup key <;> rfl

theorem Answers.merge {group : ℕ} {map' : StateMap String}
    (h : Answers (filterFor f true) (halfOf true db group) map)
    (h' : Answers (filterFor f false) (halfOf false db group) map') :
    Answers f (db.stateOf group) (map ∪ map') := by
  intro key
  rw [Entries.lookup_union,h,h']
  cases hkey : isMember key with
  | true =>
    rw [contains_filterFor hkey]
    simp [halfOf,hkey]
  | false =>
    rw [contains_filterFor hkey]
    simp [halfOf,hkey]

theorem Answers.filterState (h : Answers f.returnExpanded state map) : Answers f state (f.filterState map) := by
  refine answers_filterState fun key hcontains => ?_
  rw [h,StateFilter.contains_returnExpanded.elim (·.trans hcontains) (·.2),if_pos rfl]

theorem Caches.get_set (caches : Caches) (members members' : Bool) (cache : GroupCache) :
    (caches.set members cache).get members' =
      if members' = members then cache else caches.get members' := by
  cases members <;> cases members' <;> rfl

variable {caches : Caches}

theorem Coherent.set (h : Coherent db caches)
    (hcache : cache.Agrees {group | group ∈ db.groupIds} (halfOf members db)) :
    Coherent db (caches.set members cache) := by
  intro members'
  rw [Caches.get_set]
  split
  · rename_i heq
    rw [heq]
    exact hcache
  · exact h members'

theorem contains_of_fetchedTypes {key : String × String}
    (hkey : isMember key = members) (h : ∀ fetched ∈ fetchedTypes f members, key ∈ fetched) :
    f.contains key := by
  rw [← contains_filterFor hkey]
  unfold fetchedTypes at h
  split at h
  · rename_i hfull
    exact StateFilter.contains_of_isFull hfull
  · exact StateFilter.contains_of_mem_concreteTypes (h _ rfl)

theorem Coherent.insertIntoCache (h : Coherent db caches) (sequence : Bool → ℕ)
    {group : ℕ} (hgroup : group ∈ db.groupIds) (hmap : Answers f (db.stateOf group) map) :
    Coherent db (insertIntoCache caches f sequence group map) := by
  have hstore : ∀ {caches : Caches} (members : Bool), Coherent db caches →
      Coherent db (caches.set members ((caches.get members).update (sequence members) group
        (half members map) (fetchedTypes f members))) := by
    intro caches members h
    refine h.set ((h members).update hgroup _ (fun key v hv => ?_) fun key hfetched => ?_)
    · rw [lookup_half] at hv
      split at hv
      · rename_i hkey
        rw [hmap] at hv
        split at hv
        · rw [halfOf,if_pos hkey,hv]
        · cases hv
      · cases hv
    · rw [lookup_half,halfOf]
      split
      · rename_i hkey
        rw [hmap,if_pos (contains_of_fetchedTypes (eq_of_beq hkey) hfetched)]
      · rfl
  exact hstore false (hstore true h)

def Done (db : StateDb) (f : StateFilter) (state : Dict ℕ (StateMap String)) (group : ℕ) : Prop :=
  ∃ map, state.lookup group = some map ∧ Answers f (db.stateOf group) map

def LookedUp (db : StateDb) (f : StateFilter) (members : Bool) (results : Dict ℕ (StateMap String))
    (incomplete : List ℕ) (group : ℕ) : Prop :=
  group ∈ incomplete ∨ ∃ map, results.lookup group = some map ∧
    Answers (filterFor f members) (halfOf members db group) map

def FetchedFrom (db : StateDb) (f : StateFilter) (groups : List ℕ)
    (fetched : Dict ℕ (StateMap String)) : Prop :=
  ∀ group map, fetched.lookup group = some map →
    group ∈ groups ∧ Answers f.returnExpanded (db.stateOf group) map

def Progress.Fits (db : StateDb) (f : StateFilter) (groups : List ℕ) : Progress → Prop
  | .lookUpNonMembers left results incomplete =>
    incomplete ⊆ groups ∧ left ⊆ groups ∧
      ∀ group ∈ groups, group ∈ left ∨ LookedUp db f false results incomplete group
  | .lookUpMembers nonMemberState left results incomplete =>
    incomplete ⊆ groups ∧ left ⊆ groups ∧
      (∀ group ∈ groups, LookedUp db f false nonMemberState incomplete group) ∧
      ∀ group ∈ groups, group ∈ left ∨ LookedUp db f true results incomplete group
  | .fetch state _ left fetched =>
    left ⊆ groups ∧ FetchedFrom db f groups fetched ∧
      ∀ group ∈ groups, group ∈ left ∨ group ∈ fetched ∨ Done db f state group
  | .insert state _ left fetched =>
    (∀ entry ∈ left, entry.1 ∈ groups ∧ Answers f.returnExpanded (db.stateOf entry.1) entry.2) ∧
      FetchedFrom db f groups fetched ∧ ∀ group ∈ groups, group ∈ fetched ∨ Done db f state group
  | .returned state => ∀ group ∈ groups, Done db f state group

variable {groups left incomplete : List ℕ} {results fetched : Dict ℕ (StateMap String)} {group : ℕ}

theorem subset_noteIncomplete (gotAll : Bool) : incomplete ⊆ noteIncomplete incomplete group gotAll := by
  intro g hg
  cases gotAll with
  | true => exact hg
  | false => exact mem_append_left _ hg

theorem noteIncomplete_subset (hgroup : group ∈ groups) (h : incomplete ⊆ groups) (gotAll : Bool) :
    noteIncomplete incomplete group gotAll ⊆ groups := by
  intro g hg
  cases gotAll with
  | true => exact h hg
  | false =>
    rcases mem_append.mp hg with hg | hg
    · exact h hg
    · rw [mem_singleton.mp hg]
      exact hgroup

theorem LookedUp.mono {incomplete' : List ℕ} (hsub : incomplete ⊆ incomplete')
    (h : LookedUp db f members results incomplete group) :
    LookedUp db f members results incomplete' group :=
  h.imp_left fun hin => hsub hin

theorem LookedUp.round (h : cache.Agrees {group | group ∈ db.groupIds} (halfOf members db)) (next : ℕ)
    (hround : ∀ g ∈ groups, g ∈ next :: left ∨ LookedUp db f members results incomplete g) :
    let found := getStateForGroupUsingCache cache next (filterFor f members)
    ∀ g ∈ groups, g ∈ left ∨ LookedUp db f members (results.insert next found.1)
      (noteIncomplete incomplete next found.2.1) g := by
  intro found g hg
  by_cases hnext : g = next
  · subst hnext
    refine .inr ?_
    cases hgot : found.2.1 with
    | false => exact .inl (mem_append_right _ mem_cons_self)
    | true => exact .inr ⟨found.1,lookup_insert _,(getStateForGroupUsingCache_spec h g).1 hgot⟩
  · rcases hround g hg with hin | hdone
    · exact .inl ((mem_cons.mp hin).resolve_left hnext)
    · refine .inr (LookedUp.mono (subset_noteIncomplete _) (hdone.imp_right fun hmap => ?_))
      obtain ⟨map,hlookup,hanswers⟩ := hmap
      exact ⟨map,by rw [lookup_insert_ne hnext,hlookup],hanswers⟩

variable {nonMemberState state fetched results : Dict ℕ (StateMap String)}

theorem done_mergeHalves (hgroup : group ∈ groups)
    (hnonMembers : LookedUp db f false nonMemberState incomplete group)
    (hmembers : LookedUp db f true results incomplete group) (hnot : group ∉ incomplete) :
    Done db f (mergeHalves nonMemberState results groups) group := by
  obtain ⟨map',hlookup',hanswers'⟩ := hnonMembers.resolve_left hnot
  obtain ⟨map,hlookup,hanswers⟩ := hmembers.resolve_left hnot
  rcases @Entries.foldl_insert_cases ℕ (StateMap String) _ nonMemberState ℕ id
      (fun group => (results.lookup group).getD ∅ ∪ (nonMemberState.lookup group).getD ∅) groups group with
    ⟨g,-,heq,hmerged⟩ | ⟨hnone,-⟩
  · obtain rfl : g = group := heq
    refine ⟨_,hmerged,?_⟩
    rw [hlookup,hlookup']
    exact hanswers.merge hanswers'
  · exact absurd rfl (hnone group hgroup)

theorem fetchedFrom_chunk (h : db.WellFormed) (engine : DatabaseEngine)
    (hexist : ∀ g ∈ groups, g ∈ db.groupIds) {chunk : List ℕ} (hchunk : chunk ⊆ groups)
    (hfetched : FetchedFrom db f groups fetched) : let fetched' := chunk.foldl (fun fetched group =>
      fetched.insert group (db.getStateGroupsFromGroups engine f.returnExpanded group)) fetched
    FetchedFrom db f groups fetched' ∧ ∀ g, g ∈ chunk ∨ g ∈ fetched → g ∈ fetched' := by
  intro fetched'
  have hcases := Entries.foldl_insert_cases (d := fetched) id
    (fun group => db.getStateGroupsFromGroups engine f.returnExpanded group) chunk
  refine ⟨fun g map hlookup => ?_,fun g hg => ?_⟩
  · rcases hcases g with ⟨a,ha,rfl,hread⟩ | ⟨-,hold⟩
    · cases hread.symm.trans hlookup
      refine ⟨hchunk ha,fun key => ?_⟩
      exact lookup_getStateGroupsFromGroups h engine (h.positive a (hexist a (hchunk ha)))
    · exact hfetched g map (hold.symm.trans hlookup)
  · rw [← lookup_isSome]
    rcases hcases g with ⟨a,-,rfl,hread⟩ | ⟨hnone,hold⟩
    · exact Option.isSome_of_eq_some hread
    · have hin := hg.resolve_left fun hin => hnone g hin rfl
      exact (congrArg Option.isSome hold).trans (lookup_isSome.mpr hin)

theorem done_replace (hfetched : FetchedFrom db f groups fetched)
    (h : group ∈ fetched ∨ Done db f state group) : Done db f (fetched.entries.foldl
      (fun state entry => state.insert entry.1 (f.filterState entry.2)) state) group := by
  rcases @Entries.foldl_insert_cases ℕ (StateMap String) _ state _ (·.1)
      (fun entry => f.filterState entry.2) fetched.entries group with ⟨entry,hentry,rfl,hnew⟩ | ⟨hnone,hold⟩
  · exact ⟨_,hnew,(hfetched _ _ (mem_lookup_iff.mpr hentry)).2.filterState⟩
  · rcases h with hin | hdone
    · obtain ⟨map,hmap⟩ := Option.isSome_iff_exists.mp (lookup_isSome.mpr hin)
      exact absurd rfl (hnone _ (mem_lookup_iff.mp hmap))
    · obtain ⟨map,hlookup,hanswers⟩ := hdone
      exact ⟨map,hold.trans hlookup,hanswers⟩

theorem advance_spec (h : db.WellFormed) (engine : DatabaseEngine)
    (hcaches : Coherent db caches) {reading : Reading}
    (hexist : ∀ g ∈ reading.groups.1, g ∈ db.groupIds)
    (hfits : reading.progress.Fits db reading.stateFilter reading.groups.1) :
    Coherent db (reading.advance engine db caches).1 ∧
      (reading.advance engine db caches).2.Fits db reading.stateFilter reading.groups.1 := by
  obtain ⟨⟨groups,hnodup⟩,f,progress⟩ := reading
  cases progress with
  | lookUpNonMembers left results incomplete =>
    obtain ⟨hincomplete,hleft,hall⟩ := hfits
    cases left with
    | nil =>
      refine ⟨hcaches,hincomplete,fun _ => id,fun g hg => ?_,fun g hg => .inl hg⟩
      exact (hall g hg).resolve_left not_mem_nil
    | cons next left =>
      obtain ⟨hnext,hleft⟩ := cons_subset.mp hleft
      have hspec := @getStateForGroupUsingCache_spec (filterFor f false) _ _ _ (hcaches false) next
      refine ⟨hcaches.set hspec.2,noteIncomplete_subset hnext hincomplete _,hleft,?_⟩
      exact LookedUp.round (hcaches false) next hall
  | lookUpMembers nonMemberState left results incomplete =>
    obtain ⟨hincomplete,hleft,hnonMembers,hall⟩ := hfits
    cases left with
    | nil =>
      have hmembers := fun g hg => (hall g hg).resolve_left not_mem_nil
      have hdone : ∀ g ∈ groups, g ∉ incomplete → Done db f (mergeHalves nonMemberState results groups) g :=
        fun g hg hnot => done_mergeHalves hg (hnonMembers g hg) (hmembers g hg) hnot
      unfold Reading.advance
      dsimp only
      split
      · rename_i hempty
        refine ⟨hcaches,fun g hg => hdone g hg ?_⟩
        rw [isEmpty_iff.mp hempty]
        exact not_mem_nil
      · refine ⟨hcaches,fun g hg => hincomplete (mem_dedup.mp hg),fun g map hlookup => ?_,?_⟩
        · cases hlookup
        · intro g hg
          by_cases hin : g ∈ incomplete
          · exact .inl (mem_dedup.mpr hin)
          · exact .inr (.inr (hdone g hg hin))
    | cons next left =>
      obtain ⟨hnext,hleft⟩ := cons_subset.mp hleft
      have hspec := @getStateForGroupUsingCache_spec (filterFor f true) _ _ _ (hcaches true) next
      refine ⟨hcaches.set hspec.2,noteIncomplete_subset hnext hincomplete _,hleft,fun g hg => ?_,?_⟩
      · exact LookedUp.mono (subset_noteIncomplete _) (hnonMembers g hg)
      · exact LookedUp.round (hcaches true) next hall
  | fetch state sequence left fetched =>
    obtain ⟨hleft,hfetched,hall⟩ := hfits
    unfold Reading.advance
    dsimp only
    split
    · rename_i hempty
      refine ⟨hcaches,fun entry hentry => ?_,hfetched,fun g hg => ?_⟩
      · exact hfetched entry.1 entry.2 (mem_lookup_iff.mpr hentry)
      · refine (hall g hg).resolve_left ?_
        rw [isEmpty_iff.mp hempty]
        exact not_mem_nil
    · obtain ⟨hfetched',hmem⟩ := fetchedFrom_chunk h engine hexist
        (fun g hg => hleft (mem_of_mem_take hg)) hfetched
      refine ⟨hcaches,fun g hg => hleft (mem_of_mem_drop hg),hfetched',fun g hg => ?_⟩
      rcases hall g hg with hin | hin | hdone
      · rw [← take_append_drop chunkSize left,mem_append] at hin
        rcases hin with hin | hin
        · exact .inr (.inl (hmem g (.inl hin)))
        · exact .inl hin
      · exact .inr (.inl (hmem g (.inr hin)))
      · exact .inr (.inr hdone)
  | insert state sequence left fetched =>
    obtain ⟨hleft,hfetched,hall⟩ := hfits
    cases left with
    | nil => exact ⟨hcaches,fun g hg => done_replace hfetched (hall g hg)⟩
    | cons entry left =>
      obtain ⟨hin,hanswers⟩ := hleft entry mem_cons_self
      refine ⟨hcaches.insertIntoCache sequence (hexist _ hin) hanswers,fun other hother => ?_,hfetched,hall⟩
      exact hleft other (mem_cons_of_mem _ hother)
  | returned state => exact ⟨hcaches,hfits⟩

variable {db' : StateDb}

section
variable (h : db'.stateOf group = db.stateOf group)
include h

theorem halfOf_congr (members : Bool) : halfOf members db' group = halfOf members db group := by
  funext key
  rw [halfOf,halfOf,h]

theorem LookedUp.congr (hlooked : LookedUp db f members results incomplete group) :
    LookedUp db' f members results incomplete group := by
  unfold LookedUp
  rw [halfOf_congr h]
  exact hlooked

theorem Done.congr (hdone : Done db f state group) : Done db' f state group := by
  unfold Done
  rw [h]
  exact hdone

end

theorem FetchedFrom.congr (h : ∀ g ∈ groups, db'.stateOf g = db.stateOf g)
    (hfetched : FetchedFrom db f groups fetched) : FetchedFrom db' f groups fetched := by
  intro g map hlookup
  obtain ⟨hin,hanswers⟩ := hfetched g map hlookup
  rw [h g hin]
  exact ⟨hin,hanswers⟩

theorem Progress.Fits.congr (h : ∀ g ∈ groups, db'.stateOf g = db.stateOf g) {progress : Progress}
    (hfits : progress.Fits db f groups) : progress.Fits db' f groups := by
  cases progress with
  | lookUpNonMembers left results incomplete =>
    obtain ⟨hincomplete,hleft,hall⟩ := hfits
    exact ⟨hincomplete,hleft,fun g hg => (hall g hg).imp_right (.congr (h g hg))⟩
  | lookUpMembers nonMemberState left results incomplete =>
    obtain ⟨hincomplete,hleft,hnonMembers,hall⟩ := hfits
    exact ⟨hincomplete,hleft,fun g hg => .congr (h g hg) (hnonMembers g hg),
      fun g hg => (hall g hg).imp_right (.congr (h g hg))⟩
  | fetch state sequence left fetched =>
    obtain ⟨hleft,hfetched,hall⟩ := hfits
    exact ⟨hleft,hfetched.congr h,fun g hg => (hall g hg).imp_right (Or.imp_right (.congr (h g hg)))⟩
  | insert state sequence left fetched =>
    obtain ⟨hleft,hfetched,hall⟩ := hfits
    refine ⟨fun entry hentry => ?_,hfetched.congr h,fun g hg => (hall g hg).imp_right (.congr (h g hg))⟩
    obtain ⟨hin,hanswers⟩ := hleft entry hentry
    rw [h _ hin]
    exact ⟨hin,hanswers⟩
  | returned state => exact fun g hg => .congr (h g hg) (hfits g hg)

structure Extends (db db' : StateDb) : Prop where
  groupIds : db.groupIds ⊆ db'.groupIds
  stateOf : ∀ g ∈ db.groupIds, db'.stateOf g = db.stateOf g

theorem Coherent.extend (hextends : Extends db db') (h : Coherent db caches) : Coherent db' caches := by
  intro members
  refine (h members).mono hextends.groupIds fun g hg key => ?_
  rw [halfOf_congr (hextends.stateOf g hg)]

namespace CachedStore

structure Sound (s : CachedStore) : Prop where
  wellFormed : s.db.WellFormed
  le_lastId : ∀ g ∈ s.db.groupIds, g ≤ s.lastId
  caches : Coherent s.db s.caches
  callbacks : ∀ callback ∈ s.callbacks, callback.group ∈ s.db.groupIds ∧
    ∀ key, callback.value.lookup key = halfOf callback.members s.db callback.group key
  readings : ∀ reading ∈ s.readings, (∀ g ∈ reading.groups.1, g ∈ s.db.groupIds) ∧
    reading.progress.Fits s.db reading.stateFilter reading.groups.1

variable {s s' : CachedStore} {engine : DatabaseEngine}

theorem Sound.extend (h : s.Sound) {db' : StateDb} {lastId : ℕ} (hwf : db'.WellFormed)
    (hids : ∀ g ∈ db'.groupIds, g ≤ lastId) (hextends : Extends s.db db') :
    { s with db := db', lastId := lastId }.Sound where
  wellFormed := hwf
  le_lastId := hids
  caches := h.caches.extend hextends
  callbacks callback hcallback := by
    obtain ⟨hin,hvalue⟩ := h.callbacks callback hcallback
    refine ⟨hextends.groupIds hin,fun key => ?_⟩
    rw [halfOf_congr (hextends.stateOf _ hin)]
    exact hvalue key
  readings reading hreading := by
    obtain ⟨hexist,hfits⟩ := h.readings reading hreading
    refine ⟨fun g hg => hextends.groupIds (hexist g hg),hfits.congr fun g hg => ?_⟩
    exact hextends.stateOf g (hexist g hg)

theorem Sound.insertGroup (h : s.Sound) {group : ℕ} (hid : s.lastId < group) (roomId : String)
    {prev : Option ℕ} {entries : StateMap String} (hprev : ∀ p, prev = some p → p ∈ s.db.groupIds) :
    { s with db := s.db.insertGroup group roomId prev entries, lastId := group }.Sound ∧
    ∀ key, (s.db.insertGroup group roomId prev entries).stateOf group key =
      (entries.lookup key).or (prev.bind fun p => s.db.stateOf p key) := by
  obtain ⟨hwf,hids,hle,hold,hnew⟩ := @insertGroup_spec s.db group prev entries h.wellFormed s.lastId
    h.le_lastId hid roomId hprev
  exact ⟨h.extend hwf hle ⟨fun g hg => (hids g).mpr (.inl hg),fun g hg => funext (hold g hg)⟩,hnew⟩

theorem Sound.step (h : s.Sound) {action : Action} (hstep : s.step engine action = some s') : s'.Sound := by
  cases action with
  | getStateForGroups groups stateFilter =>
    simp only [CachedStore.step,Option.ite_none_right_eq_some,Option.some.injEq] at hstep
    obtain ⟨hexist,rfl⟩ := hstep
    refine { h with readings := forall_mem_append.mpr ⟨h.readings,forall_mem_singleton.mpr ?_⟩ }
    exact ⟨hexist,nil_subset _,fun _ => id,fun g hg => .inl hg⟩
  | advance i =>
    obtain ⟨reading,hreading,rfl⟩ := Option.map_eq_some_iff.mp hstep
    have hmem := mem_of_getElem? hreading
    obtain ⟨hexist,hfits⟩ := h.readings reading hmem
    obtain ⟨hcaches,hnext⟩ := advance_spec h.wellFormed engine h.caches hexist hfits
    exact { h with caches := hcaches, readings := forall_mem_set h.readings ⟨hexist,hnext⟩ }
  | evict members keepKey keepFull =>
    cases hstep
    exact { h with caches := h.caches.set ((h.caches members).evict keepKey keepFull) }
  | insertDeltaGroup group roomId prevGroup deltaIds =>
    simp only [CachedStore.step,Option.ite_none_right_eq_some,Option.some.injEq] at hstep
    obtain ⟨⟨hid,hin⟩,rfl⟩ := hstep
    refine (h.insertGroup hid roomId fun p hp => ?_).1
    cases hp
    exact hin
  | insertFullState group roomId currentStateIds =>
    simp only [CachedStore.step,Option.ite_none_right_eq_some,Option.some.injEq] at hstep
    obtain ⟨hid,rfl⟩ := hstep
    obtain ⟨hsound,hstate⟩ := @Sound.insertGroup s h group hid roomId none currentStateIds
      fun p hp => by cases hp
    refine { hsound with callbacks := fun callback hcallback => ?_ }
    rcases mem_append.mp hcallback with hold | hnew
    · exact hsound.callbacks callback hold
    · have hin : group ∈ (s.db.insertGroup group roomId none currentStateIds).groupIds := by
        simp [groupIds,StateDb.insertGroup]
      have hhalf : ∀ members key, (half members currentStateIds).lookup key =
          halfOf members (s.db.insertGroup group roomId none currentStateIds) group key := by
        intro members key
        rw [lookup_half,halfOf,hstate,Option.bind_none,Option.or_none]
      simp only [mem_cons,not_mem_nil,or_false] at hnew
      rcases hnew with rfl | rfl
      · exact ⟨hin,hhalf true⟩
      · exact ⟨hin,hhalf false⟩
  | callAfter i =>
    obtain ⟨callback,hcallback,rfl⟩ := Option.map_eq_some_iff.mp hstep
    obtain ⟨hin,hvalue⟩ := h.callbacks callback (mem_of_getElem? hcallback)
    refine { h with
      caches := h.caches.set ((h.caches callback.members).update hin _ (fun key v hv => ?_) ?_)
      callbacks := fun other hother => h.callbacks other (mem_of_mem_eraseIdx hother) }
    · rw [← hvalue,hv]
    · exact fun key _ => hvalue key

theorem sound_start {w : World} (h : w.Reachable engine) : (start w).Sound where
  wellFormed := h.faithful.wellFormed
  le_lastId := h.faithful.le_lastId
  caches := by
    intro members
    cases members <;> exact DictionaryCache.agrees_empty
  callbacks := by simp [start]
  readings := by simp [start]

/-- When only this call is advanced, it returns. -/
def Returns (engine : DatabaseEngine) (i : ℕ) (s : CachedStore) : Prop :=
  ∃ n s', run (step engine) s (replicate n (.advance i)) = some s' ∧
    ∃ reading state, s'.readings[i]? = some reading ∧ reading.progress = .returned state

variable {i : ℕ} {reading : Reading}

theorem returns_of_next {progress : Progress} (hreading : s.readings[i]? = some reading)
    (hprogress : reading.progress = progress)
    (hnext : ∀ s' : CachedStore, s'.readings[i]? = some { reading with
      progress := (Reading.advance engine s.db s.caches { reading with progress }).2 } →
      Returns engine i s') : Returns engine i s := by
  subst hprogress
  have hlt : i < s.readings.length := (List.getElem?_eq_some_iff.mp hreading).1
  obtain ⟨n,s',hrun,hreturned⟩ := hnext { s with
      caches := (reading.advance engine s.db s.caches).1
      readings := s.readings.set i { reading with progress := (reading.advance engine s.db s.caches).2 } }
    (getElem?_set_self hlt)
  refine ⟨n + 1,s',?_,hreturned⟩
  rw [replicate_succ,run_cons,CachedStore.step,hreading]
  exact hrun

theorem returns_insert {sequence : Bool → ℕ}
    {left : List ((_ : ℕ) × StateMap String)} (hreading : s.readings[i]? = some reading)
    (hprogress : reading.progress = .insert state sequence left fetched) : Returns engine i s := by
  induction left generalizing s reading with
  | nil =>
    refine returns_of_next hreading hprogress fun s' hs' => ?_
    exact ⟨0,s',rfl,_,_,hs',rfl⟩
  | cons entry left ih =>
    refine returns_of_next hreading hprogress fun s' hs' => ?_
    exact ih hs' rfl

variable {left incomplete : List ℕ}

section
variable (hreading : s.readings[i]? = some reading)
include hreading

theorem returns_fetch {sequence : Bool → ℕ}
    (hprogress : reading.progress = .fetch state sequence left fetched) : Returns engine i s := by
  -- each transaction leaves fewer groups to be fetched
  induction hlength : left.length using Nat.strong_induction_on generalizing s reading left fetched with
  | _ length ih =>
    refine returns_of_next hreading hprogress fun s' hs' => ?_
    simp only [Reading.advance] at hs'
    split at hs'
    · exact returns_insert hs' rfl
    · rename_i hne
      refine ih _ ?_ hs' rfl rfl
      have hpos : 0 < left.length := length_pos_iff.mpr fun hnil => hne (by rw [hnil]; rfl)
      rw [length_drop,chunkSize]
      omega

theorem returns_lookUpMembers
    (hprogress : reading.progress = .lookUpMembers nonMemberState left results incomplete) :
    Returns engine i s := by
  induction left generalizing s reading results incomplete with
  | nil =>
    refine returns_of_next hreading hprogress fun s' hs' => ?_
    simp only [Reading.advance] at hs'
    split at hs'
    · exact ⟨0,s',rfl,_,_,hs',rfl⟩
    · exact returns_fetch hs' rfl
  | cons group left ih =>
    refine returns_of_next hreading hprogress fun s' hs' => ?_
    exact ih hs' rfl

theorem returns_lookUpNonMembers (hprogress : reading.progress = .lookUpNonMembers left results incomplete) :
    Returns engine i s := by
  induction left generalizing s reading results incomplete with
  | nil =>
    refine returns_of_next hreading hprogress fun s' hs' => ?_
    exact returns_lookUpMembers hs' rfl
  | cons group left ih =>
    refine returns_of_next hreading hprogress fun s' hs' => ?_
    exact ih hs' rfl

theorem returns : Returns engine i s := by
  cases hprogress : reading.progress with
  | lookUpNonMembers left results incomplete => exact returns_lookUpNonMembers hreading hprogress
  | lookUpMembers nonMemberState left results incomplete =>
    exact returns_lookUpMembers hreading hprogress
  | fetch state sequence left fetched => exact returns_fetch hreading hprogress
  | insert state sequence left fetched => exact returns_insert hreading hprogress
  | returned state => exact ⟨0,s,rfl,reading,state,hreading,hprogress⟩

end

/-- In every run of concurrent calls, evictions and newly stored groups, what a call returns for a
group is what its filter leaves of the stored state, and every call can return. -/
theorem cached_reads_equal_database {w : World} (hw : w.Reachable engine) {actions : List Action}
    (hrun : run (step engine) (start w) actions = some s) :
    (∀ reading ∈ s.readings, ∀ state, reading.progress = .returned state →
      ∀ group ∈ reading.groups.1, ∃ map, state.lookup group = some map ∧ ∀ key, map.lookup key =
        (reading.stateFilter.filterState (getStateGroupsFromGroups engine s.db .all group)).lookup key) ∧
    ∀ i < s.readings.length, Returns engine i s := by
  have hsound : s.Sound := run_preserves (fun h hstep => h.step hstep) (sound_start hw) hrun
  refine ⟨fun reading hreading state hprogress group hgroup => ?_,fun i hi => ?_⟩
  · obtain ⟨hexist,hfits⟩ := hsound.readings reading hreading
    rw [hprogress] at hfits
    obtain ⟨map,hlookup,hanswers⟩ := hfits group hgroup
    refine ⟨map,hlookup,fun key => ?_⟩
    rw [StateFilter.lookup_filterState,lookup_readAll hsound.wellFormed engine (hexist group hgroup)]
    exact hanswers key
  · exact returns (getElem?_eq_getElem hi)

def readTopic : List Action :=
  [.insertFullState 1 "!r" ((∅ : StateMap String).insert ("m.room.topic","") "$t"),
    .insertDeltaGroup 2 "!r" 1 ((∅ : StateMap String).insert ("m.room.name","") "$n"),
    .getStateForGroups ⟨[2],nodup_singleton 2⟩
      (.make ((∅ : Dict _ _).insert "m.room.topic" (some ⟨[""],nodup_singleton ""⟩)) false)] ++
    replicate 8 (.advance 0)

theorem topic_read_through_caches :
    ∃ s reading state map, run (step .sqlite) (start .empty) readTopic = some s ∧
      reading ∈ s.readings ∧ reading.progress = .returned state ∧ state.lookup 2 = some map ∧
      map.lookup ("m.room.topic","") = some "$t" := by
  have hrun : ∃ s, run (step .sqlite) (start .empty) readTopic = some s ∧
      ∃ reading state, reading ∈ s.readings ∧ reading.progress = .returned state ∧
        2 ∈ reading.groups.1 ∧ (reading.stateFilter.filterState
          (getStateGroupsFromGroups .sqlite s.db .all 2)).lookup ("m.room.topic","") = some "$t" := by
    exact ⟨_,rfl,_,_,mem_singleton_self _,rfl,mem_singleton_self _,by decide +kernel⟩
  obtain ⟨s,hrun,reading,state,hreading,hprogress,hgroup,hstored⟩ := hrun
  obtain ⟨map,hlookup,hmap⟩ :=
    (cached_reads_equal_database .empty hrun).1 reading hreading state hprogress 2 hgroup
  exact ⟨s,reading,state,map,hrun,hreading,hprogress,hlookup,(hmap _).trans hstored⟩

end CachedStore

end TextrpBriij.StateStore
