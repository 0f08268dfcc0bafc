import TextrpBriij.StateStore.Writers
import TextrpBriij.Util.DictionaryCache

/-! # Reading state through the caches

`_get_state_for_groups` looks each group up in the cache of member events and in the cache of
other events, and fetches the groups of which something was missing. Between any two steps of
it, entries can be evicted, groups stored and other calls advanced.
-/
namespace TextrpBriij.StateStore
open AuthChain (Dict)
open State TextrpBriij.Types Util
open TextrpBriij.Stream (DatabaseEngine)

abbrev GroupCache := DictionaryCache ℕ (String × String) String

/-- The state that is found, whether it is all that was asked for, and the cache after it. -/
def getStateForGroupUsingCache (cache : GroupCache) (group : ℕ) (stateFilter : StateFilter) :
    StateMap String × Bool × GroupCache :=
  let dictKeys := if stateFilter.hasWildcards then none else some stateFilter.concreteTypes
  let found := cache.get group dictKeys
  let stateDictIds := found.1.value
  if found.1.full || stateFilter.isFull then
    (stateFilter.filterState stateDictIds,found.1.full,found.2)
  else
    let missingTypes := stateFilter.hasWildcards || stateFilter.concreteTypes.any fun key =>
      key ∉ stateDictIds && key ∉ found.1.knownAbsent
    (stateFilter.filterState stateDictIds,!missingTypes,found.2)

structure Caches where
  /-- For everything but member events. -/
  stateGroupCache : GroupCache
  stateGroupMembersCache : GroupCache

namespace Caches

def empty : Caches := ⟨.empty,.empty⟩

def get (caches : Caches) (members : Bool) : GroupCache :=
  if members then caches.stateGroupMembersCache else caches.stateGroupCache

def set (caches : Caches) (members : Bool) (cache : GroupCache) : Caches :=
  if members then { caches with stateGroupMembersCache := cache }
  else { caches with stateGroupCache := cache }

end Caches

def isMember (key : String × String) : Bool := key.1 = "m.room.member"

def half (members : Bool) (state : StateMap String) : StateMap String :=
  Entries.restrict state fun key _ => isMember key == members

def filterFor (stateFilter : StateFilter) (members : Bool) : StateFilter :=
  if members then stateFilter.getMemberSplit.1 else stateFilter.getMemberSplit.2

def fetchedTypes (stateFilter : StateFilter) (members : Bool) : Option (List (String × String)) :=
  if (filterFor stateFilter members).isFull then none
  else some (filterFor stateFilter members).concreteTypes

/-- The round of `_insert_into_cache` for one group, with the sequence numbers of the caches
before the query. -/
def insertIntoCache (caches : Caches) (stateFilter : StateFilter) (sequence : Bool → ℕ) (group : ℕ)
    (groupStateDict : StateMap String) : Caches :=
  let store (caches : Caches) (members : Bool) := caches.set members
    ((caches.get members).update (sequence members) group (half members groupStateDict)
      (fetchedTypes stateFilter members))
  store (store caches true) false

/-- How far a call of `_get_state_for_groups` has come. -/
inductive Progress where
  /-- In the loop of `_get_state_for_groups_using_cache` over the first cache. -/
  | lookUpNonMembers (left : List ℕ) (results : Dict ℕ (StateMap String)) (incomplete : List ℕ)
  | lookUpMembers (nonMemberState : Dict ℕ (StateMap String)) (left : List ℕ)
      (results : Dict ℕ (StateMap String)) (incomplete : List ℕ)
  /-- Waiting for the query of the groups that are left. -/
  | fetch (state : Dict ℕ (StateMap String)) (sequence : Bool → ℕ) (left : List ℕ)
      (fetched : Dict ℕ (StateMap String))
  | insert (state : Dict ℕ (StateMap String)) (sequence : Bool → ℕ)
      (left : List ((_ : ℕ) × StateMap String)) (fetched : Dict ℕ (StateMap String))
  | returned (state : Dict ℕ (StateMap String))

/-- A call with its arguments. -/
structure Reading where
  groups : FrozenSet ℕ
  stateFilter : StateFilter
  progress : Progress

/-- `_get_state_groups_from_groups` reads 100 groups in a transaction. -/
def chunkSize : ℕ := 100

def noteIncomplete (incomplete : List ℕ) (group : ℕ) (gotAll : Bool) : List ℕ :=
  if gotAll then incomplete else incomplete ++ [group]

def mergeHalves (nonMemberState memberState : Dict ℕ (StateMap String)) (groups : List ℕ) :
    Dict ℕ (StateMap String) :=
  groups.foldl (fun state group => state.insert group
    ((memberState.lookup group).getD ∅ ∪ (nonMemberState.lookup group).getD ∅)) nonMemberState

def Reading.advance (engine : DatabaseEngine) (db : StateDb) (caches : Caches) (reading : Reading) :
    Caches × Progress :=
  let f := reading.stateFilter
  match reading.progress with
  | .lookUpNonMembers (group :: left) results incomplete =>
    let found := getStateForGroupUsingCache (caches.get false) group (filterFor f false)
    (caches.set false found.2.2,
      .lookUpNonMembers left (results.insert group found.1) (noteIncomplete incomplete group found.2.1))
  | .lookUpNonMembers [] results incomplete =>
    (caches,.lookUpMembers results reading.groups.1 ∅ incomplete)
  | .lookUpMembers nonMemberState (group :: left) results incomplete =>
    let found := getStateForGroupUsingCache (caches.get true) group (filterFor f true)
    (caches.set true found.2.2,.lookUpMembers nonMemberState left (results.insert group found.1)
      (noteIncomplete incomplete group found.2.1))
  | .lookUpMembers nonMemberState [] results incomplete =>
    let state := mergeHalves nonMemberState results reading.groups.1
    if incomplete.isEmpty then (caches,.returned state)
    else (caches,.fetch state (fun members => (caches.get members).sequence) incomplete.dedup ∅)
  | .fetch state sequence left fetched =>
    if left.isEmpty then (caches,.insert state sequence fetched.entries fetched)
    else
      let fetched := (left.take chunkSize).foldl (fun fetched group =>
        fetched.insert group (db.getStateGroupsFromGroups engine f.returnExpanded group)) fetched
      (caches,.fetch state sequence (left.drop chunkSize) fetched)
  | .insert state sequence (⟨group,groupStateDict⟩ :: left) fetched =>
    (insertIntoCache caches f.returnExpanded sequence group groupStateDict, .insert state sequence left fetched)
  | .insert state _ [] fetched =>
    (caches,.returned (fetched.entries.foldl
      (fun state entry => state.insert entry.1 (f.filterState entry.2)) state))
  | .returned state => (caches,.returned state)

end TextrpBriij.StateStore
