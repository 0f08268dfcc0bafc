import TextrpBriij.AuthChain.Difference

/-! # The auth chain difference by a breadth first walk

`_get_auth_chain_difference_txn` of the event federation store, which is used when a room has
no chain cover index. Events are walked in chunks of the greatest depths, with the indices of
the state sets that have not reached them yet.
-/
namespace TextrpBriij.AuthChain
open Api

/-- The columns of `events` and `event_auth` that the walk reads. -/
structure AuthTables where
  depth : Dict String ℤ
  eventAuth : List (String × String)

variable (t : AuthTables)

def AuthTables.authRows (eventId : String) : List (String × ℤ) :=
  (t.eventAuth.filter fun row => row.1 = eventId).filterMap fun row =>
    (t.depth.lookup row.2).map fun depth => (row.2,depth)

structure Walk where
  search : List (ℤ × String)
  eventToMissingSets : Dict String (List ℕ)
  eventToAuthEvents : Dict String (List String)

def sortSearch (search : List (ℤ × String)) : List (ℤ × String) :=
  search.insertionSort fun a b => a.1 < b.1 ∨ a.1 = b.1 ∧ a.2 ≤ b.2

/-- `event_to_missing_sets[a_id].intersection_update(event_to_missing_sets[event_id])` -/
def markReachable (eventId : String) (missing : Dict String (List ℕ)) (aId : String) :
    Except Error (Dict String (List ℕ)) := do
  let sets ← missing.get aId
  let others ← missing.get eventId
  pure (missing.insert aId (sets.filter (· ∈ others)))

/-- The loop that marks the known ancestors, one generation a round. A generation is as many
steps away as rounds were made, so in an acyclic graph the events that have auth events bound
the rounds. -/
def markAncestors (authEvents : Dict String (List String)) (eventId : String) :
    ℕ → List String → Dict String (List ℕ) → Except Error (Dict String (List ℕ))
  | 0, _, missing => pure missing
  | _ + 1, [], missing => pure missing
  | fuel + 1, a :: aIds, missing => do
    let missing ← (a :: aIds).foldlM (markReachable eventId) missing
    let newAids := ((a :: aIds).flatMap fun aId => (authEvents.lookup aId).getD []).dedup
    markAncestors authEvents eventId fuel newAids missing

def Walk.addFound (numSets : ℕ) (w : Walk) (row : String × String × ℤ) : Except Error Walk := do
  let (eventId,authEventId,depth) := row
  let authEvents := w.eventToAuthEvents.insert eventId
    (((w.eventToAuthEvents.lookup eventId).getD []).insert authEventId)
  match w.eventToMissingSets.lookup authEventId with
  | none =>
    let missing ← markReachable eventId
      (w.eventToMissingSets.insert authEventId (List.range numSets)) authEventId
    pure ⟨w.search ++ [(depth,authEventId)],missing,authEvents⟩
  | some _ =>
    let missing ← markAncestors authEvents eventId (authEvents.entries.length + 1)
      ((authEvents.lookup authEventId).getD []) w.eventToMissingSets
    let missing ← markReachable eventId missing authEventId
    pure ⟨w.search,missing,authEvents⟩

/-- What `_event_auth_cache` answers for an event in a round. Entries come and go. -/
abbrev AuthCache := ℕ → String → Option (List (String × ℤ))

/-- The rows for the events of a chunk, first those from the cache. -/
def AuthTables.found (cached : String → Option (List (String × ℤ)))
    (chunk : List String) : List (String × String × ℤ) :=
  (chunk.flatMap fun e => ((cached e).getD []).map fun row => (e,row)) ++
    (t.eventAuth.filter fun row => row.1 ∈ chunk.filter fun e => (cached e).isNone).filterMap
      fun row => (t.depth.lookup row.2).map fun depth => (row.1,row.2,depth)

def AuthTables.round (cached : String → Option (List (String × ℤ)))
    (numSets : ℕ) (w : Walk) : Except Error Walk := do
  let rest := w.search.take (w.search.length - 100)
  let chunk := (w.search.drop (w.search.length - 100)).map fun s => s.2
  let w ← (t.found cached chunk).foldlM (Walk.addFound numSets) { w with search := rest }
  pure { w with search := sortSearch w.search }

/-- The loop, which stops once all events that wait are reached by all state sets. Each round
walks an event, and an event is put in once, so there are at most as many rounds as events. -/
def AuthTables.walk (t : AuthTables) (cache : AuthCache) (numSets : ℕ) : ℕ → ℕ → Walk → Except Error Walk
  | 0, _, w => pure w
  | fuel + 1, round, w => do
    let reached ← w.search.allM fun s => do
      let sets ← w.eventToMissingSets.get s.2
      pure sets.isEmpty
    if reached then pure w
    else
      let w ← t.round (cache round) numSets w
      t.walk cache numSets fuel (round + 1) w

def setsWithout (stateSets : List (List String)) (e : String) : List ℕ :=
  (List.range stateSets.length).filter fun i => e ∉ stateSets.getD i []

def AuthTables.startWalk (stateSets : List (List String)) : Walk where
  search := sortSearch (stateSets.flatten.dedup.filterMap fun e =>
    (t.depth.lookup e).map fun depth => (depth,e))
  eventToMissingSets :=
    stateSets.flatten.dedup.foldl (fun d e => d.insert e (setsWithout stateSets e)) ∅
  eventToAuthEvents := ∅

def getAuthChainDifference (cache : AuthCache) (stateSets : List (List String)) :
    Except Error (List String) := do
  if stateSets = [] then throw (.raised "IndexError")
  let w ← t.walk cache stateSets.length (t.depth.entries.length + 1) 0 (t.startWalk stateSets)
  pure ((w.eventToMissingSets.entries.filter fun entry => entry.2 ≠ []).map fun entry => entry.1)

/-- The breadth first walk, which cannot tell the conflicted subgraph. -/
def fallBack (cache : AuthCache) (stateSets : List (List String))
    (conflictedSet : Option (List String)) : Except Error (List String × Option (List String)) := do
  if conflictedSet.isSome then throw (.raised "_NoChainCoverIndex")
  let authDiff ← getAuthChainDifference t cache stateSets
  pure (authDiff,none)

/-- The auth chain difference and the conflicted subgraph. A room without a chain cover index
is walked; one that has it although events are missing from it is walked in tests only. -/
def getAuthChainDifferenceExtended (hasAuthChainIndex testsAllowNoChainCoverIndex : Bool)
    (ch : Choices) (db : Database) (depth : Dict String ℤ) (cache : AuthCache)
    (stateSets : List (List String)) (conflictedSet additional : Option (List String)) :
    Except Error (List String × Option (List String)) :=
  if hasAuthChainIndex then
    match getAuthChainDifferenceUsingCoverIndex ch db stateSets conflictedSet additional with
    | .ok d => pure (d.authDifference,some d.conflictedSubgraph)
    | .error (.raised "_NoChainCoverIndex") =>
      if testsAllowNoChainCoverIndex then
        fallBack ⟨depth,db.eventAuth⟩ cache stateSets conflictedSet
      else throw (.raised "_NoChainCoverIndex")
    | .error e => throw e
  else fallBack ⟨depth,db.eventAuth⟩ cache stateSets conflictedSet

end TextrpBriij.AuthChain
