import TextrpBriij.AuthChain.CoverIndex

/-! # The auth chain difference from the chain cover index

`_get_auth_chain_difference_using_cover_index_txn` of the event federation store, with the
helpers that walk links between chains. Sets are lists, listed in the order in which they are
iterated; the sets that the code builds itself are iterated in an order that is left open.

The code rewrites the state sets of its caller in place. Here they are values: the sets of a
list are taken to be objects of their own, as they are at the callers. -/
namespace TextrpBriij.AuthChain
open ChainCover Api Util

def maxChainLength : ℕ := 2 ^ 53 - 1

/-- One link in the loop of `_materialize`: the target is pushed unless it was seen. -/
def materializeLink (backwards : Bool) (s : ℕ) (st : List (Place ℕ) × Dict ℕ ℕ) (l : Link ℕ) :
    List (Place ℕ) × Dict ℕ ℕ :=
  if backwards then
    if s < l.origin.2 then st
    else if (st.2.lookup l.target.1).getD 0 < l.target.2 then
      (l.target :: st.1,st.2.insert l.target.1 l.target.2)
    else st
  else
    if l.origin.2 < s then st
    else if l.target.2 < (st.2.lookup l.target.1).getD maxChainLength then
      (l.target :: st.1,st.2.insert l.target.1 l.target.2)
    else st

def materializeLoop (links : List (Link ℕ)) (backwards : Bool) : ℕ → List (Place ℕ) → Dict ℕ ℕ → Dict ℕ ℕ
  | 0, _, materialized => materialized
  | _ + 1, [], materialized => materialized
  | fuel + 1, (c,s) :: stack, materialized =>
    let st := (links.filter fun l => l.origin.1 = c).foldl (materializeLink backwards s) (stack,materialized)
    materializeLoop links backwards fuel st.1 st.2

/-- Each place that is pushed is the target of a link that was not met before, so there are at
most as many rounds as links, and one for the origin. -/
def materialize (origin : Place ℕ) (links : List (Link ℕ)) (materialized : Dict ℕ ℕ)
    (backwards : Bool) : Dict ℕ ℕ :=
  materializeLoop links backwards (links.length + 1) [origin] materialized

variable (ch : Choices) (db : Database) (stateSets : List (List String)) (links : List (Link ℕ))

def generateForwardLinks : List (Link ℕ) :=
  links.map fun l => ⟨l.target,l.origin⟩

def accumulateForwardsReachableEvents (forwards : Dict ℕ ℕ) (backLinks : List (Link ℕ))
    (positions : List (Place ℕ)) : Dict ℕ ℕ :=
  let fwdLinks := generateForwardLinks backLinks
  positions.foldl (fun forwards p =>
    let forwards := forwards.insert p.1 (min p.2 ((forwards.lookup p.1).getD maxChainLength))
    materialize p fwdLinks forwards false) forwards

/-- One position in the loops that collect what is reachable backwards. A chain without links
in the batch is passed over. -/
def accumulateBackwards (backwards : Dict ℕ ℕ) (p : Place ℕ) : Dict ℕ ℕ :=
  if p.1 ∈ links.map fun l => l.origin.1 then
    materialize p links (backwards.insert p.1 (max p.2 ((backwards.lookup p.1).getD 0))) true
  else backwards

structure ChainInfo where
  chainInfo : Dict String (Place ℕ)
  chainToEvent : Dict (Place ℕ) String
  seenChains : List ℕ

def ChainInfo.addRow (info : ChainInfo) (row : Sigma fun _ : String => Place ℕ) : ChainInfo where
  chainInfo := info.chainInfo.insert row.1 row.2
  chainToEvent := info.chainToEvent.insert row.2 row.1
  seenChains := info.seenChains.insert row.2.1

def fetchChainInfo (events : List String) (info : ChainInfo) : ChainInfo :=
  (batchIter events 1000).foldl (fun info batch =>
    (db.eventAuthChains.entries.filter fun row => row.1 ∈ batch).foldl .addRow info) info

/-- The events of chains between two sequence numbers. The query leaves out its lower number,
so the callers give it the one before the first; here a gap holds its first and its last. -/
def fetchEventIdsFromChains (gaps : List (ℕ × ℕ × ℕ)) : List String :=
  gaps.flatMap fun gap => (db.eventAuthChains.entries.filter fun row =>
    row.2.1 = gap.1 ∧ gap.2.1 ≤ row.2.2 ∧ row.2.2 ≤ gap.2.2).map fun row => row.1

/-- The rows of the query over `event_auth_chain_to_calculate`: an event, and an auth event
with whether it has a chain. An event without auth events has one row. -/
def Database.toCalculateRows : List (String × Option (String × Bool)) :=
  db.eventAuthChainToCalculate.keys.flatMap fun e =>
    if db.authIds e = [] then [(e,none)]
    else (db.authIds e).map fun a => (e,some (a,decide (a ∈ db.eventAuthChains)))

structure Unindexed where
  eventToAuthIds : Dict String (List String)
  haveChainIndex : List String

def Unindexed.addRow (u : Unindexed) (row : String × Option (String × Bool)) : Unindexed :=
  let s := (u.eventToAuthIds.lookup row.1).getD []
  match row.2 with
  | none => { u with eventToAuthIds := u.eventToAuthIds.insert row.1 s }
  | some (authId,hasChain) =>
    { eventToAuthIds := u.eventToAuthIds.insert row.1 (s.insert authId)
      haveChainIndex := if hasChain then u.haveChainIndex.insert authId else u.haveChainIndex }

/-- The loop that follows auth events as far as events without a chain go. A set is popped in
an order that is left open. -/
def partialAuthChain (ch : Choices) (eventToAuthIds : Dict String (List String)) :
    ℕ → List String → List String → List String
  | 0, _, toAdd => toAdd
  | fuel + 1, processing, toAdd =>
    match ch.arrange processing with
    | [] => toAdd
    | authId :: rest =>
      let toAdd := toAdd.insert authId
      match eventToAuthIds.lookup authId with
      | none => partialAuthChain ch eventToAuthIds fuel rest toAdd
      | some sub =>
        partialAuthChain ch eventToAuthIds fuel (rest ∪ sub.filter (· ∉ toAdd)) toAdd

def fixupAuth (haveChainIndex : List String) (s : List String × List String) (authId : String) :
    List String × List String :=
  if authId ∈ haveChainIndex then (s.1.insert authId,s.2) else (s.1,s.2.insert authId)

def fixupEvent (haveChainIndex : List String) (s : List String × List String)
    (entry : String × List String) : List String × List String :=
  if entry.1 ∉ s.1 then s
  else
    entry.2.foldl (fixupAuth haveChainIndex)
      ((s.1.filter (· ≠ entry.1)).filter (· ∉ entry.2),s.2.insert entry.1)

def unionMinusIntersection (sets : List (List String)) : List String :=
  sets.flatten.dedup.filter fun e => ¬sets.all fun s => e ∈ s

def fixupAuthChainDifferenceSets (eventsMissingChainInfo eventsThatHaveChainIndex : List String) :
    Except Error (List String × List (List String)) :=
  let u := db.toCalculateRows.foldl Unindexed.addRow ⟨∅,eventsThatHaveChainIndex⟩
  if eventsMissingChainInfo.any fun e => e ∉ u.eventToAuthIds then
    throw (.raised "_NoChainCoverIndex")
  else
    let partialChains := (u.eventToAuthIds.entries.filter fun entry =>
      stateSets.any fun s => entry.1 ∈ s).map fun entry =>
        (entry.1,partialAuthChain ch u.eventToAuthIds (db.eventAuth.length + 1) entry.2 [])
    let fixed := stateSets.map fun s => partialChains.foldl (fixupEvent u.haveChainIndex) (s,[])
    pure (unionMinusIntersection (fixed.map fun f => f.2),fixed.map fun f => f.1)

structure StateDifference where
  authDifference : List String
  conflictedSubgraph : List String

/-- What the loop over the batches of links updates. -/
structure Reachable where
  setToChain : List (Dict ℕ ℕ)
  seenChains : List ℕ
  conflictedForwards : Dict ℕ ℕ
  conflictedBackwards : Dict ℕ ℕ

def walkChains (chains : Dict ℕ ℕ) : Dict ℕ ℕ :=
  (links.map fun l => l.origin.1).dedup.foldl (fun chains c =>
    match chains.lookup c with
    | none => chains
    | some s => materialize (c,s) links chains true) chains

/-- One batch of links. The positions are empty unless a conflicted set is given. -/
def Reachable.addLinks (conflicted additional : List (Place ℕ)) (r : Reachable)
    (links : List (Link ℕ)) : Reachable :=
  let setToChain := r.setToChain.map (walkChains links)
  { setToChain
    seenChains := setToChain.foldl (fun seen chains => seen ∪ chains.keys) r.seenChains
    conflictedForwards :=
      accumulateForwardsReachableEvents r.conflictedForwards links conflicted
    conflictedBackwards :=
      additional.foldl (accumulateBackwards links)
        (conflicted.foldl (accumulateBackwards links) r.conflictedBackwards) }

/-- The loop over a range of sequence numbers: the events in memory up to the first that is
missing, and whether one is. An empty ID counts as missing. -/
def fillGap (chainToEvent : Dict (Place ℕ) String) (chainId : ℕ) : List ℕ → List String × Bool
  | [] => ([],false)
  | seq :: seqs =>
    match chainToEvent.lookup (chainId,seq) with
    | none => ([],true)
    | some e =>
      if e = "" then ([],true)
      else
        let rest := fillGap chainToEvent chainId seqs
        (e :: rest.1,rest.2)

/-- The events of ranges of sequence numbers, from memory or from the table. A range is a
chain with its first and its last number. -/
def fetchRanges (chainToEvent : Dict (Place ℕ) String) (ranges : List (ℕ × ℕ × ℕ)) : List String :=
  let filled := ranges.map fun r =>
    (r,fillGap chainToEvent r.1 (List.range' r.2.1 (r.2.2 + 1 - r.2.1)))
  (filled.flatMap fun f => f.2.1) ∪ fetchEventIdsFromChains db ((filled.filter fun f => f.2.2).map fun f => f.1)

/-- The chains on which the state sets differ, from above the least number to the greatest. -/
def Reachable.authGaps (r : Reachable) : List (ℕ × ℕ × ℕ) :=
  r.seenChains.filterMap fun c =>
    let numbers := r.setToChain.map fun chains => (chains.lookup c).getD 0
    let minSeqNo := numbers.min?.getD 0
    let maxSeqNo := numbers.max?.getD 0
    if minSeqNo < maxSeqNo then some (c,minSeqNo + 1,maxSeqNo) else none

def Reachable.subgraphGaps (r : Reachable) : List (ℕ × ℕ × ℕ) :=
  r.conflictedBackwards.entries.filterMap fun entry =>
    match r.conflictedForwards.lookup entry.1 with
    | none => none
    | some forwards =>
      if entry.2 < forwards then none else some (entry.1,forwards,entry.2)

def maxOfStateSet (chainInfo : Dict String (Place ℕ)) (stateSet : List String) : Except Error (Dict ℕ ℕ) :=
  stateSet.foldlM (fun chains stateId => do
    let p ← chainInfo.get stateId
    pure (chains.insert p.1 (max p.2 ((chains.lookup p.1).getD 0)))) ∅

/-- The state sets and positions once every event has a chain, with the difference so far. -/
def prepareStateSets : Except Error (List String × List (List String) × ChainInfo) := do
  let initialEvents := stateSets.flatten.dedup
  let info := fetchChainInfo db initialEvents ⟨∅,∅,[]⟩
  let missing := initialEvents.filter (· ∉ info.chainInfo)
  if missing = [] then pure ([],stateSets,info)
  else
    let (difference,stateSets) ← fixupAuthChainDifferenceSets ch db stateSets missing info.chainInfo.keys
    let new := stateSets.flatten.dedup.filter (· ∉ initialEvents)
    pure (difference,stateSets,fetchChainInfo db new info)

def checkConflicted (initialEvents : List String) (conflictedSet additional : Option (List String)) :
    Except Error Unit :=
  match conflictedSet with
  | none => pure ()
  | some conflicted =>
    if conflicted.any fun e => e ∉ initialEvents then throw (.raised "AssertionError")
    else if (additional.getD []).any fun e => e ∉ initialEvents then
      throw (.raised "AssertionError")
    else pure ()

def conflictedPositions (chainInfo : Dict String (Place ℕ)) (conflictedSet additional : Option (List String)) :
    Except Error (List (Place ℕ) × List (Place ℕ)) :=
  match conflictedSet with
  | none => pure ([],[])
  | some conflicted => do
    let positions ← conflicted.mapM chainInfo.get
    let additionalPositions ← (additional.getD []).mapM chainInfo.get
    pure (positions,additionalPositions)

def getAuthChainDifferenceUsingCoverIndex (conflictedSet additional : Option (List String)) :
    Except Error StateDifference := do
  if stateSets = [] then throw (.raised "IndexError")
  checkConflicted stateSets.flatten conflictedSet additional
  let (difference,stateSets,info) ← prepareStateSets ch db stateSets
  let (conflicted,additional) ← conflictedPositions info.chainInfo conflictedSet additional
  let setToChain ← stateSets.mapM (maxOfStateSet info.chainInfo)
  let r := (getChainLinks db.eventAuthChainLinks (ch.arrangeChains info.seenChains)).foldl
    (Reachable.addLinks conflicted additional) ⟨setToChain,info.seenChains,∅,∅⟩
  pure ⟨difference ∪ fetchRanges db info.chainToEvent r.authGaps,
    fetchRanges db info.chainToEvent r.subgraphGaps⟩

end TextrpBriij.AuthChain
