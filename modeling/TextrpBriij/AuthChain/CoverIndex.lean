import TextrpBriij.AuthChain.ChainLinks
import TextrpBriij.AuthChain.LinkMap
import TextrpBriij.Util.Iterutils

/-! # Calculating and persisting the chain cover index

The part of the events store that gives each state event of a room a chain ID and a sequence
number and adds the links between chains. The tables are those of one room that has a chain
cover index. The order in which sets and rows are iterated is not specified, so it is a choice
that comes with each batch of events.
-/
namespace TextrpBriij.AuthChain
open ChainCover Api Util

/-- A dict, or a table with a primary key. -/
abbrev Dict (K V : Type) := AList (fun _ : K => V)

def Dict.get {K V : Type} [DecidableEq K] (d : Dict K V) (key : K) : Except Error V :=
  match d.lookup key with
  | some v => pure v
  | none => throw (.raised "KeyError")

abbrev StoredRow := Sigma fun _ : String => String × String

/-- A state event, with its type and state key. -/
structure Event where
  eventId : String
  types : String × String
  authEventIds : List String

structure Database where
  /-- The join of `events` and `state_events`. -/
  events : Dict String (String × String)
  eventAuth : List (String × String)
  eventAuthChains : Dict String (Place ℕ)
  eventAuthChainLinks : List (Link ℕ)
  eventAuthChainToCalculate : Dict String (String × String)
  /-- The last value of the sequence `event_auth_chain_id`. -/
  eventAuthChainId : ℕ

def Database.empty : Database := ⟨∅,[],∅,[],∅,0⟩

/-- What is left open when a batch is processed: the order of sets and rows, and how many
chain IDs were given to other rooms since the last batch. -/
structure Choices where
  arrange : List String → List String
  arrange_perm : ∀ l, (arrange l).Perm l
  arrangeChains : List ℕ → List ℕ
  arrangeChains_perm : ∀ l, (arrangeChains l).Perm l
  skipped : ℕ

variable (ch : Choices) (events : List Event) (c : Calculation) (chainMap : Dict String (Place ℕ))
variable (a : Allocation) (db : Database)

def Database.authIds (eventId : String) : List String :=
  (db.eventAuth.filter fun row => row.1 = eventId).map fun row => row.2

/-- The variables of `_calculate_chain_cover_index` that its first loops fill. -/
structure Calculation where
  eventsToCalcChainIdFor : List String
  eventToTypes : Dict String (String × String)
  eventToAuthChain : Graph String
  chainMap : Dict String (Place ℕ)

def Calculation.addEvent (eventId : String) (types : String × String)
    (authEvents : List String) : Calculation :=
  { c with
    eventsToCalcChainIdFor := c.eventsToCalcChainIdFor.insert eventId
    eventToTypes := c.eventToTypes.insert eventId types
    eventToAuthChain := c.eventToAuthChain.insert eventId authEvents }

def Calculation.ofEvents : Calculation :=
  events.foldl (fun c e => c.addEvent e.eventId e.types e.authEventIds) ⟨[],∅,∅,∅⟩

/-- The loop over `auth_chain_to_calc_rows`. -/
def Calculation.addParked (ch : Choices) (db : Database) (c : Calculation) : Calculation :=
  db.eventAuthChainToCalculate.entries.foldl
    (fun c row => c.addEvent row.1 row.2 (ch.arrange (db.authIds row.1))) c

def Calculation.missingAuthChains : List String :=
  (c.eventToAuthChain.entries.flatMap fun entry => entry.2).dedup.filter (· ∉ c.eventsToCalcChainIdFor)

/-- One row of the query for the missing auth events, with the IDs to look for next. -/
def Calculation.addMissing (s : Calculation × List String)
    (row : StoredRow) : Calculation × List String :=
  match db.eventAuthChains.lookup row.1 with
  | none =>
    let c := s.1.addEvent row.1 row.2 (ch.arrange (db.authIds row.1))
    (c,s.2 ∪ (ch.arrange (db.authIds row.1)).filter (· ∉ c.eventToTypes))
  | some place =>
    ({ s.1 with
      eventToTypes := s.1.eventToTypes.insert row.1 row.2
      chainMap := s.1.chainMap.insert row.1 place },s.2)

/-- The loop that runs until no auth event is missing. -/
def Calculation.fetchMissing (ch : Choices) (db : Database) : ℕ → List String → Calculation → Calculation
  | 0, _, c => c
  | _ + 1, [], c => c
  | fuel + 1, missing, c =>
    let rows := db.events.entries.filter fun row => row.1 ∈ missing
    let s := rows.foldl (addMissing ch db) (c,[])
    fetchMissing ch db fuel s.2 s.1

/-- One event of the loop that discards the events whose auth chain is not known. -/
def Calculation.discardUnknown (s : Calculation × Database)
    (eventId : String) : Except Error (Calculation × Database) := do
  let authEvents ← Dict.get s.1.eventToAuthChain eventId
  if authEvents.any fun a => a ∉ s.1.chainMap ∧ a ∉ s.1.eventsToCalcChainIdFor then
    let c := { s.1 with
      eventsToCalcChainIdFor := s.1.eventsToCalcChainIdFor.filter (· ≠ eventId) }
    -- the room ID of an event of the batch is not empty
    if eventId ∈ events.map fun e => e.eventId then
      let types ← c.eventToTypes.get eventId
      pure (c,{ s.2 with
        eventAuthChainToCalculate := s.2.eventAuthChainToCalculate.insert eventId types })
    else pure (c,s.2)
  else pure s

/-- A chain ID while chains are allocated: an ID in use, or the number of a temporary object. -/
inductive ChainKey where
  | existing (chainId : ℕ)
  | temporary (n : ℕ)
  deriving DecidableEq

/-- For each event the auth event whose chain it may extend. -/
def Calculation.tree : List (String × Option String) :=
  (sortedTopologically c.eventsToCalcChainIdFor c.eventToAuthChain).map fun eventId =>
    (eventId,(c.eventToAuthChain.edges eventId).find? fun authId =>
      c.eventToTypes.lookup eventId = c.eventToTypes.lookup authId)

def Calculation.existingChains : List ℕ :=
  c.tree.filterMap fun node => (node.2.bind c.chainMap.lookup).map fun place => place.1

def Database.maxSequenceNumber (chainId : ℕ) : Option ℕ :=
  ((db.eventAuthChains.entries.filter fun row => row.2.1 = chainId).map fun row => row.2.2).max?

structure Allocation where
  chainToMaxSeqNo : ChainKey → Option ℕ
  newChainTuples : Dict String (ChainKey × ℕ)
  /-- The number of temporary chain IDs. -/
  unallocated : ℕ

def Allocation.start (existingChains : List ℕ) : Allocation where
  chainToMaxSeqNo
    | .existing chainId =>
      if chainId ∈ existingChains then db.maxSequenceNumber chainId else none
    | .temporary _ => none
  newChainTuples := ∅
  unallocated := 0

/-- Where the auth event is, if the event has one to follow. An empty ID counts as none. -/
def Allocation.existingChainId : Option String → Except Error (Option (ChainKey × ℕ))
  | none => pure none
  | some authId =>
    if authId = "" then pure none
    else match a.newChainTuples.lookup authId with
      | some tuple => pure (some tuple)
      | none => do
        let place ← chainMap.get authId
        pure (some (.existing place.1,place.2))

/-- The place after the auth event, unless it is taken. -/
def Allocation.proposed : Option (ChainKey × ℕ) → Except Error (Option (ChainKey × ℕ))
  | none => pure none
  | some (key,seq) =>
    match a.chainToMaxSeqNo key with
    | none => throw (.raised "KeyError")
    | some maxSeqNo => pure (if maxSeqNo < seq + 1 then some (key,seq + 1) else none)

def Allocation.assign (eventId : String) (tuple : ChainKey × ℕ) : Allocation :=
  { a with
    newChainTuples := a.newChainTuples.insert eventId tuple
    chainToMaxSeqNo := Function.update a.chainToMaxSeqNo tuple.1 (some tuple.2) }

def Allocation.step (node : String × Option String) : Except Error Allocation := do
  let existing ← a.existingChainId chainMap node.2
  match ← a.proposed existing with
  | some tuple => pure (a.assign node.1 tuple)
  | none =>
    pure ({ a with unallocated := a.unallocated + 1 }.assign node.1 (.temporary a.unallocated,1))

def Database.getNextMult (n : ℕ) : List ℕ × Database :=
  ((List.range n).map fun i => db.eventAuthChainId + ch.skipped + 1 + i,
    { db with eventAuthChainId := db.eventAuthChainId + ch.skipped + n })

/-- The lookup in `chain_id_to_allocated_map`. -/
def allocatedChainId (allocated : List (ℕ × ℕ)) (existingChains : List ℕ) : ChainKey → Except Error ℕ
  | .existing chainId =>
    if chainId ∈ existingChains then pure chainId else throw (.raised "KeyError")
  | .temporary n =>
    match allocated.lookup n with
    | some chainId => pure chainId
    | none => throw (.raised "KeyError")

def allocateChainIds : Except Error (List (String × Place ℕ) × Database) := do
  let existingChains := c.existingChains
  let a ← c.tree.foldlM (Allocation.step c.chainMap) (.start db existingChains)
  let (ids,db) := db.getNextMult ch a.unallocated
  let allocated := (ch.arrangeChains (List.range a.unallocated)).zip ids
  let tuples ← a.newChainTuples.entries.mapM fun entry => do
    let chainId ← allocatedChainId allocated existingChains entry.2.1
    pure (entry.1,((chainId,entry.2.2) : Place ℕ))
  pure (tuples,db)

structure NewEventChainLinks where
  chainId : ℕ
  sequenceNumber : ℕ
  links : List (Place ℕ)

def permutations2 (l : List String) : List (String × String) :=
  l.zipIdx.flatMap fun a => l.zipIdx.filterMap fun b =>
    if a.2 ≠ b.2 then some (a.1,b.1) else none

/-- The auth events that are on another chain and that no other auth event reaches. -/
def reduction (chainLinks : LinkMap) (chainId : ℕ)
    (authEvents : List String) : Except Error (List String) := do
  let places ← authEvents.mapM fun a => do
    let place ← chainMap.get a
    pure (a,place)
  let start := (places.filter fun entry => entry.2.1 ≠ chainId).map fun entry => entry.1
  (permutations2 authEvents).foldlM (fun kept pair => do
    let startPlace ← chainMap.get pair.1
    let endPlace ← chainMap.get pair.2
    pure (if chainLinks.existsPathFrom startPlace endPlace then kept.filter (· ≠ pair.2)
      else kept)) start.dedup

def addReduced (origin : Place ℕ) (s : List (Place ℕ) × LinkMap) (authId : String) :
    Except Error (List (Place ℕ) × LinkMap) := do
  let target ← chainMap.get authId
  let (_,chainLinks) ← s.2.addLink origin target true
  pure (s.1 ++ [target],chainLinks)

def linkEvent (s : List (String × NewEventChainLinks) × LinkMap) (eventId : String) :
    Except Error (List (String × NewEventChainLinks) × LinkMap) := do
  let place ← chainMap.get eventId
  let kept ← reduction chainMap s.2 place.1 (c.eventToAuthChain.edges eventId)
  let (links,chainLinks) ← (ch.arrange kept).foldlM (addReduced chainMap place) ([],s.2)
  pure (s.1 ++ [(eventId,⟨place.1,place.2,links⟩)],chainLinks)

def loadLinks (chains : List ℕ) : Except Error LinkMap :=
  (getChainLinks db.eventAuthChainLinks chains).flatten.foldlM (fun m l => do
      let (_,m) ← m.addLink l.origin l.target false
      pure m) .empty

def calculateChainCoverIndex : Except Error (List (String × NewEventChainLinks) × Database) := do
  let c := (Calculation.ofEvents events).addParked ch db
  let c := c.fetchMissing ch db (2 * db.events.entries.length + 3) c.missingAuthChains
  let (c,db) ← (sortedTopologically c.eventToAuthChain.keys c.eventToAuthChain).foldlM
    (Calculation.discardUnknown events) (c,db)
  if c.eventsToCalcChainIdFor = [] then pure ([],db)
  else
    let (newChainTuples,db) ← allocateChainIds ch c db
    let chainMap := newChainTuples.foldl (fun d entry => d.insert entry.1 entry.2) c.chainMap
    let chainLinks ← loadLinks db (chainMap.entries.map fun entry => entry.2.1).dedup
    let (new,_) ← (sortedTopologically c.eventsToCalcChainIdFor c.eventToAuthChain).foldlM
      (linkEvent ch c chainMap) ([],chainLinks)
    pure (new,db)

def insertChain (d : Dict String (Place ℕ)) (new : String × NewEventChainLinks) :
    Except Error (Dict String (Place ℕ)) :=
  let place := (new.2.chainId,new.2.sequenceNumber)
  if new.1 ∈ d ∨ place ∈ d.entries.map fun entry => entry.2 then throw (.raised "IntegrityError")
  else pure (d.insert new.1 place)

def linkRows (new : List (String × NewEventChainLinks)) : List (Link ℕ) :=
  new.flatMap fun entry =>
    entry.2.links.map fun target => ⟨(entry.2.chainId,entry.2.sequenceNumber),target⟩

def persistChainCoverIndex (new : List (String × NewEventChainLinks)) (db : Database) :
    Except Error Database := do
  let chains ← new.foldlM insertChain db.eventAuthChains
  pure { db with
    eventAuthChains := chains
    eventAuthChainToCalculate :=
      new.foldl (fun d entry => d.erase entry.1) db.eventAuthChainToCalculate
    eventAuthChainLinks := db.eventAuthChainLinks ++ linkRows new }

def Database.storeEvent (e : Event) : Database :=
  if e.eventId ∈ db.events then db
  else { db with
    events := db.events.insert e.eventId e.types
    eventAuth := db.eventAuth ++ e.authEventIds.map fun a => (e.eventId,a) }

/-- The state events of the batch, each once, that have no place yet. -/
def stateEventsToIndex (db : Database) (events : List Event) : List Event :=
  (events.foldl (fun kept e => if e.eventId ∈ kept.map fun k => k.eventId then kept
    else kept ++ [e]) []).filter fun e => e.eventId ∉ db.eventAuthChains

structure Batch where
  events : List Event
  choices : Choices

def calculateChainCoverIndexForEvents : Except Error (List (String × NewEventChainLinks) × Database) :=
  let stateEvents := stateEventsToIndex db events
  if stateEvents = [] then pure ([],db) else calculateChainCoverIndex ch stateEvents db

def persistEventAuthChain (events : List Event) (newEventLinks : List (String × NewEventChainLinks))
    (db : Database) : Except Error Database := do
  let db ← if newEventLinks = [] then pure db else persistChainCoverIndex newEventLinks db
  pure (events.foldl Database.storeEvent db)

def persistBatch (b : Batch) : Except Error Database := do
  let (new,db) ← calculateChainCoverIndexForEvents b.choices b.events db
  persistEventAuthChain b.events new db

def persistBatches (batches : List Batch) : Except Error Database :=
  batches.foldlM persistBatch db

end TextrpBriij.AuthChain
