import TextrpBriij.AuthChain.CoverIndex
import TextrpBriij.Foundation.Runs

/-! # The queue of PDUs for a destination

PDUs wait in memory for the transmission loop. After a restart or a long back-off the queue is in
catch-up mode: it drops its PDUs, and the loop goes through the rooms of `destination_rooms`
beyond the last stream ordering that was sent. Every place where the loop awaits is a phase, and
between two of them anything else can happen.
-/
namespace TextrpBriij.Federation
open AuthChain (Dict)

structure Pdu where
  eventId : String
  roomId : String
  streamOrdering : ℤ
deriving DecidableEq

structure StoredEvent extends Pdu where
  type : String
  sender : String
  /-- Not there if the event is not a redaction, or a redaction that was censored. -/
  redacts : Option String
  rejected : Bool
  recheckRedaction : Bool

def getDomainFromId (string : String) : String :=
  String.ofList ((string.toList.dropWhile (· ≠ ':')).drop 1)

variable (events : List StoredEvent)

/-- `get_unredacted_events_from_cache_or_db` for one event. -/
def getUnredactedEvent (eventId : String) : Option StoredEvent :=
  events.find? fun e => e.eventId = eventId ∧ e.rejected = false

def isWithheld (e : StoredEvent) : Bool :=
  if e.type ≠ "m.room.redaction" then false
  else match e.redacts.bind (getUnredactedEvent events) with
    | none => true
    | some original =>
      original.type = "m.room.create" ∨ original.roomId ≠ e.roomId ∨
        e.recheckRedaction = true ∧ getDomainFromId original.sender ≠ getDomainFromId e.sender

def getEventsAsList (eventIds : List String) : List Pdu :=
  eventIds.filterMap fun eventId =>
    ((getUnredactedEvent events eventId).filter fun e => !isWithheld events e).map (·.toPdu)

def rowsBeyond (destinationRooms : Dict String ℤ) (last : ℤ) : List StoredEvent :=
  (destinationRooms.entries.flatMap fun row =>
    events.filter fun e => e.streamOrdering = row.2 ∧ last < row.2).insertionSort
      fun e f => e.streamOrdering ≤ f.streamOrdering

def getCatchUpRoomEventIds (destinationRooms : Dict String ℤ) (last : ℤ) : List String :=
  ((rowsBeyond events destinationRooms last).take 50).map (·.eventId)

/-- What is sent for a room in catch-up: the PDU, or the extremities of the room that the
destination may see. `none` is an `AssertionError`. -/
def roomCatchupPdus (extrems : List String) (isPartialStateRoom : Bool)
    (visible : List String) (last : ℤ) (pdu : Pdu) : Option (List Pdu) :=
  if pdu.eventId ∈ extrems then some [pdu]
  else if isPartialStateRoom then some [pdu]
  else
    let extremEvents := getEventsAsList events extrems
    if ∃ p ∈ extremEvents, p.streamOrdering = 0 then none
    else
      let newPdus := extremEvents.filter fun p => ¬p.streamOrdering < last
      -- `filter_events_for_server`
      let newPdus := newPdus.filter fun p => p.eventId ∈ visible
      if newPdus = [] then some [pdu] else some newPdus

structure PerDestinationQueue where
  newDataToSend : Bool := false
  catchingUp : Bool := true
  catchupLastSkipped : ℤ := 0
  lastSuccessfulStreamOrdering : Option ℤ := none
  pendingPdus : List Pdu := []

namespace PerDestinationQueue

/-- `send_pdu`, up to the start of the loop. -/
def sendPdu (q : PerDestinationQueue) (pdu : Pdu) : PerDestinationQueue :=
  if q.catchingUp = false ∨ q.lastSuccessfulStreamOrdering = none then
    { q with pendingPdus := q.pendingPdus ++ [pdu], newDataToSend := true }
  else { q with catchupLastSkipped := pdu.streamOrdering, newDataToSend := true }

def startCatchingUp (q : PerDestinationQueue) : PerDestinationQueue :=
  { q with catchingUp := true, pendingPdus := [] }

end PerDestinationQueue

def catchupRetryInterval : ℕ := 60 * 60 * 1000

/-- The transmission loop, by what it awaits. -/
inductive Loop
  | checkingRetry
  | readingLast
  /-- `get_catch_up_room_event_ids`, before the transaction. -/
  | querying (first : Bool) (last : ℤ)
  /-- The transaction is over, but the loop has not gone on. -/
  | queried (first : Bool) (last : ℤ) (eventIds : List String)
  | fetching (first : Bool) (last : ℤ) (eventIds : List String)
  /-- The extremities of the room and the transaction for it. -/
  | sendingRoom (first : Bool) (last : ℤ) (pdu : Pdu) (rest : List Pdu)
  | storingLast (first : Bool) (last : ℤ) (rest : List Pdu)
  /-- `__aenter__`, before it takes PDUs. -/
  | taking
  | sendingBatch (pdus : List Pdu)
  /-- `__aexit__`, once the PDUs are off the queue. -/
  | markingSent (last : Option ℤ)

inductive Failure
  | notRetryingDestination (retryInterval : ℕ)
  | other

def Loop.asksRetryLimiter : Loop → Bool
  | .checkingRetry | .sendingRoom .. | .sendingBatch _ => true
  | _ => false

inductive Transaction
  | batch (pdus : List Pdu)
  /-- The PDU of a room, its extremities and what was sent for it. -/
  | room (pdu : Pdu) (extrems : List String) (roomCatchupPdus : List Pdu)

structure Sender where
  events : List StoredEvent
  destinationRooms : Dict String ℤ
  /-- `last_successful_stream_ordering` of the destination. -/
  lastSuccessful : ℤ
  /-- The stream ordering of the last PDU with a row. -/
  lastWritten : ℤ
  /-- A PDU with a row, before `send_pdu`. -/
  arriving : Option Pdu := none
  queue : PerDestinationQueue := {}
  loop : Option Loop := none
  transactions : List Transaction := []

inductive Action
  /-- Others add events, reject them, censor them, or find what a redaction redacts. -/
  | writeEvents (events : List StoredEvent)
  /-- `store_destination_rooms_entries` -/
  | storeDestinationRooms (pdu : Pdu)
  | sendPdu
  | attemptNewTransaction
  | passRetryLimiter
  | readLast
  | runQuery
  | resumeQuery
  | fetchEvents
  | sendRoom (extrems : List String) (isPartialStateRoom : Bool) (visible : List String)
  | storeLast
  | takePdus (hasEdus : Bool)
  | sendBatch
  | storeBatch
  | fail (failure : Failure)
  | restart

namespace Sender

def attempt (s : Sender) : Sender :=
  { s with
    queue := { s.queue with newDataToSend := true }
    loop := s.loop.or (some .checkingRetry) }

def nextRound (s : Sender) : Sender :=
  { s with queue := { s.queue with newDataToSend := false }, loop := some .taking }

def failWith (s : Sender) : Failure → Sender
  | .notRetryingDestination retryInterval =>
    if retryInterval > catchupRetryInterval then
      { s with queue := s.queue.startCatchingUp, loop := none }
    else { s with loop := none }
  | .other => { s with loop := none }

def resume (s : Sender) (first : Bool) (last : ℤ) (eventIds : List String) : Sender :=
  if eventIds = [] then
    if s.queue.catchupLastSkipped ≠ 0 ∧ s.queue.catchupLastSkipped > last then
      { s with
        queue := { s.queue with catchupLastSkipped := 0 }
        loop := some (.querying first last) }
    else nextRound { s with queue := { s.queue with catchingUp := false } }
  else
    { s with
      queue := if first then s.queue.startCatchingUp else s.queue
      loop := some (.fetching first last eventIds) }

def step (s : Sender) : Action → Option Sender
  | .writeEvents events =>
    if s.events.map (·.toPdu) <+: events.map (·.toPdu) ∧ (events.map (·.eventId)).Nodup ∧
        (events.map (·.streamOrdering)).Nodup then
      some { s with events := events }
    else none
  | .storeDestinationRooms pdu =>
    -- The event is persisted, and the rows are written in stream order.
    if s.arriving = none ∧ pdu ∈ s.events.map (·.toPdu) ∧ 0 < pdu.streamOrdering ∧
        s.lastWritten < pdu.streamOrdering then
      some { s with
        destinationRooms := s.destinationRooms.insert pdu.roomId pdu.streamOrdering
        lastWritten := pdu.streamOrdering
        arriving := some pdu }
    else none
  | .sendPdu =>
    match s.arriving with
    | some pdu => some (attempt { s with queue := s.queue.sendPdu pdu, arriving := none })
    | none => none
  | .attemptNewTransaction => some s.attempt
  | .passRetryLimiter =>
    match s.loop with
    | some .checkingRetry =>
      if s.queue.catchingUp then
        match s.queue.lastSuccessfulStreamOrdering with
        | none => some { s with loop := some .readingLast }
        | some last => some { s with loop := some (.querying false last) }
      else some s.nextRound
    | _ => none
  | .readLast =>
    match s.loop with
    | some .readingLast =>
      some { s with
        queue := { s.queue with lastSuccessfulStreamOrdering := some s.lastSuccessful }
        loop := some (.querying true s.lastSuccessful) }
    | _ => none
  | .runQuery =>
    match s.loop with
    | some (.querying first last) =>
      some { s with
        loop := some (.queried first last (getCatchUpRoomEventIds s.events s.destinationRooms last)) }
    | _ => none
  | .resumeQuery =>
    match s.loop with
    | some (.queried first last eventIds) => some (s.resume first last eventIds)
    | _ => none
  | .fetchEvents =>
    match s.loop with
    | some (.fetching first last eventIds) =>
      match getEventsAsList s.events eventIds with
      | [] => some (s.failWith .other)
      | pdu :: rest => some { s with loop := some (.sendingRoom first last pdu rest) }
    | _ => none
  | .sendRoom extrems isPartialStateRoom visible =>
    match s.loop with
    | some (.sendingRoom first last pdu rest) =>
      -- Extremities of the room are events of the room.
      if ∀ e ∈ s.events, e.eventId ∈ extrems → e.roomId = pdu.roomId then
        match roomCatchupPdus s.events extrems isPartialStateRoom visible last pdu with
        | none => some (s.failWith .other)
        | some pdus =>
          some { s with
            queue := { s.queue with lastSuccessfulStreamOrdering := some pdu.streamOrdering }
            loop := some (.storingLast first pdu.streamOrdering rest)
            transactions := .room pdu extrems pdus :: s.transactions }
      else none
    | _ => none
  | .storeLast =>
    match s.loop with
    | some (.storingLast first last rest) =>
      let s := { s with lastSuccessful := last }
      match rest with
      | [] => some { s with loop := some (.querying first last) }
      | pdu :: rest => some { s with loop := some (.sendingRoom first last pdu rest) }
    | _ => none
  | .takePdus hasEdus =>
    match s.loop with
    | some .taking =>
      let pdus := s.queue.pendingPdus.take 50
      if pdus = [] ∧ hasEdus = false then
        if s.queue.newDataToSend then some s.nextRound else some { s with loop := none }
      else some { s with loop := some (.sendingBatch pdus) }
    | _ => none
  | .sendBatch =>
    match s.loop with
    | some (.sendingBatch pdus) =>
      some { s with
        queue := { s.queue with pendingPdus := s.queue.pendingPdus.drop pdus.length }
        loop := some (.markingSent (pdus.getLast?.map (·.streamOrdering)))
        transactions := .batch pdus :: s.transactions }
    | _ => none
  | .storeBatch =>
    match s.loop with
    | some (.markingSent last) =>
      some (nextRound { s with lastSuccessful := last.getD s.lastSuccessful })
    | _ => none
  | .fail failure =>
    match s.loop, failure with
    | some loop, .notRetryingDestination retryInterval =>
      if loop.asksRetryLimiter then some (s.failWith (.notRetryingDestination retryInterval))
      else none
    | some _, .other => some (s.failWith .other)
    | none, _ => none
  | .restart => some { s with arriving := none, queue := {}, loop := none }

end Sender

end TextrpBriij.Federation
