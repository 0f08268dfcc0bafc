import TextrpBriij.Python.Values
import TextrpBriij.State.StateMap

/-! # Storing read receipts

A receipt is for a room, a type, a user and a thread, or for no thread. The table holds one receipt
for these, with the stream ordering of its event if the event is known.
-/
namespace TextrpBriij.Receipts
open Api Python
open AuthChain (Dict)

/-- What there is one receipt for; no thread is `NULL`. -/
structure ReceiptKey where
  roomId : String
  receiptType : String
  userId : String
  threadId : Option String
deriving DecidableEq

structure KnownEvent where
  streamOrdering : ℤ
  receivedTs : ℤ

structure LinearizedReceipt where
  streamId : ℤ
  instanceName : String
  eventId : String
  eventStreamOrdering : Option ℤ
  data : Fields

structure GraphReceipt where
  eventIds : List String
  data : Fields

structure ReceiptTables where
  linearized : Dict ReceiptKey LinearizedReceipt
  graph : Dict ReceiptKey GraphReceipt

/-- A call of `insert_receipt`, with the events that are known at that time and the stream ID that
it gets. -/
structure ReceiptCall where
  key : ReceiptKey
  eventIds : List String
  data : Fields
  events : Dict String KnownEvent
  instanceName : String
  streamId : ℤ

structure PersistedPosition where
  instanceName : String
  stream : ℤ
deriving DecidableEq

namespace ReceiptTables

variable (tables : ReceiptTables) (call : ReceiptCall)

/-- The stream ordering of the stored receipt; `none` if there is no receipt or it is `NULL`. -/
def storedOrdering (key : ReceiptKey) : Option ℤ :=
  (tables.linearized.lookup key).bind (·.eventStreamOrdering)

def upsertLinearized (eventId : String) (streamOrdering : Option ℤ) : ReceiptTables :=
  { tables with
    linearized := tables.linearized.insert call.key
      ⟨call.streamId,call.instanceName,eventId,streamOrdering,call.data⟩ }

def insertLinearizedReceiptTxn (eventId : String) : Option ℤ × ReceiptTables :=
  match call.events.lookup eventId with
  | none => (some 0,tables.upsertLinearized call eventId none)
  | some event =>
    if (tables.storedOrdering call.key).any fun so => so ≥ event.streamOrdering then (none,tables)
    else (some event.receivedTs,tables.upsertLinearized call eventId (some event.streamOrdering))

/-- `_graph_to_linear`. Neither `SELECT` of its statement has a `FROM`, so the columns of the
statement do not exist, and the database raises whatever the events are. -/
def graphToLinear (_roomId : String) (_eventIds : List String) : Except Error String :=
  throw (.raised "DatabaseError")

def insertGraphReceipt : ReceiptTables :=
  { tables with graph := tables.graph.insert call.key ⟨call.eventIds,call.data⟩ }

def linearizedEventId : Except Error (Option String) :=
  match call.eventIds with
  | [] => pure none
  | [eventId] => pure (some eventId)
  | eventIds => some <$> graphToLinear call.key.roomId eventIds

def insertReceipt : Except Error (Option PersistedPosition) × ReceiptTables :=
  match linearizedEventId call with
  | .error e => (.error e,tables)
  | .ok none => (.ok none,tables)
  | .ok (some eventId) =>
    match tables.insertLinearizedReceiptTxn call eventId with
    | (none,after) => (.ok none,after)
    | (some _,after) =>
      (.ok (some ⟨call.instanceName,call.streamId⟩),after.insertGraphReceipt call)

def afterCalls (calls : List ReceiptCall) : ReceiptTables :=
  calls.foldl (fun tables call => (tables.insertReceipt call).2) ⟨∅,∅⟩

end ReceiptTables

end TextrpBriij.Receipts
