import TextrpBriij.Util.StreamChangeCache

/-! # Push actions and their summaries

Each push action of a user is a row of `event_push_actions`. A background job counts the rows of
a thread up to a stream ordering and adds them to the row of the thread in `event_push_summary`,
and counts again when the user has read the room or the thread.
-/
namespace TextrpBriij.Push
open AuthChain (Dict)
open Api Util

abbrev ThreadKey := String × String × String

/-- A row of `event_push_actions`. -/
structure PushAction where
  userId : String
  roomId : String
  threadId : String
  streamOrdering : ℤ
  notif : Bool
  unread : Bool
  highlight : Bool
deriving DecidableEq

def PushAction.key (a : PushAction) : ThreadKey := (a.userId,a.roomId,a.threadId)

structure NotifSummary where
  notifCount : ℕ
  unreadCount : ℕ
  streamOrdering : ℤ

/-- A row of `event_push_summary`. An unread count of `NULL` is 0 wherever it is read. -/
structure SummaryRow extends NotifSummary where
  lastReceiptStreamOrdering : Option ℤ

inductive Counter
  | notif
  | unread

def Counter.bit : Counter → PushAction → Bool
  | .notif, a => a.notif
  | .unread, a => a.unread

def Counter.count : Counter → NotifSummary → ℕ
  | .notif, summary => summary.notifCount
  | .unread, summary => summary.unreadCount

/-- A row of `receipts_linearized`. The stream ordering of an unknown event is `NULL`. -/
structure ReceiptRow where
  streamId : ℤ
  roomId : String
  receiptType : String
  userId : String
  threadId : Option String
  eventStreamOrdering : Option ℤ

structure PushTables where
  eventPushActions : List PushAction
  eventPushSummary : Dict ThreadKey SummaryRow
  receiptsLinearized : List ReceiptRow
  /-- `event_push_summary_last_receipt_stream_id` -/
  lastReceiptStreamId : ℤ
  /-- `event_push_summary_stream_ordering` -/
  rotatedStreamOrdering : ℤ

namespace PushTables

variable (db : PushTables)

/-- `old.last_receipt_stream_ordering IS NULL OR old.last_receipt_stream_ordering < ...` -/
def afterLastReceipt (a : PushAction) : Bool :=
  ((db.eventPushSummary.lookup a.key).bind (·.lastReceiptStreamOrdering)).all (· < a.streamOrdering)

def toCount (counter : Counter) (oldRotate rotateTo : ℤ) : List PushAction :=
  db.eventPushActions.filter fun a => oldRotate < a.streamOrdering ∧ a.streamOrdering ≤ rotateTo ∧
    db.afterLastReceipt a ∧ counter.bit a

structure CountRow where
  key : ThreadKey
  count : ℕ
  streamOrdering : ℤ

/-- One of the two queries of `_rotate_notifs_before_txn`. -/
def newCounts (counter : Counter) (oldRotate rotateTo : ℤ) : List CountRow :=
  let rows := db.toCount counter oldRotate rotateTo
  (rows.map (·.key)).dedup.map fun key =>
    let group := rows.filter fun a => a.key = key
    ⟨key,((db.eventPushSummary.lookup key).map fun row => counter.count row.toNotifSummary).getD 0 +
      group.length,(group.map (·.streamOrdering)).max?.getD 0⟩

/-- What the loop over the unread counts puts under a thread. -/
def unreadSummary (row : CountRow) : NotifSummary := ⟨0,row.count,row.streamOrdering⟩

/-- What the loop over the counts of notifications makes of it. -/
def addNotifs (summary : Option NotifSummary) (row : CountRow) : NotifSummary :=
  match summary with
  | some summary => { summary with notifCount := row.count }
  | none => ⟨row.count,0,row.streamOrdering⟩

def mergeCounts (unread notif : List CountRow) : Dict ThreadKey NotifSummary :=
  notif.foldl (fun summaries row =>
      summaries.insert row.key (addNotifs (summaries.lookup row.key) row))
    (unread.foldl (fun summaries row => summaries.insert row.key (unreadSummary row)) ∅)

/-- The upsert leaves the last receipt of a row as it is. -/
def upserted (old : Option SummaryRow) (summary : NotifSummary) : SummaryRow :=
  ⟨summary,old.bind (·.lastReceiptStreamOrdering)⟩

def rotateNotifsBeforeTxn (oldRotate rotateTo : ℤ) : PushTables :=
  let summaries := mergeCounts (db.newCounts .unread oldRotate rotateTo)
    (db.newCounts .notif oldRotate rotateTo)
  { db with
    eventPushSummary := summaries.entries.foldl
      (fun d entry => d.insert entry.1 (upserted (d.lookup entry.1) entry.2)) db.eventPushSummary
    rotatedStreamOrdering := rotateTo }

def rotateNotifsTxn (rotateCount : ℕ) (currentToken : ℤ) : PushTables × Bool :=
  let old := db.rotatedStreamOrdering
  let orderings := ((db.eventPushActions.map (·.streamOrdering)).filter (old < ·)).mergeSort (· ≤ ·)
  match orderings[rotateCount]? with
  | some offset => (db.rotateNotifsBeforeTxn old (min offset currentToken),false)
  | none => (db.rotateNotifsBeforeTxn old currentToken,true)

abbrev ThreadCounts := ℕ × ℕ × String

def isFor (userId roomId : String) (threadId : Option String) (a : PushAction) : Bool :=
  a.userId = userId ∧ a.roomId = roomId ∧ threadId.all (· = a.threadId)

def countsByThread (rows : List PushAction) : List ThreadCounts :=
  (rows.map (·.threadId)).dedup.map fun threadId =>
    let group := rows.filter fun a => a.threadId = threadId
    (group.countP (·.notif),group.countP (·.unread),threadId)

def getNotifUnreadCountForUserRoom (cache : StreamChangeCache)
    (roomId userId : String) (streamOrdering : ℤ) (maxStreamOrdering : Option ℤ)
    (threadId : Option String) : List ThreadCounts :=
  if cache.hasEntityChanged roomId streamOrdering = false then []
  else if maxStreamOrdering.any (· ≤ streamOrdering) then []
  else countsByThread (db.eventPushActions.filter fun a => isFor userId roomId threadId a ∧
    streamOrdering < a.streamOrdering ∧ maxStreamOrdering.all (a.streamOrdering ≤ ·))

def readUpTo (rotated streamOrdering : ℤ) (counts : ThreadCounts) : SummaryRow :=
  ⟨⟨counts.1,counts.2.1,rotated⟩,some streamOrdering⟩

def clearRoom (userId roomId : String) (rotated streamOrdering : ℤ)
    (summary : Dict ThreadKey SummaryRow) : Dict ThreadKey SummaryRow :=
  Entries.mapValues (fun (key : ThreadKey) row => if key.1 = userId ∧ key.2.1 = roomId then
    readUpTo rotated streamOrdering (0,0,key.2.2) else row) summary

def setThread (userId roomId : String) (rotated streamOrdering : ℤ)
    (summary : Dict ThreadKey SummaryRow) (counts : ThreadCounts) : Dict ThreadKey SummaryRow :=
  Entries.mapValues (fun (key : ThreadKey) row => if key = (userId,roomId,counts.2.2) then
    readUpTo rotated streamOrdering counts else row) summary

def deleteRead (roomId userId : String) (threadId : Option String) (streamOrdering : ℤ) : PushTables :=
  { db with
    eventPushActions := db.eventPushActions.filter fun a => ¬(isFor userId roomId threadId a ∧
      a.streamOrdering ≤ streamOrdering ∧ a.highlight = false) }

/-- One round of the loop over the new receipts, for a receipt of one of our users. -/
def handleReceipt (cache : StreamChangeCache) (db : PushTables) (roomId userId : String)
    (threadId : Option String) (streamOrdering : ℤ) : PushTables :=
  let db := db.deleteRead roomId userId threadId streamOrdering
  let rotated := db.rotatedStreamOrdering
  let unreadCounts := db.getNotifUnreadCountForUserRoom cache roomId userId streamOrdering
    (some rotated) threadId
  let (summary,unreadCounts) := match threadId with
    | none => (clearRoom userId roomId rotated streamOrdering db.eventPushSummary,unreadCounts)
    | some threadId => (db.eventPushSummary,
        if unreadCounts = [] then [(0,0,threadId)] else unreadCounts)
  { db with
    eventPushSummary := unreadCounts.foldl (setThread userId roomId rotated streamOrdering) summary }

/-- The loop over the new receipts. The position of an unknown event is not an `int`, which the
cache asserts. -/
def handleReceipts (cache : StreamChangeCache) (isMine : String → Bool) :
    PushTables → List ReceiptRow → Except Error PushTables
  | db, [] => pure db
  | db, row :: rows =>
    if isMine row.userId then
      match row.eventStreamOrdering with
      | none => throw (.raised "AssertionError")
      | some streamOrdering =>
        handleReceipts cache isMine
          (handleReceipt cache db row.roomId row.userId row.threadId streamOrdering) rows
    else handleReceipts cache isMine db rows

def newReceipts (userFilter : String → Bool) (maxReceiptsStreamId : ℤ) : List ReceiptRow :=
  ((db.receiptsLinearized.filter fun r => db.lastReceiptStreamId < r.streamId ∧
    r.streamId ≤ maxReceiptsStreamId ∧ userFilter r.userId).mergeSort
      fun a b => a.streamId ≤ b.streamId).take 100

def handleNewReceiptsForNotifsTxn (cache : StreamChangeCache) (isMine userFilter : String → Bool)
    (db : PushTables) (maxReceiptsStreamId : ℤ) : Except Error (PushTables × Bool) := do
  let rows := db.newReceipts userFilter maxReceiptsStreamId
  let db ← handleReceipts cache isMine db rows
  let last := if rows.length ≥ 100 then (rows.getLast?.map (·.streamId)).getD maxReceiptsStreamId
    else maxReceiptsStreamId
  pure ({ db with lastReceiptStreamId := last },rows.length < 100)

end PushTables

end TextrpBriij.Push
