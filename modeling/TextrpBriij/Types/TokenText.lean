import TextrpBriij.Python.Decimal
import TextrpBriij.Types.Tokens

/-! # The text of stream tokens

Tokens are handed to clients as text. The writers of a stream are written with their numbers,
which the store keeps.
-/
namespace TextrpBriij.Types
open Api Python
open AuthChain (Dict)
open State (Iteration)

structure InstanceStore where
  getIdForInstance : String → Except Error ℤ
  getNameFromInstanceId : ℤ → Except Error String

/-- `except CancelledError: raise`, and the given error for any other exception. -/
def orRaise {α : Type} (x : Except Error α) (e : Error) : Except Error α :=
  match x with
  | .ok a => pure a
  | .error raised => if raised = .raised "CancelledError" then throw raised else throw e

namespace AbstractMultiWriterStreamToken
variable (it : Iteration) (store : InstanceStore) (self : AbstractMultiWriterStreamToken)

def encodedEntries : Except Error (List String) :=
  ((it.order 24 self.instanceMap.entries).filter fun entry => ¬entry.2 ≤ self.stream).mapM fun entry => do
      let instanceId ← store.getIdForInstance entry.1
      pure (str instanceId ++ "." ++ str entry.2)

/-- The text of a token without a topological part; `plain` comes first if no writer is ahead. -/
def encode (plain : String) : Except Error String :=
  if self.instanceMap.entries ≠ [] then do
    let entries ← self.encodedEntries it store
    if entries ≠ [] then pure ("m" ++ (str self.stream ++ "~" ++ join '~' entries))
    else pure (plain ++ str self.stream)
  else pure (plain ++ str self.stream)

end AbstractMultiWriterStreamToken

section parse
variable (tables : TextTables) (store : InstanceStore)

/-- One writer of the text. Empty parts were once written by mistake. -/
def decodeEntry (instanceMap : Dict String ℤ) (part : String) : Except Error (Dict String ℤ) :=
  if part = "" then pure instanceMap
  else
    match split '.' part with
    | [key,value] => do
      let instanceId ← int tables key
      let pos ← int tables value
      let instanceName ← store.getNameFromInstanceId instanceId
      pure (instanceMap.insert instanceName pos)
    | _ => throw (.raised "ValueError")

def decode (text : String) : Except Error (ℤ × Dict String ℤ) :=
  match split '~' text with
  | [] => throw (.raised "IndexError")
  | first :: parts => do
    let stream ← int tables first
    let instanceMap ← parts.foldlM (decodeEntry tables store) ∅
    pure (stream,instanceMap)

end parse

namespace MultiWriterStreamToken
variable (tables : TextTables) (it : Iteration) (store : InstanceStore)

def toString (self : MultiWriterStreamToken) : Except Error String := self.encode it store ""

def parse (string : String) : Except Error MultiWriterStreamToken :=
  let invalid := Error.synapseError 400 ("Invalid stream token " ++ tables.repr string) .unknown
  orRaise (match string.toList with
    | [] => throw (.raised "IndexError")
    | c :: rest =>
      if isdigit tables c then do
        let stream ← int tables string
        new stream ∅
      else if c = 'm' then do
        let attrs ← decode tables store (String.ofList rest)
        new attrs.1 attrs.2
      else throw invalid) invalid

end MultiWriterStreamToken

namespace RoomStreamToken
variable (tables : TextTables) (it : Iteration) (store : InstanceStore)

def toString (self : RoomStreamToken) : Except Error String :=
  match self.topological with
  | some topological => pure ("t" ++ (str topological ++ "-" ++ str self.stream))
  | none => self.encode it store "s"

def parseAs (c : Char) (text : String) : Except Error RoomStreamToken :=
  if c = 's' then do
    let stream ← int tables text
    new none stream ∅
  else if c = 't' then
    match splitOnce '-' text with
    | [topological,stream] => do
      let topological ← int tables topological
      let stream ← int tables stream
      new (some topological) stream ∅
    | _ => throw (.raised "IndexError")
  else do
    let attrs ← decode tables store text
    new none attrs.1 attrs.2

def parse (string : String) : Except Error RoomStreamToken :=
  match string.toList with
  -- The format specifier in the message of the first check is not valid for a string.
  | [] => throw (.raised "ValueError")
  | c :: rest =>
    if c ∉ ['s','t','m'] then throw (.raised "ValueError")
    else orRaise (parseAs tables store c (String.ofList rest))
      (.synapseError 400 ("Invalid room stream token " ++ tables.repr string) .unknown)

end RoomStreamToken

structure StreamToken where
  roomKey : RoomStreamToken
  presenceKey : ℤ
  typingKey : ℤ
  receiptKey : MultiWriterStreamToken
  accountDataKey : ℤ
  pushRulesKey : ℤ
  toDeviceKey : ℤ
  deviceListKey : MultiWriterStreamToken
  groupsKey : ℤ
  unPartialStatedRoomsKey : ℤ
  threadSubscriptionsKey : ℤ
  stickyEventsKey : ℤ

namespace StreamToken
variable (tables : TextTables) (it : Iteration) (store : InstanceStore)

def keys (self : StreamToken) (roomKey receiptKey deviceListKey : String) : List String :=
  [roomKey,str self.presenceKey,str self.typingKey,receiptKey,str self.accountDataKey,
    str self.pushRulesKey,str self.toDeviceKey,deviceListKey,str self.groupsKey,
    str self.unPartialStatedRoomsKey,str self.threadSubscriptionsKey,str self.stickyEventsKey]

def toString (self : StreamToken) : Except Error String := do
  let roomKey ← self.roomKey.toString it store
  let receiptKey ← self.receiptKey.toString it store
  let deviceListKey ← self.deviceListKey.toString it store
  pure (join '_' (self.keys roomKey receiptKey deviceListKey))

def parseKeys : List String → Except Error StreamToken
  | [roomKey,presenceKey,typingKey,receiptKey,accountDataKey,pushRulesKey,toDeviceKey,
      deviceListKey,groupsKey,unPartialStatedRoomsKey,threadSubscriptionsKey,
      stickyEventsKey] => do
    let roomKey ← RoomStreamToken.parse tables store roomKey
    let presenceKey ← int tables presenceKey
    let typingKey ← int tables typingKey
    let receiptKey ← MultiWriterStreamToken.parse tables store receiptKey
    let accountDataKey ← int tables accountDataKey
    let pushRulesKey ← int tables pushRulesKey
    let toDeviceKey ← int tables toDeviceKey
    let deviceListKey ← MultiWriterStreamToken.parse tables store deviceListKey
    let groupsKey ← int tables groupsKey
    let unPartialStatedRoomsKey ← int tables unPartialStatedRoomsKey
    let threadSubscriptionsKey ← int tables threadSubscriptionsKey
    let stickyEventsKey ← int tables stickyEventsKey
    pure ⟨roomKey,presenceKey,typingKey,receiptKey,accountDataKey,pushRulesKey,toDeviceKey,
      deviceListKey,groupsKey,unPartialStatedRoomsKey,threadSubscriptionsKey,stickyEventsKey⟩
  | _ => throw (.raised "ValueError")

def fromString (string : String) : Except Error StreamToken :=
  let keys := split '_' string
  -- Old tokens have fewer keys.
  let keys := keys ++ List.replicate (12 - keys.length) "0"
  orRaise (parseKeys tables store keys) (.synapseError 400 "Invalid stream token" .unknown)

def eq (self other : StreamToken) : Bool :=
  self.roomKey.eq other.roomKey ∧ self.presenceKey = other.presenceKey ∧ self.typingKey = other.typingKey ∧
    self.receiptKey.eq other.receiptKey.toAbstractMultiWriterStreamToken ∧
    self.accountDataKey = other.accountDataKey ∧ self.pushRulesKey = other.pushRulesKey ∧
    self.toDeviceKey = other.toDeviceKey ∧
    self.deviceListKey.eq other.deviceListKey.toAbstractMultiWriterStreamToken ∧
    self.groupsKey = other.groupsKey ∧
    self.unPartialStatedRoomsKey = other.unPartialStatedRoomsKey ∧
    self.threadSubscriptionsKey = other.threadSubscriptionsKey ∧
    self.stickyEventsKey = other.stickyEventsKey

end StreamToken

structure SlidingSyncStreamToken where
  streamToken : StreamToken
  connectionPosition : ℤ

namespace SlidingSyncStreamToken
variable (tables : TextTables) (it : Iteration) (store : InstanceStore)

def toString (self : SlidingSyncStreamToken) : Except Error String := do
  let streamToken ← self.streamToken.toString it store
  pure (str self.connectionPosition ++ "/" ++ streamToken)

def fromString (string : String) : Except Error SlidingSyncStreamToken :=
  orRaise (match splitOnce '/' string with
    | [connectionPosition,streamToken] => do
      let connectionPosition ← int tables connectionPosition
      let streamToken ← StreamToken.fromString tables store streamToken
      pure ⟨streamToken,connectionPosition⟩
    | _ => throw (.raised "ValueError")) (.synapseError 400 "Invalid stream token" .unknown)

def eq (self other : SlidingSyncStreamToken) : Bool :=
  self.streamToken.eq other.streamToken ∧ self.connectionPosition = other.connectionPosition

end SlidingSyncStreamToken
end TextrpBriij.Types
