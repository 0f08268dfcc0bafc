import TextrpBriij.Foundation.Runs
import TextrpBriij.Python.Values
import TextrpBriij.State.StateMap

/-! # Read receipts that wait for a destination

The receipts of a queue are spread over EDUs, each of them a dict of rooms, receipt types and
users. A receipt belongs to a room, a type, a user and a thread, the last as its receiver reads
it from the data.
-/
namespace TextrpBriij.Federation
open Python List AList
open AuthChain (Dict)

structure ReadReceipt where
  roomId : String
  receiptType : String
  userId : String
  eventIds : List String
  threadId : Option String
  data : Fields

def setField : Fields → String → Json → Fields
  | [],key,v => [(key,v)]
  | (k,w) :: rest,key,v => if k = key then (k,v) :: rest else (k,w) :: setField rest key v

def ReadReceipt.serialized (r : ReadReceipt) : Fields :=
  [("event_ids",.arr (r.eventIds.map .str)), ("data",.obj (match r.threadId with
      | some threadId => setField r.data "thread_id" (.str threadId)
      | none => r.data))]

/-- Room ID, then receipt type, then user ID, then the receipt. -/
abbrev ReceiptContent := Dict String (Dict String (Dict String Fields))

/-- `edu.setdefault(room_id, {}).setdefault(receipt_type, {})` -/
def receiptContent (edu : ReceiptContent) (roomId receiptType : String) : Dict String Fields :=
  (((edu.lookup roomId).getD ∅).lookup receiptType).getD ∅

def setContent (edu : ReceiptContent) (roomId receiptType : String)
    (content : Dict String Fields) : ReceiptContent :=
  edu.insert roomId (((edu.lookup roomId).getD ∅).insert receiptType content)

/-- The thread ID of the receipt is compared with an entry of the serialized receipt. -/
def useEdu (r : ReadReceipt) (content : Dict String Fields) : Bool :=
  match content.lookup r.userId with
  | none => true
  | some held => (Json.field held "thread_id").sameKey
      (match r.threadId with
        | some threadId => .str threadId
        | none => .null)

def putReceipt (r : ReadReceipt) : List ReceiptContent → List ReceiptContent
  | [] => [setContent ∅ r.roomId r.receiptType ((∅ : Dict String Fields).insert r.userId r.serialized)]
  | edu :: rest =>
    let content := receiptContent edu r.roomId r.receiptType
    if useEdu r content then
      setContent edu r.roomId r.receiptType (content.insert r.userId r.serialized) :: rest
    else setContent edu r.roomId r.receiptType content :: putReceipt r rest

structure Edu where
  origin : String
  destination : String
  eduType : String
  content : ReceiptContent

structure ReceiptQueue where
  serverName : String
  destination : String
  pendingReceiptEdus : List ReceiptContent
  newDataToSend : Bool

def queueReadReceipt (q : ReceiptQueue) (r : ReadReceipt) : ReceiptQueue :=
  { q with pendingReceiptEdus := putReceipt r q.pendingReceiptEdus, newDataToSend := true }

/-- Where `[:limit]` and `[limit:]` cut a list. A negative limit counts from the end. -/
def sliceAt (length : ℕ) (limit : ℤ) : ℕ := if limit < 0 then (length + limit).toNat else limit.toNat

def getReceiptEdus (q : ReceiptQueue) (limit : ℤ) : List Edu × ReceiptQueue :=
  let cut := sliceAt q.pendingReceiptEdus.length limit
  ((q.pendingReceiptEdus.take cut).map fun content =>
      ⟨q.serverName,q.destination,"m.receipt",content⟩,
    { q with pendingReceiptEdus := q.pendingReceiptEdus.drop cut })

abbrev Slot := String × String × String

def ReadReceipt.slot (r : ReadReceipt) : Slot := (r.roomId,r.receiptType,r.userId)

def threadOf (receipt : Fields) : Option String :=
  match Json.field receipt "data" with
  | .obj data =>
    match Json.field data "thread_id" with
    | .str threadId => some threadId
    | _ => none
  | _ => none

def receipts (edu : ReceiptContent) : List (Slot × Fields) :=
  edu.entries.flatMap fun room => room.2.entries.flatMap fun type =>
    type.2.entries.flatMap fun user => [((room.1,type.1,user.1),user.2)]

def held (edus : List ReceiptContent) (slot : Slot) (thread : Option String) : List Fields :=
  ((edus.flatMap receipts).filter fun e => e.1 = slot ∧ threadOf e.2 = thread).map Prod.snd

def find (slot : Slot) (edu : ReceiptContent) : Option Fields :=
  (receiptContent edu slot.1 slot.2.1).lookup slot.2.2

def pending (edus : List ReceiptContent) (slot : Slot) : List Fields := edus.filterMap (find slot)

variable {edu : ReceiptContent}

theorem receiptContent_setContent {roomId receiptType : String}
    {content : Dict String Fields} {room type : String} :
    receiptContent (setContent edu roomId receiptType content) room type =
      if room = roomId ∧ type = receiptType then content else receiptContent edu room type := by
  unfold receiptContent setContent
  by_cases hroom : room = roomId
  · subst hroom
    by_cases htype : type = receiptType
    · subst htype
      simp [lookup_insert]
    · simp [htype]
  · simp [hroom]

theorem receipts_filter {slot : Slot} {p : Fields → Bool} :
    (receipts edu).filter (fun e => e.1 = slot ∧ p e.2) = ((find slot edu).toList.filter p).map (slot,·) := by
  obtain ⟨roomId,receiptType,userId⟩ := slot
  -- One walk after the other, over rooms, types and users.
  unfold receipts find receiptContent
  rw [Entries.filter_flatMap roomId]
  · cases edu.lookup roomId with
    | none => simp
    | some types =>
      simp only [Option.toList_some,flatMap_singleton,Option.getD_some]
      rw [Entries.filter_flatMap receiptType]
      · cases types.lookup receiptType with
        | none => simp
        | some users =>
          simp only [Option.toList_some,flatMap_singleton,Option.getD_some]
          rw [Entries.filter_flatMap userId]
          · cases users.lookup userId with
            | none => simp
            | some s => cases hs : p s <;> simp [hs]
          · intro user hne
            simp [hne]
      · intro type hne
        simp [filter_flatMap,hne]
  · intro room hne
    simp [filter_flatMap,hne]

theorem held_eq {edus : List ReceiptContent} {slot : Slot} {thread : Option String} :
    held edus slot thread = (pending edus slot).filter (fun s => threadOf s = thread) := by
  unfold held pending
  induction edus with
  | nil => rfl
  | cons edu rest ih =>
    have hhead := @receipts_filter edu slot (fun s => threadOf s = thread)
    simp only [decide_eq_true_eq] at hhead
    rw [flatMap_cons,filter_append,map_append,ih,hhead,filterMap_cons]
    cases find slot edu with
    | none => simp
    | some s => by_cases hs : threadOf s = thread <;> simp [hs]

theorem nodup_receipts (edu : ReceiptContent) : ((receipts edu).map Prod.fst).Nodup := by
  rw [nodup_iff_count_le_one]
  intro slot
  have hone := @receipts_filter edu slot (fun _ => true)
  have hcount : ((receipts edu).map Prod.fst).count slot =
      ((receipts edu).filter fun e => e.1 = slot ∧ true).length := by
    rw [count,countP_map,countP_eq_length_filter]
    congr 2
    funext e
    simp [Bool.beq_eq_decide_eq]
  rw [hcount,hone]
  simp

def Column (edus : List ReceiptContent) (slot : Slot) (column : List ReadReceipt) : Prop :=
  ∃ n, edus.map (find slot) = (column.map fun r => some r.serialized) ++ replicate n none

variable {edus : List ReceiptContent} {slot : Slot} {column : List ReadReceipt} {r : ReadReceipt}

theorem Column.pending_eq (h : Column edus slot column) :
    pending edus slot = column.map ReadReceipt.serialized := by
  obtain ⟨n,hn⟩ := h
  have hpending : pending edus slot = (edus.map (find slot)).filterMap id := by
    rw [filterMap_map]
    rfl
  rw [hpending,hn,filterMap_append,filterMap_map,filterMap_replicate_of_none rfl, append_nil]
  exact congrFun filterMap_eq_map' column

theorem Column.drop (h : Column edus slot column) (k : ℕ) : Column (edus.drop k) slot (column.drop k) := by
  obtain ⟨n,hn⟩ := h
  refine ⟨n - (k - column.length),?_⟩
  rw [map_drop,hn,drop_append,map_drop,length_map,drop_replicate]

/-- A serialized receipt has no thread ID of its own, so the loop stops at an EDU with a receipt
of the user if and only if the new one has no thread ID. -/
theorem useEdu_of_find {old : ReadReceipt} (h : find r.slot edu = some old.serialized) :
    useEdu r (receiptContent edu r.roomId r.receiptType) = r.threadId.isNone := by
  change (receiptContent edu r.roomId r.receiptType).lookup r.userId = some old.serialized at h
  have hread : Json.field old.serialized "thread_id" = .null := rfl
  unfold useEdu
  rw [h]
  cases r.threadId <;> simp [hread,Json.sameKey,Json.number]

theorem find_setContent {content : Dict String Fields} :
    find r.slot (setContent edu r.roomId r.receiptType content) = content.lookup r.userId := by
  unfold find
  rw [receiptContent_setContent,if_pos ⟨rfl,rfl⟩]
  rfl

def putColumn (r : ReadReceipt) (column : List ReadReceipt) : List ReadReceipt :=
  if r.threadId.isNone then r :: column.tail else column ++ [r]

theorem Column.put (h : Column edus r.slot column) :
    Column (putReceipt r edus) r.slot (putColumn r column) := by
  obtain ⟨n,hn⟩ := h
  induction edus generalizing column with
  | nil =>
    have hcolumn : column = [] := by
      have hlength := congrArg length hn
      simp only [length_nil,length_append,length_map] at hlength
      exact length_eq_zero_iff.mp (by omega)
    subst hcolumn
    refine ⟨0,?_⟩
    rw [putReceipt,map_singleton,find_setContent,lookup_insert]
    simp [putColumn]
  | cons edu rest ih =>
    cases column with
    | nil =>
      cases n with
      | zero => simp at hn
      | succ n =>
        rw [map_cons,map_nil,nil_append,replicate_succ,cons.injEq] at hn
        have huse : useEdu r (receiptContent edu r.roomId r.receiptType) = true := by
          have hnone : (receiptContent edu r.roomId r.receiptType).lookup r.userId = none := hn.1
          simp [useEdu,hnone]
        refine ⟨n,?_⟩
        simp [putReceipt,huse,find_setContent,putColumn,hn.2]
    | cons old column =>
      rw [map_cons,map_cons,cons_append,cons.injEq] at hn
      have huse := useEdu_of_find hn.1
      cases hthread : r.threadId.isNone with
      | true =>
        refine ⟨n,?_⟩
        simp [putReceipt,huse,find_setContent,putColumn,hn.2,hthread]
      | false =>
        obtain ⟨m,hm⟩ := ih hn.2
        rw [hthread] at huse
        refine ⟨m,?_⟩
        have hsame : (receiptContent edu r.roomId r.receiptType).lookup r.userId = some old.serialized := hn.1
        simp only [putColumn,hthread] at hm ⊢
        simp [putReceipt,huse,find_setContent,hsame,hm]

theorem Column.put_ne (h : Column edus slot column) (hne : slot ≠ r.slot) :
    Column (putReceipt r edus) slot column := by
  have hfind : ∀ edu content, (∀ user, user ≠ r.userId → AList.lookup user content =
      (receiptContent edu r.roomId r.receiptType).lookup user) →
      find slot (setContent edu r.roomId r.receiptType content) = find slot edu := by
    intro edu content hcontent
    unfold find
    rw [receiptContent_setContent]
    split
    · rename_i hslot
      rw [hcontent,hslot.1,hslot.2]
      intro huser
      exact hne (Prod.ext hslot.1 (Prod.ext hslot.2 huser))
    · rfl
  have hinsert : ∀ edu, find slot (setContent edu r.roomId r.receiptType
      ((receiptContent edu r.roomId r.receiptType).insert r.userId r.serialized)) =
      find slot edu := by
    intro edu
    exact hfind edu _ fun user huser => lookup_insert_ne huser
  have hput : ∀ edus, (putReceipt r edus).map (find slot) = edus.map (find slot) ∨
      (putReceipt r edus).map (find slot) = edus.map (find slot) ++ [none] := by
    intro edus
    induction edus with
    | nil => exact .inr (congrArg (fun held => [held]) (hinsert ∅))
    | cons edu rest ih =>
      unfold putReceipt
      dsimp only
      split
      · exact .inl (by rw [map_cons,map_cons,hinsert])
      · rw [map_cons,map_cons,hfind edu _ fun _ _ => rfl]
        rcases ih with hsame | hmore
        · exact .inl (by rw [hsame])
        · exact .inr (by rw [hmore,cons_append])
  obtain ⟨n,hn⟩ := h
  rcases hput edus with hsame | hmore
  · exact ⟨n,hsame.trans hn⟩
  · refine ⟨n + 1,?_⟩
    rw [hmore,hn,replicate_succ',append_assoc]

inductive ReceiptOp where
  | queue (receipt : ReadReceipt)
  | drain (limit : ℤ)

/-- A queue with the latest receipt, for each room, type, user and thread, that was queued since
such a receipt was last drained. -/
structure Tracked where
  queue : ReceiptQueue
  latest : Slot → Option String → Option ReadReceipt

def Tracked.fresh (serverName destination : String) : Tracked :=
  ⟨⟨serverName,destination,[],false⟩,fun _ _ => none⟩

def Tracked.step (s : Tracked) : ReceiptOp → Tracked
  | .queue r => ⟨queueReadReceipt s.queue r,fun slot thread =>
      if slot = r.slot ∧ thread = threadOf r.serialized then some r else s.latest slot thread⟩
  | .drain limit =>
    let drained := getReceiptEdus s.queue limit
    ⟨drained.2,fun slot thread =>
      if (held (drained.1.map (·.content)) slot thread).isEmpty then s.latest slot thread else none⟩

/-- The pending EDUs together hold the latest receipts and nothing else, and each of them holds
one receipt for a room, a type and a user. -/
structure ActsAsMap (s : Tracked) : Prop where
  latest : ∀ slot thread, held s.queue.pendingReceiptEdus slot thread =
    (s.latest slot thread).toList.map ReadReceipt.serialized
  single : ∀ edu ∈ s.queue.pendingReceiptEdus, ((receipts edu).map Prod.fst).Nodup

/-- A receipt with a thread ID is the first for its thread. One without a thread ID is of the
thread of the first receipt that is pending for the user. -/
def Fits (q : ReceiptQueue) (r : ReadReceipt) : Prop :=
  match r.threadId with
  | some _ => ∀ s ∈ pending q.pendingReceiptEdus r.slot, threadOf s ≠ threadOf r.serialized
  | none => ∀ s, (pending q.pendingReceiptEdus r.slot).head? = some s →
      threadOf s = threadOf r.serialized

def Tracked.Packed (s : Tracked) : Prop :=
  ∀ slot, ∃ column, Column s.queue.pendingReceiptEdus slot column

theorem Tracked.Packed.step {s : Tracked} (h : s.Packed) (op : ReceiptOp) : (s.step op).Packed := by
  intro slot
  cases op with
  | queue r =>
    obtain ⟨column,hcolumn⟩ := h slot
    by_cases hslot : slot = r.slot
    · subst hslot
      exact ⟨_,hcolumn.put⟩
    · exact ⟨_,hcolumn.put_ne hslot⟩
  | drain limit =>
    obtain ⟨column,hcolumn⟩ := h slot
    exact ⟨_,hcolumn.drop _⟩

theorem Tracked.Packed.fresh (serverName destination : String) :
    (Tracked.fresh serverName destination).Packed :=
  fun _ => ⟨[],0,rfl⟩

theorem ActsAsMap.fresh (serverName destination : String) : ActsAsMap (Tracked.fresh serverName destination) :=
  ⟨fun _ _ => rfl,fun edu hedu => by cases hedu⟩

theorem ActsAsMap.drain {s : Tracked} (h : ActsAsMap s) (limit : ℤ) : ActsAsMap (s.step (.drain limit)) := by
  refine ⟨?_,fun edu _ => nodup_receipts edu⟩
  intro slot thread
  generalize hcut : sliceAt s.queue.pendingReceiptEdus.length limit = cut
  have hall := h.latest slot thread
  rw [← take_append_drop cut s.queue.pendingReceiptEdus] at hall
  have hsplit : ∀ xs ys, held (xs ++ ys) slot thread = held xs slot thread ++ held ys slot thread := by
    intro xs ys
    simp [held]
  rw [hsplit] at hall
  have hdrained : ((getReceiptEdus s.queue limit).1.map (·.content)) = s.queue.pendingReceiptEdus.take cut := by
    unfold getReceiptEdus
    rw [hcut,map_map]
    exact map_id _
  have hleft : (s.step (.drain limit)).queue.pendingReceiptEdus = s.queue.pendingReceiptEdus.drop cut := by
    simp [Tracked.step,getReceiptEdus,hcut]
  rw [hleft]
  simp only [Tracked.step,hdrained]
  cases htaken : held (s.queue.pendingReceiptEdus.take cut) slot thread with
  | nil =>
    rw [htaken] at hall
    simpa using hall
  | cons receipt rest =>
    have hlength := congrArg length hall
    rw [htaken] at hlength
    have hone : ((s.latest slot thread).toList.map ReadReceipt.serialized).length ≤ 1 := by
      simp
    simp only [length_append,length_cons] at hlength
    exact length_eq_zero_iff.mp (by omega)

section replace
variable {α β : Type} [DecidableEq β] {f : α → β} {c : List α} {e : α}

theorem append_only_iff : (∀ kind, (c ++ [e]).filter (fun a => f a = kind) =
      if kind = f e then [e] else c.filter fun a => f a = kind) ↔ ∀ a ∈ c, f a ≠ f e := by
  constructor
  · intro h a ha heq
    have hkind := h (f e)
    have hnil : c.filter (fun a => f a = f e) = [] := by simpa using hkind
    rw [filter_eq_nil_iff] at hnil
    exact hnil a ha (by simpa using heq)
  · intro h kind
    by_cases hkind : kind = f e
    · subst hkind
      have hnil : c.filter (fun a => f a = f e) = [] := by
        rw [filter_eq_nil_iff]
        intro a ha
        simpa using h a ha
      simp [hnil]
    · simp [hkind,Ne.symm hkind]

theorem replace_only_iff (hone : ∀ kind, (c.filter fun a => f a = kind).length ≤ 1) :
    (∀ kind, (e :: c.tail).filter (fun a => f a = kind) =
      if kind = f e then [e] else c.filter fun a => f a = kind) ↔
      ∀ a, c.head? = some a → f a = f e := by
  cases c with
  | nil =>
    simp only [head?_nil,reduceCtorEq,false_implies,implies_true,iff_true]
    intro kind
    by_cases hkind : kind = f e
    · simp [hkind]
    · simp [hkind,Ne.symm hkind]
  | cons first rest =>
    simp only [head?_cons,Option.some.injEq,forall_eq']
    constructor
    · intro h
      by_contra hne
      have hkind := congrArg length (h (f first))
      simp [hne,Ne.symm hne] at hkind
    · intro hsame kind
      by_cases hkind : kind = f e
      · have hfirst := hone (f e)
        simp only [filter_cons,hsame,decide_true,if_true,length_cons] at hfirst
        have hrest : rest.filter (fun a => f a = f e) = [] :=
          length_eq_zero_iff.mp (by omega)
        simp [hkind,hrest]
      · simp [hkind,hsame,Ne.symm hkind]

end replace

theorem actsAsMap_queue_iff {s : Tracked} (hpacked : s.Packed) (h : ActsAsMap s) :
    ActsAsMap (s.step (.queue r)) ↔ Fits s.queue r := by
  obtain ⟨column,hcolumn⟩ := hpacked r.slot
  have hbefore := hcolumn.pending_eq
  have hafter := hcolumn.put.pending_eq
  have hlatest := fun thread => (held_eq.symm.trans (h.latest r.slot thread))
  rw [hbefore] at hlatest
  have hone : ∀ thread, ((column.map ReadReceipt.serialized).filter
      fun s => threadOf s = thread).length ≤ 1 := by
    intro thread
    rw [hlatest]
    simp
  -- For other users nothing changes, so what matters is the column of the receipt.
  have hmap : ActsAsMap (s.step (.queue r)) ↔ ∀ thread,
      ((putColumn r column).map ReadReceipt.serialized).filter (fun s => threadOf s = thread) =
        if thread = threadOf r.serialized then [r.serialized]
        else (column.map ReadReceipt.serialized).filter fun s => threadOf s = thread := by
    have hheld : ∀ thread, held (s.step (.queue r)).queue.pendingReceiptEdus r.slot thread =
        ((putColumn r column).map ReadReceipt.serialized).filter fun s => threadOf s = thread := by
      intro thread
      rw [held_eq]
      exact congrArg _ hafter
    constructor
    · intro hmap thread
      rw [← hheld,hmap.latest,hlatest]
      by_cases hthread : thread = threadOf r.serialized <;> simp [Tracked.step,hthread]
    · intro hthreads
      refine ⟨?_,fun edu _ => nodup_receipts edu⟩
      intro slot thread
      by_cases hslot : slot = r.slot
      · subst hslot
        rw [hheld,hthreads,hlatest]
        by_cases hthread : thread = threadOf r.serialized <;> simp [Tracked.step,hthread]
      · obtain ⟨other,hother⟩ := hpacked slot
        have hsame := (hother.put_ne hslot).pending_eq.trans hother.pending_eq.symm
        have hstep : (s.step (.queue r)).latest slot thread = s.latest slot thread := by
          simp [Tracked.step,hslot]
        rw [hstep,← h.latest,held_eq,held_eq]
        exact congrArg _ hsame
  rw [hmap]
  unfold Fits putColumn
  rw [hbefore]
  cases r.threadId with
  | none => simpa using @replace_only_iff _ _ _ threadOf _ r.serialized hone
  | some threadId =>
    simpa using @append_only_iff _ _ _ threadOf (column.map ReadReceipt.serialized) r.serialized

/-- In a run from the empty queue the pending receipts act as a map, in every state, exactly
when every receipt fits in the queue it is put in. -/
theorem pending_receipts_map_iff (serverName destination : String) (ops : List ReceiptOp) :
    (∀ pre, pre <+: ops → ActsAsMap (pre.foldl Tracked.step (.fresh serverName destination))) ↔
      ∀ pre r, pre ++ [.queue r] <+: ops →
        Fits (pre.foldl Tracked.step (.fresh serverName destination)).queue r := by
  let C : Tracked → ReceiptOp → Prop := fun s op =>
    match op with
    | .queue r => Fits s.queue r
    | .drain _ => True
  have hstep : ∀ s op, s.Packed → ActsAsMap s → (ActsAsMap (s.step op) ↔ C s op) := by
    intro s op hpacked h
    cases op with
    | queue r => exact actsAsMap_queue_iff hpacked h
    | drain limit => exact iff_true_intro (h.drain limit)
  rw [Runs.always_iff (fun s op h => Tracked.Packed.step h op) hstep
    (.fresh serverName destination) (.fresh serverName destination)]
  constructor
  · intro h pre r hpre
    exact h pre (.queue r) hpre
  · intro h pre op hpre
    cases op with
    | queue r => exact h pre r hpre
    | drain limit => trivial

/-- A receipt without a thread replaces one for a thread. -/
theorem unthreaded_receipt_clobbers :
    let threaded : ReadReceipt := ⟨"!r","m.read","@u:s",["$1"],some "$root",[]⟩
    let unthreaded : ReadReceipt := ⟨"!r","m.read","@u:s",["$2"],none,[]⟩
    let s := [ReceiptOp.queue threaded,.queue unthreaded].foldl Tracked.step (.fresh "s" "d")
    s.latest threaded.slot (some "$root") = some threaded ∧
      held s.queue.pendingReceiptEdus threaded.slot (some "$root") = [] := by
  exact ⟨rfl,rfl⟩

end TextrpBriij.Federation
