import TextrpBriij.Foundation.Runs
import TextrpBriij.Push.EventPushActions

/-! # What rotation does to the counts

A rotation adds the push actions of a range to the counts of their threads. It counts the two
bits by two queries and writes both counts of a row that either of them returns, so a thread
with new actions of one kind only loses its old count of the other kind.
-/
namespace TextrpBriij.Push
open List AList Function Runs
open AuthChain (Dict)
open Fallible Util

def Counts (counter : Counter) (key : ThreadKey) (receipt : Option ℤ) (a : PushAction) : Bool :=
  a.key = key ∧ counter.bit a ∧ receipt.all (· < a.streamOrdering)

def tally (actions : List PushAction) (counter : Counter) (key : ThreadKey) (receipt : Option ℤ)
    (upTo : ℤ) : ℕ :=
  actions.countP fun a => Counts counter key receipt a ∧ a.streamOrdering ≤ upTo

variable {receipt : Option ℤ}

theorem tally_add {actions : List PushAction} {counter : Counter} {key : ThreadKey} {lo hi : ℤ} (h : lo ≤ hi) :
    tally actions counter key receipt hi = tally actions counter key receipt lo +
      actions.countP fun a => Counts counter key receipt a ∧ lo < a.streamOrdering ∧ a.streamOrdering ≤ hi := by
  unfold tally
  induction actions with
  | nil => rfl
  | cons a actions ih =>
    simp only [countP_cons,ih,decide_eq_true_eq]
    by_cases hcounts : Counts counter key receipt a
    · simp only [hcounts,true_and]
      by_cases hlo : a.streamOrdering ≤ lo
      · have hhi : a.streamOrdering ≤ hi := hlo.trans h
        simp only [hlo,hhi,not_lt.mpr hlo,false_and,if_false]
        omega
      · simp only [not_le.mp hlo,true_and]
        split <;> omega
    · simp [hcounts]

theorem countP_congr_of_filter {actions actions' : List PushAction} {p : PushAction → Bool}
    (h : actions.filter p = actions'.filter p) (q : PushAction → Prop) [DecidablePred q] :
    (actions.countP fun a => p a ∧ q a) = actions'.countP fun a => p a ∧ q a := by
  have hsplit : ∀ l : List PushAction, (l.countP fun a => p a ∧ q a) = (l.filter p).countP fun a => q a := by
    intro l
    rw [countP_filter]
    apply countP_congr
    intro a _
    simp [and_comm]
  rw [hsplit,hsplit,h]

namespace PushTables

variable {db : PushTables} {key : ThreadKey} {counter : Counter} {lo hi : ℤ}

def countOf (db : PushTables) (counter : Counter) (key : ThreadKey) : ℕ :=
  ((db.eventPushSummary.lookup key).map fun row => counter.count row.toNotifSummary).getD 0

def receiptOf (db : PushTables) (key : ThreadKey) : Option ℤ :=
  (db.eventPushSummary.lookup key).bind (·.lastReceiptStreamOrdering)

def inRange (db : PushTables) (counter : Counter) (key : ThreadKey) (lo hi : ℤ) : ℕ :=
  (db.toCount counter lo hi).countP fun a => a.key = key

theorem inRange_eq : db.inRange counter key lo hi =
    db.eventPushActions.countP fun a => Counts counter key (db.receiptOf key) a ∧
      lo < a.streamOrdering ∧ a.streamOrdering ≤ hi := by
  rw [inRange,toCount,countP_filter]
  apply countP_congr
  intro a _
  by_cases hkey : a.key = key
  · subst hkey
    simp [Counts,afterLastReceipt,receiptOf,and_comm,and_assoc,and_left_comm]
  · simp [Counts,hkey]

theorem nodup_newCounts : ((db.newCounts counter lo hi).map (·.key)).Nodup := by
  rw [newCounts]
  simpa [comp_def] using nodup_dedup _

theorem find_newCounts : ∃ streamOrdering, (db.newCounts counter lo hi).find? (fun row => row.key = key) =
      if 0 < db.inRange counter key lo hi then
        some ⟨key,db.countOf counter key + db.inRange counter key lo hi,streamOrdering⟩
      else none := by
  have hlength : db.inRange counter key lo hi =
      ((db.toCount counter lo hi).filter fun a => a.key = key).length := by
    rw [inRange,countP_eq_length_filter]
  have hpos : 0 < db.inRange counter key lo hi ↔ key ∈ (db.toCount counter lo hi).map (·.key) := by
    simp [inRange]
  refine ⟨(((db.toCount counter lo hi).filter fun a => a.key = key).map (·.streamOrdering)).max?.getD 0,?_⟩
  rw [newCounts,Entries.find?_groups _ CountRow.key fun _ => rfl]
  by_cases hmem : key ∈ (db.toCount counter lo hi).map (·.key)
  · rw [if_pos hmem,if_pos (hpos.mpr hmem),hlength]
    rfl
  · rw [if_neg hmem,if_neg (mt hpos.mp hmem)]

theorem lookup_mergeCounts {unread notif : List CountRow} (hunread : (unread.map (·.key)).Nodup)
    (hnotif : (notif.map (·.key)).Nodup) : (mergeCounts unread notif).lookup key =
      match notif.find? fun row => row.key = key with
      | some row => some (addNotifs ((unread.find? fun row => row.key = key).map unreadSummary) row)
      | none => (unread.find? fun row => row.key = key).map unreadSummary := by
  have hfirst : (unread.foldl (fun (summaries : Dict ThreadKey NotifSummary) row =>
      summaries.insert row.key (unreadSummary row)) ∅).lookup key =
      (unread.find? fun row => row.key = key).map unreadSummary := by
    rw [Entries.lookup_foldl_upsert CountRow.key (fun _ row => unreadSummary row) hunread]
    rfl
  rw [mergeCounts,Entries.lookup_foldl_upsert CountRow.key addNotifs hnotif,hfirst]
  cases notif.find? fun row => row.key = key <;> rfl

theorem lookup_rotate : (db.rotateNotifsBeforeTxn lo hi).eventPushSummary.lookup key =
    match (mergeCounts (db.newCounts .unread lo hi) (db.newCounts .notif lo hi)).lookup key with
    | some summary => some (upserted (db.eventPushSummary.lookup key) summary)
    | none => db.eventPushSummary.lookup key := by
  unfold rotateNotifsBeforeTxn
  generalize mergeCounts (db.newCounts .unread lo hi) (db.newCounts .notif lo hi) = summaries
  have hnodup : (summaries.entries.map Sigma.fst).Nodup := summaries.nodupKeys
  rw [Entries.lookup_foldl_upsert Sigma.fst (fun old entry => upserted old entry.2) hnodup,
    Entries.find?_entries]
  cases summaries.lookup key <;> rfl

theorem receiptOf_rotate : (db.rotateNotifsBeforeTxn lo hi).receiptOf key = db.receiptOf key := by
  rw [receiptOf,lookup_rotate]
  split
  · rfl
  · rfl

theorem rotateNotifsTxn_range {rotateCount : ℕ} {currentToken : ℤ}
    (h : db.rotatedStreamOrdering ≤ currentToken) : ∃ rotateTo, db.rotatedStreamOrdering ≤ rotateTo ∧
      (db.rotateNotifsTxn rotateCount currentToken).1 =
        db.rotateNotifsBeforeTxn db.rotatedStreamOrdering rotateTo := by
  unfold rotateNotifsTxn
  dsimp only
  split
  · rename_i offset hoffset
    refine ⟨min offset currentToken,le_min ?_ h,rfl⟩
    have hmem := mem_mergeSort.mp (mem_of_getElem? hoffset)
    exact (of_decide_eq_true (mem_filter.mp hmem).2).le
  · exact ⟨currentToken,h,rfl⟩

/-- Where only one of the queries returns a thread, there is no old count of the other kind. -/
def RotatesSafely (db : PushTables) (lo hi : ℤ) : Prop :=
  ∀ key ∈ db.eventPushSummary.keys,
    (db.inRange .notif key lo hi = 0 → 0 < db.inRange .unread key lo hi → db.countOf .notif key = 0) ∧
    (db.inRange .unread key lo hi = 0 → 0 < db.inRange .notif key lo hi → db.countOf .unread key = 0)

instance : Decidable (db.RotatesSafely lo hi) :=
  inferInstanceAs (Decidable (∀ key ∈ db.eventPushSummary.keys,(_ → _ → _) ∧ (_ → _ → _)))

theorem countOf_eq_zero (h : key ∉ db.eventPushSummary.keys) : db.countOf counter key = 0 := by
  have hnone : db.eventPushSummary.lookup key = none := lookup_eq_none.mpr h
  simp [countOf,hnone]

theorem countOf_rotate (h : db.RotatesSafely lo hi) : (db.rotateNotifsBeforeTxn lo hi).countOf counter key =
      db.countOf counter key + db.inRange counter key lo hi := by
  have hsafe : (db.inRange .notif key lo hi = 0 → 0 < db.inRange .unread key lo hi →
      db.countOf .notif key = 0) ∧ (db.inRange .unread key lo hi = 0 →
      0 < db.inRange .notif key lo hi → db.countOf .unread key = 0) := by
    by_cases hkey : key ∈ db.eventPushSummary.keys
    · exact h key hkey
    · exact ⟨fun _ _ => countOf_eq_zero hkey,fun _ _ => countOf_eq_zero hkey⟩
  obtain ⟨unreadOrdering,hunread⟩ := @find_newCounts db key .unread lo hi
  obtain ⟨notifOrdering,hnotif⟩ := @find_newCounts db key .notif lo hi
  rw [countOf,lookup_rotate,lookup_mergeCounts nodup_newCounts nodup_newCounts,hunread,hnotif]
  by_cases hu : 0 < db.inRange .unread key lo hi
  · by_cases hn : 0 < db.inRange .notif key lo hi
    · cases counter <;> simp [hu,hn,Counter.count,addNotifs,unreadSummary,upserted]
    · have hn0 : db.inRange .notif key lo hi = 0 := Nat.eq_zero_of_not_pos hn
      cases counter with
      | notif => simp [hu,hn0,Counter.count,unreadSummary,upserted,hsafe.1 hn0 hu]
      | unread => simp [hu,hn0,Counter.count,unreadSummary,upserted]
  · have hu0 : db.inRange .unread key lo hi = 0 := Nat.eq_zero_of_not_pos hu
    by_cases hn : 0 < db.inRange .notif key lo hi
    · cases counter with
      | notif => simp [hu0,hn,Counter.count,addNotifs,upserted]
      | unread => simp [hu0,hn,Counter.count,addNotifs,upserted,hsafe.2 hu0 hn]
    · have hn0 : db.inRange .notif key lo hi = 0 := Nat.eq_zero_of_not_pos hn
      cases counter <;> simp [hu0,hn0,countOf]

variable {rows : List PushAction} {userId roomId : String} {threadId : Option String} {r : ℤ}
  {cache : StreamChangeCache}

def threadCounts (rows : List PushAction) (thread : String) : ThreadCounts :=
  (rows.countP fun a => a.threadId = thread ∧ a.notif,
    rows.countP fun a => a.threadId = thread ∧ a.unread,thread)

theorem countP_thread (thread : String) (p : PushAction → Bool) :
    (rows.filter fun a => a.threadId = thread).countP p =
      rows.countP fun a => a.threadId = thread ∧ p a := by
  rw [countP_filter]
  apply countP_congr
  intro a _
  simp [and_comm]

theorem find_countsByThread (thread : String) :
    (countsByThread rows).find? (fun counts => counts.2.2 = thread) =
      if thread ∈ rows.map (·.threadId) then some (threadCounts rows thread) else none := by
  rw [countsByThread,Entries.find?_groups _ (fun counts : ThreadCounts => counts.2.2) fun _ => rfl]
  simp only [countP_thread,threadCounts]

theorem threadCounts_of_notMem {thread : String} (h : thread ∉ rows.map (·.threadId)) :
    threadCounts rows thread = (0,0,thread) := by
  have hzero : ∀ p : PushAction → Bool, rows.countP (fun a => a.threadId = thread ∧ p a) = 0 := by
    intro p
    rw [countP_eq_zero]
    intro a ha hmatch
    exact h (mem_map.mpr ⟨a,ha,(of_decide_eq_true hmatch).1⟩)
  simp only [threadCounts,hzero]

theorem countsByThread_of_thread {thread : String} (h : ∀ a ∈ rows, a.threadId = thread) :
    (if countsByThread rows = [] then [(0,0,thread)] else countsByThread rows) =
      [threadCounts rows thread] := by
  cases rows with
  | nil => rfl
  | cons a rows =>
    have hthreads : ((a :: rows).map (·.threadId)).dedup = [thread] := by
      rw [map_eq_replicate_iff.mpr h]
      exact replicate_dedup (Nat.succ_ne_zero _)
    simp only [countsByThread,hthreads,map_singleton,countP_thread]
    rfl

theorem lookup_setThreads {counts : List ThreadCounts} {rotated : ℤ}
    {summary : Dict ThreadKey SummaryRow} (hnodup : (counts.map fun c => c.2.2).Nodup) :
    (counts.foldl (setThread userId roomId rotated r) summary).lookup key = (summary.lookup key).map fun row =>
        match if key.1 = userId ∧ key.2.1 = roomId then counts.find? (fun c => c.2.2 = key.2.2)
          else none with
        | some c => readUpTo rotated r c
        | none => row := by
  induction counts generalizing summary with
  | nil => simp
  | cons c counts ih =>
    rw [map_cons,nodup_cons] at hnodup
    rw [foldl_cons,ih hnodup.2,setThread,Entries.lookup_mapValues,Option.map_map]
    congr 1
    funext row
    obtain ⟨user,room,thread⟩ := key
    by_cases hroom : user = userId ∧ room = roomId
    · by_cases hthread : c.2.2 = thread
      · have hnone := Entries.find?_eq_none_of_notMem (hthread ▸ hnodup.1)
        simp [hroom,hthread,hnone]
      · simp [hthread,Ne.symm hthread]
    · have hne : (user,room,thread) ≠ (userId,roomId,c.2.2) := by
        intro heq
        simp only [Prod.mk.injEq] at heq
        exact hroom ⟨heq.1,heq.2.1⟩
      simp [hroom,hne]

theorem nodup_countsByThread : ((countsByThread rows).map fun c => c.2.2).Nodup := by
  rw [countsByThread]
  simpa [comp_def] using nodup_dedup _

/-- The cache is right that a room has no push actions after a position. -/
def CacheSound (db : PushTables) (cache : StreamChangeCache) : Prop :=
  ∀ a ∈ db.eventPushActions, ∀ streamOrdering < a.streamOrdering,
    cache.hasEntityChanged a.roomId streamOrdering = true

def counted (db : PushTables) (roomId userId : String) (streamOrdering : ℤ)
    (maxStreamOrdering : Option ℤ) (threadId : Option String) : List PushAction :=
  db.eventPushActions.filter fun a => isFor userId roomId threadId a ∧
    streamOrdering < a.streamOrdering ∧ maxStreamOrdering.all (a.streamOrdering ≤ ·)

theorem getNotifUnreadCountForUserRoom_eq (hcache : db.CacheSound cache) {maxStreamOrdering : Option ℤ} :
    db.getNotifUnreadCountForUserRoom cache roomId userId r maxStreamOrdering threadId =
      countsByThread (db.counted roomId userId r maxStreamOrdering threadId) := by
  have hnil : db.counted roomId userId r maxStreamOrdering threadId = [] →
      [] = countsByThread (db.counted roomId userId r maxStreamOrdering threadId) := by
    intro h
    rw [h]
    rfl
  unfold getNotifUnreadCountForUserRoom
  split
  · rename_i hunchanged
    apply hnil
    rw [counted,filter_eq_nil_iff]
    intro a ha hmatch
    obtain ⟨hfor,hlt,-⟩ := of_decide_eq_true hmatch
    have hchanged := hcache a ha r hlt
    simp only [isFor,decide_eq_true_eq] at hfor
    rw [hfor.2.1,hunchanged] at hchanged
    cases hchanged
  split
  · rename_i hmax
    apply hnil
    rw [counted,filter_eq_nil_iff]
    intro a ha hmatch
    obtain ⟨-,hlt,hle⟩ := of_decide_eq_true hmatch
    obtain ⟨m,rfl,hm⟩ := (Option.any_eq_true ..).mp hmax
    simp only [Option.all_some,decide_eq_true_eq] at hle hm
    omega
  · rfl

@[simp] theorem rotated_deleteRead :
    (db.deleteRead roomId userId threadId r).rotatedStreamOrdering = db.rotatedStreamOrdering := rfl

theorem lookup_handleReceipt (hcache : db.CacheSound cache) :
    (handleReceipt cache db roomId userId threadId r).eventPushSummary.lookup key =
      (db.eventPushSummary.lookup key).map fun row =>
        if key.1 = userId ∧ key.2.1 = roomId ∧ threadId.all (· = key.2.2) then
          readUpTo db.rotatedStreamOrdering r (threadCounts ((db.deleteRead roomId userId threadId
            r).counted roomId userId r (some db.rotatedStreamOrdering) threadId) key.2.2)
        else row := by
  have hdeleted : (db.deleteRead roomId userId threadId r).CacheSound cache :=
    fun a ha => hcache a (mem_of_mem_filter ha)
  obtain ⟨user,room,thread⟩ := key
  unfold handleReceipt
  simp only [rotated_deleteRead,getNotifUnreadCountForUserRoom_eq hdeleted]
  have hthreads : ∀ t, threadId = some t → ∀ a ∈ (db.deleteRead roomId userId threadId r).counted
      roomId userId r (some db.rotatedStreamOrdering) threadId, a.threadId = t := by
    rintro t rfl a ha
    have hfor := (of_decide_eq_true (mem_filter.mp ha).2).1
    simp only [isFor,Option.all_some,decide_eq_true_eq] at hfor
    exact hfor.2.2.symm
  generalize (db.deleteRead roomId userId threadId r).counted roomId userId r
    (some db.rotatedStreamOrdering) threadId = rows at hthreads ⊢
  cases threadId with
  | none =>
    rw [lookup_setThreads nodup_countsByThread,clearRoom,Entries.lookup_mapValues,Option.map_map]
    congr 1
    funext row
    by_cases hroom : user = userId ∧ room = roomId
    · by_cases hmem : thread ∈ rows.map (·.threadId)
      · simp only [comp_apply,hroom,and_self,if_true,find_countsByThread,if_pos hmem, Option.all_none]
      · simp only [comp_apply,hroom,and_self,if_true,find_countsByThread,if_neg hmem,
          Option.all_none,threadCounts_of_notMem hmem]
    · simp [hroom]
  | some t =>
    dsimp only
    rw [countsByThread_of_thread (hthreads t rfl),lookup_setThreads (by simp)]
    congr 1
    funext row
    by_cases hroom : user = userId ∧ room = roomId
    · by_cases ht : t = thread
      · simp [hroom,ht,threadCounts]
      · simp [ht,threadCounts]
    · simp [← and_assoc,hroom]

/-- The counts of all rows are those of the actions ever added, and no action that may yet have
to be counted was deleted. -/
structure Inv (db : PushTables) (cache : StreamChangeCache) (added : List PushAction) : Prop where
  exact : ∀ counter key, db.countOf counter key =
    tally added counter key (db.receiptOf key) db.rotatedStreamOrdering
  kept : ∀ counter key, db.eventPushActions.filter (Counts counter key (db.receiptOf key)) =
    added.filter (Counts counter key (db.receiptOf key))
  sub : ∀ a ∈ db.eventPushActions, a ∈ added
  cache : cache.Valid fun room pos => ∃ a ∈ added, a.roomId = room ∧ a.streamOrdering = pos

variable {added : List PushAction}

theorem Inv.cacheSound (h : db.Inv cache added) : db.CacheSound cache := by
  intro a ha streamOrdering hlt
  exact StreamChangeCache.hasEntityChanged_of_changed h.cache ⟨a,h.sub a ha,rfl,rfl⟩ hlt

theorem Inv.rotate {rotateTo : ℤ} (h : db.Inv cache added) (hle : db.rotatedStreamOrdering ≤ rotateTo)
    (hsafe : db.RotatesSafely db.rotatedStreamOrdering rotateTo) :
    (db.rotateNotifsBeforeTxn db.rotatedStreamOrdering rotateTo).Inv cache added where
  exact counter key := by
    rw [countOf_rotate hsafe,receiptOf_rotate,h.exact,inRange_eq]
    rw [countP_congr_of_filter (h.kept counter key)]
    exact (tally_add hle).symm
  kept counter key := by
    rw [receiptOf_rotate]
    exact h.kept counter key
  sub := h.sub
  cache := h.cache

/-- An action of a thread that a receipt reads is there to be counted again, or has been read in
its row: one that is deleted belongs to a thread with a row, and one after the receipt is after the
last receipt of its row. -/
def ActionSafe (r : ℤ) (a : PushAction) : Option SummaryRow → Prop
  | none => a.highlight = false → r < a.streamOrdering
  | some row => r < a.streamOrdering → row.lastReceiptStreamOrdering.all (· < a.streamOrdering)

instance {a : PushAction} : ∀ row, Decidable (ActionSafe r a row)
  | none => inferInstanceAs (Decidable (_ → _))
  | some _ => inferInstanceAs (Decidable (_ → _))

def ReceiptSafe (db : PushTables) (added : List PushAction) (roomId userId : String)
    (threadId : Option String) (r : ℤ) : Prop :=
  ∀ a ∈ added, isFor userId roomId threadId a → a.notif ∨ a.unread →
    ActionSafe r a (db.eventPushSummary.lookup a.key)

instance : Decidable (db.ReceiptSafe added roomId userId threadId r) :=
  inferInstanceAs (Decidable (∀ a ∈ added, _ → _ → ActionSafe r a _))

theorem receiptOf_handleReceipt (hcache : db.CacheSound cache) :
    (handleReceipt cache db roomId userId threadId r).receiptOf key =
      if key.1 = userId ∧ key.2.1 = roomId ∧ threadId.all (· = key.2.2) then
        (db.eventPushSummary.lookup key).map fun _ => r else db.receiptOf key := by
  rw [receiptOf,receiptOf,lookup_handleReceipt hcache]
  split
  all_goals cases db.eventPushSummary.lookup key <;> rfl

theorem actions_handleReceipt : (handleReceipt cache db roomId userId threadId r).eventPushActions =
      db.eventPushActions.filter fun a => ¬(isFor userId roomId threadId a ∧
        a.streamOrdering ≤ r ∧ a.highlight = false) := by
  rfl

variable {a : PushAction}

theorem counts_isFor (h : Counts counter key receipt a) :
    a.key = key ∧ counter.bit a ∧ receipt.all (· < a.streamOrdering) :=
  of_decide_eq_true h

theorem bit_cases (h : counter.bit a) : a.notif ∨ a.unread := by
  cases counter with
  | notif => exact .inl h
  | unread => exact .inr h

section
variable (h : db.Inv cache added) (hsafe : db.ReceiptSafe added roomId userId threadId r)
include h hsafe

theorem Inv.counts_handleReceipt (ha : a ∈ added) (hcounts : Counts counter key
      ((handleReceipt cache db roomId userId threadId r).receiptOf key) a) :
    Counts counter key (db.receiptOf key) a ∧
      ¬(isFor userId roomId threadId a ∧ a.streamOrdering ≤ r ∧ a.highlight = false) := by
  obtain ⟨rfl,hbit,hafter⟩ := counts_isFor hcounts
  rw [receiptOf_handleReceipt h.cacheSound] at hafter
  have hread := hsafe a ha
  by_cases hfor : a.key.1 = userId ∧ a.key.2.1 = roomId ∧ threadId.all (· = a.key.2.2)
  · have hread := hread (decide_eq_true hfor) (bit_cases hbit)
    rw [if_pos hfor] at hafter
    rw [receiptOf]
    cases hrow : db.eventPushSummary.lookup a.key with
    | none =>
      rw [hrow] at hread
      refine ⟨decide_eq_true ⟨rfl,hbit,rfl⟩,fun hdeleted => ?_⟩
      have hlt := hread hdeleted.2.2
      omega
    | some row =>
      rw [hrow] at hread hafter
      have hlt : r < a.streamOrdering := of_decide_eq_true hafter
      exact ⟨decide_eq_true ⟨rfl,hbit,hread hlt⟩,fun hdeleted => by omega⟩
  · rw [if_neg hfor] at hafter
    exact ⟨decide_eq_true ⟨rfl,hbit,hafter⟩,fun hdeleted => hfor (of_decide_eq_true hdeleted.1)⟩

theorem Inv.kept_handleReceipt (counter : Counter) (key : ThreadKey) :
    (handleReceipt cache db roomId userId threadId r).eventPushActions.filter (Counts counter key
        ((handleReceipt cache db roomId userId threadId r).receiptOf key)) =
      added.filter (Counts counter key ((handleReceipt cache db roomId userId threadId r).receiptOf key)) := by
  have hfact := fun a ha => @Inv.counts_handleReceipt db key counter userId roomId threadId r cache
    added a h hsafe ha
  generalize (handleReceipt cache db roomId userId threadId r).receiptOf key = receipt at hfact ⊢
  have hfilter : ∀ (l : List PushAction) (p : PushAction → Bool), (∀ a ∈ l, a ∈ added) →
      (∀ a ∈ added, Counts counter key receipt a → p a) →
        (l.filter p).filter (Counts counter key receipt) = l.filter (Counts counter key receipt) := by
    intro l p hl hp
    rw [filter_filter]
    apply filter_congr
    intro a ha
    cases hcounts : Counts counter key receipt a with
    | false => rfl
    | true => simp [hp a (hl a ha) hcounts]
  have hold := fun a ha hcounts => (hfact a ha hcounts).1
  rw [actions_handleReceipt,hfilter _ _ h.sub fun a ha hcounts => decide_eq_true (hfact a ha hcounts).2,
    ← hfilter _ _ h.sub hold,h.kept,hfilter _ _ (fun _ ha => ha) hold]

end

theorem count_readUpTo {rotated : ℤ} (hfor : key.1 = userId ∧ key.2.1 = roomId ∧ threadId.all (· = key.2.2)) :
    counter.count (readUpTo rotated r (threadCounts (db.counted roomId userId r (some rotated)
      threadId) key.2.2)).toNotifSummary = tally db.eventPushActions counter key (some r) rotated := by
  have hcount : ∀ p : PushAction → Bool, ((db.counted roomId userId r (some rotated)
      threadId).countP fun a => a.threadId = key.2.2 ∧ p a) = db.eventPushActions.countP fun a =>
        a.key = key ∧ p a ∧ r < a.streamOrdering ∧ a.streamOrdering ≤ rotated := by
    intro p
    rw [counted,countP_filter]
    apply countP_congr
    intro a _
    have hkey : a.key = key ↔ a.threadId = key.2.2 ∧ isFor userId roomId threadId a := by
      constructor
      · rintro rfl
        exact ⟨rfl,decide_eq_true hfor⟩
      · rintro ⟨hthread,hisFor⟩
        obtain ⟨huser,hroom,-⟩ := of_decide_eq_true hisFor
        exact Prod.ext (huser.trans hfor.1.symm) (Prod.ext (hroom.trans hfor.2.1.symm) hthread)
    simp only [hkey,Option.all_some,Bool.and_eq_true,decide_eq_true_eq]
    tauto
  have htally : tally db.eventPushActions counter key (some r) rotated =
      db.eventPushActions.countP fun a => a.key = key ∧ counter.bit a ∧ r < a.streamOrdering ∧
        a.streamOrdering ≤ rotated := by
    apply countP_congr
    intro a _
    simp [Counts,and_assoc]
  rw [htally,← hcount]
  cases counter <;> rfl

theorem Inv.handleReceipt (h : db.Inv cache added) (hsafe : db.ReceiptSafe added roomId userId threadId r) :
    (handleReceipt cache db roomId userId threadId r).Inv cache added where
  exact counter key := by
    have hkept := h.kept_handleReceipt hsafe counter key
    have hrotated : (PushTables.handleReceipt cache db roomId userId threadId
        r).rotatedStreamOrdering = db.rotatedStreamOrdering := by
      cases threadId <;> rfl
    rw [receiptOf_handleReceipt h.cacheSound] at hkept ⊢
    rw [hrotated,countOf,lookup_handleReceipt h.cacheSound]
    by_cases hfor : key.1 = userId ∧ key.2.1 = roomId ∧ threadId.all (· = key.2.2)
    · rw [if_pos hfor] at hkept ⊢
      cases hrow : db.eventPushSummary.lookup key with
      | none =>
        have hexact := h.exact counter key
        rwa [countOf,receiptOf,hrow] at hexact
      | some row =>
        rw [hrow,actions_handleReceipt] at hkept
        rw [Option.map_some,if_pos hfor,Option.map_some,Option.getD_some,count_readUpTo hfor]
        exact countP_congr_of_filter hkept _
    · rw [if_neg hfor,← h.exact,countOf]
      simp only [if_neg hfor]
      cases db.eventPushSummary.lookup key <;> rfl
  kept := h.kept_handleReceipt hsafe
  sub a ha := by
    exact h.sub a (mem_of_mem_filter ha)
  cache := h.cache

variable {isMine userFilter : String → Bool}

def ReceiptsSafe (cache : StreamChangeCache) (isMine : String → Bool) (added : List PushAction) :
    PushTables → List ReceiptRow → Prop
  | _, [] => True
  | db, row :: rows =>
    if isMine row.userId then
      match row.eventStreamOrdering with
      | none => True
      | some r => db.ReceiptSafe added row.roomId row.userId row.threadId r ∧
        ReceiptsSafe cache isMine added (handleReceipt cache db row.roomId row.userId row.threadId r) rows
    else ReceiptsSafe cache isMine added db rows

instance decidableReceiptsSafe : ∀ (db : PushTables) (rows : List ReceiptRow),
    Decidable (ReceiptsSafe cache isMine added db rows)
  | _, [] => isTrue trivial
  | db, row :: rows =>
    have := fun db => decidableReceiptsSafe db rows
    match hr : row.eventStreamOrdering with
    | none => decidable_of_iff (if isMine row.userId then True
        else ReceiptsSafe cache isMine added db rows) (by rw [ReceiptsSafe,hr])
    | some r => decidable_of_iff (if isMine row.userId then
        db.ReceiptSafe added row.roomId row.userId row.threadId r ∧ ReceiptsSafe cache isMine added
          (PushTables.handleReceipt cache db row.roomId row.userId row.threadId r) rows
        else ReceiptsSafe cache isMine added db rows) (by rw [ReceiptsSafe,hr])

theorem Inv.handleReceipts {rows : List ReceiptRow} {db' : PushTables} (h : db.Inv cache added)
    (hsafe : ReceiptsSafe cache isMine added db rows)
    (hok : handleReceipts cache isMine db rows = .ok db') : db'.Inv cache added := by
  induction rows generalizing db with
  | nil =>
    cases hok
    exact h
  | cons row rows ih =>
    unfold PushTables.handleReceipts at hok
    unfold ReceiptsSafe at hsafe
    split at hok
    · rename_i hmine
      rw [if_pos hmine] at hsafe
      split at hok
      · cases hok
      · rename_i r hr
        simp only [hr] at hsafe
        exact ih (h.handleReceipt hsafe.1) hsafe.2 hok
    · rename_i hmine
      rw [if_neg hmine] at hsafe
      exact ih h hsafe hok

theorem tally_append {upTo : ℤ} (h : upTo < a.streamOrdering) :
    tally (added ++ [a]) counter key receipt upTo = tally added counter key receipt upTo := by
  have hnot : ¬a.streamOrdering ≤ upTo := not_le.mpr h
  rw [tally,tally]
  simp [hnot]

theorem Inv.addPushAction (h : db.Inv cache added) (habove : db.rotatedStreamOrdering < a.streamOrdering) :
    ({ db with eventPushActions := db.eventPushActions ++ [a] } : PushTables).Inv
      (cache.entityHasChanged a.roomId a.streamOrdering) (added ++ [a]) where
  exact counter key := by
    rw [tally_append habove]
    exact h.exact counter key
  kept counter key := by
    have hkept := h.kept counter key
    change (db.eventPushActions ++ [a]).filter (Counts counter key (db.receiptOf key)) =
      (added ++ [a]).filter (Counts counter key (db.receiptOf key))
    rw [filter_append,filter_append,hkept]
  sub b hb := by
    rcases mem_append.mp hb with hold | hnew
    · exact mem_append_left _ (h.sub b hold)
    · exact mem_append_right _ hnew
  cache := by
    have hcache := h.cache.entityHasChanged a.roomId a.streamOrdering
    refine ⟨hcache.inSync,?_⟩
    rintro room pos ⟨b,hb,rfl,rfl⟩ hpos
    apply hcache.sound b.roomId b.streamOrdering ?_ hpos
    rcases mem_append.mp hb with hold | hnew
    · exact .inl ⟨b,hold,rfl,rfl⟩
    · obtain rfl := mem_singleton.mp hnew
      exact .inr ⟨rfl,rfl⟩

theorem Inv.handleNewReceipts {maxReceiptsStreamId : ℤ} {db' : PushTables} {caughtUp : Bool}
    (h : db.Inv cache added)
    (hsafe : ReceiptsSafe cache isMine added db (db.newReceipts userFilter maxReceiptsStreamId))
    (hok : db.handleNewReceiptsForNotifsTxn cache isMine userFilter maxReceiptsStreamId =
      .ok (db',caughtUp)) : db'.Inv cache added := by
  obtain ⟨handled,hhandled,hrest⟩ := bind_eq_ok.mp hok
  cases hrest
  have hinv := h.handleReceipts hsafe hhandled
  exact { hinv with }

end PushTables

/-- The tables and the cache, with every push action ever added. -/
structure PushWorld where
  tables : PushTables
  cache : StreamChangeCache
  added : List PushAction

inductive PushStep
  | addPushAction (a : PushAction)
  | insertReceipt (row : ReceiptRow)
  | handleNewReceipts (maxReceiptsStreamId : ℤ)
  | rotate (rotateTo : ℤ)

namespace PushWorld

variable {isMine userFilter : String → Bool} {w w' : PushWorld} {a : PushStep}

/-- New actions are above the rotated position, and a range starts where the last one ended. A
transaction that fails changes nothing. -/
def step (isMine userFilter : String → Bool) (w : PushWorld) : PushStep → Option PushWorld
  | .addPushAction a =>
    if w.tables.rotatedStreamOrdering < a.streamOrdering then
      some ⟨{ w.tables with eventPushActions := w.tables.eventPushActions ++ [a] },
        w.cache.entityHasChanged a.roomId a.streamOrdering,w.added ++ [a]⟩
    else none
  | .insertReceipt row =>
    some { w with tables := { w.tables with
      receiptsLinearized := (w.tables.receiptsLinearized.filter fun r => ¬(r.roomId = row.roomId ∧
        r.receiptType = row.receiptType ∧ r.userId = row.userId ∧ r.threadId = row.threadId)) ++ [row] } }
  | .handleNewReceipts maxReceiptsStreamId =>
    match w.tables.handleNewReceiptsForNotifsTxn w.cache isMine userFilter maxReceiptsStreamId with
    | .ok (tables,_) => some { w with tables := tables }
    | .error _ => some w
  | .rotate rotateTo =>
    if w.tables.rotatedStreamOrdering ≤ rotateTo then
      some { w with tables := w.tables.rotateNotifsBeforeTxn w.tables.rotatedStreamOrdering rotateTo }
    else none

/-- No rotation finds new actions of one kind only in a thread with an old count of the other
kind, and the receipts that are handled are safe. -/
def KeepsCounts (isMine userFilter : String → Bool) (w : PushWorld) : PushStep → Prop
  | .addPushAction _ => True
  | .insertReceipt _ => True
  | .handleNewReceipts maxReceiptsStreamId =>
    PushTables.ReceiptsSafe w.cache isMine w.added w.tables
      (w.tables.newReceipts userFilter maxReceiptsStreamId)
  | .rotate rotateTo => w.tables.RotatesSafely w.tables.rotatedStreamOrdering rotateTo

instance : ∀ a, Decidable (w.KeepsCounts isMine userFilter a)
  | .addPushAction _ => isTrue trivial
  | .insertReceipt _ => isTrue trivial
  | .handleNewReceipts _ => PushTables.decidableReceiptsSafe ..
  | .rotate _ => inferInstanceAs (Decidable (PushTables.RotatesSafely ..))

/-- Before the first push action. -/
structure Start (w : PushWorld) : Prop where
  actions : w.tables.eventPushActions = []
  summary : w.tables.eventPushSummary = ∅
  added : w.added = []
  cache : w.cache.Valid fun _ _ => False

/-- Every count is that of the actions ever added after the receipt of its row. -/
def Exact (w : PushWorld) : Prop :=
  ∀ key row, w.tables.eventPushSummary.lookup key = some row → ∀ counter : Counter,
    counter.count row.toNotifSummary = w.added.countP fun a => a.key = key ∧ counter.bit a ∧
      row.lastReceiptStreamOrdering.all (· < a.streamOrdering) ∧
        a.streamOrdering ≤ w.tables.rotatedStreamOrdering

theorem Start.inv (h : w.Start) : w.tables.Inv w.cache w.added where
  exact counter key := by
    rw [PushTables.countOf,h.summary,h.added]
    rfl
  kept counter key := by rw [h.actions,h.added]
  sub b hb := by
    rw [h.actions] at hb
    cases hb
  cache := by
    refine ⟨h.cache.inSync,?_⟩
    rintro room pos ⟨b,hb,-⟩
    rw [h.added] at hb
    cases hb

theorem inv_step (h : w.tables.Inv w.cache w.added) (hkeeps : w.KeepsCounts isMine userFilter a)
    (hstep : w.step isMine userFilter a = some w') : w'.tables.Inv w'.cache w'.added := by
  cases a with
  | addPushAction a =>
    obtain ⟨habove,hw⟩ := Option.ite_none_right_eq_some.mp hstep
    cases hw
    exact h.addPushAction habove
  | insertReceipt row =>
    cases hstep
    exact { h with }
  | handleNewReceipts maxReceiptsStreamId =>
    simp only [step] at hstep
    split at hstep
    · rename_i tables caughtUp hok
      cases hstep
      exact h.handleNewReceipts hkeeps hok
    · cases hstep
      exact h
  | rotate rotateTo =>
    obtain ⟨hle,hw⟩ := Option.ite_none_right_eq_some.mp hstep
    cases hw
    exact h.rotate hle hkeeps

/-- The counts stay exact along every run whose steps keep them. -/
theorem counts_exact_of_keepsCounts (isMine userFilter : String → Bool) {w w' : PushWorld}
    (hstart : w.Start) {steps : List PushStep}
    (hrun : run (guarded (KeepsCounts isMine userFilter) (step isMine userFilter)) w
      steps = some w') : w'.Exact := by
  have hinv : w'.tables.Inv w'.cache w'.added := by
    refine run_preserves (I := fun w => w.tables.Inv w.cache w.added) ?_ hstart.inv hrun
    intro w a w' h hstep
    obtain ⟨hkeeps,hstep⟩ := guarded_eq_some.mp hstep
    exact inv_step h hkeeps hstep
  intro key row hrow counter
  have hexact := hinv.exact counter key
  rw [PushTables.countOf,PushTables.receiptOf,hrow] at hexact
  refine hexact.trans (countP_congr fun a _ => ?_)
  simp [Counts,and_assoc]

def quiet : PushWorld := ⟨⟨[],∅,[],0,0⟩,⟨10,∅,∅,0⟩,[]⟩

theorem quiet_start : quiet.Start := by
  refine ⟨rfl,rfl,rfl,?_,fun _ _ h => h.elim⟩
  intro entity pos
  simp [quiet,StreamChangeCache.entitiesAt]

def mainAction (streamOrdering : ℤ) (notif unread : Bool) : PushAction :=
  ⟨"@u:h","!r:h","main",streamOrdering,notif,unread,false⟩

theorem counts_exact_two_rotations : quiet.Start ∧ ∃ w,
    run (guarded (KeepsCounts (fun _ => true) fun _ => true)
      (step (fun _ => true) fun _ => true)) quiet
      [.addPushAction (mainAction 1 true true),.rotate 1,.addPushAction (mainAction 2 true true),
        .addPushAction (mainAction 3 true true),.rotate 2,
        .insertReceipt ⟨1,"!r:h","m.read","@u:h",none,some 1⟩,.handleNewReceipts 1,.rotate 3] =
          some w ∧ w.tables.countOf .notif ("@u:h","!r:h","main") = 2 ∧ w.Exact := by
  refine ⟨quiet_start,_,(Option.some_get (by decide +kernel)).symm,by decide +kernel,?_⟩
  exact counts_exact_of_keepsCounts _ _ quiet_start (Option.some_get _).symm

/-- A message that is unread without notifying makes the next rotation forget a notification. -/
theorem unread_message_loses_notification : quiet.Start ∧ ∃ w,
    run (step (fun _ => true) fun _ => true) quiet
      [.addPushAction (mainAction 1 true true),.rotate 1,.addPushAction (mainAction 2 false true),
        .rotate 2] = some w ∧
      w.tables.countOf .notif ("@u:h","!r:h","main") = 0 ∧
      w.added.countP (fun a => a.key = ("@u:h","!r:h","main") ∧ a.notif ∧
        a.streamOrdering ≤ w.tables.rotatedStreamOrdering) = 1 ∧ ¬w.Exact := by
  refine ⟨quiet_start,_,(Option.some_get (by decide +kernel)).symm,by decide +kernel,by decide +kernel,?_⟩
  intro hexact
  have hrow := hexact ("@u:h","!r:h","main") _ (Option.some_get (by decide +kernel)).symm .notif
  exact absurd hrow (by decide +kernel)

end PushWorld

end TextrpBriij.Push
