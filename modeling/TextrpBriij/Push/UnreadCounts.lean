import TextrpBriij.Push.NotifRotation

/-! # Unread counts by thread

The counts of a user in a room are assembled from the summaries that are not out of date, the
highlights, the push actions since the last rotation for summarised threads, and all push actions
for the other threads. The variable that the first loop leaves behind is what the third one adds
the counts of the main timeline to.
-/
namespace TextrpBriij.Push
open List
open AuthChain (Dict)
open Util

def mainTimeline : String := "main"

@[ext] structure NotifCounts where
  notifyCount : ℕ := 0
  unreadCount : ℕ := 0
  highlightCount : ℕ := 0
deriving DecidableEq

structure RoomNotifCounts where
  mainTimeline : NotifCounts
  threads : Dict String NotifCounts

def NotifCounts.add (counts more : NotifCounts) : NotifCounts :=
  ⟨counts.notifyCount + more.notifyCount,counts.unreadCount + more.unreadCount,
    counts.highlightCount + more.highlightCount⟩

namespace RoomNotifCounts

def empty : RoomNotifCounts := ⟨{},∅⟩

/-- Adds to the object that `_get_thread` returns. A thread has one such object from its first use
on, so that a variable that holds one is modelled by the thread. -/
def addTo (counts : RoomNotifCounts) (threadId : String) (more : NotifCounts) : RoomNotifCounts :=
  if threadId = Push.mainTimeline then { counts with mainTimeline := counts.mainTimeline.add more }
  else
    let old := (counts.threads.lookup threadId).getD {}
    { counts with threads := counts.threads.insert threadId (old.add more) }

def of (counts : RoomNotifCounts) (threadId : String) : NotifCounts :=
  if threadId = Push.mainTimeline then counts.mainTimeline
  else (counts.threads.lookup threadId).getD {}

end RoomNotifCounts

namespace PushTables

variable (db : PushTables) (roomId userId : String) (unthreaded : ℤ)

/-- `COALESCE(threaded_receipt_stream_ordering, ?)` -/
def receiptStreamOrdering (threadId : String) : ℤ :=
  ((db.receiptsLinearized.filter fun r => r.userId = userId ∧ r.roomId = roomId ∧
    r.eventStreamOrdering.any (unthreaded < ·) ∧ r.receiptType ∈ ["m.read","m.read.private"] ∧
      r.threadId = some threadId).filterMap (·.eventStreamOrdering)).max?.getD unthreaded

def isUpToDate (row : SummaryRow) (receipt : ℤ) : Bool :=
  ((row.lastReceiptStreamOrdering = none ∧ receipt < row.streamOrdering) ∨
    row.lastReceiptStreamOrdering = some receipt) ∧ (row.notifCount ≠ 0 ∨ row.unreadCount ≠ 0)

/-- The first query, in the order of the table. -/
def summaries : List ThreadCounts :=
  (db.eventPushSummary.entries.filter fun entry => entry.1.1 = userId ∧ entry.1.2.1 = roomId ∧
    isUpToDate entry.2 (db.receiptStreamOrdering roomId userId unthreaded entry.1.2.2)).map
      fun entry => (entry.2.notifCount,entry.2.unreadCount,entry.1.2.2)

def unreadActions : List PushAction :=
  db.eventPushActions.filter fun a => a.userId = userId ∧ a.roomId = roomId ∧
    db.receiptStreamOrdering roomId userId unthreaded a.threadId < a.streamOrdering

def highlightCounts : List (ℕ × String) :=
  let rows := (db.unreadActions roomId userId unthreaded).filter (·.highlight)
  (rows.map (·.threadId)).dedup.map fun threadId =>
    ((rows.filter fun a => a.threadId = threadId).length,threadId)

/-- One round of the loop over the counts since the last rotation. The variable `counts` still
holds the object of the last summary, and there is one where a thread was summarised. -/
def addSinceRotation (summarisedThreads : List String) (counts : RoomNotifCounts)
    (row : ThreadCounts) : RoomNotifCounts :=
  if row.2.2 ∉ summarisedThreads then counts
  else if row.2.2 = mainTimeline then
    match summarisedThreads.getLast? with
    | some threadId => counts.addTo threadId ⟨row.1,row.2.1,0⟩
    | none => counts
  else counts.addTo row.2.2 ⟨row.1,row.2.1,0⟩

def getUnreadCountsByPosTxn (db : PushTables) (cache : StreamChangeCache) (roomId userId : String)
    (unthreaded : ℤ) : RoomNotifCounts :=
  let addRow := fun (counts : RoomNotifCounts) (row : ThreadCounts) =>
    counts.addTo row.2.2 ⟨row.1,row.2.1,0⟩
  let summaries := db.summaries roomId userId unthreaded
  let summarisedThreads := summaries.map (·.2.2)
  let counts := summaries.foldl addRow .empty
  let counts := (db.highlightCounts roomId userId unthreaded).foldl
    (fun counts row => counts.addTo row.2 ⟨0,0,row.1⟩) counts
  let counts := (db.getNotifUnreadCountForUserRoom cache roomId userId db.rotatedStreamOrdering
    none none).foldl (addSinceRotation summarisedThreads) counts
  (countsByThread ((db.unreadActions roomId userId unthreaded).filter fun a =>
    a.threadId ∉ summarisedThreads)).foldl addRow counts

end PushTables

structure Additive (count : NotifCounts → ℕ) : Prop where
  zero : count {} = 0
  add : ∀ counts more, count (counts.add more) = count counts + count more

def Counter.of : Counter → NotifCounts → ℕ
  | .notif, counts => counts.notifyCount
  | .unread, counts => counts.unreadCount

theorem Counter.additive (counter : Counter) : Additive counter.of := by
  cases counter <;> exact ⟨rfl,fun _ _ => rfl⟩

theorem additive_highlight : Additive (·.highlightCount) := ⟨rfl,fun _ _ => rfl⟩

variable {count : NotifCounts → ℕ} {thread : String} {counts : RoomNotifCounts}

namespace RoomNotifCounts

theorem of_empty : empty.of thread = {} := by
  unfold of
  split
  · rfl
  · rfl

theorem of_addTo {threadId : String} {more : NotifCounts} : (counts.addTo threadId more).of thread =
      if threadId = thread then (counts.of thread).add more else counts.of thread := by
  unfold addTo of
  by_cases hthread : threadId = thread
  · subst hthread
    by_cases hmain : threadId = Push.mainTimeline
    · simp [hmain]
    · simp [hmain]
  · by_cases hmain : threadId = Push.mainTimeline
    · have hne : thread ≠ Push.mainTimeline := fun h => hthread (hmain.trans h.symm)
      simp [hmain,hne,Ne.symm hne]
    · by_cases hmain' : thread = Push.mainTimeline
      · simp [hmain,hmain']
      · simp [hmain,hthread,AList.lookup_insert_ne (Ne.symm hthread)]

theorem count_foldl_addTo {α : Type} (hcount : Additive count) (threadOf : α → String)
    (more : α → NotifCounts) (l : List α) :
    count ((l.foldl (fun counts row => counts.addTo (threadOf row) (more row)) counts).of thread) =
      count (counts.of thread) +
        (l.map fun row => if threadOf row = thread then count (more row) else 0).sum := by
  induction l generalizing counts with
  | nil => rfl
  | cons row l ih =>
    rw [foldl_cons,ih,of_addTo,map_cons,sum_cons]
    split
    · rw [hcount.add,Nat.add_assoc]
    · rw [Nat.zero_add]

end RoomNotifCounts

namespace PushTables

variable {db : PushTables} {cache : StreamChangeCache} {roomId userId : String} {unthreaded : ℤ}
  {rows : List PushAction} {counter : Counter} {summarised : List String}

def inThread (rows : List PushAction) (counter : Counter) (thread : String) : ℕ :=
  rows.countP fun a => a.threadId = thread ∧ counter.bit a

theorem sum_countsByThread : ((countsByThread rows).map fun row =>
    if row.2.2 = thread then counter.of ⟨row.1,row.2.1,0⟩ else 0).sum = inThread rows counter thread := by
  rw [Entries.sum_eq_find? (fun row : ThreadCounts => row.2.2)
    (fun row => counter.of ⟨row.1,row.2.1,0⟩) nodup_countsByThread,find_countsByThread]
  have hvalue : counter.of ⟨(threadCounts rows thread).1,(threadCounts rows thread).2.1,0⟩ =
      inThread rows counter thread := by
    cases counter <;> rfl
  split
  · exact hvalue
  · rename_i hnot
    rw [← hvalue,threadCounts_of_notMem hnot]
    cases counter <;> rfl

def target (summarised : List String) (thread : String) : String :=
  if thread = mainTimeline then summarised.getLast?.getD mainTimeline else thread

theorem addSinceRotation_eq {row : ThreadCounts} : addSinceRotation summarised counts row =
    if row.2.2 ∈ summarised then counts.addTo (target summarised row.2.2) ⟨row.1,row.2.1,0⟩
    else counts := by
  unfold addSinceRotation target
  by_cases hmem : row.2.2 ∈ summarised
  · rw [if_neg (not_not.mpr hmem),if_pos hmem]
    by_cases hmain : row.2.2 = mainTimeline
    · rw [if_pos hmain,if_pos hmain]
      cases hlast : summarised.getLast? with
      | some last => rfl
      | none =>
        rw [getLast?_eq_none_iff.mp hlast] at hmem
        cases hmem
    · rw [if_neg hmain,if_neg hmain]
  · rw [if_pos hmem,if_neg hmem]

theorem count_foldl_addSinceRotation (hcount : Additive count) (l : List ThreadCounts) :
    count ((l.foldl (addSinceRotation summarised) counts).of thread) =
      count (counts.of thread) + (l.map fun row =>
        if row.2.2 ∈ summarised ∧ target summarised row.2.2 = thread then
          count ⟨row.1,row.2.1,0⟩ else 0).sum := by
  induction l generalizing counts with
  | nil => rfl
  | cons row l ih =>
    rw [foldl_cons,ih,addSinceRotation_eq,map_cons,sum_cons]
    by_cases hmem : row.2.2 ∈ summarised
    · rw [if_pos hmem,RoomNotifCounts.of_addTo]
      by_cases htarget : target summarised row.2.2 = thread
      · rw [if_pos htarget,if_pos ⟨hmem,htarget⟩,hcount.add,Nat.add_assoc]
      · rw [if_neg htarget,if_neg fun h => htarget h.2,Nat.zero_add]
    · rw [if_neg hmem,if_neg fun h => hmem h.1,Nat.zero_add]

/-- A thread gets its own counts, but for the main timeline, whose counts go to the thread that was
summarised last. -/
theorem sum_sinceRotation : ((countsByThread rows).map fun row =>
    if row.2.2 ∈ summarised ∧ target summarised row.2.2 = thread then
      counter.of ⟨row.1,row.2.1,0⟩ else 0).sum =
    (if thread ∈ summarised ∧ thread ≠ mainTimeline then inThread rows counter thread else 0) +
      if mainTimeline ∈ summarised ∧ target summarised mainTimeline = thread then
        inThread rows counter mainTimeline else 0 := by
  have hpull : ∀ (P : Prop) [Decidable P] (t : String), ((countsByThread rows).map fun row =>
      if row.2.2 = t then if P then counter.of ⟨row.1,row.2.1,0⟩ else 0 else 0).sum =
        if P then inThread rows counter t else 0 := by
    intro P _ t
    by_cases hP : P
    · simp only [hP]
      exact sum_countsByThread
    · simp [hP]
  rw [← hpull,← hpull,← sum_map_add]
  congr 2
  funext row
  by_cases hmain : row.2.2 = mainTimeline
  · by_cases hthread : thread = mainTimeline
    · simp [hmain,hthread]
    · simp [hmain,Ne.symm hthread]
  · have hself : target summarised row.2.2 = row.2.2 := if_neg hmain
    by_cases hthread : row.2.2 = thread
    · subst hthread
      simp [hself,hmain]
    · simp [hself,hmain,hthread]

def usedRow (db : PushTables) (roomId userId : String) (unthreaded : ℤ) (thread : String) : Option SummaryRow :=
  (db.eventPushSummary.lookup (userId,roomId,thread)).filter
    (isUpToDate · (db.receiptStreamOrdering roomId userId unthreaded thread))

theorem find_summaries : (db.summaries roomId userId unthreaded).find? (fun row => row.2.2 = thread) =
      (db.usedRow roomId userId unthreaded thread).map fun row =>
        (row.notifCount,row.unreadCount,thread) := by
  let p : ThreadKey → SummaryRow → Bool := fun key row => key.1 = userId ∧ key.2.1 = roomId ∧
    isUpToDate row (db.receiptStreamOrdering roomId userId unthreaded key.2.2)
  have hsame : ∀ entry : (_ : ThreadKey) × SummaryRow,
      decide (p entry.1 entry.2 ∧ decide (entry.1.2.2 = thread)) =
        decide (p entry.1 entry.2 ∧ decide (entry.1 = (userId,roomId,thread))) := by
    rintro ⟨⟨user,room,t⟩,row⟩
    simp only [p,decide_eq_true_eq,Prod.mk.injEq,decide_eq_decide]
    tauto
  have hfind : (Entries.restrict db.eventPushSummary p).entries.find? (fun e => e.1.2.2 = thread) =
      (Entries.restrict db.eventPushSummary p).entries.find? (fun e => e.1 = (userId,roomId,thread)) := by
    rw [Entries.restrict,find?_filter,find?_filter]
    exact congrArg (find? · _) (funext hsame)
  change ((Entries.restrict db.eventPushSummary p).entries.map fun entry =>
    (entry.2.notifCount,entry.2.unreadCount,entry.1.2.2)).find? _ = _
  rw [find?_map]
  change Option.map _ ((Entries.restrict db.eventPushSummary p).entries.find? (fun e => e.1.2.2 = thread)) = _
  rw [hfind,Entries.find?_entries,Entries.lookup_restrict,Option.map_map]
  have hp : p (userId,roomId,thread) =
      (isUpToDate · (db.receiptStreamOrdering roomId userId unthreaded thread)) := by
    funext row
    simp [p]
  rw [hp]
  rfl

theorem nodup_summaries : ((db.summaries roomId userId unthreaded).map fun row => row.2.2).Nodup := by
  rw [summaries,map_map]
  apply Nodup.of_map (fun t => (userId,roomId,t))
  rw [map_map]
  have hkeys : ∀ entry ∈ db.eventPushSummary.entries.filter (fun entry => entry.1.1 = userId ∧
      entry.1.2.1 = roomId ∧ isUpToDate entry.2
        (db.receiptStreamOrdering roomId userId unthreaded entry.1.2.2)),
      (userId,roomId,entry.1.2.2) = entry.1 := by
    intro entry hentry
    obtain ⟨hu,hr,-⟩ := of_decide_eq_true (mem_filter.mp hentry).2
    rw [← hu,← hr]
  refine (map_congr_left hkeys) ▸ ?_
  exact db.eventPushSummary.nodupKeys.sublist filter_sublist

theorem mem_summarised : thread ∈ (db.summaries roomId userId unthreaded).map (fun row => row.2.2) ↔
    (db.usedRow roomId userId unthreaded thread).isSome := by
  have hsome : (db.usedRow roomId userId unthreaded thread).isSome =
      ((db.summaries roomId userId unthreaded).find? fun row => row.2.2 = thread).isSome := by
    rw [find_summaries,Option.isSome_map]
  rw [hsome,find?_isSome]
  simp

theorem sum_summaries : ((db.summaries roomId userId unthreaded).map fun row =>
    if row.2.2 = thread then counter.of ⟨row.1,row.2.1,0⟩ else 0).sum =
      ((db.usedRow roomId userId unthreaded thread).map fun row =>
        counter.count row.toNotifSummary).getD 0 := by
  rw [Entries.sum_eq_find? (fun row : ThreadCounts => row.2.2)
    (fun row => counter.of ⟨row.1,row.2.1,0⟩) nodup_summaries,find_summaries,Option.map_map]
  cases counter <;> rfl

theorem inThread_filter {p : String → Bool} : inThread (rows.filter fun a => p a.threadId) counter thread =
      if p thread then inThread rows counter thread else 0 := by
  unfold inThread
  rw [countP_filter]
  cases hp : p thread with
  | true =>
    apply countP_congr
    intro a _
    simp only [decide_eq_true_eq,Bool.and_eq_true]
    constructor
    · exact fun h => h.1
    · exact fun h => ⟨h,h.1 ▸ hp⟩
  | false =>
    rw [if_neg Bool.false_ne_true,countP_eq_zero]
    intro a _ h
    simp only [decide_eq_true_eq,Bool.and_eq_true] at h
    rw [h.1.1,hp] at h
    exact nomatch h.2

theorem count_unreadCounts (hcache : db.CacheSound cache)
    (hsummarised : summarised = (db.summaries roomId userId unthreaded).map fun row => row.2.2) :
    counter.of ((db.getUnreadCountsByPosTxn cache roomId userId unthreaded).of thread) =
      ((db.usedRow roomId userId unthreaded thread).map fun row =>
        counter.count row.toNotifSummary).getD 0 +
      ((if thread ∈ summarised ∧ thread ≠ mainTimeline then
        inThread (db.counted roomId userId db.rotatedStreamOrdering none none) counter thread else 0) +
      if mainTimeline ∈ summarised ∧ target summarised mainTimeline = thread then
        inThread (db.counted roomId userId db.rotatedStreamOrdering none none) counter mainTimeline
      else 0) +
      if thread ∈ summarised then 0
      else inThread (db.unreadActions roomId userId unthreaded) counter thread := by
  have hhighlights : ((db.highlightCounts roomId userId unthreaded).map fun row =>
      if row.2 = thread then counter.of ⟨0,0,row.1⟩ else 0).sum = 0 := by
    cases counter <;> simp [Counter.of]
  have hrest : inThread ((db.unreadActions roomId userId unthreaded).filter fun a =>
      a.threadId ∉ summarised) counter thread = if thread ∈ summarised then 0
        else inThread (db.unreadActions roomId userId unthreaded) counter thread := by
    rw [@inThread_filter thread _ counter fun t => t ∉ summarised]
    simp
  subst hsummarised
  rw [getUnreadCountsByPosTxn,getNotifUnreadCountForUserRoom_eq hcache]
  rw [RoomNotifCounts.count_foldl_addTo counter.additive, count_foldl_addSinceRotation counter.additive,
    RoomNotifCounts.count_foldl_addTo counter.additive,
    RoomNotifCounts.count_foldl_addTo counter.additive,RoomNotifCounts.of_empty,
    counter.additive.zero,Nat.zero_add,sum_summaries,hhighlights,Nat.add_zero,sum_sinceRotation,
    sum_countsByThread,hrest]

theorem highlight_unreadCounts :
    ((db.getUnreadCountsByPosTxn cache roomId userId unthreaded).of thread).highlightCount =
      (db.unreadActions roomId userId unthreaded).countP fun a => a.threadId = thread ∧ a.highlight := by
  have hsum : ((db.highlightCounts roomId userId unthreaded).map fun row =>
      if row.2 = thread then (⟨0,0,row.1⟩ : NotifCounts).highlightCount else 0).sum =
        (db.unreadActions roomId userId unthreaded).countP fun a =>
          a.threadId = thread ∧ a.highlight := by
    let rows := (db.unreadActions roomId userId unthreaded).filter (·.highlight)
    have hlength : (rows.filter fun a => a.threadId = thread).length =
        (db.unreadActions roomId userId unthreaded).countP fun a =>
          a.threadId = thread ∧ a.highlight := by
      rw [← countP_eq_length_filter,countP_filter]
      exact countP_congr fun a _ => by simp
    have hnodup : ((db.highlightCounts roomId userId unthreaded).map fun row => row.2).Nodup := by
      rw [highlightCounts]
      simpa [Function.comp_def] using nodup_dedup _
    rw [Entries.sum_eq_find? (fun row : ℕ × String => row.2) (fun row => row.1) hnodup,
      highlightCounts,Entries.find?_groups _ (fun row : ℕ × String => row.2) fun _ => rfl,← hlength]
    split
    · rfl
    · rename_i hnot
      have hnil : rows.filter (fun a => a.threadId = thread) = [] := by
        rw [filter_eq_nil_iff]
        intro a ha hthread
        exact hnot (mem_map.mpr ⟨a,ha,of_decide_eq_true hthread⟩)
      rw [hnil]
      rfl
  rw [getUnreadCountsByPosTxn]
  rw [RoomNotifCounts.count_foldl_addTo additive_highlight, count_foldl_addSinceRotation additive_highlight,
    RoomNotifCounts.count_foldl_addTo additive_highlight,
    RoomNotifCounts.count_foldl_addTo additive_highlight,RoomNotifCounts.of_empty,hsum]
  simp

def isUnread (db : PushTables) (roomId userId : String) (unthreaded : ℤ) (a : PushAction) : Bool :=
  unthreaded < a.streamOrdering ∧ ∀ r ∈ db.receiptsLinearized, r.userId = userId →
    r.roomId = roomId → r.receiptType ∈ ["m.read","m.read.private"] → r.threadId = some a.threadId →
      r.eventStreamOrdering.all (· < a.streamOrdering)

theorem max?_getD_lt_iff {l : List ℤ} {d x : ℤ} (h : ∀ p ∈ l, d < p) :
    l.max?.getD d < x ↔ d < x ∧ ∀ p ∈ l, p < x := by
  cases hmax : l.max? with
  | none => simp [max?_eq_none_iff.mp hmax]
  | some m =>
    obtain ⟨hm,hle⟩ := max?_eq_some_iff.mp hmax
    constructor
    · intro (hlt : m < x)
      exact ⟨(h m hm).trans hlt,fun p hp => (hle p hp).trans_lt hlt⟩
    · exact fun hx => hx.2 m hm

theorem isUnread_eq (a : PushAction) : db.isUnread roomId userId unthreaded a =
    decide (db.receiptStreamOrdering roomId userId unthreaded a.threadId < a.streamOrdering) := by
  rw [isUnread,decide_eq_decide,receiptStreamOrdering,max?_getD_lt_iff]
  · refine and_congr_right fun hafter => ?_
    simp only [mem_filterMap,mem_filter,decide_eq_true_eq]
    constructor
    · rintro h p ⟨r,⟨hr,hu,hroom,-,htype,hthread⟩,hp⟩
      simpa [hp] using h r hr hu hroom htype hthread
    · intro h r hr hu hroom htype hthread
      cases hp : r.eventStreamOrdering with
      | none => rfl
      | some p =>
        by_cases hpos : unthreaded < p
        · exact decide_eq_true (h p ⟨r,⟨hr,hu,hroom,by simp [hp,hpos],htype,hthread⟩,hp⟩)
        · exact decide_eq_true ((not_lt.mp hpos).trans_lt hafter)
  · intro p hp
    obtain ⟨r,hr,hp⟩ := mem_filterMap.mp hp
    simpa [hp] using (of_decide_eq_true (mem_filter.mp hr).2).2.2.1

def numOf (roomId userId : String) (actions : List PushAction) (counter : Counter)
    (thread : String) (p : PushAction → Bool) : ℕ :=
  actions.countP fun a => a.key = (userId,roomId,thread) ∧ counter.bit a ∧ p a

variable {actions removed : List PushAction} {p q : PushAction → Bool}

theorem numOf_congr (h : ∀ a ∈ actions, a.key = (userId,roomId,thread) → p a = q a) :
    numOf roomId userId actions counter thread p = numOf roomId userId actions counter thread q := by
  apply countP_congr
  intro a ha
  by_cases hkey : a.key = (userId,roomId,thread)
  · rw [h a ha hkey]
  · simp [hkey]

theorem numOf_append : numOf roomId userId (actions ++ removed) counter thread p =
    numOf roomId userId actions counter thread p + numOf roomId userId removed counter thread p :=
  countP_append

theorem numOf_split (q : PushAction → Bool) : numOf roomId userId actions counter thread p =
    numOf roomId userId actions counter thread (fun a => p a && q a) +
      numOf roomId userId actions counter thread (fun a => p a && !q a) := by
  have hfilter : ∀ q : PushAction → Bool, (actions.filter q).countP (fun a =>
      a.key = (userId,roomId,thread) ∧ counter.bit a ∧ p a) =
        numOf roomId userId actions counter thread fun a => p a && q a := by
    intro q
    rw [countP_filter]
    apply countP_congr
    intro a _
    simp [and_assoc]
  rw [← hfilter,← hfilter]
  exact countP_eq_countP_filter_add ..

theorem numOf_eq_zero : numOf roomId userId actions counter thread p = 0 ↔
    ∀ a ∈ actions, a.key = (userId,roomId,thread) → counter.bit a → p a = false := by
  rw [numOf]
  simp

theorem inThread_since : inThread (db.counted roomId userId db.rotatedStreamOrdering none none)
    counter thread = numOf roomId userId db.eventPushActions counter thread
      fun a => db.rotatedStreamOrdering < a.streamOrdering := by
  rw [inThread,counted,countP_filter]
  apply countP_congr
  intro a _
  simp [isFor,PushAction.key]
  tauto

theorem inThread_unread : inThread (db.unreadActions roomId userId unthreaded) counter thread =
    numOf roomId userId db.eventPushActions counter thread (db.isUnread roomId userId unthreaded) := by
  rw [inThread,unreadActions,countP_filter]
  apply countP_congr
  intro a _
  simp [isUnread_eq,PushAction.key]
  tauto

theorem tally_eq_numOf {receipt : Option ℤ} {upTo : ℤ} :
    tally actions counter (userId,roomId,thread) receipt upTo =
      numOf roomId userId actions counter thread fun a =>
        receipt.all (· < a.streamOrdering) && decide (a.streamOrdering ≤ upTo) := by
  apply countP_congr
  intro a _
  simp [Counts,and_assoc]

/-- Every row is exact for its last receipt up to the rotated position, where some of the actions
have been removed from the table since. -/
def RowsExact (db : PushTables) (removed : List PushAction) : Prop :=
  ∀ key row, db.eventPushSummary.lookup key = some row → ∀ counter : Counter,
    counter.count row.toNotifSummary = tally (db.eventPushActions ++ removed) counter key
      row.lastReceiptStreamOrdering db.rotatedStreamOrdering

/-- Only rotated actions that are no highlights are removed. -/
def RemovedRotated (db : PushTables) (removed : List PushAction) : Prop :=
  ∀ a ∈ removed, a.highlight = false ∧ a.streamOrdering ≤ db.rotatedStreamOrdering

theorem numOf_since (hremoved : db.RemovedRotated removed) :
    numOf roomId userId db.eventPushActions counter thread
        (fun a => db.rotatedStreamOrdering < a.streamOrdering) =
      numOf roomId userId (db.eventPushActions ++ removed) counter thread
        fun a => db.rotatedStreamOrdering < a.streamOrdering := by
  have hzero : numOf roomId userId removed counter thread
      (fun a => db.rotatedStreamOrdering < a.streamOrdering) = 0 := by
    rw [numOf_eq_zero]
    intro a ha _ _
    exact decide_eq_false (not_lt.mpr (hremoved a ha).2)
  rw [numOf_append,hzero,Nat.add_zero]

variable {row : SummaryRow}

theorem receipt_le_rotated {r : ℤ} (hexact : db.RowsExact removed)
    (hrow : db.eventPushSummary.lookup (userId,roomId,thread) = some row)
    (hnonzero : row.notifCount ≠ 0 ∨ row.unreadCount ≠ 0)
    (hlast : row.lastReceiptStreamOrdering = some r) : r ≤ db.rotatedStreamOrdering := by
  have hbetween : ∀ counter : Counter, counter.count row.toNotifSummary ≠ 0 → r ≤ db.rotatedStreamOrdering := by
    intro counter hne
    rw [hexact _ _ hrow,tally,← Nat.pos_iff_ne_zero,countP_pos_iff] at hne
    obtain ⟨a,-,ha⟩ := hne
    obtain ⟨hcounts,hle⟩ := of_decide_eq_true ha
    have hafter := (counts_isFor hcounts).2.2
    rw [hlast,Option.all_some,decide_eq_true_eq] at hafter
    exact hafter.le.trans hle
  rcases hnonzero with hnotif | hunread
  · exact hbetween .notif hnotif
  · exact hbetween .unread hunread

/-- A summary and the actions since the last rotation make up the count of a thread, with what is
read already if the summary does not know of a receipt. -/
theorem count_usedRow (counter : Counter) (hexact : db.RowsExact removed) (hremoved : db.RemovedRotated removed)
    (hused : db.usedRow roomId userId unthreaded thread = some row) :
    counter.count row.toNotifSummary + numOf roomId userId db.eventPushActions counter thread
        (fun a => db.rotatedStreamOrdering < a.streamOrdering) =
      numOf roomId userId (db.eventPushActions ++ removed) counter thread
        (db.isUnread roomId userId unthreaded) +
      if row.lastReceiptStreamOrdering = none then
        numOf roomId userId (db.eventPushActions ++ removed) counter thread
          fun a => !db.isUnread roomId userId unthreaded a
      else 0 := by
  obtain ⟨hrow,hupToDate⟩ := Option.filter_eq_some_iff.mp hused
  obtain ⟨hreceipt,hnonzero⟩ := of_decide_eq_true hupToDate
  rw [hexact _ _ hrow,tally_eq_numOf,numOf_since hremoved]
  rcases hreceipt with ⟨hnone,-⟩ | hsome
  · rw [hnone]
    have hall := @numOf_split thread roomId userId counter (db.eventPushActions ++ removed) (fun _ => true)
    have hread := hall (db.isUnread roomId userId unthreaded)
    have hrotated := hall fun a => a.streamOrdering ≤ db.rotatedStreamOrdering
    simp only [← decide_not,not_le] at hread hrotated
    exact hrotated.symm.trans hread
  · have hle := receipt_le_rotated hexact hrow hnonzero hsome
    have hsplit := @numOf_split thread roomId userId counter (db.eventPushActions ++ removed)
      (db.isUnread roomId userId unthreaded) fun a => a.streamOrdering ≤ db.rotatedStreamOrdering
    rw [hsome,if_neg (Option.some_ne_none _),Nat.add_zero,hsplit]
    congr 1
    · apply numOf_congr
      intro a _ hkey
      have hthread : a.threadId = thread := congrArg (·.2.2) hkey
      rw [isUnread_eq,hthread,Option.all_some]
    · apply numOf_congr
      intro a _ hkey
      have hthread : a.threadId = thread := congrArg (·.2.2) hkey
      rw [isUnread_eq,hthread,← decide_not,← Bool.decide_and,decide_eq_decide]
      omega

/-- The actions of a thread after the receipts, of those in the table and those removed from it. -/
def expectedCounts (db : PushTables) (removed : List PushAction) (roomId userId : String)
    (unthreaded : ℤ) (thread : String) : NotifCounts :=
  let number := fun p : PushAction → Bool => (db.eventPushActions ++ removed).countP fun a =>
    a.key = (userId,roomId,thread) ∧ p a ∧ db.isUnread roomId userId unthreaded a
  ⟨number (·.notif),number (·.unread),number (·.highlight)⟩

/-- The last row that the first query returns is that of the main timeline, or there is nothing to
add to it. No action that a summary without a receipt counts is read, and no action that was
removed is unread in a thread that is not summarised. -/
structure ReadsExactly (db : PushTables) (removed : List PushAction) (roomId userId : String)
    (unthreaded : ℤ) : Prop where
  main : (db.usedRow roomId userId unthreaded mainTimeline).isSome →
    (db.summaries roomId userId unthreaded).getLast?.map (·.2.2) = some mainTimeline ∨
      ∀ a ∈ db.eventPushActions, a.key = (userId,roomId,mainTimeline) → a.notif ∨ a.unread →
        a.streamOrdering ≤ db.rotatedStreamOrdering
  withoutReceipt : ∀ thread row, db.usedRow roomId userId unthreaded thread = some row →
    row.lastReceiptStreamOrdering = none → ∀ a ∈ db.eventPushActions ++ removed,
      a.key = (userId,roomId,thread) → a.notif ∨ a.unread → db.isUnread roomId userId unthreaded a
  removed : ∀ thread, db.usedRow roomId userId unthreaded thread = none → ∀ a ∈ removed,
    a.key = (userId,roomId,thread) → a.notif ∨ a.unread → ¬db.isUnread roomId userId unthreaded a

theorem numOf_eq_zero_iff : (∀ counter, numOf roomId userId actions counter thread p = 0) ↔
    ∀ a ∈ actions, a.key = (userId,roomId,thread) → a.notif ∨ a.unread → p a = false := by
  constructor
  · rintro h a ha hkey (hbit | hbit)
    · exact numOf_eq_zero.mp (h .notif) a ha hkey hbit
    · exact numOf_eq_zero.mp (h .unread) a ha hkey hbit
  · intro h counter
    exact numOf_eq_zero.mpr fun a ha hkey hbit => h a ha hkey (bit_cases hbit)

theorem of_expectedCounts : counter.of (db.expectedCounts removed roomId userId unthreaded thread) =
    numOf roomId userId (db.eventPushActions ++ removed) counter thread
      (db.isUnread roomId userId unthreaded) := by
  cases counter <;> rfl

theorem highlight_expectedCounts (hremoved : db.RemovedRotated removed) :
    ((db.getUnreadCountsByPosTxn cache roomId userId unthreaded).of thread).highlightCount =
      (db.expectedCounts removed roomId userId unthreaded thread).highlightCount := by
  have hzero : removed.countP (fun a => a.key = (userId,roomId,thread) ∧ a.highlight ∧
      db.isUnread roomId userId unthreaded a) = 0 := by
    rw [countP_eq_zero]
    intro a ha h
    have hhighlight := (of_decide_eq_true h).2.1
    rw [(hremoved a ha).1] at hhighlight
    cases hhighlight
  rw [highlight_unreadCounts]
  simp only [expectedCounts,countP_append,hzero]
  rw [unreadActions,countP_filter]
  apply countP_congr
  intro a _
  simp [isUnread_eq,PushAction.key]
  tauto

def sinceMain (db : PushTables) (roomId userId : String) (counter : Counter) : ℕ :=
  numOf roomId userId db.eventPushActions counter mainTimeline
    fun a => db.rotatedStreamOrdering < a.streamOrdering

theorem count_of_used (counter : Counter) (hcache : db.CacheSound cache)
    (hexact : db.RowsExact removed) (hremoved : db.RemovedRotated removed)
    (hsummarised : summarised = (db.summaries roomId userId unthreaded).map fun row => row.2.2)
    (hused : db.usedRow roomId userId unthreaded thread = some row) :
    counter.of ((db.getUnreadCountsByPosTxn cache roomId userId unthreaded).of thread) +
        (if thread = mainTimeline then db.sinceMain roomId userId counter else 0) =
      counter.of (db.expectedCounts removed roomId userId unthreaded thread) +
      (if row.lastReceiptStreamOrdering = none then
        numOf roomId userId (db.eventPushActions ++ removed) counter thread
          fun a => !db.isUnread roomId userId unthreaded a else 0) +
      if mainTimeline ∈ summarised ∧ target summarised mainTimeline = thread then
        db.sinceMain roomId userId counter else 0 := by
  have hmem : thread ∈ summarised := by
    rw [hsummarised,mem_summarised,hused]
    rfl
  have hrow := count_usedRow counter hexact hremoved hused
  rw [count_unreadCounts hcache hsummarised,hused,if_pos hmem,inThread_since,inThread_since,of_expectedCounts]
  by_cases hmain : thread = mainTimeline
  · subst hmain
    simp only [ne_eq,not_true_eq_false,and_false,if_false,if_true,sinceMain,Option.map_some, Option.getD_some]
    omega
  · simp only [hmem,hmain,ne_eq,not_false_eq_true,and_self,if_true,if_false,sinceMain,
      Option.map_some,Option.getD_some]
    omega

theorem target_mem (h : mainTimeline ∈ summarised) : target summarised mainTimeline ∈ summarised := by
  rw [target]
  cases hlast : summarised.getLast? with
  | none => exact h
  | some last => exact mem_of_getLast? hlast

theorem count_of_unused (counter : Counter) (removed : List PushAction) (hcache : db.CacheSound cache)
    (hunused : db.usedRow roomId userId unthreaded thread = none) :
    counter.of ((db.getUnreadCountsByPosTxn cache roomId userId unthreaded).of thread) +
        numOf roomId userId removed counter thread (db.isUnread roomId userId unthreaded) =
      counter.of (db.expectedCounts removed roomId userId unthreaded thread) := by
  obtain ⟨summarised,hsummarised⟩ : ∃ l, l = (db.summaries roomId userId unthreaded).map fun row => row.2.2 :=
    ⟨_,rfl⟩
  have hnot : thread ∉ summarised := by
    rw [hsummarised,mem_summarised,hunused]
    exact Bool.false_ne_true
  have hmain : ¬(mainTimeline ∈ summarised ∧ target summarised mainTimeline = thread) :=
    fun h => hnot (h.2 ▸ target_mem h.1)
  rw [count_unreadCounts hcache hsummarised,hunused,if_neg fun h => hnot h.1,if_neg hmain,if_neg hnot,
    inThread_unread,of_expectedCounts,numOf_append]
  simp

theorem target_eq_main_iff (h : mainTimeline ∈ summarised) :
    target summarised mainTimeline = mainTimeline ↔ summarised.getLast? = some mainTimeline := by
  rw [target]
  cases hlast : summarised.getLast? with
  | none =>
    rw [getLast?_eq_none_iff.mp hlast] at h
    cases h
  | some last => simp

/-- What the main timeline lacks is added to it, if it is added to the right thread. -/
theorem since_main_added {since : ℕ} (hmem : thread ∈ summarised) (hmain : mainTimeline ∈ summarised →
    target summarised mainTimeline = mainTimeline ∨ since = 0) : (if thread = mainTimeline then since else 0) =
      if mainTimeline ∈ summarised ∧ target summarised mainTimeline = thread then since else 0 := by
  by_cases hin : mainTimeline ∈ summarised
  · rcases hmain hin with htarget | hzero
    · simp [hin,htarget,eq_comm]
    · simp [hzero]
  · have hne : thread ≠ mainTimeline := fun h => hin (h ▸ hmem)
    simp [hin,hne]

section
variable (hcache : db.CacheSound cache) (hexact : db.RowsExact removed) (hremoved : db.RemovedRotated removed)
  (h : ∀ thread, (db.getUnreadCountsByPosTxn cache roomId userId unthreaded).of thread =
    db.expectedCounts removed roomId userId unthreaded thread)
include hcache hexact hremoved h

theorem sinceMain_eq_zero (counter : Counter)
    (hsummarised : summarised = (db.summaries roomId userId unthreaded).map fun row => row.2.2)
    (hmain : mainTimeline ∈ summarised) (hlast : target summarised mainTimeline ≠ mainTimeline) :
    db.sinceMain roomId userId counter = 0 := by
  have htarget := target_mem hmain
  have hsome : (db.usedRow roomId userId unthreaded (target summarised mainTimeline)).isSome := by
    rw [← mem_summarised,← hsummarised]
    exact htarget
  obtain ⟨row,hused⟩ := Option.isSome_iff_exists.mp hsome
  have hcount := count_of_used counter hcache hexact hremoved hsummarised hused
  rw [h,if_neg hlast,if_pos (And.intro hmain rfl)] at hcount
  omega

theorem readsExactly_of_counts_eq : db.ReadsExactly removed roomId userId unthreaded := by
  have hsince := fun counter => sinceMain_eq_zero hcache hexact hremoved h counter rfl
  refine ⟨fun hused => ?_,fun thread row hused hnone => ?_,fun thread hunused => ?_⟩
  · have hmain := mem_summarised.mpr hused
    rw [← getLast?_map,← target_eq_main_iff hmain]
    by_cases htarget : target ((db.summaries roomId userId unthreaded).map fun row => row.2.2)
        mainTimeline = mainTimeline
    · exact .inl htarget
    · refine .inr fun a ha hkey hbit => ?_
      have hzero := numOf_eq_zero_iff.mp (fun counter => hsince counter hmain htarget) a ha hkey hbit
      exact not_lt.mp (of_decide_eq_false hzero)
  · have hzero : ∀ counter, numOf roomId userId (db.eventPushActions ++ removed) counter thread
        (fun a => !db.isUnread roomId userId unthreaded a) = 0 := by
      intro counter
      have hcount := count_of_used counter hcache hexact hremoved rfl hused
      have hmem := mem_summarised.mpr (Option.isSome_iff_exists.mpr ⟨row,hused⟩)
      have hadded := since_main_added hmem fun hmain => or_iff_not_imp_left.mpr (hsince counter hmain)
      rw [h,if_pos hnone] at hcount
      omega
    intro a ha hkey hbit
    have hread := numOf_eq_zero_iff.mp hzero a ha hkey hbit
    simpa using hread
  · have hzero : ∀ counter, numOf roomId userId removed counter thread
        (db.isUnread roomId userId unthreaded) = 0 := by
      intro counter
      have hcount := count_of_unused counter removed hcache hunused
      rw [h] at hcount
      omega
    intro a ha hkey hbit
    rw [numOf_eq_zero_iff.mp hzero a ha hkey hbit]
    exact Bool.false_ne_true

end

theorem ReadsExactly.sinceMain_eq (h : db.ReadsExactly removed roomId userId unthreaded)
    (hsummarised : summarised = (db.summaries roomId userId unthreaded).map fun row => row.2.2)
    (hmain : mainTimeline ∈ summarised) : target summarised mainTimeline = mainTimeline ∨
      ∀ counter, db.sinceMain roomId userId counter = 0 := by
  have hused := mem_summarised.mp (hsummarised ▸ hmain)
  rcases h.main hused with hlast | hnone
  · rw [← getLast?_map,← hsummarised] at hlast
    exact .inl ((target_eq_main_iff hmain).mpr hlast)
  · refine .inr (numOf_eq_zero_iff.mpr fun a ha hkey hbit => ?_)
    exact decide_eq_false (not_lt.mpr (hnone a ha hkey hbit))

theorem ReadsExactly.count_eq (h : db.ReadsExactly removed roomId userId unthreaded) (thread : String)
    (counter : Counter) (hcache : db.CacheSound cache) (hexact : db.RowsExact removed)
    (hremoved : db.RemovedRotated removed) :
    counter.of ((db.getUnreadCountsByPosTxn cache roomId userId unthreaded).of thread) =
      counter.of (db.expectedCounts removed roomId userId unthreaded thread) := by
  cases hused : db.usedRow roomId userId unthreaded thread with
  | none =>
    have hcount := count_of_unused counter removed hcache hused
    have hzero := numOf_eq_zero_iff.mpr (fun a ha hkey hbit =>
      Bool.eq_false_iff.mpr (h.removed thread hused a ha hkey hbit)) counter
    rw [hzero] at hcount
    exact hcount
  | some row =>
    have hcount := count_of_used counter hcache hexact hremoved rfl hused
    have hread : (if row.lastReceiptStreamOrdering = none then numOf roomId userId
        (db.eventPushActions ++ removed) counter thread
          fun a => !db.isUnread roomId userId unthreaded a else 0) = 0 := by
      split
      · rename_i hnone
        refine numOf_eq_zero_iff.mpr (fun a ha hkey hbit => ?_) counter
        rw [h.withoutReceipt thread row hused hnone a ha hkey hbit]
        rfl
      · rfl
    have hmem := mem_summarised.mpr (Option.isSome_iff_exists.mpr ⟨row,hused⟩)
    have hadded := since_main_added hmem fun hmain => (h.sinceMain_eq rfl hmain).imp_right (· counter)
    omega

/-- The counts of all threads are exact in just these states. -/
theorem unread_counts_exact_iff (db : PushTables) (cache : StreamChangeCache)
    (removed : List PushAction) (roomId userId : String) (unthreaded : ℤ)
    (hcache : db.CacheSound cache) (hexact : db.RowsExact removed)
    (hremoved : db.RemovedRotated removed) :
    (∀ thread, (db.getUnreadCountsByPosTxn cache roomId userId unthreaded).of thread =
      db.expectedCounts removed roomId userId unthreaded thread) ↔
        db.ReadsExactly removed roomId userId unthreaded := by
  constructor
  · exact readsExactly_of_counts_eq hcache hexact hremoved
  · intro h thread
    have hcount := fun counter => h.count_eq thread counter hcache hexact hremoved
    exact NotifCounts.ext (hcount .notif) (hcount .unread) (highlight_expectedCounts hremoved)

def twoThreads (summary : Dict ThreadKey SummaryRow) : PushTables :=
  ⟨[⟨"@u:h","!r:h","main",1,true,false,false⟩,⟨"@u:h","!r:h","$t",2,true,false,false⟩,
    ⟨"@u:h","!r:h","main",3,true,false,false⟩],summary,[],0,2⟩

def mainRow : (_ : ThreadKey) × SummaryRow := ⟨("@u:h","!r:h","main"),⟨1,0,2⟩,some 0⟩

def threadRow : (_ : ThreadKey) × SummaryRow := ⟨("@u:h","!r:h","$t"),⟨1,0,2⟩,some 0⟩

def threadFirst : PushTables :=
  twoThreads ⟨[threadRow,mainRow],by simp [NodupKeys,keys,mainRow,threadRow]⟩

def mainFirst : PushTables :=
  twoThreads ⟨[mainRow,threadRow],by simp [NodupKeys,keys,mainRow,threadRow]⟩

def lateCache : StreamChangeCache := ⟨10,∅,∅,10⟩

variable {summary : Dict ThreadKey SummaryRow}

theorem twoThreads_cacheSound : (twoThreads summary).CacheSound lateCache := by
  intro a ha streamOrdering hlt
  have hle : a.streamOrdering ≤ 3 := by
    simp only [twoThreads,mem_cons,not_mem_nil,or_false] at ha
    rcases ha with rfl | rfl | rfl <;> decide
  have hbefore : streamOrdering < lateCache.earliestKnownStreamPos :=
    (hlt.trans_le hle).trans (by decide)
  simp [StreamChangeCache.hasEntityChanged,hbefore]

theorem twoThreads_rowsExact (h : ∀ entry ∈ summary.entries, entry = mainRow ∨ entry = threadRow) :
    (twoThreads summary).RowsExact [] := by
  intro key row hrow counter
  change _ = tally ((twoThreads ∅).eventPushActions ++ []) _ _ _ (twoThreads ∅).rotatedStreamOrdering
  rcases h ⟨key,row⟩ (AList.mem_lookup_iff.mp hrow) with heq | heq
  · cases heq
    cases counter <;> decide +kernel
  · cases heq
    cases counter <;> decide +kernel

theorem unread_counts_exact_main_last : threadFirst.CacheSound lateCache ∧
    ∀ thread, (threadFirst.getUnreadCountsByPosTxn lateCache "!r:h" "@u:h" 0).of thread =
      threadFirst.expectedCounts [] "!r:h" "@u:h" 0 thread := by
  refine ⟨twoThreads_cacheSound,?_⟩
  refine (unread_counts_exact_iff _ _ [] _ _ _ twoThreads_cacheSound
    (twoThreads_rowsExact (by simp)) (fun a ha => nomatch ha)).mpr ⟨fun _ => ?_,?_,?_⟩
  · exact .inl (by decide +kernel)
  · intro thread row hused hnone
    obtain ⟨hrow,-⟩ := Option.filter_eq_some_iff.mp hused
    have hentry : (⟨("@u:h","!r:h",thread),row⟩ : (_ : ThreadKey) × SummaryRow) ∈
      [threadRow,mainRow] := AList.mem_lookup_iff.mp hrow
    simp only [mem_cons,not_mem_nil,or_false] at hentry
    rcases hentry with heq | heq
    · cases heq
      cases hnone
    · cases heq
      cases hnone
  · exact fun _ _ a ha => nomatch ha

/-- The new message of the main timeline is counted for the thread that was summarised last. -/
theorem main_message_counted_in_thread :
    mainFirst.CacheSound lateCache ∧ mainFirst.RowsExact [] ∧
      (mainFirst.getUnreadCountsByPosTxn lateCache "!r:h" "@u:h" 0).of mainTimeline = ⟨1,0,0⟩ ∧
      mainFirst.expectedCounts [] "!r:h" "@u:h" 0 mainTimeline = ⟨2,0,0⟩ ∧
      (mainFirst.getUnreadCountsByPosTxn lateCache "!r:h" "@u:h" 0).of "$t" = ⟨2,0,0⟩ ∧
      mainFirst.expectedCounts [] "!r:h" "@u:h" 0 "$t" = ⟨1,0,0⟩ := by
  refine ⟨twoThreads_cacheSound,twoThreads_rowsExact (by simp),?_,?_,?_,?_⟩
  · decide +kernel
  · decide +kernel
  · decide +kernel
  · decide +kernel

end PushTables

end TextrpBriij.Push
