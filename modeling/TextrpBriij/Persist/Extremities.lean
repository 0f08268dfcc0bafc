import TextrpBriij.Events.EventBase
import TextrpBriij.Foundation.Frontier
import TextrpBriij.Foundation.Rounds
import TextrpBriij.Foundation.Runs
import TextrpBriij.State.StateMap

/-! # Forward extremities

What `_calculate_new_extremities` makes of a batch of events, the two queries it asks, and the
tables that persisting a batch fills. A Python set is the list of its elements.
-/
namespace TextrpBriij.Persist
open List
open AuthChain (Dict)
open Events State Util Relation

structure EventContext where
  /-- The reason if the event was rejected. -/
  rejected : Option String
  /-- The attribute `_state_group`, not given for an outlier. -/
  stateGroup : Option ℕ
  stateGroupDeltas : Dict (ℕ × ℕ) (StateMap String)

/-- An event with its context and the flags of its internal metadata. -/
structure EventPersistencePair where
  event : EventBase
  isOutlier : Bool
  isSoftFailed : Bool
  context : EventContext

namespace EventPersistencePair

def eventId (p : EventPersistencePair) : String := p.event.eventId

def prevEventIds (p : EventPersistencePair) : List String := p.event.prevEventIds

def isRejected (p : EventPersistencePair) : Bool := p.context.rejected.any (· ≠ "")

def accepted (p : EventPersistencePair) : Bool := !p.isOutlier && !p.isRejected && !p.isSoftFailed

/-- Soft-failed or rejected, and not an outlier. -/
def hidden (p : EventPersistencePair) : Bool := !p.isOutlier && (p.isSoftFailed || p.isRejected)

def softFailedOnly (p : EventPersistencePair) : Bool :=
  !p.isOutlier && !p.isRejected && p.isSoftFailed

end EventPersistencePair

structure Tables where
  /-- `events`: the event ID and whether the event is an outlier. -/
  events : List (String × Bool)
  eventEdges : List (String × String)
  rejections : List String
  /-- `event_json`: the event ID and `soft_failed` of the internal metadata. -/
  eventJson : List (String × Bool)

def Tables.empty : Tables := ⟨[],[],[],[]⟩

/-- The rows that persisting new events adds. The edges are inserted by
`_handle_mult_prev_events`, which only sees the events that `_store_rejected_events_txn`
leaves. -/
def persistEventsTxn (t : Tables) (batch : List EventPersistencePair) : Tables where
  events := t.events ++ batch.map fun p => (p.eventId,p.isOutlier)
  eventJson := t.eventJson ++ batch.map fun p => (p.eventId,p.isSoftFailed)
  rejections := t.rejections ++ (batch.filter (·.isRejected)).map (·.eventId)
  eventEdges := t.eventEdges ++ (batch.filter (!·.isRejected)).flatMap fun p =>
    p.prevEventIds.map fun id => (p.eventId,id)

structure EdgeRow where
  eventId : String
  prevEventId : String
  outlier : Bool
  rejected : Bool
  softFailed : Bool

def Tables.edgeRows (t : Tables) : List EdgeRow :=
  t.eventEdges.flatMap fun edge =>
    (t.events.filter fun row => row.1 = edge.1).map fun row =>
      { eventId := edge.1
        prevEventId := edge.2
        outlier := row.2
        rejected := decide (edge.1 ∈ t.rejections)
        softFailed := t.eventJson.any fun json => json.1 = edge.1 ∧ json.2 }

def getEventsWhichArePrevs (t : Tables) (eventIds : List String) : List String :=
  (batchIter eventIds 100).flatMap fun chunk =>
    let rows := t.edgeRows.filter fun row =>
      !row.outlier && !row.rejected && decide (row.prevEventId ∈ chunk)
    (rows.filter (!·.softFailed)).map (·.prevEventId)

/-- The edges that `_get_prevs_before_rejected` follows. -/
def edgesBeforeRejected (t : Tables) : List (String × String) :=
  ((t.edgeRows.filter (!·.outlier)).filter fun row => row.softFailed || row.rejected).map
    fun row => (row.eventId,row.prevEventId)

/-- The soft-failed or rejected ancestors and their prev events, chunk by chunk. -/
def getPrevsBeforeRejected (t : Tables) (eventIds : List String) : List String :=
  let edges := edgesBeforeRejected t
  Rounds.searchAll edges (edges.length + 1) (batchIter eventIds 100)

def calculateNewExtremities (t : Tables) (eventContexts : List EventPersistencePair)
    (latestEventIds : List String) : List String :=
  let newEvents := eventContexts.filter (·.accepted)
  let prevs := newEvents.flatMap (·.prevEventIds)
  let result := (latestEventIds ∪ newEvents.map (·.eventId)).filter (· ∉ prevs)
  let existingPrevs := getEventsWhichArePrevs t result
  let result := result.filter (· ∉ existingPrevs)
  result.filter (· ∉ getPrevsBeforeRejected t prevs)

def Tables.of (evs : List EventPersistencePair) : Tables := persistEventsTxn .empty evs

theorem persistEventsTxn_of (evs batch : List EventPersistencePair) :
    persistEventsTxn (.of evs) batch = .of (evs ++ batch) := by
  simp [Tables.of,persistEventsTxn]

section queries
variable {evs : List EventPersistencePair} {p q : EventPersistencePair} {e x y : String}

def Distinct (evs : List EventPersistencePair) : Prop := (evs.map (·.eventId)).Nodup

theorem Distinct.eq_of_eventId (h : Distinct evs) (hp : p ∈ evs) (hq : q ∈ evs)
    (heq : p.eventId = q.eventId) : p = q :=
  inj_on_of_nodup_map h hp hq heq

/-- The joins only find the row of the event itself, and no edge of a rejected event. -/
theorem mem_edgeRows (h : Distinct evs) {row : EdgeRow} :
    row ∈ (Tables.of evs).edgeRows ↔ ∃ p ∈ evs, p.isRejected = false ∧
      ∃ id ∈ p.prevEventIds, row = ⟨p.eventId,id,p.isOutlier,false,p.isSoftFailed⟩ := by
  have hrejected : ∀ p ∈ evs, p.isRejected = false →
      p.eventId ∉ (evs.filter (·.isRejected)).map (·.eventId) := by
    simp only [mem_map,mem_filter]
    rintro p hp hfalse ⟨q,⟨hq,htrue⟩,heq⟩
    rw [h.eq_of_eventId hq hp heq,hfalse] at htrue
    exact Bool.false_ne_true htrue
  have hsoft : ∀ p ∈ evs, ((evs.map fun p => (p.eventId,p.isSoftFailed)).any
      fun json : String × Bool => json.1 = p.eventId ∧ json.2) = p.isSoftFailed := by
    intro p hp
    rw [Bool.eq_iff_iff,any_eq_true]
    simp only [mem_map,decide_eq_true_eq]
    constructor
    · rintro ⟨_,⟨q,hq,rfl⟩,heq,hsoft⟩
      rwa [h.eq_of_eventId hq hp heq] at hsoft
    · exact fun hsoft => ⟨_,⟨p,hp,rfl⟩,rfl,hsoft⟩
  simp only [Tables.edgeRows,Tables.of,Tables.empty,persistEventsTxn,nil_append,mem_flatMap,mem_map,mem_filter,
    decide_eq_true_eq,Bool.not_eq_true']
  constructor
  · rintro ⟨_,⟨p,⟨hp,hfalse⟩,id,hid,rfl⟩,_,⟨⟨q,hq,rfl⟩,heq⟩,rfl⟩
    obtain rfl := h.eq_of_eventId hq hp heq
    refine ⟨q,hp,hfalse,id,hid,?_⟩
    simp only [hrejected q hp hfalse,hsoft q hp,decide_false]
  · rintro ⟨p,hp,hfalse,id,hid,rfl⟩
    refine ⟨_,⟨p,⟨hp,hfalse⟩,id,hid,rfl⟩,_,⟨⟨p,hp,rfl⟩,rfl⟩,?_⟩
    simp only [hrejected p hp hfalse,hsoft p hp,decide_false]

variable {ids : List String}

theorem mem_batchIter : (∃ chunk ∈ batchIter ids 100, e ∈ chunk) ↔ e ∈ ids :=
  (mem_batches (by decide) e _ le_rfl).symm

theorem exists_edgeRow (h : Distinct evs) {P : EdgeRow → Prop} :
    (∃ row ∈ (Tables.of evs).edgeRows, P row) ↔ ∃ p ∈ evs, p.isRejected = false ∧
      ∃ id ∈ p.prevEventIds, P ⟨p.eventId,id,p.isOutlier,false,p.isSoftFailed⟩ := by
  simp only [mem_edgeRows h]
  constructor
  · rintro ⟨_,⟨p,hp,hfalse,id,hid,rfl⟩,hrow⟩
    exact ⟨p,hp,hfalse,id,hid,hrow⟩
  · rintro ⟨p,hp,hfalse,id,hid,hrow⟩
    exact ⟨_,⟨p,hp,hfalse,id,hid,rfl⟩,hrow⟩

theorem mem_getEventsWhichArePrevs (h : Distinct evs) : e ∈ getEventsWhichArePrevs (.of evs) ids ↔
      e ∈ ids ∧ ∃ p ∈ evs, p.accepted ∧ e ∈ p.prevEventIds := by
  simp only [getEventsWhichArePrevs,mem_flatMap,mem_map,mem_filter,and_assoc,exists_edgeRow h,
    Bool.and_eq_true,Bool.not_eq_true',decide_eq_true_eq,EventPersistencePair.accepted]
  constructor
  · rintro ⟨chunk,hchunk,p,hp,hfalse,id,hid,hin,-,he,hsoft,rfl⟩
    exact ⟨mem_batchIter.mp ⟨chunk,hchunk,he⟩,p,hp,hin,hfalse,hsoft,hid⟩
  · rintro ⟨he,p,hp,hin,hfalse,hsoft,hid⟩
    obtain ⟨chunk,hchunk,he⟩ := mem_batchIter.mpr he
    exact ⟨chunk,hchunk,p,hp,hfalse,e,hid,hin,trivial,he,hsoft,rfl⟩

/-- No edge of a rejected event was stored, so only the soft-failed events are followed. -/
theorem mem_edgesBeforeRejected (h : Distinct evs) : (x,y) ∈ edgesBeforeRejected (.of evs) ↔
    ∃ p ∈ evs, p.softFailedOnly ∧ p.eventId = x ∧ y ∈ p.prevEventIds := by
  simp only [edgesBeforeRejected,mem_map,mem_filter,and_assoc,exists_edgeRow h,Bool.not_eq_true',
    Bool.or_eq_true,Bool.false_eq_true,or_false,Prod.mk.injEq,EventPersistencePair.softFailedOnly,Bool.and_eq_true]
  constructor
  · rintro ⟨p,hp,hfalse,id,hid,hin,hsoft,rfl,rfl⟩
    exact ⟨p,hp,hin,hfalse,hsoft,rfl,hid⟩
  · rintro ⟨p,hp,hin,hfalse,hsoft,rfl,hid⟩
    exact ⟨p,hp,hfalse,y,hid,hin,hsoft,rfl,rfl⟩

theorem mem_getPrevsBeforeRejected {t : Tables} : e ∈ getPrevsBeforeRejected t ids ↔
      ∃ a ∈ ids, TransGen (fun x y => (x,y) ∈ edgesBeforeRejected t) a e := by
  rw [getPrevsBeforeRejected,Rounds.mem_searchAll]
  constructor
  · rintro ⟨chunk,hchunk,a,ha,hreach⟩
    exact ⟨a,mem_batchIter.mp ⟨chunk,hchunk,ha⟩,hreach⟩
  · rintro ⟨a,ha,hreach⟩
    obtain ⟨chunk,hchunk,hin⟩ := mem_batchIter.mpr ha
    exact ⟨chunk,hchunk,a,hin,hreach⟩

theorem mem_calculateNewExtremities (h : Distinct evs) {batch : List EventPersistencePair}
    {latest : List String} : e ∈ calculateNewExtremities (.of evs) batch latest ↔
      (e ∈ latest ∨ ∃ n ∈ batch, n.accepted ∧ n.eventId = e) ∧
      (∀ n ∈ batch, n.accepted → ∀ id ∈ n.prevEventIds, id ≠ e ∧
        ¬TransGen (fun x y => (x,y) ∈ edgesBeforeRejected (.of evs)) id e) ∧
      ∀ p ∈ evs, p.accepted → e ∉ p.prevEventIds := by
  simp only [calculateNewExtremities,mem_filter,mem_union_iff,mem_map,
    decide_eq_true_eq,mem_getEventsWhichArePrevs h,mem_getPrevsBeforeRejected]
  grind

end queries

section retries
variable {t : Tables}

/-- The transaction of a chunk, which is aborted after each of the numbers of queries and run
again. What was added to `existing_prevs` stays there. -/
def getPrevsBeforeRejectedTxn (t : Tables) (existingPrevs : List String) (call : List String × List ℕ) :
    List String :=
  let edges := edgesBeforeRejected t
  (call.2 ++ [edges.length + 1]).foldl
    (fun found queries => Rounds.search edges queries call.1 found) existingPrevs

def IsPrevOf (t : Tables) (calls : List (List String × List ℕ)) (e : String) : Prop :=
  ∃ call ∈ calls, ∃ a ∈ call.1, TransGen (fun x y => (x,y) ∈ edgesBeforeRejected t) a e

/-- The first attempt that was aborted after a query had found all there was to find. -/
def AbortsLate (t : Tables) (before : List (List String × List ℕ)) (call : List String × List ℕ) : Prop :=
  ∀ k ∈ call.2.find? (· ≠ 0), ∀ e, IsPrevOf t [call] e →
    IsPrevOf t before e ∨ ∃ a ∈ call.1, Rounds.Within (edgesBeforeRejected t) k a e

/-- After every chunk the prevs are all there, and no others, exactly if no transaction was
aborted between what it found first and the rest. -/
theorem retried_prevs_exact_iff (calls : List (List String × List ℕ)) :
    (∀ pre, pre <+: calls → ∀ e,
      e ∈ pre.foldl (getPrevsBeforeRejectedTxn t) [] ↔ IsPrevOf t pre e) ↔
      ∀ pre call, pre ++ [call] <+: calls → AbortsLate t pre call := by
  refine Runs.prefixes_iff (fun pre call _ hpre => ?_) (by simp [IsPrevOf])
  have hclosed : ∀ work, Rounds.Closed (edgesBeforeRejected t) work
      (pre.foldl (getPrevsBeforeRejectedTxn t) []) := by
    intro work x hx
    refine .inr fun y hedge => (hpre y).mpr ?_
    obtain ⟨call,hcall,a,ha,hreach⟩ := (hpre x).mp hx
    exact ⟨call,hcall,a,ha,hreach.tail hedge⟩
  have hsplit : ∀ e, IsPrevOf t (pre ++ [call]) e ↔ IsPrevOf t pre e ∨ IsPrevOf t [call] e := by
    simp [IsPrevOf,or_and_right,exists_or]
  rw [foldl_append,foldl_cons,foldl_nil,getPrevsBeforeRejectedTxn,Rounds.foldl_search (hclosed _)]
  cases hk : call.2.find? (· ≠ 0) with
  | none =>
    refine iff_of_true (fun e => ?_) fun k hfirst => by cases hk ▸ hfirst
    simp only [find?_append,hk,Option.none_or,hsplit,← hpre]
    simpa [IsPrevOf] using
      Rounds.mem_search (hclosed call.1) (Nat.lt_succ_of_le (Rounds.remaining_card_le _))
  | some k =>
    simp only [find?_append,hk,Option.some_or,Option.map_some,Option.getD_some,AbortsLate,Option.mem_some_iff,
      forall_eq',hsplit,Rounds.mem_search_within (hclosed call.1),hpre]
    constructor
    · intro h e he
      exact (h e).mpr (.inr he)
    · intro h e
      refine ⟨fun hfound => hfound.imp_right ?_,fun he => he.elim .inl (h e)⟩
      rintro ⟨a,ha,hwithin⟩
      exact ⟨call,mem_singleton_self _,a,ha,hwithin.transGen⟩

/-- `$b` was found before the abort, and so its own prev event is not looked for. -/
theorem aborted_search_loses_prevs :
    let t : Tables := ⟨[("$a",false),("$b",false)],[("$a","$b"),("$b","$c")],[],[("$a",true),("$b",true)]⟩
    let call := (["$a"],[1])
    getPrevsBeforeRejectedTxn t [] call = ["$b"] ∧ IsPrevOf t [call] "$c" := by
  refine ⟨by decide +kernel,_,mem_singleton_self _,"$a",mem_singleton_self _,?_⟩
  exact .head (b := "$b") (by decide +kernel) (.single (by decide +kernel))

end retries

end TextrpBriij.Persist
