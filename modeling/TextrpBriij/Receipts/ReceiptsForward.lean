import TextrpBriij.Receipts.InsertReceipt

/-! # Read receipts move forward

Over any calls, the stored receipt is for the latest known event so far exactly when no call is for
several events that it could use, and none replaces a known event by an unknown one.
-/
namespace TextrpBriij.Receipts
open List

def ReceiptCall.knownOrderings (call : ReceiptCall) : List ℤ :=
  call.eventIds.filterMap fun eventId => (call.events.lookup eventId).map (·.streamOrdering)

def receipted (calls : List ReceiptCall) (key : ReceiptKey) : List ℤ :=
  calls.flatMap fun call => if call.key = key then call.knownOrderings else []

namespace ReceiptTables

variable {tables : ReceiptTables} {call : ReceiptCall} {calls pre : List ReceiptCall}

def MaxStored (calls : List ReceiptCall) : Prop :=
  ∀ key, (afterCalls calls).storedOrdering key = (receipted calls key).max?

/-- A call whose events are known returns. It stores the last of them if that is later than the
stored one, and changes nothing otherwise. -/
def StoresGreatest (tables : ReceiptTables) (call : ReceiptCall) : Prop :=
  (∀ eventId ∈ call.eventIds, (call.events.lookup eventId).isSome) →
    (∃ position, (tables.insertReceipt call).1 = .ok position) ∧
    ∀ eventId ∈ call.eventIds, ∀ event, call.events.lookup eventId = some event →
      (∀ ordering ∈ call.knownOrderings, ordering ≤ event.streamOrdering) →
      (tables.insertReceipt call).2.linearized.lookup call.key =
        if (tables.storedOrdering call.key).any fun so => so ≥ event.streamOrdering then
          tables.linearized.lookup call.key
        else some ⟨call.streamId,call.instanceName,eventId,some event.streamOrdering,call.data⟩

/-- Along the calls the stored ordering is the greatest so far, and each call stores what it should. -/
def MovesForward (calls : List ReceiptCall) : Prop :=
  ∀ pre, pre <+: calls → MaxStored pre ∧ ∀ call, pre ++ [call] <+: calls → StoresGreatest (afterCalls pre) call

/-- What is asked of a call: an unknown event comes only before known ones, and a list of several
events has an unknown one and no known one that is later than the stored one. -/
def keepsOrder (tables : ReceiptTables) (call : ReceiptCall) : Bool :=
  match call.eventIds with
  | [] => true
  | [eventId] => (call.events.lookup eventId).isSome || (tables.storedOrdering call.key).isNone
  | eventIds => eventIds.any (fun eventId => (call.events.lookup eventId).isNone) &&
      call.knownOrderings.all fun ordering =>
        (tables.storedOrdering call.key).any fun so => ordering ≤ so

@[simp] theorem storedOrdering_insertGraphReceipt (key : ReceiptKey) :
    (tables.insertGraphReceipt call).storedOrdering key = tables.storedOrdering key := rfl

theorem storedOrdering_upsertLinearized (eventId : String) (streamOrdering : Option ℤ)
    (key : ReceiptKey) : (tables.upsertLinearized call eventId streamOrdering).storedOrdering key =
      if key = call.key then streamOrdering else tables.storedOrdering key := by
  unfold storedOrdering upsertLinearized
  split
  · rename_i hkey
    rw [hkey,AList.lookup_insert]
    rfl
  · rename_i hkey
    rw [AList.lookup_insert_ne hkey]

theorem storedOrdering_insertReceipt_one {eventId : String} (h : call.eventIds = [eventId])
    (key : ReceiptKey) : (tables.insertReceipt call).2.storedOrdering key =
      if key = call.key then
        match call.events.lookup eventId with
        | none => none
        | some event => some ((tables.storedOrdering call.key).elim event.streamOrdering
            fun so => max so event.streamOrdering)
      else tables.storedOrdering key := by
  have hlinear : linearizedEventId call = .ok (some eventId) := by rw [linearizedEventId,h]; rfl
  rw [insertReceipt,hlinear]
  cases hevent : call.events.lookup eventId with
  | none =>
    simp only [insertLinearizedReceiptTxn,hevent]
    exact storedOrdering_upsertLinearized ..
  | some event =>
    cases hstored : tables.storedOrdering call.key with
    | none =>
      simp only [insertLinearizedReceiptTxn,hevent,hstored,Option.any_none]
      exact storedOrdering_upsertLinearized ..
    | some so =>
      by_cases hle : so ≥ event.streamOrdering
      · simp only [insertLinearizedReceiptTxn,hevent,hstored,Option.any_some,hle,decide_true,
          if_true,Option.elim_some]
        split
        · rename_i hkey
          rw [hkey,hstored,max_eq_left hle]
        · rfl
      · simp only [insertLinearizedReceiptTxn,hevent,hstored,Option.any_some,hle,decide_false,
          Bool.false_eq_true,if_false,Option.elim_some,storedOrdering_insertGraphReceipt]
        rw [storedOrdering_upsertLinearized,max_eq_right (by omega)]

theorem insertReceipt_of_length_ne {tables : ReceiptTables} (h : call.eventIds.length ≠ 1) :
    (tables.insertReceipt call).2 = tables := by
  unfold insertReceipt linearizedEventId
  match heq : call.eventIds with
  | [] => rfl
  | [eventId] => simp [heq] at h
  | _ :: _ :: _ => rfl

theorem afterCalls_concat : afterCalls (calls ++ [call]) = ((afterCalls calls).insertReceipt call).2 := by
  rw [afterCalls,foldl_append]
  rfl

theorem receipted_concat (key : ReceiptKey) : receipted (calls ++ [call]) key =
    receipted calls key ++ if call.key = key then call.knownOrderings else [] := by
  simp [receipted]

theorem max?_append (xs ys : List ℤ) : (xs ++ ys).max? = xs.max?.merge max ys.max? := by
  cases hxs : xs.max? with
  | none =>
    obtain rfl := max?_eq_none_iff.mp hxs
    rw [nil_append,Option.merge_none_left]
  | some a =>
    cases hys : ys.max? with
    | none =>
      obtain rfl := max?_eq_none_iff.mp hys
      rw [append_nil,hxs,Option.merge_none_right]
    | some b =>
      obtain ⟨ha,hlea⟩ := max?_eq_some_iff.mp hxs
      obtain ⟨hb,hleb⟩ := max?_eq_some_iff.mp hys
      refine max?_eq_some_iff.mpr ⟨?_,fun c hc => ?_⟩
      · rcases max_choice a b with heq | heq
        · rw [heq]
          exact mem_append_left _ ha
        · rw [heq]
          exact mem_append_right _ hb
      · rcases mem_append.mp hc with hc | hc
        · exact le_max_of_le_left (hlea c hc)
        · exact le_max_of_le_right (hleb c hc)

theorem merge_max_eq_left_iff {stored : Option ℤ} {orderings : List ℤ} :
    stored.merge max orderings.max? = stored ↔
      orderings.all (fun ordering => stored.any fun so => ordering ≤ so) := by
  cases hmax : orderings.max? with
  | none =>
    obtain rfl := max?_eq_none_iff.mp hmax
    simp
  | some greatest =>
    obtain ⟨hin,hle⟩ := max?_eq_some_iff.mp hmax
    cases stored with
    | none =>
      simp only [Option.merge_none_left,reduceCtorEq,Option.any_none,all_eq_true,false_iff,not_forall]
      exact ⟨greatest,hin,fun h => h⟩
    | some so =>
      simp only [Option.merge_some_some,Option.some.injEq,Option.any_some,all_eq_true,
        decide_eq_true_eq,max_eq_left_iff]
      constructor
      · exact fun h ordering ho => (hle ordering ho).trans h
      · exact fun h => h greatest hin

theorem maxStored_concat_iff (h : MaxStored calls) : MaxStored (calls ++ [call]) ↔
    ((afterCalls calls).insertReceipt call).2.storedOrdering call.key =
      ((afterCalls calls).storedOrdering call.key).merge max call.knownOrderings.max? := by
  have hother : ∀ key, key ≠ call.key → ((afterCalls calls).insertReceipt call).2.storedOrdering key =
        (afterCalls calls).storedOrdering key := by
    intro key hkey
    match hids : call.eventIds with
    | [] => rw [insertReceipt_of_length_ne (by simp [hids])]
    | [eventId] => rw [storedOrdering_insertReceipt_one hids,if_neg hkey]
    | _ :: _ :: _ => rw [insertReceipt_of_length_ne (by simp [hids])]
  constructor
  · intro hafter
    have hown := hafter call.key
    rw [afterCalls_concat,receipted_concat,if_pos rfl,max?_append,← h call.key] at hown
    exact hown
  · intro hown key
    rw [afterCalls_concat,receipted_concat]
    by_cases hkey : key = call.key
    · subst hkey
      rw [if_pos rfl,max?_append,← h call.key]
      exact hown
    · rw [if_neg (Ne.symm hkey),append_nil,hother key hkey]
      exact h key

theorem insertReceipt_of_two {tables : ReceiptTables} {first second : String}
    {rest : List String} (h : call.eventIds = first :: second :: rest) :
    (tables.insertReceipt call).1 = .error (.raised "DatabaseError") := by
  rw [insertReceipt,linearizedEventId,h]
  rfl

theorem storesGreatest_one {eventId : String} (h : call.eventIds = [eventId]) : StoresGreatest tables call := by
  have hlinear : linearizedEventId call = .ok (some eventId) := by rw [linearizedEventId,h]; rfl
  intro _
  constructor
  · rw [insertReceipt,hlinear]
    simp only
    split
    · exact ⟨_,rfl⟩
    · exact ⟨_,rfl⟩
  · intro other hother event hevent _
    rw [h] at hother
    obtain rfl := mem_singleton.mp hother
    rw [insertReceipt,hlinear]
    simp only [insertLinearizedReceiptTxn,hevent]
    by_cases hstored : ((tables.storedOrdering call.key).any fun so =>
        decide (so ≥ event.streamOrdering))
    · simp only [hstored,if_true]
    · simp [hstored,insertGraphReceipt,upsertLinearized]

theorem forward_concat_iff (h : MaxStored calls) :
    MaxStored (calls ++ [call]) ∧ StoresGreatest (afterCalls calls) call ↔
      keepsOrder (afterCalls calls) call := by
  rw [maxStored_concat_iff h]
  match hids : call.eventIds with
  | [] =>
    have hleft : (afterCalls calls).insertReceipt call = (.ok none,afterCalls calls) := by
      rw [insertReceipt,linearizedEventId,hids]
      rfl
    have hgreatest : StoresGreatest (afterCalls calls) call := by
      refine fun _ => ⟨⟨none,by rw [hleft]⟩,fun eventId hin => ?_⟩
      rw [hids] at hin
      cases hin
    simp [keepsOrder,hids,hleft,hgreatest,ReceiptCall.knownOrderings]
  | [eventId] =>
    rw [and_iff_left (storesGreatest_one hids),storedOrdering_insertReceipt_one hids]
    cases hevent : call.events.lookup eventId with
    | none =>
      cases hstored : (afterCalls calls).storedOrdering call.key with
      | none => simp [keepsOrder,hids,hevent,hstored,ReceiptCall.knownOrderings]
      | some so => simp [keepsOrder,hids,hevent,hstored,ReceiptCall.knownOrderings]
    | some event =>
      cases hstored : (afterCalls calls).storedOrdering call.key with
      | none => simp [keepsOrder,hids,hevent,ReceiptCall.knownOrderings]
      | some so => simp [keepsOrder,hids,hevent,ReceiptCall.knownOrderings]
  | first :: second :: rest =>
    have hraises : ∀ position, ((afterCalls calls).insertReceipt call).1 ≠ .ok position := by
      intro position
      rw [insertReceipt_of_two hids]
      exact fun heq => nomatch heq
    have hgreatest : StoresGreatest (afterCalls calls) call ↔
        (call.eventIds.any fun eventId => (call.events.lookup eventId).isNone) := by
      constructor
      · intro hstores
        by_contra hknown
        obtain ⟨position,hok⟩ := (hstores (by
          simpa [Option.isSome_iff_ne_none] using hknown)).1
        exact hraises position hok
      · intro hunknown hknown
        obtain ⟨eventId,hin,hnone⟩ := any_eq_true.mp hunknown
        have hsome := hknown eventId hin
        rw [Option.isNone_iff_eq_none.mp hnone] at hsome
        cases hsome
    rw [hgreatest,insertReceipt_of_length_ne (by simp [hids]),eq_comm,merge_max_eq_left_iff,
      keepsOrder,hids,Bool.and_eq_true]
    exact and_comm

/-- Receipts move forward exactly in the sequences all of whose calls meet the condition. -/
theorem movesForward_iff_keepsOrder (calls : List ReceiptCall) : MovesForward calls ↔
    ∀ pre call, pre ++ [call] <+: calls → keepsOrder (afterCalls pre) call = true := by
  constructor
  · intro hforward pre call hpre
    have hbefore := hforward pre ((prefix_append pre [call]).trans hpre)
    exact (forward_concat_iff hbefore.1).mp ⟨(hforward _ hpre).1,hbefore.2 call hpre⟩
  · intro hkeeps
    have hmax : ∀ pre, pre <+: calls → MaxStored pre := by
      intro pre
      induction pre using reverseRecOn with
      | nil => exact fun _ key => rfl
      | append_singleton pre call ih =>
        intro hpre
        have hbefore := ih ((prefix_append pre [call]).trans hpre)
        exact ((forward_concat_iff hbefore).mpr (hkeeps pre call hpre)).1
    intro pre hpre
    refine ⟨hmax pre hpre,fun call hcall => ?_⟩
    exact ((forward_concat_iff (hmax pre hpre)).mpr (hkeeps pre call hcall)).2

def readCall (eventIds : List String) : ReceiptCall where
  key := ⟨"!room:s","m.read","@u:s",none⟩
  eventIds := eventIds
  data := []
  events := (AList.singleton "$first" ⟨1,0⟩).insert "$second" ⟨2,0⟩
  instanceName := "master"
  streamId := 0

/-- An unknown event replaces a known one, and then an earlier one is stored. A call for two known
events stores nothing. -/
theorem unknown_event_moves_receipt_back :
    (afterCalls [readCall ["$second"]]).storedOrdering (readCall []).key = some 2 ∧
    (afterCalls [readCall ["$second"],readCall ["$unknown"]]).storedOrdering (readCall []).key =
      none ∧
    (afterCalls [readCall ["$second"],readCall ["$unknown"],readCall ["$first"]]).storedOrdering
      (readCall []).key = some 1 ∧
    (insertReceipt ⟨∅,∅⟩ (readCall ["$first","$second"])).1 = .error (.raised "DatabaseError") ∧
    ¬MovesForward [readCall ["$second"],readCall ["$unknown"],readCall ["$first"]] ∧
    ¬MovesForward [readCall ["$first","$second"]] := by
  refine ⟨rfl,rfl,rfl,rfl,fun hforward => ?_,fun hforward => ?_⟩
  · have hstored := (hforward [readCall ["$second"],readCall ["$unknown"]] ⟨_,rfl⟩).1
    exact absurd (hstored (readCall []).key) (by decide +kernel)
  · have hstored := (hforward [readCall ["$first","$second"]] ⟨_,rfl⟩).1
    exact absurd (hstored (readCall []).key) (by decide +kernel)

end ReceiptTables

end TextrpBriij.Receipts
