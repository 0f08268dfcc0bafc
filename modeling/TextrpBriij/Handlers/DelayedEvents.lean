import TextrpBriij.Foundation.Runs

/-! # The timer of delayed events

Each operation on delayed events reads the next send time in its own transaction and moves the
one timer once it has resumed. Other transactions may come between the two. Times are in
milliseconds. The rows that are deleted once they are sent are processed, and nothing here reads
those.
-/
namespace TextrpBriij.Handlers.DelayedEvents
open List Runs

structure DelayedEvent where
  delayId : String
  userLocalpart : String
  roomId : String
  eventType : String
  stateKey : Option String
  delay : ℕ
  sendTs : ℕ
  isProcessed : Bool
deriving DecidableEq

def getNextDelayedEventSendTs (rows : List DelayedEvent) : Option ℕ :=
  ((rows.filter (!·.isProcessed)).map DelayedEvent.sendTs).min?

def DelayedEvent.isPending (delayId : String) (row : DelayedEvent) : Bool :=
  row.delayId = delayId ∧ !row.isProcessed

/-- What a transaction of the store does to the table, before it reads the next send time. -/
inductive Txn where
  | addDelayedEvent (event : DelayedEvent)
  | restartDelayedEvent (delayId : String) (currentTs : ℕ)
  | cancelDelayedEvent (delayId : String)
  | cancelDelayedStateEvents (roomId eventType stateKey notFromLocalpart : String)
  | processTargetDelayedEvent (delayId : String)
deriving DecidableEq

/-- `none` is a `NotFoundError`. -/
def Txn.run (rows : List DelayedEvent) : Txn → Option (List DelayedEvent)
  | .addDelayedEvent event => some (rows ++ [{ event with isProcessed := false }])
  | .restartDelayedEvent delayId currentTs =>
    if rows.any (·.isPending delayId) then some (rows.map fun row =>
      if row.isPending delayId then { row with sendTs := currentTs + row.delay } else row)
    else none
  | .cancelDelayedEvent delayId =>
    if rows.any (·.isPending delayId) then some (rows.filter (!·.isPending delayId)) else none
  | .cancelDelayedStateEvents roomId eventType stateKey notFromLocalpart =>
    some (rows.filter fun row => ¬ (row.roomId = roomId ∧ row.eventType = eventType ∧
      row.stateKey = some stateKey ∧ row.userLocalpart ≠ notFromLocalpart ∧ !row.isProcessed))
  | .processTargetDelayedEvent delayId =>
    if rows.any (·.isPending delayId) then some (rows.map fun row =>
      if row.isPending delayId then { row with isProcessed := true } else row)
    else none

def processTimeoutDelayedEvents (rows : List DelayedEvent) (currentTs : ℕ) : List DelayedEvent :=
  rows.map fun row => if row.sendTs ≤ currentTs then { row with isProcessed := true } else row

/-- An operation in progress: `_send_on_timeout` before its transaction, or any of them after it,
with the send time that it has read. The notification that a worker sends after an addition is of
the second kind. -/
inductive Operation where
  | timingOut (currentTs : ℕ)
  | resuming (nextSendTs : Option ℕ) (onTimeout : Bool)
deriving DecidableEq

/-- The table, the clock, when `_next_delayed_event_call` is due, and what is in progress. -/
structure State where
  rows : List DelayedEvent
  now : ℕ
  timer : Option ℕ
  running : List Operation

def scheduleNextAt (now nextSendTs : ℕ) : ℕ := now + (nextSendTs - now)

def nextSendTsChanged (timer nextSendTs : Option ℕ) : Bool := nextSendTs ≠ timer

/-- The timer after an operation has resumed. A time-out only tests that there is a send time, the
others whether it is another one, and `_schedule_next_at_or_none` stops the timer for none. -/
def resumed (nextSendTs : Option ℕ) (onTimeout : Bool) (now : ℕ) (timer : Option ℕ) : Option ℕ :=
  if onTimeout then
    if nextSendTs.getD 0 ≠ 0 then nextSendTs.map (scheduleNextAt now) else timer
  else if nextSendTsChanged timer nextSendTs then nextSendTs.map (scheduleNextAt now) else timer

inductive Action where
  | tick (ms : ℕ)
  | transact (txn : Txn) (isMaster : Bool)
  | fire
  | timeOut (i : ℕ)
  | resume (i : ℕ)

/-- A restart in a worker is over with its transaction. -/
def awaited (txn : Txn) (isMaster : Bool) (rows : List DelayedEvent) : List Operation :=
  match txn,isMaster with
  | .restartDelayedEvent _ _,false => []
  | _,_ => [.resuming (getNextDelayedEventSendTs rows) false]

def step (s : State) : Action → Option State
  | .tick ms => some { s with now := s.now + ms }
  | .transact txn isMaster =>
    (txn.run s.rows).map fun rows => { s with
      rows
      running := s.running ++ awaited txn isMaster rows }
  | .fire =>
    if s.timer.any (· ≤ s.now) then some { s with
      timer := none
      running := s.running ++ [.timingOut s.now] }
    else none
  | .timeOut i =>
    match s.running[i]? with
    | some (.timingOut currentTs) =>
      let rows := processTimeoutDelayedEvents s.rows currentTs
      some { s with
        rows
        running := s.running.set i (.resuming (getNextDelayedEventSendTs rows) true) }
    | _ => none
  | .resume i =>
    match s.running[i]? with
    | some (.resuming next onTimeout) => some { s with
        timer := resumed next onTimeout s.now s.timer
        running := s.running.eraseIdx i }
    | _ => none

/-- The state after start-up, which marks what is due and schedules the next event. -/
def start (rows : List DelayedEvent) (now : ℕ) : State :=
  let rows := processTimeoutDelayedEvents rows now
  ⟨rows,now,resumed (getNextDelayedEventSendTs rows) true now none,[]⟩

/-- The time is not after the send time of any event that waits for it. -/
def Covers (next : Option ℕ) (rows : List DelayedEvent) : Prop :=
  ∀ row ∈ rows, row.isProcessed = false → ∃ n ∈ next, n ≤ row.sendTs

instance decidableCovers (next : Option ℕ) (rows : List DelayedEvent) : Decidable (Covers next rows) :=
  inferInstanceAs (Decidable (∀ row ∈ rows, _ → ∃ n ∈ next, _))

/-- An operation resumes while the send time that it has read covers the table, and a restart in
a worker brings no event forward. -/
def settles (s : State) : Action → Bool
  | .resume i =>
    match s.running[i]? with
    | some (.resuming next _) => Covers next s.rows
    | _ => true
  | .transact (.restartDelayedEvent delayId currentTs) false =>
    ∀ row ∈ s.rows, row.isPending delayId = true → row.sendTs ≤ currentTs + row.delay
  | _ => true

variable {s s' : State} {rows : List DelayedEvent} {a : Action} {next : Option ℕ} {onTimeout : Bool}

theorem covers_getNext : Covers (getNextDelayedEventSendTs rows) rows := by
  intro row hrow hwaits
  have hmem : row.sendTs ∈ (rows.filter (!·.isProcessed)).map DelayedEvent.sendTs :=
    mem_map_of_mem (mem_filter.mpr ⟨hrow,by rw [hwaits]; rfl⟩)
  exact ⟨_,min?_eq_some_min (ne_nil_of_mem hmem),min_le_of_mem hmem⟩

/-- A time-out has not read a send time of zero, which it would not schedule. -/
def Fits (op : Operation) : Prop := op ≠ .resuming (some 0) true

theorem fits_timeout {currentTs : ℕ} : Fits (.resuming
    (getNextDelayedEventSendTs (processTimeoutDelayedEvents rows currentTs)) true) := by
  intro hop
  obtain ⟨row,hrow,hzero⟩ := mem_map.mp (min?_mem (Operation.resuming.inj hop).1)
  obtain ⟨hmem,hwaits⟩ := mem_filter.mp hrow
  obtain ⟨old,-,rfl⟩ := mem_map.mp hmem
  split at hwaits
  · cases hwaits
  · rename_i hlate
    rw [if_neg hlate] at hzero
    omega

def InTime (s : State) : Prop :=
  ∀ row ∈ s.rows, row.isProcessed = false → ∃ t ∈ s.timer, t ≤ max row.sendTs s.now

theorem inTime_resumed {running : List Operation} (hcovers : Covers next s.rows)
    (hfits : Fits (.resuming next onTimeout)) : InTime { s with
      timer := resumed next onTimeout s.now s.timer
      running } := by
  intro row hrow hwaits
  obtain ⟨n,rfl,hle⟩ := hcovers row hrow hwaits
  have hscheduled : scheduleNextAt s.now n ≤ max row.sendTs s.now := by
    unfold scheduleNextAt
    omega
  cases onTimeout with
  | true =>
    have hne : n ≠ 0 := fun hzero => hfits (by rw [hzero])
    exact ⟨_,by simp [resumed,hne],hscheduled⟩
  | false =>
    by_cases hsame : some n = s.timer
    · exact ⟨n,by simp [resumed,nextSendTsChanged,← hsame],hle.trans (le_max_left _ _)⟩
    · exact ⟨_,by simp [resumed,nextSendTsChanged,hsame],hscheduled⟩

theorem inTime_restart {delayId : String} {currentTs : ℕ} (h : InTime s)
    (hlater : ∀ row ∈ s.rows, row.isPending delayId → row.sendTs ≤ currentTs + row.delay)
    (hrun : (Txn.restartDelayedEvent delayId currentTs).run s.rows = some rows) :
    InTime { s with rows } := by
  obtain ⟨-,hs⟩ := Option.ite_none_right_eq_some.mp hrun
  cases hs
  intro row hrow hwaits
  obtain ⟨old,hold,rfl⟩ := mem_map.mp hrow
  split at hwaits
  · rename_i hpending
    obtain ⟨t,ht,hle⟩ := h old hold hwaits
    rw [if_pos hpending]
    exact ⟨t,ht,hle.trans (max_le_max_right _ (hlater old hold hpending))⟩
  · rename_i hother
    rw [if_neg hother]
    exact h old hold hwaits

structure Inv (s : State) : Prop where
  inTime : s.running = [] → InTime s
  fits : ∀ op ∈ s.running, Fits op

theorem inv_start (rows : List DelayedEvent) (now : ℕ) : Inv (start rows now) := by
  let rows := processTimeoutDelayedEvents rows now
  refine ⟨fun _ => ?_,fun op hop => absurd hop not_mem_nil⟩
  exact @inTime_resumed ⟨rows,now,none,[]⟩ _ _ _ covers_getNext fits_timeout

theorem inv_step (h : Inv s) (hstep : guarded (fun s a => settles s a) step s a = some s') : Inv s' := by
  obtain ⟨hsettles,hstep⟩ := guarded_eq_some.mp hstep
  cases a with
  | tick ms =>
    cases hstep
    refine ⟨fun hidle row hrow hwaits => ?_,h.fits⟩
    obtain ⟨t,ht,hle⟩ := h.inTime hidle row hrow hwaits
    exact ⟨t,ht,hle.trans (max_le_max_left _ (Nat.le_add_right _ _))⟩
  | transact txn isMaster =>
    obtain ⟨rows,hrun,rfl⟩ := Option.map_eq_some_iff.mp hstep
    constructor
    · intro hidle
      obtain ⟨hbefore,hnone⟩ := append_eq_nil_iff.mp hidle
      unfold awaited at hnone
      split at hnone
      · exact inTime_restart (h.inTime hbefore) (of_decide_eq_true hsettles) hrun
      · cases hnone
    · refine forall_mem_append.mpr ⟨h.fits,fun op hop => ?_⟩
      unfold awaited at hop
      split at hop
      · exact absurd hop not_mem_nil
      · simp [mem_singleton.mp hop,Fits]
  | fire =>
    obtain ⟨-,hs⟩ := Option.ite_none_right_eq_some.mp hstep
    cases hs
    refine ⟨fun hidle => by simp at hidle,forall_mem_append.mpr ⟨h.fits,?_⟩⟩
    simp [Fits]
  | timeOut i =>
    simp only [step] at hstep
    split at hstep
    · rename_i currentTs hi
      cases hstep
      constructor
      · intro hidle
        have hlength := length_eq_zero_iff.mpr hidle
        rw [length_set] at hlength
        simp [hlength] at hi
      · exact forall_mem_set h.fits fits_timeout
    · cases hstep
  | resume i =>
    simp only [step] at hstep
    split at hstep
    · rename_i next onTimeout hi
      cases hstep
      have hcovers : Covers next s.rows := by simpa [settles,hi] using hsettles
      refine ⟨fun _ => inTime_resumed hcovers (h.fits _ (mem_of_getElem? hi)),?_⟩
      exact fun op hop => h.fits op (mem_of_mem_eraseIdx hop)
    · cases hstep

/-- In every run whose operations settle, an event that is not processed has a timer in time
whenever nothing is in progress. -/
theorem delayed_event_has_timer {now : ℕ} {actions : List Action}
    (hrun : run (guarded (fun s a => settles s a = true) step) (start rows now) actions
      = some s) (hidle : s.running = []) :
    ∀ row ∈ s.rows, row.isProcessed = false → ∃ t ∈ s.timer, t ≤ max row.sendTs s.now :=
  (run_preserves inv_step (inv_start rows now) hrun).inTime hidle

def delayed (delayId : String) (sendTs : ℕ) : DelayedEvent :=
  ⟨delayId,"u","!r:hs","m.room.message",none,sendTs,sendTs,false⟩

def oneAddition : List Action :=
  [.transact (.addDelayedEvent (delayed "a" 5)) true,.resume 0]

theorem added_event_has_timer : ∃ s,
    run (guarded (fun s a => settles s a = true) step) (start [] 0) oneAddition = some s ∧
    ∀ row ∈ s.rows, row.isProcessed = false → ∃ t ∈ s.timer, t ≤ max row.sendTs s.now :=
  ⟨_,rfl,@delayed_event_has_timer _ [] 0 oneAddition rfl rfl⟩

/-- A cancellation that resumes after a later addition stops the timer of the added event. -/
theorem timer_stopped_by_cancellation :
    (run step (start [delayed "a" 5] 0)
      [.transact (.cancelDelayedEvent "a") true,.transact (.addDelayedEvent (delayed "b" 9)) true,
        .resume 1,.resume 0]).map (fun s => (s.rows,s.timer,s.running)) =
      some ([delayed "b" 9],none,[]) := by
  decide +kernel

end TextrpBriij.Handlers.DelayedEvents
