import TextrpBriij.Foundation.Runs

/-! # The queues of application services

Each service has a sender that takes what is queued for it, in one transaction after another.
The dict of device-list summaries is one for all services, and a sender that has folded those of
its own service clears all of it.
-/
namespace TextrpBriij.Appservice
open List

structure DeviceListUpdates where
  changed : Finset String
  left : Finset String
deriving DecidableEq

namespace DeviceListUpdates
variable {user : String} {summaries : List DeviceListUpdates} {summary : DeviceListUpdates}

def isEmpty (d : DeviceListUpdates) : Bool := d.changed = ∅ ∧ d.left = ∅

def fold (d summary : DeviceListUpdates) : DeviceListUpdates :=
  ⟨(d.changed ∪ summary.changed) \ summary.left,(d.left \ summary.changed) ∪ summary.left⟩

def consolidate (summaries : List DeviceListUpdates) : DeviceListUpdates :=
  summaries.foldl fold ⟨∅,∅⟩

def latest (user : String) (summaries : List DeviceListUpdates) : Option DeviceListUpdates :=
  (summaries.filter fun summary => user ∈ summary.changed ∪ summary.left).getLast?

theorem latest_append : latest user (summaries ++ [summary]) =
    if user ∈ summary.changed ∪ summary.left then some summary else latest user summaries := by
  simp only [latest,filter_append]
  split
  · rename_i h
    rw [filter_cons_of_pos (by simpa using h),filter_nil,getLast?_concat]
  · rename_i h
    rw [filter_cons_of_neg (by simpa using h),filter_nil,append_nil]

def LatestDecides (user : String) (summaries : List DeviceListUpdates) (d : DeviceListUpdates) : Prop :=
  (user ∈ d.changed ↔ ∃ last, latest user summaries = some last ∧ user ∉ last.left) ∧
    (user ∈ d.left ↔ ∃ last, latest user summaries = some last ∧ user ∈ last.left)

theorem latestDecides_consolidate (user : String) (summaries : List DeviceListUpdates) :
    LatestDecides user summaries (consolidate summaries) := by
  induction summaries using reverseRecOn with
  | nil => simp [LatestDecides,consolidate,latest]
  | append_singleton summaries summary ih =>
    have hfold : consolidate (summaries ++ [summary]) = fold (consolidate summaries) summary := by
      simp [consolidate]
    rw [hfold,LatestDecides,latest_append]
    by_cases hleft : user ∈ summary.left
    · simp [fold,hleft]
    · by_cases hchanged : user ∈ summary.changed
      · simp [fold,hchanged]
      · simpa [LatestDecides,fold,hleft,hchanged] using ih

theorem isEmpty_of_consolidate (h : (consolidate summaries).isEmpty)
    (hmem : summary ∈ summaries) : summary.isEmpty := by
  simp only [isEmpty,decide_eq_true_eq] at h ⊢
  rw [← Finset.union_eq_empty,Finset.eq_empty_iff_forall_notMem]
  intro user huser
  have hne : latest user summaries ≠ none := by
    rw [latest,Ne,getLast?_eq_none_iff,filter_eq_nil_iff]
    exact fun hall => hall summary hmem (decide_eq_true huser)
  obtain ⟨last,hlast⟩ := Option.ne_none_iff_exists'.mp hne
  obtain ⟨hchanged,hleft⟩ := latestDecides_consolidate user summaries
  by_cases hin : user ∈ last.left
  · exact absurd (hleft.mpr ⟨last,hlast,hin⟩) (by simp [h.2])
  · exact absurd (hchanged.mpr ⟨last,hlast,hin⟩) (by simp [h.1])

end DeviceListUpdates

/-- The arguments of one call of the transaction controller; of the device-list summaries those
that were taken, with what is sent of them below. -/
structure Transaction (α κ : Type) where
  events : List α
  ephemeral : List α
  toDeviceMessages : List α
  keyCounts : Option κ
  summaries : List DeviceListUpdates

/-- Where a sender waits: for the counts of keys, or for the controller. -/
inductive Sender (α κ : Type) where
  | counting (txn : Transaction α κ)
  | sending

/-- What there is for one service: its entries of the queues, its sender if it has one in flight,
the calls it has made, and all summaries that were ever queued. -/
structure Station (α κ : Type) where
  queuedEvents : List α
  queuedEphemeral : List α
  queuedToDeviceMessages : List α
  queuedDeviceListSummaries : List DeviceListUpdates
  sender : Option (Sender α κ)
  sent : List (Transaction α κ)
  enqueued : List DeviceListUpdates

variable {α κ : Type}

def Transaction.deviceListSummary (txn : Transaction α κ) : DeviceListUpdates :=
  DeviceListUpdates.consolidate txn.summaries

def Transaction.isEmpty (txn : Transaction α κ) : Bool :=
  txn.events.isEmpty && txn.ephemeral.isEmpty && txn.toDeviceMessages.isEmpty && txn.deviceListSummary.isEmpty

namespace Station

def send (st : Station α κ) (txn : Transaction α κ) : Station α κ :=
  { st with
    sender := some .sending
    sent := st.sent ++ [txn] }

def clear (st : Station α κ) : Station α κ := { st with queuedDeviceListSummaries := [] }

/-- One round of the loop up to where it waits or returns. -/
def sendRequest (msc3202 : Bool) (st : Station α κ) : Station α κ :=
  let txn : Transaction α κ := ⟨st.queuedEvents.take 100,st.queuedEphemeral.take 100,
    st.queuedToDeviceMessages.take 100,none,st.queuedDeviceListSummaries⟩
  let st := clear { st with
    queuedEvents := st.queuedEvents.drop 100
    queuedEphemeral := st.queuedEphemeral.drop 100
    queuedToDeviceMessages := st.queuedToDeviceMessages.drop 100 }
  if txn.isEmpty then { st with sender := none }
  else if msc3202 then { st with sender := some (.counting txn) }
  else st.send txn

def enqueue (st : Station α κ) (events ephemeral toDeviceMessages : List α)
    (summaries : List DeviceListUpdates) : Station α κ :=
  { st with
    queuedEvents := st.queuedEvents ++ events
    queuedEphemeral := st.queuedEphemeral ++ ephemeral
    queuedToDeviceMessages := st.queuedToDeviceMessages ++ toDeviceMessages
    queuedDeviceListSummaries := st.queuedDeviceListSummaries ++ summaries
    enqueued := st.enqueued ++ summaries }

end Station

/-- Data is queued, the counts of keys are there or could not be read, the controller returns. -/
inductive Call (α κ : Type) where
  | enqueueForAppservice (events ephemeral toDeviceMessages : List α)
      (deviceListSummary : Option DeviceListUpdates)
  | counted (counts : Option κ)
  | sent

/-- What becomes of the service, and whether its loop came round. -/
def Station.act (msc3202 : Bool) (st : Station α κ) : Call α κ → Station α κ × Bool
  | .enqueueForAppservice events ephemeral toDeviceMessages deviceListSummary =>
    let summaries := (deviceListSummary.filter (!·.isEmpty)).toList
    if events.isEmpty && ephemeral.isEmpty && toDeviceMessages.isEmpty && summaries.isEmpty then
      (st,false)
    else
      let st := st.enqueue events ephemeral toDeviceMessages summaries
      if st.sender.isSome then (st,false) else (st.sendRequest msc3202,true)
  | .counted counts =>
    match st.sender,counts with
    | some (.counting txn),some counts => (st.send { txn with keyCounts := some counts },false)
    | some (.counting _),none => ({ st with sender := none },false)
    | _,_ => (st,false)
  | .sent =>
    match st.sender with
    | some .sending => (st.sendRequest msc3202,true)
    | _ => (st,false)

abbrev Queuer (α κ : Type) := String → Station α κ

/-- A loop that comes round clears the summaries of all services. -/
def step (msc3202 : String → Bool) (q : Queuer α κ) (a : String × Call α κ) : Queuer α κ :=
  let (st,cleared) := (q a.1).act (msc3202 a.1) a.2
  Function.update (if cleared then fun service => (q service).clear else q) a.1 st

def empty : Queuer α κ := fun _ => ⟨[],[],[],[],none,[],[]⟩

namespace Station
variable {st : Station α κ} {msc3202 : Bool}

def inHand (st : Station α κ) : List DeviceListUpdates :=
  match st.sender with
  | some (.counting txn) => txn.summaries
  | _ => []

/-- Every summary that was queued is in one call, in hand or queued, in this order. -/
structure Ordered (st : Station α κ) : Prop where
  order : st.enqueued = st.sent.flatMap Transaction.summaries ++ st.inHand ++ st.queuedDeviceListSummaries
  mention : ∀ summary ∈ st.queuedDeviceListSummaries, summary.isEmpty = false

/-- Besides, nothing is queued where no sender is in flight. -/
structure Accounted (st : Station α κ) : Prop extends st.Ordered where
  idle : st.sender = none → st.queuedDeviceListSummaries = []

theorem Accounted.clear_iff (h : st.Accounted) : st.clear.Accounted ↔ st.queuedDeviceListSummaries = [] := by
  constructor
  · intro hclear
    have horder := h.order.symm.trans hclear.order
    simpa [clear,inHand] using horder
  · intro hnil
    unfold clear
    rwa [← hnil]

theorem Ordered.enqueue (h : st.Ordered) (events ephemeral toDevice : List α)
    {summaries : List DeviceListUpdates} (hmention : ∀ d ∈ summaries, d.isEmpty = false) :
    (st.enqueue events ephemeral toDevice summaries).Ordered := by
  constructor
  · simp [Station.enqueue,inHand,h.order]
  · exact fun d hmem => (mem_append.mp hmem).elim (h.mention d) (hmention d)

theorem Ordered.sendRequest (h : st.Ordered) (hhand : st.inHand = []) : (st.sendRequest msc3202).Accounted := by
  have horder := h.order
  rw [hhand] at horder
  simp only [Station.sendRequest]
  split
  · rename_i hempty
    have hnone : st.queuedDeviceListSummaries = [] := by
      refine eq_nil_iff_forall_not_mem.mpr fun d hmem => ?_
      have htrue := DeviceListUpdates.isEmpty_of_consolidate (Bool.and_eq_true_iff.mp hempty).2 hmem
      exact Bool.false_ne_true ((h.mention d hmem).symm.trans htrue)
    rw [hnone] at horder
    exact ⟨⟨by simpa [inHand,clear] using horder,by simp [clear]⟩,fun _ => rfl⟩
  · split
    · exact ⟨⟨by simpa [inHand,clear] using horder,by simp [clear]⟩,(nomatch ·)⟩
    · exact ⟨⟨by simpa [inHand,send,clear] using horder,by simp [send,clear]⟩,(nomatch ·)⟩

/-- The counts of keys cannot be read, and there is a summary to lose or to leave behind. -/
def Fails (st : Station α κ) (call : Call α κ) : Prop :=
  ∃ txn, st.sender = some (.counting txn) ∧ call = .counted none ∧
    txn.summaries ++ st.queuedDeviceListSummaries ≠ []

theorem Accounted.act_iff (h : st.Accounted) (msc3202 : Bool) (call : Call α κ) :
    (st.act msc3202 call).1.Accounted ↔ ¬ st.Fails call := by
  have hsame : (∀ txn, st.sender = some (.counting txn) → call ≠ .counted none) →
      ¬ st.Fails call := fun hno ⟨txn,hcounting,hcall,_⟩ => hno txn hcounting hcall
  cases call with
  | enqueueForAppservice events ephemeral toDevice summary =>
    refine iff_of_true ?_ (hsame fun _ _ => nofun)
    have hmention : ∀ d ∈ (summary.filter (!·.isEmpty)).toList, d.isEmpty = false := by
      simp [Option.filter_eq_some_iff]
    have henqueue := h.toOrdered.enqueue events ephemeral toDevice hmention
    simp only [act]
    split
    · exact h
    · split
      · rename_i hflight
        refine ⟨henqueue,fun hnone => ?_⟩
        rw [hnone] at hflight
        exact absurd hflight Bool.false_ne_true
      · rename_i hidle
        have hnone : st.sender = none := by simpa [Station.enqueue] using hidle
        exact henqueue.sendRequest (by simp [inHand,Station.enqueue,hnone])
  | counted counts =>
    simp only [act]
    split
    · rename_i txn counts hcounting
      refine iff_of_true ⟨⟨?_,h.mention⟩,(nomatch ·)⟩ (hsame fun _ _ => nofun)
      have horder := h.order
      simp only [inHand,hcounting] at horder
      simpa [send,inHand] using horder
    · -- what was in hand is gone, and what is queued has no sender
      rename_i txn hcounting
      have horder := h.order
      simp only [inHand,hcounting] at horder
      constructor
      · rintro hacc ⟨_,hsame',-,hne⟩
        have hlost := horder.symm.trans hacc.order
        have hqueue : st.queuedDeviceListSummaries = [] := hacc.idle rfl
        have hhand : txn.summaries = [] := by simpa [inHand] using hlost
        obtain rfl : txn = _ := by simpa [hcounting] using hsame'
        exact hne (by rw [hhand,hqueue,append_nil])
      · intro hno
        have hnil : txn.summaries ++ st.queuedDeviceListSummaries = [] :=
          Classical.not_not.mp fun hne => hno ⟨txn,hcounting,rfl,hne⟩
        obtain ⟨hhand,hqueue⟩ := append_eq_nil_iff.mp hnil
        exact ⟨⟨by simpa [inHand,hhand] using horder,h.mention⟩,fun _ => hqueue⟩
    · rename_i hother
      refine iff_of_true h (hsame fun txn hcounting hcall => ?_)
      exact hother txn hcounting (by simpa using hcall)
  | sent =>
    refine iff_of_true ?_ (hsame fun _ _ => nofun)
    simp only [act]
    split
    · rename_i hsending
      exact h.toOrdered.sendRequest (by rw [inHand,hsending])
    · exact h

end Station

variable {msc3202 : String → Bool} {q q' : Queuer α κ} {a : String × Call α κ}

/-- A loop comes round only while no other service has a summary queued, and the counts of keys
can be read where there is a summary to lose. -/
def Undisturbed (msc3202 : String → Bool) (q : Queuer α κ) (a : String × Call α κ) : Prop :=
  (((q a.1).act (msc3202 a.1) a.2).2 = true →
    ∀ other, other ≠ a.1 → (q other).queuedDeviceListSummaries = []) ∧ ¬ (q a.1).Fails a.2

theorem step_self : step msc3202 q a a.1 = ((q a.1).act (msc3202 a.1) a.2).1 := by
  simp [step]

theorem step_other {other : String} (h : other ≠ a.1) : step msc3202 q a other =
    if ((q a.1).act (msc3202 a.1) a.2).2 then (q other).clear else q other := by
  simp only [step,Function.update_of_ne h]
  split <;> rfl

theorem accounted_step_iff (h : ∀ service, (q service).Accounted) :
    (∀ service, (step msc3202 q a service).Accounted) ↔ Undisturbed msc3202 q a := by
  have hself := (h a.1).act_iff (msc3202 a.1) a.2
  constructor
  · intro hall
    refine ⟨fun hcleared other hne => ?_,hself.mp (step_self ▸ hall a.1)⟩
    have hother := hall other
    rw [step_other hne,if_pos hcleared] at hother
    exact (h other).clear_iff.mp hother
  · rintro ⟨hclear,hfails⟩ service
    by_cases hne : service = a.1
    · rw [hne,step_self]
      exact hself.mpr hfails
    · rw [step_other hne]
      split
      · rename_i hcleared
        exact (h service).clear_iff.mpr (hclear hcleared service hne)
      · exact h service

theorem step_congr (h : Undisturbed msc3202 q a) {service : String}
    (hsame : q service = q' service) : step msc3202 q a service =
      if a.1 = service then step msc3202 q' a service else q' service := by
  split
  · rename_i heq
    subst heq
    rw [step_self,step_self,hsame]
  · rename_i hne
    rw [step_other (Ne.symm hne),hsame.symm]
    split
    · rename_i hcleared
      have hnil := h.1 hcleared service (Ne.symm hne)
      rw [Station.clear,← hnil]
    · rfl

def runCalls (msc3202 : String → Bool) (calls : List (String × Call α κ)) : Queuer α κ :=
  calls.foldl (step msc3202) empty

theorem runCalls_append (calls : List (String × Call α κ)) (a : String × Call α κ) :
    runCalls msc3202 (calls ++ [a]) = step msc3202 (runCalls msc3202 calls) a := by
  simp [runCalls]

/-- What the queues owe to every service after some calls: each summary in one call of the
controller, in the order of queueing, the latest mention of a user deciding, and all of this as
if there were no other service. -/
def SummariesKept (msc3202 : String → Bool) (calls : List (String × Call α κ)) : Prop :=
  ∀ service, (runCalls msc3202 calls service).Accounted ∧
    (∀ txn ∈ (runCalls msc3202 calls service).sent, ∀ user,
      DeviceListUpdates.LatestDecides user txn.summaries txn.deviceListSummary) ∧
    runCalls msc3202 calls service = runCalls msc3202 (calls.filter fun a => a.1 = service) service

theorem summariesKept_append_iff {calls : List (String × Call α κ)} (h : SummariesKept msc3202 calls) :
    SummariesKept msc3202 (calls ++ [a]) ↔ Undisturbed msc3202 (runCalls msc3202 calls) a := by
  rw [← accounted_step_iff fun service => (h service).1,← runCalls_append]
  constructor
  · exact fun hkept service => (hkept service).1
  · intro hacc service
    refine ⟨hacc service,fun _ _ _ => DeviceListUpdates.latestDecides_consolidate _ _,?_⟩
    rw [runCalls_append] at hacc ⊢
    have hfree := (accounted_step_iff fun service => (h service).1).mp hacc
    rw [step_congr hfree (h service).2.2]
    by_cases heq : a.1 = service
    · simp [heq,runCalls_append]
    · simp [heq]

/-- Every summary reaches its service in every state of a run exactly if no call disturbs
another service. -/
theorem summaries_kept_iff (msc3202 : String → Bool) (calls : List (String × Call α κ)) :
    (∀ pre, pre <+: calls → SummariesKept msc3202 pre) ↔
      ∀ pre a, pre ++ [a] <+: calls → Undisturbed msc3202 (runCalls msc3202 pre) a := by
  apply Runs.prefixes_iff (fun pre a _ hkept => summariesKept_append_iff hkept)
  intro service
  exact ⟨⟨⟨rfl,by simp [runCalls,empty]⟩,fun _ => rfl⟩,by simp [runCalls,empty],rfl⟩

/-- A summary that waits for the sender of one service is gone once another service is sent an
event. -/
theorem summary_lost_to_other_service :
    let calls : List (String × Call ℕ Unit) :=
      [("a",.enqueueForAppservice [1] [] [] none), ("a",.enqueueForAppservice [] [] [] (some ⟨{"@u:hs"},∅⟩)),
        ("b",.enqueueForAppservice [2] [] [] none),("b",.sent),("a",.sent)]
    let st := runCalls (fun _ => false) calls "a"
    st.enqueued = [⟨{"@u:hs"},∅⟩] ∧ st.sender.isNone = true ∧
      st.sent.flatMap Transaction.summaries = [] ∧ st.queuedDeviceListSummaries = [] := by
  decide +kernel

end TextrpBriij.Appservice
