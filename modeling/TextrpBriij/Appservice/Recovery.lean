import TextrpBriij.Foundation.Runs

/-! # Transactions of an application service

The sender of a service and its recoverer share the table of transactions. They hand over by the
state of the service, which both write in steps of their own. Database calls do not fail.
-/
namespace TextrpBriij.Appservice.Recovery
open List Runs

/-- A transaction before the answer of the service and before it is completed. -/
inductive Delivery where
  | sending (id : ℕ)
  | completing (id : ℕ)
deriving DecidableEq

/-- A call of `_TransactionController.send`, of which a sender makes one at a time. -/
inductive Sender where
  | idle
  | checking (hasEvents : Bool)
  | creating (serviceIsUp : Bool)
  | busy (delivery : Delivery)
deriving DecidableEq

inductive Recoverer where
  | scheduled
  | fetching
  | busy (delivery : Delivery)
deriving DecidableEq

/-- `failures` and `recovered` count the calls of `_on_txn_fail` and `on_recovered` that have not
written the state yet. `stored` and `delivered` are all transactions in the order in which they
were stored, and in which the service was given them. -/
structure State where
  isUp : Bool
  txns : List ℕ
  lastId : ℕ
  sender : Sender
  failures : ℕ
  recoverer : Option Recoverer
  recovered : ℕ
  stored : List ℕ
  delivered : List ℕ

inductive Action where
  | send (hasEvents : Bool)
  | sender (sent : Bool)
  | recoverer (sent : Bool)
  | onTxnFail
  | onRecovered

variable (s : State)

def createAppserviceTxn : State :=
  { s with
    lastId := s.lastId + 1
    txns := s.txns ++ [s.lastId + 1]
    stored := s.stored ++ [s.lastId + 1] }

def deliver (id : ℕ) : State := { s with delivered := s.delivered ++ [id] }

def completeAppserviceTxn (id : ℕ) : State := { s with txns := s.txns.filter (· ≠ id) }

def getOldestUnsentTxn : Option ℕ := s.txns.min?

/-- The next step of the sender; `sent` is the answer of the service, if it is asked. -/
def senderStep (sent : Bool) : Option State :=
  match s.sender with
  | .idle => none
  | .checking hasEvents => some { s with
      sender := if !s.isUp && !hasEvents then .idle else .creating s.isUp }
  | .creating serviceIsUp => some { createAppserviceTxn s with
      sender := if serviceIsUp then .busy (.sending (s.lastId + 1)) else .idle }
  | .busy (.sending id) =>
    if sent then some { deliver s id with sender := .busy (.completing id) }
    else some { s with
      failures := s.failures + 1
      sender := .idle }
  | .busy (.completing id) => some { completeAppserviceTxn s id with sender := .idle }

/-- The next step of `retry`, or the timer that calls it. -/
def recovererStep (sent : Bool) : Option State :=
  match s.recoverer with
  | none => none
  | some .scheduled => some { s with recoverer := some .fetching }
  | some .fetching =>
    match getOldestUnsentTxn s with
    | none => some { s with
        recoverer := none
        recovered := s.recovered + 1 }
    | some id => some { s with recoverer := some (.busy (.sending id)) }
  | some (.busy (.sending id)) =>
    if sent then some { deliver s id with recoverer := some (.busy (.completing id)) }
    else some { s with recoverer := some .scheduled }
  | some (.busy (.completing id)) => some { completeAppserviceTxn s id with
      recoverer := some .fetching }

def step : Action → Option State
  | .send hasEvents =>
    if s.sender = .idle then some { s with sender := .checking hasEvents } else none
  | .sender sent => senderStep s sent
  | .recoverer sent => recovererStep s sent
  | .onTxnFail =>
    -- where there is a recoverer, the assertion of `start_recoverer` fails and is logged
    if 0 < s.failures then some { s with
      failures := s.failures - 1
      isUp := false
      recoverer := s.recoverer.orElse fun _ => some .scheduled }
    else none
  | .onRecovered =>
    if 0 < s.recovered then some { s with
      recovered := s.recovered - 1
      isUp := true }
    else none

/-- A transaction is created for a service that was up only when none is stored, and for one that
was down only while its recoverer is registered. -/
def handsOver : Action → Bool
  | .sender _ =>
    match s.sender with
    | .creating true => s.txns = []
    | .creating false => s.recoverer.isSome
    | _ => true
  | _ => true

variable {s} {s' : State} {id : ℕ}

/-- All earlier transactions were delivered, or this one was. -/
def Delivery.Fits (s : State) : Delivery → Prop
  | .sending id => id ≤ s.lastId ∧ ∀ e ∈ s.stored, e < id → e ∈ s.delivered
  | .completing id => id ∈ s.delivered

/-- Each transaction was delivered after all earlier ones. -/
def InOrder (stored delivered : List ℕ) : Prop :=
  ∀ pre id post, delivered = pre ++ id :: post → ∀ e ∈ stored, e < id → e ∈ pre

/-- The sender is about to deliver the transaction or to report its failure, or a recoverer is
registered. -/
def Attended (s : State) (id : ℕ) : Prop :=
  s.sender = .busy (.sending id) ∨ 0 < s.failures ∨ s.recoverer.isSome

structure Inv (s : State) : Prop where
  known : ∀ e ∈ s.stored, e ∈ s.txns ∨ e ∈ s.delivered
  le_lastId : (∀ t ∈ s.txns, t ≤ s.lastId) ∧ ∀ t ∈ s.delivered, t ≤ s.lastId
  inOrder : InOrder s.stored s.delivered
  sender : ∀ d, s.sender = .busy d → d.Fits s
  recoverer : ∀ d, s.recoverer = some (.busy d) → d.Fits s
  attended : ∀ t ∈ s.txns, t ∈ s.delivered ∨ Attended s t

theorem Delivery.Fits.later {d : Delivery} (h : d.Fits s) (hlast : s.lastId ≤ s'.lastId)
    (hstored : ∀ e ∈ s'.stored, e ∈ s.stored ∨ s.lastId < e)
    (hdelivered : s.delivered ⊆ s'.delivered) : d.Fits s' := by
  cases d with
  | sending id =>
    refine ⟨Nat.le_trans h.1 hlast,fun e he hlt => ?_⟩
    have hle := h.1
    rcases hstored e he with hold | hnew
    · exact hdelivered (h.2 e hold hlt)
    · omega
  | completing id => exact hdelivered h

theorem InOrder.concat {stored delivered : List ℕ} (h : InOrder stored delivered)
    (hid : ∀ e ∈ stored, e < id → e ∈ delivered) : InOrder stored (delivered ++ [id]) := by
  intro pre other post heq
  rcases eq_nil_or_concat post with rfl | ⟨rest,last,rfl⟩
  · obtain ⟨rfl,hsame⟩ := append_inj' heq rfl
    cases hsame
    exact hid
  · rw [concat_eq_append,← cons_append,← append_assoc] at heq
    exact h pre other rest (append_inj' heq rfl).1

theorem Inv.deliver (h : Inv s) (hid : (Delivery.sending id).Fits s) : Inv (deliver s id) := by
  have hlater : ∀ d : Delivery, d.Fits s → d.Fits (Recovery.deliver s id) := fun d hd =>
    hd.later (Nat.le_refl _) (fun e he => .inl he) (subset_append_left _ _)
  refine ⟨fun e he => (h.known e he).imp_right (mem_append_left _),⟨h.le_lastId.1,?_⟩,
    h.inOrder.concat hid.2,fun d hd => hlater d (h.sender d hd),
    fun d hd => hlater d (h.recoverer d hd),
    fun t ht => (h.attended t ht).imp_left (mem_append_left _)⟩
  refine forall_mem_append.mpr ⟨h.le_lastId.2,fun t ht => ?_⟩
  rw [mem_singleton.mp ht]
  exact hid.1

theorem Inv.complete (h : Inv s) (hid : id ∈ s.delivered) : Inv (completeAppserviceTxn s id) := by
  have hsub : ∀ t ∈ s.txns.filter (· ≠ id), t ∈ s.txns := fun t ht => (mem_filter.mp ht).1
  refine ⟨fun e he => ?_,⟨fun t ht => h.le_lastId.1 t (hsub t ht),h.le_lastId.2⟩,h.inOrder,h.sender,
    h.recoverer,fun t ht => h.attended t (hsub t ht)⟩
  rcases h.known e he with htxn | hdone
  · by_cases heq : e = id
    · exact .inr (heq ▸ hid)
    · exact .inl (mem_filter.mpr ⟨htxn,by simpa using heq⟩)
  · exact .inr hdone

theorem Inv.create {sender : Sender} (h : Inv s)
    (hsender : ∀ d, sender = .busy d → d.Fits (createAppserviceTxn s))
    (hattended : ∀ t ∈ s.txns ++ [s.lastId + 1], t ∈ s.delivered ∨ Attended { s with sender } t) :
    Inv { createAppserviceTxn s with sender } := by
  refine ⟨fun e he => ?_,⟨?_,?_⟩,fun pre id post heq e he hlt => ?_,hsender,fun d hd => ?_,hattended⟩
  · rcases mem_append.mp he with hold | hnew
    · exact (h.known e hold).imp_left (mem_append_left _)
    · exact .inl (mem_append_right _ hnew)
  · refine forall_mem_append.mpr ⟨fun t ht => Nat.le_succ_of_le (h.le_lastId.1 t ht),?_⟩
    simp [createAppserviceTxn]
  · exact fun t ht => Nat.le_succ_of_le (h.le_lastId.2 t ht)
  · -- the new transaction comes after all that were delivered
    rcases mem_append.mp he with hold | hnew
    · exact h.inOrder pre id post heq e hold hlt
    · have hle := h.le_lastId.2 id (heq ▸ by simp)
      have hid := mem_singleton.mp hnew
      omega
  · refine (h.recoverer d hd).later (Nat.le_succ _) (fun e he => ?_) (Subset.refl _)
    refine (mem_append.mp he).imp_right fun hnew => ?_
    rw [mem_singleton.mp hnew]
    exact Nat.lt_succ_self _

theorem inv_senderStep {sent : Bool} (h : Inv s) (hover : handsOver s (.sender sent))
    (hstep : senderStep s sent = some s') : Inv s' := by
  unfold senderStep at hstep
  split at hstep
  · cases hstep
  · rename_i hasEvents hsender
    cases hstep
    refine { h with
      sender := fun d hd => by split at hd <;> cases hd
      attended := fun t ht => (h.attended t ht).imp_right (.imp_left fun hbusy => ?_) }
    rw [hsender] at hbusy
    cases hbusy
  · rename_i serviceIsUp hsender
    cases hstep
    cases serviceIsUp with
    | true =>
      have hnone : s.txns = [] := by simpa [handsOver,hsender] using hover
      refine h.create (fun d hd => ?_) fun t ht => .inr (.inl ?_)
      · cases hd
        refine ⟨Nat.le_refl _,fun e he hlt => ?_⟩
        rcases mem_append.mp he with hold | hnew
        · exact (h.known e hold).resolve_left (by simp [hnone])
        · rw [mem_singleton.mp hnew] at hlt
          exact absurd hlt (Nat.lt_irrefl _)
      · rw [hnone,nil_append,mem_singleton] at ht
        rw [ht]
        rfl
    | false =>
      have hregistered : s.recoverer.isSome := by simpa [handsOver,hsender] using hover
      exact h.create (fun d hd => by cases hd) fun t _ => .inr (.inr (.inr hregistered))
  · rename_i id hsender
    have hid := h.sender _ hsender
    split at hstep
    · cases hstep
      refine { h.deliver hid with
        sender := fun d hd => ?_
        attended := fun t ht => ?_ }
      · cases hd
        exact mem_append_right _ (mem_singleton.mpr rfl)
      · rcases h.attended t ht with hdone | hbusy | hothers
        · exact .inl (mem_append_left _ hdone)
        · cases hsender.symm.trans hbusy
          exact .inl (mem_append_right _ (mem_singleton.mpr rfl))
        · exact .inr (.inr hothers)
    · cases hstep
      exact { h with
        sender := fun d hd => by cases hd
        attended := fun t _ => .inr (.inr (.inl (Nat.succ_pos _))) }
  · rename_i id hsender
    cases hstep
    refine { h.complete (h.sender _ hsender) with
      sender := fun d hd => by cases hd
      attended := fun t ht => ?_ }
    refine ((h.complete (h.sender _ hsender)).attended t ht).imp_right (.imp_left fun hbusy => ?_)
    cases hsender.symm.trans hbusy

theorem inv_recovererStep {sent : Bool} (h : Inv s) (hstep : recovererStep s sent = some s') : Inv s' := by
  have hregistered : ∀ {s : State} {r : Recoverer} {t : ℕ}, s.recoverer = some r → Attended s t :=
    fun hr => .inr (.inr (by rw [hr]; rfl))
  unfold recovererStep at hstep
  split at hstep
  · cases hstep
  · cases hstep
    exact { h with
      recoverer := fun d hd => by cases hd
      attended := fun t _ => .inr (hregistered rfl) }
  · split at hstep
    · -- nothing is stored when the recoverer goes
      rename_i hnone
      cases hstep
      refine { h with
        recoverer := fun d hd => by cases hd
        attended := fun t ht => ?_ }
      rw [min?_eq_none_iff.mp hnone] at ht
      cases ht
    · rename_i id holdest
      cases hstep
      obtain ⟨hmem,hleast⟩ := min?_eq_some_iff.mp holdest
      refine { h with
        recoverer := fun d hd => ?_
        attended := fun t _ => .inr (hregistered rfl) }
      cases hd
      refine ⟨h.le_lastId.1 id hmem,fun e he hlt => (h.known e he).resolve_left fun htxn => ?_⟩
      exact absurd (hleast e htxn) (Nat.not_le.mpr hlt)
  · rename_i id hrecoverer
    split at hstep
    · cases hstep
      refine { h.deliver (h.recoverer _ hrecoverer) with
        recoverer := fun d hd => ?_
        attended := fun t _ => .inr (hregistered rfl) }
      cases hd
      exact mem_append_right _ (mem_singleton.mpr rfl)
    · cases hstep
      exact { h with
        recoverer := fun d hd => by cases hd
        attended := fun t _ => .inr (hregistered rfl) }
  · rename_i id hrecoverer
    cases hstep
    exact { h.complete (h.recoverer _ hrecoverer) with
      recoverer := fun d hd => by cases hd
      attended := fun t _ => .inr (hregistered rfl) }

theorem inv_step {a : Action} (h : Inv s)
    (hstep : guarded (fun s a => handsOver s a) step s a = some s') : Inv s' := by
  obtain ⟨hover,hstep⟩ := guarded_eq_some.mp hstep
  cases a with
  | send hasEvents =>
    obtain ⟨hidle,hs⟩ := Option.ite_none_right_eq_some.mp hstep
    cases hs
    refine { h with
      sender := fun d hd => by cases hd
      attended := fun t ht => (h.attended t ht).imp_right (.imp_left fun hbusy => ?_) }
    cases hidle.symm.trans hbusy
  | sender sent => exact inv_senderStep h hover hstep
  | recoverer sent => exact inv_recovererStep h hstep
  | onTxnFail =>
    obtain ⟨-,hs⟩ := Option.ite_none_right_eq_some.mp hstep
    cases hs
    cases hr : s.recoverer with
    | none =>
      exact { h with
        recoverer := fun d hd => by cases hd
        attended := fun t _ => .inr (.inr (.inr rfl)) }
    | some r =>
      exact { h with
        recoverer := fun d hd => h.recoverer d (hr.trans hd)
        attended := fun t _ => .inr (.inr (.inr rfl)) }
  | onRecovered =>
    obtain ⟨-,hs⟩ := Option.ite_none_right_eq_some.mp hstep
    cases hs
    exact { h with }

def start (lastId : ℕ) : State := ⟨true,[],lastId,.idle,0,none,0,[],[]⟩

/-- In every run that hands over as it should, each delivery of a transaction comes after those
of all earlier ones, and one that was not delivered is attended to. -/
theorem transactions_in_order {lastId : ℕ} {actions : List Action}
    (hrun : run (guarded (fun s a => handsOver s a = true) step) (start lastId) actions
      = some s) :
    InOrder s.stored s.delivered ∧ ∀ id ∈ s.stored, id ∉ s.delivered → Attended s id := by
  have hstart : Inv (start lastId) := ⟨nofun,⟨nofun,nofun⟩,fun pre id post heq => by simp [start] at heq,
    nofun,nofun,nofun⟩
  have h := run_preserves inv_step hstart hrun
  refine ⟨h.inOrder,fun id hid hnot => ?_⟩
  have htxn := (h.known id hid).resolve_right hnot
  exact (h.attended id htxn).resolve_left hnot

/-- The service is down for the first transaction, which is delivered by the recoverer. -/
def recovery : List Action :=
  [.send true,.sender true,.sender true,.sender false,.onTxnFail,.recoverer true,.recoverer true,
    .recoverer true,.recoverer true]

theorem recovered_in_order : ∃ s,
    run (guarded (fun s a => handsOver s a = true) step) (start 0) recovery = some s ∧
    s.delivered = [1] ∧
    InOrder s.stored s.delivered ∧ ∀ id ∈ s.stored, id ∉ s.delivered → Attended s id :=
  ⟨_,rfl,rfl,@transactions_in_order _ 0 recovery rfl⟩

/-- The sender reads that the service is down, the recoverer finds nothing more to send, and the
transaction that is stored then is left alone with a service that is up. -/
theorem transaction_stuck :
    (run step (start 0) (recovery ++
      [.send true,.sender true,.recoverer true,.sender true,.onRecovered])).map
      (fun s => ((s.isUp,s.txns,s.sender),s.failures,s.recoverer,s.recovered,s.delivered)) =
      some ((true,[2],.idle),0,none,0,[1]) := by
  decide +kernel

end TextrpBriij.Appservice.Recovery
