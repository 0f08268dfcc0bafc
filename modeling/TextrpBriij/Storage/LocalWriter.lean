import TextrpBriij.Foundation.Runs
import TextrpBriij.Storage.GeneratorStart

/-! # One running instance

A generator together with its running fetches. The three phases of
`_load_next_mult_id_txn` are separate steps, so that completions, other fetches and
replication come between them in any order.
-/
namespace TextrpBriij.Storage
open Generator List Runs

structure Instance where
  gen : Generator
  fetches : List Fetch

def Instance.active (s : Instance) : List ℤ := s.gen.active s.fetches

inductive Action where
  | register
  | fetch (i : ℕ) (streamIds : List ℤ)
  | fail (i : ℕ)
  | record (i : ℕ)
  | release (i : ℕ)
  | finish (nextIds : List ℤ)
  | receive (writer : String) (newId : ℤ)

def Action.ids : Action → List ℤ
  | .fetch _ streamIds => streamIds
  | _ => []

def Action.reported (factor : ℤ) : Action → List ℤ
  | .receive _ newId => [newId * factor]
  | _ => []

instance (g : Generator) : Decidable g.mayWrite := inferInstanceAs (Decidable (_ ∨ _))

/-- What one instance does. A step that the code refuses, or that does not fit the phase
of its fetch, is `none`. -/
def Instance.step (s : Instance) : Action → Option Instance
  | .register =>
    if s.gen.mayWrite then
      some ⟨s.gen.registerFetch,⟨s.gen.maxSeenAllocatedStreamId,.waiting []⟩ :: s.fetches⟩
    else none
  | .fetch i streamIds =>
    match s.fetches[i]? with
    | some ⟨m,.waiting ids⟩ => some ⟨s.gen,s.fetches.set i ⟨m,.waiting (ids ++ streamIds)⟩⟩
    | _ => none
  | .fail i =>
    match s.fetches[i]? with
    | some ⟨m,.waiting _⟩ => some ⟨s.gen,s.fetches.set i ⟨m,.leaving⟩⟩
    | _ => none
  | .record i =>
    match s.fetches[i]? with
    | some ⟨m,.waiting ids⟩ => some ⟨s.gen.recordFetch ids,s.fetches.set i ⟨m,.leaving⟩⟩
    | _ => none
  | .release i =>
    match s.fetches[i]? with
    | some ⟨m,.leaving⟩ => some ⟨s.gen.releaseFetch m,s.fetches.eraseIdx i⟩
    | _ => none
  | .finish nextIds =>
    if ∀ x ∈ nextIds, x ∈ s.gen.unfinishedIds then
      match s.gen.markIdsAsFinished nextIds with
      | .ok g => some ⟨g,s.fetches⟩
      | .error _ => some s  -- only for no IDs at all: then nothing had changed
    else none
  | .receive writer newId =>
    if writer ≠ s.gen.instanceName then some ⟨s.gen.advance writer newId,s.fetches⟩ else none

inductive Instance.Steps : Instance → Action → Instance → Prop
  | register {g : Generator} {fs : List Fetch} (hw : g.mayWrite) :
      Steps ⟨g,fs⟩ .register ⟨g.registerFetch,⟨g.maxSeenAllocatedStreamId,.waiting []⟩ :: fs⟩
  | fetch (g : Generator) (before after : List Fetch) (m : ℤ) (old : List ℤ) (i : ℕ)
      (ids : List ℤ) :
      Steps ⟨g,before ++ ⟨m,.waiting old⟩ :: after⟩ (.fetch i ids)
        ⟨g,before ++ ⟨m,.waiting (old ++ ids)⟩ :: after⟩
  | fail (g : Generator) (before after : List Fetch) (m : ℤ) (old : List ℤ) (i : ℕ) :
      Steps ⟨g,before ++ ⟨m,.waiting old⟩ :: after⟩ (.fail i) ⟨g,before ++ ⟨m,.leaving⟩ :: after⟩
  | record (g : Generator) (before after : List Fetch) (m : ℤ) (i : ℕ) (ids : List ℤ) :
      Steps ⟨g,before ++ ⟨m,.waiting ids⟩ :: after⟩ (.record i)
        ⟨g.recordFetch ids,before ++ ⟨m,.leaving⟩ :: after⟩
  | release (g : Generator) (before after : List Fetch) (m : ℤ) (i : ℕ) :
      Steps ⟨g,before ++ ⟨m,.leaving⟩ :: after⟩ (.release i) ⟨g.releaseFetch m,before ++ after⟩
  | finish {g g' : Generator} (fs : List Fetch) {ids : List ℤ}
      (hids : ∀ x ∈ ids, x ∈ g.unfinishedIds) (hok : g.markIdsAsFinished ids = .ok g') :
      Steps ⟨g,fs⟩ (.finish ids) ⟨g',fs⟩
  | finishNone (s : Instance) : Steps s (.finish []) s
  | receive {g : Generator} (fs : List Fetch) {w : String} (newId : ℤ) (hw : w ≠ g.instanceName) :
      Steps ⟨g,fs⟩ (.receive w newId) ⟨g.advance w newId,fs⟩

theorem markIdsAsFinished_error {g : Generator} {ids : List ℤ} {e : Api.Error}
    (h : g.markIdsAsFinished ids = .error e) : ids = [] := by
  unfold markIdsAsFinished settleFinished at h
  split at h
  · rename_i herr
    split at herr
    · cases herr
    · split at herr
      · rename_i hmax
        exact (append_eq_nil_iff.mp (max?_eq_none_iff.mp hmax)).2
      · cases herr
  · cases h

theorem Instance.step_steps {s s' : Instance} {a : Action} (h : s.step a = some s') : s.Steps a s' := by
  obtain ⟨g,fs⟩ := s
  cases a with
  | register =>
    simp only [step] at h
    split at h
    · rename_i hw
      cases h
      exact .register hw
    · cases h
  | fetch i ids =>
    simp only [step] at h
    split at h
    · rename_i m old hf
      obtain ⟨before,after,rfl,hset,-⟩ := split_at hf
      cases h
      rw [hset]
      exact .fetch g before after m old i ids
    · cases h
  | fail i =>
    simp only [step] at h
    split at h
    · rename_i m old hf
      obtain ⟨before,after,rfl,hset,-⟩ := split_at hf
      cases h
      rw [hset]
      exact .fail g before after m old i
    · cases h
  | record i =>
    simp only [step] at h
    split at h
    · rename_i m ids hf
      obtain ⟨before,after,rfl,hset,-⟩ := split_at hf
      cases h
      rw [hset]
      exact .record g before after m i ids
    · cases h
  | release i =>
    simp only [step] at h
    split at h
    · rename_i m hf
      obtain ⟨before,after,rfl,-,herase⟩ := split_at hf
      cases h
      rw [herase]
      exact .release g before after m i
    · cases h
  | finish ids =>
    simp only [step] at h
    split at h
    · rename_i hids
      split at h
      · rename_i g' hok
        cases h
        exact .finish fs hids hok
      · rename_i e herr
        cases h
        obtain rfl := markIdsAsFinished_error herr
        exact .finishNone _
    · cases h
  | receive w newId =>
    simp only [step] at h
    split at h
    · rename_i hw
      cases h
      exact .receive fs newId hw
    · cases h

section Steps
variable {last last' : ℤ} {busy busy' : String → Set ℤ} {s s' : Instance} {a : Action}

def Instance.Inv (last : ℤ) (busy : String → Set ℤ) (s : Instance) : Prop :=
  GenInv last busy s.gen s.fetches

/-- What the rest of the system grants with a step: the sequence hands out new IDs, and
a reported position is settled. -/
structure Action.Granted (last last' : ℤ) (busy : String → Set ℤ) (factor : ℤ) (a : Action) :
    Prop where
  last_le : last ≤ last'
  nodup : a.ids.Nodup
  new : ∀ x ∈ a.ids, last < x ∧ x ≤ last'
  report_le : ∀ w newId, a = .receive w newId → newId * factor ≤ last'
  report_free : ∀ w newId, a = .receive w newId → ∀ w', newId * factor ∉ busy w'
  report_lt : ∀ w newId, a = .receive w newId → ∀ x ∈ busy w, newId * factor < x

theorem Instance.Inv.later (h : s.Inv last busy) (hlast : last ≤ last') : s.Inv last' busy :=
  h.handOut hlast (fun _ _ hx => .inl hx) h.foreign h.own h.active_nodup rfl h.pending_gt

theorem Instance.Steps.below (h : s.Steps a s') : s.gen.Below s'.gen := by
  cases h with
  | register => exact ⟨rfl,rfl,rfl,le_rfl,le_rfl,le_rfl⟩
  | fetch => exact .refl _
  | fail => exact .refl _
  | record => exact .recordFetch _ _
  | release => exact ⟨rfl,rfl,rfl,le_rfl,le_rfl,le_rfl⟩
  | finish fs hids hok => exact .markIdsAsFinished hok
  | finishNone => exact .refl _
  | receive fs newId hw => exact .advance _ hw newId

theorem Instance.Steps.config (h : s.Steps a s') : s'.gen.config = s.gen.config := by
  simp [Generator.config,h.below.instanceName,h.below.writers,h.below.positive]

theorem Instance.Steps.active_sub (h : s.Steps a s') {x : ℤ} (hx : x ∈ s'.active) :
    x ∈ s.active ∨ x ∈ a.ids := by
  cases h with
  | register => exact .inl hx
  | fetch g before after m old i ids =>
    simp only [Instance.active,(g.active_middle _ _ _).mem_iff,Fetch.pending_waiting, mem_append] at hx ⊢
    tauto
  | fail g before after m old i =>
    simp only [Instance.active,(g.active_middle _ _ _).mem_iff] at hx ⊢
    exact .inl (mem_append_right _ hx)
  | record g before after m i ids =>
    simp only [Instance.active,Generator.active,recordFetch_unfinished,flatMap_append,
      flatMap_cons,mem_append] at hx ⊢
    tauto
  | release g before after m i =>
    simp only [Instance.active,(g.active_middle _ _ _).mem_iff]
    exact .inl (mem_append_right _ hx)
  | finish fs hids hok =>
    simp only [Instance.active,Generator.active,(markIdsAsFinished_keeps hok).1,mem_append, mem_filter] at hx ⊢
    tauto
  | finishNone => exact .inl hx
  | receive => exact .inl hx

variable {w name : String}

theorem Instance.Steps.keys (h : s.Steps a s') (hw : w ∈ s.gen.currentPositions) :
    w ∈ s'.gen.currentPositions := by
  cases h with
  | record g before after m i ids =>
    rcases g.recordFetch_cases ids with ⟨-,heq⟩ | ⟨top,-,-,heq⟩ <;> rw [heq] <;> exact hw
  | finish fs hids hok =>
    exact (markIdsAsFinished_keeps hok).2 _ hw
  | receive fs newId hne => exact (AList.mem_insert _).mpr (.inr hw)
  | _ => exact hw

theorem Instance.Steps.receive_ne {newId : ℤ} (h : s.Steps (.receive w newId) s') : w ≠ s.gen.instanceName := by
  cases h with
  | receive fs newId hw => exact hw

theorem Instance.Steps.inv (hs : s.Steps a s') (h : s.Inv last busy)
    (hgrant : a.Granted last last' busy s.gen.returnFactor)
    (hself : ∀ x, x ∈ busy' s.gen.instanceName ↔ x ∈ s'.active)
    (hother : ∀ w ≠ s.gen.instanceName, busy' w = busy w) : s'.Inv last' busy' := by
  -- Most steps only move IDs between the phases of a fetch.
  have hsame : (∀ x, x ∈ s'.active ↔ x ∈ s.active) → busy' = busy := by
    intro hactive
    funext w
    by_cases hw : w = s.gen.instanceName
    · subst hw
      ext x
      rw [hself,hactive]
      exact (h.own x).symm
    · exact hother w hw
  have hlast := hgrant.last_le
  have hlater := h.later hlast
  cases hs with
  | register hw =>
    rw [hsame fun x => Iff.rfl]
    exact hlater.registerFetch hw
  | fetch g before after m old i ids =>
    have hids : ∀ x ∈ ids, last < x ∧ x ≤ last' := hgrant.new
    have hafter : (g.active (before ++ ⟨m,.waiting (old ++ ids)⟩ :: after)).Perm
        (ids ++ g.active (before ++ ⟨m,.waiting old⟩ :: after)) := by
      refine (g.active_middle before after _).trans ?_
      rw [Fetch.pending_waiting,append_assoc]
      refine (perm_append_comm_assoc _ _ _).trans (Perm.append_left ids ?_)
      exact (g.active_middle before after ⟨m,.waiting old⟩).symm
    have hfetch : ∀ x, x ∈ Instance.active ⟨g,before ++ ⟨m,.waiting (old ++ ids)⟩ :: after⟩ ↔
        x ∈ ids ∨ x ∈ busy g.instanceName := by
      intro x
      rw [h.own]
      exact hafter.mem_iff.trans mem_append
    have hm : m ≤ last := h.fetch_le m (h.inFlight.mem_iff.mpr (by simp))
    refine h.handOut hlast (fun w x hx => ?_) (fun w hw x hx => ?_) hself ?_ (by simp) ?_
    · by_cases hw : w = g.instanceName
      · subst hw
        rcases (hfetch x).mp ((hself x).mp hx) with hx | hx
        · exact .inr ⟨(hids x hx).1,(hids x hx).2,fun hne => absurd rfl hne⟩
        · exact .inl hx
      · exact .inl (hother w hw ▸ hx)
    · rw [hother w hw]
      rcases (hfetch x).mp ((hself x).mp hx) with hx | hx
      · intro hb
        have hle := h.busy_le w x hb
        have hgt := (hids x hx).1
        omega
      · exact h.foreign w hw x hx
    · refine hafter.nodup_iff.mpr (hgrant.nodup.append h.active_nodup fun x hx hold => ?_)
      have hle := h.busy_le _ x ((h.own x).mpr hold)
      have hgt := (hids x hx).1
      omega
    · obtain ⟨hold,hrest⟩ := forall_fetch.mp h.pending_gt
      refine forall_fetch.mpr ⟨forall_mem_append.mpr ⟨hold,fun x hx => ?_⟩,hrest⟩
      exact hm.trans_lt (hids x hx).1
  | fail g before after m old i =>
    have hactive : (g.active (before ++ ⟨m,.waiting old⟩ :: after)).Perm
        (old ++ g.active (before ++ ⟨m,.leaving⟩ :: after)) := by
      refine (g.active_middle before after _).trans (Perm.append_left old ?_)
      exact (g.active_middle before after ⟨m,.leaving⟩).symm
    have hsub : ∀ x ∈ busy' g.instanceName, x ∈ busy g.instanceName := by
      intro x hx
      rw [h.own]
      exact hactive.mem_iff.mpr (mem_append_right _ ((hself x).mp hx))
    refine h.handOut hlast (fun w x hx => .inl ?_) (fun w hw x hx => ?_) hself ?_ (by simp) ?_
    · by_cases hw : w = g.instanceName
      · subst hw
        exact hsub x hx
      · exact hother w hw ▸ hx
    · rw [hother w hw]
      exact h.foreign w hw x (hsub x hx)
    · exact (hactive.nodup_iff.mp h.active_nodup).of_append_right
    · exact forall_fetch.mpr ⟨by simp,(forall_fetch.mp h.pending_gt).2⟩
  | record g before after m i ids =>
    rw [hsame fun x => ?_]
    · exact hlater.recordFetch
    · simp only [Instance.active,Generator.active,recordFetch_unfinished,flatMap_append,
        flatMap_cons,mem_append]
      tauto
  | release g before after m i =>
    rw [hsame fun x => ?_]
    · exact hlater.releaseFetch
    · simp [Instance.active,Generator.active,Generator.releaseFetch]
  | finish fs hids hok => exact hlater.markIdsAsFinished hids hself hother hok
  | finishNone =>
    rw [hsame fun x => Iff.rfl]
    exact hlater
  | receive fs newId hw =>
    rw [hsame fun x => Iff.rfl]
    exact hlater.advance hw (hgrant.report_le _ _ rfl) (hgrant.report_free _ _ rfl) (hgrant.report_lt _ _ rfl)

end Steps

/-- An instance and the greatest ID that was handed out or reported to it so far. -/
structure Local where
  inst : Instance
  last : ℤ

theorem factorOf_mul_self (positive : Bool) (x : ℤ) : factorOf positive * (factorOf positive * x) = x := by
  unfold factorOf
  split <;> omega

theorem token_self (g : Generator) (h : g.instanceName = name) :
    g.returnFactor * g.getCurrentTokenForWriter name = g.maxPositionOfLocalInstance := by
  rw [getCurrentTokenForWriter,if_pos h,returnFactor,factorOf_mul_self]

theorem token_of_config {g : Generator} {writers : List String} {positive : Bool}
    (h : g.config = (name,writers,positive)) :
    g.getCurrentTokenForWriter name * factorOf positive = g.maxPositionOfLocalInstance := by
  cases h
  exact (Int.mul_comm _ _).trans (token_self g rfl)

namespace Local

def start (name : String) (writers : List String) (positive : Bool) (db : Database) (last : ℤ) : Local :=
  ⟨⟨construct name writers positive db,[]⟩,last⟩

/-- The sequence returns strictly increasing IDs above every ID seen, and replication
reports no ID that the instance is itself still working on. -/
def Allowed (s : Local) (a : Action) : Prop :=
  a.ids.Pairwise (· < ·) ∧ (∀ x ∈ a.ids, s.last < x) ∧
    ∀ x ∈ a.reported s.inst.gen.returnFactor, x ∉ s.inst.active

instance (s : Local) (a : Action) : Decidable (s.Allowed a) :=
  inferInstanceAs (Decidable (_ ∧ _))

def lastAfter (s : Local) (a : Action) : ℤ :=
  (a.reported s.inst.gen.returnFactor).foldl max (a.ids.foldl max s.last)

def step (s : Local) (a : Action) : Option Local := (s.inst.step a).map (⟨·,s.lastAfter a⟩)

def run (s : Local) (as : List Action) : Option Local := Runs.run (Runs.guarded Allowed step) s as

def busy (s : Local) : String → Set ℤ :=
  fun w => if w = s.inst.gen.instanceName then {x | x ∈ s.inst.active} else ∅

def Inv (s : Local) : Prop := s.inst.Inv s.last s.busy

variable {s s' : Local} {a : Action}

theorem busy_self (x : ℤ) : x ∈ s.busy s.inst.gen.instanceName ↔ x ∈ s.inst.active := by
  simp [busy]

theorem step_cases (h : s.step a = some s') : s.inst.Steps a s'.inst ∧ s'.last = s.lastAfter a := by
  obtain ⟨i,hi,rfl⟩ := Option.map_eq_some_iff.mp h
  exact ⟨Instance.step_steps hi,rfl⟩

theorem le_foldl_max (ids : List ℤ) (m : ℤ) : m ≤ ids.foldl max m ∧ ∀ x ∈ ids, x ≤ ids.foldl max m := by
  induction ids generalizing m with
  | nil => simp
  | cons y ids ih =>
    obtain ⟨hm,hids⟩ := ih (max m y)
    refine ⟨(le_max_left _ _).trans hm,forall_mem_cons.mpr ⟨?_,hids⟩⟩
    exact (le_max_right _ _).trans hm

theorem Allowed.granted (h : s.Allowed a) (hs : s.inst.Steps a s'.inst) :
    a.Granted s.last (s.lastAfter a) s.busy s.inst.gen.returnFactor := by
  obtain ⟨hincreasing,hnew,hreported⟩ := h
  have hids := le_foldl_max a.ids s.last
  have hreport := le_foldl_max (a.reported s.inst.gen.returnFactor) (a.ids.foldl max s.last)
  refine ⟨hids.1.trans hreport.1,hincreasing.imp fun hlt => hlt.ne,
    fun x hx => ⟨hnew x hx,(hids.2 x hx).trans hreport.1⟩,?_,?_,?_⟩
  · rintro w newId rfl
    exact hreport.2 _ (mem_singleton_self _)
  · rintro w newId rfl w' hx
    simp only [busy] at hx
    split at hx
    · exact hreported _ (mem_singleton_self _) hx
    · exact hx
  · rintro w newId rfl x hx
    simp [busy,hs.receive_ne] at hx

theorem step_inv (h : s.Inv) (hallowed : s.Allowed a) (hs : s.step a = some s') : s'.Inv := by
  obtain ⟨hsteps,hlast⟩ := step_cases hs
  have hname := hsteps.below.instanceName
  unfold Inv
  rw [hlast]
  refine hsteps.inv h (hallowed.granted hsteps) (fun x => ?_) fun w hw => ?_
  · rw [← hname]
    exact busy_self x
  · simp [busy,hname,hw]

theorem run_inv {as : List Action} (h : s.Inv) (hs : s.run as = some s') :
    s'.Inv ∧ s.inst.gen.Below s'.inst.gen := by
  refine Runs.run_preserves (I := fun t => t.Inv ∧ s.inst.gen.Below t.inst.gen) ?_ ⟨h,.refl _⟩ hs
  rintro t a t' ⟨ht,hbelow⟩ hstep
  obtain ⟨hallowed,hstep⟩ := guarded_eq_some.mp hstep
  exact ⟨step_inv ht hallowed hstep,hbelow.trans (step_cases hstep).1.below⟩

theorem start_inv {writers : List String} {positive : Bool} {db : Database}
    {last : ℤ} (h : Readable last (fun _ => ∅) name writers positive db) :
    (start name writers positive db last).Inv := by
  have hinv := GenInv.construct h
  have hbusy : (start name writers positive db last).busy = fun _ => ∅ := by
    funext w
    ext x
    unfold busy
    split
    · exact (hinv.own x).symm
    · rfl
  unfold Inv
  rw [hbusy]
  exact hinv

end Local

/-- Whatever happens in between, the position that the instance announces, its own entry
and the persisted position are below every local ID that is active now or later, and none of
them decreases. -/
theorem localPositions_below_active {name : String} {writers : List String} {positive : Bool}
    {db : Database} {last : ℤ} (h : Readable last (fun _ => ∅) name writers positive db)
    {earlier later : List Action} {s s' : Local}
    (hs : (Local.start name writers positive db last).run earlier = some s)
    (hs' : s.run later = some s') :
    let g := s.inst.gen
    let g' := s'.inst.gen
    (∀ x ∈ s'.inst.active, g.returnFactor * g.getCurrentTokenForWriter name < x ∧ g.ownPosition < x ∧
      g.persistedUptoPosition < x) ∧
    g.returnFactor * g.getCurrentTokenForWriter name ≤ g'.returnFactor * g'.getCurrentTokenForWriter name ∧
    g.ownPosition ≤ g'.ownPosition ∧ g.persistedUptoPosition ≤ g'.persistedUptoPosition := by
  obtain ⟨hinv,hstart⟩ := Local.run_inv (Local.start_inv h) hs
  obtain ⟨hinv',hbelow⟩ := Local.run_inv hinv hs'
  have hname : s.inst.gen.instanceName = name := by
    rw [hstart.instanceName]
    exact congrArg Prod.fst (construct_config name writers positive db)
  have hname' : s'.inst.gen.instanceName = name := hbelow.instanceName.trans hname
  dsimp only
  rw [token_self s.inst.gen hname,token_self s'.inst.gen hname']
  refine ⟨fun x hx => ?_,hbelow.localMax,hbelow.ownPosition,hbelow.upto⟩
  have hbusy := (Local.busy_self x).mpr hx
  exact ⟨hbelow.localMax.trans_lt (hinv'.local_lt x hbusy),
    hbelow.ownPosition.trans_lt (hinv'.position_lt x hbusy),
    hbelow.upto.trans_lt (hinv'.upto_lt _ x hbusy)⟩

def twoWriters : Database where
  streamPositions := (∅ : Positions).insert "w1" 5 |>.insert "w2" 4
  tables := [[("w1",5)]]
  lastValue := some 5

theorem twoWriters_readable : Readable 5 (fun _ => ∅) "w1" ["w1","w2"] true twoWriters := by
  refine ⟨by decide,by simp,fun w hw v hv => ?_,by simp [twoWriters,factorOf],?_,rfl,by simp⟩
  · obtain rfl | rfl : w = "w1" ∨ w = "w2" := by simpa using hw
    · have hl : twoWriters.streamPositions.lookup "w1" = some 5 := by decide
      cases hl.symm.trans hv
      exact ⟨⟨by decide,by decide,by simp⟩,by simp⟩
    · have hl : twoWriters.streamPositions.lookup "w2" = some 4 := by decide
      cases hl.symm.trans hv
      exact ⟨⟨by decide,by decide,by simp⟩,by simp⟩
  · rintro - v ⟨⟩
    exact ⟨by decide,by decide,by simp⟩

/-- Two overlapping fetches of the writer "w1": the second is recorded first and its ID 7 is
finished while 6 has been handed out but not yet recorded. -/
theorem localPositions_below_six :
    ∃ s s' : Local,
      (Local.start "w1" ["w1","w2"] true twoWriters 5).run
        [.register,.register,.fetch 0 [6],.fetch 1 [7],.record 1] = some s ∧
      s.run [.release 1,.finish [7],.record 0,.receive "w2" 8,.release 0] = some s' ∧
      6 ∈ s'.inst.active ∧ s.inst.gen.persistedUptoPosition < 6 ∧
      s.inst.gen.persistedUptoPosition ≤ s'.inst.gen.persistedUptoPosition := by
  refine ⟨_,_,(Option.some_get (by decide +kernel)).symm,(Option.some_get (by decide +kernel)).symm,
    by decide +kernel,?_⟩
  exact (localPositions_below_active twoWriters_readable (Option.some_get _).symm
    (Option.some_get _).symm).imp (fun h => (h 6 (by decide +kernel)).2.2) fun h => h.2.2

end TextrpBriij.Storage
