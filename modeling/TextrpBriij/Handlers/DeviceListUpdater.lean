import TextrpBriij.Foundation.Runs

/-! # The cached devices of a remote user

The remote numbers its changes and sends an update for each, with the number before it. Updates and
resyncs have locks of their own; each step is what runs between two awaits. Seen updates stay known.
-/
namespace TextrpBriij.Handlers.DeviceListUpdater
open List Option Runs

variable {α : Type}

abbrev Devices (α : Type) := Finmap fun _ : String => α

/-- The first devices of the user and all changes, where no content is a deletion. -/
structure Remote (α : Type) where
  initial : Devices α
  change : ℕ → String × Option α

def updateCacheEntry (devices : Devices α) : String × Option α → Devices α
  | (deviceId,none) => devices.erase deviceId
  | (deviceId,some content) => devices.insert deviceId content

def Remote.devices (remote : Remote α) : ℕ → Devices α
  | 0 => remote.initial
  | n + 1 => updateCacheEntry (remote.devices n) (remote.change n)

/-- A call of `_handle_device_updates` before it reads the extremity, before it marks the user as
stale, and with the updates that it has still to write. -/
inductive Handler where
  | checking (updates seen : List ℕ)
  | marking
  | applying (left updates : List ℕ)

/-- A resync that has the lock, before each of its calls. An answer has the number of the last
change in it. -/
inductive Resync where
  | reading
  | checking (hasExtremity : Bool)
  | querying
  | answered (n : ℕ)
  | comparing (n : ℕ) (hasExtremity : Bool)
  | storing (n : ℕ)
  | marking (n : ℕ)
  | finishing (n : ℕ)

/-- `current` changes were made, the updates for `received` of them were received and `taken` of
those were popped from `_pending_updates`. `waiting` resyncs wait for the lock, and `failed` calls
have yet to return. -/
structure State (α : Type) where
  current : ℕ
  received : ℕ
  taken : ℕ
  handler : Option Handler
  waiting : ℕ
  resync : Option Resync
  failed : ℕ
  cache : Devices α
  extremity : Option ℕ
  isStale : Bool
  seen : List ℕ

def start : State α := ⟨0,0,0,none,0,none,0,∅,none,false,[]⟩

def needToDoResync (extremity : Option ℕ) (seen : List ℕ) : List ℕ → List ℕ → Bool
  | _,[] => false
  | ids,n :: updates =>
    if extremity = some (n - 1) ∨ n - 1 ∈ seen ∨ n - 1 ∈ ids then
      needToDoResync extremity seen (n :: ids) updates
    else true

variable (remote : Remote α)

def handlerStep (s : State α) : Option (State α) :=
  match s.handler with
  | none => if s.taken < s.received then some { s with
        taken := s.received
        handler := some (.checking (range' (s.taken + 1) (s.received - s.taken)) s.seen) }
      else none
  | some (.checking updates seen) => some { s with
      handler := some (if needToDoResync s.extremity seen [] updates then .marking
        else .applying updates updates) }
  | some .marking => some { s with
      isStale := true
      waiting := s.waiting + 1
      handler := none }
  | some (.applying (n :: left) updates) => some { s with
      cache := updateCacheEntry s.cache (remote.change (n - 1))
      extremity := some n
      handler := some (.applying left updates) }
  | some (.applying [] updates) => some { s with
      seen := s.seen ++ updates
      handler := none }

/-- The query fails or is answered. Equal devices may be cached in another form, so that they are
stored or skipped. The number that was seen may be no text, as those of the updates are. -/
def resyncStep [DecidableEq α] (s : State α) (choice : Bool) : Option (State α) :=
  match s.resync with
  | none => if 0 < s.waiting then some { s with
        waiting := s.waiting - 1
        resync := some .reading }
      else none
  | some .reading => some { s with resync := some (.checking s.extremity.isSome) }
  | some (.checking hasExtremity) => some { s with
      resync := if hasExtremity && !s.isStale then none else some .querying }
  | some .querying =>
    if choice then some { s with resync := some (.answered s.current) }
    else some { s with
      resync := none
      failed := s.failed + 1 }
  | some (.answered n) => some { s with
      resync := some (if 1000 < (remote.devices n).keys.card then .marking n
        else .comparing n s.extremity.isSome) }
  | some (.comparing n hasExtremity) => some { s with
      resync := some (if choice ∧ hasExtremity ∧ s.cache = remote.devices n then .marking n
        else .storing n) }
  | some (.storing n) => some { s with
      cache := remote.devices n
      extremity := some n
      resync := some (.marking n) }
  | some (.marking n) => some { s with
      isStale := false
      resync := some (.finishing n) }
  | some (.finishing n) => some { s with
      seen := if choice then [n] else []
      resync := none }

inductive Action where
  | change
  | receive
  | handler
  | requestResync
  | resync (choice : Bool)
  | returnFailed (markFailedAsStale : Bool)

def step [DecidableEq α] (s : State α) : Action → Option (State α)
  | .change => some { s with current := s.current + 1 }
  | .receive =>
    if s.received < s.current then some { s with received := s.received + 1 } else none
  | .handler => handlerStep remote s
  | .requestResync => some { s with waiting := s.waiting + 1 }
  | .resync choice => resyncStep remote s choice
  | .returnFailed markFailedAsStale =>
    if 0 < s.failed then some { s with
      failed := s.failed - 1
      isStale := s.isStale || markFailedAsStale }
    else none

def Resync.answer : Resync → Option ℕ
  | .answered n | .comparing n _ | .storing n | .marking n | .finishing n => some n
  | _ => none

/-- Updates are taken while no resync has an answer, and a resync goes on from its query while no
updates are handled. -/
def apart (s : State α) : Action → Bool
  | .handler => s.handler.isSome || (s.resync.bind Resync.answer).isNone
  | .resync _ => match s.resync with
    | some .querying => s.handler.isNone
    | _ => true
  | _ => true

def isIdle (s : State α) : Bool :=
  s.taken = s.received ∧ s.handler.isNone ∧ s.waiting = 0 ∧ s.resync.isNone ∧ s.failed = 0

/-- The devices are cached as they were at the last received update or later, unless the user is
marked or was never heard of. -/
def Fresh (s : State α) : Prop :=
  s.isStale ∨ (s.received = 0 ∧ s.extremity = none) ∨
    ∃ n, s.received ≤ n ∧ n ≤ s.current ∧ s.cache = remote.devices n

variable {remote} {s s' : State α} {a : ℕ} {extremity : Option ℕ} {seen : List ℕ}

theorem not_needToDoResync {ids : List ℕ} {n : ℕ} (k : ℕ) (h : extremity = some n ∨ n ∈ ids) :
    needToDoResync extremity seen ids (range' (n + 1) k) = false := by
  induction k generalizing n ids with
  | zero => rfl
  | succ k ih =>
    rw [range'_succ,needToDoResync,Nat.add_sub_cancel,if_pos (h.imp_right .inr)]
    exact ih (.inr mem_cons_self)

theorem known_of_not_needToDoResync {n k : ℕ} (h : ¬needToDoResync extremity seen [] (range' (n + 1) (k + 1))) :
    extremity = some n ∨ n ∈ seen := by
  rw [range'_succ,needToDoResync] at h
  split at h
  · rename_i hknown
    simpa using hknown
  · exact absurd rfl h

/-- What holds once the updates up to a number are handled. -/
def Settled (remote : Remote α) (s : State α) (a : ℕ) : Prop :=
  (∀ j ∈ s.seen, a ≤ j → s.cache = remote.devices j ∨ s.extremity = some a) ∧
    (s.isStale ∨ (a = 0 ∧ s.extremity = none) ∨ ∃ n, a ≤ n ∧ n ≤ s.current ∧ s.cache = remote.devices n)

def Handler.Fits (remote : Remote α) (s : State α) : Handler → Prop
  | .checking updates seen => ∃ a < s.taken, updates = range' (a + 1) (s.taken - a) ∧
      seen = s.seen ∧ Settled remote s a
  | .marking => ∃ a < s.taken, s.extremity ≠ some a ∧ Settled remote s a
  | .applying left _ => ∃ m ≤ s.taken, left = range' (m + 1) (s.taken - m) ∧
      s.cache = remote.devices m ∧ (m = s.taken → s.extremity = some m)

def Resync.isStored : Resync → Bool
  | .marking _ | .finishing _ => true
  | _ => false

theorem Resync.answer_ne_none (r : Resync) (h : r.isStored) : r.answer ≠ none := by
  cases r <;> simp_all [isStored,answer]

structure Inv (remote : Remote α) (s : State α) : Prop where
  le : s.taken ≤ s.received ∧ s.received ≤ s.current
  extremity : ∀ j, s.extremity = some j → j ≤ s.current ∧ s.cache = remote.devices j
  handler : ∀ x, s.handler = some x → s.resync.bind Resync.answer = none ∧ x.Fits remote s
  answer : ∀ n, s.resync.bind Resync.answer = some n →
    s.taken ≤ n ∧ n ≤ s.current ∧ (s.resync.any Resync.isStored → s.cache = remote.devices n)
  settled : s.handler = none → ¬s.resync.any Resync.isStored → Settled remote s s.taken

theorem Inv.handlerStep (h : Inv remote s) (hapart : apart s .handler)
    (hstep : DeviceListUpdater.handlerStep remote s = some s') : Inv remote s' := by
  obtain ⟨current,received,taken,handler,waiting,resync,failed,cache,extremity,isStale,seen⟩ := s
  rcases handler with - | x
  · obtain ⟨hlt,heq⟩ := ite_none_right_eq_some.mp hstep
    cases heq
    have hnone : resync.bind Resync.answer = none := isNone_iff_eq_none.mp hapart
    refine ⟨⟨Nat.le_refl _,h.le.2⟩,h.extremity,fun x hx => ?_,fun n hn => ?_,nofun⟩
    · cases hx
      refine ⟨hnone,taken,hlt,rfl,rfl,h.settled rfl fun hstored => ?_⟩
      cases resync with
      | none => cases hstored
      | some r => exact r.answer_ne_none hstored hnone
    · cases hnone.symm.trans hn
  obtain ⟨hnone,hfits⟩ := h.handler x rfl
  rcases x with ⟨updates,seenBefore⟩ | - | ⟨left,updates⟩
  · simp only [Handler.Fits] at hfits
    obtain ⟨a,ha,rfl,rfl,hset⟩ := hfits
    cases hstep
    refine ⟨h.le,h.extremity,fun x hx => ?_,h.answer,nofun⟩
    cases hx
    refine ⟨hnone,?_⟩
    split
    · rename_i hneed
      refine ⟨a,ha,fun hext => ?_,hset⟩
      rw [not_needToDoResync _ (.inl hext)] at hneed
      cases hneed
    · rename_i hneed
      refine ⟨a,ha.le,rfl,?_,fun heq => absurd heq ha.ne⟩
      obtain ⟨k,hk⟩ := Nat.exists_eq_add_one.mpr (Nat.sub_pos_of_lt ha)
      rw [hk] at hneed
      have hext := fun hext => (h.extremity a hext).2
      rcases known_of_not_needToDoResync hneed with hknown | hknown
      · exact hext hknown
      · exact (hset.1 a hknown (Nat.le_refl a)).elim id hext
  · cases hstep
    obtain ⟨a,ha,hext,hset⟩ := hfits
    refine ⟨h.le,h.extremity,nofun,h.answer,fun _ _ => ⟨fun j hj hle => ?_,.inl rfl⟩⟩
    exact .inl ((hset.1 j hj (ha.le.trans hle)).resolve_right hext)
  · simp only [Handler.Fits] at hfits
    obtain ⟨m,hm,rfl,rfl,hext⟩ := hfits
    cases hk : taken - m with
    | zero =>
      obtain rfl : m = taken := Nat.le_antisymm hm (Nat.sub_eq_zero_iff_le.mp hk)
      rw [Nat.sub_self] at hstep
      cases hstep
      exact ⟨h.le,h.extremity,nofun,h.answer,fun _ _ => ⟨fun j hj hle => .inr (hext rfl),
        .inr (.inr ⟨_,Nat.le_refl _,h.le.1.trans h.le.2,rfl⟩)⟩⟩
    | succ k =>
      rw [hk] at hstep
      cases hstep
      have hlt : m + 1 ≤ taken := by omega
      refine ⟨h.le,fun j hj => ?_,fun x hx => ?_,fun n hn => ?_,nofun⟩
      · cases hj
        exact ⟨hlt.trans (h.le.1.trans h.le.2),rfl⟩
      · cases hx
        refine ⟨hnone,m + 1,hlt,?_,rfl,fun _ => rfl⟩
        rw [Nat.sub_add_eq,hk]
        rfl
      · cases hnone.symm.trans hn

theorem Inv.resyncStep {choice : Bool} [DecidableEq α] (h : Inv remote s)
    (hsmall : ∀ n, (remote.devices n).keys.card ≤ 1000) (hapart : apart s (.resync choice))
    (hstep : DeviceListUpdater.resyncStep remote s choice = some s') : Inv remote s' := by
  obtain ⟨current,received,taken,handler,waiting,resync,failed,cache,extremity,isStale,seen⟩ := s
  rcases resync with - | r
  · obtain ⟨-,heq⟩ := ite_none_right_eq_some.mp hstep
    cases heq
    exact ⟨h.le,h.extremity,h.handler,h.answer,h.settled⟩
  cases r with
  | reading =>
    cases hstep
    exact ⟨h.le,h.extremity,h.handler,h.answer,h.settled⟩
  | checking hasExtremity =>
    cases hstep
    cases hasExtremity && !isStale <;> exact ⟨h.le,h.extremity,h.handler,h.answer,h.settled⟩
  | querying =>
    have hnone : handler = none := isNone_iff_eq_none.mp hapart
    subst hnone
    cases choice <;> cases hstep
    · exact ⟨h.le,h.extremity,nofun,h.answer,h.settled⟩
    · refine ⟨h.le,h.extremity,nofun,fun n hn => ?_,h.settled⟩
      cases hn
      exact ⟨h.le.1.trans h.le.2,Nat.le_refl _,nofun⟩
  | answered n =>
    cases hstep
    rw [if_neg (Nat.not_lt.mpr (hsmall n))]
    exact ⟨h.le,h.extremity,h.handler,h.answer,h.settled⟩
  | comparing n hasExtremity =>
    cases hstep
    split
    · rename_i hskip
      refine ⟨h.le,h.extremity,h.handler,fun m hm => ?_,fun _ hnot => absurd rfl hnot⟩
      cases hm
      exact ⟨(h.answer n rfl).1,(h.answer n rfl).2.1,fun _ => hskip.2.2⟩
    · exact ⟨h.le,h.extremity,h.handler,h.answer,h.settled⟩
  | storing n =>
    cases hstep
    refine ⟨h.le,fun j hj => ?_,fun x hx => absurd (h.handler x hx).1 nofun,fun m hm => ?_,
      fun _ hnot => absurd rfl hnot⟩
    · cases hj
      exact ⟨(h.answer n rfl).2.1,rfl⟩
    · cases hm
      exact ⟨(h.answer n rfl).1,(h.answer n rfl).2.1,fun _ => rfl⟩
  | marking n =>
    cases hstep
    exact ⟨h.le,h.extremity,fun x hx => absurd (h.handler x hx).1 nofun,h.answer, fun _ hnot => absurd rfl hnot⟩
  | finishing n =>
    cases hstep
    obtain ⟨hle,hn,hcache⟩ := h.answer n rfl
    refine ⟨h.le,h.extremity,fun x hx => absurd (h.handler x hx).1 nofun,nofun,fun _ _ => ⟨?_,?_⟩⟩
    · intro j hj _
      cases choice
      · cases hj
      · cases mem_singleton.mp hj
        exact .inl (hcache rfl)
    · exact .inr (.inr ⟨n,hle,hn,hcache rfl⟩)

/-- More changes and a mark keep what holds. -/
theorem Inv.later {c : ℕ} {b : Bool} (h : Inv remote s) (hc : s.current ≤ c) (hb : s.isStale → b) :
    Inv remote { s with current := c, isStale := b } := by
  have hset : ∀ {a}, Settled remote s a → Settled remote { s with current := c, isStale := b } a :=
    fun h => ⟨h.1,h.2.imp hb (.imp_right fun ⟨n,ha,hn,heq⟩ => ⟨n,ha,hn.trans hc,heq⟩)⟩
  refine ⟨⟨h.le.1,h.le.2.trans hc⟩,fun j hj => (h.extremity j hj).imp_left (·.trans hc),
    fun x hx => (h.handler x hx).imp_right fun hfits => ?_,
    fun n hn => (h.answer n hn).imp_right (.imp_left (·.trans hc)),
    fun hh hr => hset (h.settled hh hr)⟩
  cases x with
  | checking updates seen =>
    obtain ⟨a,ha,hupdates,hseen,hfits⟩ := hfits
    exact ⟨a,ha,hupdates,hseen,hset hfits⟩
  | marking =>
    obtain ⟨a,ha,hext,hfits⟩ := hfits
    exact ⟨a,ha,hext,hset hfits⟩
  | applying left updates => exact hfits

theorem Inv.step [DecidableEq α] {action : Action}
    (hsmall : ∀ n, (remote.devices n).keys.card ≤ 1000) (h : Inv remote s)
    (hapart : apart s action) (hstep : DeviceListUpdater.step remote s action = some s') :
    Inv remote s' := by
  cases action with
  | change =>
    cases hstep
    exact h.later (Nat.le_succ _) id
  | receive =>
    obtain ⟨hlt,heq⟩ := ite_none_right_eq_some.mp hstep
    cases heq
    exact ⟨⟨Nat.le_succ_of_le h.le.1,hlt⟩,h.extremity,h.handler,h.answer,h.settled⟩
  | handler => exact h.handlerStep hapart hstep
  | requestResync =>
    cases hstep
    exact ⟨h.le,h.extremity,h.handler,h.answer,h.settled⟩
  | resync choice => exact h.resyncStep hsmall hapart hstep
  | returnFailed markFailedAsStale =>
    obtain ⟨-,heq⟩ := ite_none_right_eq_some.mp hstep
    cases heq
    have hlater := h.later (b := s.isStale || markFailedAsStale) (Nat.le_refl _) (by simp +contextual)
    exact ⟨hlater.le,hlater.extremity,hlater.handler,hlater.answer,hlater.settled⟩

/-- Once nothing is in progress, the cache of a user who is not marked is fresh. -/
theorem unmarked_cache_is_fresh [DecidableEq α] (remote : Remote α)
    (hsmall : ∀ n, (remote.devices n).keys.card ≤ 1000) {actions : List Action}
    (hrun : run (guarded (fun s a => apart s a = true) (step remote)) start actions =
      some s) (hidle : isIdle s = true) : Fresh remote s := by
  have hinit : Inv remote start :=
    ⟨⟨Nat.le_refl _,Nat.le_refl _⟩,nofun,nofun,nofun,fun _ _ => ⟨nofun,.inr (.inl ⟨rfl,rfl⟩)⟩⟩
  have h : Inv remote s := by
    refine run_preserves (fun hinv hstep => ?_) hinit hrun
    obtain ⟨hapart,hstep⟩ := guarded_eq_some.mp hstep
    exact hinv.step hsmall hapart hstep
  simp only [isIdle,isNone_iff_eq_none,decide_eq_true_eq] at hidle
  obtain ⟨htaken,hh,-,hr,-⟩ := hidle
  have hfresh := (h.settled hh (by simp [hr])).2
  rwa [htaken] at hfresh

/-- A user whose only device gets new keys with each change. -/
def onePhone : Remote ℕ := ⟨∅,fun n => ("PHONE",some n)⟩

theorem onePhone_keys (n : ℕ) : (onePhone.devices n).keys.card ≤ 1000 := by
  have hsub : (onePhone.devices n).keys ⊆ {"PHONE"} := by
    induction n with
    | zero => exact Finset.empty_subset _
    | succ n ih =>
      intro key hkey
      rcases Finmap.mem_insert.mp (Finmap.mem_keys.mp hkey) with rfl | hold
      · exact Finset.mem_singleton_self _
      · exact ih (Finmap.mem_keys.mpr hold)
  exact (Finset.card_le_card hsub).trans (by decide)

/-- An update that needs a resync, and the steps of a resync. -/
def oneUpdate : List Action := [.change,.receive,.handler,.handler,.handler]

def resyncs (n : ℕ) : List Action := .replicate n (.resync true)

theorem resynced_cache_is_fresh :
    ∃ s, run (guarded (fun s a => apart s a = true) (step onePhone)) start
        (oneUpdate ++ resyncs 9) = some s ∧ isIdle s = true ∧ Fresh onePhone s :=
  ⟨_,rfl,rfl,@unmarked_cache_is_fresh _ _ _ onePhone onePhone_keys (oneUpdate ++ resyncs 9) rfl rfl⟩

/-- The second update comes while the first resync has its answer, which then unmarks the user, so
that the second resync asks for nothing. -/
theorem stale_cache_believed_fresh :
    ∃ s, run (step onePhone) start (oneUpdate ++ resyncs 4 ++ oneUpdate ++ resyncs 8) =
      some s ∧ isIdle s = true ∧ ¬Fresh onePhone s := by
  refine ⟨_,rfl,rfl,?_⟩
  rintro (hstale | ⟨hzero,-⟩ | ⟨n,hn,hle,hcache⟩)
  · cases hstale
  · cases hzero
  · cases Nat.le_antisymm hn hle
    have hphone : some 0 = some 1 := congrArg (Finmap.lookup "PHONE") hcache
    cases hphone

end TextrpBriij.Handlers.DeviceListUpdater
