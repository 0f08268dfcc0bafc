import TextrpBriij.Storage.WorkerLocks

/-! # A held lock is exclusive

As long as a lock is held, its row is in the table, the map of its process points to it, and no
call of its process is past the check. Orderly steps keep this.
-/
namespace TextrpBriij.Storage
open List Option Function Runs

def Acquiring.token : Acquiring → Option String
  | inserting _ token => some token
  | inserted _ token _ => some token
  | _ => none

def Acquiring.StopsAt (acquiring : Acquiring) (lock : ℕ) : Prop :=
  acquiring = .idle ∨ acquiring = .checking lock ∨ ∃ ts, acquiring = .checked lock (some ts)

namespace LockWorld

variable {w w' : LockWorld} {i : ℕ} {l : Lock} {name : String} {id : LockId}
  {acquiring : Acquiring} {token : String}

structure Tokens (w : LockWorld) : Prop where
  lockDrawn : ∀ (i : ℕ) (l : Lock), w.locks[i]? = some l → l.token ∈ w.drawn
  lockInj : ∀ (i j : ℕ) (l m : Lock), w.locks[i]? = some l → w.locks[j]? = some m → l.token = m.token → i = j
  callDrawn : ∀ k token, (w.acquiring k).token = some token → token ∈ w.drawn
  callInj : ∀ k k' token, (w.acquiring k).token = some token → (w.acquiring k').token = some token → k = k'
  callNotLock : ∀ k token, (w.acquiring k).token = some token →
    ∀ (i : ℕ) (l : Lock), w.locks[i]? = some l → l.token ≠ token

structure Holds (w : LockWorld) (i : ℕ) (l : Lock) : Prop where
  row : w.workerLocks l.id = some ⟨l.instanceName,l.token,l.renewedTs⟩
  live : w.liveLockTokens (l.instanceName,l.id) = some i
  inTime : w.time < l.renewedTs + lockTimeoutMs
  stops : (w.acquiring (l.instanceName,l.id)).StopsAt i

structure Inv (w : LockWorld) : Prop where
  tokens : Tokens w
  held : ∀ (i : ℕ) (l : Lock), w.locks[i]? = some l → l.isHeld = true → Holds w i l
  now_le : ∀ k now token, w.acquiring k = .inserting now token → now ≤ w.time
  /-- A row that was written is there until it times out. -/
  inserted : ∀ instanceName id now token, w.acquiring (instanceName,id) = .inserted now token true →
    w.workerLocks id = some ⟨instanceName,token,now⟩ ∨ now + lockTimeoutMs < w.time
  releasing : ∀ i : ℕ, i ∈ w.deletes ∨ i ∈ w.pops → i < w.locks.length ∧
    ∀ l : Lock, w.locks[i]? = some l → l.released = true

theorem inv_start (time : ℤ) : Inv (start time) where
  tokens := by constructor <;> simp [start,Acquiring.token]
  held := by simp [start]
  now_le := by simp [start]
  inserted := by simp [start]
  releasing := by simp [start]

structure LessHeld (w w' : LockWorld) (l l' : Lock) : Prop where
  instanceName : l'.instanceName = l.instanceName
  id : l'.id = l.id
  token : l'.token = l.token
  released : l.released = true → l'.released = true
  held : l'.isHeld = true → l.isHeld = true ∧ l'.renewedTs = l.renewedTs ∧
    w'.time < l.renewedTs + lockTimeoutMs ∧
    w'.liveLockTokens (l.instanceName,l.id) = w.liveLockTokens (l.instanceName,l.id)

structure Weakens (w w' : LockWorld) : Prop where
  time : w.time ≤ w'.time
  workerLocks : w'.workerLocks = w.workerLocks
  acquiring : w'.acquiring = w.acquiring
  drawn : w'.drawn = w.drawn
  locks : ∀ (i : ℕ) (l' : Lock), w'.locks[i]? = some l' → ∃ l, w.locks[i]? = some l ∧ LessHeld w w' l l'
  length : w'.locks.length = w.locks.length
  releasing : ∀ i : ℕ, i ∈ w'.deletes ∨ i ∈ w'.pops → (i ∈ w.deletes ∨ i ∈ w.pops) ∨
    i < w.locks.length ∧ ∀ l' : Lock, w'.locks[i]? = some l' → l'.released = true

theorem Tokens.weaken (h : Tokens w) (hacquiring : w'.acquiring = w.acquiring)
    (hdrawn : w'.drawn = w.drawn) (hlocks : ∀ (i : ℕ) (l' : Lock), w'.locks[i]? = some l' →
      ∃ l, w.locks[i]? = some l ∧ l'.token = l.token) : Tokens w' where
  lockDrawn i l' hl' := by
    obtain ⟨l,hl,htoken⟩ := hlocks i l' hl'
    rw [hdrawn,htoken]
    exact h.lockDrawn i l hl
  lockInj i j l' m' hl' hm' heq := by
    obtain ⟨l,hl,hltoken⟩ := hlocks i l' hl'
    obtain ⟨m,hm,hmtoken⟩ := hlocks j m' hm'
    rw [hltoken,hmtoken] at heq
    exact h.lockInj i j l m hl hm heq
  callDrawn := by rw [hacquiring,hdrawn]; exact h.callDrawn
  callInj := by rw [hacquiring]; exact h.callInj
  callNotLock k token hk i l' hl' := by
    obtain ⟨l,hl,htoken⟩ := hlocks i l' hl'
    rw [hacquiring] at hk
    rw [htoken]
    exact h.callNotLock k token hk i l hl

theorem Inv.weaken (h : Inv w) (hw : Weakens w w') : Inv w' where
  tokens := h.tokens.weaken hw.acquiring hw.drawn fun i l' hl' =>
    (hw.locks i l' hl').imp fun _ hl => ⟨hl.1,hl.2.token⟩
  held i l' hl' hheld := by
    obtain ⟨l,hl,hless⟩ := hw.locks i l' hl'
    obtain ⟨hbefore,hrenewed,htime,hlive⟩ := hless.held hheld
    have hold := h.held i l hl hbefore
    constructor
    · rw [hw.workerLocks,hless.id,hless.instanceName,hless.token,hrenewed]
      exact hold.row
    · rw [hless.id,hless.instanceName,hlive]
      exact hold.live
    · rw [hrenewed]
      exact htime
    · rw [hw.acquiring,hless.id,hless.instanceName]
      exact hold.stops
  now_le k now token hk := by
    rw [hw.acquiring] at hk
    exact Int.le_trans (h.now_le k now token hk) hw.time
  inserted name id now token hk := by
    rw [hw.acquiring] at hk
    rw [hw.workerLocks]
    exact (h.inserted name id now token hk).imp_right fun hlt =>
      Int.lt_of_lt_of_le hlt hw.time
  releasing i hi := by
    rw [hw.length]
    rcases hw.releasing i hi with hbefore | hreleased
    · obtain ⟨hlt,hall⟩ := h.releasing i hbefore
      refine ⟨hlt,fun l' hl' => ?_⟩
      obtain ⟨l,hl,hless⟩ := hw.locks i l' hl'
      exact hless.released (hall l hl)
    · exact hreleased

theorem isHeld_seenAt {time : ℤ} (h : (l.seenAt time).isHeld) :
    l.isHeld ∧ time < l.renewedTs + lockTimeoutMs := by
  simp only [Lock.isHeld,Lock.seenAt,Bool.and_eq_true,Bool.not_eq_true',Bool.or_eq_false_iff,
    decide_eq_false_iff_not] at h ⊢
  exact ⟨⟨h.1,h.2.1⟩,by omega⟩

theorem Inv.tick (h : Inv w) (ms : ℕ) : Inv { w with
    time := w.time + ms,locks := w.locks.map (Lock.seenAt (w.time + ms)) } := by
  refine h.weaken ⟨?_,rfl,rfl,rfl,?_,length_map _,fun i hi => .inl hi⟩
  · change w.time ≤ w.time + ms
    omega
  · intro i l' hl'
    rw [getElem?_map] at hl'
    obtain ⟨l,hl,rfl⟩ := map_eq_some_iff.mp hl'
    refine ⟨l,hl,rfl,rfl,rfl,id,fun hheld => ?_⟩
    obtain ⟨hbefore,htime⟩ := isHeld_seenAt hheld
    exact ⟨hbefore,rfl,htime,rfl⟩

theorem getElem?_modify {f : Lock → Lock} {j : ℕ} {l' : Lock} (h : (w.locks.modify i f)[j]? = some l') :
    ∃ l, w.locks[j]? = some l ∧ l' = if i = j then f l else l := by
  rw [List.getElem?_modify] at h
  obtain ⟨l,hl,heq⟩ := map_eq_some_iff.mp h
  refine ⟨l,hl,heq.symm.trans ?_⟩
  split <;> rfl

theorem Inv.modifyLock (h : Inv w) {f : Lock → Lock} (live : String × LockId → Option ℕ) (deletes pops : List ℕ)
    (hf : ∀ l, w.locks[i]? = some l → (f l).instanceName = l.instanceName ∧ (f l).id = l.id ∧
      (f l).token = l.token ∧ (l.released → (f l).released) ∧
      ((f l).isHeld → l.isHeld ∧ (f l).renewedTs = l.renewedTs))
    (hlive : ∀ j l, w.locks[j]? = some l → l.isHeld → (i = j → (f l).isHeld) →
      live (l.instanceName,l.id) = w.liveLockTokens (l.instanceName,l.id))
    (hreleasing : ∀ j : ℕ, j ∈ deletes ∨ j ∈ pops → (j ∈ w.deletes ∨ j ∈ w.pops) ∨
      (j = i ∧ i < w.locks.length ∧ ∀ l, (f l).released)) :
    Inv { w.modifyLock i f with liveLockTokens := live,deletes := deletes,pops := pops } := by
  refine h.weaken ⟨Int.le_refl _,rfl,rfl,rfl,?_,length_modify _ _ _,?_⟩
  · intro j l' hl'
    obtain ⟨l,hl,rfl⟩ := getElem?_modify hl'
    refine ⟨l,hl,?_⟩
    by_cases hij : i = j
    · subst hij
      obtain ⟨hinstance,hid,htoken,hreleased,hheld⟩ := hf l hl
      rw [if_pos rfl]
      refine ⟨hinstance,hid,htoken,hreleased,fun hafter => ?_⟩
      obtain ⟨hbefore,hrenewed⟩ := hheld hafter
      exact ⟨hbefore,hrenewed,(h.held i l hl hbefore).inTime,hlive i l hl hbefore fun _ => hafter⟩
    · rw [if_neg hij]
      refine ⟨rfl,rfl,rfl,fun hr => hr,fun hheld => ?_⟩
      exact ⟨hheld,rfl,(h.held j l hl hheld).inTime, hlive j l hl hheld fun heq => absurd heq hij⟩
  · intro j hj
    rcases hreleasing j hj with hbefore | ⟨rfl,hlt,hreleased⟩
    · exact .inl hbefore
    · refine .inr ⟨hlt,fun l' hl' => ?_⟩
      obtain ⟨l,-,rfl⟩ := getElem?_modify hl'
      rw [if_pos rfl]
      exact hreleased l

theorem Inv.release (h : Inv w) (hlt : i < w.locks.length) :
    Inv { w.modifyLock i fun l => { l with released := true } with
      deletes := i :: w.deletes } := by
  refine h.modifyLock w.liveLockTokens (i :: w.deletes) w.pops ?_ (fun _ _ _ _ _ => rfl) ?_
  · intro l _
    exact ⟨rfl,rfl,rfl,fun _ => rfl,fun hheld => by simp [Lock.isHeld] at hheld⟩
  · rintro j (hj | hj)
    · rcases mem_cons.mp hj with rfl | hj
      · exact .inr ⟨rfl,hlt,fun _ => rfl⟩
      · exact .inl (.inl hj)
    · exact .inl (.inr hj)

theorem Inv.collect (h : Inv w) : Inv { w.modifyLock i fun l => { l with collected := true } with
      liveLockTokens := if w.liveLockTokens (l.instanceName,l.id) = some i then
          update w.liveLockTokens (l.instanceName,l.id) none
        else w.liveLockTokens } := by
  refine h.modifyLock _ w.deletes w.pops ?_ ?_ fun j hj => .inl hj
  · intro l _
    exact ⟨rfl,rfl,rfl,fun hr => hr,fun hheld => by simp [Lock.isHeld] at hheld⟩
  · intro j m hm hheld hij
    split
    · rename_i hentry
      refine update_of_ne ?_ _ _
      -- The entry is that of the lock which is dropped.
      intro heq
      have hlive := (h.held j m hm hheld).live
      rw [heq,hentry] at hlive
      have hdropped := hij (some.inj hlive)
      simp [Lock.isHeld] at hdropped
    · rfl

theorem Inv.popLock (h : Inv w) (hl : w.locks[i]? = some l) (hin : i ∈ w.pops)
    (horderly : w.orderly (.popLock i)) :
    Inv { w.modifyLock i fun l => { l with dropped := true } with
      liveLockTokens := update w.liveLockTokens (l.instanceName,l.id) none
      pops := w.pops.erase i } := by
  refine h.modifyLock _ w.deletes _ ?_ ?_ ?_
  · intro l _
    exact ⟨rfl,rfl,rfl,fun hr => hr,fun hheld => ⟨hheld,rfl⟩⟩
  · intro j m hm hheld _
    refine update_of_ne ?_ _ _
    intro heq
    have hlive := (h.held j m hm hheld).live
    simp only [orderly,hl,all_some,← heq,hlive,decide_eq_true_eq] at horderly
    subst horderly
    have hreleased := (h.releasing j (.inr hin)).2 m hm
    simp [Lock.isHeld,hreleased] at hheld
  · rintro j (hj | hj)
    · exact .inl (.inl hj)
    · exact .inl (.inr (mem_of_mem_erase hj))

theorem Tokens.ne_of_ne (h : Tokens w) {j : ℕ} {m : Lock} (hl : w.locks[i]? = some l)
    (hm : w.locks[j]? = some m) (hij : i ≠ j) : m.token ≠ l.token :=
  fun heq => hij (h.lockInj i j l m hl hm heq.symm)

variable {now : ℤ}

theorem Inv.inserted_update (h : Inv w) (hl : w.locks[i]? = some l) {row : Option LockRow}
    (hrow : ∀ r, w.workerLocks l.id = some r → r.token ≠ l.token → row = some r)
    (hcall : w.acquiring (name,id) = .inserted now token true) :
    update w.workerLocks l.id row id = some ⟨name,token,now⟩ ∨ now + lockTimeoutMs < w.time := by
  refine (h.inserted name id now token hcall).imp_left fun hbefore => ?_
  by_cases hid : id = l.id
  · subst hid
    rw [update_self]
    refine hrow _ hbefore fun heq => ?_
    exact h.tokens.callNotLock (name,l.id) token (by rw [hcall]; rfl) i l hl heq.symm
  · rw [update_of_ne hid]
    exact hbefore

theorem Holds.row_update {j : ℕ} {m : Lock} (h : Holds w j m) (hne : m.token ≠ l.token)
    {f : Option LockRow → Option LockRow} (hf : ∀ r, r.token ≠ l.token → f (some r) = some r) :
    update w.workerLocks l.id (f (w.workerLocks l.id)) m.id = some ⟨m.instanceName,m.token,m.renewedTs⟩ := by
  by_cases hid : m.id = l.id
  · rw [hid,update_self,← hid,h.row]
    exact hf _ hne
  · rw [update_of_ne hid]
    exact h.row

theorem Inv.deleteRow (h : Inv w) (hl : w.locks[i]? = some l) (hin : i ∈ w.deletes) : Inv { w with
      workerLocks := update w.workerLocks l.id ((w.workerLocks l.id).filter (·.token ≠ l.token))
      deletes := w.deletes.erase i
      pops := i :: w.pops } where
  tokens := h.tokens.weaken rfl rfl fun j m hm => ⟨m,hm,rfl⟩
  held j m hm hheld := by
    have hold := h.held j m hm hheld
    have hij : i ≠ j := by
      rintro rfl
      have hreleased := (h.releasing i (.inl hin)).2 m hm
      simp [Lock.isHeld,hreleased] at hheld
    refine ⟨?_,hold.live,hold.inTime,hold.stops⟩
    exact hold.row_update (f := Option.filter (·.token ≠ l.token)) (h.tokens.ne_of_ne hl hm hij)
      fun r hr => by simp [hr]
  now_le := h.now_le
  inserted name id now token hcall := by
    refine h.inserted_update hl (fun r hr hne => ?_) hcall
    simp [hr,hne]
  releasing j hj := by
    rcases hj with hj | hj
    · exact h.releasing j (.inl (mem_of_mem_erase hj))
    · rcases mem_cons.mp hj with rfl | hj
      · exact h.releasing j (.inl hin)
      · exact h.releasing j (.inr hj)

theorem Inv.renew (h : Inv w) (hl : w.locks[i]? = some l) (ts : ℤ) (renewals : List (ℕ × ℤ)) :
    Inv { w.modifyLock i fun l => Lock.seenAt w.time { l with renewedTs := ts } with
      workerLocks := update w.workerLocks l.id ((w.workerLocks l.id).map fun row =>
        if row.token = l.token then { row with lastRenewedTs := ts } else row)
      renewals := renewals } where
  tokens := by
    refine h.tokens.weaken rfl rfl fun j m' hm' => ?_
    obtain ⟨m,hm,rfl⟩ := getElem?_modify hm'
    refine ⟨m,hm,?_⟩
    split <;> rfl
  held j m' hm' hheld := by
    obtain ⟨m,hm,rfl⟩ := getElem?_modify hm'
    by_cases hij : i = j
    · subst hij
      cases hl.symm.trans hm
      rw [if_pos rfl] at hheld ⊢
      obtain ⟨hbefore,htime⟩ := isHeld_seenAt hheld
      have hold := h.held i l hl hbefore
      refine ⟨?_,hold.live,htime,hold.stops⟩
      rw [hold.row]
      simp [Lock.seenAt]
    · rw [if_neg hij] at hheld ⊢
      have hold := h.held j m hm hheld
      refine ⟨?_,hold.live,hold.inTime,hold.stops⟩
      exact hold.row_update (f := Option.map _) (h.tokens.ne_of_ne hl hm hij) fun r hr => by simp [hr]
  now_le := h.now_le
  inserted name id now token hcall := by
    refine h.inserted_update hl (fun r hr hne => ?_) hcall
    simp [hr,hne]
  releasing j hj := by
    obtain ⟨hlt,hall⟩ := h.releasing j hj
    refine ⟨Nat.lt_of_lt_of_eq hlt (length_modify _ _ _).symm,fun m' hm' => ?_⟩
    obtain ⟨m,hm,rfl⟩ := getElem?_modify hm'
    have hreleased := hall m hm
    split
    · exact hreleased
    · exact hreleased

theorem update_cases (w : LockWorld) (name : String) (id : LockId) (acquiring : Acquiring)
    (k : String × LockId) : (k = (name,id) ∧
      update w.acquiring (name,id) acquiring k = acquiring) ∨ (k ≠ (name,id) ∧
      update w.acquiring (name,id) acquiring k = w.acquiring k) := by
  by_cases heq : k = (name,id)
  · subst heq
    exact .inl ⟨rfl,update_self ..⟩
  · exact .inr ⟨heq,update_of_ne heq _ _⟩

theorem Holds.not_inserting (h : Holds w i l) (heq : (l.instanceName,l.id) = (name,id))
    : w.acquiring (name,id) ≠ .inserting now token := by
  intro hcall
  have hstops := h.stops
  rw [heq,hcall] at hstops
  rcases hstops with hidle | hchecking | ⟨ts,hchecked⟩
  · cases hidle
  · cases hchecking
  · cases hchecked

theorem Tokens.setAcquiring (h : Tokens w) {drawn : List String} (hdrawn : ∀ token ∈ w.drawn, token ∈ drawn)
    (hcall : ∀ token, acquiring.token = some token → token ∈ drawn ∧
      (∀ k, k ≠ (name,id) → (w.acquiring k).token ≠ some token) ∧
      ∀ (i : ℕ) (l : Lock), w.locks[i]? = some l → l.token ≠ token) :
    Tokens { w.setAcquiring name id acquiring with drawn := drawn } where
  lockDrawn i l hl := hdrawn _ (h.lockDrawn i l hl)
  lockInj := h.lockInj
  callDrawn k token hk := by
    rcases update_cases w name id acquiring k with ⟨-,heq⟩ | ⟨-,heq⟩
    · exact (hcall token (heq ▸ hk)).1
    · exact hdrawn _ (h.callDrawn k token (heq ▸ hk))
  callInj k k' token hk hk' := by
    rcases update_cases w name id acquiring k with ⟨hk1,heq⟩ | ⟨hne,heq⟩
    · rcases update_cases w name id acquiring k' with ⟨hk2,-⟩ | ⟨hne,heq'⟩
      · rw [hk1,hk2]
      · exact absurd (heq' ▸ hk') ((hcall token (heq ▸ hk)).2.1 k' hne)
    · rcases update_cases w name id acquiring k' with ⟨-,heq'⟩ | ⟨-,heq'⟩
      · exact absurd (heq ▸ hk) ((hcall token (heq' ▸ hk')).2.1 k hne)
      · exact h.callInj k k' token (heq ▸ hk) (heq' ▸ hk')
  callNotLock k token hk := by
    rcases update_cases w name id acquiring k with ⟨-,heq⟩ | ⟨-,heq⟩
    · exact (hcall token (heq ▸ hk)).2.2
    · exact h.callNotLock k token (heq ▸ hk)

section
variable (h : Inv w)
include h

theorem Inv.setAcquiring {drawn : List String}
    (htokens : Tokens { w.setAcquiring name id acquiring with drawn := drawn })
    (hstops : ∀ (i : ℕ) (l : Lock), w.locks[i]? = some l → l.isHeld →
      (l.instanceName,l.id) = (name,id) → acquiring.StopsAt i)
    (hnow : ∀ now token, acquiring = .inserting now token → now ≤ w.time)
    (hinserted : ∀ now token, acquiring ≠ .inserted now token true) :
    Inv { w.setAcquiring name id acquiring with drawn := drawn } where
  tokens := htokens
  held i l hl hheld := by
    have hold := h.held i l hl hheld
    refine ⟨hold.row,hold.live,hold.inTime,?_⟩
    change (update w.acquiring (name,id) acquiring _).StopsAt i
    rcases update_cases w name id acquiring (l.instanceName,l.id) with ⟨hk,heq⟩ | ⟨-,heq⟩
    · rw [heq]
      exact hstops i l hl hheld hk
    · rw [heq]
      exact hold.stops
  now_le k now token hk := by
    rcases update_cases w name id acquiring k with ⟨-,heq⟩ | ⟨-,heq⟩
    · exact hnow now token (heq.symm.trans hk)
    · exact h.now_le k now token (heq.symm.trans hk)
  inserted name' other now token hk := by
    rcases update_cases w name id acquiring (name',other) with ⟨-,heq⟩ | ⟨-,heq⟩
    · exact absurd (heq.symm.trans hk) (hinserted now token)
    · exact h.inserted name' other now token (heq.symm.trans hk)
  releasing := h.releasing

theorem Inv.setAcquiring_of_token_eq_none (htoken : acquiring.token = none)
    (hstops : ∀ (i : ℕ) (l : Lock), w.locks[i]? = some l → l.isHeld →
      (l.instanceName,l.id) = (name,id) → acquiring.StopsAt i) :
    Inv (w.setAcquiring name id acquiring) := by
  refine @Inv.setAcquiring w name id acquiring h w.drawn
    (h.tokens.setAcquiring (fun _ ht => ht) ?_) hstops ?_ ?_
  · intro token heq
    rw [htoken] at heq
    cases heq
  · rintro now token rfl
    cases htoken
  · rintro now token rfl
    cases htoken

theorem Inv.idle : Inv (w.setAcquiring name id .idle) :=
  h.setAcquiring_of_token_eq_none rfl fun _ _ _ _ _ => .inl rfl

theorem Inv.check (hlive : w.liveLockTokens (name,id) = some i) :
    Inv (w.setAcquiring name id (.checking i)) := by
  refine h.setAcquiring_of_token_eq_none rfl fun j m hm hheld heq => ?_
  have hown := (h.held j m hm hheld).live
  rw [heq,hlive] at hown
  cases hown
  exact .inr (.inl rfl)

theorem Inv.select (hl : w.locks[i]? = some l) (hcall : w.acquiring (name,id) = .checking i) :
    Inv (w.setAcquiring name id (.checked i ((w.rowOf l).map (·.lastRenewedTs)))) := by
  refine h.setAcquiring_of_token_eq_none rfl fun j m hm hheld heq => ?_
  have hold := h.held j m hm hheld
  have hstops := hold.stops
  rw [heq,hcall] at hstops
  rcases hstops with hidle | hchecking | ⟨ts,hchecked⟩
  · cases hidle
  · obtain rfl := Acquiring.checking.inj hchecking
    cases hl.symm.trans hm
    refine .inr (.inr ⟨l.renewedTs,?_⟩)
    simp [rowOf,hold.row]
  · cases hchecked

theorem Inv.startInsert (hfresh : token ∉ w.drawn)
    (hnone : ∀ (i : ℕ) (l : Lock), w.locks[i]? = some l → l.isHeld →
      (l.instanceName,l.id) ≠ (name,id)) : Inv (w.startInsert name id token) := by
  refine h.setAcquiring (h.tokens.setAcquiring (fun _ ht => mem_cons_of_mem _ ht) ?_) ?_ ?_ ?_
  · intro drawn heq
    cases heq
    refine ⟨mem_cons_self,fun k _ hk => ?_,fun i l hl heq => ?_⟩
    · exact hfresh (h.tokens.callDrawn k _ hk)
    · exact hfresh (heq ▸ h.tokens.lockDrawn i l hl)
  · exact fun i l hl hheld heq => absurd heq (hnone i l hl hheld)
  · intro now token heq
    cases heq
    exact Int.le_refl _
  · intro now token heq
    cases heq

theorem Inv.stillValid {lock : ℕ} {lastRenewedTs : Option ℤ}
    (horderly : w.orderly (.isStillValid name id token))
    (hcall : w.acquiring (name,id) = .checked lock lastRenewedTs)
    (hl : w.locks[i]? = some l) (hheld : l.isHeld)
    (heq : (l.instanceName,l.id) = (name,id)) : w.stillValid lastRenewedTs := by
  have hold := h.held i l hl hheld
  have hstops := hold.stops
  rw [heq,hcall] at hstops
  rcases hstops with hidle | hchecking | ⟨ts,hchecked⟩
  · cases hidle
  · cases hchecking
  · obtain ⟨rfl,rfl⟩ := Acquiring.checked.inj hchecked
    have hrow : w.rowOf l = some ⟨l.instanceName,l.token,l.renewedTs⟩ := by
      simp [rowOf,hold.row]
    simp only [orderly,hcall,hl,hrow,any_some,all_some,Bool.and_eq_true,
      Bool.or_eq_true,decide_eq_true_eq] at horderly
    rcases horderly.2 with hvalid | hcurrent
    · exact hvalid
    · have htime := hold.inTime
      simp only [LockWorld.stillValid,any_some,decide_eq_true_eq]
      omega

end

theorem Inv.not_replaces (h : Inv w) (hcall : w.acquiring (name,id) = .inserting now token)
    (hl : w.locks[i]? = some l) (hheld : l.isHeld = true) (hid : l.id = id) :
    w.tryAcquireLockTxn name id now token = (w.workerLocks,false) := by
  have hold := h.held i l hl hheld
  have hother : l.instanceName ≠ name := by
    rintro rfl
    exact hold.not_inserting (by rw [hid]) hcall
  have hrow := hold.row
  have htime := hold.inTime
  have hnow := h.now_le _ _ _ hcall
  have hkept : replaces name now ⟨l.instanceName,l.token,l.renewedTs⟩ = false := by
    simp only [replaces,hother,or_false,decide_eq_false_iff_not]
    omega
  rw [hid] at hrow
  rw [tryAcquireLockTxn,hrow,all_some,hkept]
  rfl

theorem tryAcquireLockTxn_of_ne {other : LockId} (hne : other ≠ id) :
    (w.tryAcquireLockTxn name id now token).1 other = w.workerLocks other := by
  unfold tryAcquireLockTxn
  split
  · exact update_of_ne hne _ _
  · rfl

section
variable (h : Inv w) (hcall : w.acquiring (name,id) = .inserting now token)
include h hcall

/-- A row that another call has written is only replaced when it has timed out. -/
theorem Inv.inserted_of_ne {now' : ℤ} {name' token' : String}
    (hother : w.acquiring (name',id) = .inserted now' token' true) (hne : name' ≠ name) :
    (w.tryAcquireLockTxn name id now token).1 id = some ⟨name',token',now'⟩ ∨
      now' + lockTimeoutMs < w.time := by
  rcases h.inserted name' id now' token' hother with hrow | htime
  · unfold tryAcquireLockTxn
    split
    · rename_i hreplaces
      rw [hrow,all_some] at hreplaces
      simp only [replaces,hne,or_false,decide_eq_true_eq] at hreplaces
      have hnow := h.now_le _ _ _ hcall
      right
      omega
    · exact .inl hrow
  · exact .inr htime

theorem Inv.upsert : Inv { w.setAcquiring name id
        (.inserted now token (w.tryAcquireLockTxn name id now token).2) with
      workerLocks := (w.tryAcquireLockTxn name id now token).1 } where
  tokens := by
    have hown : (w.acquiring (name,id)).token = some token := by rw [hcall]; rfl
    have hset := @Tokens.setAcquiring w name id
      (.inserted now token (w.tryAcquireLockTxn name id now token).2) h.tokens w.drawn
      (fun _ ht => ht) ?_
    · exact hset.weaken rfl rfl fun i l hl => ⟨l,hl,rfl⟩
    · intro drawn heq
      cases heq
      exact ⟨h.tokens.callDrawn _ _ hown,fun k hne hk => hne (h.tokens.callInj _ _ _ hk hown),
        h.tokens.callNotLock _ _ hown⟩
  held i l hl hheld := by
    have hold := h.held i l hl hheld
    refine ⟨?_,hold.live,hold.inTime,?_⟩
    · change (w.tryAcquireLockTxn name id now token).1 l.id = _
      by_cases hid : l.id = id
      · rw [h.not_replaces hcall hl hheld hid]
        exact hold.row
      · rw [tryAcquireLockTxn_of_ne hid]
        exact hold.row
    · change (update w.acquiring (name,id) _ _).StopsAt i
      rw [update_of_ne fun heq => hold.not_inserting heq hcall]
      exact hold.stops
  now_le k now' token' hk := by
    change update w.acquiring (name,id) _ k = _ at hk
    by_cases heq : k = (name,id)
    · rw [heq,update_self] at hk
      cases hk
    · rw [update_of_ne heq] at hk
      exact h.now_le k now' token' hk
  inserted name' other now' token' hk := by
    change update w.acquiring (name,id) _ (name',other) = _ at hk
    change (w.tryAcquireLockTxn name id now token).1 other = _ ∨ _
    by_cases heq : (name',other) = (name,id)
    · cases heq
      rw [update_self] at hk
      obtain ⟨rfl,rfl,hdid⟩ := Acquiring.inserted.inj hk
      unfold tryAcquireLockTxn at hdid ⊢
      split
      · exact .inl (update_self ..)
      · rename_i hnot
        rw [if_neg hnot] at hdid
        cases hdid
    · rw [update_of_ne heq] at hk
      by_cases hid : other = id
      · subst hid
        exact h.inserted_of_ne hcall hk fun hname => heq (by rw [hname])
      · rw [tryAcquireLockTxn_of_ne hid]
        exact h.inserted name' other now' token' hk
  releasing := h.releasing

end

/-- A lock that is returned in time has its row, so no other lock is held. -/
theorem Inv.not_held (h : Inv w) (hcall : w.acquiring (name,id) = .inserted now token true)
    (htime : w.time ≤ now + lockTimeoutMs) (hl : w.locks[i]? = some l) (hid : l.id = id) :
    l.isHeld = false := by
  cases hheld : l.isHeld with
  | false => rfl
  | true =>
    exfalso
    have hrow := (h.held i l hl hheld).row
    rcases h.inserted name id now token hcall with hown | hlate
    · rw [hid,hown] at hrow
      have htoken : l.token = token := by
        have := congrArg LockRow.token (some.inj hrow)
        exact this.symm
      exact h.tokens.callNotLock (name,id) token (by rw [hcall]; rfl) i l hl htoken
    · omega

theorem getElem?_concat {locks : List Lock} {new : Lock} (h : (locks ++ [new])[i]? = some l) :
    locks[i]? = some l ∨ (i = locks.length ∧ l = new) := by
  rcases Nat.lt_trichotomy i locks.length with hlt | heq | hgt
  · rw [getElem?_append_left hlt] at h
    exact .inl h
  · subst heq
    rw [getElem?_concat_length] at h
    exact .inr ⟨rfl,(some.inj h).symm⟩
  · rw [getElem?_eq_none (by simp; omega)] at h
    cases h

theorem Inv.addLock (h : Inv w) (hcall : w.acquiring (name,id) = .inserted now token true)
    (htime : w.time ≤ now + lockTimeoutMs) : Inv (w.addLock name id now token) := by
  have hown : (w.acquiring (name,id)).token = some token := by rw [hcall]; rfl
  have hidle := @Inv.idle w name id h
  have hne : ∀ (i : ℕ) (l : Lock), w.locks[i]? = some l → l.isHeld →
      (l.instanceName,l.id) ≠ (name,id) := by
    intro i l hl hheld heq
    have hnot := h.not_held hcall htime hl (Prod.mk.inj heq).2
    rw [hnot] at hheld
    cases hheld
  refine ⟨?_,?_,hidle.now_le,hidle.inserted,?_⟩
  · refine ⟨?_,?_,hidle.tokens.callDrawn,hidle.tokens.callInj,?_⟩
    · intro i l hl
      rcases getElem?_concat hl with hl | ⟨-,rfl⟩
      · exact h.tokens.lockDrawn i l hl
      · exact h.tokens.callDrawn _ _ hown
    · intro i j l m hl hm heq
      rcases getElem?_concat hl with hl | ⟨rfl,rfl⟩
      · rcases getElem?_concat hm with hm | ⟨rfl,rfl⟩
        · exact h.tokens.lockInj i j l m hl hm heq
        · exact absurd heq (h.tokens.callNotLock _ _ hown i l hl)
      · rcases getElem?_concat hm with hm | ⟨rfl,rfl⟩
        · exact absurd heq.symm (h.tokens.callNotLock _ _ hown j m hm)
        · rfl
    · intro k drawn hk i l hl
      rcases getElem?_concat hl with hl | ⟨-,rfl⟩
      · exact hidle.tokens.callNotLock k drawn hk i l hl
      · -- Another call has another token.
        rintro rfl
        change (update w.acquiring (name,id) .idle k).token = some token at hk
        by_cases heq : k = (name,id)
        · rw [heq,update_self] at hk
          cases hk
        · rw [update_of_ne heq] at hk
          exact heq (h.tokens.callInj _ _ _ hk hown)
  · intro i l hl hheld
    rcases getElem?_concat hl with hl | ⟨rfl,rfl⟩
    · have hold := hidle.held i l hl hheld
      refine ⟨hold.row,?_,hold.inTime,hold.stops⟩
      change update w.liveLockTokens (name,id) _ _ = _
      rw [update_of_ne (hne i l hl hheld)]
      exact hold.live
    · obtain ⟨-,hlater⟩ := isHeld_seenAt hheld
      refine ⟨?_,update_self ..,hlater,.inl (update_self ..)⟩
      rcases h.inserted name id now token hcall with hrow | hlate
      · exact hrow
      · omega
  · intro i hi
    obtain ⟨hlt,hall⟩ := h.releasing i hi
    refine ⟨?_,fun l hl => ?_⟩
    · change i < (w.locks ++ [_]).length
      rw [length_append]
      omega
    · rcases getElem?_concat hl with hl | ⟨rfl,-⟩
      · exact hall l hl
      · omega

variable {action : Action}

theorem Inv.step (h : Inv w) (horderly : w.orderly action) (hstep : w.step action = some w') : Inv w' := by
  cases action with
  | tick ms =>
    cases hstep
    exact h.tick ms
  | tryAcquireLock name id token =>
    simp only [LockWorld.step] at hstep
    split at hstep
    · split at hstep
      · rename_i hlive
        cases hstep
        exact h.check hlive
      · rename_i hlive
        cases hstep
        refine h.startInsert (of_decide_eq_true horderly) fun i l hl hheld heq => ?_
        have hown := (h.held i l hl hheld).live
        rw [heq,hlive] at hown
        cases hown
    · cases hstep
      exact h
  | selectLastRenewed name id =>
    simp only [LockWorld.step] at hstep
    split at hstep
    · rename_i lock hcall
      obtain ⟨l,hl,rfl⟩ := map_eq_some_iff.mp hstep
      exact h.select hl hcall
    · cases hstep
  | isStillValid name id token =>
    simp only [LockWorld.step] at hstep
    split at hstep
    · rename_i lock lastRenewedTs hcall
      split at hstep
      · cases hstep
        exact h.idle
      · rename_i hinvalid
        cases hstep
        have hfresh : token ∉ w.drawn := of_decide_eq_true (Bool.and_eq_true_iff.mp horderly).1
        refine h.startInsert hfresh fun i l hl hheld heq => ?_
        exact hinvalid (h.stillValid horderly hcall hl hheld heq)
    · cases hstep
  | upsert name id =>
    simp only [LockWorld.step] at hstep
    split at hstep
    · rename_i now token hcall
      cases hstep
      exact h.upsert hcall
    · cases hstep
  | returnLock name id =>
    simp only [LockWorld.step] at hstep
    split at hstep
    · rename_i now token hcall
      cases hstep
      simp only [orderly,hcall,decide_eq_true_eq] at horderly
      exact h.addLock hcall horderly
    · cases hstep
      exact h.idle
    · cases hstep
  | abort name id =>
    cases hstep
    exact h.idle
  | startRenew lock =>
    obtain ⟨l,hl,rfl⟩ := map_eq_some_iff.mp hstep
    refine h.weaken ⟨Int.le_refl _,rfl,rfl,rfl,fun i m hm => ?_,rfl,fun i hi => .inl hi⟩
    refine ⟨m,hm,rfl,rfl,rfl,fun hr => hr,fun hheld => ?_⟩
    exact ⟨hheld,rfl,(h.held i m hm hheld).inTime,rfl⟩
  | renew lock ts =>
    obtain ⟨-,hstep⟩ := ite_none_right_eq_some.mp hstep
    obtain ⟨l,hl,rfl⟩ := map_eq_some_iff.mp hstep
    exact h.renew hl ts _
  | release lock =>
    obtain ⟨l,hl,hstep⟩ := bind_eq_some_iff.mp hstep
    split at hstep
    · cases hstep
      exact h
    · cases hstep
      exact h.release (List.getElem?_eq_some_iff.mp hl).1
  | deleteRow lock =>
    obtain ⟨hin,hstep⟩ := ite_none_right_eq_some.mp hstep
    obtain ⟨l,hl,rfl⟩ := map_eq_some_iff.mp hstep
    exact h.deleteRow hl hin
  | popLock lock =>
    obtain ⟨hin,hstep⟩ := ite_none_right_eq_some.mp hstep
    obtain ⟨l,hl,rfl⟩ := map_eq_some_iff.mp hstep
    exact h.popLock hl hin horderly
  | collect lock =>
    obtain ⟨l,hl,rfl⟩ := map_eq_some_iff.mp hstep
    exact h.collect

theorem Inv.exclusive (h : Inv w) (horderly : w.orderly action) : w.Exclusive action := by
  intro id hreturned lock hin hid
  cases action with
  | returnLock name other =>
    simp only [returned] at hreturned
    split at hreturned
    · rename_i now token hcall
      cases hreturned
      simp only [orderly,hcall,decide_eq_true_eq] at horderly
      obtain ⟨i,hl⟩ := mem_iff_getElem?.mp hin
      exact h.not_held hcall horderly hl hid
    · cases hreturned
  | _ => cases hreturned

/-- The steps that are orderly where they are taken. -/
abbrev orderlyStep : LockWorld → Action → Option LockWorld :=
  guarded (fun w action => w.orderly action = true) step

/-- In every run of orderly steps a held lock is exclusive. -/
theorem held_lock_exclusive {time : ℤ} {actions : List Action} {action : Action}
    (hrun : run orderlyStep (start time) actions = some w)
    (horderly : w.orderly action = true) : w.Exclusive action := by
  have hinv : Inv w := by
    refine run_preserves (fun {w action w'} h hstep => ?_) (inv_start time) hrun
    obtain ⟨horderly,hstep⟩ := guarded_eq_some.mp hstep
    exact h.step horderly hstep
  exact hinv.exclusive horderly

def take (instanceName token : String) : List Action :=
  [.tryAcquireLock instanceName ("n","k") token,.upsert instanceName ("n","k"),
    .returnLock instanceName ("n","k")]

/-- A lock that was released is returned to another process. -/
theorem released_lock_is_returned : ∃ w,
    run orderlyStep (start 0) (take "a" "t0" ++ [.release 0,.deleteRow 0,.popLock 0,
      .tryAcquireLock "b" ("n","k") "t1",.upsert "b" ("n","k")]) = some w ∧
    w.returned (.returnLock "b" ("n","k")) = some ("n","k") ∧
    w.Exclusive (.returnLock "b" ("n","k")) := by
  refine ⟨_,(some_get (by decide +kernel)).symm,by decide +kernel,?_⟩
  exact held_lock_exclusive (some_get _).symm (by decide +kernel)

def breaksAt (actions : List Action) (action : Action) : Bool :=
  (run step (start 0) actions).any fun w =>
    w.locks.any fun lock => w.returned action = some lock.id && lock.isHeld

theorem not_exclusive_of_breaksAt {actions : List Action} (h : breaksAt actions action) :
    ∃ w, run step (start 0) actions = some w ∧ ¬w.Exclusive action := by
  obtain ⟨w,hrun,hbreaks⟩ := (Option.any_eq_true _ _).mp h
  obtain ⟨lock,hin,hlock⟩ := any_eq_true.mp hbreaks
  obtain ⟨hreturned,hheld⟩ := Bool.and_eq_true_iff.mp hlock
  refine ⟨w,hrun,fun hexclusive => ?_⟩
  rw [hexclusive lock.id (of_decide_eq_true hreturned) lock hin rfl] at hheld
  cases hheld

/-- The late release of a lock that has timed out removes the entry of the next lock of its process.
The same comes of a check that is answered late, and of a lock that is returned late. -/
theorem late_release_breaks_exclusion :
    (∃ w, run step (start 0) (take "a" "t0" ++ [.tick 120000,
        .tryAcquireLock "a" ("n","k") "t1",.selectLastRenewed "a" ("n","k"),
        .isStillValid "a" ("n","k") "t1",.upsert "a" ("n","k"),.returnLock "a" ("n","k"),
        .release 0,.deleteRow 0,.popLock 0,
        .tryAcquireLock "a" ("n","k") "t2",.upsert "a" ("n","k")]) = some w ∧
      ¬w.Exclusive (.returnLock "a" ("n","k"))) ∧
    (∃ w, run step (start 0) (take "a" "t0" ++ [.tick 90000,
        .tryAcquireLock "a" ("n","k") "t1",.selectLastRenewed "a" ("n","k"),
        .startRenew 0,.renew 0 90000,.tick 30000,
        .isStillValid "a" ("n","k") "t1",.upsert "a" ("n","k")]) = some w ∧
      ¬w.Exclusive (.returnLock "a" ("n","k"))) ∧
    ∃ w, run step (start 0) ([.tryAcquireLock "a" ("n","k") "t0",.upsert "a" ("n","k"),
        .tick 120001] ++ take "b" "t1") = some w ∧
      ¬w.Exclusive (.returnLock "a" ("n","k")) := by
  refine ⟨not_exclusive_of_breaksAt ?_,not_exclusive_of_breaksAt ?_,not_exclusive_of_breaksAt ?_⟩
  · decide +kernel
  · decide +kernel
  · decide +kernel

end LockWorld

end TextrpBriij.Storage
