import TextrpBriij.Foundation.Runs

/-! # Locks between workers

A lock is a row of `worker_locks`, and an object in the process that took it. Each SQL statement is
one step, and so is the code that runs from the answer of a statement to the next one; anything may
happen in between.
-/
namespace TextrpBriij.Storage
open Function

def lockTimeoutMs : ℤ := 2 * 60 * 1000

abbrev LockId := String × String

structure LockRow where
  instanceName : String
  token : String
  lastRenewedTs : ℤ
deriving DecidableEq

/-- An object of the class `Lock`. The last four fields are its history: the time that its last
renewal wrote, whether that timed out at some time, whether `release` was called, and whether the
object was dropped without that. -/
structure Lock where
  instanceName : String
  id : LockId
  token : String
  dropped : Bool
  renewedTs : ℤ
  lapsed : Bool
  released : Bool
  collected : Bool
deriving DecidableEq

inductive Acquiring where
  | idle
  /-- `is_still_valid` of a lock waits for its statement. -/
  | checking (lock : ℕ)
  | checked (lock : ℕ) (lastRenewedTs : Option ℤ)
  /-- The transaction waits for its statement. -/
  | inserting (now : ℤ) (token : String)
  | inserted (now : ℤ) (token : String) (didLock : Bool)
deriving DecidableEq

/-- The table, and the memory of all processes. -/
structure LockWorld where
  time : ℤ
  workerLocks : LockId → Option LockRow
  /-- `_live_lock_tokens` of each process, with the indices of the locks. -/
  liveLockTokens : String × LockId → Option ℕ
  /-- `_acquiring_locks` of each process, with the state of the call. -/
  acquiring : String × LockId → Acquiring
  locks : List Lock
  /-- Renewals whose statement has not run, with the time that they write. -/
  renewals : List (ℕ × ℤ)
  /-- Releases whose statement has not run. -/
  deletes : List ℕ
  /-- Releases whose statement has run. -/
  pops : List ℕ
  /-- All tokens so far. -/
  drawn : List String

namespace LockWorld

def start (time : ℤ) : LockWorld :=
  ⟨time,fun _ => none,fun _ => none,fun _ => .idle,[],[],[],[],[]⟩

inductive Action where
  | tick (ms : ℕ)
  | tryAcquireLock (instanceName : String) (id : LockId) (token : String)
  | selectLastRenewed (instanceName : String) (id : LockId)
  | isStillValid (instanceName : String) (id : LockId) (token : String)
  | upsert (instanceName : String) (id : LockId)
  | returnLock (instanceName : String) (id : LockId)
  /-- A statement of `try_acquire_lock` raised, before or after it took effect. -/
  | abort (instanceName : String) (id : LockId)
  | startRenew (lock : ℕ)
  | renew (lock : ℕ) (ts : ℤ)
  | release (lock : ℕ)
  | deleteRow (lock : ℕ)
  | popLock (lock : ℕ)
  /-- The object is dropped without `release`. -/
  | collect (lock : ℕ)

end LockWorld

def Lock.seenAt (time : ℤ) (lock : Lock) : Lock :=
  { lock with lapsed := lock.lapsed || decide (lock.renewedTs + lockTimeoutMs ≤ time) }

/-- The lock was returned and not released, and it was renewed before each timeout. -/
def Lock.isHeld (lock : Lock) : Bool := !lock.released && !lock.collected && !lock.lapsed

namespace LockWorld

variable (w : LockWorld)
variable (instanceName : String) (id : LockId)

def setAcquiring (acquiring : Acquiring) : LockWorld :=
  { w with acquiring := update w.acquiring (instanceName,id) acquiring }

def startInsert (token : String) : LockWorld :=
  { w.setAcquiring instanceName id (.inserting w.time token) with drawn := token :: w.drawn }

def rowOf (lock : Lock) : Option LockRow := (w.workerLocks lock.id).filter (·.token = lock.token)

def replaces (now : ℤ) (row : LockRow) : Bool :=
  row.lastRenewedTs < now - lockTimeoutMs ∨ row.instanceName = instanceName

def tryAcquireLockTxn (now : ℤ) (token : String) : (LockId → Option LockRow) × Bool :=
  if (w.workerLocks id).all (replaces instanceName now) then
    (update w.workerLocks id (some ⟨instanceName,token,now⟩),true)
  else (w.workerLocks,false)

def addLock (now : ℤ) (token : String) : LockWorld :=
  { w.setAcquiring instanceName id .idle with
    liveLockTokens := update w.liveLockTokens (instanceName,id) (some w.locks.length)
    locks := w.locks ++ [Lock.seenAt w.time ⟨instanceName,id,token,false,now,false,false,false⟩] }

def stillValid (lastRenewedTs : Option ℤ) : Bool :=
  lastRenewedTs.any fun ts => w.time - lockTimeoutMs < ts

def modifyLock (lock : ℕ) (f : Lock → Lock) : LockWorld :=
  { w with locks := w.locks.modify lock f }

def step (w : LockWorld) : Action → Option LockWorld
  | .tick ms => some { w with
      time := w.time + ms
      locks := w.locks.map (Lock.seenAt (w.time + ms)) }
  | .tryAcquireLock instanceName id token =>
    match w.acquiring (instanceName,id) with
    | .idle =>
      match w.liveLockTokens (instanceName,id) with
      | some lock => some (w.setAcquiring instanceName id (.checking lock))
      | none => some (w.startInsert instanceName id token)
    -- The lock is in `_acquiring_locks`, and the call returns `None`.
    | _ => some w
  | .selectLastRenewed instanceName id =>
    match w.acquiring (instanceName,id) with
    | .checking lock => (w.locks[lock]?).map fun l =>
        w.setAcquiring instanceName id (.checked lock ((w.rowOf l).map (·.lastRenewedTs)))
    | _ => none
  | .isStillValid instanceName id token =>
    match w.acquiring (instanceName,id) with
    | .checked _ lastRenewedTs =>
      if w.stillValid lastRenewedTs then some (w.setAcquiring instanceName id .idle)
      else some (w.startInsert instanceName id token)
    | _ => none
  | .upsert instanceName id =>
    match w.acquiring (instanceName,id) with
    | .inserting now token =>
      let result := w.tryAcquireLockTxn instanceName id now token
      some { w.setAcquiring instanceName id (.inserted now token result.2) with
        workerLocks := result.1 }
    | _ => none
  | .returnLock instanceName id =>
    match w.acquiring (instanceName,id) with
    | .inserted now token true => some (w.addLock instanceName id now token)
    | .inserted _ _ false => some (w.setAcquiring instanceName id .idle)
    | _ => none
  | .abort instanceName id => some (w.setAcquiring instanceName id .idle)
  -- The looping call may be set up after the release, so that any lock may be renewed.
  | .startRenew lock => (w.locks[lock]?).map fun _ =>
      { w with renewals := (lock,w.time) :: w.renewals }
  | .renew lock ts =>
    if (lock,ts) ∈ w.renewals then
      (w.locks[lock]?).map fun l =>
        { w.modifyLock lock fun l => Lock.seenAt w.time { l with renewedTs := ts } with
          workerLocks := update w.workerLocks l.id ((w.workerLocks l.id).map fun row =>
            if row.token = l.token then { row with lastRenewedTs := ts } else row)
          renewals := w.renewals.erase (lock,ts) }
    else none
  | .release lock => (w.locks[lock]?).bind fun l =>
      if l.dropped then some w
      else some { w.modifyLock lock fun l => { l with released := true } with
        deletes := lock :: w.deletes }
  | .deleteRow lock =>
    if lock ∈ w.deletes then
      (w.locks[lock]?).map fun l =>
        { w with
          workerLocks := update w.workerLocks l.id ((w.workerLocks l.id).filter (·.token ≠ l.token))
          deletes := w.deletes.erase lock
          pops := lock :: w.pops }
    else none
  -- The entry of the map is removed, whichever lock it is.
  | .popLock lock =>
    if lock ∈ w.pops then
      (w.locks[lock]?).map fun l =>
        { w.modifyLock lock fun l => { l with dropped := true } with
          liveLockTokens := update w.liveLockTokens (l.instanceName,l.id) none
          pops := w.pops.erase lock }
    else none
  | .collect lock => (w.locks[lock]?).map fun l =>
      { w.modifyLock lock fun l => { l with collected := true } with
        liveLockTokens := if w.liveLockTokens (l.instanceName,l.id) = some lock then
            update w.liveLockTokens (l.instanceName,l.id) none
          else w.liveLockTokens }

/-- The lock that the step returns to a caller of `try_acquire_lock`. -/
def returned (w : LockWorld) : Action → Option LockId
  | .returnLock instanceName id =>
    match w.acquiring (instanceName,id) with
    | .inserted _ _ true => some id
    | _ => none
  | _ => none

/-- No lock is returned while another one for its name and key is held. -/
def Exclusive (w : LockWorld) (action : Action) : Prop :=
  ∀ id, w.returned action = some id → ∀ lock ∈ w.locks, lock.id = id → lock.isHeld = false

/-- The step does not remove the entry of another lock, does not judge a lock by a time of renewal
that is out of date, does not return a lock that has timed out, and draws a new token. -/
def orderly (w : LockWorld) : Action → Bool
  | .tryAcquireLock _ _ token => token ∉ w.drawn
  | .isStillValid instanceName id token => token ∉ w.drawn &&
      match w.acquiring (instanceName,id) with
      | .checked lock (some ts) => w.stillValid (some ts) ||
          (w.locks[lock]?).any fun l => (w.rowOf l).all fun row => row.lastRenewedTs = ts
      | _ => true
  | .returnLock instanceName id =>
      match w.acquiring (instanceName,id) with
      | .inserted now _ true => w.time ≤ now + lockTimeoutMs
      | _ => true
  | .popLock lock => (w.locks[lock]?).all fun l =>
      (w.liveLockTokens (l.instanceName,l.id)).all (· = lock)
  | _ => true

end LockWorld

end TextrpBriij.Storage
