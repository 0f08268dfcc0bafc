import TextrpBriij.Foundation.Program
import TextrpBriij.Handlers.Register

/-! # The tables behind a wallet login and the calls made to them

Each constructor of `StoreOp` is one awaited call of the source that is atomic to the
other requests: a transaction, or the registration of an account up to the row that
it inserts. What `register_user` does after that row (the user directory, joining the
configured rooms, whose errors are caught) touches none of these tables.
-/
namespace TextrpBriij.Auth
open Api Python Handlers Function

structure SessionRow where
  value : Json
  expiryTimeMs : ℤ

/-- A row of `briij_wallet_links`; the wallet address and network are its key. -/
structure WalletLink where
  userId : String
  publicKey : Option String
  linkedAt : ℤ
  deriving DecidableEq

/-- Account data by user and type. A row carries the stream ID of its last write, and
no row is ahead of the stream. -/
structure AccountData where
  rows : String × String → Option (ℕ × Json)
  streamId : ℕ
  le_streamId : ∀ key row, rows key = some row → row.1 ≤ streamId

def AccountData.add (d : AccountData) (userId type : String) (content : Json) : AccountData where
  rows := update d.rows (userId,type) (some (d.streamId + 1,content))
  streamId := d.streamId + 1
  le_streamId := by
    intro key row h
    by_cases hk : key = (userId,type)
    · subst hk
      rw [update_self] at h
      cases h
      exact le_rfl
    · rw [update_of_ne hk] at h
      exact (d.le_streamId key row h).trans (Nat.le_succ _)

def AccountData.empty : AccountData := ⟨fun _ => none,0,fun _ _ h => nomatch h⟩

/-- Sessions are keyed by type and ID, wallet links by address and network. -/
structure Store where
  sessions : String × String → Option SessionRow
  users : Users
  profiles : String → Option String
  walletLinks : String × String → Option WalletLink
  accountData : AccountData

def Store.Names (s : Store) (address network userId : String) : Prop :=
  ∃ link, s.walletLinks (address,network) = some link ∧ link.userId = userId

inductive StoreOp where
  | insertSession (kind sessionId : String) (value : Json) (expiryTimeMs : ℤ)
  | consumeSession (kind sessionId : String) (now : ℤ)
  | getWalletLinkByAddress (address network : String)
  | checkUsername (localpart : String)
  | checkUserExists (userId : String)
  | registerUser (localpart : String) (displayName : Option String)
  | upsertWalletLink (userId address network publicKey : String) (linkedAt : ℤ)
  | storeWalletMapping (userId address network : String) (linkedAt : ℤ)
  | addAccountDataForUser (userId type : String) (content : Json)

/-- What a call answers: `insertSession` whether the ID was free, `consumeSession` the
value of an unexpired session. -/
abbrev StoreOp.Res : StoreOp → Type
  | .insertSession .. => Bool
  | .consumeSession .. => Option Json
  | .getWalletLinkByAddress .. => Option WalletLink
  | .checkUsername _ => Except Error Unit
  | .checkUserExists _ => Option String
  | .registerUser .. => Except Error String
  | .upsertWalletLink .. => Unit
  | .storeWalletMapping .. => Unit
  | .addAccountDataForUser .. => Unit

abbrev Calls := List (Program.Event StoreOp StoreOp.Res)

variable (cfg : RegistrationConfig)

def insertSession (kind sessionId : String) (value : Json) (expiryTimeMs : ℤ) (s : Store) : Bool × Store :=
  match s.sessions (kind,sessionId) with
  | some _ => (false,s)
  | none => (true,{ s with
      sessions := update s.sessions (kind,sessionId) (some ⟨value,expiryTimeMs⟩) })

def consumeSession (kind sessionId : String) (now : ℤ) (s : Store) : Option Json × Store :=
  match s.sessions (kind,sessionId) with
  | some row =>
    if now < row.expiryTimeMs then
      (some row.value,{ s with sessions := update s.sessions (kind,sessionId) none })
    else (none,s)
  | none => (none,s)

/-- The new account and its profile, whose display name defaults to the localpart. -/
def registerAccount (localpart : String) (displayName : Option String) (s : Store) :
    Except Error String × Store :=
  match registerUser cfg s.users localpart with
  | .error e => (.error e,s)
  | .ok (users,userId) =>
    let name := displayName.getD localpart
    (.ok userId,{ s with
      users := users
      profiles := if name = "" then s.profiles
        else update s.profiles userId (some name) })

def upsertWalletLink (userId address network publicKey : String) (linkedAt : ℤ) (s : Store) : Store :=
  { s with walletLinks :=
      update s.walletLinks (address,network) (some ⟨userId,some publicKey,linkedAt⟩) }

/-- `_store_wallet_mapping` of the wallet provider, which leaves the stored key alone. -/
def storeWalletMapping (userId address network : String) (linkedAt : ℤ) (s : Store) : Store :=
  { s with
    walletLinks := update s.walletLinks (address,network)
      (some ⟨userId,(s.walletLinks (address,network)).bind WalletLink.publicKey,linkedAt⟩) }

def addAccountDataForUser (userId type : String) (content : Json) (s : Store) : Store :=
  { s with accountData := s.accountData.add userId type content }

def handle : (op : StoreOp) → Store → op.Res × Store
  | .insertSession kind sessionId value expiry, s => insertSession kind sessionId value expiry s
  | .consumeSession kind sessionId now, s => consumeSession kind sessionId now s
  | .getWalletLinkByAddress address network, s => (s.walletLinks (address,network),s)
  | .checkUsername localpart, s => (Handlers.checkUsername cfg s.users localpart,s)
  | .checkUserExists userId, s => (Handlers.checkUserExists s.users userId,s)
  | .registerUser localpart displayName, s => registerAccount cfg localpart displayName s
  | .upsertWalletLink userId address network publicKey linkedAt, s =>
    ((),upsertWalletLink userId address network publicKey linkedAt s)
  | .storeWalletMapping userId address network linkedAt, s =>
    ((),storeWalletMapping userId address network linkedAt s)
  | .addAccountDataForUser userId type content, s =>
    ((),addAccountDataForUser userId type content s)

theorem consumeSession_tables (kind sessionId : String) (now : ℤ) (s : Store) :
    (consumeSession kind sessionId now s).2.users = s.users ∧
      (consumeSession kind sessionId now s).2.walletLinks = s.walletLinks ∧
      (consumeSession kind sessionId now s).2.accountData = s.accountData := by
  unfold consumeSession
  split
  · split <;> exact ⟨rfl,rfl,rfl⟩
  · exact ⟨rfl,rfl,rfl⟩

def StoreOp.writesLinks : StoreOp → Bool
  | .upsertWalletLink .. | .storeWalletMapping .. => true
  | _ => false

theorem handle_walletLinks (op : StoreOp) (h : op.writesLinks = false) (s : Store) :
    (handle cfg op s).2.walletLinks = s.walletLinks := by
  cases op with
  | insertSession kind sessionId value expiry =>
    change (insertSession kind sessionId value expiry s).2.walletLinks = _
    unfold insertSession
    split <;> rfl
  | consumeSession kind sessionId now => exact (consumeSession_tables kind sessionId now s).2.1
  | registerUser localpart displayName =>
    change (registerAccount cfg localpart displayName s).2.walletLinks = _
    unfold registerAccount
    split <;> rfl
  | upsertWalletLink | storeWalletMapping => cases h
  | getWalletLinkByAddress | checkUsername | checkUserExists | addAccountDataForUser => rfl

end TextrpBriij.Auth
