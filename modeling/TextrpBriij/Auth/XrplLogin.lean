import TextrpBriij.Auth.XrplAuth
import TextrpBriij.Auth.XrplLoginProof

/-! # What one XRPL login does

`Accepted` lists the checks that a submission has to pass before anything is written
for it. A request that fails one of them changes no table but the sessions; one that
passes them all writes, and may still raise on its recovery envelope.
-/
namespace TextrpBriij.Auth
open Api Python Handlers Program Fallible WalletRecoveryEnvelope
variable (env : AuthEnv)

/-- The localpart chosen for a new account when the table of users stays as it is. -/
def chosenLocalpart (users : Users) (address network : String) (preferred : Option String) :
    Except Error String :=
  match preferred with
  | some preferred => do
    checkUsername env.registration users preferred
    return preferred
  | none => do
    let base ← sanitizeLocalpart ("wallet_" ++ network ++ "_" ++ lastChars 12 address)
    match (localpartCandidates base).find?
        (fun c => (checkUserExists users (userIdOf env.registration c)).isNone) with
    | some candidate => return candidate
    | none => throw (.synapseError 500 "Unable to allocate an XRPL-backed Matrix user ID" .unknown)

theorem exec_firstAvailable (candidates : List String) (s : Store) :
    exec (handle env.registration) (firstAvailable env candidates) s = (match candidates.find?
          (fun c => (checkUserExists s.users (userIdOf env.registration c)).isNone) with
        | some candidate => .ok candidate
        | none => .error
          (.synapseError 500 "Unable to allocate an XRPL-backed Matrix user ID" .unknown),s) := by
  induction candidates with
  | nil => rfl
  | cons c rest ih =>
    have hc : exec (handle env.registration) (isLocalpartAvailable env c) s =
        (.ok (checkUserExists s.users (userIdOf env.registration c)).isNone,s) := rfl
    rw [firstAvailable,exec_bind_ok hc,List.find?_cons]
    cases (checkUserExists s.users (userIdOf env.registration c)).isNone with
    | true => rfl
    | false => exact ih

theorem exec_chooseLocalpart (address network : String) (preferred : Option String) (s : Store) :
    exec (handle env.registration) (chooseLocalpart env address network preferred) s =
      (chosenLocalpart env s.users address network preferred,s) := by
  unfold chooseLocalpart chosenLocalpart
  cases preferred with
  | some p =>
    change exec _ (liftExcept (checkUsername env.registration s.users p) >>= fun _ => pure p) s =
      (checkUsername env.registration s.users p >>= fun _ => pure p,s)
    cases checkUsername env.registration s.users p <;> rfl
  | none =>
    cases hb : sanitizeLocalpart ("wallet_" ++ network ++ "_" ++ lastChars 12 address) with
    | error e => rfl
    | ok base =>
      change exec _ (allocateLocalpart env base) s = _
      rw [allocateLocalpart,exec_firstAvailable]
      rw [ok_bind]
      cases (localpartCandidates base).find?
        (fun c => (checkUserExists s.users (userIdOf env.registration c)).isNone) <;> rfl

def LoginUser (s : Store) (address : String) (session : ChallengeSession) (userId : String) : Prop :=
  match s.walletLinks (address,session.network) with
  | some link =>
    validateExistingWalletLinkPreferences link.userId session = .ok () ∧ userId = link.userId
  | none =>
    env.allowAccountCreation = true ∧ ∃ localpart users,
      chosenLocalpart env s.users address session.network session.preferredLocalpart = .ok localpart ∧
      registerUser env.registration s.users localpart = .ok (users,userId)

/-- The submission passes every check that is made before the first write. -/
structure Accepted (now : ClockReadings) (login : List (String × Json)) (s : Store)
    (a : Authorized) : Prop where
  parsed : parseLogin env login = .ok a.req
  consumed : ∃ row, s.sessions (sessionType,a.req.session) = some row ∧
    now.consumed < row.expiryTimeMs ∧ parseChallengeSession row.value = .ok a.session
  current : validateConsumedSession env a.session a.req.address a.req.network now.checked = .ok ()
  proven : verifyLoginProof env.ext a.req.address a.session.challenge a.req.signature
    (resolvedPublicKey a.req.publicKey (s.walletLinks (a.req.address,a.session.network))) = .ok a.key
  user : LoginUser env s a.req.address a.session a.userId

/-- The tables other than the sessions and profiles are the same. -/
structure Untouched (s t : Store) : Prop where
  users : t.users = s.users
  walletLinks : t.walletLinks = s.walletLinks
  accountData : t.accountData = s.accountData

theorem exec_registerWalletUser (address network : String) (preferred displayName : Option String) (s : Store) :
    exec (handle env.registration) (registerWalletUser env address network preferred displayName) s =
      match chosenLocalpart env s.users address network preferred with
      | .error e => (.error e,s)
      | .ok localpart => registerAccount env.registration localpart displayName s := by
  unfold registerWalletUser
  cases hc : chosenLocalpart env s.users address network preferred with
  | error e => exact exec_bind_error (by rw [exec_chooseLocalpart,hc])
  | ok localpart =>
    rw [exec_bind_ok ((exec_chooseLocalpart env address network preferred s).trans (by rw [hc]))]
    exact exec_liftExcept _ _ _

theorem exec_resolveUser_ok_iff (address : String) (session : ChallengeSession) (s : Store)
    (userId : String) : (exec (handle env.registration)
      (resolveUser env (s.walletLinks (address,session.network)) address session) s).1 = .ok userId ↔
      LoginUser env s address session userId := by
  unfold resolveUser LoginUser
  cases s.walletLinks (address,session.network) with
  | some link =>
    simp only []
    cases validateExistingWalletLinkPreferences link.userId session with
    | error e => simp [exec_bind]
    | ok _ => simp [exec_bind,eq_comm]
  | none =>
    cases env.allowAccountCreation with
    | false => simp
    | true =>
      simp only [Bool.not_true,Bool.false_eq_true,↓reduceIte]
      rw [exec_registerWalletUser]
      cases chosenLocalpart env s.users address session.network session.preferredLocalpart with
      | error e => simp
      | ok localpart =>
        simp only [registerAccount]
        cases hr : registerUser env.registration s.users localpart with
        | error e => simp [hr]
        | ok p => simp [hr,Prod.ext_iff]

variable {t s : Store}

theorem exec_resolveUser_state (address : String) (session : ChallengeSession) (s : Store)
    {r : Except Error String} (h : exec (handle env.registration)
      (resolveUser env (s.walletLinks (address,session.network)) address session) s = (r,t)) :
    t.walletLinks = s.walletLinks ∧ t.accountData = s.accountData ∧ ∀ e, r = .error e → t = s := by
  unfold resolveUser at h
  cases hl : s.walletLinks (address,session.network) with
  | some link =>
    simp only [hl] at h
    cases hv : validateExistingWalletLinkPreferences link.userId session with
    | error e =>
      simp only [hv] at h
      cases h
      simp
    | ok _ =>
      simp only [hv] at h
      cases h
      simp
  | none =>
    simp only [hl] at h
    split at h
    · cases h
      simp
    · rw [exec_registerWalletUser] at h
      split at h
      · cases h
        simp
      · unfold registerAccount at h
        split at h
        · cases h
          simp
        · cases h
          simp

theorem exec_consumeChallengeSession (sessionId : String) (now : ℤ) (s : Store) :
    exec (handle env.registration) (consumeChallengeSession sessionId now) s =
      (match (consumeSession sessionType sessionId now s).1 with
        | some value => parseChallengeSession value
        | none => .error (.loginError 403 "Invalid or expired XRPL login session" .forbidden),
        (consumeSession sessionType sessionId now s).2) := by
  change exec _ (match (consumeSession sessionType sessionId now s).1 with
    | some value => liftExcept (parseChallengeSession value)
    | none => _) (consumeSession sessionType sessionId now s).2 = _
  cases (consumeSession sessionType sessionId now s).1 with
  | none => rfl
  | some value => exact exec_liftExcept _ _ _

theorem exec_consumeChallengeSession_ok_iff (sessionId : String) (now : ℤ) (s : Store)
    (session : ChallengeSession) :
    (exec (handle env.registration) (consumeChallengeSession sessionId now) s).1 = .ok session ↔
      ∃ row, s.sessions (sessionType,sessionId) = some row ∧ now < row.expiryTimeMs ∧
        parseChallengeSession row.value = .ok session := by
  rw [exec_consumeChallengeSession]
  unfold consumeSession
  cases s.sessions (sessionType,sessionId) with
  | none => simp
  | some row => by_cases h : now < row.expiryTimeMs <;> simp [h]

theorem LoginUser.congr (h : Untouched s t) (address : String) (session : ChallengeSession) (userId : String) :
    LoginUser env t address session userId ↔ LoginUser env s address session userId := by
  unfold LoginUser
  rw [h.users,h.walletLinks]

theorem Untouched.of_exec_consume {sessionId : String} {now : ℤ} {r : Except Error ChallengeSession}
    (h : exec (handle env.registration) (consumeChallengeSession sessionId now) s = (r,t)) :
    Untouched s t := by
  rw [exec_consumeChallengeSession] at h
  cases h
  obtain ⟨hu,hl,hd⟩ := consumeSession_tables sessionType sessionId now s
  exact ⟨hu,hl,hd⟩

variable {login : List (String × Json)} {now : ClockReadings}

theorem exec_authorize_ok {a : Authorized}
    (h : exec (handle env.registration) (authorize env now login) s = (.ok a,t)) :
    Accepted env now login s a ∧ t.walletLinks = s.walletLinks ∧ t.accountData = s.accountData := by
  obtain ⟨req,hp,h⟩ := exec_liftExcept_bind_eq_ok.mp h
  obtain ⟨session,t1,hc,h⟩ := exec_bind_eq_ok.mp h
  have hu := Untouched.of_exec_consume env hc
  obtain ⟨_,hv,h⟩ := exec_liftExcept_bind_eq_ok.mp h
  obtain ⟨key,hk,h⟩ := exec_liftExcept_bind_eq_ok.mp h
  obtain ⟨userId,t2,hr,h⟩ := exec_bind_eq_ok.mp h
  cases h
  obtain ⟨hl,hd,_⟩ := exec_resolveUser_state env req.address session t1 hr
  have huser := (exec_resolveUser_ok_iff env req.address session t1 userId).mp (congrArg Prod.fst hr)
  refine ⟨⟨hp,?_,hv,?_,?_⟩,hl.trans hu.walletLinks,hd.trans hu.accountData⟩
  · exact (exec_consumeChallengeSession_ok_iff env _ _ _ _).mp (by rw [hc])
  · rw [← hu.walletLinks]
    exact hk
  · exact (LoginUser.congr env hu _ _ _).mp huser

theorem Accepted.exec_authorize {a : Authorized} (h : Accepted env now login s a) :
    ∃ t, exec (handle env.registration) (authorize env now login) s = (.ok a,t) := by
  obtain ⟨hp,hc,hv,hk,hr⟩ := h
  have hc' := (exec_consumeChallengeSession_ok_iff env _ _ _ _).mpr hc
  obtain ⟨t1,hc1⟩ : ∃ t, exec (handle env.registration)
      (consumeChallengeSession a.req.session now.consumed) s = (.ok a.session,t) :=
    ⟨_,Prod.ext hc' rfl⟩
  have hu := Untouched.of_exec_consume env hc1
  rw [← hu.walletLinks] at hk
  have hr' := (exec_resolveUser_ok_iff env _ _ _ _).mpr ((LoginUser.congr env hu _ _ _).mpr hr)
  obtain ⟨t2,hr2⟩ : ∃ t, exec (handle env.registration) (resolveUser env
      (t1.walletLinks (a.req.address,a.session.network)) a.req.address a.session) t1
        = (.ok a.userId,t) := ⟨_,Prod.ext hr' rfl⟩
  refine ⟨t2,exec_liftExcept_bind_eq_ok.mpr ⟨a.req,hp,exec_bind_eq_ok.mpr ⟨a.session,t1,hc1,?_⟩⟩⟩
  refine exec_liftExcept_bind_eq_ok.mpr ⟨(),hv,?_⟩
  refine exec_liftExcept_bind_eq_ok.mpr ⟨a.key,hk,?_⟩
  exact exec_bind_eq_ok.mpr ⟨a.userId,t2,hr2,rfl⟩

theorem exec_authorize_error
    {e : Error} (h : exec (handle env.registration) (authorize env now login) s = (.error e,t)) :
    Untouched s t := by
  rcases exec_liftExcept_bind_eq_error.mp h with ⟨_,rfl⟩ | ⟨req,_,h⟩
  · exact ⟨rfl,rfl,rfl⟩
  rcases exec_bind_eq_error.mp h with h | ⟨session,t1,hc,h⟩
  · exact Untouched.of_exec_consume env h
  have hu := Untouched.of_exec_consume env hc
  rcases exec_liftExcept_bind_eq_error.mp h with ⟨_,rfl⟩ | ⟨_,_,h⟩
  · exact hu
  rcases exec_liftExcept_bind_eq_error.mp h with ⟨_,rfl⟩ | ⟨key,_,h⟩
  · exact hu
  rcases exec_bind_eq_error.mp h with h | ⟨userId,t2,_,h⟩
  · obtain ⟨_,_,he⟩ := exec_resolveUser_state env req.address session t1 h
    exact he e rfl ▸ hu
  · cases h

variable (userId address network key : String)

def recorded (linkedAt : ℤ) (s : Store) : Store :=
  addAccountDataForUser userId walletIdentityAccountDataType (walletIdentityPayload address key network)
    (addAccountDataForUser userId xrplWalletAccountDataType (walletAccountData address network key)
      (upsertWalletLink userId address network key linkedAt s))

theorem exec_recordLogin (recovery : Option Json) (linkedAt : ℤ) (s : Store) :
    exec (handle env.registration) (recordLogin env userId address network key recovery linkedAt) s =
      match recovery with
      | none => (.ok userId,recorded userId address network key linkedAt s)
      | some raw =>
        match validateWalletRecoveryEnvelope env.strLength raw chainId address with
        | .error e => (.error e,recorded userId address network key linkedAt s)
        | .ok envelope => (.ok userId,addAccountDataForUser userId walletE2eeRecoveryAccountDataType
            envelope (recorded userId address network key linkedAt s)) := by
  unfold recordLogin
  cases recovery with
  | none => rfl
  | some raw =>
    simp only [storeRecovery]
    cases validateWalletRecoveryEnvelope env.strLength raw chainId address <;> rfl

theorem recorded_accountData_ne (linkedAt : ℤ) (s : Store) :
    (recorded userId address network key linkedAt s).accountData.rows ≠ s.accountData.rows := by
  intro h
  have hrow := congrFun h (userId,walletIdentityAccountDataType)
  have hle : s.accountData.streamId + 1 + 1 ≤ s.accountData.streamId :=
    s.accountData.le_streamId _ _ (hrow.symm.trans (Function.update_self ..))
  omega

theorem recorded_walletLinks (linkedAt : ℤ) (s : Store) :
    (recorded userId address network key linkedAt s).walletLinks (address,network) =
      some ⟨userId,some key,linkedAt⟩ := Function.update_self ..

theorem exec_completeAuth_ok {userId : String}
    (h : exec (handle env.registration) (completeAuth env now login) s = (.ok userId,t)) :
    ∃ a, Accepted env now login s a ∧ a.userId = userId ∧
      t.walletLinks (a.req.address,a.session.network) = some ⟨userId,some a.key,now.linked⟩ := by
  obtain ⟨a,t1,ha,h⟩ := exec_bind_eq_ok.mp h
  refine ⟨a,(exec_authorize_ok env ha).1,?_⟩
  rw [exec_recordLogin] at h
  cases hr : a.req.recovery with
  | none =>
    rw [hr] at h
    cases h
    exact ⟨rfl,recorded_walletLinks ..⟩
  | some raw =>
    simp only [hr] at h
    split at h
    · cases h
    · cases h
      exact ⟨rfl,recorded_walletLinks ..⟩

/-- A failing login leaves accounts, links and account data as they were exactly when
it is not the recovery envelope, checked after the writes, that it fails on. -/
theorem completeAuth_failure_leaves_tables_iff (now : ClockReadings)
    (login : List (String × Json)) (s : Store) :
    (∀ e t, exec (handle env.registration) (completeAuth env now login) s = (.error e,t) →
      t.users = s.users ∧ t.walletLinks = s.walletLinks ∧
        t.accountData.rows = s.accountData.rows) ↔
    ¬ ∃ a raw e, Accepted env now login s a ∧ a.req.recovery = some raw ∧
      validateWalletRecoveryEnvelope env.strLength raw chainId a.req.address = .error e := by
  constructor
  · rintro h ⟨a,raw,e,ha,hraw,hbad⟩
    obtain ⟨t,ht⟩ := ha.exec_authorize
    have hfail : exec (handle env.registration) (completeAuth env now login) s = (.error e,recorded
        a.userId a.req.address a.session.network a.key now.linked t) := by
      rw [completeAuth,exec_bind_ok ht,exec_recordLogin]
      simp only [hraw,hbad]
    have hsame := (h _ _ hfail).2.2
    rw [← (exec_authorize_ok env ht).2.2] at hsame
    exact recorded_accountData_ne _ _ _ _ _ _ hsame
  · intro h e t ht
    rcases exec_bind_eq_error.mp ht with ha | ⟨a,t1,ha,hrec⟩
    · have hu := exec_authorize_error env ha
      exact ⟨hu.users,hu.walletLinks,by rw [hu.accountData]⟩
    · refine absurd ?_ h
      rw [exec_recordLogin] at hrec
      cases hr : a.req.recovery with
      | none => simp [hr] at hrec
      | some raw =>
        simp only [hr] at hrec
        split at hrec
        · rename_i hbad
          exact ⟨a,raw,_,(exec_authorize_ok env ha).1,hr,hbad⟩
        · cases hrec

def walletPackages : Externals where
  upperTable := fun c => [c]
  isValidClassicAddress := fun _ => true
  decodeTxBlob := fun _ => none
  encodeForSigning := fun _ => none
  deriveClassicAddress := fun key => if key = "KEY" then some "rWallet" else none
  isValidMessage := fun _ _ _ => some true
  ed25519Verify := fun _ _ _ => .rejected

def openRegistration : RegistrationConfig where
  hostname := "hs"
  allowUnderscorePrefixedLocalpart := false
  exclusive := fun _ => .ok ()
  registrationGate := fun _ => .ok ()

def serverEnv (x : Externals) : AuthEnv where
  ext := x
  registration := openRegistration
  challengeTtlMs := 60000
  allowAccountCreation := true
  strLength := fun _ => 0

def issuedSession (address nonce : String) : SessionRow where
  value := ChallengeSession.toJson ⟨address,"xrpl",buildChallenge address 0 nonce,nonce,0,none,none⟩
  expiryTimeMs := 60000

def storeWith (sessions : List (String × SessionRow)) (link : Option WalletLink) : Store where
  sessions := fun p => if p.1 = sessionType then sessions.lookup p.2 else none
  users := link.toList.map WalletLink.userId
  profiles := fun _ => none
  walletLinks := fun p => if p = ("rWallet","xrpl") then link else none
  accountData := AccountData.empty

/-- A first login with an empty recovery envelope is refused, and the account that it
created and linked stays. -/
theorem completeAuth_bad_envelope_creates_account :
    (exec (handle openRegistration) (completeAuth (serverEnv walletPackages) ⟨1,1,1⟩
      [("session",.str "s"),("signature",.str "00"),("public_key",.str "KEY"),
        ("address",.str "rWallet"),("wallet_e2ee_recovery",.null)])
      (storeWith [("s",issuedSession "rWallet" "n")] none)).1.isOk = false ∧
    (exec (handle openRegistration) (completeAuth (serverEnv walletPackages) ⟨1,1,1⟩
      [("session",.str "s"),("signature",.str "00"),("public_key",.str "KEY"),
        ("address",.str "rWallet"),("wallet_e2ee_recovery",.null)])
      (storeWith [("s",issuedSession "rWallet" "n")] none)).2.users = ["@wallet_xrpl_rwallet:hs"] ∧
    (exec (handle openRegistration) (completeAuth (serverEnv walletPackages) ⟨1,1,1⟩
      [("session",.str "s"),("signature",.str "00"),("public_key",.str "KEY"),
        ("address",.str "rWallet"),("wallet_e2ee_recovery",.null)])
      (storeWith [("s",issuedSession "rWallet" "n")] none)).2.walletLinks ("rWallet","xrpl") =
        some ⟨"@wallet_xrpl_rwallet:hs",some "KEY",1⟩ := by
  decide +kernel

end TextrpBriij.Auth
