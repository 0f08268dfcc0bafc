import TextrpBriij.Auth.WalletRecoveryEnvelope
import TextrpBriij.Auth.WalletStore
import TextrpBriij.Auth.XrplChainAdapter

/-! # The two requests of an XRPL login

`issueChallenge` and `completeAuth` follow the source statement by statement, as
programs over the calls of `StoreOp`. A request that raises leaves the tables as they
were at the raise; nothing is rolled back.
-/
namespace TextrpBriij.Auth
open Api Python Handlers Program WalletRecoveryEnvelope

structure AuthEnv where
  ext : Externals
  registration : RegistrationConfig
  challengeTtlMs : ℤ
  allowAccountCreation : Bool
  strLength : List (String × Json) → ℕ

abbrev AuthM := Program.Fallible StoreOp StoreOp.Res Error

def sessionType : String := "xrpl_auth"
def chainId : String := "xrpl"
def walletIdentityAccountDataType : String := "org.textrp.wallet.identity"
def walletE2eeRecoveryAccountDataType : String := "org.textrp.wallet.e2ee_recovery.v1"
def xrplWalletAccountDataType : String := "org.textrp.xrpl.wallet"

/-- `create_session`: at most five attempts, each with a fresh random ID and the clock
reading of that attempt. -/
def createSession (kind : String) (value : Json) (expiryMs : ℤ) (attempts : List (String × ℤ)) :
    AuthM String := go (attempts.take 5)
where
  go : List (String × ℤ) → AuthM String
    | [] => throw (.storeError 500 "Couldn't generate a session ID." .unknown)
    | (sessionId,now) :: rest => do
      let inserted : Bool ← perform (StoreOp.insertSession kind sessionId value (now + expiryMs))
      if inserted then return sessionId else go rest

/-- `re.sub(r"[^a-z0-9._=-]", "_", value.lower()).strip("_")`. -/
def sanitized (value : String) : String :=
  let allowed (c : Char) : Bool :=
    ('a' ≤ c && c ≤ 'z') || ('0' ≤ c && c ≤ '9') || c ∈ ['.','_','=','-']
  let replaced := (value.toList.flatMap lowerChar).map (fun c => if allowed c then c else '_')
  String.ofList (stripChars (· == '_') replaced)

def sanitizeLocalpart (value : String) : Except Error String :=
  if sanitized value = "" then
    .error (.synapseError 500 "Unable to derive XRPL-backed Matrix user ID" .unknown)
  else .ok (sanitized value)

def normalizePreferredLocalpart : Json → Except Error (Option String)
  | .null => .ok none
  | .str s =>
    if strip s = "" then .error (.synapseError 400 "Invalid preferred_localpart" .invalidParam)
    else some <$> sanitizeLocalpart (strip s)
  | _ => .error (.synapseError 400 "Invalid preferred_localpart" .invalidParam)

def resolveRequestedLocalpart (preferredLocalpart username : Json) : Except Error (Option String) := do
  let normalizedPreferred ← normalizePreferredLocalpart preferredLocalpart
  let normalizedUsername ← normalizePreferredLocalpart username
  match normalizedPreferred, normalizedUsername with
  | some p, some u =>
    if p ≠ u then
      throw (.synapseError 400 "preferred_localpart and username must match when both are provided"
        .invalidParam)
    else return some p
  | some p, none => return some p
  | none, u => return u

def normalizeDisplayName : Json → Except Error (Option String)
  | .null => .ok none
  | .str s => .ok (if strip s = "" then none else some (strip s))
  | _ => .error (.synapseError 400 "Invalid display_name" .invalidParam)

/-- The localparts that `_allocate_localpart` tries, in order. -/
def localpartCandidates (base : String) : List String :=
  base :: (List.range 98).map (fun i => base ++ "_" ++ toString (i+2))

structure ChallengeSession where
  address : String
  network : String
  challenge : String
  nonce : String
  issuedAtMs : ℤ
  preferredLocalpart : Option String
  displayName : Option String

def twoDigits (n : ℕ) : String := if n < 10 then "0" ++ toString n else toString n

def civilFromDays (days : ℤ) : ℤ × ℕ × ℕ :=
  let z := days + 719468
  let era := z / 146097
  let doe := (z - era*146097).toNat
  let yoe := (doe - doe/1460 + doe/36524 - doe/146096) / 365
  let doy := doe - (365*yoe + yoe/4 - yoe/100)
  let mp := (5*doy+2) / 153
  let month := if mp < 10 then mp+3 else mp-9
  ((yoe : ℤ) + era*400 + (if month ≤ 2 then 1 else 0),month,doy - (153*mp+2)/5 + 1)

def isoformat (issuedAtMs : ℤ) : String :=
  let seconds := issuedAtMs / 1000
  let (year,month,day) := civilFromDays (seconds / 86400)
  let rest := (seconds % 86400).toNat
  let yearDigits := toString year
  String.ofList (List.replicate (4 - yearDigits.length) '0') ++ yearDigits ++ "-" ++
    twoDigits month ++ "-" ++ twoDigits day ++ "T" ++ twoDigits (rest/3600) ++ ":" ++
    twoDigits (rest/60%60) ++ ":" ++ twoDigits (rest%60) ++ "Z"

example : isoformat 1773171660123 = "2026-03-10T19:41:00Z" := by decide

def buildChallenge (accountId : String) (issuedAtMs : ℤ) (nonce : String) : String :=
  "textrp-briij|" ++ isoformat issuedAtMs ++ "|nonce:" ++ nonce ++ "|" ++ accountId

def optStr : Option String → Json
  | some s => .str s
  | none => .null

def ChallengeSession.toJson (c : ChallengeSession) : Json :=
  .obj [("address",.str c.address),("network",.str c.network),("challenge",.str c.challenge),
    ("nonce",.str c.nonce),("issued_at_ms",.int c.issuedAtMs),
    ("preferred_localpart",optStr c.preferredLocalpart),("display_name",optStr c.displayName)]

def invalidPayload : Error :=
  .synapseError 500 "Invalid XRPL login session payload" .unknown

def asOptStr : Json → Except Error (Option String)
  | .null => .ok none
  | .str s => .ok (some s)
  | _ => .error invalidPayload

/-- The type checks of `_consume_challenge_session` on a stored session. -/
def parseChallengeSession : Json → Except Error ChallengeSession
  | .obj session =>
    match Json.field session "address", Json.field session "network",
      Json.field session "challenge", Json.field session "nonce",
      (Json.field session "issued_at_ms").asInt with
    | .str address, .str network, .str challenge, .str nonce, some issuedAtMs => do
      let preferredLocalpart ← asOptStr (Json.field session "preferred_localpart")
      let displayName ← asOptStr (Json.field session "display_name")
      return ⟨address,network,challenge,nonce,issuedAtMs,preferredLocalpart,displayName⟩
    | _, _, _, _, _ => .error invalidPayload
  | _ => .error (.synapseError 500 "Invalid XRPL login session data" .unknown)

variable (env : AuthEnv)

/-- `issue_challenge`: the session ID and the challenge. The rate limiter's verdict, the
clock readings and the random texts are arguments. -/
def issueChallenge (address network preferredLocalpart username displayName : Json)
    (limited : Bool) (issuedAtMs : ℤ) (nonce : String) (attempts : List (String × ℤ)) :
    AuthM (String × String) := do
  let normalizedAddress ← liftExcept (validateAccountId env.ext address)
  let normalizedNetwork ← liftExcept (validateNetwork network)
  let normalizedLocalpart ← liftExcept (resolveRequestedLocalpart preferredLocalpart username)
  let normalizedDisplayName ← liftExcept (normalizeDisplayName displayName)
  if limited then throw (.synapseError 429 "Too Many Requests" .limitExceeded)
  let challenge := buildChallenge normalizedAddress issuedAtMs nonce
  let session : ChallengeSession := ⟨normalizedAddress,normalizedNetwork,challenge,nonce,
    issuedAtMs,normalizedLocalpart,normalizedDisplayName⟩
  let sessionId ← createSession sessionType session.toJson env.challengeTtlMs attempts
  return (sessionId,challenge)

/-- The fields of a login submission, after the checks made before the first call. -/
structure LoginRequest where
  session : String
  signature : String
  publicKey : Option String
  address : String
  network : Json
  recovery : Option Json

def nonEmptyField (login : List (String × Json)) (key missing : String) : Except Error String :=
  match Json.field login key with
  | .str s => if s = "" then .error (.synapseError 400 missing .missingParam) else .ok s
  | _ => .error (.synapseError 400 missing .missingParam)

def publicKeyField (login : List (String × Json)) : Except Error (Option String) :=
  match Json.field login "public_key" with
  | .null => .ok none
  | .str s => .ok (some s)
  | _ => .error (.synapseError 400 "Invalid public_key" .invalidParam)

def parseLogin (login : List (String × Json)) : Except Error LoginRequest := do
  let session ← nonEmptyField login "session" "Missing session"
  let signature ← nonEmptyField login "signature" "Missing signature"
  let publicKey ← publicKeyField login
  let address ← validateAccountId env.ext (Json.field login "address")
  return ⟨session,signature,publicKey,address,Json.field login "network", login.lookup "wallet_e2ee_recovery"⟩

def consumeChallengeSession (sessionId : String) (now : ℤ) : AuthM ChallengeSession := do
  let session : Option Json ← perform (StoreOp.consumeSession sessionType sessionId now)
  match session with
  | some value => liftExcept (parseChallengeSession value)
  | none => throw (.loginError 403 "Invalid or expired XRPL login session" .forbidden)

def validateConsumedSession (session : ChallengeSession) (address : String) (network : Json)
    (now : ℤ) : Except Error Unit := do
  let normalizedNetwork ← match network with
    | .null => .ok session.network
    | network => validateNetwork network
  if session.address ≠ address then
    throw (.loginError 403 "XRPL login address does not match the issued challenge" .forbidden)
  if session.network ≠ normalizedNetwork then
    throw (.loginError 403 "XRPL login network does not match the issued challenge" .forbidden)
  if session.issuedAtMs + env.challengeTtlMs < now then
    throw (.loginError 403 "XRPL login challenge has expired" .forbidden)
  if !isSubstring ("nonce:" ++ session.nonce) session.challenge then
    throw (.synapseError 500 "XRPL login challenge is malformed" .unknown)

/-- The submitted key if there is one, else the key of the stored link. -/
def resolvedPublicKey (publicKey : Option String) (link : Option WalletLink) : Option String :=
  match publicKey with
  | some k => if k = "" then link.bind WalletLink.publicKey else some k
  | none => link.bind WalletLink.publicKey

def validateExistingWalletLinkPreferences (userId : String) (session : ChallengeSession) : Except Error Unit :=
  match session.preferredLocalpart with
  | none => .ok ()
  | some preferred => do
    let linked ← localpartOf userId
    if linked ≠ preferred then
      throw (.loginError 403 ("This wallet is already linked to " ++ userId ++
        "; requested username does not match.") .forbidden)

def isLocalpartAvailable (localpart : String) : AuthM Bool := do
  let existing : Option String ← perform (StoreOp.checkUserExists (userIdOf env.registration localpart))
  return existing.isNone

def firstAvailable : List String → AuthM String
  | [] => throw (.synapseError 500 "Unable to allocate an XRPL-backed Matrix user ID" .unknown)
  | candidate :: rest => do
    if ← isLocalpartAvailable env candidate then return candidate else firstAvailable rest

def allocateLocalpart (baseLocalpart : String) : AuthM String :=
  firstAvailable env (localpartCandidates baseLocalpart)

def chooseLocalpart (address network : String) (preferred : Option String) : AuthM String :=
  match preferred with
  | some preferred => do
    let checked : Except Error Unit ← perform (StoreOp.checkUsername preferred)
    liftExcept checked
    return preferred
  | none => do
    let base ← liftExcept (sanitizeLocalpart ("wallet_" ++ network ++ "_" ++ lastChars 12 address))
    allocateLocalpart env base

def registerWalletUser (address network : String) (preferred displayName : Option String) : AuthM String := do
  let localpart ← chooseLocalpart env address network preferred
  let registered : Except Error String ← perform (StoreOp.registerUser localpart displayName)
  liftExcept registered

def walletAccountData (address network key : String) : Json :=
  .obj [("address",.str address),("network",.str network),("public_key",.str key)]

def walletIdentityPayload (accountId key network : String) : Json :=
  .obj [("chain_id",.str chainId),("account_id",.str accountId),("public_key",.str key),
    ("network",.str network),("key_type",.null)]

def resolveUser (link : Option WalletLink) (address : String) (session : ChallengeSession) : AuthM String :=
  match link with
  | some link => do
    liftExcept (validateExistingWalletLinkPreferences link.userId session)
    return link.userId
  | none =>
    if !env.allowAccountCreation then
      throw (.loginError 403 "This wallet is not linked to a Matrix account" .forbidden)
    else registerWalletUser env address session.network session.preferredLocalpart session.displayName

def storeRecovery (userId address : String) (recovery : Option Json) : AuthM Unit :=
  match recovery with
  | none => return ()
  | some raw => do
    let envelope ← liftExcept (validateWalletRecoveryEnvelope env.strLength raw chainId address)
    perform (StoreOp.addAccountDataForUser userId walletE2eeRecoveryAccountDataType envelope)

def recordLogin (userId address network key : String) (recovery : Option Json) (linkedAt : ℤ) :
    AuthM String := do
  perform (StoreOp.upsertWalletLink userId address network key linkedAt)
  perform (StoreOp.addAccountDataForUser userId xrplWalletAccountDataType
    (walletAccountData address network key))
  perform (StoreOp.addAccountDataForUser userId walletIdentityAccountDataType
    (walletIdentityPayload address key network))
  storeRecovery env userId address recovery
  return userId

/-- The three readings of the clock in one `complete_auth`. -/
structure ClockReadings where
  consumed : ℤ
  checked : ℤ
  linked : ℤ

/-- A login whose proof and account have been settled. -/
structure Authorized where
  req : LoginRequest
  session : ChallengeSession
  key : String
  userId : String

/-- `complete_auth` up to its write of the wallet link. -/
def authorize (now : ClockReadings) (login : List (String × Json)) : AuthM Authorized := do
  let req ← liftExcept (parseLogin env login)
  let session ← consumeChallengeSession req.session now.consumed
  liftExcept (validateConsumedSession env session req.address req.network now.checked)
  let link : Option WalletLink ← perform (StoreOp.getWalletLinkByAddress req.address session.network)
  let key ← liftExcept (verifyLoginProof env.ext req.address session.challenge req.signature
    (resolvedPublicKey req.publicKey link))
  let userId ← resolveUser env link req.address session
  return ⟨req,session,key,userId⟩

/-- `complete_auth`: the Matrix ID that the wallet logs in to. -/
def completeAuth (now : ClockReadings) (login : List (String × Json)) : AuthM String := do
  let a ← authorize env now login
  recordLogin env a.userId a.req.address a.session.network a.key a.req.recovery now.linked

end TextrpBriij.Auth
