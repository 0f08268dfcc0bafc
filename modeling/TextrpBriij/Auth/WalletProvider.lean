import TextrpBriij.Auth.XrplAuth

/-! # The wallet password provider

`checkAuth` follows `WalletProvider.check_auth` over the tables of a wallet login and
the provider's own memory of used nonces and attempts. The answer of the ledger and
the readings of the clock are part of a request. Steps on the memory are calls of
their own, so the interleavings here include all those of the event loop.
-/
namespace TextrpBriij.Auth
open Api Python Handlers Program Function

inductive ProviderError where
  | walletAuth (errcode : Codes) (message : String)
  | other
  deriving DecidableEq

/-- What `_parse_timestamp_ms` finds in a text: no digits only, digits that `int`
refuses, or a number. -/
inductive DigitText where
  | notDigits
  | refused
  | value (n : ℕ)

structure ProviderEnv where
  ext : Externals
  registration : RegistrationConfig
  lowerTable : Char → List Char
  digitText : String → DigitText
  jsonLoads : String → Option Json
  allowedNetworks : List String
  defaultNetwork : String

/-- How the request for the wallet's ledger entry ends. -/
inductive LedgerAnswer where
  | unreachable
  | notFound
  | found

structure ProviderState where
  store : Store
  usedChallengeNonces : String → Option ℤ
  walletRateLimits : String → Option (ℤ × ℕ)

inductive ProviderOp where
  | checkRateLimit (key : String) (now : ℤ)
  | clearRateLimit (key : String)
  | consumeNonce (key : String) (now : ℤ)
  | store (op : StoreOp)

/-- The first and third answer whether the attempt may go on. -/
abbrev ProviderOp.Res : ProviderOp → Type
  | .checkRateLimit .. => Bool
  | .clearRateLimit _ => Unit
  | .consumeNonce .. => Bool
  | .store op => op.Res

def challengeMaxAgeMs : ℤ := 60000
def rateLimitWindowMs : ℤ := 60000
def rateLimitAttempts : ℕ := 10

def checkRateLimit (key : String) (now : ℤ) (s : ProviderState) : Bool × ProviderState :=
  let (windowStart,attempts) := (s.walletRateLimits key).getD (now,0)
  let (windowStart,attempts) :=
    if rateLimitWindowMs < now - windowStart then (now,0) else (windowStart,attempts)
  (attempts + 1 ≤ rateLimitAttempts,{ s with
    walletRateLimits := update s.walletRateLimits key (some (windowStart,attempts + 1)) })

/-- Expired nonces are dropped before the new one is looked for. -/
def consumeNonce (key : String) (now : ℤ) (s : ProviderState) : Bool × ProviderState :=
  let live := fun k => (s.usedChallengeNonces k).filter (fun expiresAt => now < expiresAt)
  match live key with
  | some _ => (false,{ s with usedChallengeNonces := live })
  | none => (true,{ s with
      usedChallengeNonces := update live key (some (now + challengeMaxAgeMs)) })

def providerHandle (cfg : RegistrationConfig) : (op : ProviderOp) → ProviderState → op.Res × ProviderState
  | .checkRateLimit key now, s => checkRateLimit key now s
  | .clearRateLimit key, s =>
    ((),{ s with walletRateLimits := update s.walletRateLimits key none })
  | .consumeNonce key now, s => consumeNonce key now s
  | .store op, s => ((handle cfg op s.store).1,{ s with store := (handle cfg op s.store).2 })

abbrev ProviderM := Program.Fallible ProviderOp ProviderOp.Res ProviderError

structure ProviderReadings where
  limited : ℤ
  checked : ℤ
  consumed : ℤ
  linked : ℤ

variable (env : ProviderEnv)

def parseChallenge : Json → Option (List (String × Json))
  | .obj fields => some fields
  | .str text =>
    match env.jsonLoads text with
    | some (.obj fields) => some fields
    | _ => none
  | _ => none

def scaleTimestamp (parsed : ℤ) : ℤ := if parsed < 10000000000 then parsed * 1000 else parsed

/-- `_parse_timestamp_ms`; the exception of `int` on a text of odd digits is not the
provider's own. -/
def parseTimestampMs (timestamp : Json) : Except ProviderError (Option ℤ) :=
  match timestamp with
  | .str s =>
    match env.digitText s with
    | .notDigits => .ok none
    | .refused => .error .other
    | .value n => .ok (some (scaleTimestamp n))
  | .float q => .ok (some (scaleTimestamp (q.num.tdiv q.den)))
  | other => .ok (other.asInt.map scaleTimestamp)

def extractLocalpartFromUsername (username : String) : String :=
  match username.toList with
  | '@' :: rest =>
    if ':' ∈ rest then sanitized (String.ofList (rest.takeWhile (· ≠ ':'))) else sanitized username
  | _ => sanitized username

def nonceKey (network walletAddress nonce : String) : String :=
  network ++ ":" ++ walletAddress ++ ":" ++ nonce

def rateLimitKey (walletAddress network : String) : String :=
  network ++ ":" ++ lower env.lowerTable walletAddress

variable (challenge : List (String × Json))

def challengeNonce (now : ℤ) : Except ProviderError (String × ℤ) := do
  let nonce ← match Json.field challenge "nonce" with
    | .str nonce =>
      if nonce = "" then throw (.walletAuth .missingParam "Missing or invalid nonce") else .ok nonce
    | _ => throw (.walletAuth .missingParam "Missing or invalid nonce")
  match ← parseTimestampMs env (Json.field challenge "timestamp") with
  | none => throw (.walletAuth .missingParam "Missing or invalid timestamp")
  | some timestampMs =>
    if now < timestampMs then
      throw (.walletAuth .invalidParam "Timestamp is in the future")
    if challengeMaxAgeMs < now - timestampMs then
      throw (.walletAuth .forbidden "Challenge has expired")
    return (nonce,timestampMs)

def checkChallengeMessage (nonce : String) (timestampMs : ℤ)
    (fresh : Bool) : Except ProviderError Unit := do
  if !fresh then throw (.walletAuth .forbidden "Nonce has already been used")
  match Json.field challenge "message" with
  | .str message =>
    if !isSubstring nonce message || !isSubstring (toString timestampMs) message then
      throw (.walletAuth .invalidParam "Challenge message must include nonce and timestamp")
  | _ => return ()

def enforceNonceTimestamp (walletAddress network : String)
    (now : ProviderReadings) : ProviderM Unit := do
  let (nonce,timestampMs) ← liftExcept (challengeNonce env challenge now.checked)
  let fresh : Bool ← perform (ProviderOp.consumeNonce (nonceKey network walletAddress nonce) now.consumed)
  liftExcept (checkChallengeMessage challenge nonce timestampMs fresh)

def startsWithEd (publicKey : String) : Bool :=
  "ED".toList.isPrefixOf (upper env.ext.upperTable publicKey).toList

/-- The part of `_verify_xrpl_signature` after the nonce, up to the ledger request. -/
def verifyChallengeSignature (walletAddress signature : String) : Except ProviderError Unit := do
  let publicKey ← match Json.field challenge "public_key" with
    | .str key => .ok key
    | _ => .error (.walletAuth .missingParam "Missing public_key")
  match Json.field challenge "algorithm" with
  | .str algorithm =>
    let name := String.ofList (algorithm.toList.flatMap lowerChar)
    if name = "ed25519" && !startsWithEd env publicKey then
      throw (.walletAuth .invalidParam "Algorithm/public_key mismatch")
    if name = "secp256k1" && startsWithEd env publicKey then
      throw (.walletAuth .invalidParam "Algorithm/public_key mismatch")
  | _ => pure ()
  match env.ext.deriveClassicAddress publicKey with
  | none => throw (.walletAuth .invalidParam "Invalid public_key")
  | some derived =>
    if derived ≠ walletAddress then
      throw (.walletAuth .forbidden "Wallet address does not match key")
  match Json.field challenge "message" with
  | .str message =>
    match bytesFromHex signature with
    | none => throw (.walletAuth .invalidSignature "Invalid signature format")
    | some signatureBytes =>
      match env.ext.isValidMessage (encodeUtf8 message) signatureBytes
          (.str (upper env.ext.upperTable publicKey)) with
      | some true => return ()
      | some false => throw (.walletAuth .invalidSignature "Signature verification failed")
      | none => throw .other
  | _ => throw (.walletAuth .missingParam "Missing message in challenge")

def networkChallenge (challenge : Json) (network : String) : Except ProviderError (List (String × Json)) :=
  if network ∉ env.allowedNetworks then .error (.walletAuth .invalidParam "Unsupported network")
  else match parseChallenge env challenge with
    | none => .error (.walletAuth .invalidParam "Invalid challenge payload")
    | some challenge => .ok challenge

def ledgerCheck : LedgerAnswer → Except ProviderError Unit
  | .unreachable => .error (.walletAuth .unknown "Unable to reach XRPL RPC")
  | .notFound => .error (.walletAuth .forbidden "Wallet account not found on ledger")
  | .found => .ok ()

def verifyXrplSignature (walletAddress signature : String) (challenge : Json) (network : String)
    (ledger : LedgerAnswer) (now : ProviderReadings) : ProviderM Unit := do
  let challenge ← liftExcept (networkChallenge env challenge network)
  enforceNonceTimestamp env challenge walletAddress network now
  liftExcept (verifyChallengeSignature env challenge walletAddress signature)
  liftExcept (ledgerCheck ledger)

/-- The localparts that `check_auth` tries, in order. -/
def providerCandidates (username walletAddress : String) : List String :=
  let preferred := extractLocalpartFromUsername username
  let fallback := "wallet_" ++ lower env.lowerTable (lastChars 12 walletAddress)
  (if preferred = "" then [fallback] else [preferred,fallback]).flatMap localpartCandidates

def chooseAvailable : List String → ProviderM String
  | [] => throw (.walletAuth .invalidUsername "Unable to allocate user ID")
  | candidate :: rest => do
    let existing : Option String ←
      perform (ProviderOp.store (.checkUserExists (userIdOf env.registration candidate)))
    if existing.isNone then return candidate else chooseAvailable rest

/-- `register_user` and, when it raises, the account that has the chosen name by then. -/
def registerOrFind (localpart : String) : ProviderM String := do
  let registered : Except Error String ← perform (ProviderOp.store (.registerUser localpart none))
  match registered with
  | .ok userId => return userId
  | .error _ =>
    let existing : Option String ←
      perform (ProviderOp.store (.checkUserExists (userIdOf env.registration localpart)))
    match existing with
    | none => throw (.walletAuth .unknown "Failed to create user")
    | some userId => return userId

/-- The wallet and the signature of a request, with the network in lower case. -/
def parseProviderLogin (login : List (String × Json)) :
    Except ProviderError (String × String × Json × String) := do
  let walletAddress ← match Json.field login "wallet_address" with
    | .str s => if s = "" then throw (.walletAuth .missingParam "Missing wallet_address") else .ok s
    | _ => throw (.walletAuth .missingParam "Missing wallet_address")
  let signature ← match Json.field login "signature" with
    | .str s => if s = "" then throw (.walletAuth .missingParam "Missing signature") else .ok s
    | _ => throw (.walletAuth .missingParam "Missing signature")
  let challenge ← match Json.field login "challenge" with
    | .null => throw (.walletAuth .missingParam "Missing challenge")
    | challenge => .ok challenge
  let network ← match (login.lookup "network").getD (.str env.defaultNetwork) with
    | .str s => .ok (lower env.lowerTable s)
    | _ => throw (.walletAuth .invalidParam "Invalid network")
  if network ∉ env.allowedNetworks then
    throw (.walletAuth .invalidParam "Unsupported network")
  return (walletAddress,signature,challenge,network)

def resolveWalletUser (username walletAddress : String) (link : Option WalletLink) : ProviderM String :=
  match link with
  | some link => return link.userId
  | none => do
    let chosen ← chooseAvailable env (providerCandidates env username walletAddress)
    registerOrFind env chosen

def attemptCheck (allowed : Bool) : Except ProviderError Unit :=
  if allowed then .ok ()
  else .error (.walletAuth .limitExceeded "Too many authentication attempts for this wallet")

/-- The body of `check_auth` inside its `try`, for the provider's own login type. -/
def checkAuth (username : String) (login : List (String × Json)) (ledger : LedgerAnswer)
    (now : ProviderReadings) : ProviderM String := do
  let (walletAddress,signature,challenge,network) ← liftExcept (parseProviderLogin env login)
  let allowed : Bool ← perform (ProviderOp.checkRateLimit (rateLimitKey env walletAddress network) now.limited)
  liftExcept (attemptCheck allowed)
  verifyXrplSignature env walletAddress signature challenge network ledger now
  let link : Option WalletLink ← perform (ProviderOp.store (.getWalletLinkByAddress walletAddress network))
  let userId ← resolveWalletUser env username walletAddress link
  perform (ProviderOp.store (.storeWalletMapping userId walletAddress network now.linked))
  perform (ProviderOp.clearRateLimit (rateLimitKey env walletAddress network))
  return userId

end TextrpBriij.Auth
