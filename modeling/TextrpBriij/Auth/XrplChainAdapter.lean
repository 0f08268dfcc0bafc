import TextrpBriij.Api.Errors
import TextrpBriij.Python.Text

/-! # Verification of XRPL login proofs

The adapter accepts two forms of proof: a signed transaction blob, and a plain
signature over the challenge under a key given by the client. The functions of the
`xrpl` and `cryptography` packages are the fields of `Externals`; a field that may
raise returns an option, and nothing else is assumed of any of them.
-/
namespace TextrpBriij.Auth
open Api Python

/-- Field values of a transaction decoded by `decode_tx_blob`. -/
inductive TxValue where
  | null
  | str (s : String)
  | bytes (b : List UInt8)
  | int (n : ℤ)
  | arr (items : List TxValue)
  | obj (fields : List (String × TxValue))

def TxValue.truthy : TxValue → Bool
  | .null => false
  | .str s => s != ""
  | .bytes b => !b.isEmpty
  | .int n => n != 0
  | .arr items => !items.isEmpty
  | .obj fields => !fields.isEmpty

def TxValue.field (fields : List (String × TxValue)) (key : String) : TxValue :=
  (fields.lookup key).getD .null

def TxValue.hexed : TxValue → TxValue
  | .bytes b => .str (bytesHex b)
  | v => v

/-- How `Ed25519PublicKey.from_public_bytes` followed by `verify` ends. `rejected`
covers the `ValueError` and `InvalidSignature` that the adapter catches. -/
inductive Ed25519Outcome where
  | accepted
  | rejected
  | raised
  deriving DecidableEq

/-- The packages outside the repository, and the Unicode upper-case table. -/
structure Externals where
  upperTable : Char → List Char
  isValidClassicAddress : String → Bool
  decodeTxBlob : String → Option TxValue
  encodeForSigning : TxValue → Option String
  deriveClassicAddress : String → Option String
  isValidMessage : List UInt8 → List UInt8 → TxValue → Option Bool
  ed25519Verify : List UInt8 → List UInt8 → List UInt8 → Ed25519Outcome

variable (x : Externals)

def supportedNetworks : List String := ["xrpl","xahau"]

def validateAccountId (accountId : Json) : Except Error String :=
  match accountId with
  | .str s =>
    if s = "" then .error (.synapseError 400 "Missing address" .missingParam)
    else if !x.isValidClassicAddress s then
      .error (.synapseError 400 "Invalid XRPL classic address" .invalidParam)
    else .ok s
  | _ => .error (.synapseError 400 "Missing address" .missingParam)

/-- `network.lower()` is compared with two ASCII words only, and no character
outside ASCII lowers to a letter of either, so ASCII lowering decides the test. -/
def validateNetwork (network : Json) : Except Error String :=
  match network with
  | .str s =>
    if s = "" then .error (.synapseError 400 "Missing network" .missingParam)
    else if s.toLower ∉ supportedNetworks then
      .error (.synapseError 400 "Unsupported XRPL network" .invalidParam)
    else .ok s.toLower
  | _ => .error (.synapseError 400 "Missing network" .missingParam)

/-- The guarded block of `_try_verify_signin_tx`; `none` is a caught exception. -/
def signinSignatureValid (decoded signingPubKey txnSig : TxValue) : Option Bool := do
  let toSignHex ← x.encodeForSigning decoded
  let toSignBytes ← bytesFromHex toSignHex
  match txnSig with
  | .str sig =>
    let txnSigBytes ← bytesFromHex sig
    match signingPubKey with
    | .str key => x.isValidMessage toSignBytes txnSigBytes (.str (upper x.upperTable key))
    | other => x.isValidMessage toSignBytes txnSigBytes other
  | _ => none

/-- `_try_verify_signin_tx`: `some` the signer's key when the submitted text is a
signed transaction of the account, `none` when the next form should be tried. -/
def tryVerifySigninTx (signatureHex accountId : String) : Except Error (Option String) :=
  match bytesFromHex signatureHex with
  | none => .ok none
  | some sigBytes =>
    if sigBytes.length < 32 then .ok none
    else match x.decodeTxBlob signatureHex with
      | some (.obj fields) =>
        match TxValue.field fields "Account" with
        | .str txAccount =>
          if txAccount ≠ accountId then .ok none
          else
            let signingPubKey := TxValue.field fields "SigningPubKey"
            let txnSig := TxValue.field fields "TxnSignature"
            if !signingPubKey.truthy || !txnSig.truthy then .ok none
            else match signinSignatureValid x (.obj fields) signingPubKey.hexed txnSig.hexed with
              | some true =>
                match signingPubKey.hexed with
                | .str key => .ok (some key)
                | _ => .error (.raised "AttributeError")
              | _ => .ok none
        | _ => .ok none
      | _ => .ok none

def isUpperHex (s : List Char) : Bool := s.all (fun c => "0123456789ABCDEF".toList.contains c)

def ed25519KeyHex (normalizedPublicKey : String) : Option String :=
  let cs := normalizedPublicKey.toList
  if cs.length = 64 ∧ isUpperHex cs then some normalizedPublicKey
  else if "ED".toList.isPrefixOf cs ∧ cs.length = 66 ∧ isUpperHex (cs.drop 2) then
    some (String.ofList (cs.drop 2))
  else none

def verificationFailed : Error :=
  .loginError 403 "XRPL signature verification failed" .invalidSignature

def checkSignature (normalizedPublicKey : String) (messageBytes signatureBytes : List UInt8) :
    Except Error Unit :=
  match ed25519KeyHex normalizedPublicKey with
  | some keyHex =>
    match bytesFromHex keyHex with
    | none => .error verificationFailed
    | some pubBytes =>
      if pubBytes.length ≠ 32 then .error verificationFailed
      else match x.ed25519Verify pubBytes signatureBytes messageBytes with
        | .accepted => .ok ()
        | .rejected => .error verificationFailed
        | .raised => .error (.raised "Exception")
  | none =>
    match x.isValidMessage messageBytes signatureBytes (.str normalizedPublicKey) with
    | some true => .ok ()
    | some false => .error verificationFailed
    | none => .error (.raised "Exception")

def verifySignature (accountId challenge signature publicKey : String) : Except Error Unit :=
  match bytesFromHex signature with
  | none => .error (.loginError 403 "XRPL signature must be hexadecimal" .invalidSignature)
  | some signatureBytes =>
    let normalizedPublicKey := upper x.upperTable publicKey
    match x.deriveClassicAddress normalizedPublicKey with
    | none => .error (.synapseError 400 "Invalid XRPL public key" .invalidParam)
    | some derivedAddress =>
      if derivedAddress ≠ accountId then
        .error (.loginError 403 "XRPL public key does not match the requested address" .forbidden)
      else checkSignature x normalizedPublicKey (encodeUtf8 challenge) signatureBytes

/-- `verify_login_proof`: the key under which the proof was accepted. -/
def verifyLoginProof (accountId challenge signature : String) (publicKey : Option String) :
    Except Error String :=
  match tryVerifySigninTx x signature accountId with
  | .error e => .error e
  | .ok (some signinPublicKey) => .ok signinPublicKey
  | .ok none =>
    match publicKey with
    | none => .error (.synapseError 400 "Missing public_key for XRPL login" .missingParam)
    | some publicKey =>
      if publicKey = "" then
        .error (.synapseError 400 "Missing public_key for XRPL login" .missingParam)
      else match verifySignature x accountId challenge signature publicKey with
        | .error e => .error e
        | .ok () => .ok publicKey

end TextrpBriij.Auth
