import TextrpBriij.Api.Errors
import TextrpBriij.Python.Text

/-! # Validation of the wallet recovery envelope

`len(str(envelope))` measures Python's own rendering of the dictionary; the length
is a parameter `strLength`.
-/
namespace TextrpBriij.Auth.WalletRecoveryEnvelope
open Api Python
open Json (field)

def maxRecoveryEnvelopeLength : ℕ := 16384
def supportedRecoveryEnvelopeVersion : ℤ := 1

def invalid (name : String) : Error :=
  .synapseError 400 ("Invalid wallet_e2ee_recovery." ++ name) .invalidParam

def isBase64Char (c : Char) : Bool := c.isAlphanum || c == '+' || c == '/'

/-- `base64.b64decode(value, validate=True)` accepts: whole groups of four
characters of the alphabet, the last of them padded by at most two `=`. -/
def isBase64 (s : String) : Bool :=
  let pad := s.toList.dropWhile isBase64Char
  pad.all (· == '=') && decide (pad.length ≤ 2) && s.toList.length % 4 == 0

def assertBase64Str (name : String) : Json → Except Error String
  | .str s =>
    if s = "" then .error (invalid name)
    else if isBase64 s then .ok s
    else .error (.synapseError 400 ("wallet_e2ee_recovery." ++ name ++ " must be base64") .invalidParam)
  | _ => .error (invalid name)

/-- `_assert_string` with `allow_empty=False`, as every caller has it. -/
def assertString (name : String) : Json → Except Error String
  | .str s => if s = "" then .error (invalid name) else .ok s
  | _ => .error (invalid name)

/-- `_assert_positive_int`; `bool` is a subclass of `int`. -/
def assertPositiveInt (name : String) : Json → Except Error Json
  | .int n => if n < 0 then .error (invalid name) else .ok (.int n)
  | .bool b => .ok (.bool b)
  | _ => .error (invalid name)

def validateWrap (kind : String) : Json → Except Error Json
  | .obj value => do
    let _ ← assertString (kind ++ ".alg") (field value "alg")
    let _ ← assertString (kind ++ ".kdf") (field value "kdf")
    let _ ← assertBase64Str (kind ++ ".salt") (field value "salt")
    let _ ← assertBase64Str (kind ++ ".nonce") (field value "nonce")
    let _ ← assertBase64Str (kind ++ ".ciphertext") (field value "ciphertext")
    match field value "aad" with
    | .null => pure ()
    | aad => let _ ← assertBase64Str (kind ++ ".aad") aad
    match field value "params" with
    | .null => pure ()
    | .obj _ => pure ()
    | _ => throw (.synapseError 400 ("wallet_e2ee_recovery." ++ kind ++ ".params must be an object")
        .invalidParam)
    return .obj value
  | _ => .error (.synapseError 400 ("wallet_e2ee_recovery." ++ kind ++ " must be an object")
      .invalidParam)

def validateWalletRecoveryEnvelope (strLength : List (String × Json) → ℕ) (envelope : Json)
    (expectedChainId expectedAccountId : String) : Except Error Json :=
  match envelope with
  | .null => .error (.synapseError 400 "wallet_e2ee_recovery cannot be null" .invalidParam)
  | .obj fields => do
    if maxRecoveryEnvelopeLength < strLength fields then
      throw (.synapseError 400 "wallet_e2ee_recovery is too large" .invalidParam)
    let envelopeVersion := field fields "envelope_version"
    if !envelopeVersion.eqInt supportedRecoveryEnvelopeVersion then
      throw (.synapseError 400 "Unsupported wallet_e2ee_recovery.envelope_version" .invalidParam)
    let chainId ← assertString "chain_id" (field fields "chain_id")
    let accountId ← assertString "account_id" (field fields "account_id")
    if chainId ≠ expectedChainId ∨ accountId ≠ expectedAccountId then
      throw (.synapseError 400
        "wallet_e2ee_recovery identity does not match authenticated wallet" .invalidParam)
    let createdAtMs ← assertPositiveInt "created_at_ms" (field fields "created_at_ms")
    let keyId ← assertString "key_id" (field fields "key_id")
    let walletWrap ← validateWrap "wallet_wrap" (field fields "wallet_wrap")
    let passwordWrap ← validateWrap "password_wrap" (field fields "password_wrap")
    return .obj [("envelope_version",envelopeVersion),("chain_id",.str chainId),
      ("account_id",.str accountId),("created_at_ms",createdAtMs),("key_id",.str keyId),
      ("wallet_wrap",walletWrap),("password_wrap",passwordWrap)]
  | _ => .error (.synapseError 400 "wallet_e2ee_recovery must be an object" .invalidParam)

end TextrpBriij.Auth.WalletRecoveryEnvelope
