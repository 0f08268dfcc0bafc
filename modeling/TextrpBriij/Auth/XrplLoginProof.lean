import TextrpBriij.Auth.XrplChainAdapter

/-! # Which login proofs the adapter accepts

Each of the two forms is described by what the submitted text must be, with no
reference to the order in which the adapter tries them. The characterisation
`verifyLoginProof_ok_iff` is what every later fact about logins is derived from.
-/
namespace TextrpBriij.Auth
open Api Python
variable (x : Externals)

/-- The text is the blob of a transaction of the account that carries a signing key
and a signature, and the signature is valid for the transaction under that key. -/
def SignedTx (signature accountId : String) (key : TxValue) : Prop :=
  ∃ sigBytes fields, bytesFromHex signature = some sigBytes ∧ 32 ≤ sigBytes.length ∧
    x.decodeTxBlob signature = some (.obj fields) ∧
    TxValue.field fields "Account" = .str accountId ∧
    (TxValue.field fields "SigningPubKey").truthy = true ∧
    (TxValue.field fields "TxnSignature").truthy = true ∧
    key = (TxValue.field fields "SigningPubKey").hexed ∧
    signinSignatureValid x (.obj fields) key (TxValue.field fields "TxnSignature").hexed = some true

def Accepts (key : String) (message signature : List UInt8) : Prop :=
  (∃ keyHex pubBytes, ed25519KeyHex key = some keyHex ∧ bytesFromHex keyHex = some pubBytes ∧
    pubBytes.length = 32 ∧ x.ed25519Verify pubBytes signature message = .accepted) ∨
  (ed25519KeyHex key = none ∧ x.isValidMessage message signature (.str key) = some true)

def PlainSigned (accountId challenge signature publicKey : String) : Prop :=
  ∃ signatureBytes, bytesFromHex signature = some signatureBytes ∧
    x.deriveClassicAddress (upper x.upperTable publicKey) = some accountId ∧
    Accepts x (upper x.upperTable publicKey) (encodeUtf8 challenge) signatureBytes

theorem checkSignature_ok_iff (key : String) (message signature : List UInt8) :
    checkSignature x key message signature = .ok () ↔ Accepts x key message signature := by
  unfold checkSignature Accepts
  cases ed25519KeyHex key with
  | none =>
    cases x.isValidMessage message signature (.str key) with
    | none => simp
    | some b => cases b <;> simp
  | some keyHex =>
    cases hb : bytesFromHex keyHex with
    | none => simp [hb]
    | some pubBytes =>
      by_cases hlen : pubBytes.length = 32
      · cases he : x.ed25519Verify pubBytes signature message <;> simp [hb,hlen,he]
      · simp [hb,hlen]

theorem verifySignature_ok_iff (accountId challenge signature publicKey : String) :
    verifySignature x accountId challenge signature publicKey = .ok () ↔
      PlainSigned x accountId challenge signature publicKey := by
  unfold verifySignature PlainSigned
  cases bytesFromHex signature with
  | none => simp
  | some signatureBytes =>
    simp only []
    cases hd : x.deriveClassicAddress (upper x.upperTable publicKey) with
    | none => simp
    | some derived =>
      by_cases heq : derived = accountId
      · simp [heq,checkSignature_ok_iff]
      · simp [heq]

def signedResult : TxValue → Except Error (Option String)
  | .str key => .ok (some key)
  | _ => .error (.raised "AttributeError")

theorem tryVerifySigninTx_of_signed {signature accountId : String} {key : TxValue}
    (h : SignedTx x signature accountId key) :
    tryVerifySigninTx x signature accountId = signedResult key := by
  obtain ⟨sigBytes,fields,hb,hlen,hd,ha,hk,ht,rfl,hv⟩ := h
  have hshort : ¬ sigBytes.length < 32 := by omega
  simp only [tryVerifySigninTx,hb,hshort,hd,ha,hk,ht,hv,↓reduceIte,ne_eq,not_true_eq_false,
    Bool.or_self]
  rfl

theorem tryVerifySigninTx_none_or_signed (signature accountId : String) :
    tryVerifySigninTx x signature accountId = .ok none ∨ ∃ key, SignedTx x signature accountId key := by
  unfold tryVerifySigninTx
  cases hb : bytesFromHex signature with
  | none => exact Or.inl rfl
  | some sigBytes =>
    simp only []
    split
    · exact Or.inl rfl
    split
    case h_2 => exact Or.inl rfl
    rename_i fields hd
    split
    case h_2 => exact Or.inl rfl
    rename_i txAccount ha
    split
    · exact Or.inl rfl
    rename_i hacc
    split
    · exact Or.inl rfl
    rename_i htruthy
    simp only [Bool.or_eq_true,Bool.not_eq_true',not_or,Bool.not_eq_false] at htruthy
    split
    case h_2 => exact Or.inl rfl
    rename_i hv
    refine Or.inr ⟨_,sigBytes,fields,hb,by omega,hd,?_,htruthy.1,htruthy.2,rfl,hv⟩
    rw [ha,not_not.mp hacc]

/-- The SignIn form returns a key exactly for the signed transactions of the
account, whatever address that key belongs to. -/
theorem tryVerifySigninTx_some_iff (signature accountId key : String) :
    tryVerifySigninTx x signature accountId = .ok (some key) ↔ SignedTx x signature accountId (.str key) := by
  constructor
  · intro h
    rcases tryVerifySigninTx_none_or_signed x signature accountId with hn | ⟨k,hk⟩
    · rw [hn] at h
      cases h
    · rw [tryVerifySigninTx_of_signed x hk] at h
      cases k <;> simp only [signedResult,reduceCtorEq,Except.ok.injEq,Option.some.injEq] at h
      exact h ▸ hk
  · exact fun h => tryVerifySigninTx_of_signed x h

theorem tryVerifySigninTx_none_iff (signature accountId : String) :
    tryVerifySigninTx x signature accountId = .ok none ↔ ∀ key, ¬ SignedTx x signature accountId key := by
  constructor
  · intro h key hk
    rw [tryVerifySigninTx_of_signed x hk] at h
    cases key <;> cases h
  · intro h
    rcases tryVerifySigninTx_none_or_signed x signature accountId with hn | ⟨k,hk⟩
    · exact hn
    · exact absurd hk (h k)

theorem verifyLoginProof_ok_iff (accountId challenge signature : String)
    (publicKey : Option String) (key : String) :
    verifyLoginProof x accountId challenge signature publicKey = .ok key ↔
      SignedTx x signature accountId (.str key) ∨
      ((∀ k, ¬ SignedTx x signature accountId k) ∧ publicKey = some key ∧ key ≠ "" ∧
        PlainSigned x accountId challenge signature key) := by
  rw [← tryVerifySigninTx_some_iff,← tryVerifySigninTx_none_iff,← verifySignature_ok_iff]
  unfold verifyLoginProof
  cases tryVerifySigninTx x signature accountId with
  | error e => simp
  | ok result =>
    cases result with
    | some k => simp
    | none =>
      cases publicKey with
      | none => simp
      | some pk =>
        simp only [reduceCtorEq,Except.ok.injEq,false_or,true_and,Option.some.injEq]
        by_cases hpk : pk = ""
        · simp only [hpk,↓reduceIte,reduceCtorEq,false_iff]
          rintro ⟨rfl,hne,_⟩
          exact hne rfl
        · simp only [hpk,↓reduceIte]
          cases hv : verifySignature x accountId challenge signature pk with
          | error e =>
            simp only [reduceCtorEq,false_iff]
            rintro ⟨rfl,_,hok⟩
            rw [hv] at hok
            cases hok
          | ok u =>
            simp only [Except.ok.injEq]
            constructor
            · rintro rfl
              exact ⟨rfl,hpk,hv⟩
            · exact fun h => h.1

end TextrpBriij.Auth
