import TextrpBriij.Auth.XrplLogin

/-! # Which key a login is bound to

The plain form of a proof is checked against the address that its key derives; the
transaction form names an account and a key, and the two are never compared. What is
needed for a login to show possession of the wallet's own key is `KeyBound`.
-/
namespace TextrpBriij.Auth
open Python Program
variable (x : Externals)

/-- The key of a signed transaction of the account derives the account's address, and
so does the text of a plain key that the adapter accepts in upper case. -/
def KeyBound (accountId challenge signature : String) (publicKey : Option String) : Prop :=
  (∀ key, SignedTx x signature accountId (.str key) → x.deriveClassicAddress key = some accountId) ∧
  ((∀ k, ¬ SignedTx x signature accountId k) → ∀ key, publicKey = some key → key ≠ "" →
    PlainSigned x accountId challenge signature key →
    x.deriveClassicAddress key = some accountId)

theorem verifyLoginProof_bound_iff (accountId challenge signature : String) (publicKey : Option String) :
    (∀ key, verifyLoginProof x accountId challenge signature publicKey = .ok key →
      x.deriveClassicAddress key = some accountId) ↔
      KeyBound x accountId challenge signature publicKey := by
  constructor
  · intro h
    refine ⟨fun key hk => h key ?_,fun hn key hp hne hs => h key ?_⟩
    · exact (verifyLoginProof_ok_iff ..).mpr (Or.inl hk)
    · exact (verifyLoginProof_ok_iff ..).mpr (Or.inr ⟨hn,hp,hne,hs⟩)
  · rintro ⟨htx,hplain⟩ key h
    rcases (verifyLoginProof_ok_iff ..).mp h with hk | ⟨hn,hp,hne,hs⟩
    · exact htx key hk
    · exact hplain hn key hp hne hs

/-- The key that `verify_login_proof` returns derives the account's address exactly
for the bound submissions, and a login with such a submission is recorded under a key
of the wallet itself. -/
theorem login_key_bound_iff (env : AuthEnv) (accountId challenge signature : String)
    (publicKey : Option String) :
    ((∀ key, verifyLoginProof env.ext accountId challenge signature publicKey = .ok key →
        env.ext.deriveClassicAddress key = some accountId) ↔
      KeyBound env.ext accountId challenge signature publicKey) ∧
    ∀ (now : ClockReadings) (login : List (String × Json)) (s t : Store) (userId : String),
      exec (handle env.registration) (completeAuth env now login) s = (.ok userId,t) →
      ∃ a, Accepted env now login s a ∧ a.userId = userId ∧
        t.walletLinks (a.req.address,a.session.network) = some ⟨userId,some a.key,now.linked⟩ ∧
        (KeyBound env.ext a.req.address a.session.challenge a.req.signature (resolvedPublicKey
            a.req.publicKey (s.walletLinks (a.req.address,a.session.network))) →
          env.ext.deriveClassicAddress a.key = some a.req.address) := by
  refine ⟨verifyLoginProof_bound_iff env.ext accountId challenge signature publicKey,?_⟩
  intro now login s t userId h
  obtain ⟨a,ha,hu,hl⟩ := exec_completeAuth_ok env h
  exact ⟨a,ha,hu,hl,fun hb => (verifyLoginProof_bound_iff ..).mpr hb _ ha.proven⟩

/-- Every text of 32 bytes decodes to a transaction of `rWallet` signed by `OTHER`, the
key of another wallet. -/
def strangerPackages : Externals where
  upperTable := fun c => [c]
  isValidClassicAddress := fun _ => true
  decodeTxBlob := fun _ => some (.obj
    [("Account",.str "rWallet"),("SigningPubKey",.str "OTHER"),("TxnSignature",.str "00")])
  encodeForSigning := fun _ => some "00"
  deriveClassicAddress := fun key =>
    if key = "KEY" then some "rWallet" else if key = "OTHER" then some "rOther" else none
  isValidMessage := fun _ _ key => match key with
    | .str key => some (key = "OTHER")
    | _ => none
  ed25519Verify := fun _ _ _ => .rejected

def blob : String := String.ofList (List.replicate 64 '0')

/-- A transaction signed by another wallet's key logs its sender in to the account
that `rWallet` is linked to. -/
theorem login_with_foreign_key :
    verifyLoginProof strangerPackages "rWallet" (buildChallenge "rWallet" 0 "n") blob none
      = .ok "OTHER" ∧
    strangerPackages.deriveClassicAddress "OTHER" = some "rOther" ∧
    (exec (handle openRegistration) (completeAuth (serverEnv strangerPackages) ⟨1,1,1⟩
      [("session",.str "s"),("signature",.str blob),("address",.str "rWallet")])
      (storeWith [("s",issuedSession "rWallet" "n")] (some ⟨"@alice:hs",some "KEY",0⟩))).1
        = .ok "@alice:hs" := by
  exact ⟨rfl,rfl,rfl⟩

end TextrpBriij.Auth
