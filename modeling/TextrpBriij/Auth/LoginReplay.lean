import TextrpBriij.Auth.WalletKeyBinding

/-! # One signature, one challenge

Any number of challenges are issued and logins completed, their calls to the store
interleaved in any way. A plain signature is over the challenge of the session that
the login consumes, so it serves one challenge only. A transaction does not mention
the challenge at all.
-/
namespace TextrpBriij.Auth
open Api Python Program List SafeReturn

/-- The arguments of one request. -/
inductive Request where
  | issue (address network preferredLocalpart username displayName : Json) (limited : Bool)
      (issuedAtMs : ℤ) (nonce : String) (attempts : List (String × ℤ))
  | complete (now : ClockReadings) (login : List (String × Json))

inductive Reply where
  | challenge (session challenge : String)
  | user (userId : String)
  deriving DecidableEq

variable (env : AuthEnv)

def Request.program : Request → AuthM Reply
  | .issue address network preferred username displayName limited issuedAtMs nonce attempts => do
    let issued ← issueChallenge env address network preferred username displayName limited
      issuedAtMs nonce attempts
    return .challenge issued.1 issued.2
  | .complete now login => do
    let userId ← completeAuth env now login
    return .user userId

def sessionChallenge : Event StoreOp StoreOp.Res → Option String
  | ⟨.consumeSession _ _ _,some value⟩ =>
    (parseChallengeSession value).toOption.map ChallengeSession.challenge
  | _ => none

/-- The challenge of the session that a login has consumed, which is its first call. -/
def consumedChallenge (calls : Calls) : Option String := calls.head?.bind sessionChallenge

/-- The keys that derive one address are texts of one key, and under it a signature is
accepted for one message at most. -/
def SignaturesBind (x : Externals) : Prop :=
  ∀ address key key' message message' signature,
    x.deriveClassicAddress key = some address → x.deriveClassicAddress key' = some address →
    Accepts x key message signature → Accepts x key' message' signature → message = message'

theorem PlainSigned.challenge_eq {x : Externals} (hx : SignaturesBind x)
    {accountId challenge challenge' signature key key' : String}
    (h : PlainSigned x accountId challenge signature key)
    (h' : PlainSigned x accountId challenge' signature key') : challenge = challenge' := by
  obtain ⟨bytes,hb,hd,ha⟩ := h
  obtain ⟨bytes',hb',hd',ha'⟩ := h'
  cases hb.symm.trans hb'
  exact encodeUtf8_injective (hx _ _ _ _ _ _ hd hd' ha ha')

def ProvedFor (login : List (String × Json)) (calls : Calls) : Prop :=
  ∃ req challenge publicKey key, parseLogin env login = .ok req ∧ consumedChallenge calls = some challenge ∧
    verifyLoginProof env.ext req.address challenge req.signature publicKey = .ok key

theorem consumedChallenge_append {calls : Calls} {c : String} (more : Calls)
    (h : consumedChallenge calls = some c) : consumedChallenge (calls ++ more) = some c := by
  cases calls with
  | nil => cases h
  | cons e rest => exact h

theorem ProvedFor.append {login : List (String × Json)} {calls : Calls} (more : Calls)
    (h : ProvedFor env login calls) : ProvedFor env login (calls ++ more) := by
  obtain ⟨req,challenge,publicKey,key,hp,hc,hk⟩ := h
  exact ⟨req,challenge,publicKey,key,hp,consumedChallenge_append more hc,hk⟩

theorem consumeChallengeSession_safe (sessionId : String) (now : ℤ) (s : Store) :
    SafeReturn (handle env.registration) anyCall anyCall Unrelated
      (fun calls session _ => consumedChallenge calls = some session.challenge)
      (consumeChallengeSession sessionId now) [] s := by
  refine perform_bind (fun t _ _ => ⟨⟨trivial,trivial⟩,?_⟩)
  generalize (handle env.registration (.consumeSession sessionType sessionId now) t).1 = answer
  cases answer with
  | none => exact throw
  | some value =>
    refine liftExcept (fun session hs t _ => ?_)
    change (parseChallengeSession value).toOption.map ChallengeSession.challenge = _
    rw [hs]
    rfl

theorem completeAuth_proved (now : ClockReadings) (login : List (String × Json)) (s : Store) :
    SafeReturn (handle env.registration) anyCall anyCall Unrelated
      (fun calls _ _ => ProvedFor env login calls) (completeAuth env now login) [] s := by
  refine bind (Q := fun calls _ _ => ProvedFor env login calls) ?_ ?_
  · refine liftExcept_bind (fun req hp => ?_)
    refine bind (consumeChallengeSession_safe env req.session now.consumed s) ?_
    intro calls session s hc
    refine liftExcept_bind (fun _ _ => ?_)
    refine perform_bind (fun t _ _ => ⟨⟨trivial,trivial⟩,?_⟩)
    refine liftExcept_bind (fun key hk => ?_)
    exact answers (fun _ e h => ProvedFor.append env [e] h) _ _
      ⟨req,_,_,key,hp,consumedChallenge_append _ hc,hk⟩
  · intro calls a s hproved
    exact answers (fun _ e h => ProvedFor.append env [e] h) _ s hproved

def serve {ι : Type} [DecidableEq ι] (requests : ι → Request) (s : Store) (schedule : List ι) :
    Config ι StoreOp StoreOp.Res (Except Error Reply) Store :=
  runs (handle env.registration) (start (fun i => ExceptT.run ((requests i).program env)) s) schedule

def Request.Proved : Request → Calls → Reply → Store → Prop
  | .issue .., _, _, _ => True
  | .complete _ login, calls, _, _ => ProvedFor env login calls

theorem Request.program_proved (request : Request) (s : Store) :
    SafeReturn (handle env.registration) anyCall anyCall Unrelated (request.Proved env)
      (request.program env) [] s := by
  cases request with
  | issue =>
    exact answers (P := fun _ => True) (fun _ _ _ => trivial) _ s trivial
  | complete now login =>
    refine bind (completeAuth_proved env now login s) ?_
    exact fun calls userId t hproved => pure (fun _ _ => hproved)

theorem serve_proved {ι : Type} [DecidableEq ι] (requests : ι → Request) (s : Store)
    (schedule : List ι) {i : ι} {now : ClockReadings} {login : List (String × Json)} {reply : Reply}
    (hi : requests i = .complete now login)
    (hd : ((serve env requests s schedule).threads i).returned = some (.ok reply)) :
    ProvedFor env login ((serve env requests s schedule).history i) := by
  have hstart : ∀ i, ((start (fun i => ExceptT.run ((requests i).program env)) s).threads i).Safe
      (handle env.registration) anyCall anyCall Unrelated (Returns ((requests i).Proved env)) [] s :=
    fun i => (requests i).program_proved env s
  have hsafe := (runs_safe hstart (guarded_anyCall _ _ schedule)).2 i
  have hproved := hsafe.result hd reply rfl
  rw [hi] at hproved
  exact hproved

/-- Two logins that succeed with one address and one plain signature consumed sessions
with the same challenge. -/
theorem plain_signature_serves_one_challenge (hx : SignaturesBind env.ext) {ι : Type}
    [DecidableEq ι] (requests : ι → Request) (s : Store) (schedule : List ι) {i j : ι}
    {now now' : ClockReadings} {login login' : List (String × Json)} {req req' : LoginRequest}
    {reply reply' : Reply}
    (hi : requests i = .complete now login) (hj : requests j = .complete now' login')
    (hp : parseLogin env login = .ok req) (hp' : parseLogin env login' = .ok req')
    (haddress : req.address = req'.address) (hsignature : req.signature = req'.signature)
    (hplain : ∀ key, ¬ SignedTx env.ext req.signature req.address key)
    (hd : ((serve env requests s schedule).threads i).returned = some (.ok reply))
    (hd' : ((serve env requests s schedule).threads j).returned = some (.ok reply')) :
    ∃ challenge, consumedChallenge ((serve env requests s schedule).history i) = some challenge ∧
      consumedChallenge ((serve env requests s schedule).history j) = some challenge := by
  obtain ⟨r,c,pk,key,hr,hc,hk⟩ := serve_proved env requests s schedule hi hd
  obtain ⟨r',c',pk',key',hr',hc',hk'⟩ := serve_proved env requests s schedule hj hd'
  cases hp.symm.trans hr
  cases hp'.symm.trans hr'
  rw [← haddress,← hsignature] at hk'
  rcases (verifyLoginProof_ok_iff ..).mp hk with htx | ⟨_,_,_,hs⟩
  · exact absurd htx (hplain _)
  rcases (verifyLoginProof_ok_iff ..).mp hk' with htx | ⟨_,_,_,hs'⟩
  · exact absurd htx (hplain _)
  cases hs.challenge_eq hx hs'
  exact ⟨c,hc,hc'⟩

/-- Packages under which `rWallet` has signed one message, and every text of 32 bytes
decodes to the given transaction. -/
def oneMessagePackages (signed : List UInt8) (tx : Option TxValue) : Externals where
  upperTable := fun c => [c]
  isValidClassicAddress := fun _ => true
  decodeTxBlob := fun _ => tx
  encodeForSigning := fun _ => some "00"
  deriveClassicAddress := fun key => if key = "KEY" then some "rWallet" else none
  isValidMessage := fun message _ _ => some (message = signed)
  ed25519Verify := fun _ _ _ => .rejected

theorem oneMessagePackages_bind (signed : List UInt8) (tx : Option TxValue) :
    SignaturesBind (oneMessagePackages signed tx) := by
  have hone : ∀ key message signature, Accepts (oneMessagePackages signed tx) key message signature →
      message = signed := by
    rintro key message signature (⟨_,_,_,_,_,h⟩ | ⟨_,h⟩)
    · cases h
    · simpa [oneMessagePackages] using h
  intro _ key key' message message' signature _ _ h h'
  exact (hone _ _ _ h).trans (hone _ _ _ h').symm

def plainRequests (second : Bool) : Request :=
  .complete ⟨1,1,1⟩ [("session",.str (if second then "t" else "s")),("signature",.str "00"),
    ("public_key",.str "KEY"),("address",.str "rWallet")]

/-- The wallet signed the challenge that both of the sessions carry. -/
theorem plain_signature_two_logins :
    ∃ challenge,
      consumedChallenge ((serve (serverEnv (oneMessagePackages
          (encodeUtf8 (buildChallenge "rWallet" 0 "n")) none)) plainRequests
        (storeWith [("s",issuedSession "rWallet" "n"),("t",issuedSession "rWallet" "n")] none)
        (replicate 7 false ++ replicate 5 true)).history false) = some challenge ∧
      consumedChallenge ((serve (serverEnv (oneMessagePackages
          (encodeUtf8 (buildChallenge "rWallet" 0 "n")) none)) plainRequests
        (storeWith [("s",issuedSession "rWallet" "n"),("t",issuedSession "rWallet" "n")] none)
        (replicate 7 false ++ replicate 5 true)).history true) = some challenge := by
  have hreply : ∀ i, ((serve (serverEnv (oneMessagePackages
          (encodeUtf8 (buildChallenge "rWallet" 0 "n")) none)) plainRequests
        (storeWith [("s",issuedSession "rWallet" "n"),("t",issuedSession "rWallet" "n")] none)
        (replicate 7 false ++ replicate 5 true)).threads i).returned =
      some (.ok (.user "@wallet_xrpl_rwallet:hs")) := by
    decide +kernel
  refine plain_signature_serves_one_challenge (serverEnv _) (oneMessagePackages_bind _ none) _ _ _
    rfl rfl rfl rfl rfl rfl ?_ (hreply false) (hreply true)
  rintro key ⟨_,_,_,_,hd,_⟩
  cases hd

def signInTx : TxValue :=
  .obj [("Account",.str "rWallet"),("SigningPubKey",.str "KEY"),("TxnSignature",.str "00")]

def replayRequests : Fin 4 → Request
  | 0 => .issue (.str "rWallet") (.str "xrpl") .null .null .null false 0 "m" [("s",0)]
  | 1 => .issue (.str "rWallet") (.str "xrpl") .null .null .null false 0 "n" [("t",0)]
  | 2 => .complete ⟨1,1,1⟩
    [("session",.str "s"),("signature",.str blob),("address",.str "rWallet")]
  | 3 => .complete ⟨1,1,1⟩
    [("session",.str "t"),("signature",.str blob),("address",.str "rWallet")]

/-- The blob that completed the login of one challenge completes that of the other. -/
theorem transaction_replayed :
    SignaturesBind (oneMessagePackages [0] (some signInTx)) ∧
    (∀ i ∈ [2,3], ((serve (serverEnv (oneMessagePackages [0] (some signInTx))) replayRequests
      (storeWith [] none) ([0,1] ++ replicate 7 2 ++ replicate 5 3)).threads i).returned =
        some (.ok (.user "@wallet_xrpl_rwallet:hs"))) ∧
    ([2,3].map (fun i => consumedChallenge ((serve
      (serverEnv (oneMessagePackages [0] (some signInTx))) replayRequests
      (storeWith [] none) ([0,1] ++ replicate 7 2 ++ replicate 5 3)).history i)) =
        [some "textrp-briij|1970-01-01T00:00:00Z|nonce:m|rWallet",
          some "textrp-briij|1970-01-01T00:00:00Z|nonce:n|rWallet"]) :=
  ⟨oneMessagePackages_bind _ _,by decide +kernel⟩

end TextrpBriij.Auth
