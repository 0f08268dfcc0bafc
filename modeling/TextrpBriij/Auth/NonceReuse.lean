import TextrpBriij.Auth.ProviderTakeover
import TextrpBriij.Python.Decimal

/-! # Used nonces and signed challenges

`_enforce_nonce_timestamp` never gives up control, so its calls come one after another.
A used nonce is kept for less than sixty seconds from its use, while a challenge passes
until it is sixty seconds old. Nonce and timestamp are tied to the signed message by
substring tests alone.
-/
namespace TextrpBriij.Auth
open Api Python Handlers Program List Fallible
variable (env : ProviderEnv)

structure NonceCall where
  challenge : List (String × Json)
  walletAddress : String
  network : String
  now : ProviderReadings

def NonceCall.exec (c : NonceCall) (s : ProviderState) : Except ProviderError Unit × ProviderState :=
  Program.exec (providerHandle env.registration)
    (enforceNonceTimestamp env c.challenge c.walletAddress c.network c.now) s

/-- The network, wallet, nonce and timestamp of a call that passes. -/
def NonceCall.passed (c : NonceCall) (s : ProviderState) : Option (String × String × String × ℤ) :=
  match challengeNonce env c.challenge c.now.checked, (c.exec env s).1 with
  | .ok (nonce,timestampMs), .ok _ => some (c.network,c.walletAddress,nonce,timestampMs)
  | _, _ => none

def passedCalls : ProviderState → List NonceCall → List (String × String × String × ℤ)
  | _, [] => []
  | s, c :: calls => (c.passed env s).toList ++ passedCalls (c.exec env s).2 calls

/-- The nonce is looked up before the challenge is sixty seconds old. -/
def NonceCall.InTime (c : NonceCall) : Prop := ∀ timestampMs,
  parseTimestampMs env (Json.field c.challenge "timestamp") = .ok (some timestampMs) →
    c.now.consumed < timestampMs + challengeMaxAgeMs

section
variable {env} {s : ProviderState} {key nonce network walletAddress : String}
  {now timestampMs expiresAt : ℤ} {challenge : List (String × Json)} {c : NonceCall}
  {calls : List NonceCall}

theorem consumeNonce_live (h : s.usedChallengeNonces key = some expiresAt) (hlive : now < expiresAt)
    (other : String) : (consumeNonce other now s).2.usedChallengeNonces key = some expiresAt ∧
      (other = key → (consumeNonce other now s).1 = false) := by
  have hkept : (s.usedChallengeNonces key).filter (fun e => now < e) = some expiresAt := by
    simp [h,hlive]
  dsimp only [consumeNonce]
  split
  · exact ⟨hkept,fun _ => rfl⟩
  · rename_i hfree
    have hne : key ≠ other := by
      rintro rfl
      rw [hkept] at hfree
      cases hfree
    exact ⟨by simpa only [Function.update_of_ne hne] using hkept,fun h => absurd h.symm hne⟩

theorem consumeNonce_stored (h : (consumeNonce key now s).1) :
    (consumeNonce key now s).2.usedChallengeNonces key = some (now + challengeMaxAgeMs) := by
  dsimp only [consumeNonce] at h ⊢
  split at h
  · cases h
  · simp

theorem challengeNonce_eq_ok (h : challengeNonce env challenge now = .ok (nonce,timestampMs)) :
    nonce ≠ "" ∧ timestampMs ≤ now ∧
      parseTimestampMs env (Json.field challenge "timestamp") = .ok (some timestampMs) := by
  dsimp only [challengeNonce] at h
  split at h
  · split_ifs at h with hempty
    · cases h
    · obtain ⟨_,⟨⟩,h⟩ := bind_eq_ok.mp h
      obtain ⟨parsed,hparsed,h⟩ := bind_eq_ok.mp h
      cases parsed with
      | none => cases h
      | some parsed =>
        dsimp only at h
        split_ifs at h with hfuture hold <;> cases h
        exact ⟨hempty,Int.not_lt.mp hfuture,hparsed⟩
  · cases h

theorem checkChallengeMessage_eq_ok {fresh : Bool}
    (h : checkChallengeMessage challenge nonce timestampMs fresh = .ok ()) :
    fresh ∧ ∀ message, Json.field challenge "message" = .str message →
      isSubstring nonce message ∧ isSubstring (toString timestampMs) message := by
  unfold checkChallengeMessage at h
  cases fresh with
  | false => cases h
  | true =>
    refine ⟨rfl,fun message hmessage => ?_⟩
    rw [hmessage] at h
    simpa using h

theorem NonceCall.exec_of_ok (h : challengeNonce env c.challenge c.now.checked = .ok (nonce,timestampMs)) :
    let used := consumeNonce (nonceKey c.network c.walletAddress nonce) c.now.consumed s
    c.exec env s = (checkChallengeMessage c.challenge nonce timestampMs used.1,used.2) := by
  unfold NonceCall.exec enforceNonceTimestamp
  rw [h]
  exact exec_liftExcept _ _ _

theorem NonceCall.passed_eq_some (h : c.passed env s = some (network,walletAddress,nonce,timestampMs)) :
    (timestampMs ≤ c.now.checked ∧
      parseTimestampMs env (Json.field c.challenge "timestamp") = .ok (some timestampMs)) ∧
      (consumeNonce (nonceKey network walletAddress nonce) c.now.consumed s).1 ∧
      (c.exec env s).2 = (consumeNonce (nonceKey network walletAddress nonce) c.now.consumed s).2 := by
  unfold NonceCall.passed at h
  split at h
  · rename_i hnonce hok
    cases h
    rw [NonceCall.exec_of_ok hnonce] at hok ⊢
    exact ⟨(challengeNonce_eq_ok hnonce).2,(checkChallengeMessage_eq_ok hok).1,rfl⟩
  · cases h

theorem NonceCall.exec_live (h : s.usedChallengeNonces key = some expiresAt)
    (hlive : c.now.consumed < expiresAt) :
    (c.exec env s).2.usedChallengeNonces key = some expiresAt := by
  cases hnonce : challengeNonce env c.challenge c.now.checked with
  | error e =>
    unfold NonceCall.exec enforceNonceTimestamp
    rw [hnonce]
    exact h
  | ok found =>
    rw [NonceCall.exec_of_ok hnonce]
    exact (consumeNonce_live h hlive _).1

/-- The entry of a nonce outlives the challenge, or every call comes after both. -/
theorem notMem_passedCalls (hclock : calls.Pairwise (fun c d => c.now.consumed ≤ d.now.consumed))
    (htime : ∀ c ∈ calls, c.InTime env)
    (h : (∃ expiresAt, timestampMs + challengeMaxAgeMs ≤ expiresAt ∧
        s.usedChallengeNonces (nonceKey network walletAddress nonce) = some expiresAt) ∨
      ∀ c ∈ calls, timestampMs + challengeMaxAgeMs ≤ c.now.consumed) :
    (network,walletAddress,nonce,timestampMs) ∉ passedCalls env s calls := by
  induction calls generalizing s with
  | nil => exact not_mem_nil
  | cons c calls ih =>
    obtain ⟨hnext,hclock⟩ := pairwise_cons.mp hclock
    obtain ⟨hnow,htime⟩ := forall_mem_cons.mp htime
    intro hmem
    rcases mem_append.mp hmem with hc | hrest
    · obtain ⟨⟨-,hparsed⟩,hfresh,-⟩ := NonceCall.passed_eq_some (Option.mem_toList.mp hc)
      have hlt := hnow _ hparsed
      rcases h with ⟨expiresAt,hle,hentry⟩ | hall
      · rw [(consumeNonce_live hentry (by omega) _).2 rfl] at hfresh
        cases hfresh
      · have := hall c mem_cons_self
        omega
    · refine ih hclock htime ?_ hrest
      by_cases hlt : c.now.consumed < timestampMs + challengeMaxAgeMs
      · rcases h with ⟨expiresAt,hle,hentry⟩ | hall
        · exact .inl ⟨expiresAt,hle,NonceCall.exec_live hentry (by omega)⟩
        · exact absurd (hall c mem_cons_self) (by omega)
      · exact .inr (fun d hd => by have := hnext d hd; omega)

theorem passedCalls_nodup
    (hclock : (calls.flatMap (fun c => [c.now.checked,c.now.consumed])).Pairwise (· ≤ ·))
    (htime : ∀ c ∈ calls, c.InTime env) : (passedCalls env s calls).Nodup := by
  obtain ⟨hown,hnext⟩ := pairwise_flatMap.mp hclock
  replace hnext : calls.Pairwise (fun c d => c.now.consumed ≤ d.now.consumed) :=
    hnext.imp (fun h => h _ (by simp) _ (by simp))
  clear hclock
  induction calls generalizing s with
  | nil => exact nodup_nil
  | cons c calls ih =>
    obtain ⟨hc,hown⟩ := forall_mem_cons.mp hown
    have htail := (pairwise_cons.mp hnext).2
    have hrest := (forall_mem_cons.mp htime).2
    unfold passedCalls
    cases hpassed : c.passed env s with
    | none => exact ih hrest hown htail
    | some x =>
      obtain ⟨⟨hpast,-⟩,hfresh,hstate⟩ := NonceCall.passed_eq_some hpassed
      refine nodup_cons.mpr ⟨notMem_passedCalls htail hrest (.inl ?_),ih hrest hown htail⟩
      have hchecked := rel_of_pairwise_cons hc mem_cons_self
      exact ⟨_,by omega,hstate ▸ consumeNonce_stored hfresh⟩

end

/-- The call with nonce `n` and timestamp zero, checked and consumed at one reading. -/
def nonceCallAt (now : ℤ) : NonceCall :=
  ⟨[("nonce",.str "n"),("timestamp",.int 0),("message",.str "n 0")],"rWallet","xrpl", ⟨now,now,now,now⟩⟩

theorem passedCalls_nodup_nonceCallAt :
    (passedCalls providerEnv emptyProvider [nonceCallAt 0,nonceCallAt 59999]).Nodup := by
  refine passedCalls_nodup (by decide) ?_
  rintro c hc timestampMs hparsed
  simp only [mem_cons,not_mem_nil,or_false] at hc
  rcases hc with rfl | rfl <;> cases hparsed <;> decide

/-- The entry of the first call is dropped at the last moment the challenge passes. -/
theorem passedCalls_boundary :
    passedCalls providerEnv emptyProvider [nonceCallAt 0,nonceCallAt 60000] =
      [("xrpl","rWallet","n",0),("xrpl","rWallet","n",0)] := rfl

variable (walletAddress network signature message : String)

/-- Some login with this message is accepted with the nonce and the timestamp. -/
def AcceptedWith (nonce : String) (timestampMs : ℤ) : Prop :=
  ∃ challenge fields ledger now s, networkChallenge env challenge network = .ok fields ∧
    Json.field fields "message" = .str message ∧
    challengeNonce env fields now.checked = .ok (nonce,timestampMs) ∧
    (Program.exec (providerHandle env.registration)
      (verifyXrplSignature env walletAddress signature challenge network ledger now) s).1 = .ok ()

/-- Logins with this message are possible at all: its signature belongs to the wallet, and it
has a timestamp in it. -/
def Usable : Prop :=
  network ∈ env.allowedNetworks ∧
    (∃ publicKey signatureBytes, env.ext.deriveClassicAddress publicKey = some walletAddress ∧
      bytesFromHex signature = some signatureBytes ∧
      env.ext.isValidMessage (encodeUtf8 message) signatureBytes
        (.str (upper env.ext.upperTable publicKey)) = some true) ∧
    ∃ timestamp timestampMs, parseTimestampMs env timestamp = .ok (some timestampMs) ∧
      isSubstring (toString timestampMs) message = true

variable {env walletAddress network signature message} {nonce : String} {timestampMs : ℤ}

theorem AcceptedWith.spec (h : AcceptedWith env walletAddress network signature message nonce timestampMs) :
    Usable env walletAddress network signature message ∧ nonce ≠ "" ∧
      isSubstring nonce message ∧ isSubstring (toString timestampMs) message := by
  obtain ⟨challenge,fields,ledger,now,s,hnetwork,hmessage,hnonce,hok⟩ := h
  obtain ⟨_,hfields,h⟩ := exec_liftExcept_bind_eq_ok.mp (Prod.ext hok rfl)
  cases hnetwork.symm.trans hfields
  obtain ⟨_,_,hpassed,h⟩ := exec_bind_eq_ok.mp h
  obtain ⟨_,hsigned,-⟩ := exec_liftExcept_bind_eq_ok.mp h
  rw [← NonceCall.exec.eq_def env ⟨fields,walletAddress,network,now⟩, NonceCall.exec_of_ok hnonce] at hpassed
  obtain ⟨hne,-,hparsed⟩ := challengeNonce_eq_ok hnonce
  have hsub := (checkChallengeMessage_eq_ok (congrArg Prod.fst hpassed)).2 message hmessage
  refine ⟨⟨?_,?_,_,_,hparsed,hsub.2⟩,hne,hsub⟩
  · unfold networkChallenge at hnetwork
    split_ifs at hnetwork with hmem
    exact hmem
  · simp only [verifyChallengeSignature,hmessage,throw_eq,error_bind, ok_bind] at hsigned
    grind

theorem Usable.accepted (h : Usable env walletAddress network signature message) (hne : nonce ≠ "")
    (hnonce : isSubstring nonce message) :
    ∃ timestampMs, AcceptedWith env walletAddress network signature message nonce timestampMs := by
  obtain ⟨hnetwork,⟨publicKey,signatureBytes,hkey,hbytes,hvalid⟩,timestamp,stamp,hparse,htime⟩ := h
  let fields := [("nonce",Json.str nonce),("timestamp",timestamp),("public_key",.str publicKey),
    ("message",.str message)]
  have hfield : Json.field fields "nonce" = .str nonce ∧ Json.field fields "timestamp" = timestamp ∧
      Json.field fields "public_key" = .str publicKey ∧
      Json.field fields "algorithm" = .null ∧
      Json.field fields "message" = .str message := ⟨rfl,rfl,rfl,rfl,rfl⟩
  have hnetwork : networkChallenge env (.obj fields) network = .ok fields := by
    simp [networkChallenge,hnetwork,parseChallenge]
  have hchecked : challengeNonce env fields stamp = .ok (nonce,stamp) := by
    simp [challengeNonce,hfield,hne,hparse,challengeMaxAgeMs]
  have hpassed : checkChallengeMessage fields nonce stamp true = .ok () := by
    simp only [checkChallengeMessage,hfield,hnonce,htime]
    rfl
  have hverified : verifyChallengeSignature env fields walletAddress signature = .ok () := by
    simp [verifyChallengeSignature,hfield,hkey,hbytes,hvalid]
  refine ⟨stamp,.obj fields,fields,.found,⟨stamp,stamp,0,0⟩,emptyProvider,hnetwork,rfl,hchecked,?_⟩
  have hcall := NonceCall.exec_of_ok (c := ⟨fields,walletAddress,network,⟨stamp,stamp,0,0⟩⟩)
    (s := emptyProvider) hchecked
  exact congrArg Prod.fst (exec_liftExcept_bind_eq_ok.mpr ⟨_,hnetwork,exec_bind_eq_ok.mpr
    ⟨_,_,hcall.trans (Prod.ext hpassed rfl),exec_liftExcept_bind_eq_ok.mpr ⟨_,hverified,rfl⟩⟩⟩)

theorem isSubstring_iff {needle haystack : String} :
    isSubstring needle haystack ↔ needle.toList <:+: haystack.toList := by
  simp only [isSubstring,any_eq_true, isPrefixOf_iff_prefix,mem_tails,infix_iff_prefix_suffix, and_comm]

theorem eq_of_isSubstring {needle : String} (h : isSubstring needle message)
    (hne : needle ≠ "") (hshort : message.length < 2) : needle = message := by
  have hpos : needle.length ≠ 0 := by simpa using hne
  refine String.toList_inj.mp ((isSubstring_iff.mp h).sublist.eq_of_length_le ?_)
  simp only [String.length_toList]
  omega

theorem toString_ne_empty (n : ℤ) : toString n ≠ "" := by
  rw [Int.toString_eq_repr,Int.repr_eq_if]
  split <;> simp

/-- One message has one nonce and one timestamp only if it is a single character or is
never accepted. -/
theorem accepted_unique_iff : (∀ nonce nonce' timestampMs timestampMs',
      AcceptedWith env walletAddress network signature message nonce timestampMs →
      AcceptedWith env walletAddress network signature message nonce' timestampMs' →
      nonce = nonce' ∧ timestampMs = timestampMs') ↔
    ¬(Usable env walletAddress network signature message ∧ 2 ≤ message.length) := by
  constructor
  · rintro h ⟨husable,hlong⟩
    cases hchars : message.toList with
    | nil => simp_all
    | cons a rest =>
      have hinfix : (String.ofList [a]).toList <:+: message.toList := by
        rw [hchars]
        exact ⟨[],rest,by simp⟩
      obtain ⟨_,hchar⟩ := husable.accepted (by simp) (isSubstring_iff.mpr hinfix)
      obtain ⟨_,hall⟩ := husable.accepted (by rintro rfl; simp at hlong) (isSubstring_iff.mpr infix_rfl)
      have hlength := congrArg String.length (h _ _ _ _ hchar hall).1
      simp at hlength
      omega
  · intro h nonce nonce' timestampMs timestampMs' hacc hacc'
    obtain ⟨husable,hne,hnonce,htime⟩ := hacc.spec
    obtain ⟨-,hne',hnonce',htime'⟩ := hacc'.spec
    have hshort : message.length < 2 := by
      by_contra hlong
      exact h ⟨husable,by omega⟩
    constructor
    · rw [eq_of_isSubstring hnonce hne hshort,eq_of_isSubstring hnonce' hne' hshort]
    · have hstr := (eq_of_isSubstring htime (toString_ne_empty _) hshort).trans
        (eq_of_isSubstring htime' (toString_ne_empty _) hshort).symm
      have hread := int_str ⟨fun _ => none,fun _ => false,id⟩
      exact Except.ok.inj ((hread timestampMs).symm.trans ((congrArg (int _) hstr).trans (hread timestampMs')))

def loginWithNonce (nonce : String) : List (String × Json) :=
  [("nonce",.str nonce),("timestamp",.int 0),("public_key",.str "KEY"),("message",.str "n 0")]

theorem accepted_twice : AcceptedWith providerEnv "rWallet" "xrpl" "00" "n 0" "n" 0 ∧
      AcceptedWith providerEnv "rWallet" "xrpl" "00" "n 0" "n " 0 :=
  ⟨⟨.obj (loginWithNonce "n"),_,.found,⟨0,0,0,0⟩,emptyProvider,rfl,rfl,rfl,rfl⟩,
    .obj (loginWithNonce "n "),_,.found,⟨0,0,0,0⟩,emptyProvider,rfl,rfl,rfl,rfl⟩

end TextrpBriij.Auth
