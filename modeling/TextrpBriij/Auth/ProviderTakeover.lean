import TextrpBriij.Auth.WalletProvider
import TextrpBriij.Auth.XrplLogin

/-! # Whose account the wallet provider returns

Any number of provider logins run together with registrations by other parties. A
login returns and links an account that its wallet was linked to, or one that its own
registration created, unless its registration fails and the chosen name belongs to an
account by the time it looks again.
-/
namespace TextrpBriij.Auth
open Api Python Handlers Program List SafeReturn
variable (env : ProviderEnv)

abbrev ProviderCalls := List (Event ProviderOp ProviderOp.Res)

inductive Party where
  | login (username : String) (fields : List (String × Json)) (ledger : LedgerAnswer)
      (now : ProviderReadings)
  | register (localpart : String) (displayName : Option String)

def Party.program : Party → ProviderM String
  | .login username fields ledger now => checkAuth env username fields ledger now
  | .register localpart displayName => do
    let registered : Except Error String ← perform (ProviderOp.store (.registerUser localpart displayName))
    match registered with
    | .ok userId => return userId
    | .error _ => throw .other

/-- When a login looks again after its registration has failed, no account has the
name that it chose. -/
def fallbackFindsNothing (calls : ProviderCalls) (op : ProviderOp) (s : ProviderState) : Prop :=
  match calls.getLast?, op with
  | some ⟨.store (.registerUser _ _),.error _⟩, .store (.checkUserExists userId) =>
    checkUserExists s.store.users userId = none
  | _, _ => True

instance (calls : ProviderCalls) (op : ProviderOp) (s : ProviderState) :
    Decidable (fallbackFindsNothing calls op s) := by
  unfold fallbackFindsNothing
  split <;> infer_instance

/-- By its calls, a login of the wallet found it linked to the user or created it. -/
def Justified (calls : ProviderCalls) (address network userId : String) : Prop :=
  (∃ link : WalletLink, ⟨.store (.getWalletLinkByAddress address network),some link⟩ ∈ calls ∧
    link.userId = userId) ∨
  ∃ localpart displayName, ⟨.store (.registerUser localpart displayName),.ok userId⟩ ∈ calls

variable {address network userId : String}

theorem Justified.append {calls : ProviderCalls}
    (h : Justified calls address network userId) (more : ProviderCalls) :
    Justified (calls ++ more) address network userId := by
  rcases h with ⟨link,hl,hu⟩ | ⟨localpart,displayName,hr⟩
  · exact Or.inl ⟨link,mem_append_left _ hl,hu⟩
  · exact Or.inr ⟨localpart,displayName,mem_append_left _ hr⟩

def linksJustified (calls : ProviderCalls) (op : ProviderOp) (_ : ProviderState) : Prop :=
  match op with
  | .store (.storeWalletMapping userId address network _) => Justified calls address network userId
  | _ => True

def ProviderOp.linkFree : ProviderOp → Bool
  | .store op => !op.writesLinks
  | _ => true

theorem linksJustified_of_linkFree {op : ProviderOp} (h : op.linkFree)
    (calls : ProviderCalls) (s : ProviderState) : linksJustified calls op s := by
  cases op with
  | store op =>
    cases op with
    | storeWalletMapping => cases h
    | _ => exact trivial
  | _ => exact trivial

abbrev LinkFree (op : ProviderOp) : Prop := ∀ (calls : ProviderCalls) (s : ProviderState),
  linksJustified calls op s ∧ Unrelated s (providerHandle env.registration op s).2

theorem linkFree (op : ProviderOp) (h : op.linkFree) : LinkFree env op :=
  fun calls s => ⟨linksJustified_of_linkFree h calls s,trivial⟩

theorem verifyXrplSignature_linkFree (walletAddress signature : String) (challenge : Json)
    (network : String) (ledger : LedgerAnswer) (now : ProviderReadings) :
    (ExceptT.run (verifyXrplSignature env walletAddress signature challenge network ledger now)).Uses
      (LinkFree env) := by
  refine uses_bind (uses_liftExcept _) (fun challenge => uses_bind ?_ (fun _ => ?_))
  · refine uses_bind (uses_liftExcept _) (fun nonce => ?_)
    exact uses_bind (uses_perform (linkFree env _ rfl)) (fun fresh => uses_liftExcept _)
  · exact uses_bind (uses_liftExcept _) (fun _ => uses_liftExcept _)

theorem chooseAvailable_linkFree (candidates : List String) :
    (ExceptT.run (chooseAvailable env candidates)).Uses (LinkFree env) := by
  induction candidates with
  | nil => exact .done
  | cons candidate rest ih =>
    refine uses_bind (uses_perform (linkFree env _ rfl)) (fun existing => ?_)
    cases existing with
    | none => exact .done
    | some userId => exact ih

/-- A registration that fails finds no account, by the guard, and one that returns has
created what it returns. -/
theorem registerOrFind_safe (address network localpart : String) (calls : ProviderCalls) (s : ProviderState) :
    SafeReturn (providerHandle env.registration) fallbackFindsNothing linksJustified Unrelated
      (fun calls userId _ => Justified calls address network userId)
      (registerOrFind env localpart) calls s := by
  refine perform_bind (fun t _ _ => ⟨linkFree env _ rfl calls t,?_⟩)
  generalize (providerHandle env.registration (.store (.registerUser localpart none)) t).1 = answer
  cases answer with
  | ok userId =>
    refine pure (fun _ _ => Or.inr ⟨localpart,none,?_⟩)
    exact mem_append_right _ (mem_singleton_self _)
  | error e =>
    refine perform_bind (fun t _ hg => ⟨linkFree env _ rfl _ t,?_⟩)
    have hnone : (providerHandle env.registration
        (.store (.checkUserExists (userIdOf env.registration localpart))) t).1 = none := by
      simp only [fallbackFindsNothing,getLast?_append] at hg
      exact hg
    rw [hnone]
    exact throw

theorem resolveWalletUser_safe {link : Option WalletLink}
    (username : String) {calls : ProviderCalls} (s : ProviderState)
    (h : ⟨.store (.getWalletLinkByAddress address network),link⟩ ∈ calls) :
    SafeReturn (providerHandle env.registration) fallbackFindsNothing linksJustified Unrelated
      (fun calls userId _ => Justified calls address network userId)
      (resolveWalletUser env username address link) calls s := by
  cases link with
  | some link => exact pure (fun _ _ => Or.inl ⟨link,h,rfl⟩)
  | none =>
    refine bind (Q := fun _ _ _ => True) ?_
      (fun calls localpart s _ => registerOrFind_safe env address network localpart calls s)
    exact history (P := fun _ => True) (fun _ _ _ => trivial)
      (chooseAvailable_linkFree env _) s trivial

def Party.Returned : Party → ProviderCalls → String → ProviderState → Prop
  | .login _ fields _ _, calls, userId, _ => ∀ address signature challenge network,
      parseProviderLogin env fields = .ok (address,signature,challenge,network) →
        Justified calls address network userId
  | .register .., _, _, _ => True

theorem Party.program_safe (party : Party) (s : ProviderState) :
    SafeReturn (providerHandle env.registration) fallbackFindsNothing linksJustified Unrelated
      (party.Returned env) (party.program env) [] s := by
  cases party with
  | register localpart displayName =>
    refine history (P := fun _ => True) (fun _ _ _ => trivial) ?_ s trivial
    refine uses_bind (uses_perform (linkFree env _ rfl)) (fun registered => ?_)
    cases registered with
    | ok userId => exact .done
    | error e => exact .done
  | login username fields ledger now =>
    refine liftExcept_bind (fun wallet hp => ?_)
    refine perform_bind (fun t _ _ => ⟨linkFree env _ rfl _ t,?_⟩)
    refine liftExcept_bind (fun _ _ => ?_)
    refine bind (Q := fun _ _ _ => True) (history (P := fun _ => True)
      (fun _ _ _ => trivial) (verifyXrplSignature_linkFree env _ _ _ _ _ _) _ trivial) ?_
    intro calls _ s _
    refine perform_bind (fun t _ _ => ⟨linkFree env _ rfl _ t,?_⟩)
    refine bind (resolveWalletUser_safe env username _
      (mem_append_right _ (mem_singleton_self _))) ?_
    intro calls userId s hjust
    refine perform_bind (fun t _ _ => ⟨⟨hjust,trivial⟩,?_⟩)
    refine perform_bind (fun t _ _ => ⟨linkFree env _ rfl _ t,?_⟩)
    refine pure (fun _ _ => ?_)
    intro address' signature' challenge' network' hp'
    rw [hp] at hp'
    cases hp'
    exact (hjust.append _).append _

variable {ι : Type} [DecidableEq ι]
variable (parties : ι → Party) (s : ProviderState)

def provider : Config ι ProviderOp ProviderOp.Res (Except ProviderError String) ProviderState :=
  start (fun i => ExceptT.run ((parties i).program env)) s

def providerRun (schedule : List ι) :
    Config ι ProviderOp ProviderOp.Res (Except ProviderError String) ProviderState :=
  runs (providerHandle env.registration) (provider env parties s) schedule

/-- At an earlier step of the schedule, party `i` looked the wallet up while it was
linked to the user, or made the registration that created the user. -/
def OwnUser (schedule : List ι) (i : ι) (address network userId : String) : Prop :=
  ∃ earlier later op k, schedule = earlier ++ i :: later ∧
    (providerRun env parties s earlier).threads i = .call (.store op) k ∧
    ((op = .getWalletLinkByAddress address network ∧
        (providerRun env parties s earlier).state.store.Names address network userId) ∨
      ((∃ localpart displayName, op = .registerUser localpart displayName) ∧
        userId ∉ (providerRun env parties s earlier).state.store.users ∧
        userId ∈ (providerRun env parties s (earlier ++ [i])).state.store.users))

theorem registerAccount_creates {cfg : RegistrationConfig} {localpart : String}
    {displayName : Option String} {s : Store}
    (h : (registerAccount cfg localpart displayName s).1 = .ok userId) :
    userId ∉ s.users ∧ userId ∈ (registerAccount cfg localpart displayName s).2.users := by
  unfold registerAccount at h ⊢
  cases hr : registerUser cfg s.users localpart with
  | error e => simp [hr] at h
  | ok p =>
    obtain ⟨users,u⟩ := p
    simp only [hr,Except.ok.injEq] at h ⊢
    subst h
    obtain ⟨_,rfl,hnew⟩ := registerUser_ok cfg hr
    exact ⟨hnew,mem_append_right _ (mem_singleton_self _)⟩

theorem runs_snoc_state (earlier : List ι) {i : ι}
    {op : ProviderOp} {k : op.Res → Prog ProviderOp ProviderOp.Res (Except ProviderError String)}
    (h : (providerRun env parties s earlier).threads i = .call op k) :
    (providerRun env parties s (earlier ++ [i])).state =
      (providerHandle env.registration op (providerRun env parties s earlier).state).2 := by
  unfold providerRun at h ⊢
  rw [runs_append]
  change (step _ _ i).state = _
  simp only [step,h]

theorem Justified.ownUser {parties : ι → Party} {s : ProviderState} {schedule : List ι} {i : ι}
    (h : Justified ((providerRun env parties s schedule).history i) address network userId) :
    OwnUser env parties s schedule i address network userId := by
  rcases h with ⟨link,hmem,hu⟩ | ⟨localpart,displayName,hmem⟩
  · obtain ⟨earlier,later,k,hs,ht,ha⟩ := runs_event _ hmem nofun
    exact ⟨earlier,later,_,k,hs,ht,Or.inl ⟨rfl,link,ha.symm,hu⟩⟩
  · obtain ⟨earlier,later,k,hs,ht,ha⟩ := runs_event _ hmem nofun
    obtain ⟨hold,hnew⟩ := registerAccount_creates ha.symm
    refine ⟨earlier,later,_,k,hs,ht,Or.inr ⟨⟨localpart,displayName,rfl⟩,hold,?_⟩⟩
    rw [runs_snoc_state env parties s earlier ht]
    exact hnew

/-- In every run in which no login that failed to register finds an account, each user
that a login returns or links was linked to its wallet when it looked, or was created
by its own registration. -/
theorem checkAuth_returns_own_user (parties : ι → Party) (s : ProviderState) (schedule : List ι)
    (h : Guarded (providerHandle env.registration) fallbackFindsNothing (provider env parties s)
      schedule) :
    (∀ i username fields ledger now address signature challenge network userId,
      parties i = .login username fields ledger now →
      parseProviderLogin env fields = .ok (address,signature,challenge,network) →
      ((providerRun env parties s schedule).threads i).returned = some (.ok userId) →
      OwnUser env parties s schedule i address network userId) ∧
    ∀ i earlier later userId address network linkedAt k,
      schedule = earlier ++ i :: later →
      (providerRun env parties s earlier).threads i =
        .call (.store (.storeWalletMapping userId address network linkedAt)) k →
      OwnUser env parties s earlier i address network userId := by
  have hstart := fun i => (parties i).program_safe env s
  refine ⟨?_,?_⟩
  · intro i username fields ledger now address signature challenge network userId hi hp hret
    have hjust := ((runs_safe hstart h).2 i).result hret userId rfl
    rw [hi] at hjust
    exact Justified.ownUser env (hjust address signature challenge network hp)
  · intro i earlier later userId address network linkedAt k hs ht
    have hpromised := runs_promised hstart h
    rw [hs] at hpromised
    have hnow := ((Guarded.append _ _ hpromised).2).1
    unfold Allowed at hnow
    change (runs _ _ earlier).threads i = _ at ht
    rw [ht] at hnow
    exact Justified.ownUser env hnow

def providerEnv : ProviderEnv where
  ext := walletPackages
  registration := openRegistration
  lowerTable := fun c => [c]
  digitText := fun _ => .notDigits
  jsonLoads := fun _ => none
  allowedNetworks := ["xrpl","xahau"]
  defaultNetwork := "xrpl"

def emptyProvider : ProviderState := ⟨storeWith [] none,fun _ => none,fun _ => none⟩

def aliceParties : Bool → Party
  | true => .login "alice" [("wallet_address",.str "rWallet"),("signature",.str "00"),
      ("challenge",.obj [("nonce",.str "n"),("timestamp",.int 0),("public_key",.str "KEY"),
        ("message",.str "n 0")])] .found ⟨1,1,1,1⟩
  | false => .register "alice" none

/-- The login has finished before the other party starts. -/
theorem checkAuth_own_user_alone :
    OwnUser providerEnv aliceParties emptyProvider (replicate 7 true ++ [false]) true
      "rWallet" "xrpl" "@alice:hs" := by
  exact (checkAuth_returns_own_user providerEnv aliceParties emptyProvider _ (by decide +kernel)).1
    true _ _ _ _ _ _ _ _ _ rfl rfl (by decide +kernel)

/-- The other party registers `alice` after the login found the name free. The login,
whose wallet is linked to nobody until it writes the link itself, returns and links
the account of the other party. -/
theorem checkAuth_takes_over_account :
    ((providerRun providerEnv aliceParties emptyProvider
      (replicate 4 true ++ [false])).threads false).returned = some (.ok "@alice:hs") ∧
    (providerRun providerEnv aliceParties emptyProvider
      (replicate 4 true ++ [false])).state.store.users = ["@alice:hs"] ∧
    (providerRun providerEnv aliceParties emptyProvider
      (replicate 4 true ++ [false] ++ replicate 2 true)).state.store.walletLinks
        ("rWallet","xrpl") = none ∧
    (providerRun providerEnv aliceParties emptyProvider
      (replicate 4 true ++ [false] ++ replicate 4 true)).state.store.walletLinks
        ("rWallet","xrpl") = some ⟨"@alice:hs",none,1⟩ ∧
    (providerRun providerEnv aliceParties emptyProvider
      (replicate 4 true ++ [false] ++ replicate 4 true)).state.store.users
        = ["@alice:hs"] ∧
    ((providerRun providerEnv aliceParties emptyProvider
      (replicate 4 true ++ [false] ++ replicate 4 true)).threads true).returned
        = some (.ok "@alice:hs") := by
  decide +kernel

end TextrpBriij.Auth
