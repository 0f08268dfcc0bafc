import TextrpBriij.Auth.XrplLogin

/-! # Wallet links under concurrent logins

A login reads the link of its wallet, may register an account, and then writes the
link without looking again. A link keeps its user in every interleaving in which no
login writes over a link that appeared after its own look.
-/
namespace TextrpBriij.Auth
open Api Python Program List Function SafeReturn
variable (env : AuthEnv)

def LinksKept (s t : Store) : Prop := ∀ a n u, s.Names a n u → t.Names a n u

instance : IsTrans Store LinksKept := ⟨fun _ _ _ h h' a n u hu => h' a n u (h a n u hu)⟩
instance : Std.Refl LinksKept := ⟨fun _ _ _ _ hu => hu⟩

variable {s t : Store}

theorem LinksKept.of_eq (h : t.walletLinks = s.walletLinks) : LinksKept s t := by
  rintro a n u ⟨link,hl,hu⟩
  exact ⟨link,by rw [h,hl],hu⟩

/-- The wallet and the answer of the look, which is the second call of a login. -/
def lookedUp : Calls → Option (String × String × Option WalletLink)
  | _ :: ⟨.getWalletLinkByAddress address network,link⟩ :: _ => some (address,network,link)
  | _ => none

variable {calls : Calls}

theorem lookedUp_append {r : String × String × Option WalletLink} (more : Calls)
    (h : lookedUp calls = some r) : lookedUp (calls ++ more) = some r := by
  match calls, h with
  | e :: ⟨op,answer⟩ :: rest, h =>
    cases op with
    | getWalletLinkByAddress address network => exact h
    | _ => cases h

/-- When a login writes the link of the wallet that it looked up, the row still names
the user that it named at the look, or is still absent. -/
def linkAsLookedUp (calls : Calls) (op : StoreOp) (s : Store) : Prop :=
  match op with
  | .upsertWalletLink _ _ _ _ _ =>
    match lookedUp calls with
    | some (address,network,link) =>
      (s.walletLinks (address,network)).map WalletLink.userId = link.map WalletLink.userId
    | none => True
  | _ => True

instance (calls : Calls) (op : StoreOp) (s : Store) : Decidable (linkAsLookedUp calls op s) := by
  unfold linkAsLookedUp
  split
  · split <;> infer_instance
  · infer_instance

theorem linksKept_handle (op : StoreOp) (h : op.writesLinks = false) (s : Store) :
    LinksKept s (handle env.registration op s).2 :=
  LinksKept.of_eq (handle_walletLinks env.registration op h s)

/-- The calls that do not write links. -/
abbrev Quiet (op : StoreOp) : Prop :=
  ∀ (h : Calls) s, anyCall h op s ∧ LinksKept s (handle env.registration op s).2

theorem quiet (op : StoreOp) (h : op.writesLinks = false) : Quiet env op :=
  fun _ s => ⟨trivial,linksKept_handle env op h s⟩

theorem firstAvailable_quiet (candidates : List String) :
    (ExceptT.run (firstAvailable env candidates)).Uses (Quiet env) := by
  induction candidates with
  | nil => exact .done
  | cons c rest ih =>
    refine uses_bind (uses_bind (uses_perform (quiet env _ rfl)) ?_) ?_
    · exact fun _ => .done
    · intro available
      cases available with
      | true => exact .done
      | false => exact ih

theorem registerWalletUser_quiet (address network : String) (preferred displayName : Option String) :
    (ExceptT.run (registerWalletUser env address network preferred displayName)).Uses (Quiet env) := by
  refine uses_bind ?_ ?_
  · cases preferred with
    | some p =>
      refine uses_bind (uses_perform (quiet env _ rfl)) (fun checked => ?_)
      exact uses_bind (uses_liftExcept _) (fun _ => .done)
    | none => exact uses_bind (uses_liftExcept _) (fun base => firstAvailable_quiet env _)
  · intro localpart
    exact uses_bind (uses_perform (quiet env _ rfl)) (fun registered => uses_liftExcept _)

variable {address network userId key : String} {link : Option WalletLink}

theorem resolveUser_safe {session : ChallengeSession} (s : Store)
    (h : lookedUp calls = some (address,session.network,link)) :
    SafeReturn (handle env.registration) linkAsLookedUp anyCall LinksKept
      (fun calls userId _ => lookedUp calls = some (address,session.network,link) ∧
        ∀ l, link = some l → l.userId = userId)
      (resolveUser env link address session) calls s := by
  cases link with
  | some l =>
    refine liftExcept_bind (fun _ _ => pure (fun t _ => ⟨h,?_⟩))
    rintro l' ⟨⟩
    rfl
  | none =>
    have hquiet : (ExceptT.run (resolveUser env none address session)).Uses (Quiet env) := by
      unfold resolveUser
      simp only []
      split
      · exact .done
      · exact registerWalletUser_quiet env _ _ _ _
    refine (history (P := fun calls => lookedUp calls = some (address,session.network,none))
      (fun _ e h => lookedUp_append [e] h) hquiet s h).mono ?_
    intro calls r s hr userId hu
    exact ⟨hr userId hu,nofun⟩

theorem linksKept_upsert {linkedAt : ℤ}
    (hrow : (s.walletLinks (address,network)).map WalletLink.userId = link.map WalletLink.userId)
    (huser : ∀ l, link = some l → l.userId = userId) :
    LinksKept s (upsertWalletLink userId address network key linkedAt s) := by
  rintro a n u ⟨row,hr,rfl⟩
  by_cases hk : (a,n) = (address,network)
  · rw [hk] at hr
    rw [hr] at hrow
    cases link with
    | none => cases hrow
    | some l =>
      have hl : row.userId = l.userId := Option.some.inj hrow
      refine ⟨⟨userId,some key,linkedAt⟩,?_,?_⟩
      · rw [hk]
        exact update_self ..
      · rw [hl,huser l rfl]
  · exact ⟨row,by rw [← hr]; exact update_of_ne hk ..,rfl⟩

theorem names_upsert (address network userId key : String) (linkedAt : ℤ) (s : Store) :
    (upsertWalletLink userId address network key linkedAt s).Names address network userId :=
  ⟨_,update_self ..,rfl⟩

/-- The calls concern the wallet, whose row names the user. -/
def Linked (address network userId : String) (calls : Calls) (s : Store) : Prop :=
  (∃ link, lookedUp calls = some (address,network,link)) ∧ s.Names address network userId

theorem Linked.later (h : Linked address network userId calls s) (hr : LinksKept s t)
    (more : Calls) : Linked address network userId (calls ++ more) t := by
  obtain ⟨⟨link,hl⟩,hn⟩ := h
  exact ⟨⟨link,lookedUp_append more hl⟩,hr _ _ _ hn⟩

theorem addAccountData_safe {u type : String} {content : Json} (h : Linked address network userId calls s) :
    SafeReturn (handle env.registration) linkAsLookedUp anyCall LinksKept
      (fun calls _ s => Linked address network userId calls s)
      (perform (StoreOp.addAccountDataForUser u type content) : AuthM Unit) calls s := by
  refine perform (StoreOp.addAccountDataForUser u type content) (fun t ht _ => ?_)
  have hquiet : LinksKept t (handle env.registration (.addAccountDataForUser u type content) t).2 :=
    linksKept_handle env _ rfl t
  refine ⟨⟨trivial,hquiet⟩,fun v hv => ?_⟩
  exact h.later (IsTrans.trans _ _ _ ht (IsTrans.trans _ _ _ hquiet hv)) _

theorem recordLogin_safe {recovery : Option Json} {linkedAt : ℤ} (s : Store)
    (hlook : lookedUp calls = some (address,network,link))
    (huser : ∀ l, link = some l → l.userId = userId) :
    SafeReturn (handle env.registration) linkAsLookedUp anyCall LinksKept
      (fun calls u s => Linked address network u calls s)
      (recordLogin env userId address network key recovery linkedAt) calls s := by
  refine bind (Q := fun calls _ s => Linked address network userId calls s)
    (perform (StoreOp.upsertWalletLink userId address network key linkedAt) ?_) ?_
  · intro t _ hg
    have hrow : (t.walletLinks (address,network)).map WalletLink.userId = link.map WalletLink.userId := by
      simpa only [linkAsLookedUp,hlook] using hg
    refine ⟨⟨trivial,linksKept_upsert hrow huser⟩,fun v hv => ⟨⟨link,lookedUp_append _ hlook⟩,?_⟩⟩
    exact hv _ _ _ (names_upsert ..)
  · intro calls _ s hlinked
    refine bind (addAccountData_safe env hlinked) ?_
    intro calls _ s hlinked
    refine bind (addAccountData_safe env hlinked) ?_
    intro calls _ s hlinked
    refine bind (Q := fun calls _ s => Linked address network userId calls s) ?_ ?_
    · cases recovery with
      | none => exact pure (fun t ht => by simpa using hlinked.later ht [])
      | some raw =>
        exact liftExcept_bind (fun envelope _ => addAccountData_safe env hlinked)
    · exact fun calls _ s hlinked =>
        pure (fun t ht => by simpa using hlinked.later ht [])

/-- A login that returns has looked one wallet up, and from then on the row of that
wallet names the user returned. -/
theorem completeAuth_safe (now : ClockReadings) (login : List (String × Json)) (s : Store) :
    SafeReturn (handle env.registration) linkAsLookedUp anyCall LinksKept
      (fun calls userId s => ∃ address network, Linked address network userId calls s)
      (completeAuth env now login) [] s := by
  refine bind (Q := fun calls a _ => ∃ link,
    lookedUp calls = some (a.req.address,a.session.network,link) ∧
      ∀ l, link = some l → l.userId = a.userId) ?_ ?_
  · refine liftExcept_bind (fun req _ => ?_)
    refine bind (Q := fun calls _ _ => calls.length = 1) ?_ ?_
    · refine perform_bind (fun t _ _ => ⟨⟨trivial,linksKept_handle env _ rfl t⟩,?_⟩)
      generalize (handle env.registration _ t).1 = answer
      cases answer with
      | none => exact throw
      | some value => exact liftExcept (fun _ _ _ _ => rfl)
    intro calls session s hlen
    obtain ⟨e,rfl⟩ := length_eq_one_iff.mp hlen
    refine liftExcept_bind (fun _ _ => ?_)
    refine perform_bind (fun t _ _ => ⟨⟨trivial,linksKept_handle env _ rfl t⟩,?_⟩)
    refine liftExcept_bind (fun key _ => ?_)
    refine bind (resolveUser_safe env _ rfl) ?_
    exact fun calls userId s h => pure (fun _ _ => ⟨_,h⟩)
  · rintro calls a s ⟨link,hlook,huser⟩
    refine (recordLogin_safe env s hlook huser).mono ?_
    exact fun calls r s hr u hu => ⟨_,_,hr u hu⟩

def logins {ι : Type} (requests : ι → ClockReadings × List (String × Json)) (s : Store) :
    Config ι StoreOp StoreOp.Res (Except Error String) Store :=
  start (fun i => ExceptT.run (completeAuth env (requests i).1 (requests i).2)) s

/-- In every run in which each link is written as it was looked up, a row that names a
user names that user from then on, and every login returns the user of its row. -/
theorem walletLinks_stable {ι : Type} [DecidableEq ι]
    (requests : ι → ClockReadings × List (String × Json)) (s : Store) (earlier later : List ι)
    (h : Guarded (handle env.registration) linkAsLookedUp (logins env requests s)
      (earlier ++ later)) :
    (∀ address network userId,
      (runs (handle env.registration) (logins env requests s) earlier).state.Names
        address network userId →
      (runs (handle env.registration) (logins env requests s) (earlier ++ later)).state.Names
        address network userId) ∧
    ∀ i address network link userId,
      ((runs (handle env.registration) (logins env requests s)
        (earlier ++ later)).threads i).returned = some (.ok userId) →
      lookedUp ((runs (handle env.registration) (logins env requests s)
        (earlier ++ later)).history i) = some (address,network,link) →
      (runs (handle env.registration) (logins env requests s) (earlier ++ later)).state.Names
        address network userId := by
  have hstart := fun i => completeAuth_safe env (requests i).1 (requests i).2 s
  obtain ⟨hearlier,hlater⟩ := Guarded.append _ _ h
  have hsafe := (runs_safe hstart hearlier).2
  refine ⟨?_,?_⟩
  · intro address network userId hn
    rw [runs_append]
    exact (runs_safe hsafe hlater).1 _ _ _ hn
  · intro i address network link userId hret hlook
    obtain ⟨a,n,⟨link',hlook'⟩,hn⟩ := ((runs_safe hstart h).2 i).result hret userId rfl
    rw [hlook] at hlook'
    cases hlook'
    exact hn

def firstLogins (second : Bool) : ClockReadings × List (String × Json) :=
  (⟨1,1,1⟩,[("session",.str (if second then "t" else "s")),("signature",.str "00"),
    ("public_key",.str "KEY"),("address",.str "rWallet")])

def twoSessions : Store :=
  storeWith [("s",issuedSession "rWallet" "m"),("t",issuedSession "rWallet" "n")] none

/-- One after the other, the second login returns the account that the first created. -/
theorem walletLinks_stable_sequential :
    (runs (handle openRegistration) (logins (serverEnv walletPackages) firstLogins twoSessions)
      (replicate 7 false ++ replicate 5 true)).state.Names "rWallet" "xrpl"
        "@wallet_xrpl_rwallet:hs" := by
  exact (walletLinks_stable (serverEnv walletPackages) firstLogins twoSessions _ _ (by decide +kernel)).2
    true _ _ _ _ (by decide +kernel) rfl

/-- Both logins look the wallet up before either has written its link: each creates an
account, and the link that named the first account names the second one in the end. -/
theorem walletLinks_overwritten :
    ((runs (handle openRegistration) (logins (serverEnv walletPackages) firstLogins twoSessions)
      ([false,false,true,true] ++ replicate 5 false)).state.walletLinks
        ("rWallet","xrpl")).map WalletLink.userId = some "@wallet_xrpl_rwallet:hs" ∧
    ((runs (handle openRegistration) (logins (serverEnv walletPackages) firstLogins twoSessions)
      ([false,false,true,true] ++ replicate 5 false)).threads false).returned =
        some (.ok "@wallet_xrpl_rwallet:hs") ∧
    ((runs (handle openRegistration) (logins (serverEnv walletPackages) firstLogins twoSessions)
      ([false,false,true,true] ++ replicate 5 false ++ replicate 6 true)).state.walletLinks
        ("rWallet","xrpl")).map WalletLink.userId = some "@wallet_xrpl_rwallet_2:hs" ∧
    ((runs (handle openRegistration) (logins (serverEnv walletPackages) firstLogins twoSessions)
      ([false,false,true,true] ++ replicate 5 false ++ replicate 6 true)).threads
        true).returned = some (.ok "@wallet_xrpl_rwallet_2:hs") := by
  decide +kernel

end TextrpBriij.Auth
