import TextrpBriij.EventAuth.Reads

/-! # Exceptions other than `AuthError`

What each rule reads after the checks before it, so that the whole check raises nothing but
`AuthError` exactly if these reads succeed. Where the rules iterate a set, any element may come
first.
-/
namespace TextrpBriij.EventAuth
open Api Python Events Fallible List
open State (StateMap Iteration)
open Json (hashable item)

variable {env : Env} {event : EventBase} {s : StateMap EventBase} {create : EventBase}

section room
variable (hcreate : s.lookup createKey = some create) (htype : create.type = "m.room.create")

def StateKeyReadable (env : Env) (event : EventBase) (s : StateMap EventBase) (create : EventBase) : Prop :=
  ∀ stateKey, event.stateKey = some stateKey → stateKey.toList.head? = some '@' →
    stateKey ≠ event.sender → event.roomVersion.msc3757Enabled = true →
    ∃ owner, stateKeyUserId env stateKey = some owner ∧
      (owner ≠ event.sender → UserLevelReadable env s create owner)

@[mk_iff] structure SendReadable (env : Env) (event : EventBase) (s : StateMap EventBase)
    (create : EventBase) : Prop where
  sendLevel : readsSendLevel env (levelsContent s) event.type event.stateKey.isSome = true
  sender : UserLevelReadable env s create event.sender
  stateKey : ∀ sendLevel userLevel,
    getSendLevel env event.type event.stateKey (getPowerLevelEvent s) = .ok sendLevel →
    getUserPowerLevel env event.sender s = .ok userLevel → sendLevel ≤ userLevel →
    StateKeyReadable env event s create

include hcreate htype in
theorem onlyAuthErrors_checkOthersStateKey {stateKey : String} {userLevel : ℤ} :
    RaisesOnly IsAuthError (checkOthersStateKey env event stateKey userLevel s) ↔
      (event.roomVersion.msc3757Enabled → ∃ owner, stateKeyUserId env stateKey = some owner ∧
          (owner ≠ event.sender → UserLevelReadable env s create owner)) := by
  unfold checkOthersStateKey
  rw [raisesOnly_ite]
  cases stateKeyUserId env stateKey with
  | none => simp
  | some owner =>
    simp [raisesOnly_ite,raisesOnly_bind,onlyAuthErrors_getUserPowerLevel hcreate htype]

include hcreate htype in
theorem onlyAuthErrors_stateKey (userLevel : ℤ) : RaisesOnly IsAuthError (match event.stateKey with
    | none => pure ()
    | some stateKey => if stateKey.toList.head? = some '@' ∧ stateKey ≠ event.sender then
        checkOthersStateKey env event stateKey userLevel s else pure ()) ↔
      StateKeyReadable env event s create := by
  unfold StateKeyReadable
  cases event.stateKey with
  | none => simp
  | some stateKey =>
    simp only [raisesOnly_ite,onlyAuthErrors_checkOthersStateKey hcreate htype,pure_eq,
      raisesOnly_ok,implies_true,and_true,Option.some.injEq,forall_eq',and_imp]

include hcreate htype in
theorem onlyAuthErrors_canSendEvent :
    RaisesOnly IsAuthError (canSendEvent env event s) ↔ SendReadable env event s create := by
  have hkey := @onlyAuthErrors_stateKey env event s create hcreate htype
  refine (raisesOnly_bind₂ (C := fun sendLevel userLevel => sendLevel ≤ userLevel →
    StateKeyReadable env event s create) (noAuthErrors_getSendLevel _ _ _)
    onlyAuthErrors_getSendLevel (onlyAuthErrors_getUserPowerLevel hcreate htype) ?_).trans
    (sendReadable_iff ..).symm
  intro sendLevel userLevel
  rw [raisesOnly_ite,and_iff_right (by simp)]
  exact imp_congr not_lt (hkey userLevel)

def CreatorsAbsent (create : EventBase) (users : Fields) : Prop :=
  hasField users create.sender = false ∧
    ((create.contentGet "additional_creators" (.arr [])).truthy = true → ∃ entries creators,
        (create.contentGet "additional_creators" (.arr [])).elements = .ok entries ∧
        hashSet entries = .ok creators ∧
        (creators.any fun creator => users.any fun user => creator.isStr user.1) = false)

@[mk_iff] structure PowerLevelsValid (env : Env) (event create : EventBase) : Prop where
  users : ∃ users, event.contentGet "users" (.obj []) = .obj users ∧
    (∀ entry ∈ users, isUserId entry.1 = true ∧ isLevel env entry.2 = true) ∧
    (event.roomVersion.msc4289CreatorPowerEnabled = true → CreatorsAbsent create users)
  levels : event.roomVersion.enforceIntPowerLevels = true → ∀ field ∈ event.content,
    (levelNames.contains field.1 = true → isInt field.2 = true) ∧
    (["events","notifications","users"].contains field.1 = true → isIntMap field.2 = true)

theorem checkUserEntry_ok_iff {entry : String × Json} : checkUserEntry env entry = .ok () ↔
    isUserId entry.1 ∧ isLevel env entry.2 := by
  rw [isLevel_iff]
  unfold checkUserEntry
  cases isUserId entry.1 with
  | false => simp
  | true => cases entry.2.toInt env.intOfString <;> simp

theorem checkIntLevels_ok_iff {field : String × Json} : checkIntLevels env field = .ok () ↔
    (levelNames.contains field.1 → isInt field.2) ∧
    (["events","notifications","users"].contains field.1 → isIntMap field.2) := by
  unfold checkIntLevels
  cases levelNames.contains field.1 <;> cases isInt field.2 <;>
    simp

@[simp] theorem noAuthErrors_checkUserEntry (entry : String × Json) :
    NoAuthErrors (checkUserEntry env entry) := by
  unfold checkUserEntry
  split
  · simp
  · split <;> simp

@[simp] theorem noAuthErrors_checkIntLevels (field : String × Json) :
    NoAuthErrors (checkIntLevels env field) := by
  simp [checkIntLevels,raisesOnly_ite]

@[simp] theorem noAuthErrors_checkCreatorsAbsent (users : Fields) :
    NoAuthErrors (checkCreatorsAbsent users s) := by
  unfold checkCreatorsAbsent
  split
  · simp
  · simp [raisesOnly_ite,raisesOnly_bind]

include hcreate in
theorem checkCreatorsAbsent_ok_iff {users : Fields} :
    checkCreatorsAbsent users s = .ok () ↔ CreatorsAbsent create users := by
  unfold checkCreatorsAbsent CreatorsAbsent
  simp only [hcreate]
  cases hasField users create.sender with
  | true => simp
  | false =>
    cases (create.contentGet "additional_creators" (.arr [])).truthy with
    | false => simp
    | true =>
      simp only [Bool.false_eq_true,if_false,if_true,true_and,forall_const,bind_eq_ok]
      constructor
      · rintro ⟨entries,hentries,creators,hcreators,hok⟩
        refine ⟨entries,creators,hentries,hcreators,?_⟩
        split at hok
        · cases hok
        · rename_i hany
          exact Bool.not_eq_true _ ▸ hany
      · rintro ⟨entries,creators,hentries,hcreators,hany⟩
        refine ⟨entries,hentries,creators,hcreators,?_⟩
        rw [hany]
        rfl

theorem noAuthErrors_validatePowerLevels (roomVersion : RoomVersion) :
    NoAuthErrors (validatePowerLevels env roomVersion event s) := by
  have hitems : NoAuthErrors (event.contentGet "users" (.obj [])).items := by
    cases event.contentGet "users" (.obj []) <;> simp [Json.items]
  refine raisesOnly_bind.mpr ⟨hitems,fun users _ => ?_⟩
  rw [raisesOnly_check,raisesOnly_check]
  refine ⟨raisesOnly_forM fun entry _ => noAuthErrors_checkUserEntry entry,fun _ => ⟨?_,?_⟩⟩
  · simp [raisesOnly_ite]
  · intro _
    rw [raisesOnly_ite]
    exact ⟨fun _ => raisesOnly_forM fun field _ => noAuthErrors_checkIntLevels field,by simp⟩

include hcreate in
theorem validatePowerLevels_ok_iff (hlevels : event.type = "m.room.power_levels") :
    validatePowerLevels env event.roomVersion event s = .ok () ↔ PowerLevelsValid env event create := by
  unfold validatePowerLevels
  simp only [bind_eq_ok,Json.items_eq_ok,hlevels,true_and,Unique.exists_iff,PUnit.default_eq_unit,pure_eq,ite_eq_right_iff,forM_eq_ok,
    checkUserEntry_ok_iff,checkCreatorsAbsent_ok_iff hcreate,checkIntLevels_ok_iff,powerLevelsValid_iff,
    ← exists_and_right,and_assoc]

def levelsIn (content : Fields) (dir : Option String) : Json :=
  match dir with
  | some dir => (content.lookup dir).getD (.obj [])
  | none => .obj content

def readsLevel (env : Env) (loc level : Json) : Bool :=
  match loc,level with
  | .obj fields,.str name => (fields.lookup name).all (isLevel env)
  | .obj _,_ => true
  | .arr items,level => !items.any (·.sameKey level) ||
      match item (.arr items) level with
      | .ok v => isLevel env v
      | .error _ => false
  | .str text,.str part => !isSubstring part text
  | _,_ => false

theorem noAuthErrors_item (v key : Json) : NoAuthErrors (v.item key) := by
  have hitem : ∀ items n, NoAuthErrors (itemAt items n) := by
    intro items n
    unfold itemAt
    split
    · simp [raisesOnly_ite]
    · simp
  unfold item
  split <;> simp [hitem]

theorem noAuthErrors_contains (v key : Json) : NoAuthErrors (v.contains key) := by
  unfold Json.contains
  split <;> simp

@[simp] theorem noAuthErrors_levelAt (content : Fields) (level : Json) (dir : Option String) :
    NoAuthErrors (levelAt env content level dir) := by
  simp [levelAt,raisesOnly_bind,raisesOnly_ite,noAuthErrors_contains,noAuthErrors_item]

theorem onlyAuthErrors_levelAt {content : Fields} {level : Json} {dir : Option String} :
    RaisesOnly IsAuthError (levelAt env content level dir) ↔ readsLevel env (levelsIn content dir) level := by
  have hloc : levelAt env content level dir = (do
      let present ← (levelsIn content dir).contains level
      if present then
        let value ← (levelsIn content dir).item level
        let n ← value.toInt env.intOfString
        pure (some n)
      else pure none) := rfl
  have hvalue : ∀ v : Json, RaisesOnly IsAuthError (do
      let n ← v.toInt env.intOfString
      (pure (some n) : Except Error (Option ℤ))) ↔ isLevel env v := by
    intro v
    rw [raisesOnly_bind,onlyAuthErrors_toInt]
    simp
  rw [hloc]
  generalize levelsIn content dir = loc
  cases loc with
  | obj fields =>
    cases level with
    | str name =>
      simp only [Json.contains,hasField,item,fieldAt,readsLevel]
      cases fields.lookup name with
      | none => simp
      | some v => simpa using hvalue v
    | _ => simp [Json.contains,readsLevel]
  | arr items =>
    cases hany : items.any (·.sameKey level) with
    | false => simp [Json.contains,readsLevel,hany]
    | true =>
      simp only [Json.contains,readsLevel,hany]
      cases hitem : item (.arr items) level with
      | error e => simpa using noAuthErrors_item _ _ e hitem
      | ok v => simpa using hvalue v
  | str text =>
    cases level with
    | str part => cases h : isSubstring part text <;> simp [Json.contains,readsLevel,h,item]
    | _ => simp [Json.contains,readsLevel]
  | _ => simp [Json.contains,readsLevel]

def LevelReadable (env : Env) (event current : EventBase) (level : Json × Option String) : Prop :=
  readsLevel env (levelsIn current.content level.2) level.1 = true ∧
    readsLevel env (levelsIn event.content level.2) level.1 = true

variable {current : EventBase}

theorem onlyAuthErrors_checkLevel {userLevel : ℤ} {level : Json × Option String} :
    RaisesOnly IsAuthError (checkLevel env event current.content userLevel level) ↔
      LevelReadable env event current level := by
  unfold checkLevel LevelReadable
  rw [raisesOnly_bind,onlyAuthErrors_levelAt]
  apply and_congr_right
  intro hold
  obtain ⟨old,hold⟩ := exists_ok_of_raisesOnly (onlyAuthErrors_levelAt.mpr hold) (noAuthErrors_levelAt _ _ _)
  simp only [hold,raisesOnly_bind,onlyAuthErrors_levelAt]
  simp [raisesOnly_ite]

variable (roomVersion : RoomVersion) (oldContent newContent : Fields)

/-- `set(list(old_list) + list(new_list))`, before an order is chosen. -/
def levelKeys (dir : String) : Except Error (List Json) := do
  let old ← (levelsIn oldContent (some dir)).elements
  let new ← (levelsIn newContent (some dir)).elements
  hashSet (old ++ new)

theorem nestedLevels_eq (it : Iteration) (place : ℕ) (oldContent newContent : Fields)
    (dir : String) : nestedLevels it place oldContent newContent dir =
      (levelKeys oldContent newContent dir >>= fun keys =>
        pure ((it.order place keys).map fun key => (key,some dir))) := by
  unfold nestedLevels levelKeys levelsIn
  cases ((oldContent.lookup dir).getD (.obj [])).elements with
  | error e => rfl
  | ok old => cases ((newContent.lookup dir).getD (.obj [])).elements <;> rfl

@[simp] theorem noAuthErrors_levelKeys (dir : String) :
    NoAuthErrors (levelKeys oldContent newContent dir) := by
  simp [levelKeys,raisesOnly_bind]

def KeysReadable (dir : String) : Prop :=
  hasHashableElements (levelsIn oldContent (some dir)) = true ∧
    hasHashableElements (levelsIn newContent (some dir)) = true

theorem onlyAuthErrors_levelKeys {oldContent newContent : Fields} {dir : String} :
    RaisesOnly IsAuthError (levelKeys oldContent newContent dir) ↔ KeysReadable oldContent newContent dir := by
  have hhash : ∀ {vs set : List Json}, hashSet vs = .ok set → vs.all hashable :=
    fun h => onlyAuthErrors_hashSet.mp (raisesOnly_of_eq_ok h)
  have hnot : ∀ {vs : List Json}, hashSet vs = .error (.raised "TypeError") → vs.all hashable = false := by
    intro vs h
    cases hvs : vs.all hashable with
    | false => rfl
    | true => simpa [h] using onlyAuthErrors_hashSet.mpr hvs
  unfold levelKeys KeysReadable
  rcases elements_cases (levelsIn oldContent (some dir)) with
    ⟨hold,old,_,helements,hset⟩ | ⟨hold,herror | ⟨old,helements,hset⟩⟩
  · rcases elements_cases (levelsIn newContent (some dir)) with
      ⟨hnew,new,_,helements',hset'⟩ | ⟨hnew,herror' | ⟨new,helements',hset'⟩⟩
    · simp [hold,hnew,helements,helements',onlyAuthErrors_hashSet,hhash hset,
        hhash hset']
    · simp [hnew,helements,herror']
    · simp [hnew,helements,helements',onlyAuthErrors_hashSet,
        hnot hset']
  · simp [hold,herror]
  · cases hnew : (levelsIn newContent (some dir)).elements with
    | error e => simpa [hold,helements] using noAuthErrors_elements _ e hnew
    | ok new => simp [hold,helements,onlyAuthErrors_hashSet,all_append,hnot hset]

theorem raisesOnly_forM_order {P : Error → Prop} {α β : Type} {f : β → Except Error Unit}
    {g : α → β} {place : ℕ} {xs : List α} :
    (∀ it : Iteration, RaisesOnly P (((it.order place xs).map g).forM f)) ↔
      ∀ x ∈ xs, RaisesOnly P (f (g x)) := by
  constructor
  · intro h x hx
    obtain ⟨it,rest,hfirst⟩ := Iteration.exists_first hx place
    have hloop := h it
    rw [hfirst,map_cons,raisesOnly_forM_cons] at hloop
    exact hloop.1
  · intro h it
    apply raisesOnly_forM
    intro y hy
    obtain ⟨x,hx,rfl⟩ := mem_map.mp hy
    exact h x ((it.perm place xs).mem_iff.mp hx)

def NamesPass (env : Env) (event current : EventBase) (userLevel : ℤ) : Prop :=
  ∀ n ∈ levelNames, checkLevel env event current.content userLevel (.str n,none) = .ok ()

def KeysPass (env : Env) (event current : EventBase) (userLevel : ℤ) (dir : String) (keys : List Json) : Prop :=
  ∀ key ∈ keys, checkLevel env event current.content userLevel (key,some dir) = .ok ()

/-- The levels that are compared, for the sender's level: those with a name one after the other,
then the users, the events and the notifications, each in any order. -/
structure LevelsReadable (env : Env) (event current : EventBase) (userLevel : ℤ)
    (users events notifications : List Json) : Prop where
  named : ∀ pre name post, levelNames = pre ++ name :: post →
    (∀ n ∈ pre, checkLevel env event current.content userLevel (.str n,none) = .ok ()) →
    LevelReadable env event current (.str name,none)
  ofUsers : NamesPass env event current userLevel →
    ∀ key ∈ users, LevelReadable env event current (key,some "users")
  ofEvents : NamesPass env event current userLevel → KeysPass env event current userLevel "users" users →
    ∀ key ∈ events, LevelReadable env event current (key,some "events")
  ofNotifications : NamesPass env event current userLevel → KeysPass env event current userLevel "users" users →
    KeysPass env event current userLevel "events" events →
    ∀ key ∈ notifications, LevelReadable env event current (key,some "notifications")

theorem onlyAuthErrors_levels {userLevel : ℤ} {users events notifications : List Json} :
    (∀ it : Iteration, RaisesOnly IsAuthError ((levelNames.map (fun name => (Json.str name,none)) ++
        ((it.order 10 users).map fun key => (key,some "users")) ++
        ((it.order 11 events).map fun key => (key,some "events")) ++
        ((it.order 12 notifications).map fun key => (key,some "notifications"))).forM
          (checkLevel env event current.content userLevel))) ↔
      LevelsReadable env event current userLevel users events notifications := by
  have horder : ∀ (it : Iteration) (place : ℕ) (keys : List Json) (dir : String),
      (∀ level ∈ (it.order place keys).map (fun key => (key,some dir)),
        checkLevel env event current.content userLevel level = .ok ()) ↔
      KeysPass env event current userLevel dir keys := by
    intro it place keys dir
    simp [KeysPass,(it.perm place keys).mem_iff]
  have hnames : (∀ level ∈ levelNames.map (fun name => (Json.str name,(none : Option String))),
      checkLevel env event current.content userLevel level = .ok ()) ↔
      NamesPass env event current userLevel := by
    simp [NamesPass]
  have hkeys : ∀ {place : ℕ} {keys : List Json} {dir : String}, (∀ it : Iteration,
      RaisesOnly IsAuthError (((it.order place keys).map fun key => (key,some dir)).forM
        (checkLevel env event current.content userLevel))) ↔
      ∀ key ∈ keys, LevelReadable env event current (key,some dir) := by
    intro place keys dir
    simp only [raisesOnly_forM_order,onlyAuthErrors_checkLevel]
  simp only [raisesOnly_forM_append,forall_mem_append,hnames,horder,and_imp,forall_and,
    ← imp_forall_iff,hkeys]
  constructor
  · rintro ⟨⟨⟨hnamed,husers⟩,hevents⟩,hnotifications⟩
    refine ⟨fun pre name post heq hpre => ?_,husers,hevents,hnotifications⟩
    apply onlyAuthErrors_checkLevel.mp
    apply raisesOnly_forM_iff.mp (hnamed .listed) (pre.map fun name => (Json.str name,none)) (.str name,none)
      (post.map fun name => (Json.str name,none)) (by rw [heq]; simp)
    simpa only [forall_mem_map] using hpre
  · intro h
    refine ⟨⟨⟨fun _ => ?_,h.ofUsers⟩,h.ofEvents⟩,h.ofNotifications⟩
    rw [raisesOnly_forM_iff]
    intro pre level post heq hpre
    obtain ⟨pre',rest',hsplit,rfl,hrest⟩ := map_eq_append_iff.mp heq
    obtain ⟨name,post',rfl,rfl,rfl⟩ := map_eq_cons_iff.mp hrest
    apply onlyAuthErrors_checkLevel.mpr
    apply h.named pre' name post' hsplit
    simpa only [forall_mem_map] using hpre

def notificationKeys : Except Error (List Json) :=
  if roomVersion.limitNotificationsPowerLevels then
    levelKeys oldContent newContent "notifications"
  else pure []

theorem levelsToCheck_eq (it : Iteration) (roomVersion : RoomVersion)
    (oldContent newContent : Fields) : levelsToCheck it roomVersion oldContent newContent = (do
      let users ← levelKeys oldContent newContent "users"
      let events ← levelKeys oldContent newContent "events"
      let notifications ← notificationKeys roomVersion oldContent newContent
      pure (levelNames.map (fun name => (Json.str name,none)) ++
        ((it.order 10 users).map fun key => (key,some "users")) ++
        ((it.order 11 events).map fun key => (key,some "events")) ++
        ((it.order 12 notifications).map fun key => (key,some "notifications")))) := by
  have hnil : it.order 12 ([] : List Json) = [] := (it.perm 12 []).eq_nil
  unfold levelsToCheck notificationKeys
  simp only [nestedLevels_eq]
  cases levelKeys oldContent newContent "users" with
  | error e => rfl
  | ok users =>
    cases levelKeys oldContent newContent "events" with
    | error e => rfl
    | ok events =>
      split
      · cases levelKeys oldContent newContent "notifications" <;> rfl
      · simp [hnil]

@[simp] theorem noAuthErrors_notificationKeys :
    NoAuthErrors (notificationKeys roomVersion oldContent newContent) := by
  simp [notificationKeys,raisesOnly_ite]

theorem onlyAuthErrors_notificationKeys {roomVersion : RoomVersion} {oldContent newContent : Fields} :
    RaisesOnly IsAuthError (notificationKeys roomVersion oldContent newContent) ↔
      (roomVersion.limitNotificationsPowerLevels → KeysReadable oldContent newContent "notifications") := by
  simp [notificationKeys,raisesOnly_ite,onlyAuthErrors_levelKeys]

structure ComparisonReadable (env : Env) (event current : EventBase) (s : StateMap EventBase)
    (create : EventBase) : Prop where
  sender : UserLevelReadable env s create event.sender
  users : KeysReadable current.content event.content "users"
  events : KeysReadable current.content event.content "events"
  notifications : event.roomVersion.limitNotificationsPowerLevels = true →
    KeysReadable current.content event.content "notifications"
  levels : ∀ userLevel users events notifications, getUserPowerLevel env event.sender s = .ok userLevel →
    levelKeys current.content event.content "users" = .ok users →
    levelKeys current.content event.content "events" = .ok events →
    notificationKeys event.roomVersion current.content event.content = .ok notifications →
    LevelsReadable env event current userLevel users events notifications

include hcreate htype in
theorem onlyAuthErrors_comparePowerLevels : (∀ it : Iteration, RaisesOnly IsAuthError (comparePowerLevels env it event.roomVersion event current s)) ↔
      ComparisonReadable env event current s create := by
  constructor
  · intro h
    have hlisted := h .listed
    unfold comparePowerLevels at h hlisted
    obtain ⟨userLevel,huser,hlisted⟩ :=
      (raisesOnly_bind_iff (noAuthErrors_getUserPowerLevel _)).mp hlisted
    rw [levelsToCheck_eq,bind_assoc] at hlisted
    obtain ⟨users,husers,hlisted⟩ :=
      (raisesOnly_bind_iff (noAuthErrors_levelKeys _ _ _)).mp hlisted
    rw [bind_assoc] at hlisted
    obtain ⟨events,hevents,hlisted⟩ :=
      (raisesOnly_bind_iff (noAuthErrors_levelKeys _ _ _)).mp hlisted
    rw [bind_assoc] at hlisted
    obtain ⟨notifications,hnotifications,-⟩ :=
      (raisesOnly_bind_iff (noAuthErrors_notificationKeys _ _ _)).mp hlisted
    constructor
    · exact (onlyAuthErrors_getUserPowerLevel hcreate htype).mp (raisesOnly_of_eq_ok huser)
    · exact onlyAuthErrors_levelKeys.mp (raisesOnly_of_eq_ok husers)
    · exact onlyAuthErrors_levelKeys.mp (raisesOnly_of_eq_ok hevents)
    · exact onlyAuthErrors_notificationKeys.mp (raisesOnly_of_eq_ok hnotifications)
    · intro userLevel users events notifications huser husers hevents hnotifications
      apply onlyAuthErrors_levels.mp
      intro it
      have hloop := h it
      simpa only [levelsToCheck_eq,huser,husers,hevents,hnotifications,ok_bind,pure_eq] using hloop
  · intro h it
    obtain ⟨userLevel,huser⟩ := exists_ok_of_raisesOnly
      ((onlyAuthErrors_getUserPowerLevel hcreate htype).mpr h.sender)
      (noAuthErrors_getUserPowerLevel _)
    obtain ⟨users,husers⟩ := exists_ok_of_raisesOnly
      (onlyAuthErrors_levelKeys.mpr h.users) (noAuthErrors_levelKeys _ _ _)
    obtain ⟨events,hevents⟩ := exists_ok_of_raisesOnly
      (onlyAuthErrors_levelKeys.mpr h.events) (noAuthErrors_levelKeys _ _ _)
    obtain ⟨notifications,hnotifications⟩ := exists_ok_of_raisesOnly
      (onlyAuthErrors_notificationKeys.mpr h.notifications) (noAuthErrors_notificationKeys _ _ _)
    have hlevels := onlyAuthErrors_levels.mpr
      (h.levels userLevel users events notifications huser husers hevents hnotifications) it
    unfold comparePowerLevels
    simpa only [levelsToCheck_eq,huser,husers,hevents,hnotifications,ok_bind,pure_eq] using hlevels

def PowerLevelsReadable (env : Env) (event : EventBase) (s : StateMap EventBase) (create : EventBase) : Prop :=
  PowerLevelsValid env event create ∧ ∃ stateKey, event.stateKey = some stateKey ∧
    ∀ current, s.lookup (event.type,stateKey) = some current → ComparisonReadable env event current s create

include hcreate htype in
theorem onlyAuthErrors_checkPowerLevels (hlevels : event.type = "m.room.power_levels") :
    (∀ it : Iteration, RaisesOnly IsAuthError (checkPowerLevels env it event.roomVersion event s)) ↔
      PowerLevelsReadable env event s create := by
  have hstep : ∀ it : Iteration, RaisesOnly IsAuthError (checkPowerLevels env it event.roomVersion event s) ↔
      PowerLevelsValid env event create ∧ ∃ stateKey, event.stateKey = some stateKey ∧
        ∀ current, s.lookup (event.type,stateKey) = some current →
          RaisesOnly IsAuthError (comparePowerLevels env it event.roomVersion event current s) := by
    intro it
    unfold checkPowerLevels
    rw [raisesOnly_bind_iff (noAuthErrors_validatePowerLevels _)]
    simp only [validatePowerLevels_ok_iff hcreate hlevels,exists_const]
    apply and_congr_right
    intro _
    rw [raisesOnly_bind_iff (noAuthErrors_requireStateKey _)]
    simp only [requireStateKey_eq_ok]
    apply exists_congr
    intro stateKey
    apply and_congr_right
    intro _
    cases s.lookup (event.type,stateKey) <;> simp
  simp only [hstep,PowerLevelsReadable,← onlyAuthErrors_comparePowerLevels hcreate htype]
  constructor
  · intro h
    obtain ⟨hvalid,stateKey,hkey,-⟩ := h .listed
    refine ⟨hvalid,stateKey,hkey,?_⟩
    intro current hcurrent it
    obtain ⟨-,stateKey',hkey',hcompare⟩ := h it
    cases hkey.symm.trans hkey'
    exact hcompare current hcurrent
  · rintro ⟨hvalid,stateKey,hkey,hcompare⟩ it
    exact ⟨hvalid,stateKey,hkey,fun current hcurrent => hcompare current hcurrent it⟩

/-- What is read of a redaction: in the first room versions the domains of event IDs. -/
@[mk_iff] structure RedactionReadable (env : Env) (event : EventBase) (s : StateMap EventBase)
    (create : EventBase) : Prop where
  sender : UserLevelReadable env s create event.sender
  redact : NamedLevelReadable env s "redact"
  domains : ∀ userLevel redactLevel, getUserPowerLevel env event.sender s = .ok userLevel →
    getNamedLevel env s "redact" 50 = .ok redactLevel → userLevel < redactLevel →
    event.roomVersion.eventFormat = .roomV1V2 → hasDomain event.eventId = true ∧
      ∀ redacts, event.redacts = .str redacts → hasDomain redacts = true

theorem onlyAuthErrors_redactsDomain : RaisesOnly IsAuthError (do
    let redacterDomain ← getDomainFromId env event.eventId
    match event.redacts with
    | .str redacts =>
      let redacteeDomain ← getDomainFromId env redacts
      if redacterDomain = redacteeDomain then pure true
      else throw (authError 403 "You don't have permission to redact events")
    | _ => pure false) ↔ hasDomain event.eventId ∧
      ∀ redacts, event.redacts = .str redacts → hasDomain redacts := by
  apply raisesOnly_bind_and (noAuthErrors_getDomainFromId _) onlyAuthErrors_getDomainFromId
  intro redacterDomain
  cases event.redacts with
  | str redacts => simp [raisesOnly_bind,raisesOnly_ite,onlyAuthErrors_getDomainFromId]
  | _ => simp

include hcreate htype in
theorem onlyAuthErrors_checkRedaction :
    RaisesOnly IsAuthError (checkRedaction env event.roomVersion event s) ↔
      RedactionReadable env event s create := by
  refine (raisesOnly_bind₂ (C := fun userLevel redactLevel => userLevel < redactLevel →
    event.roomVersion.eventFormat = .roomV1V2 → hasDomain event.eventId ∧
      ∀ redacts, event.redacts = .str redacts → hasDomain redacts)
    (noAuthErrors_getUserPowerLevel _) (onlyAuthErrors_getUserPowerLevel hcreate htype)
    onlyAuthErrors_getNamedLevel ?_).trans (redactionReadable_iff ..).symm
  intro userLevel redactLevel
  rw [raisesOnly_ite,raisesOnly_ite,and_iff_right (by simp)]
  exact imp_congr not_le ((and_iff_left (by simp)).trans (imp_congr_right fun _ => onlyAuthErrors_redactsDomain))

end room

end TextrpBriij.EventAuth
