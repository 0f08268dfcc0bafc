import TextrpBriij.EventAuth.Membership

/-! # What a change of the power levels can do

The levels are compared entry by entry. A user without an entry of the new event gets the
default level, which the sender may not have raised, but which may be above the sender.
-/
namespace TextrpBriij.EventAuth
open Api Python Events Fallible List Option
open State (StateMap Iteration)

variable {env : Env} {it : Iteration} {event : EventBase} {authEvents : StateMap EventBase}
  {roomVersion : RoomVersion}

variable {oldContent content users : Fields} {senderLevel n before : ℤ}

theorem checkLevel_ok {level : Json × Option String}
    (h : checkLevel env event oldContent senderLevel level = .ok ()) :
    ∃ old new, levelAt env oldContent level.1 level.2 = .ok old ∧
      levelAt env event.content level.1 level.2 = .ok new ∧
      (new = old ∨ (∀ n ∈ new, n ≤ senderLevel) ∧ ∀ n ∈ old, n ≤ senderLevel) := by
  obtain ⟨old,hold,h⟩ := bind_eq_ok.mp h
  obtain ⟨new,hnew,h⟩ := bind_eq_ok.mp h
  refine ⟨old,new,hold,hnew,?_⟩
  split at h
  · rename_i hsame
    exact .inl hsame.2
  split at h
  · cases h
  split at h
  · cases h
  · rename_i hbig
    simp only [not_or,Option.any_eq_true,not_exists,not_and,decide_eq_true_eq,not_lt] at hbig
    exact .inr ⟨hbig.2,hbig.1⟩

theorem levelAt_none {name : String} : levelAt env content (.str name) none =
      match content.lookup name with
      | none => .ok none
      | some v => (v.toInt env.intOfString).map some := by
  unfold levelAt
  cases hv : content.lookup name with
  | none => simp [Json.contains,hasField,hv]
  | some v =>
    simp only [Json.contains,hasField,hv,Json.item,fieldAt,pure_eq,ok_bind]
    rfl

variable {user : String}

theorem levelAt_users (husers : (content.lookup "users").getD (.obj []) = .obj users) :
    levelAt env content (.str user) (some "users") = levelAt env users (.str user) none := by
  unfold levelAt
  simp only [husers]

structure Checked (env : Env) (event : EventBase) (oldContent : Fields) (senderLevel : ℤ) :
    Prop where
  users : ∃ users, event.contentGet "users" (.obj []) = .obj users ∧
    (∀ entry ∈ users, ∃ n, entry.2.toInt env.intOfString = .ok n) ∧
    ∀ entry ∈ users, checkLevel env event oldContent senderLevel (.str entry.1,some "users") = .ok ()
  names : ∀ name ∈ levelNames, checkLevel env event oldContent senderLevel (.str name,none) = .ok ()

theorem mem_levelsToCheck {newContent : Fields} {levels : List (Json × Option String)}
    (husers : (newContent.lookup "users").getD (.obj []) = .obj users)
    (h : levelsToCheck it roomVersion oldContent newContent = .ok levels) :
    (∀ entry ∈ users, (.str entry.1,some "users") ∈ levels) ∧
      ∀ name ∈ levelNames, (.str name,none) ∈ levels := by
  obtain ⟨userLevels,hnested,h⟩ := bind_eq_ok.mp h
  obtain ⟨eventLevels,-,h⟩ := bind_eq_ok.mp h
  obtain ⟨notificationLevels,-,h⟩ := bind_eq_ok.mp h
  cases h
  constructor
  · intro entry hentry
    obtain ⟨old,-,hnested⟩ := bind_eq_ok.mp hnested
    obtain ⟨new,hnew,hnested⟩ := bind_eq_ok.mp hnested
    obtain ⟨keys,hkeys,hnested⟩ := bind_eq_ok.mp hnested
    cases hnested
    rw [husers] at hnew
    cases hnew
    have hkey : Json.str entry.1 ∈ keys := str_mem_hashSet hkeys
      (mem_append_right _ (mem_map.mpr ⟨entry,hentry,rfl⟩))
    have hordered := (it.perm 10 keys).mem_iff.mpr hkey
    simp only [mem_append]
    exact .inl (.inl (.inr (mem_map.mpr ⟨_,hordered,rfl⟩)))
  · intro name hname
    simp only [mem_append]
    exact .inl (.inl (.inl (mem_map.mpr ⟨name,hname,rfl⟩)))

theorem checkPowerLevels_ok {stateKey : String} {currentState : EventBase}
    (hkey : event.stateKey = some stateKey)
    (hcurrent : authEvents.lookup (event.type,stateKey) = some currentState)
    (h : checkPowerLevels env it roomVersion event authEvents = .ok ()) :
    ∃ senderLevel, getUserPowerLevel env event.sender authEvents = .ok senderLevel ∧
      Checked env event currentState.content senderLevel := by
  obtain ⟨_,hvalid,h⟩ := bind_eq_ok.mp h
  obtain ⟨stateKey',hkey',h⟩ := bind_eq_ok.mp h
  rw [requireStateKey_eq_ok,hkey] at hkey'
  cases hkey'
  simp only [hcurrent] at h
  obtain ⟨users,husers,hvalid⟩ := bind_eq_ok.mp hvalid
  obtain ⟨_,hentries,-⟩ := bind_eq_ok.mp hvalid
  obtain ⟨senderLevel,hlevel,h⟩ := bind_eq_ok.mp h
  obtain ⟨levels,hlevels,h⟩ := bind_eq_ok.mp h
  have hall := forM_eq_ok.mp h
  have hobj := Json.items_eq_ok.mp husers
  obtain ⟨husersLevels,hnames⟩ := mem_levelsToCheck hobj hlevels
  refine ⟨senderLevel,hlevel,⟨users,hobj,?_,?_⟩,?_⟩
  · intro entry hentry
    have hcheck := forM_eq_ok.mp hentries entry hentry
    unfold checkUserEntry at hcheck
    split at hcheck
    · cases hcheck
    · cases hn : entry.2.toInt env.intOfString with
      | ok n => exact ⟨n,rfl⟩
      | error e =>
        rw [hn] at hcheck
        cases hcheck
  · exact fun entry hentry => hall _ (husersLevels entry hentry)
  · exact fun name hname => hall _ (hnames name hname)

theorem isNone_of_toInt {v : Json} (h : v.toInt env.intOfString = .ok n) : v.isNone = false := by
  cases v with
  | null => cases h
  | _ => rfl

theorem usersDefault_of_levelAt {level : Option ℤ}
    (h : levelAt env content (.str "users_default") none = .ok level) :
    usersDefault env content = .ok (level.getD 0) := by
  rw [levelAt_none] at h
  unfold usersDefault
  cases hv : content.lookup "users_default" with
  | none =>
    rw [hv] at h
    cases h
    rfl
  | some v =>
    simp only [hv] at h
    cases hn : v.toInt env.intOfString with
    | error e =>
      rw [hn] at h
      cases h
    | ok n =>
      rw [hn] at h
      cases h
      simp [isNone_of_toInt hn,hn]

theorem userLevel_of_users (husers : (content.lookup "users").getD (.obj []) = .obj users) :
    userLevel env content user =
      if ((users.lookup user).getD .null).isNone then usersDefault env content
      else ((users.lookup user).getD .null).toInt env.intOfString := by
  simp [userLevel,husers,Json.get]

theorem exists_users_of_userLevel (h : userLevel env content user = .ok n) :
    ∃ users, (content.lookup "users").getD (.obj []) = .obj users := by
  obtain ⟨level,hlevel,-⟩ := bind_eq_ok.mp h
  cases hcontent : (content.lookup "users").getD (.obj []) with
  | obj users => exact ⟨users,rfl⟩
  | _ =>
    rw [hcontent] at hlevel
    cases hlevel

theorem mem_of_lookup {fields : Fields} {key : String} {v : Json}
    (h : fields.lookup key = some v) : (key,v) ∈ fields := by
  obtain ⟨l₁,l₂,hfields,-⟩ := lookup_eq_some_iff.mp h
  rw [hfields]
  simp

theorem Checked.usersDefault_le (h : Checked env event oldContent senderLevel) :
    ∃ old new, usersDefault env oldContent = .ok old ∧
      usersDefault env event.content = .ok new ∧ new ≤ max senderLevel (max old 0) := by
  obtain ⟨old,new,hold,hnew,hcase⟩ := checkLevel_ok (h.names "users_default" (by decide))
  refine ⟨old.getD 0,new.getD 0,usersDefault_of_levelAt hold,usersDefault_of_levelAt hnew,?_⟩
  rcases hcase with rfl | hle
  · omega
  · cases new with
    | none => simp
    | some n =>
      have := hle.1 n rfl
      simp only [getD_some]
      omega

theorem Checked.userLevel_le (h : Checked env event oldContent senderLevel)
    (hbefore : userLevel env oldContent user = .ok before) :
    ∃ after default, userLevel env event.content user = .ok after ∧ usersDefault env oldContent = .ok default ∧
      after ≤ max (max before senderLevel) (max default 0) := by
  obtain ⟨old,new,hold,hnew,hle⟩ := h.usersDefault_le
  obtain ⟨users,husers,hints,hlevels⟩ := h.users
  obtain ⟨oldUsers,holdUsers⟩ := exists_users_of_userLevel hbefore
  rw [userLevel_of_users husers]
  rw [userLevel_of_users holdUsers] at hbefore
  cases hentry : users.lookup user with
  | none =>
    refine ⟨new,old,?_,hold,by omega⟩
    simpa [Json.isNone] using hnew
  | some v =>
    have hmem := mem_of_lookup hentry
    obtain ⟨n,hn⟩ := hints _ hmem
    have hafter : (if (getD (some v) Json.null).isNone then usersDefault env event.content
        else (getD (some v) Json.null).toInt env.intOfString) = .ok n := by
      simp [isNone_of_toInt hn,hn]
    refine ⟨n,old,hafter,hold,?_⟩
    obtain ⟨oldEntry,newEntry,holdEntry,hnewEntry,hcase⟩ := checkLevel_ok (hlevels _ hmem)
    simp only [levelAt_users husers,levelAt_users holdUsers,levelAt_none,hentry] at holdEntry hnewEntry
    rw [hn] at hnewEntry
    cases hnewEntry
    rcases hcase with hsame | hle
    · -- The entry is as it was, so it was the level of the user.
      subst hsame
      cases holdLookup : oldUsers.lookup user with
      | none =>
        rw [holdLookup] at holdEntry
        cases holdEntry
      | some w =>
        simp only [holdLookup] at holdEntry hbefore
        cases hw : w.toInt env.intOfString with
        | error e =>
          rw [hw] at holdEntry
          cases holdEntry
        | ok m =>
          rw [hw] at holdEntry
          obtain rfl : m = n := by simpa [Except.map] using holdEntry
          have hm : m = before := by simpa [isNone_of_toInt hw,hw] using hbefore
          omega
    · have := hle.1 n rfl
      omega

theorem checkPowerLevels_of_accepted {events : List EventBase}
    (hstate : authDict events = .ok authEvents) (htype : event.type = "m.room.power_levels")
    (h : checkStateDependentAuthRules env it event events = .ok ()) :
    checkPowerLevels env it event.roomVersion event authEvents = .ok () := by
  obtain ⟨state,-,hstate',-,-,hrules⟩ :=
    checkStateDependentAuthRules_ok (by rw [htype]; decide) h
  cases hstate.symm.trans hstate'
  unfold checkByType at hrules
  rw [htype] at hrules
  obtain ⟨-,-,hrules⟩ := bind_eq_ok.mp hrules
  obtain ⟨-,-,hrules⟩ := bind_eq_ok.mp hrules
  exact hrules

theorem getUserPowerLevel_insert {old : EventBase} (hold : authEvents.lookup powerLevelsKey = some old)
    (h : getUserPowerLevel env user authEvents = .ok before) :
    getUserPowerLevel env user (authEvents.insert powerLevelsKey event) = .ok before ∨
      userLevel env old.content user = .ok before ∧
      getUserPowerLevel env user (authEvents.insert powerLevelsKey event) =
        userLevel env event.content user := by
  have hne : createKey ≠ powerLevelsKey := by decide
  unfold getUserPowerLevel getPowerLevelEvent at h ⊢
  rw [AList.lookup_insert_ne hne]
  cases hcreate : authEvents.lookup createKey with
  | none =>
    rw [hcreate] at h
    cases h
  | some createEvent =>
    simp only [hcreate,hold] at h ⊢
    obtain ⟨creator,hcreator,h⟩ := bind_eq_ok.mp h
    rw [hcreator]
    cases creator with
    | true => exact .inl h
    | false => exact .inr ⟨h,rfl⟩

/-- Under an accepted change of the power levels no user gets above the level they had, the
level of the sender, the default level there was, and 0. -/
theorem power_levels_bounded (env : Env) (it : Iteration) (event : EventBase)
    (events : List EventBase) (state : StateMap EventBase) (hstate : authDict events = .ok state)
    (old : EventBase) (hold : state.lookup powerLevelsKey = some old)
    (htype : event.type = "m.room.power_levels") (hkey : event.stateKey = some "")
    (hok : checkStateDependentAuthRules env it event events = .ok ()) (user : String)
    (before : ℤ) (hbefore : getUserPowerLevel env user state = .ok before) :
    ∃ senderLevel default after, getUserPowerLevel env event.sender state = .ok senderLevel ∧
      usersDefault env old.content = .ok default ∧
      getUserPowerLevel env user (state.insert powerLevelsKey event) = .ok after ∧
      after ≤ max (max before senderLevel) (max default 0) := by
  have hcheck := checkPowerLevels_of_accepted hstate htype hok
  have hcurrent : state.lookup (event.type,"") = some old := by rw [htype]; exact hold
  obtain ⟨senderLevel,hsender,hchecked⟩ := checkPowerLevels_ok hkey hcurrent hcheck
  rcases getUserPowerLevel_insert hold hbefore with hsame | ⟨hlevel,hafter⟩
  · obtain ⟨default,-,hdefault,-,-⟩ := hchecked.usersDefault_le
    exact ⟨senderLevel,default,before,hsender,hdefault,hsame,by omega⟩
  · obtain ⟨after,default,hnew,hdefault,hle⟩ := hchecked.userLevel_le hlevel
    exact ⟨senderLevel,default,after,hsender,hdefault,hafter.trans hnew,hle⟩

/-! A room where everyone may change the power levels, and the default is above one user. -/

def lowUserLevels (users : Fields) : EventBase :=
  plainEvent "$levels" "m.room.power_levels" "" "@alice:s" [("users",.obj users),
    ("users_default",.int 50),("events",.obj [("m.room.power_levels",.int 0)])]

def lowUserRoom : List EventBase :=
  [createdByAlice,memberEvent "$1" "@alice:s" "@alice:s" "join", lowUserLevels [("@alice:s",.int 10)]]

def lowUserState : StateMap EventBase :=
  (((∅ : StateMap EventBase).insert createKey createdByAlice).insert (memberKey "@alice:s")
    (memberEvent "$1" "@alice:s" "@alice:s" "join")).insert powerLevelsKey
      (lowUserLevels [("@alice:s",.int 10)])

theorem power_levels_bounded_bob :
    checkStateDependentAuthRules plainEnv .listed
        (lowUserLevels [("@alice:s",.int 10),("@bob:s",.int 5)]) lowUserRoom = .ok () ∧
      ∃ senderLevel default after,
        getUserPowerLevel plainEnv "@alice:s" lowUserState = .ok senderLevel ∧
        usersDefault plainEnv (lowUserLevels [("@alice:s",.int 10)]).content = .ok default ∧
        getUserPowerLevel plainEnv "@bob:s" (lowUserState.insert powerLevelsKey
          (lowUserLevels [("@alice:s",.int 10),("@bob:s",.int 5)])) = .ok after ∧
        after ≤ max (max 50 senderLevel) (max default 0) :=
  ⟨rfl,power_levels_bounded plainEnv .listed
    (lowUserLevels [("@alice:s",.int 10),("@bob:s",.int 5)]) lowUserRoom lowUserState rfl
    (lowUserLevels [("@alice:s",.int 10)]) rfl rfl rfl rfl "@bob:s" 50 rfl⟩

/-- The sender drops the own entry and gets the default level, which is higher. -/
theorem power_level_rises :
    authDict lowUserRoom = .ok lowUserState ∧
      checkStateDependentAuthRules plainEnv .listed (lowUserLevels []) lowUserRoom = .ok () ∧
      getUserPowerLevel plainEnv "@alice:s" lowUserState = .ok 10 ∧
      getUserPowerLevel plainEnv "@alice:s"
        (lowUserState.insert powerLevelsKey (lowUserLevels [])) = .ok 50 :=
  ⟨rfl,rfl,rfl,rfl⟩

end TextrpBriij.EventAuth
