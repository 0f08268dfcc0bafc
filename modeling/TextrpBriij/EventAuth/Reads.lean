import TextrpBriij.EventAuth.PowerLevels

/-! # Values that can be read

The rules read contents that may hold any JSON value. For each function that reads a value there
is a condition on the data, which holds exactly if the function does not raise an exception
other than `AuthError`.
-/
namespace TextrpBriij.EventAuth
open Api Python Events Fallible
open State (StateMap Iteration)
open Json (hashable toInt)

/-- The error that state resolution takes for a rejection. -/
def IsAuthError : Error → Prop
  | .authError _ _ _ => True
  | _ => False

@[simp] theorem isAuthError_authError (code : ℕ) (msg : String) :
    IsAuthError (authError code msg) := trivial
@[simp] theorem isAuthError_unstable (msg : String) (errcode : Codes) :
    IsAuthError (unstableSpecAuthError msg errcode) := trivial
@[simp] theorem not_isAuthError_raised (cls : String) : ¬IsAuthError (.raised cls) := id
@[simp] theorem not_isAuthError_synapseError (code : ℕ) (msg : String) (errcode : Codes) :
    ¬IsAuthError (.synapseError code msg errcode) := id

/-- A read that fails is no rejection. -/
abbrev NoAuthErrors {α : Type} (m : Except Error α) : Prop := RaisesOnly (fun e => ¬IsAuthError e) m

variable {env : Env} {s : StateMap EventBase} {create : EventBase}

/-- `int(value)` returns. -/
def isLevel (env : Env) : Json → Bool
  | .int _ => true
  | .bool _ => true
  | .float _ => true
  | .str s => (env.intOfString s).isSome
  | _ => false

def isLevelOrNull (env : Env) (v : Json) : Bool := v.isNone || isLevel env v

def hasHashableElements : Json → Bool
  | .obj _ => true
  | .str _ => true
  | .arr items => items.all hashable
  | _ => false

theorem onlyAuthErrors_toInt {v : Json} : RaisesOnly IsAuthError (v.toInt env.intOfString) ↔ isLevel env v := by
  cases v with
  | str s => cases h : env.intOfString s <;> simp [toInt,isLevel,h]
  | _ => simp [toInt,isLevel]

theorem isLevel_iff {v : Json} : isLevel env v ↔ ∃ n, v.toInt env.intOfString = .ok n := by
  cases v with
  | str s => cases h : env.intOfString s <;> simp [toInt,isLevel,h]
  | _ => simp [toInt,isLevel]

theorem onlyAuthErrors_fieldAt {fields : Fields} {key : String} :
    RaisesOnly IsAuthError (fieldAt fields key) ↔ hasField fields key := by
  unfold fieldAt hasField
  cases fields.lookup key <;> simp

theorem onlyAuthErrors_hashSet {vs : List Json} :
    RaisesOnly IsAuthError (hashSet vs) ↔ vs.all hashable := by
  unfold hashSet
  split <;> simp [*]

theorem elements_cases (v : Json) : (hasHashableElements v ∧
      ∃ entries set, v.elements = .ok entries ∧ hashSet entries = .ok set) ∨
    hasHashableElements v = false ∧ (v.elements = .error (.raised "TypeError") ∨
      ∃ entries, v.elements = .ok entries ∧ hashSet entries = .error (.raised "TypeError")) := by
  have hset : ∀ vs : List Json, vs.all hashable → ∃ set, hashSet vs = .ok set := by
    intro vs hvs
    rw [hashSet,if_pos hvs]
    exact ⟨_,rfl⟩
  cases v with
  | obj fields =>
    obtain ⟨set,hset⟩ := hset (fields.map fun f => .str f.1) (by simp [hashable])
    exact .inl ⟨rfl,_,set,rfl,hset⟩
  | str text =>
    obtain ⟨set,hset⟩ := hset (text.toList.map fun c => .str (String.ofList [c])) (by simp [hashable])
    exact .inl ⟨rfl,_,set,rfl,hset⟩
  | arr items =>
    cases hitems : items.all hashable with
    | true =>
      obtain ⟨set,hset⟩ := hset items hitems
      exact .inl ⟨hitems,items,set,rfl,hset⟩
    | false =>
      refine .inr ⟨hitems,.inr ⟨items,rfl,?_⟩⟩
      rw [hashSet,hitems]
      rfl
  | _ => exact .inr ⟨rfl,.inl rfl⟩

theorem onlyAuthErrors_lookupJson {type : String} {key : Json} :
    RaisesOnly IsAuthError (lookupJson s type key) ↔ key.hashable := by
  cases key <;> simp [lookupJson,hashable]

def hasDomain (id : String) : Bool := ':' ∈ id.toList

theorem onlyAuthErrors_getDomainFromId {id : String} :
    RaisesOnly IsAuthError (getDomainFromId env id) ↔ hasDomain id := by
  unfold getDomainFromId hasDomain
  cases h : id.toList.dropWhile (· ≠ ':') with
  | nil =>
    rw [List.dropWhile_eq_nil_iff] at h
    have hnot : ':' ∉ id.toList := fun hmem => by simpa using h ':' hmem
    simp [hnot]
  | cons c rest =>
    have hmem : ':' ∈ id.toList := by
      by_contra hnot
      have hall : id.toList.dropWhile (· ≠ ':') = [] := by
        rw [List.dropWhile_eq_nil_iff]
        intro d hd
        simp only [decide_eq_true_eq]
        rintro rfl
        exact hnot hd
      rw [hall] at h
      cases h
    simp [hmem]

theorem onlyAuthErrors_requireStateKey {event : EventBase} :
    RaisesOnly IsAuthError event.requireStateKey ↔ event.stateKey.isSome := by
  unfold EventBase.requireStateKey
  split <;> simp [*]

def MemberReadable (member : Option EventBase) : Prop :=
  ∀ m, member = some m → hasField m.content "membership" = true

variable {name userId : String}

theorem onlyAuthErrors_memberIs {member : Option EventBase} :
    RaisesOnly IsAuthError (memberIs member name) ↔ MemberReadable member := by
  cases member with
  | none => simp [memberIs,MemberReadable]
  | some m =>
    simp [memberIs,MemberReadable,raisesOnly_bind,EventBase.membership,onlyAuthErrors_fieldAt]

theorem onlyAuthErrors_checkJoinedRoom {member : Option EventBase} {user : Json} {roomId : String} :
    RaisesOnly IsAuthError (checkJoinedRoom env member user roomId) ↔ MemberReadable member := by
  unfold checkJoinedRoom
  rw [raisesOnly_bind,onlyAuthErrors_memberIs]
  simp [raisesOnly_ite]

theorem onlyAuthErrors_usersDefault {content : Fields} : RaisesOnly IsAuthError (usersDefault env content) ↔
      isLevelOrNull env ((content.lookup "users_default").getD (.int 0)) := by
  unfold usersDefault isLevelOrNull
  rw [raisesOnly_ite,onlyAuthErrors_toInt]
  cases ((content.lookup "users_default").getD (.int 0)).isNone <;> simp

def readsUserLevel (env : Env) (content : Fields) (userId : String) : Bool :=
  match (content.lookup "users").getD (.obj []) with
  | .obj users =>
    let level := (users.lookup userId).getD .null
    if level.isNone then isLevelOrNull env ((content.lookup "users_default").getD (.int 0))
    else isLevel env level
  | _ => false

theorem onlyAuthErrors_userLevel {content : Fields} :
    RaisesOnly IsAuthError (userLevel env content userId) ↔ readsUserLevel env content userId := by
  unfold userLevel readsUserLevel
  cases (content.lookup "users").getD (.obj []) with
  | obj users =>
    simp only [Json.get,pure_eq,ok_bind]
    split
    · exact onlyAuthErrors_usersDefault
    · exact onlyAuthErrors_toInt
  | _ => simp [Json.get]

def CreatorsReadable (create : EventBase) (userId : String) : Prop :=
  create.roomVersion.msc4289CreatorPowerEnabled → create.sender ≠ userId →
    hasHashableElements (create.contentGet "additional_creators" (.arr [])) = true

theorem isCreator_cases (htype : create.type = "m.room.create") (userId : String) :
    CreatorsReadable create userId ∧ (∃ b, isCreator create userId = .ok b) ∨
      ¬CreatorsReadable create userId ∧ ∃ cls, isCreator create userId = .error (.raised cls) := by
  unfold isCreator CreatorsReadable
  by_cases hsender : create.sender = userId
  · exact .inl ⟨by simp [hsender],true,by simp [htype,hsender]⟩
  by_cases hversion : create.roomVersion.msc4289CreatorPowerEnabled
  · simp only [htype,hsender,hversion,if_true,if_false,ne_eq,not_true_eq_false,pure_eq,forall_const]
    rcases elements_cases (create.contentGet "additional_creators" (.arr [])) with
      ⟨hreadable,entries,set,hentries,hset⟩ | ⟨hreadable,herror⟩
    · simp [hreadable,hentries,hset]
    · rcases herror with hentries | ⟨entries,hentries,hset⟩
      · simp [hreadable,hentries]
      · simp [hreadable,hentries,hset]
  · exact .inl ⟨by simp [hversion],false,by simp [htype,hsender,hversion]⟩

def IsRoomCreator (create : EventBase) (userId : String) : Prop :=
  create.roomVersion.msc4289CreatorPowerEnabled = true ∧ isCreator create userId = .ok true

def UserLevelReadable (env : Env) (s : StateMap EventBase) (create : EventBase) (userId : String) : Prop :=
  CreatorsReadable create userId ∧ (¬IsRoomCreator create userId →
    match s.lookup powerLevelsKey with
    | some powerLevels => readsUserLevel env powerLevels.content userId = true
    | none => create.roomVersion.implicitRoomCreator = true ∨
        hasField create.content "creator" = true)

theorem onlyAuthErrors_getUserPowerLevel
    (hcreate : s.lookup createKey = some create) (htype : create.type = "m.room.create") :
    RaisesOnly IsAuthError (getUserPowerLevel env userId s) ↔ UserLevelReadable env s create userId := by
  have hlevel : RaisesOnly IsAuthError (match getPowerLevelEvent s with
      | some powerLevelEvent => userLevel env powerLevelEvent.content userId
      | none => creatorLevel create userId) ↔ match s.lookup powerLevelsKey with
      | some powerLevels => readsUserLevel env powerLevels.content userId
      | none => create.roomVersion.implicitRoomCreator ∨
          hasField create.content "creator" := by
    unfold getPowerLevelEvent
    cases s.lookup powerLevelsKey with
    | some powerLevels => exact onlyAuthErrors_userLevel
    | none =>
      simp only [creatorLevel]
      cases create.roomVersion.implicitRoomCreator with
      | true => simp
      | false => simp [raisesOnly_bind,onlyAuthErrors_fieldAt]
  unfold getUserPowerLevel UserLevelReadable
  simp only [hcreate]
  by_cases hversion : create.roomVersion.msc4289CreatorPowerEnabled
  · rw [if_pos hversion]
    rcases isCreator_cases htype userId with ⟨hreadable,b,hb⟩ | ⟨hreadable,cls,hcls⟩
    · simp only [hb,hreadable,true_and,IsRoomCreator,hversion,Except.ok.injEq]
      cases b with
      | true => simp
      | false =>
        simp only [Bool.false_eq_true,not_false_eq_true,forall_const]
        exact hlevel
    · simp [hcls,hreadable]
  · simp only [hversion]
    have hnot : ¬IsRoomCreator create userId := fun h => hversion h.1
    have hcreators : CreatorsReadable create userId := fun h => absurd h hversion
    simp only [hnot,hcreators,not_false_eq_true,forall_const,true_and]
    exact hlevel

def NamedLevelReadable (env : Env) (s : StateMap EventBase) (name : String) : Prop :=
  ∀ powerLevels, s.lookup powerLevelsKey = some powerLevels →
    isLevelOrNull env (powerLevels.contentGet name .null) = true

theorem onlyAuthErrors_getNamedLevel {default : ℤ} :
    RaisesOnly IsAuthError (getNamedLevel env s name default) ↔ NamedLevelReadable env s name := by
  unfold getNamedLevel NamedLevelReadable getPowerLevelEvent
  cases s.lookup powerLevelsKey with
  | none => simp
  | some powerLevels =>
    simp only [Option.some.injEq,forall_eq',raisesOnly_ite,onlyAuthErrors_toInt,isLevelOrNull]
    cases (powerLevels.contentGet name .null).isNone <;> simp

def readsSendLevel (env : Env) (content : Fields) (etype : String) (isState : Bool) : Bool :=
  match (content.lookup "events").getD (.obj []) with
  | .obj events =>
    let level := (events.lookup etype).getD .null
    isLevel env (if level.isNone then
        if isState then (content.lookup "state_default").getD (.int 50)
        else (content.lookup "events_default").getD (.int 0)
      else level)
  | _ => false

def levelsContent (s : StateMap EventBase) : Fields :=
  ((getPowerLevelEvent s).map EventBase.content).getD []

theorem onlyAuthErrors_getSendLevel {etype : String} {stateKey : Option String} :
    RaisesOnly IsAuthError (getSendLevel env etype stateKey (getPowerLevelEvent s)) ↔
      readsSendLevel env (levelsContent s) etype stateKey.isSome := by
  simp only [getSendLevel,readsSendLevel,levelsContent]
  generalize ((getPowerLevelEvent s).map EventBase.content).getD [] = content
  cases (content.lookup "events").getD (.obj []) with
  | obj events =>
    exact onlyAuthErrors_toInt
  | _ => simp [Json.get]

section reading

@[simp] theorem noAuthErrors_toInt (v : Json) : NoAuthErrors (v.toInt env.intOfString) := by
  cases v with
  | str text => cases h : env.intOfString text <;> simp [toInt,h]
  | _ => simp [toInt]

@[simp] theorem noAuthErrors_fieldAt (fields : Fields) (key : String) :
    NoAuthErrors (fieldAt fields key) := by
  unfold fieldAt
  cases fields.lookup key <;> simp

@[simp] theorem noAuthErrors_get (v : Json) (key : String) (default : Json) :
    NoAuthErrors (v.get key default) := by
  cases v <;> simp [Json.get]

@[simp] theorem noAuthErrors_elements (v : Json) : NoAuthErrors v.elements := by
  cases v <;> simp [Json.elements]

@[simp] theorem noAuthErrors_hashSet (vs : List Json) : NoAuthErrors (hashSet vs) := by
  unfold hashSet
  split <;> simp

@[simp] theorem noAuthErrors_getDomainFromId (id : String) :
    NoAuthErrors (getDomainFromId env id) := by
  unfold getDomainFromId
  split <;> simp

@[simp] theorem noAuthErrors_requireStateKey (event : EventBase) :
    NoAuthErrors event.requireStateKey := by
  unfold EventBase.requireStateKey
  split <;> simp

@[simp] theorem noAuthErrors_memberIs (member : Option EventBase) (name : String) :
    NoAuthErrors (memberIs member name) := by
  cases member <;> simp [memberIs,raisesOnly_bind,EventBase.membership]

@[simp] theorem noAuthErrors_isCreator (userId : String) :
    NoAuthErrors (isCreator create userId) := by
  simp [isCreator,raisesOnly_bind,raisesOnly_ite]

@[simp] theorem noAuthErrors_usersDefault (content : Fields) :
    NoAuthErrors (usersDefault env content) := by
  simp [usersDefault,raisesOnly_ite]

@[simp] theorem noAuthErrors_userLevel (content : Fields) (userId : String) :
    NoAuthErrors (userLevel env content userId) := by
  simp [userLevel,raisesOnly_bind,raisesOnly_ite]

@[simp] theorem noAuthErrors_creatorLevel (userId : String) :
    NoAuthErrors (creatorLevel create userId) := by
  simp [creatorLevel,raisesOnly_bind,raisesOnly_ite]

@[simp] theorem noAuthErrors_getUserPowerLevel (userId : String) :
    NoAuthErrors (getUserPowerLevel env userId s) := by
  unfold getUserPowerLevel
  cases s.lookup createKey with
  | none => simp
  | some create =>
    cases getPowerLevelEvent s <;> simp [raisesOnly_bind,raisesOnly_ite]

@[simp] theorem noAuthErrors_getNamedLevel (name : String) (default : ℤ) :
    NoAuthErrors (getNamedLevel env s name default) := by
  unfold getNamedLevel
  cases getPowerLevelEvent s <;> simp [raisesOnly_ite]

@[simp] theorem noAuthErrors_getSendLevel (etype : String) (stateKey : Option String)
    (powerLevels : Option EventBase) :
    NoAuthErrors (getSendLevel env etype stateKey powerLevels) := by
  simp [getSendLevel,raisesOnly_bind]

end reading

end TextrpBriij.EventAuth
