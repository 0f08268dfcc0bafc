import TextrpBriij.Api.Errors
import TextrpBriij.Foundation.Fallible
import TextrpBriij.Python.Text

/-! # Accounts of the homeserver and their registration

The rate limiter, the spam checker modules, the monthly-active-user blocking and
the namespaces of application services decide outside this model; what they decide
for a localpart is a field of `RegistrationConfig`.
-/
namespace TextrpBriij.Handlers
open Api

structure RegistrationConfig where
  hostname : String
  allowUnderscorePrefixedLocalpart : Bool
  /-- `check_user_id_not_appservice_exclusive`. -/
  exclusive : String → Except Error Unit
  /-- Rate limit, spam check and `check_auth_blocking` at the head of `register_user`. -/
  registrationGate : String → Except Error Unit

variable (cfg : RegistrationConfig)
variable (users : Users) (userId : String) (localpart : String)

def userIdOf : String := "@" ++ localpart ++ ":" ++ cfg.hostname

def localpartOf : Except Error String :=
  match userId.toList with
  | '@' :: rest =>
    if ':' ∈ rest then .ok (String.ofList (rest.takeWhile (· ≠ ':')))
    else .error (.synapseError 400 "Expected UserID of the form '@localname:domain'" .invalidParam)
  | _ => .error (.synapseError 400 "Expected UserID string to start with '@'" .invalidParam)

/-- The names of the `users` table. -/
abbrev Users := List String

/-- `lower` of the database, which maps the ASCII letters. -/
def sqlLower (s : String) : List Char := s.toList.map Char.toLower

def getUsersByIdCaseInsensitive : List String :=
  users.filter (fun u => sqlLower u = sqlLower userId)

/-- `check_user_exists`: the canonical ID, `none` for no match or several inexact ones. -/
def checkUserExists : Option String :=
  match getUsersByIdCaseInsensitive users userId with
  | [] => none
  | [u] => some u
  | us => if userId ∈ us then some userId else none

def mxidLocalpartAllowed (c : Char) : Bool :=
  c ∈ ['_','-','.','/','=','+'] || ('a' ≤ c && c ≤ 'z') || ('0' ≤ c && c ≤ '9')

def maxUserIdLength : ℕ := 255

def userInUse : Error := .synapseError 400 "User ID already taken." .userInUse

/-- `check_username` for a caller without guest token or assigned user ID. -/
def checkUsername : Except Error Unit := do
  if localpart.toList.any (fun c => !mxidLocalpartAllowed c) then
    throw (.synapseError 400 "User ID can only contain characters a-z, 0-9, or '=_-./+'" .invalidUsername)
  if localpart = "" then
    throw (.synapseError 400 "User ID cannot be empty" .invalidUsername)
  if localpart.toList.head? = some '_' ∧ cfg.allowUnderscorePrefixedLocalpart = false then
    throw (.synapseError 400 "User ID may not begin with _" .invalidUsername)
  cfg.exclusive (userIdOf cfg localpart)
  if maxUserIdLength < (userIdOf cfg localpart).length then
    throw (.synapseError 400 "User ID may not be longer than 255 characters" .invalidUsername)
  if !(getUsersByIdCaseInsensitive users (userIdOf cfg localpart)).isEmpty then
    throw userInUse
  if localpart.toList.all Char.isDigit then
    throw (.synapseError 400 "Numeric user IDs are reserved for guest users." .invalidUsername)

/-- `register_user` with a localpart, up to the row it inserts: the new table and the
ID of the new account. The unique index on the name raises for a taken one. -/
def registerUser : Except Error (Users × String) := do
  cfg.registrationGate localpart
  checkUsername cfg users localpart
  if userIdOf cfg localpart ∈ users then
    throw (.storeError 400 "User ID already taken." .userInUse)
  return (users ++ [userIdOf cfg localpart],userIdOf cfg localpart)

theorem registerUser_ok {users users' : Users} {localpart u : String}
    (h : registerUser cfg users localpart = .ok (users',u)) :
    u = userIdOf cfg localpart ∧ users' = users ++ [u] ∧ u ∉ users := by
  unfold registerUser at h
  cases hg : cfg.registrationGate localpart with
  | error e => simp [hg] at h
  | ok _ =>
    cases hc : checkUsername cfg users localpart with
    | error e => simp [hg,hc] at h
    | ok _ =>
      by_cases hm : userIdOf cfg localpart ∈ users
      · simp [hg,hc,hm] at h
      · simp only [hg,hc,hm] at h
        cases h
        exact ⟨rfl,rfl,hm⟩

end TextrpBriij.Handlers
