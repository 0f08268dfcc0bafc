import Mathlib

/-! # Errors that reach a client of the server -/
namespace TextrpBriij.Api

/-- The members of `Codes` that the modelled code raises. -/
inductive Codes where
  | unknown
  | missingParam
  | invalidParam
  | forbidden
  | invalidSignature
  | invalidUsername
  | userInUse
  | exclusive
  | limitExceeded
  | badJson
  | insufficientPower
  | notJoined
  | alreadyJoined
  deriving DecidableEq, Repr

/-- A raised exception. `raised` stands for any exception that is not one of the
server's own classes, named by its Python class. -/
inductive Error where
  | synapseError (code : ℕ) (msg : String) (errcode : Codes)
  | loginError (code : ℕ) (msg : String) (errcode : Codes)
  | storeError (code : ℕ) (msg : String) (errcode : Codes)
  | authError (code : ℕ) (msg : String) (errcode : Codes)
  | raised (cls : String)
  deriving DecidableEq, Repr

end TextrpBriij.Api
