import Mathlib

/-!
# Errors of operations

The error type that every operation of the services answers with: a status that
selects the HTTP code, and a message.
-/

namespace Swarog

/-- The status of an answer as its caller sees it. -/
inductive Status
  | ok
  | notFound
  | forbidden
  | invalid
  | unavailable
  | internal
  | unauthorized
  | conflict
deriving DecidableEq

/-- The peer has received the request and answered it. -/
def Status.isDefinitiveAnswer : Status → Bool
  | .notFound => true
  | .invalid => true
  | _ => false

/-- Whether a transport may replay an operation after it has reconnected. -/
inductive RetryMode
  | never
  | onceAfterReconnect
deriving DecidableEq

/-- A typed operation error. -/
structure Error where
  status : Status
  msg : String
deriving DecidableEq

def Error.notFound (msg : String) : Error := ⟨.notFound, msg⟩
def Error.invalid (msg : String) : Error := ⟨.invalid, msg⟩
def Error.unavailable (msg : String) : Error := ⟨.unavailable, msg⟩
def Error.internal (msg : String) : Error := ⟨.internal, msg⟩
def Error.unauthorized (msg : String) : Error := ⟨.unauthorized, msg⟩
def Error.conflict (msg : String) : Error := ⟨.conflict, msg⟩

end Swarog
