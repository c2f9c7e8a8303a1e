import Swarog.Opsapi

/-!
# The transport between processes

The failures of the edge transport and what a caller is told about them.  A peer that answers
with a code is told apart from a peer that was not reached.
-/

namespace Swarog.Edge

section Failures

/-- An error of the transport. -/
inductive EdgeError
  | io (cause : String)
  | codec (cause : String)
  | frameTooLarge (size max : Nat)
  | rcgen (cause : String)
  | rustls (cause : String)
  | tls (cause : String)
  | ca (cause : String)
  | connect (cause : String)
  | connection (cause : String)
  | stream (cause : String)
  | remote (cause : String)
  | unknownMethod (cause : String)
  | invalidRequest (cause : String)
deriving DecidableEq

def EdgeError.display : EdgeError → String
  | .io cause => "edge: io: " ++ cause
  | .codec cause => "edge: json codec: " ++ cause
  | .frameTooLarge size max => "edge: frame too large: " ++ toString size ++ " > " ++ toString max
  | .rcgen cause => "edge: certificate generation: " ++ cause
  | .rustls cause => "edge: rustls: " ++ cause
  | .tls cause => "edge: tls config: " ++ cause
  | .ca cause => "edge: dev CA: " ++ cause
  | .connect cause => "edge: connect: " ++ cause
  | .connection cause => "edge: connection: " ++ cause
  | .stream cause => "edge: stream: " ++ cause
  | .remote cause => "edge: remote error: " ++ cause
  | .unknownMethod cause => cause
  | .invalidRequest cause => cause

/-- `From<edge::Error> for opsapi::Error`. -/
def EdgeError.toError : EdgeError → Error
  | .unknownMethod msg => .notFound msg
  | .invalidRequest msg => .invalid msg
  | e => .unavailable e.display

end Failures

end Swarog.Edge
