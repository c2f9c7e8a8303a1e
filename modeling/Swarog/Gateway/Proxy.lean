import Swarog.Gateway.Routes
import Swarog.Net.Ip

/-!
# The passthrough of the front door

A request that matches no operation is offered to a table of bases and origins.  The longest
base that the path falls under selects the origin; the path and the query are appended to it as
they came, and the HTTP client resolves the dot segments of the joined URL before it sends
anything.  The client follows no redirects.

The base is compared with the path as the request has it, the origin is asked for the path as
the client reads it.  They agree about the base exactly if the resolved segments still begin
with those of the base.
-/

namespace Swarog.Gateway

open Net List

section Requests

/-- A request target with a path. -/
structure Uri where
  path : Text
  query : Option Text
  rooted : path.head? = some '/'

def Uri.pathAndQuery (uri : Uri) : Text :=
  match uri.query with
  | some query => uri.path ++ '?' :: query
  | none => uri.path

structure Request where
  method : Text
  uri : Uri

/-- An HTTP client that resolves the dot segments of a path.  Where the path of a URL stands,
and how a segment is written in the request, is left to the client. -/
structure Client where
  rawPath : Text → Option Text
  encode : Text → Text
  noSlash : ∀ seg, '/' ∉ seg → '/' ∉ encode seg

/-- The segments that are asked for, for the path of a URL. -/
def Client.read (client : Client) (path : Text) : List Text := (readPath path).map client.encode

/-- The path that is asked for; nothing is sent for a URL that the client cannot read. -/
def Client.send (client : Client) (url : Text) : Option Text :=
  (client.rawPath url).map (fun path => writePath (client.read path))

end Requests

section Tables

/-- The bytes of a text. -/
def byteLength (text : Text) : Nat := (text.map Char.utf8Size).sum

/-- The order of the table: the longest base first. -/
def LongerFirst (row row' : Text × Text) : Prop := byteLength row'.1 ≤ byteLength row.1

instance : DecidableRel LongerFirst :=
  fun row row' => inferInstanceAs (Decidable (byteLength row'.1 ≤ byteLength row.1))

instance : Std.Total LongerFirst :=
  ⟨fun row row' => Nat.le_total (byteLength row'.1) (byteLength row.1)⟩

instance : IsTrans (Text × Text) LongerFirst := ⟨fun _ _ _ h h' => Nat.le_trans h' h⟩

/-- Bases with their origins, the longest first, and the client that asks the origins. -/
structure ProxyTable where
  client : Client
  routes : List (Text × Text)
  sorted : routes.Pairwise LongerFirst

/-- A scheme is put in front of a bare address; trailing slashes are cut off. -/
def normalizeOrigin (addr : Text) : Text :=
  let whole := if [':', '/', '/'] <:+: addr then addr else "http://".toList ++ addr
  (whole.reverse.dropWhile (fun c => c == '/')).reverse

/-- A base without an origin is dropped. -/
def configured (routes : List (Text × Text)) : List (Text × Text) :=
  routes.filterMap (fun row =>
    if (trim row.2).isEmpty then none else some (row.1, normalizeOrigin (trim row.2)))

/-- The origin that serves a path. -/
def ProxyTable.originFor (proxy : ProxyTable) (path : Text) : Option Text :=
  proxy.routes.findSome? (fun row => if under row.1 path then some row.2 else none)

end Tables

section Handling

/-- What the front door does with a request. -/
inductive Outcome
  | operation (route : Route) (args : PathArgs)
  | notFound
  | badGateway
  | proxied (origin path : Text)

/-- A URL that the client cannot read is answered like an origin that cannot be reached. -/
def ProxyTable.forward (proxy : ProxyTable) (uri : Uri) : Outcome :=
  match proxy.originFor uri.path with
  | none => .notFound
  | some origin =>
    match proxy.client.send (origin ++ uri.pathAndQuery) with
    | none => .badGateway
    | some path => .proxied origin path

/-- The routing of `handle`. -/
def handle (table : RouteTable) (proxy : ProxyTable) (req : Request) : Outcome :=
  match table.find req.method req.uri.path with
  | some (route, args) => .operation route args
  | none => proxy.forward req.uri

end Handling

section Selection

variable {proxy : ProxyTable} {path origin : Text} {row : Text × Text}

/-- A row is the longest one that a path falls under. -/
def ProxyTable.Selects (proxy : ProxyTable) (path : Text) (row : Text × Text) : Prop :=
  row ∈ proxy.routes ∧ under row.1 path = true ∧
    ∀ other ∈ proxy.routes, under other.1 path = true → other.1.length ≤ row.1.length

end Selection

section Confinement

/-- The client writes a base as it stands. -/
def Client.Keeps (client : Client) (base : Text) : Prop :=
  '\\' ∉ base ∧ ∀ seg ∈ segments base.tail, isDot seg = false ∧ client.encode seg = seg

end Confinement

end Swarog.Gateway
