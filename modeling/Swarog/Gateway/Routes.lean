import Swarog.FinMap
import Swarog.Net.Url
import Swarog.Opsapi

/-!
# The route table of the front door

Operations are bound to a verb and a path pattern whose `{name}` segments take any one
segment.  A table has no two operations of one method and no two operations that the same request
could match.
-/

namespace Swarog.Gateway

open Net (Text)

section Patterns

/-- A segment of a path pattern: a literal, or a wildcard for one segment. -/
inductive Seg
  | lit (text : Text)
  | wild (name : Text)
deriving DecidableEq

/-- The non-empty segments of a path. -/
def pathSegments (path : Text) : List Text :=
  (path.splitOnP (fun c => c == '/')).filter (fun seg => !seg.isEmpty)

/-- Two patterns that the same request could match. -/
def patternOverlaps (a b : List Seg) : Bool :=
  a.length == b.length && (a.zip b).all (fun pair =>
    match pair with
    | (.lit l, .lit r) => l == r
    | _ => true)

/-- The values that the wildcards of a pattern took. -/
abbrev PathArgs := FinMap Text Text

/-- The loop of `match_pattern`. -/
def bindSegs : List Seg → List Text → PathArgs → Option PathArgs
  | .lit text :: pattern, part :: parts, args =>
    if text = part then bindSegs pattern parts args else none
  | .wild name :: pattern, part :: parts, args => bindSegs pattern parts (args.set name part)
  | _, _, args => some args

/-- The segments have to be as many as the pattern's. -/
def matchPattern (pattern : List Seg) (parts : List Text) : Option PathArgs :=
  if pattern.length ≠ parts.length then none else bindSegs pattern parts FinMap.empty

def eqIgnoreAsciiCase (a b : Text) : Bool := a.map Char.toLower == b.map Char.toLower

end Patterns

section Operations

structure Operation where
  method : Text
  verb : Text
  path : Text
deriving DecidableEq

structure Route where
  op : Operation
  pattern : List Seg

/-- The route answers the verb. -/
def Route.answers (r : Route) (method : Text) : Bool := eqIgnoreAsciiCase r.op.verb method

/-- The same request could match both routes. -/
def Route.overlaps (r r' : Route) : Bool :=
  eqIgnoreAsciiCase r.op.verb r'.op.verb && patternOverlaps r.pattern r'.pattern

end Operations

section Tables

/-- No two routes have the same method or overlap. -/
structure RouteTable where
  routes : List Route
  distinct : routes.Pairwise (fun r r' => r.op.method ≠ r'.op.method)
  apart : routes.Pairwise (fun r r' => r.overlaps r' = false)

/-- The first route that answers the verb and matches the path, with its arguments. -/
def RouteTable.find (table : RouteTable) (method path : Text) : Option (Route × PathArgs) :=
  table.routes.findSome? (fun r =>
    if r.answers method then
      (matchPattern r.pattern (pathSegments path)).map (fun args => (r, args))
    else none)

end Tables

section Lookups

variable {table : RouteTable} {method path : Text} {r : Route}

/-- The path is one of the route, whatever the verb. -/
def Route.covers (r : Route) (path : Text) : Bool :=
  (matchPattern r.pattern (pathSegments path)).isSome

end Lookups

end Swarog.Gateway
