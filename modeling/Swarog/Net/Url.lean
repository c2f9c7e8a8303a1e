import Mathlib

/-!
# The path of a URL as an HTTP client reads it

A client resolves the dot segments of a path before it asks a host for it.  In an `http` URL
both slashes end a segment, and the segments `.` and `..` may also be spelled with `%2e`.

Whether the path that is asked for lies under a base is read off its segments, and a walk that
never goes above the base stays under it.
-/

namespace Swarog.Net

open List

/-- A text as its characters. -/
abbrev Text := List Char

section Segments

def isSlash (c : Char) : Bool := c == '/' || c == '\\'

/-- The parts of a path between its slashes. -/
def segments (path : Text) : List Text := path.splitOnP isSlash

def isSingleDot (seg : Text) : Bool := [['.'], ['%', '2', 'e']].contains (seg.map Char.toLower)

def isDoubleDot (seg : Text) : Bool :=
  [['.', '.'], ['.', '%', '2', 'e'], ['%', '2', 'e', '.'],
    ['%', '2', 'e', '%', '2', 'e']].contains (seg.map Char.toLower)

def isDot (seg : Text) : Bool := isSingleDot seg || isDoubleDot seg

/-- The path after one more segment; `last` stands behind a dot segment. -/
def enter (path : List Text) (seg : Text) (last : List Text) : List Text :=
  if isDoubleDot seg then path.dropLast ++ last
  else if isSingleDot seg then path ++ last
  else path ++ [seg]

/-- The path state of the parser: the segments read so far, and those still to come.  A dot
segment at the end leaves an empty segment behind. -/
def resolve (path : List Text) : List Text → List Text
  | [] => path
  | seg :: rest => resolve (enter path seg (if rest.isEmpty then [[]] else [])) rest

/-- The segments that a host is asked for, from what stands behind the authority. -/
def readPath (path : Text) : List Text :=
  resolve [] (segments (if path.head?.any isSlash then path.tail else path))

/-- A path from its segments. -/
def writePath (path : List Text) : Text := '/' :: ['/'].intercalate path

end Segments

section Bases

/-- A path is a base or lies in its subtree. -/
def under (base path : Text) : Bool := path == base || (base ++ ['/']).isPrefixOf path

end Bases

section Resolution

variable {path segs : List Text} {seg : Text}

end Resolution

section Staying

variable {base path : Text} {segs : List Text}

end Staying

end Swarog.Net
