import TunnelConf.Text.Basic

/-!
# Paths

Paths are texts whose parts are separated by slashes. Two paths with the same components are the
same path: repeated slashes and inner dots do not count, while `..` is a component of its own.
-/

namespace TunnelConf

namespace Path

inductive Component
  | root
  | current
  | parent
  | name (t : Text)
deriving DecidableEq, Repr

def isSlash (c : Char) : Bool := c == '/'

def parts (p : Text) : List Text := Text.splitWhere isSlash p

/-- Empty parts and dots are passed over. -/
def component? (part : Text) : Option Component :=
  if part = [] || part = ['.'] then none
  else if part = ['.', '.'] then some .parent
  else some (.name part)

/-- A leading slash or a leading dot is a component. -/
def head (p : Text) : List Component :=
  if p.head? = some '/' then [.root]
  else if (parts p).head? = some ['.'] then [.current]
  else []

def components (p : Text) : List Component := head p ++ (parts p).filterMap component?

def same (p q : Text) : Bool := components p == components q

/-- The path `q` seen from `p`; an absolute path stays as it is. -/
def join (p q : Text) : Text :=
  if q.head? = some '/' then q
  else if p.isEmpty || p.getLast? = some '/' then p ++ q
  else p ++ '/' :: q

/-- The parts behind a leading slash or a leading dot, and what stands before them. -/
def body (p : Text) : Text × List Text :=
  match head p, parts p with
  | [], ps => ([], ps)
  | .root :: _, _ :: ps => (['/'], ps)
  | _ :: _, _ :: ps => (['.'], ps)
  | _, [] => ([], [])

/-- The part that names the file and the parts before it, if the last component is a name. -/
def splitName? (p : Text) : Option (Text × List Text) :=
  let skipped := fun part => (component? part).isNone
  match (body p).2.reverse.dropWhile skipped with
  | [] => none
  | last :: before =>
    if last = ['.', '.'] then none else some (last, (before.dropWhile skipped).reverse)

def fileName? (p : Text) : Option Text := (splitName? p).map Prod.fst

/-- The path of a file of the given name in the place of the named one; in the directory itself if
the last component is no name. -/
def withFileName (p name : Text) : Text :=
  match splitName? p with
  | none => join p name
  | some (_, before) =>
    let inner := List.intercalate ['/'] before
    let parent :=
      match (body p).1 with
      | ['.'] => if before.isEmpty then ['.'] else '.' :: '/' :: inner
      | front => front ++ inner
    join parent name

/-- The path with a dot and a suffix behind the file name. -/
def withSuffix (p suffix : Text) : Text :=
  withFileName p ((fileName? p).getD [] ++ '.' :: suffix)

end Path

end TunnelConf
