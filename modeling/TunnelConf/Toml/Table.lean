import TunnelConf.Text.Basic

/-!
# Tables of a TOML document

The values that settings can have, and tables that are built up key by key. How a table came to be
decides what may still be added to it: a table is defined once, and dotted keys only extend tables
that dotted keys have made.
-/

namespace TunnelConf

namespace Toml

/-- How a table came to be: by a header of its own, by the header of a table inside it, by dotted
keys, or as a value in braces. -/
inductive Origin
  | header
  | implied
  | dotted
  | inline
deriving DecidableEq, Repr

inductive Value
  | text (t : Text)
  | flag (b : Bool)
  | moment (t : Text)
  | table (origin : Origin) (members : List (Text × Value))

abbrev Members := List (Text × Value)

namespace Members

def find? (ms : Members) (key : Text) : Option Value := ms.lookup key

/-- Puts a value in the place of the one with the same key, or behind all others. -/
def put (key : Text) (v : Value) : Members → Members
  | [] => [(key, v)]
  | m :: ms => if m.1 == key then (key, v) :: ms else m :: put key v ms

/-- Applies `f` to the table that a path of keys leads to, and makes the tables that are not there
yet. Dotted keys do not lead into a table that has a header. -/
def descend (dotted : Bool) (f : Origin → Members → Option (Origin × Members)) :
    List Text → Origin → Members → Option (Origin × Members)
  | [], origin, ms => f origin ms
  | key :: path, origin, ms => do
    let (inner, kept) ← match find? ms key with
      | none => some (if dotted then .dotted else .implied, [])
      | some (.table .inline _) => none
      | some (.table .header inner) => if dotted then none else some (.header, inner)
      | some (.table o inner) => some (o, inner)
      | some _ => none
    let (o, inner) ← descend dotted f path inner kept
    return (origin, put key (.table o inner) ms)

/-- A new member of a table. After dotted keys the table has to be one that dotted keys made. -/
def assign (path : List Text) (key : Text) (v : Value) (origin : Origin) (ms : Members) :
    Option (Origin × Members) :=
  descend true (fun o ms =>
    if (o == .dotted) == path.isEmpty || (find? ms key).isSome then none
    else some (o, ms ++ [(key, v)])) path origin ms

/-- A header defines a table that is new or was only implied. -/
def define (key : Text) (origin : Origin) (ms : Members) : Option (Origin × Members) :=
  match find? ms key with
  | none => some (origin, ms ++ [(key, .table .header [])])
  | some (.table .implied inner) => some (origin, put key (.table .header inner) ms)
  | some _ => none

end Members

end Toml

end TunnelConf
