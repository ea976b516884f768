import TunnelConf.Toml.Moment
import TunnelConf.Toml.Quoted
import TunnelConf.Toml.Table

/-!
# Reading TOML documents

The part of TOML 1.0 in which settings are written: strings, booleans, dates and times, and tables
in all their notations. No setting is a number or an array, so a document that holds one is
refused.
-/

namespace TunnelConf

namespace Toml

def skipBlanks (t : Text) : Text := t.dropWhile Text.isBlank

def isBareKeyChar (c : Char) : Bool := Text.isAlphanumeric c || c == '_' || c == '-'

/-- One part of a key. -/
def readSimpleKey? (t : Text) : Option (Text × Text) :=
  match t with
  | '"' :: r => readBasic? r
  | '\'' :: r => readLiteral? r
  | t =>
    let key := t.takeWhile isBareKeyChar
    if key.isEmpty then none else some (key, t.dropWhile isBareKeyChar)

/-- The parts of a key, with dots between them; at most `fuel` parts. -/
def readKey? : Nat → Text → Option (List Text × Text)
  | 0, _ => none
  | fuel + 1, t => do
    let (part, r) ← readSimpleKey? (skipBlanks t)
    match skipBlanks r with
    | '.' :: r => do
      let (parts, r) ← readKey? fuel r
      return (part :: parts, r)
    | r => return ([part], r)

/-- The parts of a key before the last one, and the last one. -/
def splitKey? (parts : List Text) : Option (List Text × Text) :=
  parts.getLast?.map fun key => (parts.dropLast, key)

mutual

/-- A value, nested at most `fuel` deep. -/
def readValue? : Nat → Text → Option (Value × Text)
  | 0, _ => none
  | fuel + 1, t =>
    match t with
    | '{' :: r =>
      match skipBlanks r with
      | '}' :: r => some (.table .inline [], r)
      | r => readMembers? fuel [] r
    | 't' :: 'r' :: 'u' :: 'e' :: r => some (.flag true, r)
    | 'f' :: 'a' :: 'l' :: 's' :: 'e' :: r => some (.flag false, r)
    | t =>
      match readString? t with
      | some (s, r) => some (.text s, r)
      | none => (readMoment? t).map fun p => (.moment p.1, p.2)

/-- The members of a table in braces, up to the closing brace. -/
def readMembers? : Nat → Members → Text → Option (Value × Text)
  | 0, _, _ => none
  | fuel + 1, ms, t =>
    (readKey? (t.length + 1) t).bind fun (parts, r) =>
    (splitKey? parts).bind fun (path, key) =>
    match r with
    | '=' :: r =>
      (readValue? fuel (skipBlanks r)).bind fun (v, r) =>
      (Members.assign path key v .header ms).bind fun (_, ms) =>
      match skipBlanks r with
      | ',' :: r => readMembers? fuel ms r
      | '}' :: r => some (.table .inline ms, r)
      | _ => none
    | _ => none

end

/-- The text after the end of a line. -/
def afterBreak? (t : Text) : Option Text :=
  match t with
  | [] => some []
  | '\n' :: r => some r
  | '\r' :: '\n' :: r => some r
  | _ => none

/-- The text after blanks, a comment and the end of the line. -/
def afterLine? (t : Text) : Option Text :=
  match skipBlanks t with
  | '#' :: r => afterBreak? (r.dropWhile isPrintable)
  | r => afterBreak? r

/-- The members of a document read so far, and the path of the table that is being filled. -/
structure Reading where
  members : Members
  path : List Text

namespace Reading

/-- Defines the table of a header. -/
def openTable (s : Reading) (parts : List Text) : Option Reading := do
  let (path, key) ← splitKey? parts
  let (_, ms) ← Members.descend false (Members.define key) path .header s.members
  return ⟨ms, parts⟩

/-- Adds a member to the table that is being filled. -/
def assign (s : Reading) (parts : List Text) (v : Value) : Option Reading := do
  let (path, key) ← splitKey? parts
  let (_, ms) ← Members.descend false (Members.assign path key v) s.path .header s.members
  return { s with members := ms }

/-- One line, or several if it holds a string of several lines; the rest is returned. -/
def step? (s : Reading) (t : Text) : Option (Reading × Text) := do
  match skipBlanks t with
  | [] => return (s, [])
  | '[' :: r =>
    let (parts, r) ← readKey? (r.length + 1) r
    match r with
    | ']' :: r => return (← s.openTable parts, ← afterLine? r)
    | _ => none
  | c :: r =>
    if c = '#' || c = '\n' || c = '\r' then return (s, ← afterLine? (c :: r))
    else
      let (parts, r) ← readKey? (r.length + 2) (c :: r)
      match r with
      | '=' :: r =>
        let (v, r) ← readValue? (r.length + 1) (skipBlanks r)
        return (← s.assign parts v, ← afterLine? r)
      | _ => none

/-- Reads lines up to the end of a text, at most `fuel` of them. -/
def run : Nat → Reading → Text → Option Reading
  | _, s, [] => some s
  | 0, _, _ :: _ => none
  | fuel + 1, s, c :: t => (s.step? (c :: t)).bind fun p => run fuel p.1 p.2

end Reading

/-- The members of a document; a byte order mark at its start does not count. -/
def parse? (t : Text) : Option Members :=
  let t := if t.head? = some '\ufeff' then t.tail else t
  (Reading.run (t.length + 1) ⟨[], []⟩ t).map Reading.members

end Toml

end TunnelConf
