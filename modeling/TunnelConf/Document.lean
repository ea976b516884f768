import TunnelConf.Line
import TunnelConf.Text.Space

/-!
# The sections of a file

The structural view of a finished file: sections in the order of their first headers, each with
its keys in the order in which they first appear and all values given for a key. `Document.parse`
never fails, it drops what it cannot read; `Document.render` writes the sections out again.
-/

namespace TunnelConf

structure Entry where
  key : Text
  values : List Text
deriving DecidableEq, Repr

namespace Entry

/-- The values, separated by a comma and a space. -/
def joined (e : Entry) : Text := List.intercalate [',', ' '] e.values

end Entry

structure Section where
  name : Text
  entries : List Entry
deriving DecidableEq, Repr

namespace Section

def keys (s : Section) : List Text := s.entries.map Entry.key

def contains (s : Section) (key : Text) : Bool := s.entries.any (·.key == key)

/-- The values given for a key; none if the key does not appear. -/
def values (s : Section) (key : Text) : List Text :=
  (s.entries.find? (·.key == key)).elim [] Entry.values

/-- One more value for a key. -/
def pushValue (key value : Text) : List Entry → List Entry
  | [] => [⟨key, [value]⟩]
  | e :: es =>
    if e.key == key then { e with values := e.values ++ [value] } :: es
    else e :: pushValue key value es

def push (s : Section) (key value : Text) : Section :=
  { s with entries := pushValue key value s.entries }

def render (s : Section) : Text :=
  '[' :: s.name ++ [']', '\n'] ++
    s.entries.flatMap fun e => e.key ++ [' ', '=', ' '] ++ e.joined ++ ['\n']

end Section

/-- What a line says about the structure of a file. -/
inductive Statement
  | header (name : Text)
  | entry (key value : Text)
deriving DecidableEq, Repr

namespace Statement

/-- Blank lines, comments and lines without an equals sign say nothing. -/
def ofLine? (line : Text) : Option Statement :=
  match Text.trim line with
  | [] => none
  | c :: rest =>
    if c = '#' || c = ';' then none
    else if c = '[' && rest.getLast? = some ']' then some (.header rest.dropLast)
    else (Text.splitFirst? '=' (c :: rest)).map fun p =>
      .entry (Text.trim p.1) (Text.trim p.2)

end Statement

structure Document where
  sections : List Section
deriving DecidableEq, Repr

namespace Document

def names (d : Document) : List Text := d.sections.map Section.name

def find? (d : Document) (name : Text) : Option Section := d.sections.find? (·.name == name)

/-- Starts the section of the given name. A section that is there already loses its entries and
keeps its place. -/
def openSection (name : Text) : List Section → List Section
  | [] => [⟨name, []⟩]
  | s :: ss => if s.name == name then ⟨name, []⟩ :: ss else s :: openSection name ss

/-- Adds a value to the section of the given name. -/
def pushEntry (name key value : Text) (ss : List Section) : List Section :=
  ss.map fun s => if s.name == name then s.push key value else s

/-- A document and the section that takes the next entries, while a file is read. -/
structure Reader where
  sections : List Section
  current : Option Text

/-- Entries before the first header, and those of a section without a name, are dropped. -/
def Reader.step (r : Reader) : Statement → Reader
  | .header name => ⟨openSection name r.sections, if name.isEmpty then none else some name⟩
  | .entry key value =>
    match r.current with
    | none => r
    | some name => { r with sections := pushEntry name key value r.sections }

/-- The document that a sequence of statements describes. -/
def ofStatements (statements : List Statement) : Document :=
  ⟨(statements.foldl Reader.step ⟨[], none⟩).sections⟩

def parse (t : Text) : Document :=
  ofStatements ((LineRecord.ofText t).filterMap fun r => Statement.ofLine? r.text)

/-- The sections, with an empty line between each and the next. -/
def renderSections (sections : List Section) : Text :=
  List.intercalate ['\n'] (sections.map Section.render)

/-- The written form; a document without sections has a line that says so. -/
def render (d : Document) : Text :=
  if d.sections.isEmpty then "(no sections)\n".toList else renderSections d.sections

end Document

end TunnelConf
