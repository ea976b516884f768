import TunnelConf.Text.Ascii
import TunnelConf.Text.Number

/-!
# Strings of a TOML document

Strings stand in double quotes, with escapes, or in single quotes, as they are; in one quote each
on one line, in three on any number of lines.
-/

namespace TunnelConf

namespace Toml

/-- The characters that may stand in a string or comment as they are. -/
def isPrintable (c : Char) : Bool := c == '\t' || ('\x20' ≤ c && c != '\x7f')

/-- Where a reader of escapes stands: between characters, after a backslash, before the given
number of digits and one more, or after an escaped line break (`true`) or the blanks before it. -/
inductive EscapeState
  | plain
  | escaped
  | digits (left value : Nat)
  | folding (broken : Bool)
deriving DecidableEq, Repr

def simpleEscape? (c : Char) : Option Char :=
  [('b', '\x08'), ('t', '\t'), ('n', '\n'), ('f', '\x0c'), ('r', '\r'), ('"', '"'),
    ('\\', '\\')].lookup c

namespace EscapeState

def stepPlain (multiline : Bool) (c : Char) : Option (EscapeState × Option Char) :=
  if c = '\\' then some (.escaped, none)
  else if isPrintable c || (multiline && c == '\n') then some (.plain, some c)
  else none

/-- The next state and the character that is complete, if one is. -/
def step (multiline : Bool) (s : EscapeState) (c : Char) : Option (EscapeState × Option Char) :=
  match s with
  | .plain => stepPlain multiline c
  | .escaped =>
    if c = 'u' then some (.digits 3 0, none)
    else if c = 'U' then some (.digits 7 0, none)
    else if multiline && c == '\n' then some (.folding true, none)
    else if multiline && Text.isBlank c then some (.folding false, none)
    else (simpleEscape? c).map fun d => (.plain, some d)
  | .digits left value =>
    (Text.digit? 16 c).bind fun d =>
      let value := value * 16 + d
      if 0 < left then some (.digits (left - 1) value, none)
      else if value.isValidChar then some (.plain, some (Char.ofNat value))
      else none
  | .folding broken =>
    if c = '\n' then some (.folding true, none)
    else if Text.isBlank c then some (.folding broken, none)
    else if broken then stepPlain multiline c
    else none

end EscapeState

/-- The text that a string in double quotes stands for. -/
def unescape (multiline : Bool) : EscapeState → Text → Option Text
  | .plain, [] => some []
  | .folding true, [] => some []
  | _, [] => none
  | s, c :: t => do
    let (s, done) ← s.step multiline c
    return done.toList ++ (← unescape multiline s t)

/-- The parts before and after the closing quote on one line; in a string with escapes a quote
after a backslash does not close. -/
def untilQuote (quote : Char) (escapes : Bool) : Text → Option (Text × Text)
  | [] => none
  | [c] => if c = quote then some ([], []) else none
  | c :: d :: t =>
    if c = quote then some ([], d :: t)
    else if escapes && c == '\\' then
      (untilQuote quote escapes t).map fun p => (c :: d :: p.1, p.2)
    else (untilQuote quote escapes (d :: t)).map fun p => (c :: p.1, p.2)

/-- The parts before and after three closing quotes. One or two quotes right before them belong to
the string. -/
def untilQuotes (quote : Char) (escapes : Bool) : Text → Option (Text × Text)
  | c :: d :: t =>
    if c = quote && d == quote && t.head? == some quote then
      some <| match t.tail with
      | e :: f :: r =>
        if e = quote && f == quote then ([quote, quote], r)
        else if e = quote then ([quote], f :: r)
        else ([], e :: f :: r)
      | [e] => if e = quote then ([quote], []) else ([], [e])
      | [] => ([], [])
    else if escapes && c == '\\' then
      (untilQuotes quote escapes t).map fun p => (c :: d :: p.1, p.2)
    else (untilQuotes quote escapes (d :: t)).map fun p => (c :: p.1, p.2)
  | _ => none

/-- The text with each CRLF replaced by LF, if no CR stands elsewhere. -/
def plainBreaks? : Text → Option Text
  | [] => some []
  | '\r' :: '\n' :: t => (plainBreaks? t).map ('\n' :: ·)
  | c :: t => if c = '\r' then none else (plainBreaks? t).map (c :: ·)

/-- The content of a string on several lines; a line break right at its start does not count. -/
def multilineBody? (raw : Text) : Option Text :=
  (plainBreaks? raw).map fun t => if t.head? = some '\n' then t.tail else t

/-- A string between double quotes on one line, after the opening quote. -/
def readBasic? (t : Text) : Option (Text × Text) := do
  let (raw, rest) ← untilQuote '"' true t
  return (← unescape false .plain raw, rest)

/-- A string between single quotes on one line, after the opening quote. -/
def readLiteral? (t : Text) : Option (Text × Text) := do
  let (raw, rest) ← untilQuote '\'' false t
  if raw.all isPrintable then return (raw, rest) else none

def readMultilineBasic? (t : Text) : Option (Text × Text) := do
  let (raw, rest) ← untilQuotes '"' true t
  return (← unescape true .plain (← multilineBody? raw), rest)

def readMultilineLiteral? (t : Text) : Option (Text × Text) := do
  let (raw, rest) ← untilQuotes '\'' false t
  let body ← multilineBody? raw
  if body.all fun c => isPrintable c || c == '\n' then return (body, rest) else none

/-- A string of any kind. -/
def readString? (t : Text) : Option (Text × Text) :=
  match t with
  | '"' :: '"' :: '"' :: r => readMultilineBasic? r
  | '\'' :: '\'' :: '\'' :: r => readMultilineLiteral? r
  | '"' :: r => readBasic? r
  | '\'' :: r => readLiteral? r
  | _ => none

end Toml

end TunnelConf
