import TunnelConf.Edit.Error
import TunnelConf.Text.Space

/-!
# Values to add

A value comes from the command line, from a file or from standard input. It is one line that is
not empty, without white space around it.
-/

namespace TunnelConf

inductive ValueSource
  | inline (t : Text)
  | file (path : Text)
  | input
deriving DecidableEq, Repr

namespace ValueSource

def isLineEnd (c : Char) : Bool := c == '\r' || c == '\n'

/-- The line in a text. -/
def singleLine (raw : Text) : Except EditError Text :=
  let value := Text.trim (Text.trimEndWhile isLineEnd raw)
  if value.isEmpty then .error .emptyValue
  else if value.any isLineEnd then .error .multilineValue
  else .ok value

/-- The text that a source holds. -/
def read (t : FileTree) (input : List UInt8) : ValueSource → Except EditError Text
  | .inline raw => .ok raw
  | .file path => (t.readText path).mapError (.unreadableValue path)
  | .input =>
    match Text.ofUtf8? input with
    | some raw => .ok raw
    | none => .error (.unreadableInput .invalidText)

def load (t : FileTree) (input : List UInt8) (s : ValueSource) : Except EditError Text :=
  s.read t input >>= singleLine

end ValueSource

end TunnelConf
