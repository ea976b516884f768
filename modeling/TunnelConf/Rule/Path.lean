import TunnelConf.Text.Ascii

/-!
# Paths of programs

A path may start with a drive, a letter with a colon and a backslash. Then come names separated by
backslashes, none of them empty but the last.
-/

namespace TunnelConf

namespace ProgramPath

/-- The characters that no name holds; the backslash ends a name and is not among them. -/
def isReserved (c : Char) : Bool :=
  ['<', '>', ':', '"', '/', '|', '?', '*', '\n', '\r'].contains c

def isLetter (c : Char) : Bool := Text.isAlphanumeric c && !Text.isDigit c

/-- Whether names follow; `inName` holds after the first character of a name. -/
def isNames (inName : Bool) : Text → Bool
  | [] => true
  | c :: t =>
    if c = '\\' then inName && isNames false t
    else !isReserved c && isNames true t

def dropDrive : Text → Text
  | c :: ':' :: '\\' :: t => if isLetter c then t else c :: ':' :: '\\' :: t
  | t => t

def isValid (t : Text) : Bool := isNames false (dropDrive t)

end ProgramPath

end TunnelConf
