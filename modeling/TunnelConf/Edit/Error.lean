import TunnelConf.Key.Pair
import TunnelConf.Splice
import TunnelConf.Storage.FileTree

/-!
# Errors of edits

Why an edit fails, the kinds that causes are grouped in, and the exit code of each kind.
-/

namespace TunnelConf

inductive ExitCode
  | success
  | notFound
  | invalidArguments
  | io
  | invalidContent
  | validation
deriving DecidableEq, Repr

namespace ExitCode

def all : List ExitCode :=
  [.success, .notFound, .invalidArguments, .io, .invalidContent, .validation]

/-- Two is left to errors in the use of the command line. -/
def number : ExitCode → Nat
  | .success => 0
  | .notFound => 1
  | .invalidArguments => 3
  | .io => 4
  | .invalidContent => 5
  | .validation => 6

def ofNumber? (n : Nat) : Option ExitCode := all.find? (·.number == n)

end ExitCode

inductive ErrorKind
  | notFound
  | invalidArguments
  | io
  | invalidContent
  | validation
  | malformedKey
deriving DecidableEq, Repr

namespace ErrorKind

def exitCode : ErrorKind → ExitCode
  | .notFound => .notFound
  | .invalidArguments => .invalidArguments
  | .io => .io
  | .invalidContent => .invalidContent
  | .validation | .malformedKey => .validation

/-- What a message begins with. -/
def heading (k : ErrorKind) : Text :=
  String.toList <| match k with
  | .notFound => "not found: "
  | .invalidArguments => "invalid arguments: "
  | .io => "i/o error: "
  | .invalidContent => "invalid content: "
  | .validation => "validation failed: "
  | .malformedKey => "malformed key material: "

end ErrorKind

inductive EditError
  | noSection (name path : Text)
  | invalidKeyName (key : Text)
  | io (e : IoError)
  | emptyValue
  | multilineValue
  | unreadableValue (path : Text) (e : IoError)
  | unreadableInput (e : IoError)
  | splice (e : SpliceError)
  | refused (reason : Text)
  | sessionBusy
  | malformedKey (e : KeyError)
deriving DecidableEq, Repr

namespace EditError

def kind : EditError → ErrorKind
  | .noSection .. => .notFound
  | .invalidKeyName _ => .invalidArguments
  | .io _ => .io
  | .emptyValue | .multilineValue | .unreadableValue .. | .unreadableInput _ => .invalidContent
  | .splice _ | .refused _ | .sessionBusy => .validation
  | .malformedKey _ => .malformedKey

def exitCode (e : EditError) : ExitCode := e.kind.exitCode

/-- The message without the heading of its kind. -/
def detail : EditError → Text
  | .noSection name path =>
    "section [".toList ++ name ++ "] in ".toList ++ path
  | .invalidKeyName key =>
    "key '".toList ++ key ++ "' must be a non-empty run of ASCII letters and digits".toList
  | .io e => e.message
  | .emptyValue => "value is empty".toList
  | .multilineValue => "value must fit on a single line".toList
  | .unreadableValue path e =>
    "failed to read value file '".toList ++ path ++ "': ".toList ++ e.message
  | .unreadableInput e => "failed to read value from stdin: ".toList ++ e.message
  | .splice e => e.message
  | .refused reason => reason
  | .sessionBusy => "scan session is already running".toList
  | .malformedKey e => e.message

def message (e : EditError) : Text := e.kind.heading ++ e.detail

end EditError

end TunnelConf
