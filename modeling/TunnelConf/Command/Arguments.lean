import TunnelConf.Text.Ascii

/-!
# Command lines

The arguments of a run are options and operands. A grammar says which of them a command takes; they
are read from left to right, and the first thing that is wrong, or that asks for the version or for
help, ends the reading.
-/

namespace TunnelConf

inductive Format
  | plain
  | json
deriving DecidableEq, Repr

structure EditFlags where
  dryRun : Bool
  backup : Bool
  noBackup : Bool
  quiet : Bool
deriving DecidableEq, Repr

inductive Command
  | check (files : List Text) (format : Format)
  | add (file key : Text) (value valueFile : Option Text) (flags : EditFlags)
  | fillKeys (file : Text) (flags : EditFlags)
  | display (file : Text) (wanted : Option Text) (json : Bool)
  | generateKey
  | publicKey
deriving DecidableEq, Repr

/-- What a command line asks for. -/
structure Invocation where
  config : Option Text
  verbosity : Nat
  command : Command
deriving DecidableEq, Repr

/-- Why nothing is to be run. -/
inductive Stop
  | usage
  | help
  | version (program : Text)
deriving DecidableEq, Repr

namespace Arguments

inductive ValueKind
  | text
  | path
  | choice (names : List String)
deriving DecidableEq, Repr

inductive OptionKind
  | flag
  | counter
  | value (kind : ValueKind) (hyphens : Bool)
  | help
  | version
deriving DecidableEq, Repr

structure OptionSpec where
  name : String
  short : Option Char
  kind : OptionKind
deriving DecidableEq, Repr

/-- The options of a command, its operands, and the kind of further operands if it takes any
number. With `commands` the first operand names a command and ends the reading. -/
structure Grammar where
  program : Text
  options : List OptionSpec
  operands : List ValueKind
  more : Option ValueKind
  commands : Bool

/-- What has been read: each option as often as it was given, with its value if it takes one. -/
structure Given where
  options : List (String × Text)
  operands : List Text
deriving DecidableEq, Repr

namespace Given

def count (g : Given) (name : String) : Nat := g.options.countP (·.1 == name)

def has (g : Given) (name : String) : Bool := 0 < g.count name

def value? (g : Given) (name : String) : Option Text := g.options.lookup name

end Given

/-- Paths are not empty, and a choice is one of its names. -/
def admits (v : Text) : ValueKind → Bool
  | .text => true
  | .path => !v.isEmpty
  | .choice names => names.any fun n => n.toList == v

/-- Whether an argument is an option, or the end of all options. A hyphen by itself is neither. -/
def isOption (a : Text) : Bool := a.head? = some '-' && a != ['-']

def addOption (g : Given) (spec : OptionSpec) (v : Text) : Except Stop Given :=
  if spec.kind != .counter && g.has spec.name then .error .usage
  else .ok { g with options := g.options ++ [(spec.name, v)] }

def addValue (g : Given) (spec : OptionSpec) (kind : ValueKind) (v : Text) : Except Stop Given :=
  if admits v kind then addOption g spec v else .error .usage

/-- An option that takes no value. -/
def addPlain (grammar : Grammar) (g : Given) (spec : OptionSpec) : Except Stop Given :=
  match spec.kind with
  | .help => .error .help
  | .version => .error (.version grammar.program)
  | .value .. => .error .usage
  | .flag | .counter => addOption g spec []

def addOperand (grammar : Grammar) (g : Given) (v : Text) : Except Stop Given :=
  match (grammar.operands[g.operands.length]?).or grammar.more with
  | none => .error .usage
  | some kind =>
    if admits v kind then .ok { g with operands := g.operands ++ [v] } else .error .usage

/-- Options of one letter behind one hyphen. -/
def addShort (grammar : Grammar) (g : Given) (c : Char) : Except Stop Given :=
  match grammar.options.find? (·.short == some c) with
  | none => .error .usage
  | some spec => addPlain grammar g spec

/-- An option by its name, and the value after an equals sign if there is one. -/
def longOption? (a : Text) : Option (Text × Option Text) :=
  match a with
  | '-' :: '-' :: rest =>
    match Text.splitFirst? '=' rest with
    | none => some (rest, none)
    | some (name, v) => some (name, some v)
  | _ => none

/-- A value that was given to an option and is still to be checked. -/
structure Pending where
  spec : OptionSpec
  kind : ValueKind
  value : Text
deriving DecidableEq, Repr

/-- What has been read, the value that the reading ended with if it is still to be checked, and the
name of a command with what follows it. -/
structure Reading where
  given : Given
  pending : Option Pending
  rest : List Text
deriving DecidableEq, Repr

/-- All that has been read, with the pending value checked. -/
def Reading.settle (r : Reading) : Except Stop Given :=
  match r.pending with
  | none => .ok r.given
  | some p => addValue r.given p.spec p.kind p.value

/-- Whether the name of a command is next. -/
def atCommand (grammar : Grammar) (rest : List Text) : Bool :=
  grammar.commands && rest.head?.any (!isOption ·)

/-- Reads arguments up to the name of a command. A value in an argument of its own is checked when
the next option or operand is read, so that one right before the name of a command stays pending. -/
def read (grammar : Grammar) (g : Given) : List Text → Except Stop Reading
  | [] => .ok ⟨g, none, []⟩
  | a :: rest =>
    if a = ['-', '-'] then do return ⟨← rest.foldlM (addOperand grammar) g, none, []⟩
    else if isOption a then
      match longOption? a with
      | none => do read grammar (← a.tail.foldlM (addShort grammar) g) rest
      | some (name, attached) =>
        match grammar.options.find? (·.name.toList == name) with
        | none => .error .usage
        | some spec =>
          match spec.kind, attached, rest with
          | .value kind _, some v, rest => do read grammar (← addValue g spec kind v) rest
          | .value kind hyphens, none, v :: rest =>
            if isOption v && !hyphens then .error .usage
            else if atCommand grammar rest then .ok ⟨g, some ⟨spec, kind, v⟩, rest⟩
            else do read grammar (← addValue g spec kind v) rest
          | .value .., none, [] => .error .usage
          | _, some _, _ => .error .usage
          | _, none, rest => do read grammar (← addPlain grammar g spec) rest
    else if grammar.commands then .ok ⟨g, none, a :: rest⟩
    else do read grammar (← addOperand grammar g a) rest

/-- The options that all commands have. -/
def commonOptions : List OptionSpec :=
  [⟨"config", none, .value .path false⟩, ⟨"verbose", some 'v', .counter⟩,
    ⟨"help", some 'h', .help⟩, ⟨"version", some 'V', .version⟩]

def editOptions : List OptionSpec :=
  [⟨"dry-run", none, .flag⟩, ⟨"backup", none, .flag⟩, ⟨"no-backup", none, .flag⟩,
    ⟨"quiet", some 'q', .flag⟩]

def program : Text := "wgconf-cli".toList

def mainGrammar : Grammar := ⟨program, commonOptions, [], none, true⟩

/-- The commands with their options and operands. -/
def commands : List (String × List OptionSpec × List ValueKind × Option ValueKind) :=
  [("check", [⟨"format", none, .value (.choice ["plain", "json"]) false⟩], [], some .path),
    ("add", ⟨"value-file", none, .value .path true⟩ :: editOptions, [.path, .text, .text], none),
    ("fill-keys", editOptions, [.path], none),
    ("show", [⟨"section", none, .value .text false⟩, ⟨"json", none, .flag⟩], [.path], none),
    ("genkey", [], [], none),
    ("pubkey", [], [], none)]

def grammarOf? (name : Text) : Option Grammar :=
  (commands.find? (·.1.toList == name)).map fun (_, options, operands, more) =>
    ⟨program ++ '-' :: name, options ++ commonOptions, operands, more, false⟩

/-- Only one of the two options on backups can be given. -/
def editFlags (g : Given) : Except Stop EditFlags :=
  if g.has "backup" && g.has "no-backup" then .error .usage
  else .ok ⟨g.has "dry-run", g.has "backup", g.has "no-backup", g.has "quiet"⟩

/-- The command with the given name and arguments. -/
def command (name : Text) (g : Given) : Except Stop Command :=
  match String.ofList name, g.operands with
  | "check", f :: fs =>
    .ok (.check (f :: fs) (if g.value? "format" = some "json".toList then .json else .plain))
  | "add", file :: key :: value => do
    return .add file key value.head? (g.value? "value-file") (← editFlags g)
  | "fill-keys", [file] => do return .fillKeys file (← editFlags g)
  | "show", [file] => .ok (.display file (g.value? "section") (g.has "json"))
  | "genkey", [] => .ok .generateKey
  | "pubkey", [] => .ok .publicKey
  | _, _ => .error .usage

/-- Options that all commands have may stand before the command or behind it. What stands behind it
counts if both are given. -/
def combine (outer inner : Given) (c : Command) : Invocation :=
  let verbosity := if inner.has "verbose" then inner.count "verbose" else outer.count "verbose"
  ⟨(inner.value? "config").or (outer.value? "config"), verbosity, c⟩

/-- The arguments of the command are read before a value that is pending in front of its name is
checked, so that a wish for help or for the version comes first. -/
def parse (arguments : List Text) : Except Stop Invocation := do
  let outer ← read mainGrammar ⟨[], []⟩ arguments
  match outer.rest with
  | [] => throw .usage
  | name :: rest =>
    match grammarOf? name with
    | some grammar =>
      let inner ← (← read grammar ⟨[], []⟩ rest).settle
      let c ← command name inner
      return combine (← outer.settle) inner c
    | none =>
      let asksHelp := name = "help".toList && rest.length ≤ 1 &&
        rest.all fun a => a = "help".toList || (grammarOf? a).isSome
      throw (if asksHelp then .help else .usage)

end Arguments

end TunnelConf
