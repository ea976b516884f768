import TunnelConf.Storage.Path
import TunnelConf.Text.Utf8

/-!
# File trees

Files and directories by the names that lead to them from the root. There is nothing else in a tree:
no symbolic links, and no file with two names, so that a change under one name is none under another.
A path is followed from the working directory, part by part; each part but the last has to be a
directory. `get?_insert` and `get?_erase` say what a tree holds after a change.
-/

namespace TunnelConf

/-- Why an operation on files fails. -/
inductive IoError
  | notFound
  | isDirectory
  | notDirectory
  | invalidText
  | invalidSource
  | denied
  | busy
  | zeroByte
  | nameTooLong
deriving DecidableEq, Repr

namespace IoError

def message (e : IoError) : Text :=
  String.toList <| match e with
  | .notFound => "No such file or directory (os error 2)"
  | .isDirectory => "Is a directory (os error 21)"
  | .notDirectory => "Not a directory (os error 20)"
  | .invalidText => "stream did not contain valid UTF-8"
  | .invalidSource => "the source path is neither a regular file nor a symlink to a regular file"
  | .denied => "Permission denied (os error 13)"
  | .busy => "Device or resource busy (os error 16)"
  | .zeroByte => "file name contained an unexpected NUL byte"
  | .nameTooLong => "File name too long (os error 36)"

end IoError

structure File where
  content : List UInt8
  mode : Nat
deriving DecidableEq, Repr

namespace File

/-- Whether the owner may read the file. -/
def readable (f : File) : Bool := f.mode &&& 0o400 != 0

/-- Whether the owner may open the file to write to it. -/
def writable (f : File) : Bool := f.mode &&& 0o200 != 0

end File

inductive Node
  | file (f : File)
  | directory
deriving DecidableEq, Repr

/-- The names that lead from the root to a node. -/
abbrev Location := List Text

namespace Location

/-- The absolute path of a location. -/
def path (l : Location) : Text := '/' :: List.intercalate ['/'] l

/-- The location and the directories above it, up to the root. -/
def ancestors (l : Location) : List Location :=
  (List.range (l.length + 1)).reverse.map fun n => l.take n

end Location

/-- The nodes below the root, and the working directory. -/
structure FileTree where
  nodes : List (Location × Node)
  here : Location
deriving DecidableEq, Repr

namespace FileTree

/-- The node at a location; the root is a directory. -/
def get? (t : FileTree) (l : Location) : Option Node :=
  if l = [] then some .directory else (t.nodes.find? (·.1 == l)).map Prod.snd

/-- Puts a node in the place of the first one at its location, or behind all others. -/
def put (l : Location) (n : Node) : List (Location × Node) → List (Location × Node)
  | [] => [(l, n)]
  | e :: es => if e.1 == l then (l, n) :: es else e :: put l n es

def insert (t : FileTree) (l : Location) (n : Node) : FileTree :=
  { t with nodes := put l n t.nodes }

def erase (t : FileTree) (l : Location) : FileTree :=
  { t with nodes := t.nodes.filter fun e => e.1 != l }

/-- The tree with a directory, and those above it, at a location where no file is. -/
def withDirectory (t : FileTree) (l : Location) : FileTree :=
  l.ancestors.foldl (fun t d => if (t.get? d).isSome then t else t.insert d .directory) t

/-- The tree with a file and the directories above it. -/
def withFile (t : FileTree) (l : Location) (f : File) : FileTree :=
  (t.withDirectory l.dropLast).insert l (.file f)

def files (t : FileTree) : List (Location × File) :=
  t.nodes.filterMap fun e =>
    match e.2 with
    | .file f => some (e.1, f)
    | .directory => none

theorem map_find?_put (l m : Location) (n : Node) (es : List (Location × Node)) :
    ((put l n es).find? (·.1 == m)).map Prod.snd =
      if m = l then some n else (es.find? (·.1 == m)).map Prod.snd := by
  induction es with
  | nil => by_cases h : m = l <;> simp [put, h, Ne.symm]
  | cons e es ih =>
    by_cases he : e.1 = l
    · by_cases h : m = l
      · simp [put, he, h]
      · simp [put, he, h, Ne.symm h]
    · by_cases h : e.1 = m
      · simp [put, h, h ▸ he]
      · simp [put, he, h, ih]

/-- What is inserted below the root is there, and all else stays. -/
theorem get?_insert {l : Location} (hl : l ≠ []) (t : FileTree) (m : Location) (n : Node) :
    (t.insert l n).get? m = if m = l then some n else t.get? m := by
  by_cases hm : m = []
  · simp [get?, hm, hl.symm]
  · simp [get?, hm, insert, map_find?_put]

/-- What is erased is gone, and all else stays. -/
theorem get?_erase {l : Location} (hl : l ≠ []) (t : FileTree) (m : Location) :
    (t.erase l).get? m = if m = l then none else t.get? m := by
  by_cases hm : m = []
  · simp [get?, hm, hl.symm]
  · simp only [get?, hm, erase, if_false, List.find?_filter]
    by_cases h : m = l
    · simp [h]
    · rw [if_neg h]
      congr 2
      funext e
      by_cases he : e.1 = m <;> simp [he, h]

/-- The number of bytes that a name can have. -/
def nameLimit : Nat := 255

/-- The number of bytes that a path has to stay below. -/
def pathLimit : Nat := 4096

/-- Follows the parts of a path from a directory. A name is looked at only in a directory. -/
def walk (t : FileTree) : Location → List Text → Except IoError Location
  | l, [] => .ok l
  | l, part :: parts =>
    match t.get? l with
    | none => .error .notFound
    | some (.file _) => .error .notDirectory
    | some .directory =>
      match Path.component? part with
      | some .parent => t.walk l.dropLast parts
      | some (.name n) =>
        if nameLimit < Text.size n then .error .nameTooLong else t.walk (l ++ [n]) parts
      | _ => t.walk l parts

/-- The location that a path of any length leads to, whether something is there or not. -/
def follow (t : FileTree) (p : Text) : Except IoError Location :=
  if p.contains '\x00' then .error .zeroByte
  else if p.isEmpty then .error .notFound
  else t.walk (if p.head? = some '/' then [] else t.here) (Path.parts p)

/-- The location that a path within the limit leads to, whether something is there or not. -/
def locate (t : FileTree) (p : Text) : Except IoError Location :=
  if pathLimit ≤ Text.size p && !p.contains '\x00' then .error .nameTooLong else t.follow p

/-- The location of something that exists. The path is followed name by name, so that only its names
have a limit. -/
def canonical (t : FileTree) (p : Text) : Except IoError Location := do
  let l ← t.follow p
  if (t.get? l).isSome then return l else throw .notFound

def node (t : FileTree) (p : Text) : Except IoError Node := do
  match t.get? (← t.locate p) with
  | some n => return n
  | none => throw .notFound

def pathExists (t : FileTree) (p : Text) : Bool := (t.node p).isOk

def readBytes (t : FileTree) (p : Text) : Except IoError (List UInt8) := do
  match ← t.node p with
  | .file f => if f.readable then return f.content else throw .denied
  | .directory => throw .isDirectory

def readText (t : FileTree) (p : Text) : Except IoError Text := do
  match Text.ofUtf8? (← t.readBytes p) with
  | some text => return text
  | none => throw .invalidText

/-- The permission bits of new files and of directories. -/
def newFileMode : Nat := 0o644

def directoryMode : Nat := 0o755

def mode (t : FileTree) (p : Text) : Except IoError Nat := do
  match ← t.node p with
  | .file f => return f.mode
  | .directory => return directoryMode

end FileTree

end TunnelConf
