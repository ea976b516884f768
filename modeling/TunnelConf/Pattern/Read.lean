import TunnelConf.Pattern.Tree
import TunnelConf.Text.Letter
import TunnelConf.Text.Number

/-!
# Reading patterns

The reader takes a pattern apart from left to right and has no answer for one with a fault. While
the switch `x` is on, white space does not count and a number sign starts a comment; each function
is told whether it is (`verbose`).
-/

namespace TunnelConf

namespace PatternReader

/-- The text without white space and comments at its start. -/
def dropSpace (inComment : Bool) : Text → Text
  | [] => []
  | c :: t =>
    if inComment then dropSpace (c != '\n') t
    else if Text.isSpace c then dropSpace false t
    else if c == '#' then dropSpace true t
    else c :: t

def skip (verbose : Bool) (t : Text) : Text := if verbose then dropSpace false t else t

/-! ### Escapes -/

/-- A character, place or class that is written as one piece. -/
inductive Piece
  | char (c : Char) (isCode : Bool)
  | anchor (a : Anchor)
  | oneOf (k : CharClass)

def Piece.tree : Piece → PatternTree
  | .char c isCode => .char c isCode
  | .anchor a => .anchor a
  | .oneOf k => .oneOf k

/-- The number that the next hexadecimal digits denote. -/
def readCode (verbose : Bool) : Nat → Nat → Text → Option (Nat × Text)
  | 0, value, t => some (value, skip verbose t)
  | count + 1, value, t =>
    match skip verbose t with
    | [] => none
    | c :: t => do readCode verbose count (value * 16 + (← Text.digit? 16 c)) t

/-- How many digits the code of a character has behind the given letter. -/
def codeLength? : Char → Option Nat
  | 'x' => some 2
  | 'u' => some 4
  | 'U' => some 8
  | _ => none

/-- Letters that stand for control characters. -/
def control? : Char → Option Char
  | 'a' => some '\x07'
  | 'f' => some '\x0c'
  | 't' => some '\t'
  | 'n' => some '\n'
  | 'r' => some '\r'
  | 'v' => some '\x0b'
  | _ => none

def anchor? : Char → Option Anchor
  | 'A' => some .textStart
  | 'z' => some .textEnd
  | 'b' => some .wordEdge
  | 'B' => some .noWordEdge
  | '<' => some .wordStart
  | '>' => some .wordEnd
  | _ => none

/-- An ASCII character that stands for itself behind a backslash. -/
def isPlainEscape (c : Char) : Bool :=
  c.toNat < 0x80 && !Text.isAlphanumeric c && c != '<' && c != '>'

/-- What a backslash before the given text stands for. -/
def readEscape (verbose : Bool) : Text → Option (Piece × Text)
  | [] => none
  | c :: t =>
    if isPlainEscape c then some (.char c false, t)
    else if c == 'p' || c == 'P' then
      match skip verbose t with
      | [] => none
      | k :: t => (Category.ofChar? k).map fun k => (.oneOf (.category k (c == 'P')), skip verbose t)
    else
      match codeLength? c, LetterClass.ofChar? c, control? c, anchor? c with
      | some length, _, _, _ => do
        let (code, t) ← readCode verbose length 0 t
        if code.isValidChar then some (.char (Char.ofNat code) (c == 'x'), t) else none
      | _, some (k, negated), _, _ => some (.oneOf (.letter k negated), t)
      | _, _, some d, _ => some (.char d false, t)
      | _, _, _, some a => some (.anchor a, t)
      | _, _, _, _ => none

/-! ### Classes in brackets -/

/-- A character or an escape. -/
def readClassPiece (verbose : Bool) : Text → Option (Piece × Text)
  | [] => none
  | '\\' :: t => readEscape verbose t
  | c :: t => some (.char c false, t)

/-- A class by itself; places between characters are none. -/
def classOf? : Piece → Option CharClass
  | .char c _ => some (.char c)
  | .oneOf k => some k
  | .anchor _ => none

/-- The first character that counts behind a hyphen. -/
def afterHyphen? (verbose : Bool) (t : Text) : Option Char :=
  if !verbose then t.head?
  else
    let rest := t.dropWhile Text.isSpace
    match if rest.head? == some '#' then rest.tail.dropWhile Text.isSpace else rest with
    | c :: _ => some c
    | [] => t.head?

/-- A piece, or two characters with a hyphen between them. A hyphen before another one, or before the
closing bracket, stands for itself. -/
def readRange (verbose : Bool) (t : Text) : Option (CharClass × Text) := do
  let (first, t) ← readClassPiece verbose t
  match skip verbose t with
  | [] => none
  | '-' :: rest =>
    let next := afterHyphen? verbose rest
    if next == some ']' || next == some '-' then return (← classOf? first, '-' :: rest)
    else
      match first, ← readClassPiece verbose (skip verbose rest) with
      | .char a _, (.char b _, t) => if a ≤ b then some (.range a b, t) else none
      | _, _ => none
  | t => return (← classOf? first, t)

/-- A named class behind an opening bracket, up to its closing bracket. -/
def readNamed (t : Text) : Option (CharClass × Text) :=
  match t with
  | ':' :: t =>
    let negated := t.head? == some '^'
    let t := if negated then t.tail else t
    let name := t.takeWhile (· != ':')
    match t.drop name.length with
    | ':' :: ']' :: rest =>
      (asciiClasses.find? (·.1.toList == name)).map fun k => (.ascii k.2 negated, rest)
    | _ => none
  | _ => none

/-- The operation that two equal characters stand for. -/
def operation? : Char → Char → Option SetOperation
  | '&', '&' => some .intersection
  | '-', '-' => some .difference
  | '~', '~' => some .symmetricDifference
  | _, _ => none

/-- The parts read so far, in reverse, as the right side of an operation that waits for it. -/
def finish (left : Option (SetOperation × CharClass)) (parts : List CharClass) : CharClass :=
  let right := CharClass.ofParts parts.reverse
  left.elim right fun (op, left) => .operation op left right

/-- Reads the inside of brackets up to the closing one. At the start (`atStart`) hyphens, and a
closing bracket before anything else, stand for themselves. Each call reads a character, so the
length of the text is fuel enough. -/
def readClass (verbose : Bool) :
    Nat → Bool → Option (SetOperation × CharClass) → List CharClass → Text →
      Option (CharClass × Text)
  | 0, _, _, _, _ => none
  | fuel + 1, atStart, left, parts, t =>
    match skip verbose t with
    | [] => none
    | c :: t =>
      if atStart && (c == '-' || c == ']' && parts.isEmpty) then
        readClass verbose fuel (c == '-') left (.char c :: parts) t
      else if c == ']' then some (finish left parts, t)
      else if c == '[' then
        match readNamed t with
        | some (k, t) => readClass verbose fuel false left (k :: parts) t
        | none => do
          let t := skip verbose t
          let negated := t.head? == some '^'
          let (inner, t) ← readClass verbose fuel true none [] (if negated then t.tail else t)
          readClass verbose fuel false left (.bracketed negated inner :: parts) t
      else
        match t.head?.bind (operation? c) with
        | some op => readClass verbose fuel false (some (op, finish left parts)) [] t.tail
        | none => do
          let (k, t) ← readRange verbose (c :: t)
          readClass verbose fuel false left (k :: parts) t

/-- A class behind its opening bracket. -/
def readBrackets (verbose : Bool) (t : Text) : Option (CharClass × Text) := do
  let t := skip verbose t
  let negated := t.head? == some '^'
  let (inner, t) ← readClass verbose (t.length + 1) true none [] (if negated then t.tail else t)
  return (.bracketed negated inner, t)

/-! ### Groups -/

/-- What an opening parenthesis begins: a group, or switches for the rest of the group around it. -/
inductive Opening
  | group (name : Option Text) (s : Switches)
  | switches (s : Switches)

/-- Switches up to a colon or a closing parenthesis. A hyphen turns those behind it off; there is at
most one, something stands behind it, and no switch is given twice. -/
def readSwitches (off afterHyphen : Bool) (s : Switches) : Text → Option (Opening × Text)
  | [] => none
  | ':' :: t => if afterHyphen then none else some (.group none s, t)
  | ')' :: t => if afterHyphen || s.isEmpty then none else some (.switches s, t)
  | '-' :: t => if off then none else readSwitches true true s t
  | c :: t =>
    match Switch.ofChar? c with
    | some f =>
      if s.any (·.1 == f) then none else readSwitches off false (s ++ [(f, !off)]) t
    | none => none

/-- The characters of the name of a group; it does not start with a digit. -/
def isName (t : Text) : Bool :=
  (t.head?.any fun c => c == '_' || Text.isAlphabetic c) &&
    t.all fun c => Text.isLetterOrNumber c || ['_', '.', '[', ']'].contains c

/-- A name up to a closing angle bracket. -/
def readName (t : Text) : Option (Opening × Text) :=
  match Text.splitFirst? '>' t with
  | some (name, t) => if isName name then some (.group (some name) [], t) else none
  | none => none

def readOpening (verbose : Bool) (t : Text) : Option (Opening × Text) :=
  match skip verbose t with
  | '?' :: 'P' :: '<' :: t => readName t
  | '?' :: '<' :: t => readName t
  | '?' :: t => readSwitches false false [] t
  | t => some (.group none [], t)

/-- Whether white space does not count behind switches. -/
def staysVerbose (verbose : Bool) (s : Switches) : Bool := (s.lookup .verbose).getD verbose

/-! ### Patterns -/

/-- What stands by itself. -/
def readPiece (verbose : Bool) : Text → Option (PatternTree × Text)
  | [] => none
  | '\\' :: t => (readEscape verbose t).map fun (piece, t) => (piece.tree, t)
  | '.' :: t => some (.point, t)
  | '^' :: t => some (.anchor .lineStart, t)
  | '$' :: t => some (.anchor .lineEnd, t)
  | c :: t => some (.char c false, t)

/-- Repeats the part before it, the first of `parts`; switches cannot be repeated. -/
def repeatLast (r : Repetition) (greedy : Bool) : List PatternTree → Option (List PatternTree)
  | [] => none
  | .switches _ :: _ => none
  | part :: parts => some (.repeated r greedy part :: parts)

/-- Reads branches up to the end of the text or a closing parenthesis. The branches and the parts
of the present one that have been read are in reverse. Each call reads a character, so the length
of the text is fuel enough. -/
def readBranches :
    Nat → Bool → List PatternTree → List PatternTree → Text → Option (PatternTree × Text)
  | 0, _, _, _, _ => none
  | fuel + 1, verbose, branches, parts, t =>
    let branch := PatternTree.ofParts parts.reverse
    match skip verbose t with
    | [] => some (.ofBranches (branch :: branches).reverse, [])
    | ')' :: t => some (.ofBranches (branch :: branches).reverse, ')' :: t)
    | '|' :: t => readBranches fuel verbose (branch :: branches) [] t
    | '{' :: _ => none
    | '[' :: t => do
      let (k, t) ← readBrackets verbose t
      readBranches fuel verbose branches (.oneOf k :: parts) t
    | '(' :: t => do
      match ← readOpening verbose t with
      | (.switches s, t) =>
        readBranches fuel (staysVerbose verbose s) branches (.switches s :: parts) t
      | (.group name s, t) =>
        match ← readBranches fuel (staysVerbose verbose s) [] [] t with
        | (inner, ')' :: t) => readBranches fuel verbose branches (.group name s inner :: parts) t
        | _ => none
    | c :: t =>
      match Repetition.ofChar? c with
      | some r => do
        let lazy := t.head? == some '?'
        readBranches fuel verbose branches (← repeatLast r (!lazy) parts)
          (if lazy then t.tail else t)
      | none => do
        let (part, t) ← readPiece verbose (c :: t)
        readBranches fuel verbose branches (part :: parts) t

end PatternReader

namespace PatternTree

/-- How deep a pattern may be nested. -/
def depthLimit : Nat := 250

/-- The tree of a text, if it is a pattern that is not nested too deep and in which no two groups
have the same name. -/
def ofText? (t : Text) : Option PatternTree := do
  match ← PatternReader.readBranches (t.length + 1) false [] [] t with
  | (tree, []) => if tree.depth ≤ depthLimit && tree.names.Nodup then some tree else none
  | _ => none

end PatternTree

end TunnelConf
