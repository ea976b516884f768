import TunnelConf.Pattern.Class
import TunnelConf.Pattern.Tree
import TunnelConf.Text.Utf8

/-!
# Patterns

A pattern says of stretches of a text whether they follow it. The stretches from one place come in
an order of preference: of two branches the first one comes first, and a repetition goes on before
it stops, or the other way round if it is not greedy. A pattern matches the end of a text if the
preferred stretch at the first place that has one ends there.
-/

namespace TunnelConf

/-- What a pattern can ask about the place between two bytes. Words are runs of ASCII letters,
digits and low lines. -/
inductive Look
  | textStart
  | textEnd
  | lineStart
  | lineEnd
  | anyLineStart
  | anyLineEnd
  | wordEdge
  | noWordEdge
  | wordStart
  | wordEnd
deriving DecidableEq, Repr

/-- A class admits characters with or without regard to case, and perhaps only ASCII characters. What
follows a group follows what is in it. -/
inductive Pattern
  | empty
  | look (l : Look)
  | oneOf (k : CharClass) (ignoreCase asciiOnly : Bool)
  | sequence (first second : Pattern)
  | choice (first second : Pattern)
  | repeated (r : Repetition) (greedy : Bool) (inner : Pattern)
  | group (name : Option Text) (inner : Pattern)
deriving Repr

/-- A byte of a text, with the character that starts there if one does. -/
structure Cell where
  byte : UInt8
  char : Option Char
deriving DecidableEq, Repr

namespace Cell

def ofChar (c : Char) : List Cell :=
  match Text.utf8 [c] with
  | [] => []
  | b :: bs => ⟨b, some c⟩ :: bs.map fun b => ⟨b, none⟩

def ofText (t : Text) : List Cell := t.flatMap ofChar

end Cell

/-- A place between two bytes of a text: the byte before it, the cells behind it and their
number. -/
structure Spot where
  before : Option UInt8
  rest : List Cell
  left : Nat
deriving DecidableEq, Repr

namespace Spot

def next? (s : Spot) : Option UInt8 := s.rest.head?.map Cell.byte

/-- The place some bytes further. -/
def forward (s : Spot) (count : Nat) : Spot :=
  ⟨(s.rest.take count).getLast?.map Cell.byte, s.rest.drop count, s.left - count⟩

/-- The places without later repetitions of one. -/
def distinct (spots : List Spot) : List Spot :=
  (spots.foldl (fun seen s => if seen.any (·.left == s.left) then seen else s :: seen) []).reverse

end Spot

namespace Look

def isWordByte (b : UInt8) : Bool :=
  let c := Char.ofNat b.toNat
  b < 0x80 && (Text.isAlphanumeric c || c == '_')

def lineFeed : UInt8 := 0x0A

def carriageReturn : UInt8 := 0x0D

/-- Whether what a pattern asks for is so at a place. -/
def holds (s : Spot) : Look → Bool
  | .textStart => s.before.isNone
  | .textEnd => s.rest.isEmpty
  | .lineStart => s.before.all (· == lineFeed)
  | .lineEnd => s.next?.all (· == lineFeed)
  | .anyLineStart =>
    s.before.all fun b => b == lineFeed || b == carriageReturn && s.next? != some lineFeed
  | .anyLineEnd =>
    s.next?.all fun b => b == carriageReturn || b == lineFeed && s.before != some carriageReturn
  | .wordEdge => s.before.any isWordByte != s.next?.any isWordByte
  | .noWordEdge => s.before.any isWordByte == s.next?.any isWordByte
  | .wordStart => !s.before.any isWordByte && s.next?.any isWordByte
  | .wordEnd => s.before.any isWordByte && !s.next?.any isWordByte

end Look

namespace Pattern

/-- The places where repetitions can go on and those where they can end, the latter in reverse. -/
structure Trail where
  starts : List Nat
  stops : List Spot

namespace Trail

def stopAt (t : Trail) (s : Spot) : Trail :=
  if t.stops.any (·.left == s.left) then t else { t with stops := s :: t.stops }

end Trail

/-- Repeats what leads from place to place, from `s` on at least once. Each place is gone on from
only once: what comes of it later has been found before. A place that is new is further on, so the
number of bytes left at `s` is fuel enough. -/
def follow (step : Spot → List Spot) (greedy : Bool) : Nat → Spot → Trail → Trail
  | 0, _, trail => trail
  | fuel + 1, s, trail =>
    (step s).foldl (fun trail q =>
      let again := fun trail : Trail =>
        if trail.starts.contains q.left then trail
        else follow step greedy fuel q { trail with starts := q.left :: trail.starts }
      if greedy then (again trail).stopAt q else again (trail.stopAt q)) trail

/-- The places where one or more repetitions from `s` on end. -/
def repeatedStops (step : Spot → List Spot) (greedy : Bool) (s : Spot) : List Spot :=
  (follow step greedy (s.left + 1) s ⟨[s.left], []⟩).stops.reverse

/-- The places where stretches from `s` on end that follow a pattern, the preferred one first. -/
def stops : Pattern → Spot → List Spot
  | .empty, s => [s]
  | .look l, s => if l.holds s then [s] else []
  | .oneOf k ignoreCase asciiOnly, s =>
    match s.rest.head?.bind Cell.char with
    | some c =>
      if (!asciiOnly || c.toNat < 0x80) && k.admits ignoreCase c then [s.forward c.utf8Size] else []
    | none => []
  | .sequence first second, s => Spot.distinct ((stops first s).flatMap (stops second))
  | .choice first second, s => Spot.distinct (stops first s ++ stops second s)
  | .repeated r greedy inner, s =>
    let once := match r with
      | .zeroOrOne => stops inner s
      | _ => repeatedStops (stops inner) greedy s
    match r with
    | .oneOrMore => once
    | _ => Spot.distinct (if greedy then once ++ [s] else s :: once)
  | .group _ inner, s => stops inner s

/-- Where the first stretch ends that follows a pattern, in a text behind `before`. -/
def firstStop? (p : Pattern) (before : Option UInt8) : List Cell → Option Spot
  | [] => (p.stops ⟨before, [], 0⟩).head?
  | cell :: cells =>
    ((p.stops ⟨before, cell :: cells, cells.length + 1⟩).head?).or
      (firstStop? p (some cell.byte) cells)

/-- Whether the first stretch of a text that follows the pattern ends with the text. -/
def matchesEnd (p : Pattern) (t : Text) : Bool :=
  (p.firstStop? none (Cell.ofText t)).any fun s => s.rest.isEmpty

end Pattern

end TunnelConf
