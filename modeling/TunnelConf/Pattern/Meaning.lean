import TunnelConf.Pattern.Basic
import TunnelConf.Pattern.Read

/-!
# What patterns mean

The pattern that a tree stands for. Switches change the meaning of what stands behind them up to the
end of the group around them. A pattern is about characters; without the switch `u` it is about
bytes, and has no meaning if it could match a part of a character.
-/

namespace TunnelConf

/-- Which switches are on. -/
structure Mode where
  ignoreCase : Bool := false
  multiLine : Bool := false
  dotAll : Bool := false
  swapGreed : Bool := false
  unicode : Bool := true
  carriageReturn : Bool := false
deriving DecidableEq, Repr

namespace Mode

def set (m : Mode) (s : Switches) : Mode :=
  s.foldl (fun m (f, on) =>
    match f with
    | .ignoreCase => { m with ignoreCase := on }
    | .multiLine => { m with multiLine := on }
    | .dotAll => { m with dotAll := on }
    | .swapGreed => { m with swapGreed := on }
    | .unicode => { m with unicode := on }
    | .carriageReturn => { m with carriageReturn := on }
    | .verbose => m) m

end Mode

namespace Pattern

/-- Any character but the given ones. -/
def otherThan (cs : List Char) : Pattern :=
  .oneOf (.bracketed true (.union (cs.map .char))) false false

/-- A character; a code beyond ASCII cannot stand for a byte. -/
def ofChar? (m : Mode) (c : Char) (isCode : Bool) : Option Pattern :=
  let isAscii : Bool := c.toNat < 0x80
  let k := CharClass.bracketed false (.char c)
  if m.unicode then some (.oneOf k m.ignoreCase false)
  else if isAscii then some (.oneOf k m.ignoreCase true)
  else if isCode then none
  else some (.oneOf k false false)

/-- A point matches any character that does not end a line. -/
def ofPoint? (m : Mode) : Option Pattern :=
  if !m.unicode then none
  else if m.dotAll then some (otherThan [])
  else some (otherThan (if m.carriageReturn then ['\r', '\n'] else ['\n']))

/-- The edges of words can be asked for only where words are made of ASCII characters. -/
def ofAnchor? (m : Mode) : Anchor → Option Pattern
  | .textStart => some (.look .textStart)
  | .textEnd => some (.look .textEnd)
  | .lineStart =>
    some (.look (if !m.multiLine then .textStart
      else if m.carriageReturn then .anyLineStart else .lineStart))
  | .lineEnd =>
    some (.look (if !m.multiLine then .textEnd
      else if m.carriageReturn then .anyLineEnd else .lineEnd))
  | .wordEdge => if m.unicode then none else some (.look .wordEdge)
  | .noWordEdge => if m.unicode then none else some (.look .noWordEdge)
  | .wordStart => if m.unicode then none else some (.look .wordStart)
  | .wordEnd => if m.unicode then none else some (.look .wordEnd)

def ofClass? (m : Mode) (k : CharClass) : Option Pattern :=
  if m.unicode then some (.oneOf k m.ignoreCase false)
  else if k.isAscii then some (.oneOf k m.ignoreCase true)
  else none

mutual

/-- The pattern of a tree, and the switches that are on behind it. -/
def ofTree? (m : Mode) : PatternTree → Option (Pattern × Mode)
  | .empty => some (.empty, m)
  | .switches s => some (.empty, m.set s)
  | .char c isCode => (ofChar? m c isCode).map (·, m)
  | .point => (ofPoint? m).map (·, m)
  | .anchor a => (ofAnchor? m a).map (·, m)
  | .oneOf k => (ofClass? m k).map (·, m)
  | .repeated r greedy inner => do
    let (p, m) ← ofTree? m inner
    return (.repeated r (greedy != m.swapGreed) p, m)
  | .group name s inner => do
    let (p, _) ← ofTree? (m.set s) inner
    return (.group name p, m)
  | .sequence parts => ofSequence? m parts
  | .choice branches => ofChoice? m branches

def ofSequence? (m : Mode) : List PatternTree → Option (Pattern × Mode)
  | [] => some (.empty, m)
  | t :: ts => do
    let (p, m) ← ofTree? m t
    let (q, m) ← ofSequence? m ts
    return (.sequence p q, m)

def ofChoice? (m : Mode) : List PatternTree → Option (Pattern × Mode)
  | [] => some (.empty, m)
  | [t] => ofTree? m t
  | t :: ts => do
    let (p, m) ← ofTree? m t
    let (q, m) ← ofChoice? m ts
    return (.choice p q, m)

end

/-- The pattern that a text is written for. -/
def ofText? (t : Text) : Option Pattern := do
  let tree ← PatternTree.ofText? t
  return (← ofTree? {} tree).1

end Pattern

end TunnelConf
