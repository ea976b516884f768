import TunnelConf.Text.Number

/-!
# IP addresses

Addresses are read in one of two styles: the strict one for addresses by themselves, and the loose
one for the address of a subnet, which allows leading zeros in octets and a `::` that stands for
no group at all. A reader takes what it can from the front of a text and returns the rest.
-/

namespace TunnelConf

inductive Address
  | v4 (octets : List Nat)
  | v6 (groups : List Nat)
deriving DecidableEq, Repr

namespace Address

structure Style where
  leadingZeros : Bool
  emptyRun : Bool

def strict : Style := ⟨false, false⟩

def loose : Style := ⟨true, true⟩

/-- The text after a given first character. -/
def expect? (c : Char) : Text → Option Text
  | [] => none
  | d :: t => if d = c then some t else none

/-- A number below `bound` with at most `width` digits, and the rest. -/
def readNumber? (base width bound : Nat) (t : Text) : Option (Nat × Text) :=
  let isDigit := fun c => (Text.digit? base c).isSome
  let digits := t.takeWhile isDigit
  let n := Text.valueOf base digits
  if digits.isEmpty || width < digits.length || bound ≤ n then none
  else some (n, t.dropWhile isDigit)

def readOctet? (s : Style) (t : Text) : Option (Nat × Text) :=
  let digits := t.takeWhile Text.isDigit
  if !s.leadingZeros && 1 < digits.length && digits.head? = some '0' then none
  else readNumber? 10 3 256 t

def readV4? (s : Style) (t : Text) : Option (List Nat × Text) := do
  let (a, t) ← readOctet? s t
  let (b, t) ← readOctet? s (← expect? '.' t)
  let (c, t) ← readOctet? s (← expect? '.' t)
  let (d, t) ← readOctet? s (← expect? '.' t)
  return ([a, b, c, d], t)

/-- The groups that four octets fill. -/
def groupsOf : List Nat → List Nat
  | [a, b, c, d] => [a * 256 + b, c * 256 + d]
  | _ => []

/-- Up to `n` groups, separated by colons, the first of which follows a colon unless `first`
holds. Four octets may stand in the place of the last two groups; whether they do is returned with
the groups. -/
def readGroups (s : Style) : Bool → Nat → Text → List Nat × Bool × Text
  | _, 0, t => ([], false, t)
  | first, n + 1, t =>
    match if first then some t else expect? ':' t with
    | none => ([], false, t)
    | some u =>
      match if n = 0 then none else readV4? s u with
      | some (octets, r) => (groupsOf octets, true, r)
      | none =>
        match readNumber? 16 4 65536 u with
        | none => ([], false, t)
        | some (g, r) =>
          let (gs, dotted, r) := readGroups s false n r
          (g :: gs, dotted, r)

def readV6? (s : Style) (t : Text) : Option (List Nat × Text) :=
  let (front, dotted, r) := readGroups s true 8 t
  if front.length = 8 then some (front, r)
  else if dotted then none
  else do
    let r ← expect? ':' (← expect? ':' r)
    let most := (if s.emptyRun then 8 else 7) - front.length
    let (back, _, r) := readGroups s true most r
    return (front ++ List.replicate (8 - front.length - back.length) 0 ++ back, r)

/-- What a reader found, if it used up the text. -/
def complete? {α : Type} : Option (α × Text) → Option α
  | some (a, []) => some a
  | _ => none

def read? (s : Style) (t : Text) : Option (Address × Text) :=
  match readV4? s t with
  | some (octets, r) => some (.v4 octets, r)
  | none => (readV6? s t).map fun p => (.v6 p.1, p.2)

def ofText? (t : Text) : Option Address := complete? (read? strict t)

end Address

end TunnelConf
