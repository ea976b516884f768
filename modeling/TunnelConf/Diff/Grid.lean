/-!
# Middle points of shortest scripts

A script between two lists is a walk through a grid from one corner to the other: a deletion goes
one step along the first list, an insertion one step along the second, and a kept element goes
along both. Two searches, one from either corner, take one more change in each round and note how
far they come on each diagonal. Where they meet lies on a shortest walk; `Grid.middle?` is a point
there.
-/

namespace TunnelConf

namespace Grid

variable {α : Type} [DecidableEq α]

/-- How far a search comes on a diagonal, counted along the first list: where it enters the diagonal
and where the kept elements from there on end. -/
structure Reach where
  start : Nat
  stop : Nat
deriving DecidableEq, Repr

/-- What a search has reached after as many changes as there are entries less one. Entry `i` stands
for the diagonal with number `2 * i` less that number of changes. -/
abbrev Front := Array Reach

/-- How many elements are the same from places `x` and `y` on. -/
def run (os ns : Array α) (x y : Nat) : Nat :=
  if h : x < os.size then
    if some os[x] = ns[y]? then run os ns (x + 1) (y + 1) + 1 else 0
  else 0
termination_by os.size - x

/-- Where the next round enters its diagonal `i`: behind a deletion or behind an insertion, where
more of the first list is passed. -/
def enter (f : Front) (i : Nat) : Nat :=
  let stop := fun j => (f[j]?).elim 0 Reach.stop
  max (if i = 0 then 0 else stop (i - 1) + 1) (stop i)

/-- The place in the second list at place `x` of the first one on diagonal `i` of round `d`. -/
def across (d i x : Nat) : Nat := x + d - 2 * i

/-- One more round. -/
def advance (os ns : Array α) (f : Front) : Front :=
  (Array.range (f.size + 1)).map fun i =>
    let x := enter f i
    ⟨x, x + run os ns x (across f.size i x)⟩

/-- The entry for a diagonal by its number. -/
def onDiagonal? (f : Front) (number : Int) : Option Reach :=
  let twice : Int := number + f.size - 1
  if twice < 0 then none else f[twice.toNat / 2]?

/-- The highest diagonal on which a search meets the other one, which counts from the other corner
of a grid of `n` columns and `m` rows. -/
def meeting? (n m : Nat) (mine other : Front) : Option (Nat × Reach) :=
  (List.range mine.size).reverse.findSome? fun (i : Nat) => do
    let reach ← mine[i]?
    let number : Int := 2 * (i : Int) - mine.size + 1
    let facing ← onDiagonal? other ((n : Int) - (m : Int) - number)
    if n ≤ reach.stop + facing.stop then some (i, reach) else none

/-- Goes on with both searches, for as many rounds as there is fuel. They can meet after a step of
the first one if the number of changes is odd, and after one of the second one if it is even. -/
def search (os ns backOs backNs : Array α) : Nat → Front → Front → Option (Nat × Nat)
  | 0, _, _ => none
  | fuel + 1, front, back =>
    let n := os.size
    let m := ns.size
    let d := front.size
    let isOdd := (n + m) % 2 == 1
    let front := advance os ns front
    match if isOdd then meeting? n m front back else none with
    | some (i, reach) => some (reach.start, across d i reach.start)
    | none =>
      let back := advance backOs backNs back
      match if isOdd then none else meeting? n m back front with
      | some (i, reach) => some (n - reach.stop, m - across d i reach.stop)
      | none => search os ns backOs backNs fuel front back

/-- A point on a shortest walk, as a place in either list. -/
def middle? (os ns : List α) : Option (Nat × Nat) :=
  search os.toArray ns.toArray os.reverse.toArray ns.reverse.toArray
    ((os.length + ns.length + 1) / 2 + 1) #[] #[]

end Grid

end TunnelConf
