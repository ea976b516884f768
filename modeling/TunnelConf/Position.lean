import TunnelConf.Text.Basic

/-!
# Positions

Byte offsets as line and column, both counted from one. Lines end at LF; columns count characters.
-/

namespace TunnelConf

structure Position where
  line : Nat
  column : Nat
deriving DecidableEq, Repr

namespace Position

/-- The offsets after each LF of a text that starts at `offset`. -/
def startsAfter (offset : Nat) : Text → List Nat
  | [] => []
  | c :: t =>
    let next := offset + c.utf8Size
    if c = '\n' then next :: startsAfter next t else startsAfter next t

/-- The offsets at which the lines of a text start. -/
def lineStarts (t : Text) : List Nat := 0 :: startsAfter 0 t

/-- The position of a byte offset. An offset past the end stands at the end of the last line, and
one inside a character at the first column. -/
def ofOffset (t : Text) (byte : Nat) : Position :=
  let passed := (lineStarts t).filter (· ≤ byte)
  let start := passed.getLast?.getD 0
  let before := Text.slice? start (min byte (Text.size t) - start) t
  ⟨passed.length, before.elim 0 List.length + 1⟩

end Position

end TunnelConf
