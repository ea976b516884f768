import TunnelConf.Text.Category.Letter
import TunnelConf.Text.Category.Mark
import TunnelConf.Text.Category.Number
import TunnelConf.Text.Category.Punctuation
import TunnelConf.Text.Category.Symbol

/-!
# General categories

The first level of the general categories of Unicode 16. Every character belongs to one of them.
-/

namespace TunnelConf

inductive Category
  | letter
  | mark
  | number
  | punctuation
  | symbol
  | separator
  | other
deriving DecidableEq, Repr

namespace Category

/-- A category by its one-letter name, in either case. -/
def ofChar? : Char → Option Category
  | 'L' | 'l' => some .letter
  | 'M' | 'm' => some .mark
  | 'N' | 'n' => some .number
  | 'P' | 'p' => some .punctuation
  | 'S' | 's' => some .symbol
  | 'Z' | 'z' => some .separator
  | 'C' | 'c' => some .other
  | _ => none

/-- The tables of a category. The category of all other characters has none. -/
def tables : Category → List CharRanges
  | .letter => [Text.letterRanges]
  | .mark => [Text.alphabeticMarkRanges, Text.otherMarkRanges]
  | .number => [Text.digitRanges, Text.letterNumberRanges, Text.otherNumberRanges]
  | .punctuation => [Text.connectorRanges, Text.otherPunctuationRanges]
  | .symbol => [Text.symbolRanges]
  | .separator => [Text.separatorRanges]
  | .other => []

def listed : List Category := [.letter, .mark, .number, .punctuation, .symbol, .separator]

def contains (k : Category) (c : Char) : Bool :=
  match k with
  | .other => !listed.any fun k => k.tables.any (·.contains c)
  | k => k.tables.any (·.contains c)

end Category

end TunnelConf
