import TunnelConf.Text.Category.Letter
import TunnelConf.Text.Category.Mark
import TunnelConf.Text.Category.Number
import TunnelConf.Text.Category.Punctuation

/-!
# Word characters

The characters that may stand in a section name: letters, letter-like numerals, marks, decimal
digits, connector punctuation and the two joining controls, as Unicode 16 assigns them.
-/

namespace TunnelConf

namespace Text

/-- The code points of letters in circles and squares, which are alphabetic symbols. -/
def enclosedLetterRanges : CharRanges :=
  [(0x24B6, 0x24E9), (0x1F130, 0x1F149), (0x1F150, 0x1F169), (0x1F170, 0x1F189)]

/-- The code points of the two controls that join and separate letters. -/
def joinerRanges : CharRanges := [(0x200C, 0x200D)]

def isWord (c : Char) : Bool :=
  letterRanges.contains c || alphabeticMarkRanges.contains c || otherMarkRanges.contains c ||
    digitRanges.contains c || letterNumberRanges.contains c || connectorRanges.contains c ||
    enclosedLetterRanges.contains c || joinerRanges.contains c

end Text

end TunnelConf
