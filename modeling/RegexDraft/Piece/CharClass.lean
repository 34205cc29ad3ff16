/-!
# Character classes

The pattern text of a set of characters. The characters of `noneOf` and the
variant of `unicodeLetter` go into the text as they are: `noneOf "a-z"` leaves
out a range, and `unicodeLetter "u"` is the upper case letters.
-/

namespace RegexDraft

inductive CharClass where
  | digit
  | word
  | whitespace
  | nonWhitespace
  /-- The ASCII letters. -/
  | letter
  | any
  | noneOf (chars : String)
  | unicodeLetter (variant : String)
  | unicodeNumber
  | unicodePunctuation
  | unicodeSymbol
  deriving DecidableEq, Repr

namespace CharClass

def category (code : String) : String := "\\p\x7b" ++ code ++ "\x7d"

def text : CharClass → String
  | digit => "\\d"
  | word => "\\w"
  | whitespace => "\\s"
  | nonWhitespace => "\\S"
  | letter => "[a-zA-Z]"
  | any => "."
  | noneOf chars => "[^" ++ chars ++ "]"
  | unicodeLetter variant => category ("L" ++ variant)
  | unicodeNumber => category "N"
  | unicodePunctuation => category "P"
  | unicodeSymbol => category "S"

abbrev anyUnicodeLetter : CharClass := unicodeLetter ""

@[simp] theorem toList_text_noneOf (chars : String) :
    (noneOf chars).text.toList = '[' :: '^' :: (chars.toList ++ [']']) := by
  simp [text]

end CharClass

end RegexDraft
