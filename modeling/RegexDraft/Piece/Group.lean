/-!
# Groups, lookarounds and boundaries

A group is opened by one piece and closed by another, and nothing checks that
the two match. A lookaround carries its whole pattern and closes itself.
-/

namespace RegexDraft

inductive Opening where
  | plain
  | capturing
  | named (name : String)
  deriving DecidableEq, Repr

def Opening.text : Opening → String
  | plain => "(?:"
  | capturing => "("
  | named name => "(?<" ++ name ++ ">"

inductive Lookaround where
  | ahead
  | notAhead
  | behind
  | notBehind
  deriving DecidableEq, Repr

def Lookaround.mark : Lookaround → String
  | ahead => "?="
  | notAhead => "?!"
  | behind => "?<="
  | notBehind => "?<!"

def Lookaround.text (kind : Lookaround) (pattern : String) : String :=
  "(" ++ kind.mark ++ pattern ++ ")"

theorem Lookaround.toList_text (kind : Lookaround) (pattern : String) :
    (kind.text pattern).toList = '(' :: (kind.mark.toList ++ pattern.toList ++ [')']) := by
  simp [text]

inductive Boundary where
  | textStart
  | textEnd
  | word
  | nonWord
  deriving DecidableEq, Repr

def Boundary.text : Boundary → String
  | textStart => "^"
  | textEnd => "$"
  | word => "\\b"
  | nonWord => "\\B"

end RegexDraft
