import RegexDraft.Piece.CharClass
import RegexDraft.Piece.Group
import RegexDraft.Piece.Preset
import RegexDraft.Piece.Quantifier
import RegexDraft.Text.Literal

/-!
# Pieces of a pattern

A piece is what one step of drafting appends, and `Piece.text` is the pattern
text it stands for. A literal is escaped, by the table unless another function is
given that does what is assumed of it; raw text goes in as it is.
-/

namespace RegexDraft

inductive Piece where
  | raw (text : String)
  | literal (text : String)
  | charClass (c : CharClass)
  | quantifier (q : Quantifier)
  | opening (o : Opening)
  | closing
  | lookaround (kind : Lookaround) (pattern : String)
  | boundary (b : Boundary)
  | requirement (r : Requirement)
  | addressPart (a : AddressPart)
  deriving DecidableEq, Repr

namespace Piece

def text (p : Piece) (E : Literal.MetaEscape := .byTable) : String :=
  match p with
  | raw text => text
  | literal text => String.ofList (Literal.escape E text.toList)
  | charClass c => c.text
  | quantifier q => q.text
  | opening o => o.text
  | closing => ")"
  | lookaround kind pattern => kind.text pattern
  | boundary b => b.text
  | requirement r => r.text
  | addressPart a => a.text

/-- The text that a piece puts into the pattern as it is. -/
def inserted? : Piece → Option String
  | raw text => some text
  | charClass (.noneOf chars) => some chars
  | charClass (.unicodeLetter variant) => some variant
  | opening (.named name) => some name
  | lookaround _ pattern => some pattern
  | _ => none

instance : Coe CharClass Piece := ⟨charClass⟩

instance : Coe Quantifier Piece := ⟨quantifier⟩

instance : Coe Opening Piece := ⟨opening⟩

instance : Coe Boundary Piece := ⟨boundary⟩

instance : Coe Requirement Piece := ⟨requirement⟩

instance : Coe AddressPart Piece := ⟨addressPart⟩

variable {E : Literal.MetaEscape}

@[simp] theorem text_raw (t : String) : (raw t).text E = t := rfl

@[simp] theorem toList_text_literal (t : String) :
    ((literal t).text E).toList = Literal.escape E t.toList :=
  String.toList_ofList

end Piece

end RegexDraft
