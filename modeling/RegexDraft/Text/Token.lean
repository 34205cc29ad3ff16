import RegexDraft.Text.Symbol

/-!
# Tokens of pattern text

What a symbol means to an engine. A bare active character is an operator and
any other bare character stands for itself. A taken active character stands
for itself and any other taken character names a class, as in `\d`. Text that
reads to its end leaves the tokens of what follows alone
(`Token.read?_append`).
-/

namespace RegexDraft

/-- The characters that mean something to an engine when they stand bare, and the
slash, which ends delimited notation. -/
def activeChars : List Char :=
  ['\\', '.', '+', '*', '?', '(', ')', '|', '[', ']', '{', '}', '^', '$', '#',
    '&', '-', '~', '/']

def Active (c : Char) : Prop := c ∈ activeChars

instance (c : Char) : Decidable (Active c) :=
  inferInstanceAs (Decidable (c ∈ activeChars))

theorem active_backslash : Active '\\' := by decide

theorem active_slash : Active '/' := by decide

inductive Token where
  | literal (c : Char)
  | operator (c : Char)
  | classEscape (c : Char)
  deriving DecidableEq, Repr

namespace Token

def ofSymbol : Symbol → Token
  | .bare c => if Active c then operator c else literal c
  | .taken c => if Active c then literal c else classEscape c

def read? (s : List Char) : Option (List Token) :=
  (Symbol.read? s).map (·.map ofSymbol)

@[simp] theorem read?_nil : read? [] = some [] := by simp [read?]

@[simp] theorem read?_lone_backslash : read? ['\\'] = none := by simp [read?]

@[simp] theorem read?_backslash (c : Char) (r : List Char) :
    read? ('\\' :: c :: r) = (read? r).map (ofSymbol (.taken c) :: ·) := by
  simp [read?, Function.comp_def]

theorem read?_cons {c : Char} (h : c ≠ '\\') (r : List Char) :
    read? (c :: r) = (read? r).map (ofSymbol (.bare c) :: ·) := by
  simp [read?, Symbol.read?_cons h, Function.comp_def]

theorem read?_append {s : List Char} {u : List Token} (h : read? s = some u)
    (t : List Char) : read? (s ++ t) = (read? t).map (u ++ ·) := by
  obtain ⟨v, hv, rfl⟩ := Option.map_eq_some_iff.mp h
  simp [read?, Symbol.read?_append hv, Function.comp_def]

end Token

end RegexDraft
