import RegexDraft.Proofs.BoundReach

/-!
# Escaped text inside a negated class

Inside a class other characters are active than outside of one, but escaping
puts a backslash before all of them. So a text that goes into a negated class as
a literal neither closes it nor makes a range or a class of its own: the members
are the characters of the text, one by one.
-/

namespace RegexDraft

namespace CharClass

/-- Reads a negated class: the symbols before the first bare bracket that closes
it, and the symbols from that bracket on. -/
def readNoneOf? : List Char → Option (List Symbol × List Symbol)
  | '[' :: '^' :: r => (Symbol.read? r).map fun u ↦
    (u.takeWhile (· ≠ .bare ']'), u.dropWhile (· ≠ .bare ']'))
  | _ => none

/-- Text that reads to its end and has no bare closing bracket gives the members
of the class that it goes into. -/
theorem readNoneOf?_text {chars : String} {u : List Symbol}
    (h : Symbol.read? chars.toList = some u) (hu : .bare ']' ∉ u) :
    readNoneOf? (noneOf chars).text.toList = some (u, [.bare ']']) := by
  have hopen : ∀ a ∈ u, decide (a ≠ .bare ']') = true :=
    fun a ha ↦ decide_eq_true fun hclose ↦ hu (hclose ▸ ha)
  have hread : Symbol.read? (chars.toList ++ [']']) = some (u ++ [.bare ']']) := by
    simp [Symbol.read?_append h, Symbol.read?_cons]
  rw [toList_text_noneOf, readNoneOf?, hread, Option.map_some,
    List.takeWhile_append_of_pos hopen, List.dropWhile_append_of_pos hopen]
  simp

/-- The class that leaves out the characters of a text. The text goes into it as
the pattern of a draft that holds it as a literal. -/
def noneOfLiteral (t : String) : CharClass :=
  noneOf (Draft.ofSteps [.add (.literal t)]).pattern

theorem noneOfLiteral_eq (t : String) :
    noneOfLiteral t = noneOf (Piece.literal t).text := by
  have hpattern : (Draft.ofSteps [.add (.literal t)]).pattern = (Piece.literal t).text :=
    (Draft.pattern_add ∅ (.literal t)).trans String.empty_append
  rw [noneOfLiteral, hpattern]

theorem readNoneOf?_noneOfLiteral (t : String) :
    readNoneOf? (noneOfLiteral t).text.toList =
      some (t.toList.map Literal.symbol, [.bare ']']) := by
  have hread : Symbol.read? (Piece.literal t).text.toList =
      some (t.toList.map Literal.symbol) := by
    rw [Piece.toList_text_literal, Literal.symbol_read?_escape]
  rw [noneOfLiteral_eq]
  apply readNoneOf?_text hread
  intro hclose
  exact absurd (Literal.not_active_of_bare_mem hclose) (by decide)

end CharClass

namespace Draft

open CharClass

/-- A class that leaves out a literal is closed by its last character and by no
bracket before that. Its members are the characters of the literal in order, and
none of them that means something inside a class stands bare. A bound does not
reach the class. -/
theorem fragments_add_noneOfLiteral (d : Draft) (t : String) :
    ∃ s u,
      (d.add (.charClass (noneOfLiteral t))).fragments = d.fragments ++ [s] ∧
      s = "[^" ++ (ofSteps [.add (.literal t)]).pattern ++ "]" ∧
      readNoneOf? s.toList = some (u, [.bare ']']) ∧
      (∀ c ∈ ['[', '^', '-', '&', '~', '/'], .bare c ∉ u) ∧
      u.map Symbol.char = t.toList ∧
      ∀ n, (d.add (.charClass (noneOfLiteral t))).boundDigits n =
        d.add (.charClass (noneOfLiteral t)) := by
  refine ⟨(noneOfLiteral t).text, t.toList.map Literal.symbol, rfl, rfl,
    readNoneOf?_noneOfLiteral t, ?_, Literal.map_char_map_symbol _, fun n ↦ ?_⟩
  · intro c hc hbare
    have hactive : ∀ c ∈ ['[', '^', '-', '&', '~', '/'], Active c := by
      simp [Active, activeChars]
    exact Literal.not_active_of_bare_mem hbare (hactive c hc)
  · rw [boundDigits_add_eq_self_iff]
    intro hend
    have hdigit : noneOfLiteral t = .digit := endsInDigit_charClass_iff.mp hend
    simp [noneOfLiteral] at hdigit

end Draft

end RegexDraft
