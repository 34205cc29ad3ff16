import RegexDraft.Proofs.DigitClass

/-!
# Which pieces a bound reaches

A bound goes by the last two characters of the text. Apart from the digit class
itself, only text that is given from outside can end in these two: raw text, and
a literal, as escaping does not hide how a text ends. Every other piece writes
a last character of its own.
-/

namespace RegexDraft

theorem endsInDigit_charClass_iff {c : CharClass} : EndsInDigit c.text ↔ c = .digit := by
  cases c with
  | digit => exact iff_of_true List.suffix_rfl rfl
  | noneOf chars =>
      have hclose : ¬ EndsInDigit (CharClass.noneOf chars).text :=
        not_endsInDigit_append _ (c := ']') rfl (by decide)
      exact iff_of_false hclose nofun
  | unicodeLetter variant =>
      have hclose : ¬ EndsInDigit (CharClass.unicodeLetter variant).text :=
        not_endsInDigit_append _ (c := '}') rfl (by decide)
      exact iff_of_false hclose nofun
  | word | whitespace | nonWhitespace | letter | any | unicodeNumber
  | unicodePunctuation | unicodeSymbol => decide +kernel

theorem not_endsInDigit_quantifier (q : Quantifier) : ¬ EndsInDigit q.text := by
  have hbraced : ∀ count, ¬ EndsInDigit (Quantifier.braced count) :=
    fun _ ↦ not_endsInDigit_append _ (c := '}') rfl (by decide)
  cases q with
  | optional | lazy | oneOrMore | zeroOrMore => decide +kernel
  | exactly n => exact hbraced _
  | atLeast n => exact hbraced _
  | between min max => exact hbraced _

theorem not_endsInDigit_opening (o : Opening) : ¬ EndsInDigit o.text := by
  cases o with
  | plain | capturing => decide +kernel
  | named name => exact not_endsInDigit_append _ (c := '>') rfl (by decide)

theorem not_endsInDigit_lookaround (kind : Lookaround) (pattern : String) :
    ¬ EndsInDigit (kind.text pattern) :=
  not_endsInDigit_append _ (c := ')') rfl (by decide)

/-- The one piece that always ends in a digit class, and the two that do when
the text that they are given does. -/
theorem endsInDigit_text_iff {p : Piece} :
    EndsInDigit p.text ↔
      p = .charClass .digit ∨ (∃ s, p = .raw s ∧ EndsInDigit s) ∨
        ∃ t, p = .literal t ∧ EndsInDigit t := by
  cases p with
  | raw s => simp
  | literal t => simp [endsInDigit_literal_iff]
  | charClass c =>
      have hclass : EndsInDigit (Piece.charClass c).text ↔ c = .digit :=
        endsInDigit_charClass_iff
      simpa using hclass
  | quantifier q => exact iff_of_false (not_endsInDigit_quantifier q) (by simp)
  | opening o => exact iff_of_false (not_endsInDigit_opening o) (by simp)
  | closing => exact iff_of_false (by decide +kernel) (by simp)
  | lookaround kind pattern =>
      exact iff_of_false (not_endsInDigit_lookaround kind pattern) (by simp)
  | boundary b => exact iff_of_false (by cases b <;> decide +kernel) (by simp)
  | requirement r => exact iff_of_false (by cases r <;> decide +kernel) (by simp)
  | addressPart a => exact iff_of_false (by cases a <;> decide +kernel) (by simp)

namespace Draft

/-- A bound right after a piece changes the draft when the piece is the digit
class, raw text that ends in `\d`, or a literal whose own text ends in `\d`. After
every other piece it does nothing, whatever text or counts the piece is given. -/
theorem boundDigits_add_ne_self_iff (E : Literal.MetaEscape) (d : Draft) (p : Piece)
    (n : Int) :
    (d.add p E).boundDigits n ≠ d.add p E ↔
      p = .charClass .digit ∨ (∃ s, p = .raw s ∧ ['\\', 'd'] <:+ s.toList) ∨
        ∃ t, p = .literal t ∧ ['\\', 'd'] <:+ t.toList := by
  obtain rfl : E = .byTable := Subsingleton.elim E .byTable
  rw [Ne, boundDigits_add_eq_self_iff, Decidable.not_not]
  exact endsInDigit_text_iff

/-- With the function that stands for the package's: a literal that ends in `\d`, and
a lookaround with a digit class inside. -/
theorem boundDigits_add_ne_self_iff_byTable :
    ((∅ : Draft).add (.literal "a\\d") .byTable).boundDigits 2 ≠
        (∅ : Draft).add (.literal "a\\d") .byTable ∧
      ¬ ((∅ : Draft).add (.lookaround .ahead "\\d") .byTable).boundDigits 2 ≠
        (∅ : Draft).add (.lookaround .ahead "\\d") .byTable := by
  have hliteral := boundDigits_add_ne_self_iff .byTable ∅ (.literal "a\\d") 2
  have hlookaround := boundDigits_add_ne_self_iff .byTable ∅ (.lookaround .ahead "\\d") 2
  have hend : ['\\', 'd'] <:+ "a\\d".toList := by decide +kernel
  exact ⟨hliteral.mpr (.inr (.inr ⟨_, rfl, hend⟩)), (not_congr hlookaround).mpr (by simp)⟩

end Draft

end RegexDraft
