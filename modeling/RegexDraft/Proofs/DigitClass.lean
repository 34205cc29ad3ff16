import RegexDraft.Draft.Step

/-!
# What a bound takes for a digit class

A bound looks at the last two characters and not at how the text reads. Text
that ends in these two reads in one of two ways: the backslash takes the `d`,
or an earlier backslash takes the backslash and the `d` stands bare. In the
first case the text ends in a digit class. In the second one it does not and is
bounded all the same, and this is the only way in which a bound reaches anything
else.
-/

namespace RegexDraft

/-- The text reads to its end and its last symbols are these. -/
def ReadsToEnd (v : List Symbol) (s : String) : Prop :=
  ∃ u ∈ Symbol.read? s.toList, v <:+ u

instance (v : List Symbol) (s : String) : Decidable (ReadsToEnd v s) :=
  inferInstanceAs (Decidable (∃ u ∈ Symbol.read? s.toList, v <:+ u))

def EndsInDigitClass (s : String) : Prop := ReadsToEnd [.taken 'd'] s

instance (s : String) : Decidable (EndsInDigitClass s) :=
  inferInstanceAs (Decidable (ReadsToEnd _ s))

/-- The text ends in the literal `\d`: a backslash that is escaped and a bare
`d`. -/
def EndsInLiteralDigit (s : String) : Prop := ReadsToEnd [.taken '\\', .bare 'd'] s

instance (s : String) : Decidable (EndsInLiteralDigit s) :=
  inferInstanceAs (Decidable (ReadsToEnd _ s))

theorem ReadsToEnd.chars_suffix {v : List Symbol} {s : String} (h : ReadsToEnd v s) :
    v.flatMap Symbol.chars <:+ s.toList := by
  obtain ⟨u, hu, t, rfl⟩ := h
  refine ⟨t.flatMap Symbol.chars, ?_⟩
  rw [← List.flatMap_append]
  exact Symbol.flatMap_chars hu

/-- Of the two ways to read the last two characters, it depends on the text
before them which one it is. -/
theorem endsInDigit_iff {s : String} :
    EndsInDigit s ↔ EndsInDigitClass s ∨ EndsInLiteralDigit s := by
  constructor
  · rintro ⟨t, ht⟩
    change t ++ ['\\', 'd'] = s.toList at ht
    cases hread : Symbol.read? t with
    | some u =>
        have hs : Symbol.read? s.toList = some (u ++ [.taken 'd']) := by
          simp [← ht, Symbol.read?_append hread]
        exact .inl ⟨_, hs, u, rfl⟩
    | none =>
        -- The backslash that ends `t` takes the first of the two characters.
        obtain ⟨t, u, hu, rfl⟩ := Symbol.read?_eq_none_iff.mp hread
        have hs : Symbol.read? s.toList = some (u ++ [.taken '\\', .bare 'd']) := by
          simp [← ht, Symbol.read?_append hu, Symbol.read?_cons]
        exact .inr ⟨_, hs, u, rfl⟩
  · rintro (h | h)
    · exact h.chars_suffix
    · exact (List.suffix_cons '\\' ['\\', 'd']).trans h.chars_suffix

theorem readsToEnd_literal_iff {v : List Symbol} {t : String} :
    ReadsToEnd v (Piece.literal t).text ↔ v <:+ t.toList.map Literal.symbol := by
  rw [ReadsToEnd, Piece.toList_text_literal, Literal.symbol_read?_escape]
  simp

theorem not_endsInDigitClass_literal (t : String) :
    ¬ EndsInDigitClass (Piece.literal t).text := by
  rw [EndsInDigitClass, readsToEnd_literal_iff]
  intro hend
  have hactive : Active 'd' := Literal.active_of_taken_mem (hend.subset List.mem_cons_self)
  exact absurd hactive (by decide)

theorem endsInDigit_literal_iff {t : String} :
    EndsInDigit (Piece.literal t).text ↔ EndsInDigit t := by
  rw [endsInDigit_iff, or_iff_right (not_endsInDigitClass_literal t), EndsInLiteralDigit,
    readsToEnd_literal_iff]
  constructor
  · intro h
    have hchars := h.map Symbol.char
    rwa [Literal.map_char_map_symbol] at hchars
  · intro h
    exact h.map Literal.symbol

namespace Draft

/-- On a draft whose last fragment does not end in a digit class, a bound does
nothing unless that fragment ends in an escaped backslash and a bare `d`, and
then it always does something. A literal never ends in a digit class, and a
bound after it does something exactly when its own text ends in `\d`. -/
theorem boundDigits_eq_self_iff_not_literalDigit (d : Draft) (n : Int)
    (h : ∀ s ∈ d.fragments.getLast?, ¬ EndsInDigitClass s) :
    (d.boundDigits n = d ↔ ∀ s ∈ d.fragments.getLast?, ¬ EndsInLiteralDigit s) ∧
    ∀ t, ¬ EndsInDigitClass (Piece.literal t).text ∧
      ((d.add (.literal t)).boundDigits n = d.add (.literal t) ↔
        ¬ ['\\', 'd'] <:+ t.toList) := by
  refine ⟨?_, fun t ↦ ⟨not_endsInDigitClass_literal t, ?_⟩⟩
  · rw [boundDigits_eq_self_iff]
    refine forall₂_congr fun s hs ↦ ?_
    rw [endsInDigit_iff, or_iff_right (h s hs)]
  · rw [boundDigits_add_eq_self_iff, endsInDigit_literal_iff]
    rfl

/-- Two escaped backslashes and a bare `d`. -/
def afterBackslashes : Draft := ofSteps [.add (.raw "\\\\\\\\d")]

theorem boundDigits_eq_self_iff_not_literalDigit_backslashes :
    (∀ s ∈ afterBackslashes.fragments.getLast?, ¬ EndsInDigitClass s) ∧
      ¬ afterBackslashes.boundDigits 3 = afterBackslashes ∧
      (afterBackslashes.add (.literal "\\D")).boundDigits 3 =
        afterBackslashes.add (.literal "\\D") := by
  have h : ∀ s ∈ afterBackslashes.fragments.getLast?, ¬ EndsInDigitClass s := by
    decide +kernel
  obtain ⟨hiff, hliteral⟩ := boundDigits_eq_self_iff_not_literalDigit _ 3 h
  exact ⟨h, (not_congr hiff).mpr (by decide +kernel),
    (hliteral "\\D").2.mpr (by decide +kernel)⟩

/-- The text `\d` as a literal. -/
def literalDigit : Draft := ofSteps [.add (.literal "\\d")]

/-- It does not end in a digit class, and a bound lets its `d` occur as often as
the bound says. -/
theorem boundDigits_literal_ne_self :
    (∀ s ∈ literalDigit.fragments.getLast?, ¬ EndsInDigitClass s) ∧
      literalDigit.boundDigits 2 ≠ literalDigit ∧
      (literalDigit.boundDigits 2).pattern = "\\\\d\x7b0,2\x7d" := by
  decide +kernel

end Draft

end RegexDraft
