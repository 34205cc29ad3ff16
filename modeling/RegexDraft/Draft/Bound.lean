import RegexDraft.Piece

/-!
# Bounding a digit class

A bound says how often a digit class at the end of the text may occur. It takes
the class off and writes it again with the counts behind it, which is the text
followed by the quantifier from zero (`bounded_of_endsInDigit`). What it writes
does not end in a digit class again (`not_endsInDigit_bounded`), so a further bound
finds nothing to do.
-/

namespace RegexDraft

/-- The text ends in the two characters of the digit class. Whether the
backslash is itself taken by an earlier one makes no difference. -/
def EndsInDigit (s : String) : Prop := ['\\', 'd'] <:+ s.toList

instance (s : String) : Decidable (EndsInDigit s) :=
  inferInstanceAs (Decidable (['\\', 'd'] <:+ s.toList))

/-- Lets a digit class at the end of the text occur at most `n` times. Any other
text stays as it is. -/
def bounded (n : Int) (s : String) : String :=
  match s.dropSuffix? CharClass.digit.text with
  | none => s
  | some head => head.copy ++ CharClass.digit.text ++ "\x7b0," ++ toString n ++ "\x7d"

theorem dropSuffix?_digit_eq_none_iff {s : String} :
    s.dropSuffix? CharClass.digit.text = none ↔ ¬ EndsInDigit s := by
  have hends : s.toSlice.endsWith CharClass.digit.text = true ↔ EndsInDigit s := by
    rw [String.Slice.endsWith_string_iff, String.copy_toSlice]
    rfl
  rw [String.dropSuffix?_eq_dropSuffix?_toSlice, String.Slice.dropSuffix?_eq_none_iff,
    ← hends, Bool.not_eq_true]

theorem copy_append_of_dropSuffix?_digit {s : String} {head : String.Slice}
    (h : s.dropSuffix? CharClass.digit.text = some head) :
    s = head.copy ++ CharClass.digit.text := by
  rw [String.dropSuffix?_eq_dropSuffix?_toSlice] at h
  rw [← String.Slice.eq_append_of_dropSuffix?_string_eq_some h, String.copy_toSlice]

theorem bounded_of_not_endsInDigit {s : String} (h : ¬ EndsInDigit s) (n : Int) :
    bounded n s = s := by
  rw [bounded, dropSuffix?_digit_eq_none_iff.mpr h]

/-- A bound comes to the same as the quantifier from zero, written behind the
text. -/
theorem bounded_of_endsInDigit {s : String} (h : EndsInDigit s) (n : Int) :
    bounded n s = s ++ (Quantifier.upTo n).text := by
  cases hdrop : s.dropSuffix? CharClass.digit.text with
  | none => exact absurd h (dropSuffix?_digit_eq_none_iff.mp hdrop)
  | some head =>
      have hs : s = head.copy ++ CharClass.digit.text :=
        copy_append_of_dropSuffix?_digit hdrop
      calc
        bounded n s =
            head.copy ++ CharClass.digit.text ++ "\x7b0," ++ toString n ++ "\x7d" := by
          rw [bounded, hdrop]
        _ = s ++ (Quantifier.upTo n).text := by
          rw [← hs, Quantifier.text_upTo, String.append_assoc, String.append_assoc,
            String.append_assoc]

theorem bounded_eq_self_iff {n : Int} {s : String} :
    bounded n s = s ↔ ¬ EndsInDigit s := by
  refine ⟨fun h hs ↦ ?_, fun hs ↦ bounded_of_not_endsInDigit hs n⟩
  have hlength : (s ++ (Quantifier.upTo n).text).length = s.length := by
    rw [← bounded_of_endsInDigit hs, h]
  simp [Quantifier.text, Quantifier.braced] at hlength

theorem EndsInDigit.getLast? {s : String} (h : EndsInDigit s) :
    s.toList.getLast? = some 'd' := by
  obtain ⟨t, ht⟩ := h
  simp [← ht]

/-- What the text ends in decides, whatever stands before it. -/
theorem not_endsInDigit_append (s : String) {t : String} {c : Char}
    (h : t.toList.getLast? = some c) (hc : c ≠ 'd') : ¬ EndsInDigit (s ++ t) := by
  intro hs
  have hlast := hs.getLast?
  rw [String.toList_append, List.getLast?_append, h, Option.some_or] at hlast
  exact hc (Option.some.inj hlast)

theorem not_endsInDigit_append_upTo (s : String) (n : Int) :
    ¬ EndsInDigit (s ++ (Quantifier.upTo n).text) := by
  have hlast : (Quantifier.upTo n).text.toList.getLast? = some '}' := by
    simp [Quantifier.text, List.getLast?_cons]
  exact not_endsInDigit_append s hlast (by decide)

theorem not_endsInDigit_bounded (n : Int) (s : String) :
    ¬ EndsInDigit (bounded n s) := by
  by_cases h : EndsInDigit s
  · rw [bounded_of_endsInDigit h]
    exact not_endsInDigit_append_upTo s n
  · rwa [bounded_of_not_endsInDigit h]

end RegexDraft
