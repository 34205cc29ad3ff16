import RegexDraft.Draft

/-!
# Reading counts back

The braces and the comma of a counted quantifier cannot be taken for digits, so
its kind and its counts are read off its text, whatever their signs. Hence no
two counted quantifiers are written the same, and neither are two bounds on a
digit class.
-/

namespace RegexDraft

namespace Quantifier

/-- The quantifier gives its counts in braces. -/
def IsCounted : Quantifier → Prop
  | exactly _ | atLeast _ | between _ _ => True
  | optional | lazy | oneOrMore | zeroOrMore => False

theorem readBraced?_of_isCounted {q : Quantifier} (h : q.IsCounted) :
    readBraced? q.text.toList = some q := by
  cases q with
  | exactly n => exact readBraced?_exactly n
  | atLeast n => exact readBraced?_atLeast n
  | between min max => exact readBraced?_between min max
  | optional | lazy | oneOrMore | zeroOrMore => exact h.elim

theorem readBraced?_of_not_isCounted {q : Quantifier} (h : ¬ q.IsCounted) :
    readBraced? q.text.toList = none := by
  cases q with
  | optional | lazy | oneOrMore | zeroOrMore => simp [text, readBraced?]
  | exactly _ | atLeast _ | between _ _ => exact absurd trivial h

/-- Reading tells a counted quantifier from every other quantifier. -/
theorem text_eq_iff {p q : Quantifier} (hq : q.IsCounted) : p.text = q.text ↔ p = q := by
  refine ⟨fun h ↦ ?_, congrArg text⟩
  have hread : readBraced? p.text.toList = some q := by
    rw [h, readBraced?_of_isCounted hq]
  by_cases hp : p.IsCounted
  · rw [readBraced?_of_isCounted hp] at hread
    exact Option.some.inj hread
  · rw [readBraced?_of_not_isCounted hp] at hread
    exact nomatch hread

theorem text_upTo_inj {m n : Int} : (upTo m).text = (upTo n).text ↔ m = n := by
  have hcounted : (upTo n).IsCounted := trivial
  rw [text_eq_iff hcounted, between.injEq, and_iff_right rfl]

end Quantifier

namespace Draft

open Quantifier

/-- A bound that reaches a digit class shows in the pattern with its count. -/
theorem boundDigits_inj {d : Draft} (h : ∃ s ∈ d.fragments.getLast?, EndsInDigit s)
    {m n : Int} : d.boundDigits m = d.boundDigits n ↔ m = n := by
  refine ⟨fun hmn ↦ ?_, congrArg d.boundDigits⟩
  have hpattern : (d.boundDigits m).pattern = (d.boundDigits n).pattern :=
    congrArg pattern hmn
  rwa [pattern_boundDigits, pattern_boundDigits, String.append_right_inj, boundText,
    boundText, if_pos h, if_pos h, text_upTo_inj] at hpattern

/-- The fragment of a counted quantifier reads back as its kind with its counts,
a repetition as an exact count. The last fragment tells a counted quantifier from
every other one, on whatever drafts. Bounds on a digit class that differ leave
different drafts. -/
theorem readBraced?_fragment_counted (d e : Draft) :
    (∀ q : Quantifier, q.IsCounted →
      ∃ s, (d.add (.quantifier q)).fragments = d.fragments ++ [s] ∧
        readBraced? s.toList = some q) ∧
    (∀ n, ∃ s, (d.add (.quantifier (.times n))).fragments = d.fragments ++ [s] ∧
      readBraced? s.toList = some (.exactly n)) ∧
    (∀ p q : Quantifier, q.IsCounted →
      ((d.add (.quantifier p)).fragments.getLast? =
        (e.add (.quantifier q)).fragments.getLast? ↔ p = q)) ∧
    ((∃ s ∈ d.fragments.getLast?, ['\\', 'd'] <:+ s.toList) →
      ∀ m n, d.boundDigits m = d.boundDigits n ↔ m = n) := by
  refine ⟨fun q hq ↦ ⟨q.text, rfl, readBraced?_of_isCounted hq⟩,
    fun n ↦ ⟨(times n).text, rfl, readBraced?_exactly n⟩, fun p q hq ↦ ?_,
    fun h m n ↦ boundDigits_inj h⟩
  rw [getLast?_fragments_add, getLast?_fragments_add, Option.some.injEq]
  exact text_eq_iff hq

/-- Both ends of the range of 64-bit integers. -/
def widest : Quantifier := .between (-9223372036854775808) 9223372036854775807

def oneDigit : Draft := (∅ : Draft).add (.charClass .digit)

/-- Two kinds with the same count, and two bounds that differ in their sign. -/
theorem readBraced?_fragment_counted_extremes :
    widest.IsCounted ∧
      (∃ s, ((∅ : Draft).add (.quantifier widest)).fragments = [s] ∧
        readBraced? s.toList = some widest) ∧
      ((∅ : Draft).add (.quantifier (.atLeast 0))).fragments.getLast? ≠
        ((∅ : Draft).add (.quantifier (.between 0 0))).fragments.getLast? ∧
      (∃ s ∈ oneDigit.fragments.getLast?, ['\\', 'd'] <:+ s.toList) ∧
      oneDigit.boundDigits 1 ≠ oneDigit.boundDigits (-1) := by
  obtain ⟨hread, _, hlast, _⟩ := readBraced?_fragment_counted ∅ ∅
  obtain ⟨_, _, _, hbound⟩ := readBraced?_fragment_counted oneDigit ∅
  have hdigit : ∃ s ∈ oneDigit.fragments.getLast?, ['\\', 'd'] <:+ s.toList :=
    ⟨"\\d", rfl, List.suffix_rfl⟩
  refine ⟨trivial, hread widest trivial, ?_, hdigit, ?_⟩
  · rw [Ne, hlast (.atLeast 0) (.between 0 0) trivial]
    exact nofun
  · rw [Ne, hbound hdigit]
    exact nofun

end Draft

end RegexDraft
