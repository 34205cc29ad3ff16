import RegexDraft.Delimited
import RegexDraft.Proofs.BoundReach

/-!
# A bound and the quantifier that says the same

A bound that reaches a digit class writes into the last fragment what the
quantifier from zero writes as a fragment of its own. The two drafts keep
different fragments from then on. But no bound reaches either of them before the
next piece is added, and that piece is the last fragment of both, so whatever is
done to both of them renders the same.
-/

namespace RegexDraft

namespace Draft

/-- Two drafts that render the same, and to which every bound adds the same
text. -/
structure Alike (d e : Draft) : Prop where
  pattern_eq : d.pattern = e.pattern
  flags_eq : d.flags = e.flags
  boundText_eq : ∀ n, d.boundText n = e.boundText n

theorem Alike.delimited_eq {d e : Draft} (h : Alike d e) : d.delimited = e.delimited :=
  delimited_inj.mpr ⟨h.pattern_eq, h.flags_eq⟩

theorem Alike.toString_eq {d e : Draft} (h : Alike d e) : toString d = toString e := by
  rw [toString_eq_pattern, toString_eq_pattern, h.pattern_eq]

theorem Alike.apply {d e : Draft} (h : Alike d e) (x : Step) :
    Alike (d.apply x) (e.apply x) := by
  obtain ⟨hpattern, hflags, hbound⟩ := h
  cases x with
  | add p =>
      refine ⟨?_, hflags, fun n ↦ ?_⟩
      · rw [Draft.apply, Draft.apply, pattern_add, pattern_add, hpattern]
      · rw [Draft.apply, Draft.apply, boundText_add, boundText_add]
  | boundDigits m =>
      refine ⟨?_, ?_, fun n ↦ ?_⟩
      · rw [Draft.apply, Draft.apply, pattern_boundDigits, pattern_boundDigits, hpattern,
          hbound]
      · rw [Draft.apply, Draft.apply, flags_boundDigits, flags_boundDigits, hflags]
      · rw [Draft.apply, Draft.apply, boundText_boundDigits, boundText_boundDigits]
  | activate f =>
      refine ⟨hpattern, ?_, hbound⟩
      rw [Draft.apply, Draft.apply, flags_activate, flags_activate, hflags]

theorem Alike.run {d e : Draft} (h : Alike d e) (xs : List Step) :
    Alike (d.run xs) (e.run xs) := by
  induction xs generalizing d e with
  | nil => exact h
  | cons x xs ih => exact ih (h.apply x)

/-- Drafts are alike when no steps done to both of them tell them apart. -/
theorem alike_iff_forall_run {d e : Draft} :
    Alike d e ↔ ∀ xs, (d.run xs).delimited = (e.run xs).delimited := by
  constructor
  · intro h xs
    exact (h.run xs).delimited_eq
  · intro h
    obtain ⟨hpattern, hflags⟩ : d.pattern = e.pattern ∧ d.flags = e.flags :=
      delimited_inj.mp (h [])
    refine ⟨hpattern, hflags, fun n ↦ ?_⟩
    have hbound : (d.boundDigits n).pattern = (e.boundDigits n).pattern :=
      (delimited_inj.mp (h [.boundDigits n])).1
    rwa [pattern_boundDigits, pattern_boundDigits, hpattern, String.append_right_inj] at hbound

theorem alike_boundDigits_add_upTo {d : Draft}
    (h : ∃ s ∈ d.fragments.getLast?, EndsInDigit s) (n : Int) :
    Alike (d.boundDigits n) (d.add (.quantifier (.upTo n))) := by
  refine ⟨?_, flags_boundDigits d n, fun m ↦ ?_⟩
  · rw [pattern_boundDigits, pattern_add, boundText, if_pos h]
    rfl
  · rw [boundText_boundDigits, boundText_add]
    exact (if_neg (not_endsInDigit_quantifier (.upTo n))).symm

theorem dropLast_fragments_boundDigits (d : Draft) (n : Int) :
    (d.boundDigits n).fragments.dropLast = d.fragments.dropLast := by
  rcases d.boundDigits_cases n with ⟨-, hsame⟩ | ⟨r, s, hr, hbounded⟩
  · rw [hsame]
  · rw [hbounded, hr, List.dropLast_concat, List.dropLast_concat]

/-- On a draft whose last fragment ends in `\d`, a bound and the quantifier from
zero render the same, also after any further steps. The bound changes the last
fragment only, and the quantifier adds one. -/
theorem boundDigits_agrees_with_between (d : Draft) (n : Int)
    (h : ∃ s ∈ d.fragments.getLast?, ['\\', 'd'] <:+ s.toList) :
    (∀ xs,
      ((d.boundDigits n).run xs).pattern =
        ((d.add (.quantifier (.between 0 n))).run xs).pattern ∧
      ((d.boundDigits n).run xs).delimited =
        ((d.add (.quantifier (.between 0 n))).run xs).delimited ∧
      toString ((d.boundDigits n).run xs) =
        toString ((d.add (.quantifier (.between 0 n))).run xs) ∧
      ((d.boundDigits n).run xs).flags =
        ((d.add (.quantifier (.between 0 n))).run xs).flags) ∧
    (d.boundDigits n).size = d.size ∧
    (d.boundDigits n).fragments.dropLast = d.fragments.dropLast ∧
    (d.add (.quantifier (.between 0 n))).fragments =
      d.fragments ++ ["\x7b0," ++ toString n ++ "\x7d"] := by
  refine ⟨fun xs ↦ ?_, size_boundDigits d n, dropLast_fragments_boundDigits d n, ?_⟩
  · have hrun : Alike ((d.boundDigits n).run xs)
        ((d.add (.quantifier (.between 0 n))).run xs) :=
      (alike_boundDigits_add_upTo h n).run xs
    exact ⟨hrun.pattern_eq, hrun.delimited_eq, hrun.toString_eq, hrun.flags_eq⟩
  · rw [fragments_add, ← Quantifier.text_upTo]
    rfl

/-- A draft that ends in a digit class which was not added as such. -/
def endingInDigit : Draft := ofSteps [.add (.raw "a\\d")]

/-- Further bounds, one that reaches neither draft and one that reaches both. -/
def furtherBounds : List Step := [.boundDigits 5, .add (.charClass .digit), .boundDigits 7]

theorem boundDigits_agrees_with_between_further_bounds :
    (∃ s ∈ endingInDigit.fragments.getLast?, ['\\', 'd'] <:+ s.toList) ∧
      ((endingInDigit.boundDigits (-3)).run furtherBounds).pattern =
        ((endingInDigit.add (.quantifier (.between 0 (-3)))).run furtherBounds).pattern ∧
      (endingInDigit.boundDigits (-3)).size = 1 := by
  have h : ∃ s ∈ endingInDigit.fragments.getLast?, ['\\', 'd'] <:+ s.toList := by
    decide +kernel
  obtain ⟨hrun, hsize, _⟩ := boundDigits_agrees_with_between _ (-3) h
  exact ⟨h, (hrun _).1, hsize⟩

end Draft

end RegexDraft
