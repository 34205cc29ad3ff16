import RegexDraft.Draft.History

/-!
# Which fragments a run leaves

Every piece leaves one fragment and no other step leaves any. The fragment is
the text of its piece, with the first bound that was set before the next piece
if that text ends in a digit class. So it can be told from the steps alone, and
bounds before the first piece are lost.
-/

namespace RegexDraft

namespace Draft

open Step

theorem size_ofSteps (xs : List Step) :
    (ofSteps xs).size = xs.countP (·.piece?.isSome) := by
  rw [size, fragments_ofSteps, length_fragments, List.length_filterMap_eq_countP]

theorem getElem?_fragments_ofSteps (xs : List Step) (p : Piece) (ys : List Step) :
    (ofSteps (xs ++ .add p :: ys)).fragments[xs.countP (·.piece?.isSome)]? =
      some (settled (firstBound? ys) p.text) := by
  have hlength : (Step.fragments xs).length = xs.countP (·.piece?.isSome) := by
    rw [← size_ofSteps, size, fragments_ofSteps]
  rw [fragments_ofSteps, fragments_append_add, ← hlength]
  simp

/-- Until a piece is added, a run does the same without its bounds. -/
theorem run_filter_bound {d : Draft} (hd : d.fragments = []) {xs : List Step}
    (hxs : ∀ x ∈ xs, x.piece?.isNone = true) :
    d.run (xs.filter (·.bound?.isNone)) = d.run xs := by
  induction xs generalizing d with
  | nil => rfl
  | cons x xs ih =>
      have htail : ∀ y ∈ xs, y.piece?.isNone = true :=
        fun y hy ↦ hxs y (List.mem_cons_of_mem x hy)
      cases x with
      | add p => exact absurd (hxs _ List.mem_cons_self) (by simp [piece?])
      | boundDigits n =>
          have hsame : d.apply (.boundDigits n) = d := boundDigits_of_fragments_eq_nil hd n
          rw [run_cons, hsame, ← ih hd htail]
          rfl
      | activate f =>
          -- The flags of the draft change here, so it cannot be fixed above.
          have hempty : (d.apply (.activate f)).fragments = [] := hd
          rw [run_cons, ← ih hempty htail]
          rfl

theorem ofSteps_dropBounds (xs : List Step) :
    ofSteps ((xs.takeWhile (·.piece?.isNone)).filter (·.bound?.isNone) ++
      xs.dropWhile (·.piece?.isNone)) = ofSteps xs := by
  have hfront : ∀ x ∈ xs.takeWhile (·.piece?.isNone), x.piece?.isNone = true :=
    fun x hx ↦ List.all_eq_true.mp List.all_takeWhile x hx
  rw [ofSteps_append, ofSteps, run_filter_bound rfl hfront, ← run_append,
    List.takeWhile_append_dropWhile]
  rfl

/-- There is one fragment for each piece. It is the text of the piece, bounded
when that ends in a digit class and a bound was set before the next piece, by
the first such bound. Bounds before the first piece may as well be left out. -/
theorem fragments_ofSteps_settled (xs : List Step) :
    (ofSteps xs).size = xs.countP (·.piece?.isSome) ∧
    (∀ ys p zs, xs = ys ++ .add p :: zs →
      (ofSteps xs).fragments[ys.countP (·.piece?.isSome)]? = some
        (match (zs.takeWhile (·.piece?.isNone)).findSome? bound? with
          | none => p.text
          | some n =>
            if ['\\', 'd'] <:+ p.text.toList then p.text ++ ("\x7b0," ++ toString n ++ "\x7d")
            else p.text)) ∧
    ofSteps xs = ofSteps ((xs.takeWhile (·.piece?.isNone)).filter (·.bound?.isNone) ++
      xs.dropWhile (·.piece?.isNone)) ∧
    (ofSteps xs).pattern.toList = ((ofSteps xs).fragments.map String.toList).flatten := by
  refine ⟨size_ofSteps xs, ?_, (ofSteps_dropBounds xs).symm, toList_pattern _⟩
  rintro ys p zs rfl
  rw [getElem?_fragments_ofSteps, firstBound?_eq_findSome?, Option.some.injEq]
  cases (zs.takeWhile (·.piece?.isNone)).findSome? bound? with
  | none => rfl
  | some n =>
      by_cases h : EndsInDigit p.text
      · rw [settled_some, bounded_of_endsInDigit h, Quantifier.text_upTo]
        exact (if_pos h).symm
      · rw [settled_some, bounded_of_not_endsInDigit h]
        exact (if_neg h).symm

/-- A bound before every piece. -/
def leadingSteps : List Step := [.boundDigits 9, .add (.raw "a")]

/-- Two bounds on the piece before. -/
def trailingSteps : List Step := [.global, .boundDigits 3, .boundDigits 5]

theorem fragments_ofSteps_settled_first :
    (ofSteps (leadingSteps ++ .add (.raw "\\d") :: trailingSteps)).fragments[1]? =
      some "\\d\x7b0,3\x7d" := by
  obtain ⟨_, hfragment, _⟩ := fragments_ofSteps_settled
    (leadingSteps ++ .add (.raw "\\d") :: trailingSteps)
  exact (hfragment _ _ _ rfl).trans (by decide +kernel)

end Draft

end RegexDraft
