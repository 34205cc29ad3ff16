import RegexDraft.Draft.History

/-!
# Running steps on a draft that has been worked on

Steps leave on any draft what they leave on the empty one, behind what was
there. Two things cross the seam: the first bound may still reach the fragment
that was last, and a flag that is already active is not activated again. So a
pattern only ever grows at its end, and steps can be replaced by the pattern
they make, but for the bound at the seam.
-/

namespace RegexDraft

namespace Draft

open Step

/-- The text that the steps leave between the pattern so far and their own: the
first bound that they set before they add a piece, if the last fragment ends in
a digit class. -/
def seam (d : Draft) (xs : List Step) : String :=
  match (xs.takeWhile (·.piece?.isNone)).findSome? bound? with
  | none => ""
  | some n =>
    if ∃ s ∈ d.fragments.getLast?, ['\\', 'd'] <:+ s.toList then
      "\x7b0," ++ toString n ++ "\x7d"
    else ""

theorem seam_eq_elim (d : Draft) (xs : List Step) :
    d.seam xs = (firstBound? xs).elim "" d.boundText := by
  rw [seam, ← firstBound?_eq_findSome?]
  cases firstBound? xs with
  | none => rfl
  | some n =>
      rw [Option.elim_some, boundText, Quantifier.text_upTo]
      rfl

theorem pattern_elim_boundDigits (d : Draft) (bound : Option Int) :
    (bound.elim d d.boundDigits).pattern = d.pattern ++ bound.elim "" d.boundText := by
  cases bound with
  | none => exact String.append_empty.symm
  | some n => exact d.pattern_boundDigits n

theorem pattern_run (d : Draft) (xs : List Step) :
    (d.run xs).pattern = d.pattern ++ d.seam xs ++ (ofSteps xs).pattern := by
  rw [seam_eq_elim, ← pattern_elim_boundDigits, pattern, fragments_run, String.join_append,
    pattern, pattern, fragments_ofSteps]

theorem toList_flags_run (d : Draft) (xs : List Step) :
    (d.run xs).flags.toList =
      d.flags.toList ++ (ofSteps xs).flags.toList.filter (· ∉ d.flags) := by
  rw [flags_run, ← Flags.insertMany_ofList, ← flags_ofSteps,
    Flags.toList_insertMany_of_nodup _ (ofSteps xs).flags.nodup]

theorem pattern_prefix_run (d : Draft) (xs : List Step) :
    d.pattern.toList <+: (d.run xs).pattern.toList := by
  rw [pattern_run, String.toList_append, String.toList_append, List.append_assoc]
  exact List.prefix_append _ _

theorem pattern_run_eq_add_raw_iff (d : Draft) (xs : List Step) :
    (d.run xs).pattern = (d.add (.raw (ofSteps xs).pattern)).pattern ↔ d.seam xs = "" := by
  rw [pattern_run, pattern_add, Piece.text_raw, ← String.toList_inj]
  simp only [String.toList_append, List.append_cancel_right_eq, List.append_right_eq_self,
    String.toList_eq_nil_iff]

/-- A run from any draft renders what was rendered before, the bound at the
seam and what the steps render on their own, and activates those of their flags
that were not active. What was rendered stays in front, and adding the pattern
of the steps as it is renders the same but for the bound at the seam. -/
theorem run_eq_replay (d : Draft) (xs : List Step) :
    (d.run xs).pattern = d.pattern ++ d.seam xs ++ (ofSteps xs).pattern ∧
    (d.run xs).flags.toList =
      d.flags.toList ++ (ofSteps xs).flags.toList.filter (· ∉ d.flags) ∧
    d.pattern.toList <+: (d.run xs).pattern.toList ∧
    (d.run xs).pattern =
      ((d.add (.raw (d.seam xs))).add (.raw (ofSteps xs).pattern)).pattern ∧
    ((d.run xs).pattern = (d.add (.raw (ofSteps xs).pattern)).pattern ↔ d.seam xs = "") := by
  refine ⟨pattern_run d xs, toList_flags_run d xs, pattern_prefix_run d xs, ?_,
    pattern_run_eq_add_raw_iff d xs⟩
  rw [pattern_run, pattern_add, pattern_add, Piece.text_raw, Piece.text_raw]

end Draft

end RegexDraft
