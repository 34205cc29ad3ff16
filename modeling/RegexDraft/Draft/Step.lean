import RegexDraft.Draft

/-!
# Drafting step by step

A draft is made by running a list of steps from the empty draft. Every flag has a
step of its own, which activates it. The empty list of steps changes nothing, and
running a list after another is running both as one (`Draft.run_append`).
-/

namespace RegexDraft

inductive Step where
  | add (p : Piece)
  | boundDigits (n : Int)
  | activate (f : Flag)
  deriving DecidableEq, Repr

namespace Step

abbrev global : Step := activate .global

abbrev caseInsensitive : Step := activate .caseInsensitive

abbrev multiline : Step := activate .multiline

abbrev dotAll : Step := activate .dotAll

abbrev sticky : Step := activate .sticky

end Step

namespace Draft

def apply (d : Draft) : Step → Draft
  | .add p => d.add p
  | .boundDigits n => d.boundDigits n
  | .activate f => d.activate f

def run (d : Draft) (steps : List Step) : Draft := steps.foldl apply d

def ofSteps (steps : List Step) : Draft := run ∅ steps

@[simp] theorem run_nil (d : Draft) : d.run [] = d := rfl

@[simp] theorem run_cons (d : Draft) (x : Step) (xs : List Step) :
    d.run (x :: xs) = (d.apply x).run xs := rfl

@[simp] theorem run_append (d : Draft) (xs ys : List Step) :
    d.run (xs ++ ys) = (d.run xs).run ys :=
  List.foldl_append

theorem run_map_activate (d : Draft) (fs : List Flag) :
    d.run (fs.map .activate) = { d with flags := d.flags.insertMany fs } := by
  induction fs generalizing d with
  | nil => rfl
  | cons f fs ih =>
      rw [List.map_cons, run_cons, ih]
      rfl

@[simp] theorem ofSteps_nil : ofSteps [] = ∅ := rfl

theorem ofSteps_append (xs ys : List Step) :
    ofSteps (xs ++ ys) = (ofSteps xs).run ys :=
  run_append ∅ xs ys

end Draft

end RegexDraft
