import RegexDraft.Draft.Step

/-!
# What a run of steps leaves

A bound reaches the piece added last before it, and of several bounds in a row
the first one counts. So the fragments that steps leave can be written down
without running them (`Step.fragments`), and a run from any draft keeps the
draft's fragments but for one bound at the seam (`Draft.fragments_run`). Flags
are kept apart from all this (`Draft.flags_run`).
-/

namespace RegexDraft

namespace Step

def piece? : Step → Option Piece
  | add p => some p
  | boundDigits _ => none
  | activate _ => none

def flag? : Step → Option Flag
  | add _ => none
  | boundDigits _ => none
  | activate f => some f

def bound? : Step → Option Int
  | add _ => none
  | boundDigits n => some n
  | activate _ => none

/-- The first bound before the next piece is added. -/
def firstBound? : List Step → Option Int
  | [] => none
  | add _ :: _ => none
  | boundDigits n :: _ => some n
  | activate _ :: r => firstBound? r

theorem firstBound?_eq_findSome? (xs : List Step) :
    firstBound? xs = (xs.takeWhile (·.piece?.isNone)).findSome? bound? := by
  induction xs with
  | nil => rfl
  | cons x xs ih =>
      cases x with
      | add p => rfl
      | boundDigits n => rfl
      | activate f => exact ih

/-- The text that a fragment settles to when `bound` is the first bound
after it. -/
def settled (bound : Option Int) (s : String) : String :=
  match bound with
  | none => s
  | some n => bounded n s

@[simp] theorem settled_none (s : String) : settled none s = s := rfl

@[simp] theorem settled_some (n : Int) : settled (some n) = bounded n := rfl

/-- The fragments that steps leave of their own pieces. -/
def fragments : List Step → List String
  | [] => []
  | add p :: r => settled (firstBound? r) p.text :: fragments r
  | boundDigits _ :: r => fragments r
  | activate _ :: r => fragments r

theorem length_fragments (xs : List Step) :
    (fragments xs).length = (xs.filterMap piece?).length := by
  induction xs with
  | nil => rfl
  | cons x xs ih => cases x <;> simp [fragments, piece?, List.filterMap_cons, ih]

end Step

namespace Draft

open Step

/-- The first bound after a piece goes to its fragment and not further back. -/
theorem fragments_elim_boundDigits_add (d : Draft) (p : Piece) (bound : Option Int) :
    (bound.elim (d.add p) (d.add p).boundDigits).fragments =
      d.fragments ++ [settled bound p.text] := by
  cases bound with
  | none => rfl
  | some n =>
      rw [Option.elim_some, boundDigits_of_fragments_eq_concat (fragments_add d p)]
      rfl

theorem fragments_run (d : Draft) (xs : List Step) :
    (d.run xs).fragments =
      ((firstBound? xs).elim d d.boundDigits).fragments ++ Step.fragments xs := by
  induction xs generalizing d with
  | nil => exact (List.append_nil _).symm
  | cons x xs ih =>
      rw [run_cons, ih]
      cases x with
      | add p =>
          rw [apply, fragments_elim_boundDigits_add, List.append_assoc]
          rfl
      | boundDigits n =>
          cases firstBound? xs with
          | none => rfl
          | some m =>
              rw [apply, Option.elim_some, boundDigits_boundDigits]
              rfl
      | activate f =>
          rw [firstBound?]
          cases firstBound? xs with
          | none => rfl
          | some m =>
              rw [apply, Option.elim_some, Option.elim_some, boundDigits_activate]
              rfl

theorem fragments_ofSteps (xs : List Step) :
    (ofSteps xs).fragments = Step.fragments xs := by
  rw [ofSteps, fragments_run]
  cases firstBound? xs <;> rfl

/-- What comes from a piece on does not reach back to the fragments before it. -/
theorem fragments_append_add (xs : List Step) (p : Piece) (ys : List Step) :
    Step.fragments (xs ++ .add p :: ys) =
      Step.fragments xs ++ settled (firstBound? ys) p.text :: Step.fragments ys := by
  rw [← fragments_ofSteps, ofSteps_append, fragments_run, firstBound?, Option.elim_none,
    fragments_ofSteps]
  rfl

/-- A property of texts that every added piece has and every bound keeps. -/
theorem forall_fragments_apply {P : String → Prop}
    (hbound : ∀ n s, P s → P (bounded n s)) {d : Draft} (hd : ∀ s ∈ d.fragments, P s)
    {x : Step} (hx : ∀ p ∈ x.piece?, P p.text) : ∀ s ∈ (d.apply x).fragments, P s := by
  intro s hs
  cases x with
  | add p =>
      rw [apply, fragments_add, List.mem_append, List.mem_singleton] at hs
      rcases hs with hs | rfl
      · exact hd s hs
      · exact hx p rfl
  | boundDigits n =>
      rcases d.boundDigits_cases n with ⟨-, hsame⟩ | ⟨r, t, hr, hbounded⟩
      · rw [apply, hsame] at hs
        exact hd s hs
      · rw [hr, List.forall_mem_append] at hd
        rw [apply, hbounded, List.mem_append, List.mem_singleton] at hs
        rcases hs with hs | rfl
        · exact hd.1 s hs
        · exact hbound n t (hd.2 t List.mem_cons_self)
  | activate f => exact hd s hs

theorem forall_fragments_run {P : String → Prop}
    (hbound : ∀ n s, P s → P (bounded n s)) {d : Draft} (hd : ∀ s ∈ d.fragments, P s)
    {xs : List Step} (hxs : ∀ x ∈ xs, ∀ p ∈ x.piece?, P p.text) :
    ∀ s ∈ (d.run xs).fragments, P s := by
  induction xs generalizing d with
  | nil => exact hd
  | cons x xs ih =>
      have happly : ∀ s ∈ (d.apply x).fragments, P s :=
        forall_fragments_apply hbound hd (hxs x List.mem_cons_self)
      exact ih happly fun y hy ↦ hxs y (List.mem_cons_of_mem x hy)

theorem flags_run (d : Draft) (xs : List Step) :
    (d.run xs).flags = d.flags.insertMany (xs.filterMap flag?) := by
  induction xs generalizing d with
  | nil => rfl
  | cons x xs ih => cases x <;> simp [ih, apply, flag?, List.filterMap_cons]

theorem flags_ofSteps (xs : List Step) :
    (ofSteps xs).flags = Flags.ofList (xs.filterMap flag?) :=
  flags_run ∅ xs

end Draft

end RegexDraft
