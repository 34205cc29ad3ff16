import RegexDraft.Draft.Bound
import RegexDraft.Flags

/-!
# Drafts of a regular expression

A draft is a list of text fragments together with the flags activated so far.
Its pattern is the fragments joined in order, and writing them out one by one
writes the same (`Draft.writeTo_eq`). Adding a piece appends its text, and the
only operation that changes a fragment once it is there is `Draft.boundDigits`.
-/

namespace RegexDraft

@[ext] structure Draft where
  fragments : List String := []
  flags : Flags := ∅
  deriving DecidableEq

namespace Draft

instance : EmptyCollection Draft := ⟨{}⟩

instance : Inhabited Draft := ⟨∅⟩

def add (d : Draft) (p : Piece) (E : Literal.MetaEscape := .byTable) : Draft :=
  { d with fragments := d.fragments ++ [p.text E] }

/-- Bounds the digit class at the end of the last fragment. A draft whose last
fragment ends otherwise, or that has no fragment, stays as it is. -/
def boundDigits (d : Draft) (n : Int) : Draft :=
  match d.fragments.getLast? with
  | none => d
  | some s => { d with fragments := d.fragments.dropLast ++ [bounded n s] }

def activate (d : Draft) (f : Flag) : Draft :=
  { d with flags := d.flags.insert f }

def size (d : Draft) : Nat := d.fragments.length

def isEmpty (d : Draft) : Bool := d.fragments.isEmpty

def pattern (d : Draft) : String := String.join d.fragments

/-- Writes the fragments one by one after `out`. -/
def writeTo (d : Draft) (out : String) : String := d.fragments.foldl (· ++ ·) out

instance : ToString Draft := ⟨fun d ↦ d.writeTo ""⟩

variable {E : Literal.MetaEscape}

@[simp] theorem fragments_empty : (∅ : Draft).fragments = [] := rfl

@[simp] theorem flags_empty : (∅ : Draft).flags = ∅ := rfl

@[simp] theorem fragments_add (d : Draft) (p : Piece) :
    (d.add p E).fragments = d.fragments ++ [p.text E] := rfl

theorem getLast?_fragments_add (d : Draft) (p : Piece) :
    (d.add p E).fragments.getLast? = some (p.text E) := by
  rw [fragments_add, List.getLast?_concat]

@[simp] theorem flags_add (d : Draft) (p : Piece) : (d.add p E).flags = d.flags := rfl

theorem boundDigits_of_fragments_eq_nil {d : Draft} (h : d.fragments = []) (n : Int) :
    d.boundDigits n = d := by
  simp [boundDigits, h]

theorem boundDigits_of_fragments_eq_concat {d : Draft} {r : List String} {s : String}
    (h : d.fragments = r ++ [s]) (n : Int) :
    d.boundDigits n = { d with fragments := r ++ [bounded n s] } := by
  simp [boundDigits, h]

/-- A bound changes the last fragment if there is one, and nothing else. -/
theorem boundDigits_cases (d : Draft) (n : Int) :
    (d.fragments = [] ∧ d.boundDigits n = d) ∨
    ∃ r s, d.fragments = r ++ [s] ∧
      d.boundDigits n = { d with fragments := r ++ [bounded n s] } := by
  rcases d.fragments.eq_nil_or_concat with hnil | ⟨r, s, hr⟩
  · exact .inl ⟨hnil, boundDigits_of_fragments_eq_nil hnil n⟩
  · rw [List.concat_eq_append] at hr
    exact .inr ⟨r, s, hr, boundDigits_of_fragments_eq_concat hr n⟩

@[simp] theorem flags_boundDigits (d : Draft) (n : Int) :
    (d.boundDigits n).flags = d.flags := by
  rcases d.boundDigits_cases n with ⟨-, hsame⟩ | ⟨r, s, -, hbounded⟩
  · rw [hsame]
  · rw [hbounded]

theorem boundDigits_activate (d : Draft) (f : Flag) (n : Int) :
    (d.activate f).boundDigits n = (d.boundDigits n).activate f := by
  cases h : d.fragments.getLast? <;> simp [boundDigits, activate, h]

@[simp] theorem fragments_activate (d : Draft) (f : Flag) :
    (d.activate f).fragments = d.fragments := rfl

@[simp] theorem flags_activate (d : Draft) (f : Flag) :
    (d.activate f).flags = d.flags.insert f := rfl

@[simp] theorem pattern_empty : (∅ : Draft).pattern = "" := rfl

@[simp] theorem pattern_add (d : Draft) (p : Piece) :
    (d.add p E).pattern = d.pattern ++ p.text E := by
  simp [pattern]

theorem toList_pattern (d : Draft) :
    d.pattern.toList = (d.fragments.map String.toList).flatten := by
  rw [pattern, String.toList_join, List.flatMap_def]

theorem writeTo_eq (d : Draft) (out : String) : d.writeTo out = out ++ d.pattern := by
  obtain ⟨fragments, flags⟩ := d
  simp only [writeTo, pattern]
  induction fragments generalizing out with
  | nil => simp
  | cons s r ih => rw [List.foldl_cons, ih, String.join_cons, String.append_assoc]

theorem toString_eq_pattern (d : Draft) : toString d = d.pattern :=
  (d.writeTo_eq "").trans String.empty_append

@[simp] theorem pattern_activate (d : Draft) (f : Flag) :
    (d.activate f).pattern = d.pattern := rfl

/-- The text that a bound adds to the pattern. -/
def boundText (d : Draft) (n : Int) : String :=
  if ∃ s ∈ d.fragments.getLast?, EndsInDigit s then (Quantifier.upTo n).text else ""

theorem pattern_boundDigits (d : Draft) (n : Int) :
    (d.boundDigits n).pattern = d.pattern ++ d.boundText n := by
  rcases d.boundDigits_cases n with ⟨hnil, hsame⟩ | ⟨r, s, hr, hbounded⟩
  · simp [hsame, boundText, hnil]
  · rw [hbounded, pattern, pattern, hr]
    by_cases h : EndsInDigit s
    · simp [boundText, hr, h, bounded_of_endsInDigit h, String.append_assoc]
    · simp [boundText, hr, h, bounded_of_not_endsInDigit h]

theorem boundDigits_eq_self_iff {d : Draft} {n : Int} :
    d.boundDigits n = d ↔ ∀ s ∈ d.fragments.getLast?, ¬ EndsInDigit s := by
  rcases d.boundDigits_cases n with ⟨hnil, hsame⟩ | ⟨r, s, hr, hbounded⟩
  · simp [hsame, hnil]
  · rw [hbounded, Draft.ext_iff]
    simp [hr, bounded_eq_self_iff]

theorem boundDigits_add_eq_self_iff {d : Draft} {p : Piece} {n : Int} :
    (d.add p E).boundDigits n = d.add p E ↔ ¬ EndsInDigit (p.text E) := by
  rw [boundDigits_eq_self_iff, getLast?_fragments_add]
  simp only [Option.mem_def, Option.some.injEq, forall_eq']

/-- Of two bounds in a row the first one counts. -/
theorem boundDigits_boundDigits (d : Draft) (m n : Int) :
    (d.boundDigits m).boundDigits n = d.boundDigits m := by
  rw [boundDigits_eq_self_iff]
  rcases d.boundDigits_cases m with ⟨hnil, hsame⟩ | ⟨r, s, -, hbounded⟩
  · simp [hsame, hnil]
  · rw [hbounded, List.getLast?_concat]
    rintro _ ⟨⟩
    exact not_endsInDigit_bounded m s

theorem boundText_eq_empty_iff {d : Draft} {n : Int} :
    d.boundText n = "" ↔ d.boundDigits n = d := by
  have hne : (Quantifier.upTo n).text ≠ "" := by
    simp [Quantifier.text_upTo]
  rw [boundDigits_eq_self_iff, boundText, ite_eq_right_iff]
  simp [hne]

@[simp] theorem boundText_add (d : Draft) (p : Piece) (n : Int) :
    (d.add p E).boundText n =
      if EndsInDigit (p.text E) then (Quantifier.upTo n).text else "" := by
  simp [boundText]

@[simp] theorem boundText_boundDigits (d : Draft) (m n : Int) :
    (d.boundDigits m).boundText n = "" :=
  boundText_eq_empty_iff.mpr (boundDigits_boundDigits d m n)

@[simp] theorem boundText_activate (d : Draft) (f : Flag) (n : Int) :
    (d.activate f).boundText n = d.boundText n := rfl

@[simp] theorem size_boundDigits (d : Draft) (n : Int) :
    (d.boundDigits n).size = d.size := by
  rcases d.boundDigits_cases n with ⟨-, hsame⟩ | ⟨r, s, hr, hbounded⟩
  · rw [hsame]
  · simp [size, hbounded, hr]

end Draft

end RegexDraft
