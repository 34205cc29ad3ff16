/-!
# Flags of a regular expression

A flag is an engine mode. Delimited notation writes it as one letter after the
closing slash, and a letter stands for at most one flag
(`Flag.ofLetter?_eq_some_iff`).
-/

namespace RegexDraft

inductive Flag where
  | global
  | caseInsensitive
  | multiline
  | dotAll
  | sticky
  deriving DecidableEq, Repr, Inhabited

namespace Flag

def letter : Flag → Char
  | global => 'g'
  | caseInsensitive => 'i'
  | multiline => 'm'
  | dotAll => 's'
  | sticky => 'y'

def ofLetter? : Char → Option Flag
  | 'g' => some global
  | 'i' => some caseInsensitive
  | 'm' => some multiline
  | 's' => some dotAll
  | 'y' => some sticky
  | _ => none

/-- The word that a description uses for the flag. -/
def name : Flag → String
  | global => "Global"
  | caseInsensitive => "CaseInsensitive"
  | multiline => "Multiline"
  | dotAll => "DotAll"
  | sticky => "Sticky"

instance : ToString Flag := ⟨fun f ↦ String.singleton f.letter⟩

def all : List Flag := [global, caseInsensitive, multiline, dotAll, sticky]

@[simp] theorem mem_all (f : Flag) : f ∈ all := by cases f <;> decide

@[simp] theorem ofLetter?_letter (f : Flag) : ofLetter? f.letter = some f := by
  cases f <;> rfl

theorem letter_of_ofLetter? {c : Char} {f : Flag} (h : ofLetter? c = some f) :
    f.letter = c := by
  unfold ofLetter? at h
  split at h <;> simp_all <;> subst h <;> rfl

theorem ofLetter?_eq_some_iff {c : Char} {f : Flag} :
    ofLetter? c = some f ↔ f.letter = c :=
  ⟨letter_of_ofLetter?, fun h ↦ h ▸ ofLetter?_letter f⟩

theorem letter_inj {f g : Flag} : f.letter = g.letter ↔ f = g :=
  ⟨fun h ↦ Option.some.inj ((ofLetter?_letter f).symm.trans (h ▸ ofLetter?_letter g)),
    congrArg letter⟩

@[simp] theorem mapM_ofLetter?_map_letter (fs : List Flag) :
    (fs.map letter).mapM ofLetter? = some fs := by
  have hread : ofLetter? ∘ letter = pure := funext ofLetter?_letter
  rw [List.mapM_map, hread, List.mapM_pure, List.map_id']
  rfl

@[simp] theorem letter_ne_slash (f : Flag) : f.letter ≠ '/' := by
  cases f <;> decide

end Flag

end RegexDraft
