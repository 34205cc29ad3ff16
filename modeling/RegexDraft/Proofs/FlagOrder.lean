import RegexDraft.Delimited
import RegexDraft.Draft.History

/-!
# Flags among the other steps

The fragments do not depend on where flags are activated among the other steps,
and the flags do not depend on the other steps. Of the activations only the
order of the first ones counts, and delimited notation shows it.
-/

namespace RegexDraft

namespace Step

/-- The flags that the steps activate, in the order of their first
activation. -/
def activated (xs : List Step) : List Flag := (xs.filterMap flag?).eraseDups

theorem mem_activated {xs : List Step} {f : Flag} :
    f ∈ activated xs ↔ .activate f ∈ xs := by
  rw [activated, List.mem_eraseDups, List.mem_filterMap]
  constructor
  · rintro ⟨x, hx, hflag⟩
    cases x with
    | activate g =>
        obtain rfl : g = f := Option.some.inj hflag
        exact hx
    | add p => exact nomatch hflag
    | boundDigits n => exact nomatch hflag
  · intro h
    exact ⟨.activate f, h, rfl⟩

theorem firstBound?_filter_flag (xs : List Step) :
    firstBound? (xs.filter (·.flag?.isNone)) = firstBound? xs := by
  induction xs with
  | nil => rfl
  | cons x xs ih =>
      cases x with
      | add p => rfl
      | boundDigits n => rfl
      | activate f => exact ih

/-- Activations leave no trace in the fragments, also when one stands between a
piece and the bound that reaches it. -/
theorem fragments_filter_flag (xs : List Step) :
    fragments (xs.filter (·.flag?.isNone)) = fragments xs := by
  induction xs with
  | nil => rfl
  | cons x xs ih =>
      cases x with
      | add p =>
          have hkept : (add p :: xs).filter (·.flag?.isNone) =
              add p :: xs.filter (·.flag?.isNone) := rfl
          rw [hkept, fragments, fragments, firstBound?_filter_flag, ih]
      | boundDigits n => exact ih
      | activate f => exact ih

end Step

namespace Draft

open Step

theorem toList_flags_ofSteps (xs : List Step) : (ofSteps xs).flags.toList = activated xs := by
  rw [flags_ofSteps, Flags.toList_ofList, activated]

/-- Flags keep their places once they are active. -/
theorem flags_prefix_ofSteps (xs ys : List Step) :
    (ofSteps xs).flags.toList <+: (ofSteps (xs ++ ys)).flags.toList := by
  rw [ofSteps_append, flags_run, Flags.toList_insertMany]
  exact List.prefix_append _ _

theorem ofSteps_eq_of_filter_flag {xs ys : List Step}
    (h : xs.filter (·.flag?.isNone) = ys.filter (·.flag?.isNone))
    (hflags : activated xs = activated ys) : ofSteps xs = ofSteps ys := by
  apply Draft.ext
  · rw [fragments_ofSteps, fragments_ofSteps, ← fragments_filter_flag xs, h,
      fragments_filter_flag]
  · rw [← Flags.toList_inj, toList_flags_ofSteps, toList_flags_ofSteps, hflags]

/-- How activations are shuffled among the other steps, and how often a flag is
activated again, makes no difference. The flags of the draft are the activated
ones, each once, in the order of their first activation, and drafts whose flags
were first activated in different orders differ, also in delimited notation. -/
theorem ofSteps_eq_of_interleaving (xs ys : List Step) :
    (xs.filter (·.flag?.isNone) = ys.filter (·.flag?.isNone) →
      activated xs = activated ys →
        ofSteps xs = ofSteps ys ∧ (ofSteps xs).pattern = (ofSteps ys).pattern ∧
          (ofSteps xs).delimited = (ofSteps ys).delimited ∧
          toString (ofSteps xs) = toString (ofSteps ys)) ∧
    ((ofSteps xs).flags.toList = activated xs ∧ (activated xs).Nodup ∧
      (∀ f, f ∈ (ofSteps xs).flags ↔ .activate f ∈ xs) ∧
      (ofSteps xs).flags.toList <+: (ofSteps (xs ++ ys)).flags.toList) ∧
    (activated xs ≠ activated ys →
      ofSteps xs ≠ ofSteps ys ∧ (ofSteps xs).delimited ≠ (ofSteps ys).delimited) := by
  refine ⟨fun h hflags ↦ ?_, ⟨toList_flags_ofSteps xs, ?_, fun f ↦ ?_,
    flags_prefix_ofSteps xs ys⟩, fun hflags ↦ ?_⟩
  · have hsame : ofSteps xs = ofSteps ys := ofSteps_eq_of_filter_flag h hflags
    rw [hsame]
    exact ⟨rfl, rfl, rfl, rfl⟩
  · rw [← toList_flags_ofSteps]
    exact (ofSteps xs).flags.nodup
  · rw [← Flags.mem_toList, toList_flags_ofSteps, mem_activated]
  · have hdiffer : (ofSteps xs).flags ≠ (ofSteps ys).flags := by
      rwa [Ne, ← Flags.toList_inj, toList_flags_ofSteps, toList_flags_ofSteps]
    exact ⟨fun h ↦ hdiffer (congrArg flags h), fun h ↦ hdiffer (delimited_inj.mp h).2⟩

/-- A bound that reaches its piece across an activation. -/
def spreadSteps : List Step :=
  [.add (.charClass .digit), .global, .boundDigits 2, .sticky, .global]

/-- The same piece and bound with activations in other places, another one of them
repeated. -/
def gatheredSteps : List Step :=
  [.global, .global, .add (.charClass .digit), .sticky, .boundDigits 2]

theorem ofSteps_eq_of_interleaving_shuffled :
    spreadSteps.filter (·.flag?.isNone) = gatheredSteps.filter (·.flag?.isNone) ∧
      activated spreadSteps = activated gatheredSteps ∧
      ofSteps spreadSteps = ofSteps gatheredSteps ∧
      activated [.sticky, .global] ≠ activated [.global, .sticky] ∧
      (ofSteps [.sticky, .global]).delimited ≠ (ofSteps [.global, .sticky]).delimited := by
  have horder : activated [.sticky, .global] ≠ activated [.global, .sticky] := by
    decide
  refine ⟨rfl, rfl, ?_, horder, ?_⟩
  · exact ((ofSteps_eq_of_interleaving _ _).1 rfl rfl).1
  · exact ((ofSteps_eq_of_interleaving _ _).2.2 horder).2

/-- Each flag by the step of its own. -/
example : (ofSteps [.sticky, .global, .dotAll, .caseInsensitive, .multiline]).delimited =
    "//ygsim" := by
  decide +kernel

end Draft

end RegexDraft
