import RegexDraft.Proofs.FlagOrder

/-!
# Making a draft again from its fragments and flags

Fragments go into a draft as they are and flags in their order, in whatever way
the two are mixed, and what comes out is the draft they were read off: there is
nothing else to it. Any texts can be the fragments of a draft and any flags can
be its flags, as long as none of these comes twice.
-/

namespace RegexDraft

namespace Step

/-- The steps add the texts as they are and activate the flags, each in order and
mixed in any way, and do nothing else. -/
structure Interleaves (ss : List String) (fs : List Flag) (xs : List Step) : Prop where
  texts : xs.filter (·.flag?.isNone) = ss.map fun s ↦ .add (.raw s)
  flags : xs.filterMap flag? = fs

theorem firstBound?_map_raw (ss : List String) :
    firstBound? (ss.map fun s ↦ .add (.raw s)) = none := by
  cases ss <;> rfl

theorem fragments_map_raw (ss : List String) :
    fragments (ss.map fun s ↦ .add (.raw s)) = ss := by
  induction ss with
  | nil => rfl
  | cons s ss ih =>
      rw [List.map_cons, fragments, firstBound?_map_raw, settled_none, ih, Piece.text_raw]

/-- All texts first and then all flags is one way to mix them. -/
theorem interleaves_append (ss : List String) (fs : List Flag) :
    Interleaves ss fs ((ss.map fun s ↦ .add (.raw s)) ++ fs.map .activate) := by
  constructor
  · have htexts : ∀ x ∈ ss.map fun s ↦ Step.add (.raw s), x.flag?.isNone = true := by
      simp [flag?]
    have hflags : ∀ x ∈ fs.map Step.activate, ¬ x.flag?.isNone = true := by
      simp [flag?]
    rw [List.filter_append, List.filter_eq_self.mpr htexts,
      List.filter_eq_nil_iff.mpr hflags, List.append_nil]
  · simp [flag?, Function.comp_def]

end Step

namespace Draft

open Step

theorem ofSteps_of_interleaves {ss : List String} {fs : List Flag} {xs : List Step}
    (h : Interleaves ss fs xs) : ofSteps xs = ⟨ss, Flags.ofList fs⟩ := by
  apply Draft.ext
  · rw [fragments_ofSteps, ← fragments_filter_flag, h.texts, fragments_map_raw]
  · rw [flags_ofSteps, h.flags]

theorem ofSteps_of_interleaves_self {d : Draft} {xs : List Step}
    (h : Interleaves d.fragments d.flags.toList xs) : ofSteps xs = d := by
  rw [ofSteps_of_interleaves h, Flags.ofList_toList]

theorem exists_ofSteps_iff_nodup {ss : List String} {fs : List Flag} :
    (∃ xs, (ofSteps xs).fragments = ss ∧ (ofSteps xs).flags.toList = fs) ↔ fs.Nodup := by
  constructor
  · rintro ⟨xs, -, rfl⟩
    exact (ofSteps xs).flags.nodup
  · intro h
    -- As no flag comes twice, activating them one by one keeps all of them.
    have hmade : ofSteps ((ss.map fun s ↦ .add (.raw s)) ++ fs.map .activate) =
        ⟨ss, ⟨fs, h⟩⟩ := by
      rw [ofSteps_of_interleaves (interleaves_append ss fs), Flags.ofList_of_nodup h]
    exact ⟨_, by rw [hmade], by rw [hmade]⟩

/-- Adding the fragments of a draft as they are and activating its flags, in any
mixture that keeps the order of each, makes the draft again, with everything that
it renders. Texts and flags are those of a draft that some steps make exactly
when no flag is there twice. -/
theorem ofSteps_eq_of_interleaves (xs : List Step) :
    (∀ ys, Interleaves (ofSteps xs).fragments (ofSteps xs).flags.toList ys →
      ofSteps ys = ofSteps xs ∧ (ofSteps ys).pattern = (ofSteps xs).pattern ∧
        (ofSteps ys).delimited = (ofSteps xs).delimited ∧
        toString (ofSteps ys) = toString (ofSteps xs)) ∧
    ∀ ss fs,
      (∃ ys, (ofSteps ys).fragments = ss ∧ (ofSteps ys).flags.toList = fs) ↔ fs.Nodup := by
  refine ⟨fun ys h ↦ ?_, fun _ _ ↦ exists_ofSteps_iff_nodup⟩
  have hsame : ofSteps ys = ofSteps xs := ofSteps_of_interleaves_self h
  rw [hsame]
  exact ⟨rfl, rfl, rfl, rfl⟩

/-- A fragment that a bound changes, and a flag that is activated twice. -/
def boundedSteps : List Step :=
  [.add (.charClass .digit), .boundDigits 3, .sticky, .add (.literal "/"), .global, .sticky]

/-- The same draft from its fragments and flags, the flags between the
fragments. -/
def replaySteps : List Step :=
  [.sticky, .add (.raw "\\d\x7b0,3\x7d"), .global, .add (.raw "\\/")]

theorem ofSteps_eq_of_interleaves_bounded :
    Interleaves (ofSteps boundedSteps).fragments (ofSteps boundedSteps).flags.toList
        replaySteps ∧
      ofSteps replaySteps = ofSteps boundedSteps := by
  have h : Interleaves (ofSteps boundedSteps).fragments
      (ofSteps boundedSteps).flags.toList replaySteps :=
    ⟨by decide +kernel, rfl⟩
  exact ⟨h, ((ofSteps_eq_of_interleaves _).1 _ h).1⟩

end Draft

end RegexDraft
