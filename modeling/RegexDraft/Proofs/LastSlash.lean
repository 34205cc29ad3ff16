import RegexDraft.Delimited
import RegexDraft.Draft.Step

/-!
# What delimited notation keeps

The last slash of delimited notation ends the pattern, whatever text went into
it. The pattern stands before it and every character after it is the letter of
a flag. As no flag is active twice, activating the flags that are read gives the
same set, so a draft with one fragment can be made that is written the same.
-/

namespace RegexDraft

namespace Draft

/-- The draft of one text that goes in as it is, with flags activated in
order. -/
def ofBody (body : String) (fs : List Flag) : Draft :=
  ofSteps (.add (.raw body) :: fs.map .activate)

theorem ofBody_eq (body : String) (fs : List Flag) :
    ofBody body fs = ⟨[body], Flags.ofList fs⟩ := by
  rw [ofBody, ofSteps, run_cons, run_map_activate]
  rfl

@[simp] theorem flags_ofBody (body : String) (fs : List Flag) :
    (ofBody body fs).flags = Flags.ofList fs := by
  rw [ofBody_eq]

@[simp] theorem pattern_ofBody (body : String) (fs : List Flag) :
    (ofBody body fs).pattern = body := by
  simp [ofBody_eq, pattern]

/-- Cutting at the last slash gives the pattern after the opening slash and the
letters of the flags, and what they are read as makes a draft that renders the
same. So delimited notation tells apart what differs in pattern or flags, and
only that. -/
theorem cutLast_delimited_rebuild (d : Draft) :
    (∃ body w fs,
      Delimited.cutLast d.delimited.toList = some ('/' :: body, w) ∧
      String.ofList body = toString d ∧ toString d = d.pattern ∧
      w.mapM Flag.ofLetter? = some fs ∧
      (ofBody (String.ofList body) fs).flags = d.flags ∧
      (ofBody (String.ofList body) fs).pattern = d.pattern ∧
      (ofBody (String.ofList body) fs).delimited = d.delimited) ∧
    ∀ e : Draft, d.delimited = e.delimited ↔ d.pattern = e.pattern ∧ d.flags = e.flags := by
  refine ⟨⟨d.pattern.toList, (toString d.flags).toList, d.flags.toList, cutLast_delimited d,
    ?_, toString_eq_pattern d, Flags.mapM_ofLetter?_toString d.flags, ?_⟩,
    fun _ ↦ delimited_inj⟩
  · rw [String.ofList_toList, toString_eq_pattern]
  · have hflags : (ofBody (String.ofList d.pattern.toList) d.flags.toList).flags = d.flags := by
      rw [flags_ofBody, Flags.ofList_toList]
    have hpattern :
        (ofBody (String.ofList d.pattern.toList) d.flags.toList).pattern = d.pattern := by
      rw [pattern_ofBody, String.ofList_toList]
    exact ⟨hflags, hpattern, delimited_inj.mpr ⟨hpattern, hflags⟩⟩

end Draft

end RegexDraft
