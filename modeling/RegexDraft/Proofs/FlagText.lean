import RegexDraft.Proofs.InsertionHistory

/-!
# Which texts show a set of flags

A set is shown as the letters of its flags. A text is shown by some set exactly
when each of its characters is a letter and none comes twice, and that set is
made by inserting the flags that are read off the text: all of them are new when
their turn comes. So the text stands for the set, and its characters in any order
stand for the flags in it.
-/

namespace RegexDraft

namespace Flag

theorem letter_injective : Function.Injective letter := fun _ _ ↦ letter_inj.mp

theorem nodup_map_letter {fs : List Flag} : (fs.map letter).Nodup ↔ fs.Nodup :=
  List.nodup_map_iff letter_injective

/-- Every character is the letter of a flag just when the text is the letters of
some flags. -/
theorem forall_isSome_ofLetter?_iff {w : List Char} :
    (∀ c ∈ w, (ofLetter? c).isSome = true) ↔ ∃ fs : List Flag, fs.map letter = w := by
  constructor
  · intro h
    induction w with
    | nil => exact ⟨[], rfl⟩
    | cons c w ih =>
        obtain ⟨f, hf⟩ := Option.isSome_iff_exists.mp (h c List.mem_cons_self)
        obtain ⟨fs, rfl⟩ := ih fun d hd ↦ h d (List.mem_cons_of_mem c hd)
        exact ⟨f :: fs, by rw [List.map_cons, letter_of_ofLetter? hf]⟩
  · rintro ⟨fs, rfl⟩ c hc
    obtain ⟨f, -, rfl⟩ := List.mem_map.mp hc
    rw [ofLetter?_letter, Option.isSome_some]

end Flag

namespace Flags

theorem toString_eq_iff {s : Flags} {w : String} :
    toString s = w ↔ s.toList.map Flag.letter = w.toList := by
  rw [← String.toList_inj, toList_toString]

theorem forall_not_mem_insert_iff {s : Flags} {f : Flag} {fs : List Flag} :
    (∀ g ∈ fs, g ∉ s.insert f) ↔ f ∉ fs ∧ ∀ g ∈ fs, g ∉ s := by
  constructor
  · intro h
    exact ⟨fun hf ↦ h f hf (mem_insert.mpr (.inr rfl)),
      fun g hg hs ↦ h g hg (mem_insert.mpr (.inl hs))⟩
  · rintro ⟨hf, hs⟩ g hg hmem
    rcases mem_insert.mp hmem with hgs | rfl
    · exact hs g hg hgs
    · exact hf hg

/-- Every insertion answers `true` when no flag comes twice and none was there
before, and only then. -/
theorem answers_eq_replicate_iff {s : Flags} {fs : List Flag} :
    s.answers fs = List.replicate fs.length true ↔ fs.Nodup ∧ ∀ f ∈ fs, f ∉ s := by
  -- The set varies: what is inserted meanwhile makes a later insertion fail.
  induction fs generalizing s with
  | nil => simp
  | cons f fs ih =>
      have hnew : (!s.contains f) = true ↔ f ∉ s := by
        simp [contains]
      rw [answers_cons, List.length_cons, List.replicate_succ, List.cons.injEq, ih, hnew,
        forall_not_mem_insert_iff, List.nodup_cons, List.forall_mem_cons]
      tauto

theorem answers_empty_eq_replicate_iff {fs : List Flag} :
    answers ∅ fs = List.replicate fs.length true ↔ fs.Nodup := by
  simp [answers_eq_replicate_iff]

/-- Inserting the flags that are read off a text, none of them twice, makes a set
that shows the text. -/
theorem toString_ofList_of_nodup {w : String} {fs : List Flag}
    (hread : fs.map Flag.letter = w.toList) (h : fs.Nodup) : toString (ofList fs) = w := by
  rw [toString_eq_iff, ofList_of_nodup h, hread]

theorem exists_toString_ofList_iff {w : String} :
    (∃ fs, toString (ofList fs) = w) ↔
      (∀ c ∈ w.toList, (Flag.ofLetter? c).isSome = true) ∧ w.toList.Nodup := by
  constructor
  · rintro ⟨fs, rfl⟩
    rw [toList_toString, Flag.forall_isSome_ofLetter?_iff, Flag.nodup_map_letter]
    exact ⟨⟨_, rfl⟩, (ofList fs).nodup⟩
  · rintro ⟨hletters, hnodup⟩
    obtain ⟨fs, hread⟩ := Flag.forall_isSome_ofLetter?_iff.mp hletters
    rw [← hread, Flag.nodup_map_letter] at hnodup
    exact ⟨fs, toString_ofList_of_nodup hread hnodup⟩

theorem perm_toString_iff {s t : Flags} :
    (toString s).toList.Perm (toString t).toList ↔ ∀ f, f ∈ s ↔ f ∈ t := by
  rw [toList_toString, toList_toString, List.map_perm_map_iff Flag.letter_injective,
    List.perm_ext_iff_of_nodup s.nodup t.nodup]
  rfl

/-- A text is what a set shows after some insertions just when each of its
characters is the letter of a flag and none comes twice. Then the flags that are
read off it are all new when they are inserted in order, and they make the one set
that shows this text. So sets are equal when their texts are, and they contain the
same flags when their texts are rearrangements of each other. -/
theorem toString_ofList_unique (w : String) :
    ((∃ fs, toString (ofList fs) = w) ↔
      (∀ c ∈ w.toList, (Flag.ofLetter? c).isSome = true) ∧ w.toList.Nodup) ∧
    ((∀ c ∈ w.toList, (Flag.ofLetter? c).isSome = true) → w.toList.Nodup →
      ∃ fs, w.toList.mapM Flag.ofLetter? = some fs ∧
        answers ∅ fs = List.replicate fs.length true ∧ toString (ofList fs) = w ∧
        ∀ s : Flags, toString s = w → s = ofList fs) ∧
    ∀ s t : Flags, (s = t ↔ toString s = toString t) ∧
      ((∀ f, s.contains f = t.contains f) ↔
        (toString s).toList.Perm (toString t).toList) := by
  refine ⟨exists_toString_ofList_iff, fun hletters hnodup ↦ ?_,
    fun s t ↦ ⟨toString_inj.symm, ?_⟩⟩
  · obtain ⟨fs, hread⟩ := Flag.forall_isSome_ofLetter?_iff.mp hletters
    rw [← hread, Flag.nodup_map_letter] at hnodup
    have hshown : toString (ofList fs) = w := toString_ofList_of_nodup hread hnodup
    refine ⟨fs, ?_, answers_empty_eq_replicate_iff.mpr hnodup, hshown,
      fun s hs ↦ toString_inj.mp (hs.trans hshown.symm)⟩
    rw [← hread, Flag.mapM_ofLetter?_map_letter]
  · rw [perm_toString_iff]
    exact forall_congr' fun f ↦ by rw [Bool.eq_iff_iff, contains_iff, contains_iff]

/-- A text of all five letters. -/
theorem toString_ofList_unique_five :
    (∀ c ∈ "ysmig".toList, (Flag.ofLetter? c).isSome = true) ∧ "ysmig".toList.Nodup ∧
      ∃ fs, "ysmig".toList.mapM Flag.ofLetter? = some fs ∧
        answers ∅ fs = List.replicate fs.length true ∧ toString (ofList fs) = "ysmig" ∧
        ∀ s : Flags, toString s = "ysmig" → s = ofList fs := by
  have hletters : ∀ c ∈ "ysmig".toList, (Flag.ofLetter? c).isSome = true :=
    Flag.forall_isSome_ofLetter?_iff.mpr
      ⟨[.sticky, .dotAll, .multiline, .caseInsensitive, .global], rfl⟩
  have hnodup : "ysmig".toList.Nodup := by decide
  exact ⟨hletters, hnodup, (toString_ofList_unique "ysmig").2.1 hletters hnodup⟩

end Flags

end RegexDraft
