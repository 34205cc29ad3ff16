import RegexDraft.Description

/-!
# One description for one draft

A description can be told from whatever follows it, part by part: every quoted
fragment ends at its closing quote, every list at its bracket, and the words for
the flags begin with different letters. So drafts with the same description have
the same fragments, divided in the same way, and the same flags in the same order.
-/

namespace RegexDraft

namespace Description

theorem toList_list (items : List String) :
    (list items).toList =
      '[' :: (", ".toList.intercalate (items.map String.toList) ++ [']']) := by
  simp [list, String.toList_intercalate]

variable {α : Type} {text : α → String}

theorem prefixCode_list (h : PrefixCode fun a ↦ (text a).toList)
    (hstop : ∀ a, BeginsOther ']' (text a).toList) :
    PrefixCode fun l : List α ↦ (list (l.map text)).toList := by
  have hcomma : BeginsOther ']' ", ".toList := ⟨',', [' '], by simp, by decide⟩
  simp only [toList_list, List.map_map]
  exact (h.separated hstop hcomma).const_append ['[']

end Description

open Description

namespace Flag

theorem prefixCode_name : PrefixCode fun f : Flag ↦ f.name.toList := by
  intro f g s t h
  -- The words for two flags differ in their first letter already.
  cases f <;> cases g <;> simp_all [name]

theorem beginsOther_name (f : Flag) : BeginsOther ']' f.name.toList := by
  cases f <;> exact ⟨_, _, rfl, by decide⟩

end Flag

namespace Flags

theorem toList_describe (s : Flags) :
    s.describe.toList =
      "FlagSet \x7b flags: ".toList ++
        ((list (s.toList.map Flag.name)).toList ++ " \x7d".toList) := by
  simp [describe, record, field]

theorem prefixCode_describe : PrefixCode fun s : Flags ↦ s.describe.toList := by
  have hlist : PrefixCode fun fs : List Flag ↦ (list (fs.map Flag.name)).toList :=
    prefixCode_list Flag.prefixCode_name Flag.beginsOther_name
  simp only [toList_describe]
  exact ((hlist.comp fun _ _ ↦ toList_inj.mp).append_const _).const_append _

end Flags

namespace Draft

theorem toList_describe (d : Draft) :
    d.describe.toList =
      "RegexBuilder \x7b fragments: ".toList ++
        (((list (d.fragments.map Quoted.encode)).toList ++
          (", flags: ".toList ++ d.flags.describe.toList)) ++ " \x7d".toList) := by
  simp [describe, record, field]

theorem prefixCode_describe : PrefixCode fun d : Draft ↦ d.describe.toList := by
  have hfragments : PrefixCode fun l : List String ↦ (list (l.map Quoted.encode)).toList :=
    prefixCode_list Quoted.prefixCode_encode Quoted.beginsOther_encode
  have hflags : PrefixCode fun s : Flags ↦ ", flags: ".toList ++ s.describe.toList :=
    Flags.prefixCode_describe.const_append _
  have hparts : Function.Injective fun d : Draft ↦ (d.fragments, d.flags) :=
    fun _ _ h ↦ Draft.ext (Prod.mk.inj h).1 (Prod.mk.inj h).2
  simp only [toList_describe]
  exact (((hfragments.append hflags).comp hparts).append_const _).const_append _

/-- Drafts with the same description are equal, which is to say that they have the
same fragments one by one and the same flags in the same order. -/
theorem describe_eq_iff_parts_eq (d e : Draft) :
    (d.describe = e.describe ↔ d = e) ∧
    (d = e ↔ d.fragments = e.fragments ∧ d.flags.toList = e.flags.toList) := by
  refine ⟨⟨fun h ↦ ?_, congrArg describe⟩, ?_⟩
  · exact prefixCode_describe.injective (congrArg String.toList h)
  · rw [Draft.ext_iff, Flags.toList_inj]

/-- One fragment that looks like the end of a fragment and the beginning of the
next. -/
example : (⟨["a\", \"b"], ∅⟩ : Draft).describe =
    "RegexBuilder \x7b fragments: [\"a\\\", \\\"b\"], flags: FlagSet \x7b flags: [] \x7d \x7d" := by
  rfl

end Draft

end RegexDraft
