import RegexDraft.Draft

/-!
# Which texts are escaped literals

Escaped text splits into active characters that a backslash takes and bare
characters that are not active, and every text that splits in this way is the
escaped form of exactly one text. Dropping the backslashes gives that text. A
backslash too many rules a text out just as one too few does.
-/

namespace RegexDraft

namespace Literal

/-- A backslash takes the character just when the character is active. -/
def Proper : Symbol → Prop
  | .taken c => Active c
  | .bare c => ¬ Active c

instance : DecidablePred Proper
  | .taken c => inferInstanceAs (Decidable (Active c))
  | .bare c => inferInstanceAs (Decidable (¬ Active c))

/-- The text reads to its end and each of its symbols is proper. -/
def EscapedForm (s : List Char) : Prop := ∃ u ∈ Symbol.read? s, ∀ a ∈ u, Proper a

instance (s : List Char) : Decidable (EscapedForm s) :=
  inferInstanceAs (Decidable (∃ u ∈ Symbol.read? s, ∀ a ∈ u, Proper a))

theorem proper_symbol (c : Char) : Proper (symbol c) := by
  by_cases h : Active c <;> simp [symbol, h, Proper]

theorem symbol_char_of_proper {a : Symbol} (h : Proper a) : symbol a.char = a := by
  cases a with
  | taken c => exact if_pos h
  | bare c => exact if_neg h

theorem map_symbol_map_char {u : List Symbol} (h : ∀ a ∈ u, Proper a) :
    (u.map Symbol.char).map symbol = u := by
  rw [List.map_map]
  calc
    u.map (symbol ∘ Symbol.char) = u.map id :=
      List.map_congr_left fun a ha ↦ symbol_char_of_proper (h a ha)
    _ = u := List.map_id u

variable {E : MetaEscape}

theorem escapedForm_escape (t : List Char) : EscapedForm (escape E t) := by
  refine ⟨t.map symbol, symbol_read?_escape t, fun a ha ↦ ?_⟩
  obtain ⟨c, -, rfl⟩ := List.mem_map.mp ha
  exact proper_symbol c

theorem exists_escape_eq {s : List Char} (h : EscapedForm s) : ∃ t, escape E t = s := by
  obtain ⟨u, hu, hproper⟩ := h
  refine ⟨u.map Symbol.char, symbol_read?_eq_iff.mp ?_⟩
  rw [map_symbol_map_char hproper]
  exact hu

theorem escape_eq_iff {s t : List Char} :
    escape E t = s ↔
      EscapedForm s ∧ (Symbol.read? s).map (·.map Symbol.char) = some t := by
  constructor
  · rintro rfl
    exact ⟨escapedForm_escape t, map_char_read?_escape t⟩
  · rintro ⟨hform, hchars⟩
    obtain ⟨t', rfl⟩ := exists_escape_eq (E := E) hform
    rw [map_char_read?_escape, Option.some.injEq] at hchars
    rw [hchars]

end Literal

namespace Draft

open Literal

variable {E : MetaEscape}

theorem fragments_add_literal_eq_iff {d : Draft} {s t : String} :
    (d.add (.literal t) E).fragments = d.fragments ++ [s] ↔
      escape E t.toList = s.toList := by
  rw [fragments_add, List.append_cancel_left_eq, List.singleton_inj, ← String.toList_inj,
    Piece.toList_text_literal]

theorem add_literal_inj {d : Draft} {t t' : String} :
    d.add (.literal t) E = d.add (.literal t') E ↔ t = t' := by
  constructor
  · intro h
    have happend : (d.add (.literal t) E).fragments =
        d.fragments ++ [(Piece.literal t').text E] :=
      congrArg fragments h
    rw [fragments_add_literal_eq_iff, Piece.toList_text_literal, escape_inj] at happend
    exact String.toList_inj.mp happend
  · rintro rfl
    rfl

/-- A text is what some literal appends exactly when it is in escaped form. Then
the literal is the text without the backslashes that take a character, and no
other literal appends the same. -/
theorem fragments_add_literal_iff_escapedForm (E : MetaEscape) (d : Draft) (s : String) :
    ((∃ t, (d.add (.literal t) E).fragments = d.fragments ++ [s]) ↔
      EscapedForm s.toList) ∧
    (∀ t, (d.add (.literal t) E).fragments = d.fragments ++ [s] ↔
      EscapedForm s.toList ∧
        (Symbol.read? s.toList).map (·.map Symbol.char) = some t.toList) ∧
    ∀ t t', d.add (.literal t) E = d.add (.literal t') E ↔ t = t' := by
  have happend : ∀ t, (d.add (.literal t) E).fragments = d.fragments ++ [s] ↔
      EscapedForm s.toList ∧
        (Symbol.read? s.toList).map (·.map Symbol.char) = some t.toList :=
    fun t ↦ fragments_add_literal_eq_iff.trans escape_eq_iff
  refine ⟨⟨?_, ?_⟩, happend, fun _ _ ↦ add_literal_inj⟩
  · rintro ⟨t, ht⟩
    exact ((happend t).mp ht).1
  · intro hform
    obtain ⟨t, ht⟩ := exists_escape_eq (E := E) hform
    refine ⟨String.ofList t, fragments_add_literal_eq_iff.mpr ?_⟩
    rw [String.toList_ofList, ht]

/-- With the function that stands for the package's: what the text `a/\` appends,
and the same but for a slash that stands bare after two backslashes. -/
theorem fragments_add_literal_iff_escapedForm_byTable :
    ((∅ : Draft).add (.literal "a/\\") .byTable).fragments = ["a\\/\\\\"] ∧
      ¬ ∃ t, ((∅ : Draft).add (.literal t) .byTable).fragments = ["a\\\\/"] := by
  obtain ⟨-, happend, -⟩ := fragments_add_literal_iff_escapedForm .byTable ∅ "a\\/\\\\"
  obtain ⟨hiff, -⟩ := fragments_add_literal_iff_escapedForm .byTable ∅ "a\\\\/"
  exact ⟨(happend "a/\\").mpr (by decide +kernel), (not_congr hiff).mpr (by decide +kernel)⟩

/-- A letter needs no backslash, and the last backslash has nothing to take. -/
example : ¬ EscapedForm "\\a".toList ∧ ¬ EscapedForm "a\\".toList := by
  decide +kernel

end Draft

end RegexDraft
