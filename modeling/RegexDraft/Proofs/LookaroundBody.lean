import RegexDraft.Proofs.GroupNesting
import RegexDraft.Text.Group

/-!
# What is inside a lookaround

A lookaround puts its pattern between a mark and a closing parenthesis. When the
pattern is balanced, that parenthesis is the one that closes the lookaround, and
the lookaround is balanced again, so it can stand in another one. No mark is the
beginning of another, so kind and pattern are told apart whatever the pattern
starts with, balanced or not.
-/

namespace RegexDraft

namespace Lookaround

/-- Lookarounds one inside the other around a pattern. -/
def nest (kinds : List Lookaround) (pattern : String) : String :=
  kinds.foldr text pattern

theorem balanced_nest (kinds : List Lookaround) {pattern : String}
    (h : Nesting.Balanced pattern.toList) :
    Nesting.Balanced (nest kinds pattern).toList := by
  induction kinds with
  | nil => exact h
  | cons kind kinds ih => exact Nesting.balanced_lookaround kind ih

theorem balanced_mark (kind : Lookaround) : Nesting.Balanced kind.mark.toList := by
  have hflat : Nesting.Flat kind.mark.toList := by
    cases kind <;> simp [Nesting.Flat, mark]
  exact hflat.balanced

theorem cutGroup_text (kind : Lookaround) {pattern : String}
    (h : Nesting.Balanced pattern.toList) :
    Nesting.cutGroup (kind.text pattern).toList =
      some (kind.mark.toList ++ pattern.toList, [')']) := by
  rw [toList_text]
  exact Nesting.cutGroup_append (kind.balanced_mark.append h) Symbol.read?_nil

theorem mark_append_inj {j k : Lookaround} {s t : List Char} :
    j.mark.toList ++ s = k.mark.toList ++ t ↔ j = k ∧ s = t := by
  cases j <;> cases k <;> simp [mark]

theorem text_inj {j k : Lookaround} {p q : String} :
    j.text p = k.text q ↔ j = k ∧ p = q := by
  rw [← String.toList_inj, toList_text, toList_text, List.cons_inj_right,
    List.append_cancel_right_eq, mark_append_inj, String.toList_inj]

end Lookaround

namespace Draft

/-- The parenthesis that closes the fragment of a lookaround with a balanced
pattern is its last character. Before it there are the mark and the pattern as
it was given. The fragment is balanced, and stays so inside any number of further
lookarounds; so is a literal inside any number of them. Two lookarounds of
whatever patterns append the same fragment only if they are the same. -/
theorem cutGroup_fragment_lookaround (d e : Draft) (kind : Lookaround) (p : String) :
    (Nesting.Balanced p.toList →
      ∃ s mark, (d.add (.lookaround kind p)).fragments = d.fragments ++ [s] ∧
        s = "(" ++ mark ++ p ++ ")" ∧
        mark = (match kind with
          | .ahead => "?="
          | .notAhead => "?!"
          | .behind => "?<="
          | .notBehind => "?<!") ∧
        Nesting.cutGroup s.toList = some (mark.toList ++ p.toList, [')']) ∧
        Nesting.Balanced s.toList ∧
        ∀ kinds, Nesting.Balanced (Lookaround.nest kinds s).toList) ∧
    (∀ kinds t,
      Nesting.Balanced (Lookaround.nest kinds (Piece.literal t).text).toList) ∧
    ∀ kind' q, (d.add (.lookaround kind p)).fragments.getLast? =
      (e.add (.lookaround kind' q)).fragments.getLast? ↔ kind = kind' ∧ p = q := by
  refine ⟨fun h ↦ ?_, fun kinds t ↦ ?_, fun kind' q ↦ ?_⟩
  · have hbalanced : Nesting.Balanced (kind.text p).toList :=
      Nesting.balanced_lookaround kind h
    refine ⟨kind.text p, kind.mark, rfl, rfl, ?_, kind.cutGroup_text h, hbalanced,
      fun kinds ↦ Lookaround.balanced_nest kinds hbalanced⟩
    cases kind <;> rfl
  · apply Lookaround.balanced_nest
    rw [Piece.toList_text_literal]
    exact Nesting.balanced_escape .byTable t.toList
  · rw [getLast?_fragments_add, getLast?_fragments_add, Option.some.injEq]
    exact Lookaround.text_inj

/-- A class and a backslash hide a parenthesis, and another lookaround has its
own. -/
def hidingPattern : String := "[)](?!\\(a)"

/-- A pattern can start with what looks like the rest of a mark. -/
theorem cutGroup_fragment_lookaround_hidden :
    Nesting.Balanced hidingPattern.toList ∧
      (∃ s, ((∅ : Draft).add (.lookaround .notBehind hidingPattern)).fragments = [s] ∧
        Nesting.cutGroup s.toList = some ("?<![)](?!\\(a)".toList, [')'])) ∧
      ((∅ : Draft).add (.lookaround .ahead "<a")).fragments.getLast? ≠
        ((∅ : Draft).add (.lookaround .behind "a")).fragments.getLast? := by
  have h : Nesting.Balanced hidingPattern.toList := by decide +kernel
  obtain ⟨s, _, hs, -, rfl, hcut, -⟩ :=
    (cutGroup_fragment_lookaround ∅ ∅ .notBehind hidingPattern).1 h
  obtain ⟨-, -, hlast⟩ := cutGroup_fragment_lookaround ∅ ∅ .ahead "<a"
  refine ⟨h, ⟨s, hs, hcut.trans (by decide +kernel)⟩, ?_⟩
  rw [Ne, hlast .behind "a"]
  exact nofun

end Draft

end RegexDraft
