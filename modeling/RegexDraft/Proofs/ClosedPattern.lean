import RegexDraft.Delimited
import RegexDraft.Draft.History

/-!
# Where the pattern ends in delimited notation

Escaped text is closed and so is every text that a piece writes on its own, so
a piece is closed as soon as the text put into it is. A bound adds closed text
to closed text. Hence every fragment of a run is closed, the pattern is, and
the first slash that no backslash takes is the one that ends it.
-/

namespace RegexDraft

namespace Delimited

theorem closed_escape (E : Literal.MetaEscape) (t : List Char) :
    Closed (Literal.escape E t) :=
  ⟨t.map Literal.symbol, Literal.symbol_read?_escape t,
    fun hmem ↦ Literal.not_active_of_bare_mem hmem active_slash⟩

theorem closed_quantifier (q : Quantifier) : Closed q.text.toList := by
  apply closed_of_forall
  intro c hc
  have hmarks : ∀ m ∈ Quantifier.marks, m ≠ '\\' ∧ m ≠ '/' := by
    simp [Quantifier.marks]
  rcases Quantifier.mem_toList_text hc with hmark | hdigit
  · exact hmarks c hmark
  · constructor <;> rintro rfl <;> simp at hdigit

theorem Closed.wrap {s : String} (h : Closed s.toList) {front back : String}
    (hfront : Closed front.toList) (hback : Closed back.toList) :
    Closed (front ++ s ++ back).toList := by
  rw [String.toList_append, String.toList_append]
  exact (hfront.append h).append hback

theorem closed_charClass {c : CharClass}
    (h : ∀ s ∈ (Piece.charClass c).inserted?, Closed s.toList) : Closed c.text.toList := by
  cases c with
  | noneOf chars =>
      have hchars : Closed chars.toList := h chars rfl
      exact hchars.wrap (by decide +kernel) (by decide +kernel)
  | unicodeLetter variant =>
      have hvariant : Closed variant.toList := h variant rfl
      have hname : Closed ("L" ++ variant).toList := by
        rw [String.toList_append]
        exact Closed.append (by decide +kernel) hvariant
      exact hname.wrap (by decide +kernel) (by decide +kernel)
  | digit | word | whitespace | nonWhitespace | letter | any | unicodeNumber
  | unicodePunctuation | unicodeSymbol => decide +kernel

theorem closed_lookaround (kind : Lookaround) {pattern : String}
    (h : Closed pattern.toList) : Closed (kind.text pattern).toList := by
  have hmark : Closed ("(" ++ kind.mark).toList := by
    cases kind <;> decide +kernel
  exact h.wrap hmark (by decide +kernel)

theorem closed_text {p : Piece} (h : ∀ s ∈ p.inserted?, Closed s.toList) :
    Closed p.text.toList := by
  cases p with
  | raw s => exact h s rfl
  | literal t =>
      rw [Piece.toList_text_literal]
      exact closed_escape .byTable t.toList
  | charClass c => exact closed_charClass h
  | quantifier q => exact closed_quantifier q
  | opening o =>
      cases o with
      | plain | capturing => decide +kernel
      | named name => exact Closed.wrap (h name rfl) (by decide +kernel) (by decide +kernel)
  | closing => decide +kernel
  | lookaround kind pattern => exact closed_lookaround kind (h pattern rfl)
  | boundary b => cases b <;> decide +kernel
  | requirement r => cases r <;> decide +kernel
  | addressPart a => cases a <;> decide +kernel

theorem closed_bounded (n : Int) (s : String) (h : Closed s.toList) :
    Closed (bounded n s).toList := by
  by_cases hd : EndsInDigit s
  · rw [bounded_of_endsInDigit hd, String.toList_append]
    exact h.append (closed_quantifier (.upTo n))
  · rwa [bounded_of_not_endsInDigit hd]

theorem closed_pattern {d : Draft} (h : ∀ s ∈ d.fragments, Closed s.toList) :
    Closed d.pattern.toList := by
  rw [Draft.toList_pattern]
  apply closed_flatten
  intro t ht
  obtain ⟨s, hs, rfl⟩ := List.mem_map.mp ht
  exact h s hs

theorem read?_delimited {d : Draft} (h : Closed d.pattern.toList) :
    read? d.delimited.toList = some (d.pattern.toList, (toString d.flags).toList) := by
  rw [Draft.toList_delimited, read?]
  exact cutFirst_append h _

/-- When the text that goes into a draft as it is is closed, the pattern is
closed too, so it can go into another draft, and the delimited form is cut at
the slash that ends it. -/
theorem read?_delimited_ofSteps (xs : List Step)
    (h : ∀ x ∈ xs, ∀ p ∈ x.piece?, ∀ s ∈ p.inserted?, Closed s.toList) :
    Closed (Draft.ofSteps xs).pattern.toList ∧
      read? (Draft.ofSteps xs).delimited.toList =
        some ((Draft.ofSteps xs).pattern.toList,
          (toString (Draft.ofSteps xs).flags).toList) := by
  have hempty : ∀ s ∈ (∅ : Draft).fragments, Closed s.toList := by simp
  have hpieces : ∀ x ∈ xs, ∀ p ∈ x.piece?, Closed p.text.toList :=
    fun x hx p hp ↦ closed_text (h x hx p hp)
  have hfragments : ∀ s ∈ (Draft.ofSteps xs).fragments, Closed s.toList :=
    Draft.forall_fragments_run closed_bounded hempty hpieces
  have hpattern : Closed (Draft.ofSteps xs).pattern.toList := closed_pattern hfragments
  exact ⟨hpattern, read?_delimited hpattern⟩

/-- A slash in raw text and one in a literal, both before another step. -/
def slashSteps : List Step :=
  [.add (.raw "a\\/"), .add (.literal "/\\"), .global, .add (.raw "\\d"),
    .boundDigits (-3)]

theorem read?_delimited_ofSteps_slashes :
    (∀ x ∈ slashSteps, ∀ p ∈ x.piece?, ∀ s ∈ p.inserted?, Closed s.toList) ∧
      read? (Draft.ofSteps slashSteps).delimited.toList =
        some ("a\\/\\/\\\\\\d\x7b0,-3\x7d".toList, ['g']) := by
  have h : ∀ x ∈ slashSteps, ∀ p ∈ x.piece?, ∀ s ∈ p.inserted?, Closed s.toList := by
    decide +kernel
  have hread := (read?_delimited_ofSteps _ h).2
  exact ⟨h, hread.trans (by decide +kernel)⟩

end Delimited

end RegexDraft
