import RegexDraft.Draft.Step

/-!
# Escaped text in a pattern

A literal may be added wherever the pattern so far reads to its end. It then
adds the literals of its own characters to the reading and nothing else, so
what was meant can be read off the pattern, and how a text was cut into
literals cannot.
-/

namespace RegexDraft

namespace Draft

def addLiterals (d : Draft) (ts : List String) (E : Literal.MetaEscape := .byTable) :
    Draft :=
  ts.foldl (fun d t ↦ d.add (.literal t) E) d

variable {E : Literal.MetaEscape}

@[simp] theorem addLiterals_nil (d : Draft) : d.addLiterals [] E = d := rfl

@[simp] theorem addLiterals_cons (d : Draft) (t : String) (ts : List String) :
    d.addLiterals (t :: ts) E = (d.add (.literal t) E).addLiterals ts E := rfl

/-- Where one literal ends and the next one starts leaves no trace. -/
theorem toList_pattern_addLiterals (d : Draft) (ts : List String) :
    (d.addLiterals ts E).pattern.toList =
      d.pattern.toList ++ Literal.escape E (String.join ts).toList := by
  induction ts generalizing d with
  | nil => simp
  | cons t ts ih =>
      rw [addLiterals_cons, ih, pattern_add, String.toList_append,
        Piece.toList_text_literal, String.join_cons, String.toList_append,
        Literal.escape_append, List.append_assoc]

theorem pattern_addLiterals (d : Draft) (ts : List String) :
    (d.addLiterals ts E).pattern =
      d.pattern ++ String.ofList (Literal.escape E (String.join ts).toList) := by
  apply String.toList_inj.mp
  rw [toList_pattern_addLiterals, String.toList_append, String.toList_ofList]

/-- Texts added as literals read as the literals of their characters, after
whatever was read before them. Their characters come back from the added text
once its backslashes are dropped, and only the characters of all texts together
decide what is added. -/
theorem read?_pattern_addLiterals (E : Literal.MetaEscape) (d : Draft) {u : List Token}
    (h : Token.read? d.pattern.toList = some u) (ts : List String) :
    Token.read? (d.addLiterals ts E).pattern.toList =
        some (u ++ (String.join ts).toList.map .literal) ∧
      (∃ s, (d.addLiterals ts E).pattern = d.pattern ++ s ∧
        (Symbol.read? s.toList).map (·.map Symbol.char) =
          some (String.join ts).toList) ∧
      ∀ ts', (d.addLiterals ts' E).pattern = (d.addLiterals ts E).pattern ↔
        String.join ts' = String.join ts := by
  refine ⟨?_, ⟨_, pattern_addLiterals d ts, ?_⟩, ?_⟩
  · rw [toList_pattern_addLiterals, Token.read?_append h, Literal.read?_escape]
    rfl
  · rw [String.toList_ofList]
    exact Literal.map_char_read?_escape _
  · intro ts'
    rw [← String.toList_inj, toList_pattern_addLiterals, toList_pattern_addLiterals,
      List.append_cancel_left_eq, Literal.escape_inj, String.toList_inj]

/-- A digit class and an escaped backslash. -/
def endingInBackslash : Draft := ofSteps [.add (.raw "\\d\\\\")]

/-- Texts that begin and end at a backslash or a slash, and the same characters in
other texts. -/
theorem read?_pattern_addLiterals_backslashes :
    Token.read? endingInBackslash.pattern.toList =
        some [.classEscape 'd', .literal '\\'] ∧
      Token.read? (endingInBackslash.addLiterals ["\\", "", "/d"]).pattern.toList =
        some [.classEscape 'd', .literal '\\', .literal '\\', .literal '/', .literal 'd'] ∧
      (endingInBackslash.addLiterals ["\\/", "d"]).pattern =
        (endingInBackslash.addLiterals ["\\", "", "/d"]).pattern := by
  have h : Token.read? endingInBackslash.pattern.toList =
      some [.classEscape 'd', .literal '\\'] := by
    decide +kernel
  obtain ⟨hread, _, hsame⟩ := read?_pattern_addLiterals .byTable _ h ["\\", "", "/d"]
  exact ⟨h, hread.trans (by decide +kernel), (hsame ["\\/", "d"]).mpr (by decide +kernel)⟩

end Draft

end RegexDraft
