import RegexDraft.Text.Decimal

/-!
# Quantifiers

How often the pattern text before a quantifier may occur. Counts are written in
decimal and are not checked: a negative count is written with its sign. A
quantifier in braces reads back from its text with its kind and its counts.
-/

namespace RegexDraft

inductive Quantifier where
  | optional
  /-- Makes the quantifier before it take as little as it can. -/
  | lazy
  | oneOrMore
  | zeroOrMore
  | exactly (n : Int)
  | atLeast (n : Int)
  | between (min max : Int)
  deriving DecidableEq, Repr

namespace Quantifier

def braced (count : String) : String := "\x7b" ++ count ++ "\x7d"

def text : Quantifier → String
  | optional => "?"
  | lazy => "?"
  | oneOrMore => "+"
  | zeroOrMore => "*"
  | exactly n => braced (toString n)
  | atLeast n => braced (toString n ++ ",")
  | between min max => braced (toString min ++ "," ++ toString max)

abbrev times (n : Int) : Quantifier := exactly n

abbrev upTo (n : Int) : Quantifier := between 0 n

def readBraced? : List Char → Option Quantifier
  | '{' :: r =>
    match Decimal.read? r with
    | some (n, ['}']) => some (exactly n)
    | some (n, [',', '}']) => some (atLeast n)
    | some (min, ',' :: r) =>
      match Decimal.read? r with
      | some (max, ['}']) => some (between min max)
      | _ => none
    | _ => none
  | _ => none

@[simp] theorem toList_braced (count : String) :
    (braced count).toList = '{' :: (count.toList ++ ['}']) := by
  simp [braced]

theorem text_upTo (n : Int) : (upTo n).text = "\x7b0," ++ toString n ++ "\x7d" := by
  apply String.toList_inj.mp
  have hzero : toString (0 : Int) = "0" := rfl
  simp [text, braced, hzero]

/-- What a quantifier writes besides digits. -/
def marks : List Char := ['?', '+', '*', '\x7b', '\x7d', ',', '-']

theorem mem_toList_text {q : Quantifier} {c : Char} (h : c ∈ q.text.toList) :
    c ∈ marks ∨ c.isDigit = true := by
  have hcount : ∀ n : Int, c ∈ (toString n).toList → c ∈ marks ∨ c.isDigit = true := by
    intro n hn
    rcases Decimal.mem_toList_toString hn with rfl | hdigit
    · exact .inl (by decide)
    · exact .inr hdigit
  cases q with
  | optional | lazy | oneOrMore | zeroOrMore =>
      have hc : c ∈ marks := by simp_all [text, marks]
      exact .inl hc
  | exactly n =>
      simp only [text, toList_braced, List.mem_cons, List.mem_append, List.not_mem_nil,
        or_false] at h
      rcases h with rfl | h | rfl
      · exact .inl (by decide)
      · exact hcount n h
      · exact .inl (by decide)
  | atLeast n =>
      simp only [text, toList_braced, String.toList_append, List.mem_cons,
        List.mem_append, List.not_mem_nil, or_false] at h
      rcases h with rfl | (h | h) | rfl
      · exact .inl (by decide)
      · exact hcount n h
      · exact .inl (by simp_all [marks])
      · exact .inl (by decide)
  | between min max =>
      simp only [text, toList_braced, String.toList_append, List.mem_cons,
        List.mem_append, List.not_mem_nil, or_false] at h
      rcases h with rfl | ((h | h) | h) | rfl
      · exact .inl (by decide)
      · exact hcount min h
      · exact .inl (by simp_all [marks])
      · exact hcount max h
      · exact .inl (by decide)

theorem readBraced?_exactly (n : Int) :
    readBraced? (exactly n).text.toList = some (exactly n) := by
  rw [text, toList_braced, readBraced?, Decimal.read?_append n rfl]
  rfl

theorem readBraced?_atLeast (n : Int) :
    readBraced? (atLeast n).text.toList = some (atLeast n) := by
  rw [text, toList_braced, String.toList_append, List.append_assoc, readBraced?,
    Decimal.read?_append n rfl]
  rfl

theorem readBraced?_between (min max : Int) :
    readBraced? (between min max).text.toList = some (between min max) := by
  have hmax := Decimal.read?_append max (t := ['}']) rfl
  rw [text, toList_braced, String.toList_append, String.toList_append,
    List.append_assoc, List.append_assoc, readBraced?, Decimal.read?_append min rfl]
  cases hs : (toString max).toList with
  | nil =>
      rw [hs] at hmax
      exact nomatch hmax
  | cons c r =>
      rw [hs, List.cons_append] at hmax
      simp [hmax]

end Quantifier

end RegexDraft
