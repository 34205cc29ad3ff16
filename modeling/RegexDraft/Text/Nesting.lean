import RegexDraft.Text.Symbol

/-!
# Nesting of groups in pattern text

A scan over symbols that follows how deep the groups nest. Taken characters
never count, and inside a character class only the bracket that closes it does.
Text is balanced when a scan of it ends as it began: at depth zero, never below
zero on the way, and outside a class. What a scan does from one state follows
from what it does from another (`Nesting.scan_eq`).
-/

namespace RegexDraft

@[ext] structure Nesting where
  depth : Int := 0
  /-- The least depth so far. -/
  low : Int := 0
  inClass : Bool := false
  deriving DecidableEq, Repr

namespace Nesting

def step (s : Nesting) : Symbol → Nesting
  | .taken _ => s
  | .bare c =>
    if s.inClass then { s with inClass := decide (c ≠ ']') }
    else if c = '[' then { s with inClass := true }
    else if c = '(' then { s with depth := s.depth + 1 }
    else if c = ')' then
      { s with depth := s.depth - 1, low := min s.low (s.depth - 1) }
    else s

def scan (s : Nesting) (u : List Symbol) : Nesting := u.foldl step s

/-- Scans text from depth zero. The text must read to its end. -/
def ofText? (t : List Char) : Option Nesting := (Symbol.read? t).map (scan {})

def Balanced (t : List Char) : Prop := ofText? t = some {}

instance (t : List Char) : Decidable (Balanced t) :=
  inferInstanceAs (Decidable (_ = _))

@[simp] theorem scan_nil (s : Nesting) : s.scan [] = s := rfl

@[simp] theorem scan_cons (s : Nesting) (a : Symbol) (u : List Symbol) :
    s.scan (a :: u) = (s.step a).scan u := rfl

@[simp] theorem scan_append (s : Nesting) (u v : List Symbol) :
    s.scan (u ++ v) = (s.scan u).scan v :=
  List.foldl_append

@[simp] theorem step_taken (s : Nesting) (c : Char) : s.step (.taken c) = s := rfl

/-- Goes on from `s` with what `e` went through from depth zero. -/
def after (s e : Nesting) : Nesting :=
  ⟨s.depth + e.depth, min s.low (s.depth + e.low), e.inClass⟩

theorem step_after (s e : Nesting) (a : Symbol) :
    (s.after e).step a = s.after (e.step a) := by
  cases a with
  | taken c => rfl
  | bare c =>
      by_cases hin : e.inClass
      · simp [step, after, hin]
      by_cases hsq : c = '['
      · simp [step, after, hin, hsq]
      by_cases ho : c = '('
      · simp [step, after, hin, ho, Int.add_assoc]
      by_cases hc : c = ')'
      · simp only [step, after, hin, hc, if_false, if_true, mk.injEq,
          and_true, Bool.false_eq_true, Char.reduceEq]
        omega
      · simp [step, after, hin, hsq, ho, hc]

theorem scan_after (s e : Nesting) (u : List Symbol) :
    (s.after e).scan u = s.after (e.scan u) := by
  induction u generalizing e with
  | nil => rfl
  | cons a u ih => rw [scan_cons, step_after, ih, scan_cons]

/-- Where a scan starts shifts the depths on its way and nothing else. -/
theorem scan_eq (s : Nesting) (h : s.low ≤ s.depth) (u : List Symbol) :
    s.scan u = s.after (scan ⟨0, 0, s.inClass⟩ u) := by
  rw [← scan_after]
  congr 1
  simp only [after, Int.add_zero]
  rw [Int.min_eq_left h]

/-- A scan that is outside of every class. The least depth counts the depth
reached last as well. -/
structure AtRest (s : Nesting) : Prop where
  outside : s.inClass = false
  low_le_depth : s.low ≤ s.depth

theorem atRest_empty : AtRest {} := ⟨rfl, Int.le_refl 0⟩

theorem atRest_open : AtRest ⟨1, 0, false⟩ := ⟨rfl, Int.zero_le_ofNat 1⟩

theorem AtRest.after_empty {s : Nesting} (h : s.AtRest) : s.after {} = s := by
  have hlow : min s.low s.depth = s.low := Int.min_eq_left h.low_le_depth
  simp only [after, Int.add_zero, hlow, ← h.outside]

/-- Symbols that change nothing where the scan stands change nothing together. -/
theorem scan_eq_self {s : Nesting} {u : List Symbol} (h : ∀ a ∈ u, s.step a = s) :
    s.scan u = s := by
  induction u with
  | nil => rfl
  | cons a u ih =>
      rw [scan_cons, h a List.mem_cons_self]
      exact ih fun b hb ↦ h b (List.mem_cons_of_mem a hb)

theorem step_bare_of_outside {s : Nesting} (hs : s.inClass = false) {c : Char}
    (hc : c ∉ ['[', '(', ')']) : s.step (.bare c) = s := by
  simp only [List.mem_cons, List.not_mem_nil, or_false, not_or] at hc
  simp [step, hs, hc]

theorem step_bare_of_inClass {s : Nesting} (hs : s.inClass = true) {c : Char}
    (hc : c ≠ ']') : s.step (.bare c) = s := by
  obtain ⟨depth, low, inClass⟩ := s
  subst hs
  simp [step, hc]

/-- Everything that one symbol can do. Only the last case lowers the depth. -/
theorem step_cases (s : Nesting) (a : Symbol) :
    (∃ b, s.step a = { s with inClass := b }) ∨
    s.step a = { s with depth := s.depth + 1 } ∨
    s.step a = { s with depth := s.depth - 1, low := min s.low (s.depth - 1) } := by
  cases a with
  | taken c => exact .inl ⟨s.inClass, rfl⟩
  | bare c =>
      by_cases hin : s.inClass
      · exact .inl ⟨decide (c ≠ ']'), by simp [step, hin]⟩
      by_cases hsq : c = '['
      · exact .inl ⟨true, by simp [step, hin, hsq]⟩
      by_cases ho : c = '('
      · exact .inr (.inl (by simp [step, hin, ho]))
      by_cases hc : c = ')'
      · exact .inr (.inr (by simp [step, hin, hc]))
      · have houtside : s.inClass = false := Bool.eq_false_iff.mpr hin
        exact .inl ⟨s.inClass, step_bare_of_outside houtside (by simp [hsq, ho, hc])⟩

theorem low_step_le (s : Nesting) (a : Symbol) : (s.step a).low ≤ s.low := by
  rcases s.step_cases a with ⟨b, h⟩ | h | h
  · exact Int.le_of_eq (by rw [h])
  · exact Int.le_of_eq (by rw [h])
  · rw [h]
    exact Int.min_le_left _ _

theorem low_le_depth_step {s : Nesting} (hs : s.low ≤ s.depth) (a : Symbol) :
    (s.step a).low ≤ (s.step a).depth := by
  rcases s.step_cases a with ⟨b, h⟩ | h | h
  · rwa [h]
  · rw [h]
    exact Int.le_add_one hs
  · rw [h]
    exact Int.min_le_right _ _

theorem low_scan_le (s : Nesting) (u : List Symbol) : (s.scan u).low ≤ s.low := by
  induction u generalizing s with
  | nil => exact Int.le_refl _
  | cons a u ih => exact Int.le_trans (ih (s.step a)) (s.low_step_le a)

theorem low_le_depth_scan {s : Nesting} (hs : s.low ≤ s.depth) (u : List Symbol) :
    (s.scan u).low ≤ (s.scan u).depth := by
  induction u generalizing s with
  | nil => exact hs
  | cons a u ih => exact ih (low_le_depth_step hs a)

/-- The least depth of a scan is below every depth on its way. -/
theorem low_scan_le_of_prefix {s : Nesting} (hs : s.low ≤ s.depth) {u v : List Symbol}
    (h : v <+: u) : (s.scan u).low ≤ (s.scan v).depth := by
  obtain ⟨w, rfl⟩ := h
  rw [scan_append]
  exact Int.le_trans (low_scan_le _ w) (low_le_depth_scan hs v)

theorem ofText?_append {t : List Char} {e : Nesting} (h : ofText? t = some e)
    (t' : List Char) : ofText? (t ++ t') = (Symbol.read? t').map e.scan := by
  obtain ⟨u, hu, rfl⟩ := Option.map_eq_some_iff.mp h
  simp [ofText?, Symbol.read?_append hu, Function.comp_def]

/-- Texts one after another nest one after another when the first one ends
outside of every class. -/
theorem AtRest.ofText?_append {t t' : List Char} {e e' : Nesting} (he : e.AtRest)
    (h : ofText? t = some e) (h' : ofText? t' = some e') :
    ofText? (t ++ t') = some (e.after e') := by
  obtain ⟨u, hu, hscan⟩ := Option.map_eq_some_iff.mp h'
  have hshift : e.scan u = e.after e' := by
    rw [scan_eq e he.low_le_depth, he.outside, ← hscan]
  rw [Nesting.ofText?_append h, hu, Option.map_some, hshift]

theorem Balanced.append {t t' : List Char} (h : Balanced t) (h' : Balanced t') :
    Balanced (t ++ t') :=
  atRest_empty.ofText?_append h h'

/-- No character of the text has a part in nesting. -/
def Flat (t : List Char) : Prop := ∀ c ∈ t, c ∉ ['\\', '(', ')', '[', ']']

instance (t : List Char) : Decidable (Flat t) :=
  List.decidableBAll (· ∉ ['\\', '(', ')', '[', ']']) t

theorem Flat.balanced {t : List Char} (h : Flat t) : Balanced t := by
  have hb : '\\' ∉ t := fun hmem ↦ h _ hmem (by decide)
  have hscan : scan {} (t.map .bare) = {} := by
    apply scan_eq_self
    intro a ha
    obtain ⟨c, hc, rfl⟩ := List.mem_map.mp ha
    have hflat := h c hc
    simp only [List.mem_cons, List.not_mem_nil, or_false, not_or] at hflat
    apply step_bare_of_outside rfl
    simp [hflat]
  rw [Balanced, ofText?, Symbol.read?_of_not_mem hb, Option.map_some, hscan]

end Nesting

end RegexDraft
