import RegexDraft.Text.Nesting

/-!
# The group at the front of pattern text

Text that starts with an opening parenthesis is cut at the parenthesis that
closes it: the first place where a scan is back at depth zero. Balanced text
between two parentheses is never back there before the second one, so it comes
out of the cut as it went in (`Nesting.cutGroup_append`).
-/

namespace RegexDraft.Nesting

/-- Cuts symbols before the first one that brings the depth to zero. -/
def cutClosing (s : Nesting) : List Symbol → Option (List Symbol × List Symbol)
  | [] => none
  | a :: u =>
    if (s.step a).depth = 0 then some ([], a :: u)
    else (cutClosing (s.step a) u).map fun p ↦ (a :: p.1, p.2)

/-- The text inside the group, and the text from its closing parenthesis on. The
text must read to its end. -/
def cutGroup : List Char → Option (List Char × List Char)
  | '(' :: r => ((Symbol.read? r).bind (cutClosing ⟨1, 0, false⟩)).map fun p ↦
    (p.1.flatMap Symbol.chars, p.2.flatMap Symbol.chars)
  | _ => none

/-- No beginning of the symbols brings the depth to zero. -/
def StaysOpen (s : Nesting) (u : List Symbol) : Prop :=
  ∀ v, v <+: u → (s.scan v).depth ≠ 0

theorem StaysOpen.depth_ne_zero {s : Nesting} {u : List Symbol} (h : s.StaysOpen u) :
    s.depth ≠ 0 :=
  h [] List.nil_prefix

theorem StaysOpen.of_cons {s : Nesting} {a : Symbol} {u : List Symbol}
    (h : s.StaysOpen (a :: u)) : (s.step a).StaysOpen u :=
  fun v hv ↦ h (a :: v) (List.cons_prefix_cons.mpr ⟨rfl, hv⟩)

theorem cutClosing_append {s : Nesting} {u : List Symbol} (hu : s.StaysOpen u) {a : Symbol}
    (ha : ((s.scan u).step a).depth = 0) (w : List Symbol) :
    s.cutClosing (u ++ a :: w) = some (u, a :: w) := by
  induction u generalizing s with
  | nil => exact if_pos ha
  | cons b u ih =>
      have hopen : (s.step b).StaysOpen u := hu.of_cons
      rw [List.cons_append, cutClosing, if_neg hopen.depth_ne_zero, ih hopen ha]
      rfl

theorem staysOpen_of_scan_eq {u : List Symbol} (h : scan {} u = {}) :
    StaysOpen ⟨1, 0, false⟩ u := by
  intro v hv
  have hlow : (scan {} u).low ≤ (scan {} v).depth :=
    low_scan_le_of_prefix (Int.le_refl 0) hv
  have hdepth : (scan ⟨1, 0, false⟩ v).depth = 1 + (scan {} v).depth := by
    rw [scan_eq _ atRest_open.low_le_depth]
    rfl
  have hzero : (scan {} u).low = 0 := congrArg low h
  omega

theorem cutGroup_append {t : List Char} (ht : Balanced t) {r : List Char} {w : List Symbol}
    (hr : Symbol.read? r = some w) :
    cutGroup ('(' :: (t ++ ')' :: r)) = some (t, ')' :: r) := by
  obtain ⟨u, hu, hscan⟩ := Option.map_eq_some_iff.mp ht
  have hclose : Symbol.read? (')' :: r) = some (.bare ')' :: w) := by
    simp [Symbol.read?_cons, hr]
  have hread : Symbol.read? (t ++ ')' :: r) = some (u ++ .bare ')' :: w) := by
    rw [Symbol.read?_append hu, hclose, Option.map_some]
  have hinside : scan ⟨1, 0, false⟩ u = ⟨1, 0, false⟩ := by
    rw [scan_eq _ atRest_open.low_le_depth, hscan, atRest_open.after_empty]
  have hzero : ((scan ⟨1, 0, false⟩ u).step (.bare ')')).depth = 0 := by
    rw [hinside]
    rfl
  rw [cutGroup, hread, Option.bind_some,
    cutClosing_append (staysOpen_of_scan_eq hscan) hzero, Option.map_some,
    Symbol.flatMap_chars hu, Symbol.flatMap_chars hclose]

end RegexDraft.Nesting
