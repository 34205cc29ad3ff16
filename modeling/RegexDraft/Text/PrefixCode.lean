/-!
# Prefix codes

A code writes values as text in such a way that the text of a value can be told
from whatever follows it. Then different values are written differently
(`PrefixCode.injective`), and values written one after another, with fixed text
around them or as lists with a mark at the end, can again be told from what
follows (`PrefixCode.append`, `PrefixCode.many`, `PrefixCode.separated`).
-/

namespace RegexDraft

variable {α β : Type}

/-- Whatever follows, the text tells which value it begins with and where that
ends. -/
def PrefixCode (code : α → List Char) : Prop :=
  ∀ ⦃a b s t⦄, code a ++ s = code b ++ t → a = b ∧ s = t

/-- The text is not empty, and its first character is not `stop`. -/
def BeginsOther (stop : Char) (s : List Char) : Prop := ∃ c r, s = c :: r ∧ c ≠ stop

theorem BeginsOther.append {stop : Char} {s : List Char} (h : BeginsOther stop s)
    (t : List Char) : BeginsOther stop (s ++ t) := by
  obtain ⟨c, r, rfl, hc⟩ := h
  exact ⟨c, r ++ t, rfl, hc⟩

theorem BeginsOther.ne_cons {stop : Char} {s : List Char} (h : BeginsOther stop s)
    (t : List Char) : s ≠ stop :: t := by
  obtain ⟨c, r, rfl, hc⟩ := h
  exact fun hs ↦ hc (List.cons.inj hs).1

namespace PrefixCode

variable {code : α → List Char} {code' : β → List Char} {sep : List Char} {stop : Char}

theorem of_read? {read? : List Char → Option (α × List Char)}
    (h : ∀ a r, read? (code a ++ r) = some (a, r)) : PrefixCode code := by
  intro a b s t hst
  have hread : some (a, s) = some (b, t) := by
    rw [← h, ← h, hst]
  exact Prod.mk.inj (Option.some.inj hread)

theorem injective (h : PrefixCode code) : Function.Injective code := by
  intro a b hab
  exact (h (congrArg (· ++ []) hab)).1

theorem comp (h : PrefixCode code) {f : β → α} (hf : Function.Injective f) :
    PrefixCode fun b ↦ code (f b) := by
  intro a b s t hst
  obtain ⟨hab, hrest⟩ := h hst
  exact ⟨hf hab, hrest⟩

theorem const_append (front : List Char) (h : PrefixCode code) :
    PrefixCode fun a ↦ front ++ code a := by
  intro a b s t hst
  rw [List.append_assoc, List.append_assoc] at hst
  exact h (List.append_cancel_left hst)

theorem append_const (h : PrefixCode code) (back : List Char) :
    PrefixCode fun a ↦ code a ++ back := by
  intro a b s t hst
  rw [List.append_assoc, List.append_assoc] at hst
  obtain ⟨hab, hrest⟩ := h hst
  exact ⟨hab, List.append_cancel_left hrest⟩

theorem append (h : PrefixCode code) (h' : PrefixCode code') :
    PrefixCode fun p : α × β ↦ code p.1 ++ code' p.2 := by
  rintro ⟨a, b⟩ ⟨a', b'⟩ s t hst
  rw [List.append_assoc, List.append_assoc] at hst
  obtain ⟨rfl, hsecond⟩ := h hst
  obtain ⟨rfl, hrest⟩ := h' hsecond
  exact ⟨rfl, hrest⟩

/-- Values one after another and a mark at the end that none of them begins
with. -/
theorem many (h : PrefixCode code) (hstop : ∀ a, BeginsOther stop (code a)) :
    PrefixCode fun l : List α ↦ l.flatMap code ++ [stop] := by
  intro l m s t hst
  simp only [List.append_assoc, List.singleton_append] at hst
  -- Both texts go on with a value or both end: the mark begins no value.
  induction l generalizing m with
  | nil =>
      cases m with
      | nil => exact ⟨rfl, (List.cons.inj hst).2⟩
      | cons b m =>
          rw [List.flatMap_cons, List.append_assoc] at hst
          exact absurd hst.symm (((hstop b).append _).ne_cons s)
  | cons a l ih =>
      rw [List.flatMap_cons, List.append_assoc] at hst
      cases m with
      | nil => exact absurd hst (((hstop a).append _).ne_cons t)
      | cons b m =>
          rw [List.flatMap_cons, List.append_assoc] at hst
          obtain ⟨rfl, htail⟩ := h hst
          obtain ⟨rfl, hrest⟩ := ih htail
          exact ⟨rfl, hrest⟩

theorem intercalate_map_cons (a : α) (l : List α) :
    sep.intercalate ((a :: l).map code) = code a ++ l.flatMap fun b ↦ sep ++ code b := by
  induction l generalizing a with
  | nil => simp [List.intercalate]
  | cons b l ih =>
      rw [List.map_cons, List.map_cons, List.intercalate_cons_cons, ← List.map_cons, ih,
        List.flatMap_cons, List.append_assoc, List.append_assoc]

/-- Values with a separator between them and a mark at the end. Neither a value
nor the separator begins with the mark. -/
theorem separated (h : PrefixCode code) (hstop : ∀ a, BeginsOther stop (code a))
    (hsep : BeginsOther stop sep) :
    PrefixCode fun l : List α ↦ sep.intercalate (l.map code) ++ [stop] := by
  have hmany : PrefixCode fun l : List α ↦ (l.flatMap fun b ↦ sep ++ code b) ++ [stop] :=
    (h.const_append sep).many fun a ↦ hsep.append (code a)
  intro l m s t hst
  simp only [List.append_assoc] at hst
  cases l with
  | nil =>
      cases m with
      | nil => exact ⟨rfl, (List.cons.inj hst).2⟩
      | cons b m =>
          rw [intercalate_map_cons, List.append_assoc] at hst
          exact absurd hst.symm (((hstop b).append _).ne_cons s)
  | cons a l =>
      rw [intercalate_map_cons, List.append_assoc] at hst
      cases m with
      | nil => exact absurd hst (((hstop a).append _).ne_cons t)
      | cons b m =>
          rw [intercalate_map_cons, List.append_assoc] at hst
          obtain ⟨rfl, htail⟩ := h hst
          rw [← List.append_assoc, ← List.append_assoc] at htail
          obtain ⟨rfl, hrest⟩ := hmany htail
          exact ⟨rfl, hrest⟩

end PrefixCode

end RegexDraft
