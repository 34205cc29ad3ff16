/-!
# Decimal integers at the front of text

A minus sign if there is one, then as many digits as there are. The written
form of an integer reads back, whatever follows it, as long as that does not
start with a digit (`Decimal.read?_append`).
-/

namespace RegexDraft.Decimal

def readNat? (s : List Char) : Option (Nat × List Char) :=
  match s.takeWhile Char.isDigit with
  | [] => none
  | c :: r => some (Nat.ofDigitChars 10 (c :: r) 0, s.dropWhile Char.isDigit)

def read? : List Char → Option (Int × List Char)
  | '-' :: r => (readNat? r).map fun p ↦ (-(p.1 : Int), p.2)
  | s => (readNat? s).map fun p ↦ ((p.1 : Int), p.2)

theorem mem_toList_toString {n : Int} {c : Char} (h : c ∈ (toString n).toList) :
    c = '-' ∨ c.isDigit = true := by
  have hdigit : ∀ m : Nat, c ∈ m.repr.toList → c.isDigit = true := by
    intro m hm
    rw [Nat.toList_repr] at hm
    exact Nat.isDigit_of_mem_toDigits (by decide) (by decide) hm
  cases n with
  | ofNat m => exact .inr (hdigit m h)
  | negSucc m =>
      change c ∈ ("-" ++ (m + 1).repr).toList at h
      rw [String.toList_append, List.mem_append] at h
      rcases h with h | h
      · exact .inl (by simpa using h)
      · exact .inr (hdigit (m + 1) h)

/-- Where a run of digits ends, whatever counts as a digit. -/
theorem span_append {p : Char → Bool} {s t : List Char} (hs : ∀ c ∈ s, p c = true)
    (ht : t.takeWhile p = []) :
    (s ++ t).takeWhile p = s ∧ (s ++ t).dropWhile p = t := by
  have hrest : t.takeWhile p ++ t.dropWhile p = t := List.takeWhile_append_dropWhile
  rw [ht, List.nil_append] at hrest
  rw [List.takeWhile_append_of_pos hs, List.dropWhile_append_of_pos hs, ht, hrest,
    List.append_nil]
  exact ⟨rfl, rfl⟩

theorem readNat?_append (n : Nat) {t : List Char}
    (h : t.takeWhile Char.isDigit = []) :
    readNat? (Nat.toDigits 10 n ++ t) = some (n, t) := by
  have hdigits : ∀ c ∈ Nat.toDigits 10 n, c.isDigit = true :=
    fun c hc ↦ Nat.isDigit_of_mem_toDigits (by decide) (by decide) hc
  obtain ⟨hfront, hrest⟩ := span_append hdigits h
  rw [readNat?, hfront, hrest]
  split
  · next hnil => exact absurd hnil Nat.toDigits_ne_nil
  · next c r hcons =>
      rw [← hcons, Nat.ofDigitChars_toDigits (by decide) (by decide)]

theorem read?_of_digit {c : Char} (h : c.isDigit = true) (r : List Char) :
    read? (c :: r) = (readNat? (c :: r)).map fun p ↦ ((p.1 : Int), p.2) := by
  have hc : c ≠ '-' := by rintro rfl; simp at h
  simp [read?, hc]

theorem read?_append (n : Int) {t : List Char} (h : t.takeWhile Char.isDigit = []) :
    read? ((toString n).toList ++ t) = some (n, t) := by
  cases n with
  | ofNat n =>
      have hnat := readNat?_append n h
      cases hs : Nat.toDigits 10 n with
      | nil => exact absurd hs Nat.toDigits_ne_nil
      | cons c r =>
          have hc : c.isDigit = true := Nat.isDigit_of_mem_toDigits
            (by decide) (by decide) (hs ▸ List.mem_cons_self)
          rw [hs] at hnat
          change read? (n.repr.toList ++ t) = _
          rw [Nat.toList_repr, hs, List.cons_append, read?_of_digit hc,
            ← List.cons_append, hnat]
          rfl
  | negSucc n =>
      change read? (("-" ++ (n + 1).repr).toList ++ t) = _
      simp [read?, Nat.toList_repr, readNat?_append (n + 1) h, Int.negSucc_eq]

end RegexDraft.Decimal
