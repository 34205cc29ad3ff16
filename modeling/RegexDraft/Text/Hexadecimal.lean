import RegexDraft.Text.Decimal

/-!
# Hexadecimal numbers at the front of text

As many digits as there are, the ones from ten on in lower case. The written form
of a number reads back, whatever follows it, as long as that does not start with a
digit (`Hexadecimal.read?_append`).
-/

namespace RegexDraft.Hexadecimal

def isDigit (c : Char) : Bool := c.isDigit || (decide ('a' ≤ c) && decide (c ≤ 'f'))

def digitValue (c : Char) : Nat :=
  if c.isDigit then c.toNat - '0'.toNat else c.toNat - 'a'.toNat + 10

def value (s : List Char) : Nat := s.foldl (fun n c ↦ 16 * n + digitValue c) 0

def read? (s : List Char) : Option (Nat × List Char) :=
  match s.takeWhile isDigit with
  | [] => none
  | c :: r => some (value (c :: r), s.dropWhile isDigit)

theorem isDigit_digitChar : ∀ d < 16, isDigit (Nat.digitChar d) = true := by decide

theorem digitValue_digitChar : ∀ d < 16, digitValue (Nat.digitChar d) = d := by decide

theorem value_concat (s : List Char) (c : Char) :
    value (s ++ [c]) = 16 * value s + digitValue c := by
  simp [value]

theorem isDigit_of_mem_toDigits {n : Nat} {c : Char} (h : c ∈ Nat.toDigits 16 n) :
    isDigit c = true := by
  induction n using Nat.strongRecOn with
  | ind n ih =>
      by_cases hn : n < 16
      · rw [Nat.toDigits_of_lt_base hn, List.mem_singleton] at h
        rw [h, isDigit_digitChar n hn]
      · have hle : 16 ≤ n := Nat.le_of_not_lt hn
        rw [Nat.toDigits_of_base_le (by decide) hle, List.mem_append, List.mem_singleton] at h
        rcases h with h | rfl
        · exact ih (n / 16) (by omega) h
        · exact isDigit_digitChar _ (Nat.mod_lt n (by decide))

theorem value_toDigits (n : Nat) : value (Nat.toDigits 16 n) = n := by
  induction n using Nat.strongRecOn with
  | ind n ih =>
      by_cases hn : n < 16
      · rw [Nat.toDigits_of_lt_base hn]
        exact (Nat.zero_add _).trans (digitValue_digitChar n hn)
      · have hle : 16 ≤ n := Nat.le_of_not_lt hn
        have hlast : n % 16 < 16 := Nat.mod_lt n (by decide)
        rw [Nat.toDigits_of_base_le (by decide) hle, value_concat, ih (n / 16) (by omega),
          digitValue_digitChar _ hlast, Nat.div_add_mod]

theorem read?_append (n : Nat) {t : List Char} (h : t.takeWhile isDigit = []) :
    read? (Nat.toDigits 16 n ++ t) = some (n, t) := by
  have hdigits : ∀ c ∈ Nat.toDigits 16 n, isDigit c = true :=
    fun c hc ↦ isDigit_of_mem_toDigits hc
  obtain ⟨hfront, hrest⟩ := Decimal.span_append hdigits h
  rw [read?, hfront, hrest]
  split
  · next hnil => exact absurd hnil Nat.toDigits_ne_nil
  · next c r hcons => rw [← hcons, value_toDigits]

end RegexDraft.Hexadecimal
