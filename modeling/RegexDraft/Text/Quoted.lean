import RegexDraft.Text.Hexadecimal
import RegexDraft.Text.PrefixCode

/-!
# Quoted text

Text between double quotes on one line. A double quote, a backslash and every
control character is written as an escape; all else, the single quote included,
stands as it is. That is the debug form of a text as long as its other characters
are printable and none of them extends a grapheme. Each character reads back from
the front of what is written (`Quoted.readChar?_encodeChar_append`) and none is
written with a double quote in front, so quoted text ends at its closing quote
(`Quoted.prefixCode_encode`).
-/

namespace RegexDraft.Quoted

/-- The control characters of Unicode: the ASCII ones and `U+0080` to
`U+009F`. -/
def IsControl (c : Char) : Prop :=
  c.toNat < 0x20 ∨ 0x7f ≤ c.toNat ∧ c.toNat ≤ 0x9f

instance (c : Char) : Decidable (IsControl c) :=
  inferInstanceAs (Decidable (_ ∨ _))

def codePoint (c : Char) : List Char :=
  ['\\', 'u', '{'] ++ Nat.toDigits 16 c.toNat ++ ['}']

/-- A character between the quotes. The debug form also has a code point in place
of a character that extends a grapheme, such as `U+0301`, or that is not printable,
such as `U+200B` or `U+E000`. These stand as they are here. -/
def encodeChar (c : Char) : List Char :=
  match c with
  | '"' => ['\\', '"']
  | '\\' => ['\\', '\\']
  | '\t' => ['\\', 't']
  | '\r' => ['\\', 'r']
  | '\n' => ['\\', 'n']
  | '\x00' => ['\\', '0']
  | c => if IsControl c then codePoint c else [c]

def encode (s : String) : String :=
  "\"" ++ String.ofList (s.toList.flatMap encodeChar) ++ "\""

/-- Reads an escape after its backslash. -/
def readEscape? : List Char → Option (Char × List Char)
  | '"' :: r => some ('"', r)
  | '\\' :: r => some ('\\', r)
  | 't' :: r => some ('\t', r)
  | 'r' :: r => some ('\r', r)
  | 'n' :: r => some ('\n', r)
  | '0' :: r => some ('\x00', r)
  | 'u' :: '{' :: r =>
    match Hexadecimal.read? r with
    | some (n, '}' :: r) => some (Char.ofNat n, r)
    | _ => none
  | _ => none

/-- Reads one character of quoted text, before the closing quote. -/
def readChar? : List Char → Option (Char × List Char)
  | [] => none
  | '\\' :: r => readEscape? r
  | c :: r => if c = '"' then none else some (c, r)

theorem readChar?_codePoint_append (c : Char) (r : List Char) :
    readChar? (codePoint c ++ r) = some (c, r) := by
  have hread : Hexadecimal.read? (Nat.toDigits 16 c.toNat ++ '}' :: r) =
      some (c.toNat, '}' :: r) :=
    Hexadecimal.read?_append c.toNat rfl
  simp [codePoint, readChar?, readEscape?, hread]

theorem readChar?_encodeChar_append (c : Char) (r : List Char) :
    readChar? (encodeChar c ++ r) = some (c, r) := by
  fun_cases encodeChar c with
  | case7 => exact readChar?_codePoint_append c r
  | case8 c hquote => simpa [readChar?] using hquote
  | _ => rfl

theorem beginsOther_encodeChar (c : Char) : BeginsOther '"' (encodeChar c) := by
  have hread : readChar? (encodeChar c ++ []) = some (c, []) := readChar?_encodeChar_append c []
  cases hcode : encodeChar c with
  | nil =>
      rw [hcode] at hread
      exact nomatch hread
  | cons d r =>
      refine ⟨d, r, rfl, ?_⟩
      rintro rfl
      rw [hcode] at hread
      exact nomatch hread

theorem toList_encode (s : String) :
    (encode s).toList = '"' :: (s.toList.flatMap encodeChar ++ ['"']) := by
  simp [encode]

theorem beginsOther_encode (s : String) : BeginsOther ']' (encode s).toList :=
  ⟨'"', _, toList_encode s, by decide⟩

theorem prefixCode_encodeChar : PrefixCode encodeChar :=
  .of_read? readChar?_encodeChar_append

theorem prefixCode_encode : PrefixCode fun s ↦ (encode s).toList := by
  have hbody : PrefixCode fun t : List Char ↦ t.flatMap encodeChar ++ ['"'] :=
    prefixCode_encodeChar.many beginsOther_encodeChar
  simp only [toList_encode]
  exact (hbody.comp fun _ _ ↦ String.toList_inj.mp).const_append ['"']

end RegexDraft.Quoted
