import RegexDraft.Text.Token

/-!
# Escaped literals

Escaping goes over the text twice: the characters that mean something to an
engine get a backslash first, and the slashes after that. The first pass is the
engine's own, and only its effect is known (`Literal.MetaEscape`). Neither pass
touches what the other one writes, so both together put a backslash before each
active character and leave every other character alone
(`Literal.escape_eq_escapeIn`). The tokens of escaped text are the literals of its
characters (`Literal.read?_escape`).
-/

namespace RegexDraft.Literal

/-- Puts a backslash before each character that is one of `cs`. -/
def escapeIn (cs t : List Char) : List Char :=
  t.flatMap fun c ↦ if c ∈ cs then ['\\', c] else [c]

/-- The characters that the first pass takes care of. -/
def metaChars : List Char :=
  ['\\', '.', '+', '*', '?', '(', ')', '|', '[', ']', '{', '}', '^', '$', '#',
    '&', '-', '~']

/-- The first pass is the function `escape` of the package `regex`, which is not
defined here. What is assumed of it is that it puts a backslash before each of
`metaChars` and changes nothing else. -/
@[ext] structure MetaEscape where
  toFun : List Char → List Char
  toFun_eq : ∀ t, toFun t = t.flatMap fun c ↦ if c ∈ metaChars then ['\\', c] else [c]

/-- The function that stands for the package's when a draft is run. -/
def MetaEscape.byTable : MetaEscape := ⟨escapeIn metaChars, fun _ ↦ rfl⟩

/-- What is assumed leaves no choice, so what holds with the table holds with the
function of the package. -/
instance : Subsingleton MetaEscape where
  allEq E F := by
    ext1
    funext t
    rw [E.toFun_eq, F.toFun_eq]

def escape (E : MetaEscape) (t : List Char) : List Char := escapeIn ['/'] (E.toFun t)

/-- A second pass adds to the first one when it leaves alone what that writes:
the backslashes and the characters that have one. -/
theorem escapeIn_escapeIn {cs ds : List Char} (hb : '\\' ∉ ds)
    (hd : ∀ c ∈ cs, c ∉ ds) (t : List Char) :
    escapeIn ds (escapeIn cs t) = escapeIn (cs ++ ds) t := by
  unfold escapeIn
  rw [List.flatMap_assoc]
  congr 1
  funext c
  by_cases hc : c ∈ cs
  · have hcd : c ∉ ds := hd c hc
    simp [hc, hcd, hb]
  · by_cases hcd : c ∈ ds <;> simp [hc, hcd]

/-- What the two passes take care of is what is active. -/
theorem activeChars_eq : activeChars = metaChars ++ ['/'] := rfl

variable {E : MetaEscape}

theorem escape_eq_escapeIn (t : List Char) : escape E t = escapeIn activeChars t := by
  rw [escape, E.toFun_eq, activeChars_eq]
  exact escapeIn_escapeIn (by decide) (by simp [metaChars]) t

@[simp] theorem escape_nil : escape E [] = [] := by
  rw [escape_eq_escapeIn]
  rfl

theorem escape_cons (c : Char) (t : List Char) :
    escape E (c :: t) = (if Active c then ['\\', c] else [c]) ++ escape E t := by
  rw [escape_eq_escapeIn, escape_eq_escapeIn]
  rfl

theorem escape_cons_of_active {c : Char} (h : Active c) (t : List Char) :
    escape E (c :: t) = '\\' :: c :: escape E t := by
  simp [escape_cons, h]

theorem escape_cons_of_not_active {c : Char} (h : ¬ Active c) (t : List Char) :
    escape E (c :: t) = c :: escape E t := by
  simp [escape_cons, h]

@[simp] theorem escape_append (s t : List Char) :
    escape E (s ++ t) = escape E s ++ escape E t := by
  simp [escape_eq_escapeIn, escapeIn]

theorem ne_backslash_of_not_active {c : Char} (h : ¬ Active c) : c ≠ '\\' :=
  fun hc ↦ h (hc ▸ active_backslash)

def symbol (c : Char) : Symbol := if Active c then .taken c else .bare c

@[simp] theorem char_symbol (c : Char) : (symbol c).char = c := by
  by_cases h : Active c <;> simp [symbol, h, Symbol.char]

@[simp] theorem ofSymbol_symbol (c : Char) : Token.ofSymbol (symbol c) = .literal c := by
  by_cases h : Active c <;> simp [symbol, h, Token.ofSymbol]

theorem active_of_taken_mem {c : Char} {t : List Char} (h : .taken c ∈ t.map symbol) :
    Active c := by
  obtain ⟨a, -, ha⟩ := List.mem_map.mp h
  by_cases hactive : Active a
  · rw [symbol, if_pos hactive] at ha
    exact Symbol.taken.inj ha ▸ hactive
  · rw [symbol, if_neg hactive] at ha
    exact nomatch ha

theorem not_active_of_bare_mem {c : Char} {t : List Char} (h : .bare c ∈ t.map symbol) :
    ¬ Active c := by
  obtain ⟨a, -, ha⟩ := List.mem_map.mp h
  by_cases hactive : Active a
  · rw [symbol, if_pos hactive] at ha
    exact nomatch ha
  · rw [symbol, if_neg hactive] at ha
    exact Symbol.bare.inj ha ▸ hactive

/-- Escaped text reads to its end, one symbol for each character. -/
theorem symbol_read?_escape (t : List Char) :
    Symbol.read? (escape E t) = some (t.map symbol) := by
  induction t with
  | nil => simp
  | cons c t ih =>
      by_cases h : Active c
      · rw [escape_cons_of_active h, Symbol.read?_backslash, ih]
        simp [symbol, h]
      · have hc : c ≠ '\\' := ne_backslash_of_not_active h
        rw [escape_cons_of_not_active h, Symbol.read?_cons hc, ih]
        simp [symbol, h]

theorem symbol_read?_eq_iff {s t : List Char} :
    Symbol.read? s = some (t.map symbol) ↔ escape E t = s := by
  constructor
  · intro h
    rw [← Symbol.flatMap_chars h, Symbol.flatMap_chars (symbol_read?_escape t)]
  · rintro rfl
    exact symbol_read?_escape t

theorem read?_escape (t : List Char) :
    Token.read? (escape E t) = some (t.map .literal) := by
  rw [Token.read?, symbol_read?_escape, Option.map_some, List.map_map]
  congr 2
  funext c
  exact ofSymbol_symbol c

@[simp] theorem map_char_map_symbol (t : List Char) :
    (t.map symbol).map Symbol.char = t := by
  have hid : Symbol.char ∘ symbol = id := funext char_symbol
  rw [List.map_map, hid, List.map_id]

theorem map_char_read?_escape (t : List Char) :
    (Symbol.read? (escape E t)).map (·.map Symbol.char) = some t := by
  rw [symbol_read?_escape, Option.map_some, map_char_map_symbol]

theorem escape_inj {s t : List Char} : escape E s = escape E t ↔ s = t := by
  constructor
  · intro h
    have hread : some s = some t := by
      rw [← map_char_read?_escape (E := E) s, h, map_char_read?_escape]
    exact Option.some.inj hread
  · exact congrArg (escape E)

end RegexDraft.Literal
