/-!
# Symbols of pattern text

Pattern text is read left to right and a backslash takes the character after
it. Each step of this reading is a `Symbol`. Reading fails only when the last
backslash has nothing to take (`Symbol.read?_eq_none_iff`), it loses nothing
(`Symbol.flatMap_chars`), and after text that reads to its end it starts afresh
(`Symbol.read?_append`).
-/

namespace RegexDraft

inductive Symbol where
  | bare (c : Char)
  /-- The character `c` together with the backslash that takes it. -/
  | taken (c : Char)
  deriving DecidableEq, Repr

namespace Symbol

def chars : Symbol → List Char
  | bare c => [c]
  | taken c => ['\\', c]

/-- Drops the backslash. -/
def char : Symbol → Char
  | bare c => c
  | taken c => c

def read? : List Char → Option (List Symbol)
  | [] => some []
  | c :: r =>
    if c = '\\' then
      match r with
      | [] => none
      | d :: r => (read? r).map (taken d :: ·)
    else (read? r).map (bare c :: ·)

@[simp] theorem read?_nil : read? [] = some [] := by simp [read?]

@[simp] theorem read?_lone_backslash : read? ['\\'] = none := by simp [read?]

@[simp] theorem read?_backslash (c : Char) (r : List Char) :
    read? ('\\' :: c :: r) = (read? r).map (taken c :: ·) := by
  simp [read?]

theorem read?_cons {c : Char} (h : c ≠ '\\') (r : List Char) :
    read? (c :: r) = (read? r).map (bare c :: ·) := by
  cases r <;> simp [read?, h]

theorem read?_of_not_mem {s : List Char} (h : '\\' ∉ s) :
    read? s = some (s.map bare) := by
  induction s with
  | nil => simp
  | cons c r ih =>
      obtain ⟨hc, hr⟩ := List.ne_and_not_mem_of_not_mem_cons h
      rw [read?_cons hc.symm, ih hr]
      rfl

/-- Text that reads to its end leaves the reading of what follows alone. -/
theorem read?_append {s : List Char} {u : List Symbol} (h : read? s = some u)
    (t : List Char) : read? (s ++ t) = (read? t).map (u ++ ·) := by
  fun_induction read? s generalizing u with
  | case1 => simp_all
  | case2 => simp at h
  | case3 c r ih =>
      obtain ⟨v, hv, rfl⟩ := Option.map_eq_some_iff.mp h
      simp [ih hv, Function.comp_def]
  | case4 c r hc ih =>
      obtain ⟨v, hv, rfl⟩ := Option.map_eq_some_iff.mp h
      simp [read?_cons hc, ih hv, Function.comp_def]

/-- Reading fails at a last backslash with nothing to take and nowhere else. -/
theorem read?_eq_none_iff {s : List Char} :
    read? s = none ↔ ∃ t u, read? t = some u ∧ s = t ++ ['\\'] := by
  constructor
  · intro h
    fun_induction read? s with
    | case1 => simp at h
    | case2 => exact ⟨[], [], read?_nil, rfl⟩
    | case3 c r ih =>
        obtain ⟨t, u, hu, rfl⟩ := ih (Option.map_eq_none_iff.mp h)
        exact ⟨'\\' :: c :: t, .taken c :: u, by simp [hu], rfl⟩
    | case4 c r hc ih =>
        obtain ⟨t, u, hu, rfl⟩ := ih (Option.map_eq_none_iff.mp h)
        exact ⟨c :: t, .bare c :: u, by simp [read?_cons hc, hu], rfl⟩
  · rintro ⟨t, u, hu, rfl⟩
    simp [read?_append hu]

theorem flatMap_chars {s : List Char} {u : List Symbol} (h : read? s = some u) :
    u.flatMap chars = s := by
  fun_induction read? s generalizing u with
  | case1 => simp_all
  | case2 => simp at h
  | case3 c r ih =>
      obtain ⟨v, hv, rfl⟩ := Option.map_eq_some_iff.mp h
      simp [chars, ih hv]
  | case4 c r hc ih =>
      obtain ⟨v, hv, rfl⟩ := Option.map_eq_some_iff.mp h
      simp [chars, ih hv]

end Symbol

end RegexDraft
