import RegexDraft.Draft

/-!
# Delimited notation

A slash, the pattern, a slash, the flag letters. Two readers find the end of
the pattern. `Delimited.cutFirst` stops at the first slash that no backslash
takes and gives back every pattern that is `Closed` (`cutFirst_append`).
`Delimited.cutLast` stops at the last slash and gives back every pattern, as no
flag letter is a slash (`Draft.cutLast_delimited`).
-/

namespace RegexDraft

namespace Delimited

def write (body flags : String) : String := "/" ++ body ++ "/" ++ flags

/-- Text that reads to its end with no bare slash. -/
def Closed (s : List Char) : Prop := ∃ u ∈ Symbol.read? s, .bare '/' ∉ u

instance (s : List Char) : Decidable (Closed s) :=
  match h : Symbol.read? s with
  | none => isFalse fun ⟨_, hu, _⟩ ↦ by simp [h] at hu
  | some u => decidable_of_iff (.bare '/' ∉ u)
      ⟨fun hu ↦ ⟨u, h, hu⟩, fun ⟨_, hv, hn⟩ ↦ Option.some.inj (h.symm.trans hv) ▸ hn⟩

def cutFirst : List Char → Option (List Char × List Char)
  | [] => none
  | '/' :: r => some ([], r)
  | '\\' :: c :: r => (cutFirst r).map fun p ↦ ('\\' :: c :: p.1, p.2)
  | c :: r => (cutFirst r).map fun p ↦ (c :: p.1, p.2)

/-- Drops the opening slash and cuts what follows at the closing one. -/
def read? : List Char → Option (List Char × List Char)
  | '/' :: r => cutFirst r
  | _ => none

def cutLast : List Char → Option (List Char × List Char)
  | [] => none
  | c :: r =>
    match cutLast r with
    | some p => some (c :: p.1, p.2)
    | none => if c = '/' then some ([], r) else none

theorem cutFirst_cons {c : Char} (hs : c ≠ '/') (hb : c ≠ '\\') (r : List Char) :
    cutFirst (c :: r) = (cutFirst r).map fun p ↦ (c :: p.1, p.2) := by
  cases r <;> simp [cutFirst, hb]

theorem closed_nil : Closed [] := ⟨[], by simp, by simp⟩

theorem Closed.append {s t : List Char} (hs : Closed s) (ht : Closed t) :
    Closed (s ++ t) := by
  obtain ⟨u, hu, hus⟩ := hs
  obtain ⟨v, hv, hvs⟩ := ht
  exact ⟨u ++ v, by simp [Symbol.read?_append hu, Option.mem_def.mp hv],
    by simp [hus, hvs]⟩

theorem closed_of_forall {s : List Char} (h : ∀ c ∈ s, c ≠ '\\' ∧ c ≠ '/') :
    Closed s := by
  have hb : '\\' ∉ s := fun hmem ↦ (h _ hmem).1 rfl
  refine ⟨s.map .bare, Symbol.read?_of_not_mem hb, ?_⟩
  intro hmem
  obtain ⟨c, hc, hslash⟩ := List.mem_map.mp hmem
  exact (h c hc).2 (Symbol.bare.inj hslash)

theorem closed_flatten {ss : List (List Char)} (h : ∀ s ∈ ss, Closed s) :
    Closed ss.flatten := by
  induction ss with
  | nil => exact closed_nil
  | cons s ss ih =>
      rw [List.flatten_cons]
      exact (h s List.mem_cons_self).append (ih fun t ht ↦ h t (List.mem_cons_of_mem s ht))

theorem cutFirst_append {s : List Char} (h : Closed s) (t : List Char) :
    cutFirst (s ++ '/' :: t) = some (s, t) := by
  obtain ⟨u, hu, hn⟩ := h
  rw [Option.mem_def] at hu
  fun_induction Symbol.read? s generalizing u with
  | case1 => simp [cutFirst]
  | case2 => simp at hu
  | case3 c r ih =>
      obtain ⟨v, hv, rfl⟩ := Option.map_eq_some_iff.mp hu
      simp [cutFirst, ih v hv (by simp_all)]
  | case4 c r hc ih =>
      obtain ⟨v, hv, rfl⟩ := Option.map_eq_some_iff.mp hu
      simp only [List.mem_cons, Symbol.bare.injEq, not_or] at hn
      simp [cutFirst_cons (Ne.symm hn.1) hc, ih v hv hn.2]

theorem cutLast_eq_none_iff {s : List Char} : cutLast s = none ↔ '/' ∉ s := by
  induction s with
  | nil => simp [cutLast]
  | cons c r ih =>
      rw [cutLast, List.mem_cons, not_or, ← ih]
      cases cutLast r <;> simp [eq_comm]

theorem cutLast_append (s : List Char) {t : List Char} (h : '/' ∉ t) :
    cutLast (s ++ '/' :: t) = some (s, t) := by
  induction s with
  | nil => simp [cutLast, cutLast_eq_none_iff.mpr h]
  | cons c s ih => simp [cutLast, ih]

/-- The slash that the reader cuts at is there, and it is the last one. -/
theorem cutLast_eq_some_iff {s a b : List Char} :
    cutLast s = some (a, b) ↔ s = a ++ '/' :: b ∧ '/' ∉ b := by
  refine ⟨fun h ↦ ?_, fun ⟨hs, hb⟩ ↦ hs ▸ cutLast_append a hb⟩
  induction s generalizing a with
  | nil => exact nomatch h
  | cons c r ih =>
      rw [cutLast] at h
      cases hr : cutLast r with
      | some p =>
          simp only [hr, Option.some.injEq, Prod.mk.injEq] at h
          obtain ⟨rfl, rfl⟩ := h
          obtain ⟨hwritten, hlast⟩ := ih hr
          exact ⟨congrArg (c :: ·) hwritten, hlast⟩
      | none =>
          simp only [hr, Option.ite_none_right_eq_some, Option.some.injEq,
            Prod.mk.injEq] at h
          obtain ⟨rfl, rfl, rfl⟩ := h
          exact ⟨rfl, cutLast_eq_none_iff.mp hr⟩

end Delimited

namespace Draft

def delimited (d : Draft) : String := Delimited.write d.pattern (toString d.flags)

theorem toList_delimited (d : Draft) :
    d.delimited.toList = '/' :: (d.pattern.toList ++ '/' :: (toString d.flags).toList) := by
  simp [delimited, Delimited.write]

theorem cutLast_delimited (d : Draft) :
    Delimited.cutLast d.delimited.toList =
      some ('/' :: d.pattern.toList, (toString d.flags).toList) := by
  have hflags : '/' ∉ (toString d.flags).toList := by simp
  exact Delimited.cutLast_eq_some_iff.mpr ⟨d.toList_delimited, hflags⟩

/-- Where the pattern ends can be told whatever it holds. -/
theorem delimited_inj {d e : Draft} :
    d.delimited = e.delimited ↔ d.pattern = e.pattern ∧ d.flags = e.flags := by
  constructor
  · intro h
    have hcut := congrArg (fun s ↦ Delimited.cutLast s.toList) h
    simp only [cutLast_delimited, Option.some.injEq, Prod.mk.injEq, List.cons.injEq,
      true_and, String.toList_inj] at hcut
    exact ⟨hcut.1, Flags.toString_inj.mp hcut.2⟩
  · rintro ⟨hpattern, hflags⟩
    rw [delimited, delimited, hpattern, hflags]

end Draft

end RegexDraft
