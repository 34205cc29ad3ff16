import RegexDraft.Flag

/-!
# Sets of flags in order of activation

A set keeps its flags in the order in which they were first inserted. Inserting
a flag that is present changes nothing, so no flag occurs twice. Two sets are
equal when they hold the same flags in the same order, and then they are written
the same (`Flags.toString_inj`).
-/

namespace RegexDraft

@[ext] structure Flags where
  toList : List Flag := []
  nodup : toList.Nodup := by simp
  deriving DecidableEq

namespace Flags

instance : EmptyCollection Flags := ⟨{}⟩

instance : Inhabited Flags := ⟨∅⟩

instance : Membership Flag Flags := ⟨fun s f ↦ f ∈ s.toList⟩

instance (f : Flag) (s : Flags) : Decidable (f ∈ s) :=
  inferInstanceAs (Decidable (f ∈ s.toList))

theorem nodup_concat (s : Flags) {f : Flag} (h : f ∉ s) :
    (s.toList ++ [f]).Nodup :=
  List.nodup_append.mpr ⟨s.nodup, by simp, fun _ ha _ hb hab ↦
    h (List.mem_singleton.mp hb ▸ hab ▸ ha)⟩

def contains (s : Flags) (f : Flag) : Bool := decide (f ∈ s)

def size (s : Flags) : Nat := s.toList.length

def isEmpty (s : Flags) : Bool := s.toList.isEmpty

/-- Inserts a flag at the end unless it is present, and says whether it was
new. -/
def insertNew (s : Flags) (f : Flag) : Bool × Flags :=
  if h : f ∈ s then (false, s) else (true, ⟨s.toList ++ [f], s.nodup_concat h⟩)

def insert (s : Flags) (f : Flag) : Flags := (s.insertNew f).2

def insertMany (s : Flags) (fs : List Flag) : Flags := fs.foldl insert s

def ofList (fs : List Flag) : Flags := insertMany ∅ fs

instance : ToString Flags := ⟨fun s ↦ String.ofList (s.toList.map Flag.letter)⟩

@[simp] theorem toList_empty : (∅ : Flags).toList = [] := rfl

@[simp] theorem mem_toList {s : Flags} {f : Flag} : f ∈ s.toList ↔ f ∈ s := Iff.rfl

@[simp] theorem not_mem_empty (f : Flag) : f ∉ (∅ : Flags) := List.not_mem_nil

theorem contains_iff {s : Flags} {f : Flag} : s.contains f = true ↔ f ∈ s :=
  decide_eq_true_iff

theorem toList_inj {s t : Flags} : s.toList = t.toList ↔ s = t :=
  ⟨Flags.ext, congrArg toList⟩

theorem insertNew_of_mem {s : Flags} {f : Flag} (h : f ∈ s) :
    s.insertNew f = (false, s) :=
  dif_pos h

@[simp] theorem insertNew_fst (s : Flags) (f : Flag) :
    (s.insertNew f).1 = !s.contains f := by
  by_cases h : f ∈ s <;> simp [insertNew, contains, h]

@[simp] theorem insertNew_snd (s : Flags) (f : Flag) : (s.insertNew f).2 = s.insert f := rfl

theorem insert_of_mem {s : Flags} {f : Flag} (h : f ∈ s) : s.insert f = s := by
  rw [insert, insertNew_of_mem h]

theorem toList_insert_of_not_mem {s : Flags} {f : Flag} (h : f ∉ s) :
    (s.insert f).toList = s.toList ++ [f] := by
  simp [insert, insertNew, h]

@[simp] theorem mem_insert {s : Flags} {f g : Flag} :
    g ∈ s.insert f ↔ g ∈ s ∨ g = f := by
  by_cases h : f ∈ s
  · rw [insert_of_mem h]
    exact ⟨.inl, fun | .inl hg => hg | .inr hg => hg ▸ h⟩
  · rw [← mem_toList, toList_insert_of_not_mem h]
    simp

theorem insert_eq_self_iff {s : Flags} {f : Flag} : s.insert f = s ↔ f ∈ s := by
  refine ⟨fun h ↦ ?_, insert_of_mem⟩
  rw [← h]
  exact mem_insert.mpr (.inr rfl)

theorem size_insert (s : Flags) (f : Flag) :
    (s.insert f).size = s.size + (!s.contains f).toNat := by
  by_cases h : f ∈ s
  · simp [insert_of_mem h, contains, h]
  · simp [size, toList_insert_of_not_mem h, contains, h]

@[simp] theorem insertMany_nil (s : Flags) : s.insertMany [] = s := rfl

@[simp] theorem insertMany_cons (s : Flags) (f : Flag) (fs : List Flag) :
    s.insertMany (f :: fs) = (s.insert f).insertMany fs := rfl

theorem insertMany_append (s : Flags) (fs gs : List Flag) :
    s.insertMany (fs ++ gs) = (s.insertMany fs).insertMany gs :=
  List.foldl_append

@[simp] theorem mem_insertMany {s : Flags} {fs : List Flag} {g : Flag} :
    g ∈ s.insertMany fs ↔ g ∈ s ∨ g ∈ fs := by
  induction fs generalizing s with
  | nil => simp
  | cons f fs ih => rw [insertMany_cons, ih, mem_insert, List.mem_cons, or_assoc]

@[simp] theorem mem_ofList {fs : List Flag} {f : Flag} : f ∈ ofList fs ↔ f ∈ fs := by
  simp [ofList]

/-- The flags that are not yet in the set follow those that are, each once and
in the order of their first insertion. -/
theorem toList_insertMany (s : Flags) (fs : List Flag) :
    (s.insertMany fs).toList = s.toList ++ (fs.filter (· ∉ s)).eraseDups := by
  induction fs generalizing s with
  | nil => simp
  | cons f fs ih =>
      rw [insertMany_cons, ih]
      by_cases h : f ∈ s
      · simp [insert_of_mem h, h]
      · simp [toList_insert_of_not_mem h, h, List.eraseDups_cons, Bool.and_comm,
          Bool.beq_eq_decide_eq]

theorem toList_ofList (fs : List Flag) : (ofList fs).toList = fs.eraseDups := by
  rw [ofList, toList_insertMany, List.filter_eq_self.mpr fun f _ ↦ by simp]
  rfl

theorem toList_insertMany_of_nodup (s : Flags) {fs : List Flag} (h : fs.Nodup) :
    (s.insertMany fs).toList = s.toList ++ fs.filter (· ∉ s) := by
  induction fs generalizing s with
  | nil => simp
  | cons f fs ih =>
      obtain ⟨hf, hfs⟩ := List.nodup_cons.mp h
      rw [insertMany_cons, ih _ hfs]
      by_cases hs : f ∈ s
      · simp [insert_of_mem hs, hs]
      · -- As `f` does not come again, its being there now filters nothing out.
        have hrest : fs.filter (· ∉ s.insert f) = fs.filter (· ∉ s) := by
          apply List.filter_congr
          intro g hg
          have hne : g ≠ f := fun hgf ↦ hf (hgf ▸ hg)
          simp [hne]
        rw [hrest, toList_insert_of_not_mem hs, List.filter_cons_of_pos (by simpa using hs),
          List.append_assoc, List.singleton_append]

@[simp] theorem ofList_toList (s : Flags) : ofList s.toList = s := by
  apply toList_inj.mp
  rw [ofList, toList_insertMany_of_nodup ∅ s.nodup]
  simp

theorem ofList_of_nodup {fs : List Flag} (h : fs.Nodup) : ofList fs = ⟨fs, h⟩ :=
  ofList_toList ⟨fs, h⟩

theorem insertMany_insert (s t : Flags) (f : Flag) :
    s.insertMany (t.insert f).toList = (s.insertMany t.toList).insert f := by
  by_cases h : f ∈ t
  · have hmem : f ∈ s.insertMany t.toList := mem_insertMany.mpr (.inr h)
    rw [insert_of_mem h, insert_of_mem hmem]
  · rw [toList_insert_of_not_mem h, insertMany_append]
    rfl

/-- Inserting flags after the flags of a set does the same as inserting what
comes of inserting them into the set. -/
theorem insertMany_insertMany (s t : Flags) (fs : List Flag) :
    s.insertMany (t.insertMany fs).toList = (s.insertMany t.toList).insertMany fs := by
  induction fs generalizing t with
  | nil => rfl
  | cons f fs ih => rw [insertMany_cons, ih, insertMany_insert, insertMany_cons]

theorem insertMany_ofList (s : Flags) (fs : List Flag) :
    s.insertMany (ofList fs).toList = s.insertMany fs :=
  insertMany_insertMany s ∅ fs

@[simp] theorem toList_toString (s : Flags) :
    (toString s).toList = s.toList.map Flag.letter :=
  String.toList_ofList

theorem mapM_ofLetter?_toString (s : Flags) :
    (toString s).toList.mapM Flag.ofLetter? = some s.toList := by
  rw [toList_toString, Flag.mapM_ofLetter?_map_letter]

theorem toString_inj {s t : Flags} : toString s = toString t ↔ s = t := by
  constructor
  · intro h
    have hread : some s.toList = some t.toList := by
      rw [← mapM_ofLetter?_toString, ← mapM_ofLetter?_toString, h]
    exact toList_inj.mp (Option.some.inj hread)
  · exact congrArg toString

end Flags

end RegexDraft
