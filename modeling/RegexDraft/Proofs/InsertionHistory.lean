import Mathlib.Data.Finset.Card
import RegexDraft.Flags

/-!
# A set after a history of insertions

The answers of the insertions, the flags in the set and their number all follow
from the list of the flags that were inserted, however long it is. An insertion
is answered by whether its flag comes for the first time, and the set keeps the
first times. As there are five flags, it never keeps more than that.
-/

namespace RegexDraft

namespace Flags

/-- What the insertions of flags one after another answer. -/
def answers (s : Flags) : List Flag → List Bool
  | [] => []
  | f :: fs => (s.insertNew f).1 :: (s.insertNew f).2.answers fs

@[simp] theorem answers_nil (s : Flags) : s.answers [] = [] := rfl

@[simp] theorem answers_cons (s : Flags) (f : Flag) (fs : List Flag) :
    s.answers (f :: fs) = (!s.contains f) :: (s.insert f).answers fs := by
  rw [answers, insertNew_fst, insertNew_snd]

/-- The set before all insertions and the flags inserted since answer for each
of them. -/
theorem getElem?_answers (s : Flags) (fs : List Flag) (i : Nat) :
    (s.answers fs)[i]? = fs[i]?.map fun f ↦ decide (f ∉ s ∧ f ∉ fs.take i) := by
  -- The set varies: for the later insertions a flag is in it and not in the list.
  induction fs generalizing s i with
  | nil => rfl
  | cons f fs ih =>
      cases i with
      | zero => simp [contains]
      | succ i =>
          rw [answers_cons, List.getElem?_cons_succ, List.getElem?_cons_succ, ih]
          simp [and_assoc]

theorem getElem?_answers_empty (fs : List Flag) (i : Nat) :
    (answers ∅ fs)[i]? = fs[i]?.map fun f ↦ decide (f ∉ fs.take i) := by
  simp [getElem?_answers]

theorem ofList_take_succ {fs : List Flag} {i : Nat} {f : Flag} (h : fs[i]? = some f) :
    ofList (fs.take (i + 1)) = (ofList (fs.take i)).insert f := by
  rw [List.take_add_one, h, ofList, insertMany_append]
  rfl

/-- The set stays as it is in an insertion that does not answer `true`. -/
theorem ofList_take_succ_eq_iff {fs : List Flag} {i : Nat} :
    ofList (fs.take (i + 1)) = ofList (fs.take i) ↔ (answers ∅ fs)[i]? ≠ some true := by
  rw [getElem?_answers_empty]
  cases h : fs[i]? with
  | none => simp [List.take_add_one, h]
  | some f => simp [ofList_take_succ h, insert_eq_self_iff]

theorem size_insertMany (s : Flags) (fs : List Flag) :
    (s.insertMany fs).size = s.size + (s.answers fs).count true := by
  induction fs generalizing s with
  | nil => rfl
  | cons f fs ih =>
      rw [insertMany_cons, ih, size_insert, answers_cons, List.count_cons]
      cases s.contains f with
      | true => rfl
      | false =>
          change s.size + 1 + _ = s.size + (_ + 1)
          omega

theorem size_ofList_eq_count (fs : List Flag) :
    (ofList fs).size = (answers ∅ fs).count true := by
  rw [ofList, size_insertMany]
  exact Nat.zero_add _

theorem size_ofList_eq_card (fs : List Flag) : (ofList fs).size = fs.toFinset.card := by
  have hflags : (ofList fs).toList.toFinset = fs.toFinset := by
    ext f
    simp
  rw [← hflags, List.toFinset_card_of_nodup (ofList fs).nodup]
  rfl

theorem size_le_five (s : Flags) : s.size ≤ 5 := by
  have hall : s.toList.Subperm Flag.all := s.nodup.subperm fun f _ ↦ f.mem_all
  exact hall.length_le

theorem isEmpty_ofList_iff {fs : List Flag} : (ofList fs).isEmpty = true ↔ fs = [] := by
  rw [isEmpty, List.isEmpty_iff, List.eq_nil_iff_forall_not_mem,
    List.eq_nil_iff_forall_not_mem]
  simp

/-- An insertion answers `true` exactly when its flag was not inserted before,
and in no other insertion the set changes. In the end the set holds the flags in
the order of their first insertion, each once, and shows their letters in this
order. It holds as many as there were answers `true`, which is how many different
flags were inserted, and it is empty only if none was. -/
theorem ofList_eq_first_insertions (fs : List Flag) :
    (∀ i : Nat, (answers ∅ fs)[i]? = fs[i]?.map fun f ↦ decide (f ∉ fs.take i)) ∧
    (∀ i : Nat, ofList (fs.take (i + 1)) = ofList (fs.take i) ↔
      (answers ∅ fs)[i]? ≠ some true) ∧
    (ofList fs).toList = fs.eraseDups ∧ (ofList fs).toList.Nodup ∧
    (∀ f, (ofList fs).contains f = true ↔ f ∈ fs) ∧
    (ofList fs).size = (answers ∅ fs).count true ∧
    (ofList fs).size = fs.toFinset.card ∧ (ofList fs).size ≤ 5 ∧
    ((ofList fs).isEmpty = true ↔ fs = []) ∧
    (toString (ofList fs)).toList = fs.eraseDups.map Flag.letter := by
  refine ⟨getElem?_answers_empty fs, fun _ ↦ ofList_take_succ_eq_iff, toList_ofList fs,
    (ofList fs).nodup, fun f ↦ ?_, size_ofList_eq_count fs, size_ofList_eq_card fs,
    size_le_five _, isEmpty_ofList_iff, ?_⟩
  · rw [contains_iff, mem_ofList]
  · rw [toList_toString, toList_ofList]

example : answers ∅ [.multiline, .global, .multiline, .sticky, .global] =
    [true, true, false, true, false] := by
  decide

end Flags

end RegexDraft
