import RegexDraft.Draft.History
import RegexDraft.Text.Nesting

/-!
# Groups in a draft and in its pattern

A scan of the pattern, character by character, ends where a count of the group
pieces alone puts it. Every other piece writes balanced text, as long as the
text that goes into it as it is keeps to itself, and what a bound writes has no
part in nesting. So the pattern is balanced exactly when the group pieces are.
-/

namespace RegexDraft

namespace Piece

/-- What a scan of the piece's text goes through. -/
def nesting : Piece → Nesting
  | opening _ => ⟨1, 0, false⟩
  | closing => ⟨-1, -1, false⟩
  | _ => {}

/-- The text that goes into the piece as it is keeps its groups and classes to
itself. -/
def KeepsNesting : Piece → Prop
  | raw text => Nesting.Balanced text.toList
  | lookaround _ pattern => Nesting.Balanced pattern.toList
  | charClass (.noneOf chars) => '\\' ∉ chars.toList ∧ ']' ∉ chars.toList
  | charClass (.unicodeLetter variant) => Nesting.Flat variant.toList
  | opening (.named name) => Nesting.Flat name.toList
  | _ => True

end Piece

namespace Step

def nesting (x : Step) : Nesting := x.piece?.elim {} Piece.nesting

def isOpening : Step → Bool
  | add (.opening _) => true
  | _ => false

def isClosing : Step → Bool
  | add .closing => true
  | _ => false

def openings (xs : List Step) : Nat := xs.countP isOpening

def closings (xs : List Step) : Nat := xs.countP isClosing

/-- At no point have more groups been closed than opened. -/
def NeverBelow (xs : List Step) : Prop := ∀ ys, ys <+: xs → closings ys ≤ openings ys

@[simp] theorem openings_concat (xs : List Step) (x : Step) :
    openings (xs ++ [x]) = openings xs + x.isOpening.toNat := by
  cases h : x.isOpening <;> simp [openings, h]

@[simp] theorem closings_concat (xs : List Step) (x : Step) :
    closings (xs ++ [x]) = closings xs + x.isClosing.toNat := by
  cases h : x.isClosing <;> simp [closings, h]

theorem neverBelow_nil : NeverBelow [] := by
  intro ys hys
  rw [List.prefix_nil.mp hys]
  exact Nat.le_refl _

theorem NeverBelow.closings_le {xs : List Step} (h : NeverBelow xs) :
    closings xs ≤ openings xs :=
  h xs (List.prefix_refl xs)

theorem neverBelow_concat {xs : List Step} {x : Step} :
    NeverBelow (xs ++ [x]) ↔
      NeverBelow xs ∧ closings (xs ++ [x]) ≤ openings (xs ++ [x]) := by
  constructor
  · intro h
    exact ⟨fun ys hys ↦ h ys (hys.trans (List.prefix_append xs [x])), h.closings_le⟩
  · rintro ⟨hxs, hx⟩ ys hys
    rcases List.prefix_concat_iff.mp hys with rfl | hys
    · exact hx
    · exact hxs ys hys

theorem nesting_cases (x : Step) :
    (x.isOpening = true ∧ x.isClosing = false ∧ x.nesting = ⟨1, 0, false⟩) ∨
    (x.isOpening = false ∧ x.isClosing = true ∧ x.nesting = ⟨-1, -1, false⟩) ∨
    (x.isOpening = false ∧ x.isClosing = false ∧ x.nesting = {}) := by
  cases x with
  | add p =>
      cases p with
      | opening o => exact .inl ⟨rfl, rfl, rfl⟩
      | closing => exact .inr (.inl ⟨rfl, rfl, rfl⟩)
      | _ => exact .inr (.inr ⟨rfl, rfl, rfl⟩)
  | boundDigits n => exact .inr (.inr ⟨rfl, rfl, rfl⟩)
  | activate f => exact .inr (.inr ⟨rfl, rfl, rfl⟩)

end Step

namespace Nesting

open Step

theorem balanced_escape (E : Literal.MetaEscape) (t : List Char) :
    Balanced (Literal.escape E t) := by
  have hscan : scan {} (t.map Literal.symbol) = {} := by
    apply scan_eq_self
    intro a ha
    cases a with
    | taken c => rfl
    | bare c =>
        have hbracket : ∀ m ∈ ['[', '(', ')'], Active m := by
          simp [Active, activeChars]
        exact step_bare_of_outside rfl fun hm ↦
          Literal.not_active_of_bare_mem ha (hbracket c hm)
  rw [Balanced, ofText?, Literal.symbol_read?_escape, Option.map_some, hscan]

theorem balanced_quantifier (q : Quantifier) : Balanced q.text.toList := by
  apply Flat.balanced
  intro c hc
  have hmarks : ∀ m ∈ Quantifier.marks, m ∉ ['\\', '(', ')', '[', ']'] := by
    simp [Quantifier.marks]
  have hbrackets : ∀ m ∈ ['\\', '(', ')', '[', ']'], m.isDigit = false := by simp
  rcases Quantifier.mem_toList_text hc with hmark | hdigit
  · exact hmarks c hmark
  · intro hmem
    exact absurd hdigit (by simp [hbrackets c hmem])

/-- Inside a class nothing counts before the bracket that closes it. -/
theorem balanced_noneOf {chars : String} (hb : '\\' ∉ chars.toList)
    (hc : ']' ∉ chars.toList) : Balanced (CharClass.noneOf chars).text.toList := by
  have hread : '\\' ∉ '[' :: '^' :: (chars.toList ++ [']']) := by
    simp [hb]
  have hinside : scan ⟨0, 0, true⟩ (chars.toList.map .bare) = ⟨0, 0, true⟩ := by
    apply scan_eq_self
    intro a ha
    obtain ⟨c, hmem, rfl⟩ := List.mem_map.mp ha
    exact step_bare_of_inClass rfl fun h ↦ hc (h ▸ hmem)
  rw [CharClass.toList_text_noneOf, Balanced, ofText?, Symbol.read?_of_not_mem hread,
    Option.map_some]
  congr 1
  calc
    scan {} (('[' :: '^' :: (chars.toList ++ [']'])).map .bare) =
        (scan ⟨0, 0, true⟩ (chars.toList.map .bare)).scan [.bare ']'] := by
      simp [step]
    _ = {} := by
      rw [hinside]
      rfl

theorem balanced_charClass {c : CharClass} (h : (Piece.charClass c).KeepsNesting) :
    Balanced c.text.toList := by
  cases c with
  | noneOf chars => exact balanced_noneOf h.1 h.2
  | unicodeLetter variant =>
      have hfront : Balanced "\\p\x7bL".toList := by decide +kernel
      have hback : Balanced "\x7d".toList := by decide +kernel
      have htext : (CharClass.unicodeLetter variant).text.toList =
          "\\p\x7bL".toList ++ variant.toList ++ "\x7d".toList := by
        simp [CharClass.text, CharClass.category]
      rw [htext]
      exact (hfront.append (Flat.balanced h)).append hback
  | digit | word | whitespace | nonWhitespace | letter | any | unicodeNumber
  | unicodePunctuation | unicodeSymbol => decide +kernel

theorem ofText?_opening {o : Opening} (h : (Piece.opening o).KeepsNesting) :
    ofText? o.text.toList = some ⟨1, 0, false⟩ := by
  cases o with
  | plain | capturing => decide +kernel
  | named name =>
      have hfront : ofText? "(?<".toList = some ⟨1, 0, false⟩ := by decide +kernel
      have hname : Balanced name.toList := Flat.balanced h
      have hback : Balanced ">".toList := by decide +kernel
      have htext : (Opening.named name).text.toList =
          "(?<".toList ++ (name.toList ++ ">".toList) := by
        simp [Opening.text]
      rw [htext]
      exact atRest_open.ofText?_append hfront (hname.append hback)

theorem balanced_lookaround (kind : Lookaround) {pattern : String}
    (h : Balanced pattern.toList) : Balanced (kind.text pattern).toList := by
  have hfront : ofText? ("(" ++ kind.mark).toList = some ⟨1, 0, false⟩ := by
    cases kind <;> decide +kernel
  have hback : ofText? ")".toList = some ⟨-1, -1, false⟩ := by decide +kernel
  have hopen : ofText? (("(" ++ kind.mark).toList ++ pattern.toList) =
      some ⟨1, 0, false⟩ :=
    atRest_open.ofText?_append hfront h
  have hclose := atRest_open.ofText?_append hopen hback
  rwa [← String.toList_append, ← String.toList_append] at hclose

theorem ofText?_text {p : Piece} (h : p.KeepsNesting) :
    ofText? p.text.toList = some p.nesting := by
  cases p with
  | raw s => exact h
  | literal t =>
      rw [Piece.toList_text_literal]
      exact balanced_escape .byTable t.toList
  | charClass c => exact balanced_charClass h
  | quantifier q => exact balanced_quantifier q
  | opening o => exact ofText?_opening h
  | closing => decide +kernel
  | lookaround kind pattern => exact balanced_lookaround kind h
  | boundary b => cases b <;> decide +kernel
  | requirement r => cases r <;> decide +kernel
  | addressPart a => cases a <;> decide +kernel

/-- A scan stands where the group pieces that the steps add put it. -/
structure Follows (e : Nesting) (xs : List Step) : Prop where
  atRest : e.AtRest
  depth_eq : e.depth = openings xs - closings xs
  low_nonpos : e.low ≤ 0
  low_eq_zero_iff : e.low = 0 ↔ NeverBelow xs

theorem follows_nil : Follows {} [] :=
  ⟨atRest_empty, rfl, Int.le_refl 0, fun _ ↦ neverBelow_nil, fun _ ↦ rfl⟩

theorem Follows.concat {e : Nesting} {xs : List Step} (h : e.Follows xs) (x : Step) :
    (e.after x.nesting).Follows (xs ++ [x]) := by
  obtain ⟨⟨_, hle⟩, hdepth, hlow, hiff⟩ := h
  have hend : e.low = 0 → closings xs ≤ openings xs := fun h0 ↦ (hiff.mp h0).closings_le
  have hnever : NeverBelow (xs ++ [x]) ↔
      e.low = 0 ∧ closings (xs ++ [x]) ≤ openings (xs ++ [x]) := by
    rw [neverBelow_concat, hiff]
  rw [openings_concat, closings_concat] at hnever
  -- The three kinds of steps move the same numbers, each by its own amounts.
  rcases nesting_cases x with ⟨ho, hc, hn⟩ | ⟨ho, hc, hn⟩ | ⟨ho, hc, hn⟩
  all_goals
    simp only [ho, hc, Bool.toNat_true, Bool.toNat_false] at hnever
    rw [hn]
    refine ⟨⟨rfl, ?_⟩, ?_, ?_, ?_⟩
    · simp only [after]
      omega
    · simp only [after, openings_concat, closings_concat, ho, hc, Bool.toNat_true,
        Bool.toNat_false]
      omega
    · simp only [after]
      omega
    · rw [hnever]
      simp only [after]
      omega

theorem balanced_boundText (d : Draft) (n : Int) : Balanced (d.boundText n).toList := by
  unfold Draft.boundText
  split
  · exact balanced_quantifier (.upTo n)
  · decide +kernel

theorem ofText?_apply {d : Draft} {e : Nesting} (hd : ofText? d.pattern.toList = some e)
    (he : e.AtRest) {x : Step} (hx : ∀ p ∈ x.piece?, p.KeepsNesting) :
    ofText? (d.apply x).pattern.toList = some (e.after x.nesting) := by
  cases x with
  | add p =>
      have hp : ofText? p.text.toList = some p.nesting := ofText?_text (hx p rfl)
      rw [Draft.apply, Draft.pattern_add, String.toList_append]
      exact he.ofText?_append hd hp
  | boundDigits n =>
      rw [Draft.apply, Draft.pattern_boundDigits, String.toList_append]
      exact he.ofText?_append hd (balanced_boundText d n)
  | activate f =>
      have hrest : e.after (Step.activate f).nesting = e := he.after_empty
      rw [Draft.apply, Draft.pattern_activate, hrest, hd]

/-- The scan of the pattern and the count of the group pieces go together along
a run, whatever was done before it. -/
theorem follows_run {d : Draft} {e : Nesting} {done : List Step}
    (hd : ofText? d.pattern.toList = some e) (he : e.Follows done) {xs : List Step}
    (hxs : ∀ x ∈ xs, ∀ p ∈ x.piece?, p.KeepsNesting) :
    ∃ e', ofText? (d.run xs).pattern.toList = some e' ∧ e'.Follows (done ++ xs) := by
  -- The steps done so far vary, as closings are weighed against all of them.
  induction xs generalizing d e done with
  | nil => exact ⟨e, hd, by simpa using he⟩
  | cons x xs ih =>
      have hx := ofText?_apply hd he.atRest (hxs x List.mem_cons_self)
      obtain ⟨e', hrun, hfollows⟩ := ih hx (he.concat x)
        fun y hy ↦ hxs y (List.mem_cons_of_mem x hy)
      exact ⟨e', hrun, by simpa using hfollows⟩

/-- The pattern is as deep at its end as there are more openings than closings
among the steps, and it is balanced exactly when the group pieces are. -/
theorem balanced_pattern_ofSteps_iff (xs : List Step)
    (h : ∀ x ∈ xs, ∀ p ∈ x.piece?, p.KeepsNesting) :
    (∃ e, ofText? (Draft.ofSteps xs).pattern.toList = some e ∧ e.inClass = false ∧
      e.depth = (openings xs : Int) - closings xs) ∧
    (Balanced (Draft.ofSteps xs).pattern.toList ↔
      (∀ ys, ys <+: xs → closings ys ≤ openings ys) ∧ openings xs = closings xs) := by
  have hempty : ofText? (∅ : Draft).pattern.toList = some {} := by decide +kernel
  obtain ⟨e, he, hfollows⟩ := follows_run hempty follows_nil h
  have hdepth : e.depth = (openings xs : Int) - closings xs := hfollows.depth_eq
  refine ⟨⟨e, he, hfollows.atRest.outside, hdepth⟩, ?_⟩
  have hlow : e.low = 0 ↔ NeverBelow xs := hfollows.low_eq_zero_iff
  have hbalanced : Balanced (Draft.ofSteps xs).pattern.toList ↔ e = {} := by
    rw [Balanced, Draft.ofSteps, he, Option.some.injEq]
  rw [hbalanced]
  constructor
  · rintro rfl
    change (0 : Int) = openings xs - closings xs at hdepth
    exact ⟨hlow.mp rfl, by omega⟩
  · rintro ⟨hnever, hsame⟩
    have hzero : e.depth = 0 := by omega
    have hlowest : e.low = 0 := hlow.mpr hnever
    exact Nesting.ext hzero hlowest hfollows.atRest.outside

/-- A group around a literal that looks like two other groups, and parentheses in
a class. -/
def bracketSteps : List Step :=
  [.add (.opening (.named "n")), .add (.literal ")("), .add .closing,
    .add (.lookaround .ahead "(a)[(]"), .add (.charClass (.noneOf "([)"))]

theorem balanced_pattern_ofSteps_iff_brackets :
    (∀ x ∈ bracketSteps, ∀ p ∈ x.piece?, p.KeepsNesting) ∧
      (∃ e, ofText? (Draft.ofSteps bracketSteps).pattern.toList = some e ∧
        e.inClass = false ∧ e.depth = 0) ∧
      openings bracketSteps = closings bracketSteps := by
  have h : ∀ x ∈ bracketSteps, ∀ p ∈ x.piece?, p.KeepsNesting := by
    simp only [bracketSteps, List.forall_mem_cons, List.not_mem_nil, false_imp_iff,
      implies_true, piece?, Piece.KeepsNesting, Option.mem_def, Option.some.injEq,
      forall_eq']
    decide +kernel
  obtain ⟨⟨e, he, houtside, hdepth⟩, hiff⟩ := balanced_pattern_ofSteps_iff _ h
  exact ⟨h, ⟨e, he, houtside, hdepth⟩, (hiff.mp (by decide +kernel)).2⟩

end Nesting

end RegexDraft
