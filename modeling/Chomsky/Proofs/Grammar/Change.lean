import Chomsky.Grammar.Change

/-!
# Changes of a grammar

When a change is made and what it does, and when it is refused. A refused change leaves nothing behind,
although a terminal and the entry of a head are put in place before they are asked for.

* **`apply_of_error`**: a change that is refused leaves the grammar as it was.
-/

namespace Chomsky

namespace Grammar

variable {g g' : Grammar} {c : Char} {e : GrammarError}

/-! ## The changes that are made -/

theorem isNonterminal_iff : g.isNonterminal c = true ↔ c ∈ g.nonterminals := decide_eq_true_iff

theorem isTerminal_iff : g.isTerminal c = true ↔ c ∈ g.terminals := decide_eq_true_iff

theorem declareNonterminal_eq_ok_iff : g.declareNonterminal c = (.ok (), g') ↔
    isUpper c = true ∧ c ∉ g.nonterminals ∧ g' = { g with nonterminals := g.nonterminals ++ [c] } := by
  rw [declareNonterminal, ← isNonterminal_iff]
  by_cases hu : isUpper c = true <;> by_cases hd : g.isNonterminal c = true <;>
    simp [hu, hd, eq_comm]

theorem declareTerminal_eq_ok_iff : g.declareTerminal c = (.ok (), g') ↔
    isLower c = true ∧ c ∉ g.terminals ∧ g' = { g with terminals := g.terminals.insert c } := by
  rw [declareTerminal, ← isTerminal_iff]
  by_cases hl : isLower c = true <;> by_cases hd : g.isTerminal c = true <;>
    simp [hl, hd, eq_comm]

theorem setStart_eq_ok_iff : g.setStart c = (.ok (), g') ↔
    c ∈ g.nonterminals ∧ g' = { g with start := some c } := by
  rw [setStart, ← isNonterminal_iff]
  by_cases hd : g.isNonterminal c = true <;> simp [hd, eq_comm]

/-- Every symbol of the alternative is declared for the place it stands in. -/
def Declares (g : Grammar) : Alternative → Prop
  | .binary left right => left ∈ g.nonterminals ∧ right ∈ g.nonterminals
  | .unary terminal => terminal ∈ g.terminals

theorem undeclared?_eq_none_iff {a : Alternative} : g.undeclared? a = none ↔ g.Declares a := by
  cases a with
  | binary left right => simp [undeclared?, Declares, isNonterminal_iff]
  | unary terminal => simp [undeclared?, Declares, isTerminal_iff]

theorem addNew_eq_ok_iff {p : Production} : g.addNew p = (.ok (), g') ↔
    p ∉ g.productions ∧ g' = { g with productions := g.productions.insert p } := by
  rw [addNew]
  by_cases hp : p ∈ g.productions <;> simp [hp, Productions.insert_enter, eq_comm]

theorem add_eq_ok_iff {p : Production} : g.add p = (.ok (), g') ↔
    p.head ∈ g.nonterminals ∧ g.Declares p.alternative ∧ p ∉ g.productions ∧
      g' = { g with productions := g.productions.insert p } := by
  rw [add, ← isNonterminal_iff, ← undeclared?_eq_none_iff]
  by_cases hh : g.isNonterminal p.head = true
  · cases hu : g.undeclared? p.alternative with
    | none => simp [hh, addNew_eq_ok_iff]
    | some c => simp [hh]
  · simp [hh]

theorem alternative?_eq_some_iff {cs : List Char} {a : Alternative} :
    g.alternative? cs = some a ↔ a.body = cs ∧ g.Declares a := by
  constructor
  · intro h
    unfold alternative? at h
    split at h <;> simp only [Option.ite_none_right_eq_some, Option.some.injEq, reduceCtorEq] at h
    · obtain ⟨ht, rfl⟩ := h
      exact ⟨rfl, isTerminal_iff.mp ht⟩
    · obtain ⟨hn, rfl⟩ := h
      rw [Bool.and_eq_true, isNonterminal_iff, isNonterminal_iff] at hn
      exact ⟨rfl, hn⟩
  · rintro ⟨rfl, hd⟩
    cases a with
    | binary left right =>
      rw [Alternative.body, alternative?, isNonterminal_iff.mpr hd.1, isNonterminal_iff.mpr hd.2]
      rfl
    | unary terminal =>
      rw [Alternative.body, alternative?, isTerminal_iff.mpr hd]
      rfl

theorem alternative?_toList_eq_some_iff {rhs : String} {a : Alternative} :
    g.alternative? rhs.toList = some a ↔ a.text = rhs ∧ g.Declares a := by
  rw [alternative?_eq_some_iff, Alternative.text, ← String.toList_inj, String.toList_ofList]

/-- **A written production is added if its text spells an alternative that can be added.** -/
theorem addWritten_eq_ok_iff {rhs : String} : g.addWritten c rhs = (.ok (), g') ↔
    ∃ a : Alternative, a.text = rhs ∧ g.add ⟨c, a⟩ = (.ok (), g') := by
  rw [addWritten]
  by_cases hh : g.isNonterminal c = true
  · rw [hh, Bool.not_true, if_neg Bool.false_ne_true]
    cases ha : g.alternative? rhs.toList with
    | none =>
      refine ⟨fun h => by simp at h, ?_⟩
      rintro ⟨a, ht, hadd⟩
      have hd := (add_eq_ok_iff.mp hadd).2.1
      rw [alternative?_toList_eq_some_iff.mpr ⟨ht, hd⟩] at ha
      cases ha
    | some a =>
      obtain ⟨ht, hd⟩ := alternative?_toList_eq_some_iff.mp ha
      rw [addNew_eq_ok_iff]
      constructor
      · rintro ⟨hn, e⟩
        exact ⟨a, ht, add_eq_ok_iff.mpr ⟨isNonterminal_iff.mp hh, hd, hn, e⟩⟩
      · rintro ⟨b, hb, hadd⟩
        obtain rfl := Alternative.text_injective (ht.trans hb.symm)
        exact (add_eq_ok_iff.mp hadd).2.2
  · rw [Bool.not_eq_true] at hh
    rw [hh]
    refine ⟨fun h => by simp at h, ?_⟩
    rintro ⟨a, -, hadd⟩
    rw [isNonterminal_iff.mpr (add_eq_ok_iff.mp hadd).1] at hh
    exact Bool.noConfusion hh

/-! ## The changes that are refused -/

theorem refused_iff {e' : GrammarError} : e' = e ∧ g = g' ↔ g' = g ∧ e = e' := by
  rw [and_comm, eq_comm, @eq_comm _ e']

theorem declareNonterminal_eq_error_iff : g.declareNonterminal c = (.error e, g') ↔ g' = g ∧
    ((isUpper c = false ∧ e = .wrongCase c) ∨
      (isUpper c = true ∧ c ∈ g.nonterminals ∧ e = .duplicateSymbol c)) := by
  rw [declareNonterminal, ← isNonterminal_iff]
  by_cases hu : isUpper c = true <;> by_cases hd : g.isNonterminal c = true <;>
    simp [hu, hd, refused_iff]

/-- A terminal that is there already is put in place once more, which changes nothing. -/
theorem declareTerminal_eq_error_iff : g.declareTerminal c = (.error e, g') ↔ g' = g ∧
    ((isLower c = false ∧ e = .wrongCase c) ∨
      (isLower c = true ∧ c ∈ g.terminals ∧ e = .duplicateSymbol c)) := by
  have hsame : c ∈ g.terminals → { g with terminals := g.terminals.insert c } = g := by
    intro hc
    rw [OrderedSet.insert_of_mem hc]
  rw [declareTerminal, ← isTerminal_iff]
  by_cases hl : isLower c = true
  · by_cases hd : g.isTerminal c = true
    · simp [hl, hd, hsame (isTerminal_iff.mp hd), refused_iff]
    · simp [hl, hd]
  · simp [hl, refused_iff]

theorem setStart_eq_error_iff : g.setStart c = (.error e, g') ↔
    g' = g ∧ c ∉ g.nonterminals ∧ e = .unknownSymbol c := by
  rw [setStart, ← isNonterminal_iff]
  by_cases hd : g.isNonterminal c = true <;> simp [hd, refused_iff]

/-- **A production that is there already leaves no new entry behind.** -/
theorem addNew_eq_error_iff {p : Production} : g.addNew p = (.error e, g') ↔
    g' = g ∧ p ∈ g.productions ∧ e = .duplicateProduction p.head p.alternative.text := by
  have hsame : p ∈ g.productions → { g with productions := g.productions.enter p.head } = g := by
    intro hp
    rw [Productions.enter_of_mem hp]
  rw [addNew]
  by_cases hp : p ∈ g.productions
  · simp [hp, hsame hp, refused_iff]
  · simp [hp]

theorem add_eq_error_iff {p : Production} : g.add p = (.error e, g') ↔ g' = g ∧
    ((p.head ∉ g.nonterminals ∧ e = .unknownSymbol p.head) ∨
      (p.head ∈ g.nonterminals ∧ ∃ d, g.undeclared? p.alternative = some d ∧ e = .unknownSymbol d) ∨
      (p.head ∈ g.nonterminals ∧ g.Declares p.alternative ∧ p ∈ g.productions ∧
        e = .duplicateProduction p.head p.alternative.text)) := by
  rw [add, ← isNonterminal_iff, ← undeclared?_eq_none_iff]
  by_cases hh : g.isNonterminal p.head = true
  · cases hu : g.undeclared? p.alternative with
    | none => simp [hh, addNew_eq_error_iff]
    | some d => simp [hh, refused_iff]
  · simp [hh, refused_iff]

theorem addWritten_eq_error_iff {rhs : String} : g.addWritten c rhs = (.error e, g') ↔ g' = g ∧
    ((c ∉ g.nonterminals ∧ e = .unknownSymbol c) ∨
      (c ∈ g.nonterminals ∧ (∀ a : Alternative, a.text = rhs → ¬ g.Declares a) ∧
        e = .notNormalForm c rhs) ∨
      (c ∈ g.nonterminals ∧ ∃ a : Alternative, a.text = rhs ∧ g.Declares a ∧
        (⟨c, a⟩ : Production) ∈ g.productions ∧ e = .duplicateProduction c rhs)) := by
  rw [addWritten, ← isNonterminal_iff]
  by_cases hh : g.isNonterminal c = true
  · cases ha : g.alternative? rhs.toList with
    | none =>
      have hnone : ∀ a : Alternative, a.text = rhs → ¬ g.Declares a := by
        intro a ht hd
        rw [alternative?_toList_eq_some_iff.mpr ⟨ht, hd⟩] at ha
        cases ha
      have hno : ¬ ∃ a : Alternative, a.text = rhs ∧ g.Declares a ∧
          (⟨c, a⟩ : Production) ∈ g.productions ∧ e = .duplicateProduction c rhs := by
        rintro ⟨a, ht, hd, -⟩
        exact hnone a ht hd
      simp only [hh, Bool.not_true, Bool.false_eq_true, if_false, Prod.mk.injEq, Except.error.injEq,
        refused_iff, hno, not_true_eq_false, false_and, true_and, and_false, false_or, or_false]
      rw [and_iff_right hnone]
    | some a =>
      obtain ⟨rfl, hd⟩ := alternative?_toList_eq_some_iff.mp ha
      have hsome : ¬ ∀ b : Alternative, b.text = a.text → ¬ g.Declares b := fun h => h a rfl hd
      have hiff : (∃ b : Alternative, b.text = a.text ∧ g.Declares b ∧
          (⟨c, b⟩ : Production) ∈ g.productions ∧ e = .duplicateProduction c a.text) ↔
          (⟨c, a⟩ : Production) ∈ g.productions ∧ e = .duplicateProduction c a.text := by
        constructor
        · rintro ⟨b, hb, -, h⟩
          rwa [Alternative.text_injective hb] at h
        · exact fun h => ⟨a, rfl, hd, h⟩
      simp only [hh, Bool.not_true, Bool.false_eq_true, if_false, addNew_eq_error_iff, hsome, hiff,
        not_true_eq_false, false_and, true_and, and_false, false_or]
  · simp [hh, refused_iff]

/-- **A change that is refused leaves the grammar as it was.** -/
theorem apply_of_error {change : Change} (h : change.apply g = (.error e, g')) : g' = g := by
  cases change with
  | declareNonterminal c => exact (declareNonterminal_eq_error_iff.mp h).1
  | declareTerminal c => exact (declareTerminal_eq_error_iff.mp h).1
  | setStart c => exact (setStart_eq_error_iff.mp h).1
  | add p => exact (add_eq_error_iff.mp h).1
  | addWritten head rhs => exact (addWritten_eq_error_iff.mp h).1
  | clear => cases h

end Grammar

/-! ## Changes that are made or not -/

namespace Change

variable {g : Grammar} {change : Change}

/-- The change is not refused. -/
def Made (change : Change) (g : Grammar) : Prop := (change.apply g).1 = .ok ()

instance (change : Change) (g : Grammar) : Decidable (change.Made g) :=
  match h : (change.apply g).1 with
  | .ok () => isTrue h
  | .error _ => isFalse fun h' => nomatch h.symm.trans h'

theorem apply_of_made (h : change.Made g) : change.apply g = (.ok (), g.attempt change) :=
  Prod.ext h rfl

theorem attempt_of_not_made (h : ¬ change.Made g) : g.attempt change = g := by
  rcases hr : change.apply g with ⟨e | u, g'⟩
  · rw [Grammar.attempt, hr]
    exact Grammar.apply_of_error hr
  · exact absurd (congrArg Prod.fst hr) h

end Change

end Chomsky
