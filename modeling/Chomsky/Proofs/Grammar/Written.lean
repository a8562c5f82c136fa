import Chomsky.Proofs.Grammar.Contents

/-!
# Productions as text and as alternatives

A production is added with its alternative at hand, or with a text to be read. An alternative has its shape already,
so it is only asked for its symbols, one after the other; a text may be anything, and whatever does not spell an
alternative over declared symbols is refused with one word. Both ways admit the same productions all the same, and
they leave the same grammar behind.

* **`addWritten_eq_add`**: a text that spells declared symbols is added as its alternative;
* **`addWritten_agrees_with_add`**: both ways side by side.
-/

namespace Chomsky.Grammar

variable {g g' : Grammar} {head c : Char} {rhs : String} {a : Alternative} {e : GrammarError}

/-! ## Undeclared symbols -/

/-- The character is declared as what the alternative takes its symbols for. -/
def DeclaredFor (g : Grammar) : Alternative → Char → Prop
  | .binary _ _, c => c ∈ g.nonterminals
  | .unary _, c => c ∈ g.terminals

theorem undeclared?_eq_some_iff :
    g.undeclared? a = some c ↔ FirstWithout (g.DeclaredFor a) a.body c := by
  cases a with
  | binary left right => exact find?_eq_some_iff_firstWithout fun _ => isNonterminal_iff
  | unary terminal => exact find?_eq_some_iff_firstWithout fun _ => isTerminal_iff

theorem not_declares_iff : ¬ g.Declares a ↔ ∃ c, FirstWithout (g.DeclaredFor a) a.body c := by
  rw [← undeclared?_eq_none_iff, ← Ne, Option.ne_none_iff_exists']
  simp only [undeclared?_eq_some_iff]

theorem add_of_firstWithout (hhead : head ∈ g.nonterminals)
    (hc : FirstWithout (g.DeclaredFor a) a.body c) :
    g.add ⟨head, a⟩ = (.error (.unknownSymbol c), g) :=
  add_eq_error_iff.mpr ⟨rfl, .inr (.inl ⟨hhead, c, undeclared?_eq_some_iff.mpr hc, rfl⟩)⟩

/-! ## One change in two forms -/

/-- **A text that spells declared symbols is added as its alternative.** -/
theorem addWritten_eq_add (hd : g.Declares a) : g.addWritten head a.text = g.add ⟨head, a⟩ := by
  have hread : g.alternative? a.text.toList = some a := alternative?_toList_eq_some_iff.mpr ⟨rfl, hd⟩
  have hnone : g.undeclared? a = none := undeclared?_eq_none_iff.mpr hd
  simp only [addWritten, add, hread, hnone]

theorem declares_of_add_eq_ok (h : (g.add ⟨head, a⟩).1 = .ok ()) : g.Declares a :=
  (add_eq_ok_iff.mp (Prod.ext h rfl)).2.1

theorem declares_of_add_eq_duplicate
    (h : (g.add ⟨head, a⟩).1 = .error (.duplicateProduction head rhs)) : g.Declares a := by
  obtain ⟨-, ⟨-, he⟩ | ⟨-, d, -, he⟩ | ⟨-, hd, -, -⟩⟩ := add_eq_error_iff.mp (Prod.ext h rfl)
  · cases he
  · cases he
  · exact hd

/-! ## The refusals of a text -/

theorem addWritten_eq_unknown_iff :
    (g.addWritten head rhs).1 = .error (.unknownSymbol c) ↔ c = head ∧ head ∉ g.nonterminals := by
  constructor
  · intro h
    obtain ⟨-, ⟨hhead, he⟩ | ⟨-, -, he⟩ | ⟨-, a, -, -, -, he⟩⟩ :=
      addWritten_eq_error_iff.mp (Prod.ext h rfl)
    · exact ⟨GrammarError.unknownSymbol.inj he, hhead⟩
    · cases he
    · cases he
  · rintro ⟨rfl, hhead⟩
    exact congrArg Prod.fst (addWritten_eq_error_iff.mpr ⟨rfl, .inl ⟨hhead, rfl⟩⟩)

/-- A head that is not declared is refused with any alternative, and it alone is: the pair of a declared head
with itself is not refused for the head. -/
theorem forall_add_eq_unknown_iff :
    (∀ a, (g.add ⟨head, a⟩).1 = .error (.unknownSymbol head)) ↔ head ∉ g.nonterminals := by
  constructor
  · intro h hhead
    have hd : g.Declares (.binary head head) := ⟨hhead, hhead⟩
    obtain ⟨-, ⟨hn, -⟩ | ⟨-, d, hu, -⟩ | ⟨-, -, -, he⟩⟩ :=
      add_eq_error_iff.mp (Prod.ext (h (.binary head head)) rfl)
    · exact hn hhead
    · rw [undeclared?_eq_none_iff.mpr hd] at hu
      cases hu
    · cases he
  · intro hhead a
    exact congrArg Prod.fst (add_eq_error_iff.mpr ⟨rfl, .inl ⟨hhead, rfl⟩⟩)

theorem addWritten_eq_notNormalForm_iff : (g.addWritten head rhs).1 = .error (.notNormalForm head rhs) ↔
    head ∈ g.nonterminals ∧ ∀ a : Alternative, a.text = rhs → ∃ c,
      FirstWithout (g.DeclaredFor a) a.body c ∧ (g.add ⟨head, a⟩).1 = .error (.unknownSymbol c) := by
  constructor
  · intro h
    obtain ⟨-, ⟨-, he⟩ | ⟨hhead, hnone, -⟩ | ⟨-, a, -, -, -, he⟩⟩ :=
      addWritten_eq_error_iff.mp (Prod.ext h rfl)
    · cases he
    · refine ⟨hhead, fun a ha => ?_⟩
      obtain ⟨c, hc⟩ := not_declares_iff.mp (hnone a ha)
      exact ⟨c, hc, congrArg Prod.fst (add_of_firstWithout hhead hc)⟩
    · cases he
  · rintro ⟨hhead, hnone⟩
    have hlacks : ∀ a : Alternative, a.text = rhs → ¬ g.Declares a := fun a ha => by
      obtain ⟨c, hc, -⟩ := hnone a ha
      exact not_declares_iff.mpr ⟨c, hc⟩
    exact congrArg Prod.fst (addWritten_eq_error_iff.mpr ⟨rfl, .inr (.inl ⟨hhead, hlacks, rfl⟩)⟩)

theorem addWritten_eq_duplicate_iff : (g.addWritten head rhs).1 = .error (.duplicateProduction head rhs) ↔
    ∃ a : Alternative, a.text = rhs ∧ (g.add ⟨head, a⟩).1 = .error (.duplicateProduction head rhs) := by
  constructor
  · intro h
    obtain ⟨-, ⟨-, he⟩ | ⟨-, -, he⟩ | ⟨-, a, ha, hd, -, -⟩⟩ :=
      addWritten_eq_error_iff.mp (Prod.ext h rfl)
    · cases he
    · cases he
    · subst ha
      exact ⟨a, rfl, (congrArg Prod.fst (addWritten_eq_add hd)).symm.trans h⟩
  · rintro ⟨a, rfl, h⟩
    rw [addWritten_eq_add (declares_of_add_eq_duplicate h), h]

theorem addWritten_eq_ok_iff_add : (g.addWritten head rhs).1 = .ok () ↔
    ∃ a : Alternative, a.text = rhs ∧ (g.add ⟨head, a⟩).1 = .ok () := by
  constructor
  · intro h
    obtain ⟨a, ha, hadd⟩ := addWritten_eq_ok_iff.mp (Prod.ext h rfl)
    exact ⟨a, ha, congrArg Prod.fst hadd⟩
  · rintro ⟨a, rfl, h⟩
    rw [addWritten_eq_add (declares_of_add_eq_ok h), h]

/-- **A production added as text and the same production added as an alternative.** The text is accepted if an
alternative with this text is, there is no other such alternative, and both leave the same grammar behind. It is
refused for its head, as a duplicate, or since it is out of form, just as its alternatives are refused for their
head, as a duplicate, or for their leftmost symbol that lacks its declaration. Neither way stores an alternative
over symbols that are not declared for it. -/
theorem addWritten_agrees_with_add (hg : g.Reachable) (head : Char) (rhs : String) :
    ((g.addWritten head rhs).1 = .ok () ↔
      ∃ a : Alternative, a.text = rhs ∧ (g.add ⟨head, a⟩).1 = .ok ()) ∧
    (∀ a b : Alternative, a.text = rhs → b.text = rhs → a = b) ∧
    (∀ a : Alternative, a.text = rhs → (g.add ⟨head, a⟩).1 = .ok () →
      (g.addWritten head rhs).2 = (g.add ⟨head, a⟩).2) ∧
    ((∀ c, (g.addWritten head rhs).1 = .error (.unknownSymbol c) ↔ c = head ∧ head ∉ g.nonterminals) ∧
      ((∀ a, (g.add ⟨head, a⟩).1 = .error (.unknownSymbol head)) ↔ head ∉ g.nonterminals)) ∧
    ((g.addWritten head rhs).1 = .error (.duplicateProduction head rhs) ↔
      ∃ a : Alternative, a.text = rhs ∧ (g.add ⟨head, a⟩).1 = .error (.duplicateProduction head rhs)) ∧
    ((g.addWritten head rhs).1 = .error (.notNormalForm head rhs) ↔
      head ∈ g.nonterminals ∧ ∀ a : Alternative, a.text = rhs → ∃ c,
        FirstWithout (g.DeclaredFor a) a.body c ∧ (g.add ⟨head, a⟩).1 = .error (.unknownSymbol c)) ∧
    ∀ g', g' = (g.addWritten head rhs).2 ∨ (∃ a, g' = (g.add ⟨head, a⟩).2) →
      (∀ c t, (⟨c, .unary t⟩ : Production) ∈ g'.productions → t ∈ g'.terminals) ∧
      ∀ c l r, (⟨c, .binary l r⟩ : Production) ∈ g'.productions →
        l ∈ g'.nonterminals ∧ r ∈ g'.nonterminals := by
  refine ⟨addWritten_eq_ok_iff_add, fun a b ha hb => Alternative.text_injective (ha.trans hb.symm), ?_,
    ⟨fun c => addWritten_eq_unknown_iff, forall_add_eq_unknown_iff⟩, addWritten_eq_duplicate_iff,
    addWritten_eq_notNormalForm_iff, fun g' hg' => ?_⟩
  · rintro a rfl h
    rw [addWritten_eq_add (declares_of_add_eq_ok h)]
  · have hwf : g'.WellFormed := by
      rcases hg' with rfl | ⟨a, rfl⟩
      · exact (hg.attempt (.addWritten head rhs)).wellFormed
      · exact (hg.attempt (.add ⟨head, a⟩)).wellFormed
    exact ⟨fun c t hp => hwf.declares _ hp, fun c l r hp => hwf.declares _ hp⟩

theorem textbook_adds_AA : textbook.Reachable ∧
    (∃ a : Alternative, a.text = "AA" ∧ (textbook.add ⟨'S', a⟩).1 = .ok ()) ∧
    (textbook.addWritten 'S' "AA").2 = (textbook.add ⟨'S', .binary 'A' 'A'⟩).2 ∧
    (textbook.addWritten 'S' "Ab").1 = .error (.notNormalForm 'S' "Ab") ∧
    (∃ c, FirstWithout (textbook.DeclaredFor (.binary 'A' 'b')) ['A', 'b'] c ∧
      (textbook.add ⟨'S', .binary 'A' 'b'⟩).1 = .error (.unknownSymbol c)) ∧
    (textbook.addWritten 'S' "ABC").1 = .error (.notNormalForm 'S' "ABC") ∧
    (textbook.addWritten 'D' "AB").1 = .error (.unknownSymbol 'D') := by
  have hok : (textbook.addWritten 'S' "AA").1 = .ok () := by decide +kernel
  have hform : (textbook.addWritten 'S' "Ab").1 = .error (.notNormalForm 'S' "Ab") := by decide +kernel
  obtain ⟨hiff, -, hsame, -⟩ := addWritten_agrees_with_add reachable_textbook 'S' "AA"
  obtain ⟨-, -, -, -, -, hrefused, -⟩ := addWritten_agrees_with_add reachable_textbook 'S' "Ab"
  obtain ⟨-, -, -, -, -, hlong, -⟩ := addWritten_agrees_with_add reachable_textbook 'S' "ABC"
  obtain ⟨-, -, -, ⟨hunknown, -⟩, -⟩ := addWritten_agrees_with_add reachable_textbook 'D' "AB"
  refine ⟨reachable_textbook, hiff.mp hok, hsame _ rfl (by decide +kernel), hform,
    (hrefused.mp hform).2 (.binary 'A' 'b') rfl, hlong.mpr ⟨by decide +kernel, fun a ha => ?_⟩,
    (hunknown 'D').mpr ⟨rfl, by decide +kernel⟩⟩
  have hlength : a.body.length = 3 := by
    rw [← String.toList_inj, Alternative.text, String.toList_ofList] at ha
    exact congrArg List.length ha
  cases a <;> simp [Alternative.body] at hlength

end Chomsky.Grammar
