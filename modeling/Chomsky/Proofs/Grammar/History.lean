import Chomsky.Proofs.Grammar.Contents
import Mathlib.Data.List.DropRight

/-!
# What a history leaves

A grammar holds what was added to it by the changes that were made since it was last cleared. The changes
that were refused may be left out: the others are made as before, with the same outcome.

* `Built`, `Built.attempt`, **`built_standing`**: a grammar and the changes that built it;
* **`after_holds_standing_changes`**: the grammar after a history.
-/

namespace Chomsky

variable {g g' : Grammar} {c : Char} {change : Change} {history before later changes : List Change}

/-! ## Histories without refused changes -/

namespace Grammar

/-- **The changes of a history that are made**, in order. -/
def made (g : Grammar) : List Change → List Change
  | [] => []
  | change :: history =>
    if change.Made g then change :: made (g.attempt change) history
    else made (g.attempt change) history

/-- **The refused changes may be left out.** -/
theorem after_made (g : Grammar) (history : List Change) : g.after (g.made history) = g.after history := by
  induction history generalizing g with
  | nil => rfl
  | cons change history ih =>
    rw [made, after_cons, ← ih]
    split
    · rfl
    · rename_i hrefused
      rw [Change.attempt_of_not_made hrefused]

/-- **The other changes are made all the same.** -/
theorem made_of_append_eq_made (h : g.made history = before ++ change :: later) :
    change.Made (g.after before) := by
  induction history generalizing g before with
  | nil => cases before <;> cases h
  | cons first history ih =>
    rw [made] at h
    split at h
    · cases before with
      | nil =>
        obtain ⟨rfl, -⟩ := List.cons.inj h
        assumption
      | cons b before =>
        obtain ⟨rfl, hrest⟩ := List.cons.inj h
        rw [after_cons]
        exact ih hrest
    · rename_i hrefused
      rw [Change.attempt_of_not_made hrefused] at h
      exact ih h

theorem made_concat : g.made (history ++ [change]) =
    if change.Made (g.after history) then g.made history ++ [change] else g.made history := by
  induction history generalizing g with
  | nil =>
    show (if change.Made g then [change] else []) = _
    rfl
  | cons first history ih =>
    rw [List.cons_append, made, made, after_cons, ih]
    split <;> split <;> rfl

end Grammar

/-- **The changes that were made since the last clearing**, in order. -/
def standing (history : List Change) : List Change :=
  ((∅ : Grammar).made history).rtakeWhile (· ≠ .clear)

theorem standing_concat : standing (history ++ [change]) =
    if change.Made ((∅ : Grammar).after history) then
      if change = .clear then [] else standing history ++ [change]
    else standing history := by
  rw [standing, Grammar.made_concat]
  split
  · rw [List.rtakeWhile_concat]
    by_cases hclear : change = .clear <;> simp [hclear, standing]
  · rfl

/-! ## What can be added -/

/-- What a grammar can hold. -/
inductive Item where
  | nonterminal (name : Char)
  | terminal (letter : Char)
  | production (p : Production)

namespace Item

/-- The changes that add an item. -/
def additions : Item → List Change
  | nonterminal c => [.declareNonterminal c]
  | terminal c => [.declareTerminal c]
  | production p => [.add p, .addWritten p.head p.alternative.text]

/-- The refusal of an item that is there already. -/
def duplicate : Item → GrammarError
  | nonterminal c => .duplicateSymbol c
  | terminal c => .duplicateSymbol c
  | production p => .duplicateProduction p.head p.alternative.text

end Item

/-- The refusal says that something is there already. -/
def GrammarError.IsDuplicate : GrammarError → Prop
  | duplicateSymbol _ | duplicateProduction _ _ => True
  | wrongCase _ | unknownSymbol _ | notNormalForm _ _ => False

/-- The grammar holds an item. -/
def Grammar.Has (g : Grammar) : Item → Prop
  | .nonterminal c => c ∈ g.nonterminals
  | .terminal c => c ∈ g.terminals
  | .production p => p ∈ g.productions

theorem Grammar.not_has_empty : ∀ item, ¬ (∅ : Grammar).Has item
  | .nonterminal _ => List.not_mem_nil
  | .terminal c => OrderedSet.not_mem_empty c
  | .production p => Productions.not_mem_empty p

/-- One of some changes adds an item. -/
def AddedBy (changes : List Change) (item : Item) : Prop := ∃ change ∈ item.additions, change ∈ changes

/-! ## Grammars and the changes that built them -/

/-- The name that a change declares as a nonterminal. -/
def Change.nonterminal? : Change → Option Char
  | declareNonterminal c => some c
  | _ => none

/-- The symbol that a change makes the start symbol. -/
def Change.start? : Change → Option Char
  | setStart c => some c
  | _ => none

/-- **The grammar holds what some changes added**, in their order as far as it minds one. -/
structure Built (g : Grammar) (changes : List Change) : Prop where
  nonterminals : g.nonterminals = changes.filterMap Change.nonterminal?
  start : g.start = (changes.filterMap Change.start?).getLast?
  has : ∀ item, g.Has item ↔ AddedBy changes item

theorem addedBy_concat {item : Item} :
    AddedBy (changes ++ [change]) item ↔ AddedBy changes item ∨ change ∈ item.additions := by
  simp only [AddedBy, List.mem_append, List.mem_singleton, and_or_left, exists_or, exists_eq_right]

namespace Built

theorem empty : Built ∅ [] where
  nonterminals := rfl
  start := rfl
  has item := by
    refine iff_of_false (Grammar.not_has_empty item) ?_
    rintro ⟨_, -, h⟩
    exact List.not_mem_nil h

theorem concat (h : Built g changes)
    (hnonterminals : g'.nonterminals = g.nonterminals ++ change.nonterminal?.toList)
    (hstart : g'.start = change.start?.or g.start)
    (hhas : ∀ item, g'.Has item ↔ g.Has item ∨ change ∈ item.additions) :
    Built g' (changes ++ [change]) where
  nonterminals := by
    rw [hnonterminals, h.nonterminals, List.filterMap_append]
    cases hc : change.nonterminal? <;> simp [hc]
  start := by
    rw [hstart, h.start, List.filterMap_append]
    cases hc : change.start? <;> simp [hc]
  has item := by rw [hhas, h.has, addedBy_concat]

/-- **Each change that is made adds what it names.** -/
theorem attempt (h : Built g changes) (hmade : change.Made g) (hclear : change ≠ .clear) :
    Built (g.attempt change) (changes ++ [change]) := by
  have happly := Change.apply_of_made hmade
  generalize g.attempt change = g' at happly
  cases change with
  | declareNonterminal c =>
    obtain ⟨-, -, rfl⟩ := Grammar.declareNonterminal_eq_ok_iff.mp happly
    refine h.concat rfl rfl fun item => ?_
    cases item <;> simp [Grammar.Has, Item.additions, eq_comm]
  | declareTerminal c =>
    obtain ⟨-, -, rfl⟩ := Grammar.declareTerminal_eq_ok_iff.mp happly
    refine h.concat (List.append_nil _).symm rfl fun item => ?_
    cases item <;> simp [Grammar.Has, Item.additions, eq_comm, or_comm]
  | setStart c =>
    obtain ⟨-, rfl⟩ := Grammar.setStart_eq_ok_iff.mp happly
    refine h.concat (List.append_nil _).symm rfl fun item => ?_
    cases item <;> simp [Grammar.Has, Item.additions]
  | add p =>
    obtain ⟨-, -, -, rfl⟩ := Grammar.add_eq_ok_iff.mp happly
    refine h.concat (List.append_nil _).symm rfl fun item => ?_
    cases item <;> simp [Grammar.Has, Item.additions, eq_comm, or_comm]
  | addWritten head rhs =>
    obtain ⟨a, rfl, hadd⟩ := Grammar.addWritten_eq_ok_iff.mp happly
    obtain ⟨-, -, -, rfl⟩ := Grammar.add_eq_ok_iff.mp hadd
    refine h.concat (List.append_nil _).symm rfl fun item => ?_
    cases item with
    | nonterminal c => simp [Grammar.Has, Item.additions]
    | terminal c => simp [Grammar.Has, Item.additions]
    | production p =>
      have htext : a.text = p.alternative.text ↔ a = p.alternative :=
        ⟨Alternative.text_injective, congrArg _⟩
      obtain ⟨c, b⟩ := p
      simp [Grammar.Has, Item.additions, htext, eq_comm, or_comm]
  | clear => exact absurd rfl hclear

end Built

/-- **A grammar holds what was added since it was last cleared.** -/
theorem built_standing (history : List Change) :
    Built ((∅ : Grammar).after history) (standing history) := by
  induction history using List.reverseRecOn with
  | nil => exact .empty
  | append_singleton history change ih =>
    rw [standing_concat, Grammar.after_append]
    show Built (((∅ : Grammar).after history).attempt change) _
    split
    · split
      · subst change
        exact .empty
      · exact ih.attempt ‹_› ‹_›
    · rwa [Change.attempt_of_not_made ‹_›]

/-! ## Duplicates -/

section Duplicates

variable {item : Item} {e : GrammarError}

theorem exists_item_of_duplicate (he : e.IsDuplicate) (h : change.apply g = (.error e, g')) :
    ∃ item : Item, change ∈ item.additions ∧ e = item.duplicate ∧ g.Has item := by
  cases change with
  | declareNonterminal c =>
    obtain ⟨-, ⟨-, rfl⟩ | ⟨-, hc, rfl⟩⟩ := Grammar.declareNonterminal_eq_error_iff.mp h
    · exact he.elim
    · exact ⟨.nonterminal c, List.mem_cons_self, rfl, hc⟩
  | declareTerminal c =>
    obtain ⟨-, ⟨-, rfl⟩ | ⟨-, hc, rfl⟩⟩ := Grammar.declareTerminal_eq_error_iff.mp h
    · exact he.elim
    · exact ⟨.terminal c, List.mem_cons_self, rfl, hc⟩
  | setStart c =>
    obtain ⟨-, -, rfl⟩ := Grammar.setStart_eq_error_iff.mp h
    exact he.elim
  | add p =>
    obtain ⟨-, ⟨-, rfl⟩ | ⟨-, d, -, rfl⟩ | ⟨-, -, hp, rfl⟩⟩ := Grammar.add_eq_error_iff.mp h
    · exact he.elim
    · exact he.elim
    · exact ⟨.production p, List.mem_cons_self, rfl, hp⟩
  | addWritten head rhs =>
    obtain ⟨-, ⟨-, rfl⟩ | ⟨-, -, rfl⟩ | ⟨-, a, rfl, -, hp, rfl⟩⟩ := Grammar.addWritten_eq_error_iff.mp h
    · exact he.elim
    · exact he.elim
    · exact ⟨.production ⟨head, a⟩, List.mem_cons_of_mem _ List.mem_cons_self, rfl, hp⟩
  | clear => cases h

theorem Grammar.WellFormed.apply_of_has (hg : g.WellFormed) (h : g.Has item)
    (hadd : change ∈ item.additions) : change.apply g = (.error item.duplicate, g) := by
  cases item with
  | nonterminal c =>
    rw [List.mem_singleton.mp hadd]
    exact Grammar.declareNonterminal_eq_error_iff.mpr ⟨rfl, .inr ⟨hg.upper c h, h, rfl⟩⟩
  | terminal c =>
    rw [List.mem_singleton.mp hadd]
    exact Grammar.declareTerminal_eq_error_iff.mpr ⟨rfl, .inr ⟨hg.lower c h, h, rfl⟩⟩
  | production p =>
    have hhead := hg.head p h
    have hsymbols := hg.declares p h
    rcases List.mem_cons.mp hadd with rfl | hadd
    · exact Grammar.add_eq_error_iff.mpr ⟨rfl, .inr (.inr ⟨hhead, hsymbols, h, rfl⟩)⟩
    · rw [List.mem_singleton.mp hadd]
      exact Grammar.addWritten_eq_error_iff.mpr
        ⟨rfl, .inr (.inr ⟨hhead, p.alternative, rfl, hsymbols, h, rfl⟩)⟩

theorem Grammar.WellFormed.apply_eq_duplicate_iff (hg : g.WellFormed) (he : e.IsDuplicate) :
    (change.apply g).1 = .error e ↔
      ∃ item : Item, change ∈ item.additions ∧ e = item.duplicate ∧ g.Has item := by
  refine ⟨fun h => exists_item_of_duplicate he (Prod.ext h rfl), ?_⟩
  rintro ⟨item, hadd, rfl, hhas⟩
  rw [hg.apply_of_has hhas hadd]

end Duplicates

/-! ## What a history leaves -/

/-- **The grammar after a history.** A change that is refused leaves the grammar as it was, and the history
without the refused changes is made throughout and comes to the same grammar. The grammar holds what was
added since it was last cleared, nonterminals in that order and the last start symbol of all, and just that
is refused as a duplicate. -/
theorem after_holds_standing_changes (history : List Change) :
    (∀ before change later e, history = before ++ change :: later →
      (change.apply ((∅ : Grammar).after before)).1 = .error e →
        (change.apply ((∅ : Grammar).after before)).2 = (∅ : Grammar).after before) ∧
    ((∀ before change later, (∅ : Grammar).made history = before ++ change :: later →
        (change.apply ((∅ : Grammar).after before)).1 = .ok ()) ∧
      (∅ : Grammar).after ((∅ : Grammar).made history) = (∅ : Grammar).after history) ∧
    (∀ p, p ∈ ((∅ : Grammar).after history).listedProductions ↔
      .add p ∈ standing history ∨ .addWritten p.head p.alternative.text ∈ standing history) ∧
    ((∅ : Grammar).after history).nonterminals = (standing history).filterMap Change.nonterminal? ∧
    (∀ c, c ∈ ((∅ : Grammar).after history).terminals ↔ .declareTerminal c ∈ standing history) ∧
    ((∅ : Grammar).after history).start = ((standing history).filterMap Change.start?).getLast? ∧
    ∀ change e, e.IsDuplicate → ((change.apply ((∅ : Grammar).after history)).1 = .error e ↔
      ∃ item : Item, change ∈ item.additions ∧ e = item.duplicate ∧ AddedBy (standing history) item) := by
  have hbuilt := built_standing history
  have hwf : ((∅ : Grammar).after history).WellFormed := Grammar.WellFormed.empty.after history
  refine ⟨fun before change later e _ hrefused => ?_, ⟨fun before change later h => ?_, ?_⟩, fun p => ?_,
    hbuilt.nonterminals, fun c => ?_, hbuilt.start, fun change e he => ?_⟩
  · exact Grammar.apply_of_error (Prod.ext hrefused rfl)
  · exact Grammar.made_of_append_eq_made h
  · exact Grammar.after_made ∅ history
  · rw [hwf.mem_listedProductions_iff]
    exact (hbuilt.has (.production p)).trans (by simp [AddedBy, Item.additions])
  · exact (hbuilt.has (.terminal c)).trans (by simp [AddedBy, Item.additions])
  · simp only [hwf.apply_eq_duplicate_iff he, hbuilt.has]

theorem after_cleared_and_refused :
    let history : List Change := [.declareNonterminal 'A', .declareTerminal 'b', .setStart 'A', .clear,
      .declareNonterminal 'S', .declareTerminal 'a', .declareTerminal 'a', .add ⟨'S', .binary 'S' 'A'⟩,
      .addWritten 'S' "a", .setStart 'S', .add ⟨'S', .unary 'a'⟩, .addWritten 'S' "b"]
    ((∅ : Grammar).after history).nonterminals = ['S'] ∧
    ((∅ : Grammar).after history).start = some 'S' ∧
    (∅ : Grammar).after ((∅ : Grammar).made history) = (∅ : Grammar).after history ∧
    (Change.apply (.declareTerminal 'a') ((∅ : Grammar).after (history.take 6))).2 =
      (∅ : Grammar).after (history.take 6) ∧
    (Change.apply (.add ⟨'S', .unary 'a'⟩) ((∅ : Grammar).after history)).1 =
      .error (.duplicateProduction 'S' "a") := by
  intro history
  have hstanding : standing history = [.declareNonterminal 'S', .declareTerminal 'a',
    .addWritten 'S' "a", .setStart 'S'] := by decide +kernel
  have hrefused : (Change.apply (.declareTerminal 'a') ((∅ : Grammar).after (history.take 6))).1 =
    .error (.duplicateSymbol 'a') := by decide +kernel
  obtain ⟨hsame, ⟨-, hmade⟩, -, hnonterminals, -, hstart, hduplicate⟩ := after_holds_standing_changes history
  rw [hstanding] at hnonterminals hstart hduplicate
  refine ⟨hnonterminals, hstart, hmade, hsame _ _ _ _ rfl hrefused, ?_⟩
  exact (hduplicate _ _ (by exact trivial)).mpr
    ⟨.production ⟨'S', .unary 'a'⟩, List.mem_cons_self, rfl, .addWritten 'S' "a", by decide, by decide⟩

end Chomsky
