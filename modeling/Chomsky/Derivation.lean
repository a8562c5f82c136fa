import Chomsky.Tree.Basic

/-!
# Derivations

One step of a grammar replaces a nonterminal anywhere in a sentential form by one of its alternatives;
a derivation is any finite number of steps. This is the meaning of a grammar, apart from any algorithm.

* `Grammar.Step`, **`Grammar.Derives`**, `Derives.trans`, `Derives.append`;
* `Grammar.Generates`: the words of the grammar;
* **`Tree.derives_yield`**, `Tree.derives_body`: a tree of the grammar derives its yield.
-/

namespace Chomsky

namespace Grammar

variable {g : Grammar}

/-- **One step**, applied anywhere in a sentential form. -/
inductive Step (g : Grammar) : Word → Word → Prop where
  | replace (before after : Word) (p : Production) (h : p ∈ g.productions) :
    Step g (before ++ p.head :: after) (before ++ p.alternative.body ++ after)

/-- **A derivation**: finitely many steps. -/
inductive Derives (g : Grammar) : Word → Word → Prop where
  | refl (u : Word) : Derives g u u
  | step {u v w : Word} (h : Step g u v) (rest : Derives g v w) : Derives g u w

/-- The grammar derives a word from its start symbol. -/
def Generates (g : Grammar) (w : Word) : Prop := ∃ start, g.start = some start ∧ g.Derives [start] w

theorem Derives.trans {u v w : Word} (h1 : g.Derives u v) (h2 : g.Derives v w) : g.Derives u w := by
  induction h1 with
  | refl => exact h2
  | step h _ ih => exact .step h (ih h2)

theorem Derives.of_mem {p : Production} (h : p ∈ g.productions) :
    g.Derives [p.head] p.alternative.body := by
  have h1 := Step.replace [] [] p h
  simp only [List.nil_append, List.append_nil] at h1
  exact .step h1 (.refl _)

theorem Step.append {u v : Word} (h : g.Step u v) (before after : Word) :
    g.Step (before ++ u ++ after) (before ++ v ++ after) := by
  cases h with
  | replace b a p hp =>
    have h1 := Step.replace (before ++ b) (a ++ after) p hp
    simpa only [List.append_assoc, List.cons_append] using h1

theorem Derives.context {u v : Word} (h : g.Derives u v) (before after : Word) :
    g.Derives (before ++ u ++ after) (before ++ v ++ after) := by
  induction h with
  | refl => exact .refl _
  | step h _ ih => exact .step (h.append before after) ih

/-- **The two parts of a sentential form derive independently.** -/
theorem Derives.append {u v u' v' : Word} (h1 : g.Derives u u') (h2 : g.Derives v v') :
    g.Derives (u ++ v) (u' ++ v') := by
  have h3 : g.Derives (u ++ v) (u' ++ v) := by simpa using h1.context [] v
  have h4 : g.Derives (u' ++ v) (u' ++ v') := by simpa using h2.context u' []
  exact h3.trans h4

end Grammar

/-- **A tree of the grammar derives its yield.** -/
theorem Tree.derives_yield {g : Grammar} : ∀ {t : Tree}, t.Fits g → g.Derives [t.root] t.yield
  | leaf _ _, h => .of_mem h
  | branch _ l r, ⟨h, hl, hr⟩ => by
    have h1 := Grammar.Derives.of_mem h
    have h2 : g.Derives ([l.root] ++ [r.root]) (l.yield ++ r.yield) :=
      (derives_yield hl).append (derives_yield hr)
    exact h1.trans h2

theorem Tree.derives_body {g : Grammar} {t : Tree} (ht : t.Fits g) : g.Derives t.alternative.body t.yield := by
  cases t with
  | leaf c a => exact .refl _
  | branch c l r => exact (l.derives_yield ht.2.1).append (r.derives_yield ht.2.2)

end Chomsky
