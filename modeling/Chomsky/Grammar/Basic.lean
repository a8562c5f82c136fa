import Chomsky.Symbol
import Chomsky.Alternative

/-!
# Grammars in Chomsky Normal Form

A grammar declares its symbols, then collects productions over them. Nonterminals keep the order
of their declaration; terminals and the alternatives of a head are sets. Every change checks the letter
case or the declaration of what it mentions and reports the first thing that is wrong. A change works
on the grammar in place, so what it did before it was refused would stay.

* the changes `declareNonterminal`, `declareTerminal`, `setStart`, `add`, `addWritten`, `clear`.
-/

namespace Chomsky

/-- **A grammar.** Equality of grammars minds the order of the nonterminals, but not that of terminals or
productions. -/
structure Grammar where
  /-- In the order of declaration. -/
  nonterminals : List Char := []
  terminals : OrderedSet Char := ∅
  start : Option Char := none
  productions : Productions := ∅
deriving DecidableEq

/-- Why a grammar refuses a change. -/
inductive GrammarError where
  /-- The letter case belongs to the other kind of symbol, or to none. -/
  | wrongCase (symbol : Char)
  | duplicateSymbol (symbol : Char)
  /-- The symbol is not declared for the place it stands in. -/
  | unknownSymbol (symbol : Char)
  /-- The right-hand side is neither two nonterminals nor one terminal of the grammar. -/
  | notNormalForm (head : Char) (rhs : String)
  | duplicateProduction (head : Char) (rhs : String)
deriving DecidableEq, Repr

def GrammarError.message : GrammarError → String
  | wrongCase c => s!"`{c}` has the wrong letter case for this kind of symbol"
  | duplicateSymbol c => s!"Symbol `{c}` is already defined"
  | unknownSymbol c => s!"Nonterminal `{c}` is not defined"
  | notNormalForm head rhs => s!"`{head}::={rhs}` is not in Chomsky Normal Form"
  | duplicateProduction head rhs => s!"Production `{head}::={rhs}` already exists"

/-- What a change gives: whether it was made, and the grammar that it leaves behind either way. -/
abbrev ChangeResult : Type := Except GrammarError Unit × Grammar

namespace Grammar

instance : EmptyCollection Grammar := ⟨{}⟩

variable (g : Grammar)

/-! ## Reading a grammar -/

def isNonterminal (c : Char) : Bool := c ∈ g.nonterminals

def isTerminal (c : Char) : Bool := c ∈ g.terminals

/-- The place of a nonterminal in the order of declaration, from zero. -/
def position? (c : Char) : Option Nat := g.nonterminals.idxOf? c

/-- The alternatives of a head, in their order. -/
def alternatives (head : Char) : List Alternative := (g.productions.of head).toList

/-- **Every production**, heads in the order of declaration. -/
def listedProductions : List Production :=
  g.nonterminals.flatMap fun head => (g.alternatives head).map fun a => ⟨head, a⟩

theorem mem_alternatives {head : Char} {a : Alternative} :
    a ∈ g.alternatives head ↔ (⟨head, a⟩ : Production) ∈ g.productions := Iff.rfl

theorem mem_listedProductions {p : Production} :
    p ∈ g.listedProductions ↔ p.head ∈ g.nonterminals ∧ p ∈ g.productions := by
  obtain ⟨head, a⟩ := p
  simp only [listedProductions, List.mem_flatMap, List.mem_map, Production.mk.injEq]
  constructor
  · rintro ⟨h, hh, b, hb, rfl, rfl⟩
    exact ⟨hh, (g.mem_alternatives).mp hb⟩
  · rintro ⟨hh, hp⟩
    exact ⟨head, hh, a, (g.mem_alternatives).mpr hp, rfl, rfl⟩

/-! ## Changing a grammar -/

/-- Declares a nonterminal, which must be an upper-case letter and new. -/
def declareNonterminal (c : Char) : ChangeResult :=
  if !isUpper c then (.error (.wrongCase c), g)
  else if g.isNonterminal c then (.error (.duplicateSymbol c), g)
  else (.ok (), { g with nonterminals := g.nonterminals ++ [c] })

/-- Declares a terminal, which must be a lower-case letter and new. The letter goes into the set before
it is asked whether it was there. -/
def declareTerminal (c : Char) : ChangeResult :=
  if !isLower c then (.error (.wrongCase c), g)
  else
    let g' := { g with terminals := g.terminals.insert c }
    if g.isTerminal c then (.error (.duplicateSymbol c), g') else (.ok (), g')

/-- Makes a declared nonterminal the start symbol. -/
def setStart (c : Char) : ChangeResult :=
  if !g.isNonterminal c then (.error (.unknownSymbol c), g)
  else (.ok (), { g with start := some c })

/-- The leftmost symbol of an alternative that is not declared for its place. -/
def undeclared? : Alternative → Option Char
  | .binary left right => [left, right].find? (!g.isNonterminal ·)
  | .unary terminal => [terminal].find? (!g.isTerminal ·)

/-- Adds a production over declared symbols unless the head has it already. The entry of the head is made
before it is asked whether the production is in it. -/
def addNew (p : Production) : ChangeResult :=
  let g' := { g with productions := g.productions.enter p.head }
  if p ∈ g'.productions then (.error (.duplicateProduction p.head p.alternative.text), g')
  else (.ok (), { g' with productions := g'.productions.insert p })

/-- **Adds a production** whose symbols are all declared. -/
def add (p : Production) : ChangeResult :=
  if !g.isNonterminal p.head then (.error (.unknownSymbol p.head), g)
  else match g.undeclared? p.alternative with
    | some c => (.error (.unknownSymbol c), g)
    | none => g.addNew p

/-- The alternative that the symbols spell in this grammar. -/
def alternative? : List Char → Option Alternative
  | [c] => if g.isTerminal c then some (.unary c) else none
  | [b, c] => if g.isNonterminal b && g.isNonterminal c then some (.binary b c) else none
  | _ => none

/-- **Adds a production written as text**, `"AB"` or `"a"`. -/
def addWritten (head : Char) (rhs : String) : ChangeResult :=
  if !g.isNonterminal head then (.error (.unknownSymbol head), g)
  else match g.alternative? rhs.toList with
    | some a => g.addNew ⟨head, a⟩
    | none => (.error (.notNormalForm head rhs), g)

/-- Forgets every symbol and production, part by part. -/
def clear (g : Grammar) : Grammar :=
  { g with nonterminals := [], terminals := ∅, start := none, productions := ∅ }

end Grammar

end Chomsky
