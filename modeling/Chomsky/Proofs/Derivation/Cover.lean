import Chomsky.Derivation
import Chomsky.Proofs.Grammar.WellFormed

/-!
# Covers

A nonterminal covers a word if binary productions join the places of the word into it, where a single
place is read by a given relation. Three relations matter: `Writes` (by a unary production), equality
(the place holds the nonterminal itself) and `Leads` (either).

* **`WellFormed.derives_iff_covers`**: a derivation is a cover;
* **`covers_writes_iff_tree`**: a cover of a word is a derivation tree.
-/

namespace Chomsky

namespace Grammar

variable {g g' : Grammar} {leaf leaf' : Char → Char → Prop} {c a : Char} {u v w : Word}

/-- **A nonterminal covers a word.** -/
inductive Covers (g : Grammar) (leaf : Char → Char → Prop) : Char → Word → Prop where
  | leaf {c a : Char} (h : leaf c a) : Covers g leaf c [a]
  | join {c l r : Char} {u v : Word} (h : (⟨c, .binary l r⟩ : Production) ∈ g.productions)
    (hl : Covers g leaf l u) (hr : Covers g leaf r v) : Covers g leaf c (u ++ v)

/-- The symbols of a sentential form cover the parts of a word, in order. -/
inductive CoversAll (g : Grammar) (leaf : Char → Char → Prop) : Word → Word → Prop where
  | nil : CoversAll g leaf [] []
  | cons {c : Char} {u v w : Word} (h : Covers g leaf c v) (rest : CoversAll g leaf u w) :
    CoversAll g leaf (c :: u) (v ++ w)

/-- The nonterminal has the letter as an alternative. -/
def Writes (g : Grammar) (c a : Char) : Prop := (⟨c, .unary a⟩ : Production) ∈ g.productions

/-- The symbol stays as it is or turns into a letter. -/
def Leads (g : Grammar) (c a : Char) : Prop := c = a ∨ g.Writes c a

theorem Covers.ne_nil (h : g.Covers leaf c w) : w ≠ [] := by
  induction h with
  | leaf => exact List.cons_ne_nil _ _
  | join _ _ _ ihl _ => exact List.append_ne_nil_of_left_ne_nil ihl _

theorem covers_singleton_iff : g.Covers leaf c [a] ↔ leaf c a := by
  refine ⟨fun h => ?_, .leaf⟩
  generalize hu : [a] = u at h
  cases h with
  | leaf h =>
    cases hu
    exact h
  | join h hl hr =>
    have h1 := congrArg List.length hu
    have h2 := List.length_pos_iff.mpr hl.ne_nil
    have h3 := List.length_pos_iff.mpr hr.ne_nil
    rw [List.length_append, List.length_singleton] at h1
    omega

theorem Covers.transfer (h : g.Covers leaf c w) (hp : ∀ p ∈ g.productions, p ∈ g'.productions)
    (himp : ∀ c a, leaf c a → leaf' c a) : g'.Covers leaf' c w := by
  induction h with
  | leaf h => exact .leaf (himp _ _ h)
  | join h _ _ ihl ihr => exact .join (hp _ h) ihl ihr

theorem Covers.mono (h : g.Covers leaf c w) (himp : ∀ c a, leaf c a → leaf' c a) :
    g.Covers leaf' c w := h.transfer (fun _ => id) himp

/-! ## Covers of a sentential form -/

theorem coversAll_singleton_iff : g.CoversAll leaf [c] w ↔ g.Covers leaf c w := by
  constructor
  · intro h
    cases h with
    | cons h rest =>
      cases rest
      rwa [List.append_nil]
  · intro h
    rw [← List.append_nil w]
    exact .cons h .nil

theorem coversAll_append_iff : g.CoversAll leaf (u ++ v) w ↔
    ∃ w₁ w₂, w = w₁ ++ w₂ ∧ g.CoversAll leaf u w₁ ∧ g.CoversAll leaf v w₂ := by
  induction u generalizing w with
  | nil =>
    constructor
    · exact fun h => ⟨[], w, rfl, .nil, h⟩
    · rintro ⟨w₁, w₂, rfl, h1, h2⟩
      cases h1
      exact h2
  | cons c u ih =>
    constructor
    · intro h
      cases h with
      | cons h rest =>
        obtain ⟨w₁, w₂, rfl, h1, h2⟩ := ih.mp rest
        exact ⟨_, w₂, (List.append_assoc _ _ _).symm, .cons h h1, h2⟩
    · rintro ⟨w₁, w₂, rfl, h1, h2⟩
      cases h1 with
      | cons h rest =>
        rw [List.append_assoc]
        exact .cons h (ih.mpr ⟨_, w₂, rfl, rest, h2⟩)

theorem coversAll_self (hleaf : ∀ c, leaf c c) : ∀ w, g.CoversAll leaf w w
  | [] => .nil
  | c :: w => .cons (.leaf (hleaf c)) (coversAll_self hleaf w)

/-! ## Covers and derivations -/

theorem Derives.of_writes (h : g.Writes c a) : g.Derives [c] [a] := Derives.of_mem h

theorem Covers.derives (h : g.Covers leaf c w) (hleaf : ∀ c a, leaf c a → g.Derives [c] [a]) :
    g.Derives [c] w := by
  induction h with
  | leaf h => exact hleaf _ _ h
  | join h _ _ ihl ihr => exact (Derives.of_mem h).trans (ihl.append ihr)

namespace WellFormed

variable (hg : g.WellFormed)

include hg in
theorem mem_of_covers (hleaf : ∀ a ∈ w, ∀ c, leaf c a → c ∈ g.nonterminals) (h : g.Covers leaf c w) :
    c ∈ g.nonterminals := by
  cases h with
  | leaf h => exact hleaf _ List.mem_cons_self _ h
  | join h _ _ => exact hg.head _ h

include hg in
theorem eq_of_covers_terminal (ha : a ∈ g.terminals) (h : g.Covers g.Leads a w) : w = [a] := by
  have hn := hg.not_isNonterminal_of_isTerminal ha
  cases h with
  | leaf h =>
    rcases h with rfl | h
    · rfl
    · exact absurd (hg.head _ h) hn
  | join h _ _ => exact absurd (hg.head _ h) hn

include hg in
theorem covers_of_body {p : Production} (hp : p ∈ g.productions)
    (h : g.CoversAll g.Leads p.alternative.body w) : g.Covers g.Leads p.head w := by
  obtain ⟨c, alternative⟩ := p
  cases alternative with
  | binary l r =>
    obtain ⟨w₁, w₂, rfl, h1, h2⟩ := coversAll_append_iff (u := [l]) (v := [r]).mp h
    exact .join hp (coversAll_singleton_iff.mp h1) (coversAll_singleton_iff.mp h2)
  | unary a =>
    rw [hg.eq_of_covers_terminal (hg.declares _ hp) (coversAll_singleton_iff.mp h)]
    exact .leaf (.inr hp)

include hg in
/-- **A derivation covers its outcome**, part by part. -/
theorem coversAll_of_derives (h : g.Derives u w) : g.CoversAll g.Leads u w := by
  induction h with
  | refl u => exact coversAll_self (fun _ => .inl rfl) u
  | step h _ ih =>
    -- the induction runs from the last step to the first, so the outcome stays and a body is folded up
    cases h with
    | replace before after p hp =>
      obtain ⟨w₁, w₂, rfl, h1, h2⟩ := coversAll_append_iff.mp ih
      obtain ⟨w₃, w₄, rfl, h3, h4⟩ := coversAll_append_iff.mp h1
      rw [List.append_assoc]
      exact coversAll_append_iff.mpr ⟨w₃, _, rfl, h3, .cons (hg.covers_of_body hp h4) h2⟩

include hg in
/-- **Derivations from a symbol are covers.** -/
theorem derives_iff_covers : g.Derives [c] w ↔ g.Covers g.Leads c w := by
  constructor
  · exact fun h => coversAll_singleton_iff.mp (hg.coversAll_of_derives h)
  · intro h
    refine h.derives fun c a hca => ?_
    rcases hca with rfl | h
    · exact .refl _
    · exact .of_writes h

include hg in
theorem covers_leads_iff_writes (hc : c ∈ g.nonterminals) (hw : ∀ a ∈ w, a ∈ g.terminals) :
    g.Covers g.Leads c w ↔ g.Covers g.Writes c w := by
  refine ⟨fun h => ?_, fun h => h.mono fun c a => .inr⟩
  induction h with
  | leaf h =>
    rcases h with rfl | h
    · exact absurd hc (hg.not_isNonterminal_of_isTerminal (hw _ List.mem_cons_self))
    · exact .leaf h
  | join h _ _ ihl ihr =>
    have hd := hg.declares _ h
    exact .join h (ihl hd.1 fun a ha => hw a (List.mem_append_left _ ha))
      (ihr hd.2 fun a ha => hw a (List.mem_append_right _ ha))

include hg in
/-- No cover of nonterminals passes through a letter. -/
theorem covers_leads_iff_eq (hw : ∀ a ∈ w, a ∈ g.nonterminals) :
    g.Covers g.Leads c w ↔ g.Covers Eq c w := by
  refine ⟨fun h => ?_, fun h => h.mono fun c a => .inl⟩
  induction h with
  | leaf h =>
    rcases h with rfl | h
    · exact .leaf rfl
    · exact absurd (hw _ List.mem_cons_self) (hg.not_isNonterminal_of_isTerminal (hg.declares _ h))
  | join h _ _ ihl ihr =>
    exact .join h (ihl fun a ha => hw a (List.mem_append_left _ ha))
      (ihr fun a ha => hw a (List.mem_append_right _ ha))

end WellFormed

end Grammar

/-! ## Covers and trees -/

theorem Tree.covers {g : Grammar} : ∀ {t : Tree}, t.Fits g → g.Covers g.Writes t.root t.yield
  | leaf _ _, h => .leaf h
  | branch _ _ _, ⟨h, hl, hr⟩ => .join h (covers hl) (covers hr)

theorem Grammar.covers_writes_iff_tree {g : Grammar} {c : Char} {w : Word} :
    g.Covers g.Writes c w ↔ ∃ t : Tree, t.Fits g ∧ t.root = c ∧ t.yield = w := by
  constructor
  · intro h
    induction h with
    | leaf h => exact ⟨.leaf _ _, h, rfl, rfl⟩
    | join h _ _ ihl ihr =>
      obtain ⟨l, hl, rfl, rfl⟩ := ihl
      obtain ⟨r, hr, rfl, rfl⟩ := ihr
      exact ⟨.branch _ l r, ⟨h, hl, hr⟩, rfl, rfl⟩
  · rintro ⟨t, ht, rfl, rfl⟩
    exact Tree.covers ht

end Chomsky
