import Chomsky.Proofs.Tree.Choices
import Chomsky.Proofs.Tree.Support

/-!
# Bounds of a growth

Whatever the numbers, growth ends in a tree that is at most by a shortest tree higher than the depth bound. This bounds
the word, and with it the choices, of which there is one for each node.

* `Growth.bind_congr`, **`grow_eq_of_roomy`**: a limit on the height that leaves room is never met;
* **`growTree_bounded`**: growth ends, and how much it may come to.
-/

namespace Chomsky

variable {g : Grammar} {σ : Nat → UInt32} {limit limit' room maxDepth top : Nat} {c : Char} {d d' : Draws} {t : Tree}

/-! ## The limit on the height -/

theorem Growth.bind_congr {α β : Type} {x : Growth α} {f f' : α → Growth β}
    (h : ∀ a d d', x.run.run d = (.ok a, d') → f a = f' a) : x >>= f = x >>= f' := by
  refine ExceptT.ext (StateT.ext fun d => ?_)
  show (x >>= f).run.run d = (x >>= f').run.run d
  rw [run_bind, run_bind]
  rcases hx : x.run.run d with ⟨e | a, d'⟩
  · rfl
  · show (f a).run.run d' = (f' a).run.run d'
    rw [h a d d' hx]

/-- **A limit that leaves room is never met**: growth goes the same way without it. -/
theorem grow_eq_of_roomy (hg : g.WellFormed) (h : g.Roomy limit room c) (hle : limit ≤ limit') :
    g.grow g.leastHeights limit room c = g.grow g.leastHeights limit' room c := by
  induction limit generalizing limit' room c with
  | zero => exact absurd h.pos (Nat.lt_irrefl 0)
  | succ limit ih =>
    obtain ⟨limit', rfl⟩ := Nat.exists_eq_succ_of_ne_zero (by omega : limit' ≠ 0)
    rw [Grammar.grow, Grammar.grow]
    refine Growth.bind_congr fun a d d' hrun => ?_
    cases a with
    | unary terminal => rfl
    | binary left right =>
      obtain ⟨hl, hr⟩ := h.of_offers hg (run_alternativeAt_eq_ok hrun)
      simp only [ih hl (Nat.le_of_succ_le_succ hle), ih hr (Nat.le_of_succ_le_succ hle)]

namespace Grammar

/-! ## The largest least height -/

/-- **The largest least height** of the nonterminals that derive a word. -/
def Tallest (g : Grammar) (top : Nat) : Prop :=
  (∃ c, g.LeastHeight c top) ∧ ∀ c h, g.LeastHeight c h → h ≤ top

theorem exists_tallest (hg : g.WellFormed) (hc : g.Productive c) :
    ∃ top, g.Tallest top ∧ top ≤ g.nonterminals.length := by
  classical
  obtain ⟨h, hleast⟩ := (productive_iff_leastHeight hg).mp hc
  have hspec : ∃ c, g.LeastHeight c (Nat.findGreatest (fun h => ∃ c, g.LeastHeight c h) g.nonterminals.length) :=
    Nat.findGreatest_spec (P := fun h => ∃ c, g.LeastHeight c h) (hleast.le_length hg) ⟨c, hleast⟩
  refine ⟨_, ⟨hspec, fun d h' hd => ?_⟩, Nat.findGreatest_le _⟩
  exact Nat.le_findGreatest (hd.le_length hg) ⟨d, hd⟩

/-! ## The account of one growth -/

/-- **The tree of one growth and the numbers that it takes**, where no shortest tree is higher than `top`: one choice
for each node, which makes one less than twice the length of the word. -/
structure Account (g : Grammar) (maxDepth top : Nat) (c : Char) (t : Tree) (numbers : List UInt32) : Prop where
  fits : t.Fits g
  root : t.root = c
  height_le : t.height ≤ maxDepth + top
  length_pos : 1 ≤ t.yield.length
  length_le : t.yield.length ≤ 2 ^ (maxDepth + top - 1)
  choices : ∃ pieces, pieces.length = 2 * t.yield.length - 1 ∧ pieces.flatten = numbers ∧
    List.Forall₂ (g.Decides g.leastHeights) (t.expansions maxDepth) pieces

theorem exists_account (hg : g.WellFormed) (htop : ∀ c h, g.LeastHeight c h → h ≤ top)
    (hrun : (g.growTree maxDepth c).run.run d = (.ok t, d')) :
    ∃ numbers, d.Gives numbers d' ∧ g.Account maxDepth top c t numbers := by
  obtain ⟨hroot, -, pieces, hpieces, hgives⟩ := run_grow_eq_ok_iff.mp hrun
  obtain ⟨-, hgrown⟩ := grown_of_grow hrun
  have hheight := ((hgrown.fits.grown_iff hg).mp hgrown).height_le htop
  refine ⟨pieces.flatten, hgives, hgrown.fits, hroot, hheight, t.length_yield_pos, ?_, pieces, ?_, rfl, hpieces⟩
  · have hpos := t.height_pos
    have hlen := t.two_mul_length_yield_le
    have hpow : 2 ^ t.height ≤ 2 ^ (maxDepth + top - 1 + 1) := Nat.pow_le_pow_right Nat.two_pos (by omega)
    rw [Nat.pow_succ] at hpow
    omega
  · have hsize := t.size_add_one
    rw [← hpieces.length_eq, t.length_expansions]
    omega

/-- **Growth ends, whatever the numbers, and is bounded.** From a symbol that derives a word it never goes deeper than
the depth bound and a shortest tree together, so that any limit from there on makes no difference. On an endless source
on which each choice ends it returns a word, and from a finite supply unless that runs dry. The word has at least
one letter and at most as many as a full tree of that height has leaves, and it takes one choice for each node. -/
theorem growTree_bounded (hg : g.Reachable) (hc : g.Productive c) :
    ∃ top, g.Tallest top ∧ top ≤ g.nonterminals.length ∧ ∀ maxDepth,
      (∀ limit, maxDepth + top ≤ limit →
        g.grow g.leastHeights limit maxDepth c = g.growTree maxDepth c) ∧
      (∀ σ, g.EndsOn σ maxDepth c → ∃ t k, (g.growTree maxDepth c).Returns σ 0 t k ∧
        (g.randomWordFrom maxDepth c).Returns σ 0 t.yield k ∧
        g.Account maxDepth top c t ((List.range k).map σ)) ∧
      ∀ d, (∃ t d' numbers, (g.growTree maxDepth c).run.run d = (.ok t, d') ∧
          (g.randomWordFrom maxDepth c).run.run d = (.ok t.yield, d') ∧ d.Gives numbers d' ∧
          g.Account maxDepth top c t numbers) ∨
        ∃ d', (g.randomWordFrom maxDepth c).run.run d = (.error .outOfDraws, d') ∧ d'.size = 0 := by
  have hwf := hg.wellFormed
  obtain ⟨top, htallest, hle⟩ := exists_tallest hwf hc
  refine ⟨top, htallest, hle, fun maxDepth => ⟨fun limit hlimit => ?_, fun σ hends => ?_, fun d => ?_⟩⟩
  · -- `maxDepth + top` is a limit that leaves room, so both limits above it go the same way
    have hroomy := roomy_of_forall_le hwf hc htallest.2 (Nat.le_refl (maxDepth + top))
    rw [growTree, ← grow_eq_of_roomy hwf hroomy hlimit]
    exact grow_eq_of_roomy hwf hroomy (Nat.add_le_add_left hle maxDepth)
  · obtain ⟨t, k, ht⟩ := exists_returns_grow hwf (roomy_of_productive hwf hc) hends
    refine ⟨t, k, ht, ht.bind (Growth.returns_pure t.yield), ?_⟩
    obtain ⟨u, rfl, hrun⟩ := ht
    obtain ⟨numbers, hgives, haccount⟩ := exists_account hwf htallest.2 (hrun 0)
    rwa [hgives.eq_map_range' Draws.size_window, Nat.add_zero, ← List.range_eq_range', ← Nat.zero_add u] at haccount
  · rcases run_randomWordFrom_of_productive hwf hc d with ⟨w, d', hrun⟩ | hdry
    · obtain ⟨t, htree, rfl⟩ := run_randomWordFrom_eq_ok_iff.mp hrun
      obtain ⟨numbers, hgives, haccount⟩ := exists_account hwf htallest.2 htree
      exact .inl ⟨t, d', numbers, htree, hrun, hgives, haccount⟩
    · exact .inr hdry

theorem thicket_grows_at_most_eight : thicket.Reachable ∧ thicket.Productive 'S' ∧ thicket.Tallest 1 ∧
    thicket.EndsOn (fun _ => 0) 3 'S' ∧ ∃ (t : Tree) (k : Nat),
      (thicket.randomWordFrom 3 'S').Returns (fun _ => 0) 0 t.yield k ∧ t.height ≤ 4 ∧ t.yield.length ≤ 8 := by
  have hS : thicket.LeastHeight 'S' 1 :=
    (get?_leastHeights_eq_some_iff reachable_thicket.wellFormed).mp (by decide +kernel)
  have hc : thicket.Productive 'S' := (productive_iff_leastHeight reachable_thicket.wellFormed).mpr ⟨1, hS⟩
  have hends : thicket.EndsOn (fun _ => 0) 3 'S' := by
    refine choicesEnd_of_forall fun n k hn => ⟨k, Nat.le_refl k, ?_⟩
    rw [pick_zero hn]
    exact Option.some_ne_none 0
  obtain ⟨top, htallest, -, hgrowth⟩ := growTree_bounded reachable_thicket hc
  obtain ⟨d, hd⟩ := htallest.1
  obtain rfl : top = 1 := Nat.le_antisymm (le_one_of_leastHeight_thicket hd) (htallest.2 'S' 1 hS)
  obtain ⟨t, k, -, hreturns, haccount⟩ := (hgrowth 3).2.1 (fun _ => 0) hends
  exact ⟨reachable_thicket, hc, htallest, hends, t, k, hreturns, haccount.height_le, haccount.length_le⟩

/-- The bound is reached. -/
example : ((thicket.randomWordFrom 3 'S').run.run ⟨List.replicate 15 0, 0, 0⟩).1 = .ok (List.replicate 8 'a') := by
  decide +kernel

end Grammar

end Chomsky
