import Chomsky.Proofs.Tree.Success

/-!
# The words that can grow below a depth bound

Above the depth bound a node may choose any alternative that derives a word, from the bound on only those of least
height. So the trees that can grow are told by the depths of their nodes alone: the words are the yields of the trees
whose nodes at the bound or deeper begin with an alternative of least height.

* `Tree.At`, `Tree.BeginsLeast`, **`Tree.LeastFrom`**: the nodes of a tree by depth;
* **`Fits.grown_iff`**: the trees that can grow;
* `LeastFrom.leastHeight`, **`LeastFrom.height_le`**, `two_mul_length_yield_le`: how high they are, and how long their
  yields;
* `Grammar.CanGrow`, **`canGrow_iff_least_beyond_depth`**: the words that can grow.
-/

namespace Chomsky

variable {g : Grammar} {c : Char} {w : Word} {h depth room maxDepth top : Nat}

/-! ## Nodes by depth -/

namespace Tree

/-- **A subtree**, and the depth of its root below the root of the whole tree. -/
inductive At : Tree → Nat → Tree → Prop where
  | root (t : Tree) : At t 0 t
  | left {c : Char} {l r s : Tree} {k : Nat} (h : At l k s) : At (branch c l r) (k + 1) s
  | right {c : Char} {l r s : Tree} {k : Nat} (h : At r k s) : At (branch c l r) (k + 1) s

/-- The alternative at the root has the least height of its nonterminal. -/
def BeginsLeast (g : Grammar) (t : Tree) : Prop := ∃ h, t.alternative.LeastHeight g h ∧ g.LeastHeight t.root h

/-- **From a depth on every node has an alternative of least height.** -/
def LeastFrom (g : Grammar) (depth : Nat) (t : Tree) : Prop := ∀ k s, t.At k s → depth ≤ k → s.BeginsLeast g

theorem leastFrom_leaf {a : Char} :
    (leaf c a).LeastFrom g depth ↔ (depth = 0 → (leaf c a).BeginsLeast g) := by
  constructor
  · rintro h rfl
    exact h 0 _ (.root _) (Nat.le_refl 0)
  · intro h k s hs hk
    cases hs
    exact h (Nat.le_zero.mp hk)

theorem leastFrom_branch {l r : Tree} : (branch c l r).LeastFrom g depth ↔
    (depth = 0 → (branch c l r).BeginsLeast g) ∧ l.LeastFrom g (depth - 1) ∧ r.LeastFrom g (depth - 1) := by
  constructor
  · intro h
    refine ⟨?_, fun k s hs hk => h (k + 1) s (.left hs) (by omega), fun k s hs hk => h (k + 1) s (.right hs) (by omega)⟩
    rintro rfl
    exact h 0 _ (.root _) (Nat.le_refl 0)
  · rintro ⟨hroot, hl, hr⟩ k s hs hk
    cases hs with
    | root => exact hroot (Nat.le_zero.mp hk)
    | left hs => exact hl _ s hs (by omega)
    | right hs => exact hr _ s hs (by omega)

theorem LeastFrom.mono {depth' : Nat} {t : Tree} (ht : t.LeastFrom g depth) (hle : depth ≤ depth') :
    t.LeastFrom g depth' := fun k s hs hk => ht k s hs (Nat.le_trans hle hk)

/-! ## The trees that can grow -/

theorem Fits.offers_iff (hg : g.WellFormed) {t : Tree} (ht : t.Fits g) :
    g.Offers g.leastHeights room t.root t.alternative ↔ (room = 0 → t.BeginsLeast g) := by
  constructor
  · intro hoffers hroom
    obtain ⟨m, hm, hleast⟩ := hoffers.leastHeight hg
    exact ⟨m, hm, hleast hroom⟩
  · intro hleast
    rcases Nat.eq_zero_or_pos room with rfl | hpos
    · obtain ⟨m, hm, hroot⟩ := hleast rfl
      refine Grammar.offers_iff.mpr ⟨ht.alternative_mem, m, ?_, ?_⟩
      · exact (Grammar.get?_leastHeights_eq_some_iff hg).mpr hroot
      · rw [Alternative.isCandidate, (Grammar.height?_leastHeights_eq_some_iff hg).mpr hm]
        simp
    · exact ht.offers hg hpos

/-- **The trees that can grow** are those that have least alternatives from the depth bound on. -/
theorem Fits.grown_iff (hg : g.WellFormed) {t : Tree} (ht : t.Fits g) :
    t.Grown g g.leastHeights room ↔ t.LeastFrom g room := by
  induction t generalizing room with
  | leaf c a => exact (ht.offers_iff hg).trans leastFrom_leaf.symm
  | branch c l r ihl ihr =>
    rw [leastFrom_branch, ← ht.offers_iff hg, ← ihl ht.2.1, ← ihr ht.2.2]
    rfl

/-! ## How high they are -/

theorem LeastFrom.leastHeight {t : Tree} (ht : t.LeastFrom g 0) : g.LeastHeight t.root t.height := by
  induction t with
  | leaf c a =>
    obtain ⟨_, rfl, hc⟩ := leastFrom_leaf.mp ht rfl
    exact hc
  | branch c l r ihl ihr =>
    obtain ⟨hroot, hl, hr⟩ := leastFrom_branch.mp ht
    obtain ⟨_, ⟨m, n, hm, hn, rfl⟩, hc⟩ := hroot rfl
    rw [hm.unique (ihl hl), hn.unique (ihr hr)] at hc
    exact hc

/-- **Below the depth bound there is at most a shortest tree.** -/
theorem LeastFrom.height_le (htop : ∀ c h, g.LeastHeight c h → h ≤ top) {t : Tree} (ht : t.LeastFrom g depth) :
    t.height ≤ depth + top := by
  induction t generalizing depth with
  | leaf c a =>
    rcases Nat.eq_zero_or_pos depth with rfl | hpos
    · have := htop _ _ ht.leastHeight
      omega
    · show 1 ≤ depth + top
      omega
  | branch c l r ihl ihr =>
    rcases Nat.eq_zero_or_pos depth with rfl | hpos
    · have := htop _ _ ht.leastHeight
      omega
    · obtain ⟨-, hl, hr⟩ := leastFrom_branch.mp ht
      have := ihl hl
      have := ihr hr
      show 1 + max l.height r.height ≤ depth + top
      omega

theorem two_mul_length_yield_le : ∀ t : Tree, 2 * t.yield.length ≤ 2 ^ t.height
  | leaf _ _ => Nat.le_refl 2
  | branch c l r => by
    have hl := l.two_mul_length_yield_le
    have hr := r.two_mul_length_yield_le
    have hl' := Nat.pow_le_pow_right Nat.two_pos (Nat.le_max_left l.height r.height)
    have hr' := Nat.pow_le_pow_right Nat.two_pos (Nat.le_max_right l.height r.height)
    have hpow : 2 ^ (branch c l r).height = 2 * 2 ^ max l.height r.height := by
      rw [height, Nat.pow_add, Nat.pow_one]
    rw [hpow, yield, List.length_append]
    omega

end Tree

/-! ## The words that can grow -/

namespace Grammar

/-- **Some numbers make a symbol grow into a word.** -/
def CanGrow (g : Grammar) (maxDepth : Nat) (c : Char) (w : Word) : Prop :=
  ∃ script : List UInt32, ((g.randomWordFrom maxDepth c).run.run ⟨script, 0, 0⟩).1 = .ok w

theorem canGrow_of_leastFrom (hg : g.WellFormed) {t : Tree} (ht : t.Fits g) (hleast : t.LeastFrom g maxDepth) :
    g.CanGrow maxDepth t.root t.yield := by
  have hheight := hleast.height_le fun _ _ hd => hd.le_length hg
  obtain ⟨script, -, hscript⟩ := exists_script_of_grown (fun c => hg.length_alternatives_lt c)
    ((ht.grown_iff hg).mpr hleast) hheight
  have hrun := run_randomWordFrom_eq_ok_iff.mpr ⟨t, hscript [] 0 0, rfl⟩
  rw [List.append_nil] at hrun
  exact ⟨script, congrArg Prod.fst hrun⟩

theorem canGrow_iff (hg : g.WellFormed) : g.CanGrow maxDepth c w ↔
    ∃ t : Tree, t.Fits g ∧ t.root = c ∧ t.yield = w ∧ t.LeastFrom g maxDepth := by
  constructor
  · rintro ⟨script, hrun⟩
    obtain ⟨t, hgrow, hyield⟩ := run_randomWordFrom_eq_ok_iff.mp (Prod.ext hrun rfl)
    obtain ⟨hroot, hgrown⟩ := grown_of_grow hgrow
    exact ⟨t, hgrown.fits, hroot, hyield, (hgrown.fits.grown_iff hg).mp hgrown⟩
  · rintro ⟨t, ht, rfl, rfl, hleast⟩
    exact canGrow_of_leastFrom hg ht hleast

/-- **The words that can grow from a symbol below a depth bound**: the yields of the trees in which every node at
the bound or deeper has an alternative of least height. So every tree within the bound can grow, the bound zero
leaves only lowest trees, and a higher bound loses no word. -/
theorem canGrow_iff_least_beyond_depth (hg : g.Reachable) (c : Char) :
    (∀ maxDepth w, g.CanGrow maxDepth c w ↔
      ∃ t : Tree, t.Fits g ∧ t.root = c ∧ t.yield = w ∧ ∀ k s, t.At k s → maxDepth ≤ k →
        ∃ h, s.alternative.LeastHeight g h ∧ g.LeastHeight s.root h) ∧
    (∀ maxDepth (t : Tree), t.Fits g → t.root = c → t.height ≤ maxDepth → g.CanGrow maxDepth c t.yield) ∧
    (∀ w, g.CanGrow 0 c w → ∃ t : Tree, t.Fits g ∧ t.root = c ∧ t.yield = w ∧ g.LeastHeight c t.height) ∧
    ∀ maxDepth maxDepth' w, maxDepth ≤ maxDepth' → g.CanGrow maxDepth c w → g.CanGrow maxDepth' c w := by
  have hwf := hg.wellFormed
  refine ⟨fun maxDepth w => canGrow_iff hwf, fun maxDepth t ht hroot hheight => ?_, fun w hw => ?_,
    fun maxDepth maxDepth' w hle hw => ?_⟩
  · subst hroot
    exact canGrow_of_leastFrom hwf ht ((ht.grown_iff hwf).mp (ht.grown hwf hheight))
  · obtain ⟨t, ht, rfl, hyield, hleast⟩ := (canGrow_iff hwf).mp hw
    exact ⟨t, ht, rfl, hyield, hleast.leastHeight⟩
  · obtain ⟨t, ht, hroot, hyield, hleast⟩ := (canGrow_iff hwf).mp hw
    exact (canGrow_iff hwf).mpr ⟨t, ht, hroot, hyield, hleast.mono hle⟩

theorem le_one_of_leastHeight_thicket (hc : thicket.LeastHeight c h) : h ≤ 1 := by
  have htable : thicket.leastHeights = [('S', 1)] := by decide +kernel
  have hget := (get?_leastHeights_eq_some_iff reachable_thicket.wellFormed).mpr hc
  rw [htable, Heights.get?, lookup_cons_ite] at hget
  split at hget
  · exact Nat.le_of_eq (Option.some.inj hget).symm
  · cases hget

theorem thicket_grows_aa : thicket.Reachable ∧ thicket.CanGrow 1 'S' ['a', 'a'] ∧
    thicket.CanGrow 7 'S' ['a', 'a'] ∧ ¬ thicket.CanGrow 0 'S' ['a', 'a'] ∧
    ¬ thicket.CanGrow 1 'S' ['a', 'a', 'a'] := by
  obtain ⟨hiff, -, -, hmono⟩ := canGrow_iff_least_beyond_depth reachable_thicket 'S'
  have htwo : thicket.CanGrow 1 'S' ['a', 'a'] := ⟨[0, 0, 0], by decide +kernel⟩
  have hlong : ∀ maxDepth w, thicket.CanGrow maxDepth 'S' w → 2 * w.length ≤ 2 ^ (maxDepth + 1) := by
    intro maxDepth w hw
    obtain ⟨t, -, -, rfl, hleast⟩ := (hiff maxDepth w).mp hw
    have hheight := Tree.LeastFrom.height_le (fun _ _ => le_one_of_leastHeight_thicket) hleast
    exact Nat.le_trans t.two_mul_length_yield_le (Nat.pow_le_pow_right Nat.two_pos hheight)
  refine ⟨reachable_thicket, htwo, hmono 1 7 _ (by decide) htwo, fun hw => ?_, fun hw => ?_⟩
  · exact absurd (hlong 0 _ hw) (by decide)
  · exact absurd (hlong 1 _ hw) (by decide)

end Grammar

end Chomsky
