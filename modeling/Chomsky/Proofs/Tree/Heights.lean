import Chomsky.Tree.Heights
import Chomsky.Proofs.Grammar.WellFormed
import Mathlib.Data.List.Perm.Subperm
import Mathlib.Data.Nat.Find

/-!
# Least heights are exact

The table of least heights holds, for each nonterminal that has a derivation tree, the height of the
smallest one. Under a nonterminal of least height `h` there are nonterminals of every smaller least
height, so `h` is at most the number of nonterminals and enough rounds were made.

* **`get?_heightsWithin_eq_some_iff`**: one table for each number of rounds;
* `LeastHeight.le_length`, **`get?_leastHeights_eq_some_iff`**.
-/

namespace Chomsky

variable {g : Grammar} {heights : Heights} {c : Char} {h k : Nat}

/-! ## Trees and alternatives -/

namespace Tree

theorem height_pos : ∀ t : Tree, 0 < t.height
  | leaf _ _ => Nat.one_pos
  | branch _ _ _ => by rw [height]; omega

theorem Fits.alternative_mem {t : Tree} (ht : t.Fits g) : t.alternative ∈ g.alternatives t.root := by
  cases t with
  | leaf c a => exact (g.mem_alternatives).mpr ht
  | branch c l r => exact (g.mem_alternatives).mpr ht.1

theorem Fits.root_mem (hg : g.WellFormed) {t : Tree} (ht : t.Fits g) : t.root ∈ g.nonterminals :=
  hg.head _ ((g.mem_alternatives).mp ht.alternative_mem)

end Tree

namespace Grammar

/-- The height of the smallest derivation trees of a nonterminal. -/
def LeastHeight (g : Grammar) (c : Char) (h : Nat) : Prop :=
  (∃ t : Tree, t.Fits g ∧ t.root = c ∧ t.height = h) ∧
    ∀ t : Tree, t.Fits g → t.root = c → h ≤ t.height

theorem LeastHeight.unique {h' : Nat} (h1 : g.LeastHeight c h) (h2 : g.LeastHeight c h') : h = h' := by
  obtain ⟨⟨t, ht, hc, rfl⟩, hmin⟩ := h1
  obtain ⟨⟨t', ht', hc', rfl⟩, hmin'⟩ := h2
  exact Nat.le_antisymm (hmin t' ht' hc') (hmin' t ht hc)

theorem exists_leastHeight {t : Tree} (ht : t.Fits g) :
    ∃ h, g.LeastHeight t.root h ∧ h ≤ t.height := by
  classical
  have hex : ∃ h, ∃ t' : Tree, t'.Fits g ∧ t'.root = t.root ∧ t'.height = h := ⟨_, t, ht, rfl, rfl⟩
  refine ⟨Nat.find hex, ⟨Nat.find_spec hex, fun t' ht' hc => ?_⟩, ?_⟩
  · exact Nat.find_min' hex ⟨t', ht', hc, rfl⟩
  · exact Nat.find_min' hex ⟨t, ht, rfl, rfl⟩

theorem LeastHeight.mem_nonterminals (hg : g.WellFormed) (h1 : g.LeastHeight c h) :
    c ∈ g.nonterminals := by
  obtain ⟨⟨t, ht, rfl, -⟩, -⟩ := h1
  exact ht.root_mem hg

end Grammar

/-! ## One alternative -/

/-- The height of the smallest trees that begin with an alternative, by the least heights of its symbols. -/
def Alternative.LeastHeight (g : Grammar) : Alternative → Nat → Prop
  | unary _, h => h = 1
  | binary l r, h => ∃ hl hr, g.LeastHeight l hl ∧ g.LeastHeight r hr ∧ h = 1 + Nat.max hl hr

theorem Alternative.LeastHeight.exists_tree {a : Alternative} (ha : a ∈ g.alternatives c)
    (h1 : a.LeastHeight g h) : ∃ t : Tree, t.Fits g ∧ t.root = c ∧ t.alternative = a ∧ t.height = h := by
  have hp := (g.mem_alternatives).mp ha
  cases a with
  | unary a => exact ⟨.leaf c a, hp, rfl, rfl, h1.symm⟩
  | binary l r =>
    obtain ⟨_, _, ⟨⟨tl, hl, rfl, rfl⟩, -⟩, ⟨⟨tr, hr, rfl, rfl⟩, -⟩, rfl⟩ := h1
    exact ⟨.branch c tl tr, ⟨hp, hl, hr⟩, rfl, rfl, rfl⟩

theorem Tree.Fits.exists_leastHeight {t : Tree} (ht : t.Fits g) :
    ∃ h, t.alternative.LeastHeight g h ∧ h ≤ t.height := by
  cases t with
  | leaf c a => exact ⟨1, rfl, Nat.le_refl 1⟩
  | branch c l r =>
    obtain ⟨-, hl, hr⟩ := ht
    obtain ⟨m, hm, hml⟩ := Grammar.exists_leastHeight hl
    obtain ⟨n, hn, hnr⟩ := Grammar.exists_leastHeight hr
    refine ⟨_, ⟨m, n, hm, hn, rfl⟩, ?_⟩
    show 1 + max m n ≤ 1 + max l.height r.height
    omega

/-- **The least height of a nonterminal is the least among its alternatives.** -/
theorem Grammar.leastHeight_iff_least : g.LeastHeight c h ↔
    (∃ a ∈ g.alternatives c, a.LeastHeight g h) ∧
      ∀ a ∈ g.alternatives c, ∀ h', a.LeastHeight g h' → h ≤ h' := by
  constructor
  · rintro ⟨⟨t, ht, rfl, rfl⟩, hmin⟩
    have hle : ∀ a ∈ g.alternatives t.root, ∀ h', a.LeastHeight g h' → t.height ≤ h' := by
      intro a ha h' h1
      obtain ⟨t', ht', hc, -, rfl⟩ := h1.exists_tree ha
      exact hmin t' ht' hc
    obtain ⟨m, hm, hmt⟩ := ht.exists_leastHeight
    have heq := Nat.le_antisymm (hle _ ht.alternative_mem m hm) hmt
    exact ⟨⟨_, ht.alternative_mem, heq ▸ hm⟩, hle⟩
  · rintro ⟨⟨a, ha, h1⟩, hmin⟩
    obtain ⟨t', ht', hc', -, hheight⟩ := h1.exists_tree ha
    refine ⟨⟨t', ht', hc', hheight⟩, fun t ht hc => ?_⟩
    subst hc
    obtain ⟨m, hm, hmt⟩ := ht.exists_leastHeight
    exact Nat.le_trans (hmin _ ht.alternative_mem m hm) hmt

/-! ## Tables -/

theorem least?_eq_none_iff {ns : List Nat} : least? ns = none ↔ ns = [] := by
  cases ns with
  | nil => simp [least?]
  | cons n ns => rw [least?]; split <;> simp

theorem least?_eq_some_iff {ns : List Nat} : least? ns = some h ↔ h ∈ ns ∧ ∀ n ∈ ns, h ≤ n := by
  induction ns generalizing h with
  | nil => simp [least?]
  | cons n ns ih =>
    rw [least?]
    cases hm : least? ns with
    | none =>
      rw [least?_eq_none_iff.mp hm]
      simp only [Option.some.injEq, List.mem_singleton, forall_eq]
      exact ⟨fun e => ⟨e.symm, Nat.le_of_eq e.symm⟩, fun e => e.1.symm⟩
    | some m =>
      obtain ⟨h1, h2⟩ := ih.mp hm
      show some (min n m) = some h ↔ _
      simp only [Option.some.injEq, List.mem_cons, forall_eq_or_imp]
      constructor
      · rintro rfl
        refine ⟨?_, Nat.min_le_left n m, fun k hk => Nat.le_trans (Nat.min_le_right n m) (h2 k hk)⟩
        rcases Nat.le_total n m with hnm | hmn
        · exact .inl (Nat.min_eq_left hnm)
        · rw [Nat.min_eq_right hmn]
          exact .inr h1
      · rintro ⟨rfl | hmem, hn, hns⟩
        · exact Nat.min_eq_left (hns m h1)
        · rw [Nat.le_antisymm (hns m h1) (h2 h hmem)]
          exact Nat.min_eq_right (Nat.le_trans (h2 h hmem) hn)

theorem Alternative.height?_binary_eq_some_iff {l r : Char} :
    (binary l r).height? heights = some h ↔
      ∃ m n, heights.get? l = some m ∧ heights.get? r = some n ∧ h = 1 + Nat.max m n := by
  simp only [height?, Option.bind_eq_bind, Option.bind_eq_some_iff, Option.pure_def,
    Option.some.injEq]
  constructor
  · rintro ⟨m, hm, n, hn, rfl⟩
    exact ⟨m, n, hm, hn, rfl⟩
  · rintro ⟨m, n, hm, hn, rfl⟩
    exact ⟨m, hm, n, hn, rfl⟩

theorem lookup_filterMap (f : Char → Option Nat) (cs : List Char) :
    (cs.filterMap fun c => (f c).map (c, ·)).lookup c = if c ∈ cs then f c else none := by
  induction cs with
  | nil => rfl
  | cons d cs ih =>
    cases hd : f d with
    | none =>
      rw [List.filterMap_cons_none (by rw [hd]; rfl), ih]
      by_cases hcd : c = d
      · subst hcd
        simp [hd]
      · simp [hcd]
    | some n =>
      rw [List.filterMap_cons_some (by rw [hd]; rfl), List.lookup_cons]
      by_cases hcd : c = d
      · subst hcd
        simp [hd]
      · simp [beq_false_of_ne hcd, hcd, ih]

namespace Grammar

theorem get?_heightsOver : (g.heightsOver heights).get? c =
    if c ∈ g.nonterminals then g.heightOver heights c else none := lookup_filterMap _ _

theorem heightOver_eq_some_iff : g.heightOver heights c = some h ↔
    (∃ a ∈ g.alternatives c, a.height? heights = some h) ∧
      ∀ a ∈ g.alternatives c, ∀ h', a.height? heights = some h' → h ≤ h' := by
  rw [heightOver, least?_eq_some_iff]
  simp only [List.mem_filterMap]
  refine and_congr_right fun _ => ⟨fun h1 a ha h' h2 => h1 h' ⟨a, ha, h2⟩, ?_⟩
  rintro h1 h' ⟨a, ha, h2⟩
  exact h1 a ha h' h2

theorem height?_eq_some_iff (hex : ∀ c h, heights.get? c = some h ↔ g.LeastHeight c h ∧ h ≤ k)
    {a : Alternative} : a.height? heights = some h ↔ a.LeastHeight g h ∧ h ≤ k + 1 := by
  cases a with
  | unary a =>
    simp only [Alternative.height?, Alternative.LeastHeight, Option.some.injEq]
    omega
  | binary l r =>
    simp only [Alternative.height?_binary_eq_some_iff, Alternative.LeastHeight, hex]
    constructor
    · rintro ⟨m, n, ⟨hm, hmk⟩, ⟨hn, hnk⟩, rfl⟩
      refine ⟨⟨m, n, hm, hn, rfl⟩, ?_⟩
      show 1 + max m n ≤ k + 1
      omega
    · rintro ⟨⟨m, n, hm, hn, rfl⟩, hle⟩
      have hle' : 1 + max m n ≤ k + 1 := hle
      exact ⟨m, n, ⟨hm, by omega⟩, ⟨hn, by omega⟩, rfl⟩

/-- **The table of `k` rounds holds the least heights up to `k`.** -/
theorem get?_heightsWithin_eq_some_iff (hg : g.WellFormed) :
    (g.heightsWithin k).get? c = some h ↔ g.LeastHeight c h ∧ h ≤ k := by
  induction k generalizing c h with
  | zero =>
    refine ⟨fun h1 => (nomatch h1), ?_⟩
    rintro ⟨⟨⟨t, -, -, rfl⟩, -⟩, hle⟩
    exact absurd t.height_pos (by omega)
  | succ k ih =>
    rw [heightsWithin, get?_heightsOver]
    have hheight := fun a h' => height?_eq_some_iff (fun c h => ih (c := c) (h := h)) (a := a) (h := h')
    have hover : g.heightOver (g.heightsWithin k) c = some h ↔ g.LeastHeight c h ∧ h ≤ k + 1 := by
      rw [heightOver_eq_some_iff, leastHeight_iff_least]
      simp only [hheight]
      constructor
      · rintro ⟨⟨a, ha, h1, hle⟩, hmin⟩
        refine ⟨⟨⟨a, ha, h1⟩, fun b hb h' h2 => ?_⟩, hle⟩
        -- an alternative that is too high for the table is higher than the one found
        rcases Nat.le_total h' (k + 1) with hh | hh
        · exact hmin b hb h' ⟨h2, hh⟩
        · exact Nat.le_trans hle hh
      · rintro ⟨⟨⟨a, ha, h1⟩, hmin⟩, hle⟩
        exact ⟨⟨a, ha, h1, hle⟩, fun b hb h' h2 => hmin b hb h' h2.1⟩
    split
    · exact hover
    · rename_i hc
      exact ⟨fun h1 => (nomatch h1), fun h1 => absurd (h1.1.mem_nonterminals hg) hc⟩

/-! ## Enough rounds -/

theorem LeastHeight.pred (h1 : g.LeastHeight c (h + 1)) (hpos : 0 < h) : ∃ d, g.LeastHeight d h := by
  obtain ⟨⟨a, -, ha⟩, -⟩ := leastHeight_iff_least.mp h1
  cases a with
  | unary a =>
    have : h + 1 = 1 := ha
    omega
  | binary l r =>
    obtain ⟨m, n, hm, hn, he⟩ := ha
    have he' : h + 1 = 1 + max m n := he
    rcases Nat.le_total m n with hmn | hnm
    · rw [Nat.max_eq_right hmn] at he'
      obtain rfl : h = n := by omega
      exact ⟨r, hn⟩
    · rw [Nat.max_eq_left hnm] at he'
      obtain rfl : h = m := by omega
      exact ⟨l, hm⟩

/-- Below a nonterminal of least height `h` there are `h` nonterminals, itself among them, no two of
the same least height. -/
theorem LeastHeight.exists_ladder (h1 : g.LeastHeight c h) :
    ∃ ds : List Char, ds.Nodup ∧ ds.length = h ∧ ∀ d ∈ ds, ∃ k ≤ h, g.LeastHeight d k := by
  induction h generalizing c with
  | zero => exact ⟨[], List.nodup_nil, rfl, fun _ hd => absurd hd List.not_mem_nil⟩
  | succ h ih =>
    rcases Nat.eq_zero_or_pos h with rfl | hpos
    · exact ⟨[c], by simp, rfl, fun d hd => ⟨1, Nat.le_refl 1, List.mem_singleton.mp hd ▸ h1⟩⟩
    · obtain ⟨d, hd⟩ := h1.pred hpos
      obtain ⟨ds, hnodup, hlen, hds⟩ := ih hd
      refine ⟨c :: ds, List.nodup_cons.mpr ⟨fun hc => ?_, hnodup⟩, by rw [List.length_cons, hlen], ?_⟩
      · obtain ⟨k, hk, hck⟩ := hds c hc
        have := h1.unique hck
        omega
      · intro e he
        rcases List.mem_cons.mp he with rfl | he
        · exact ⟨h + 1, Nat.le_refl _, h1⟩
        · obtain ⟨k, hk, hek⟩ := hds e he
          exact ⟨k, by omega, hek⟩

theorem LeastHeight.le_length (hg : g.WellFormed) (h1 : g.LeastHeight c h) :
    h ≤ g.nonterminals.length := by
  obtain ⟨ds, hnodup, rfl, hds⟩ := h1.exists_ladder
  refine (List.subperm_of_subset hnodup fun d hd => ?_).length_le
  obtain ⟨k, -, hdk⟩ := hds d hd
  exact hdk.mem_nonterminals hg

/-- **The table of least heights is exact.** -/
theorem get?_leastHeights_eq_some_iff (hg : g.WellFormed) :
    g.leastHeights.get? c = some h ↔ g.LeastHeight c h := by
  rw [leastHeights, get?_heightsWithin_eq_some_iff hg]
  exact and_iff_left_of_imp fun h1 => h1.le_length hg

theorem height?_leastHeights_eq_some_iff (hg : g.WellFormed) {a : Alternative} :
    a.height? g.leastHeights = some h ↔ a.LeastHeight g h := by
  cases a with
  | unary a => simp [Alternative.height?, Alternative.LeastHeight, eq_comm]
  | binary l r =>
    simp only [Alternative.height?_binary_eq_some_iff, Alternative.LeastHeight,
      get?_leastHeights_eq_some_iff hg]

end Grammar

end Chomsky
