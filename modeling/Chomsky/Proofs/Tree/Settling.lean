import Chomsky.Proofs.Tree.Success
import Chomsky.Proofs.Tree.Scan
import Mathlib.Algebra.Order.BigOperators.Group.List

/-!
# Scanning until nothing changes

A production that changes the table gives its head a first height, so that the table says nothing of one
nonterminal less, or it lowers a height. Both cannot go on for ever, whatever the table is to begin with: so the loop
that scans until nothing changes is a function. From the empty table it comes to the least heights of all trees.

* `Heights.unset`, `Heights.total`, **`Heights.Lower`**: what each change brings down;
* **`Grammar.settle`**: the loop;
* **`settle_gives_least_heights`**: the table of least heights.
-/

namespace Chomsky

variable {g : Grammar} {heights heights' table : Heights} {c : Char} {h : Nat} {p : Production}

/-! ## What each change brings down -/

namespace Heights

/-- What the table says of each nonterminal, weighed and added up. -/
def weigh (g : Grammar) (weight : Option Nat → Nat) (heights : Heights) : Nat :=
  (g.nonterminals.map fun c => weight (heights.get? c)).sum

/-- How many nonterminals the table says nothing of. -/
def unset (g : Grammar) : Heights → Nat := weigh g fun h? => if h?.isNone then 1 else 0

/-- The sum of all heights in the table. -/
def total (g : Grammar) : Heights → Nat := weigh g (·.getD 0)

/-- **The first table says more than the second**, or the same with lower heights. -/
def Lower (g : Grammar) (heights' heights : Heights) : Prop :=
  heights'.unset g < heights.unset g ∨
    heights'.unset g = heights.unset g ∧ heights'.total g < heights.total g

theorem Lower.trans {heights'' : Heights} (h1 : Lower g heights'' heights') (h2 : Lower g heights' heights) :
    Lower g heights'' heights := by
  unfold Lower at *
  omega

theorem Lower.ne (h1 : Lower g heights' heights) : heights' ≠ heights := by
  rintro rfl
  unfold Lower at h1
  omega

section Weigh

variable {weight : Option Nat → Nat}

theorem weigh_cons_lt (hc : c ∈ g.nonterminals) (hlt : weight (some h) < weight (heights.get? c)) :
    weigh g weight ((c, h) :: heights) < weigh g weight heights := by
  refine List.sum_lt_sum _ _ (fun d _ => ?_) ⟨c, hc, by rwa [get?_cons, if_pos rfl]⟩
  rw [get?_cons]
  split
  · subst d
    exact Nat.le_of_lt hlt
  · exact Nat.le_refl _

theorem weigh_cons_eq (heq : weight (some h) = weight (heights.get? c)) :
    weigh g weight ((c, h) :: heights) = weigh g weight heights := by
  refine congrArg List.sum (List.map_congr_left fun d _ => ?_)
  rw [get?_cons]
  split
  · subst d
    exact heq
  · rfl

end Weigh

theorem lower_of_improve_ne (hp : p.head ∈ g.nonterminals) (hne : heights.improve p ≠ heights) :
    Lower g (heights.improve p) heights := by
  rcases heights.improve_cases p with ⟨heq, -⟩ | ⟨h, -, heq, hless⟩
  · exact absurd heq hne
  · rw [heq]
    cases hc : heights.get? p.head with
    | none => exact .inl (weigh_cons_lt hp (by simp [hc]))
    | some current =>
      have hlt := hless current hc
      exact .inr ⟨weigh_cons_eq (by simp [hc]), weigh_cons_lt hp (by simpa [hc] using hlt)⟩

theorem foldl_improve_lower_or {ps : List Production} (hps : ∀ p ∈ ps, p.head ∈ g.nonterminals) :
    Lower g (ps.foldl .improve heights) heights ∨ ∀ p ∈ ps, heights.improve p = heights := by
  induction ps generalizing heights with
  | nil => exact .inr fun p hp => absurd hp List.not_mem_nil
  | cons p ps ih =>
    obtain ⟨hp, hps⟩ := List.forall_mem_cons.mp hps
    rw [List.foldl_cons]
    by_cases hsame : heights.improve p = heights
    · rw [hsame]
      exact (ih hps).imp_right fun hrest => List.forall_mem_cons.mpr ⟨hsame, hrest⟩
    · have hlower := lower_of_improve_ne hp hsame
      have hps' : Lower g (ps.foldl .improve (heights.improve p)) (heights.improve p) ∨ _ := ih hps
      rcases hps' with hrest | hrest
      · exact .inl (hrest.trans hlower)
      · rw [Grammar.foldl_improve_eq_self hrest]
        exact .inl hlower

end Heights

namespace Grammar

theorem scan_lower_or : (g.scan heights).Lower g heights ∨ ∀ p ∈ g.listedProductions, heights.improve p = heights :=
  Heights.foldl_improve_lower_or fun _ hp => ((g.mem_listedProductions).mp hp).1

theorem scan_eq_self_iff : g.scan heights = heights ↔ ∀ p ∈ g.listedProductions, heights.improve p = heights := by
  refine ⟨fun hsame => ?_, foldl_improve_eq_self⟩
  exact scan_lower_or.resolve_left fun hlower => hlower.ne hsame

theorem scan_lower (hne : g.scan heights ≠ heights) : (g.scan heights).Lower g heights :=
  scan_lower_or.resolve_right fun hall => hne (scan_eq_self_iff.mpr hall)

/-! ## The loop -/

/-- **The loop**: scans are repeated until one changes nothing. -/
def settle (g : Grammar) (heights : Heights) : Heights :=
  if g.scan heights = heights then heights else settle g (g.scan heights)
termination_by (heights.unset g, heights.total g)
decreasing_by exact Prod.lex_def.mpr (scan_lower ‹_›)

theorem settles_settle (g : Grammar) (heights : Heights) : g.Settles heights (g.settle heights) := by
  induction heights using settle.induct (g := g) with
  | case1 heights hsame =>
    rw [settle, if_pos hsame]
    exact .done hsame
  | case2 heights hne ih =>
    rw [settle, if_neg hne]
    exact .again hne ih

theorem scan_settle (g : Grammar) (heights : Heights) : g.scan (g.settle heights) = g.settle heights := by
  induction heights using settle.induct (g := g) with
  | case1 heights hsame => rw [settle, if_pos hsame, hsame]
  | case2 heights hne ih => rw [settle, if_neg hne, ih]

theorem settles_iff : g.Settles heights table ↔ table = g.settle heights := by
  constructor
  · intro hsettles
    induction hsettles with
    | done hsame => rw [settle, if_pos hsame]
    | again hne _ ih => rw [settle, if_neg hne, ih]
  · rintro rfl
    exact settles_settle g heights

theorem exists_settle_eq_iterate {n : Nat} (hfix : g.scan (g.scan^[n] heights) = g.scan^[n] heights) :
    ∃ k ≤ n, g.settle heights = g.scan^[k] heights := by
  induction n generalizing heights with
  | zero =>
    have hsame : g.scan heights = heights := hfix
    exact ⟨0, Nat.le_refl 0, by rw [settle, if_pos hsame]; rfl⟩
  | succ n ih =>
    by_cases hsame : g.scan heights = heights
    · exact ⟨0, Nat.zero_le _, by rw [settle, if_pos hsame]; rfl⟩
    · obtain ⟨k, hk, hrest⟩ := ih hfix
      exact ⟨k + 1, Nat.succ_le_succ hk, by rw [settle, if_neg hsame, hrest]; rfl⟩

/-! ## The table of least heights -/

/-- **Scanning computes the least heights and stops.** From any table the loop stops, at a table that no
production changes, and from the empty one it does so after no more scans than there are nonterminals and one to
see it. The table then has an entry for the nonterminals that derive a word, which is the least height of their
trees and at most the number of nonterminals. -/
theorem settle_gives_least_heights (hg : g.Reachable) :
    (∀ heights table, g.Settles heights table ↔ table = g.settle heights) ∧
    (∀ heights, ∀ p ∈ g.listedProductions, (g.settle heights).improve p = g.settle heights) ∧
    (∃ k ≤ g.nonterminals.length, g.settle [] = g.scan^[k] []) ∧
    (∀ c, (∃ h, (g.settle []).get? c = some h) ↔
      c ∈ g.nonterminals ∧ ∃ w, g.Derives [c] w ∧ ∀ a ∈ w, a ∈ g.terminals) ∧
    (∀ c h, (g.settle []).get? c = some h ↔ (∃ t : Tree, t.Fits g ∧ t.root = c ∧ t.height = h) ∧
      ∀ t : Tree, t.Fits g → t.root = c → h ≤ t.height) ∧
    (∀ c h, (g.settle []).get? c = some h → 1 ≤ h ∧ h ≤ g.nonterminals.length) ∧
    ∀ c, (g.settle []).get? c = g.leastHeights.get? c := by
  have hwf := hg.wellFormed
  have hleast : ∀ c h, (g.settle []).get? c = some h ↔ g.LeastHeight c h :=
    fun c h => (settles_settle g []).get?_eq_some_iff hwf
  refine ⟨fun _ _ => settles_iff, fun heights => scan_eq_self_iff.mp (scan_settle g heights), ?_, fun c => ?_,
    hleast, fun c h hc => ?_, (settles_settle g []).get?_eq hwf⟩
  · exact exists_settle_eq_iterate (scan_eq_self fun _ _ => get?_iterate_scan hwf)
  · simp only [hleast]
    constructor
    · rintro ⟨h, hc⟩
      have hmem := hc.mem_nonterminals hwf
      have hproductive := (productive_iff_leastHeight hwf).mpr ⟨h, hc⟩
      exact ⟨hmem, (productive_iff_derives fun ht => hwf.not_isNonterminal_of_isTerminal ht hmem).mp hproductive⟩
    · rintro ⟨hmem, hw⟩
      refine (productive_iff_leastHeight hwf).mp ?_
      exact (productive_iff_derives fun ht => hwf.not_isNonterminal_of_isTerminal ht hmem).mpr hw
  · have hc' := (hleast c h).mp hc
    exact ⟨hc'.pos, hc'.le_length hwf⟩

theorem thicket_settles : thicket.Reachable ∧ textbook.Reachable ∧ (thicket.settle []).get? 'S' = some 1 ∧
    'C' ∈ thicket.nonterminals ∧ (thicket.settle []).get? 'C' = none ∧
    (¬ ∃ w, thicket.Derives ['C'] w ∧ ∀ a ∈ w, a ∈ thicket.terminals) ∧
    (textbook.settle []).get? 'S' = some 2 ∧ ∀ t : Tree, t.Fits textbook → t.root = 'S' → 2 ≤ t.height := by
  obtain ⟨-, -, -, hderives, -, -, hsame⟩ := settle_gives_least_heights reachable_thicket
  obtain ⟨-, -, -, -, hleast, -, hsame'⟩ := settle_gives_least_heights reachable_textbook
  have hC : (thicket.settle []).get? 'C' = none := by
    rw [hsame]
    decide +kernel
  have hS : (textbook.settle []).get? 'S' = some 2 := by
    rw [hsame']
    decide +kernel
  refine ⟨reachable_thicket, reachable_textbook, ?_, by decide +kernel, hC, fun hw => ?_, hS, ((hleast 'S' 2).mp hS).2⟩
  · rw [hsame]
    decide +kernel
  · obtain ⟨h, hh⟩ := (hderives 'C').mpr ⟨by decide +kernel, hw⟩
    rw [hC] at hh
    cases hh

end Grammar

end Chomsky
