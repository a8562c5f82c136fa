import Chomsky.Proofs.Grammar.Contents
import Chomsky.Proofs.Tree.Heights

/-!
# Least heights by scanning

The table of least heights can also be found in place. A scan goes through the productions one by one and
lets each lower the height of its head, by whatever the table says at that moment; scans are repeated until
one changes nothing. What the table says in between depends on the order of the productions, what it says
in the end does not.

* `Heights.improve`, `Grammar.scan`, **`Grammar.Settles`**: one production, one scan, all scans;
* `Heights.Within`, **`within_scan`**: a scan gives every head what its productions have to say;
* **`exists_settles`**: scanning comes to an end;
* **`Settles.get?_eq`**: the table in the end is that of the least heights.
-/

namespace Chomsky

variable {g : Grammar} {heights heights' table : Heights} {c : Char} {h k : Nat} {p : Production}

/-! ## One scan -/

/-- A production lowers the height of its head, or gives it a first one. The new entry stands before the old
one, so it is the one that is found. -/
def Heights.improve (heights : Heights) (p : Production) : Heights :=
  match p.alternative.height? heights with
  | none => heights
  | some h => if (heights.get? p.head).all (h < ·) then (p.head, h) :: heights else heights

/-- One scan of all productions, in the order of declaration of their heads. -/
def Grammar.scan (g : Grammar) (heights : Heights) : Heights := g.listedProductions.foldl .improve heights

/-- **Scans are repeated until one changes nothing.** -/
inductive Grammar.Settles (g : Grammar) : Heights → Heights → Prop where
  | done {heights : Heights} (h : g.scan heights = heights) : Settles g heights heights
  | again {heights table : Heights} (h : g.scan heights ≠ heights)
    (rest : Settles g (g.scan heights) table) : Settles g heights table

namespace Heights

theorem get?_cons {d : Char} : get? ((d, h) :: heights) c = if c = d then some h else get? heights c :=
  lookup_cons_ite

/-- The table knows a height of the nonterminal up to `h`. -/
def Within (heights : Heights) (c : Char) (h : Nat) : Prop := ∃ h' ≤ h, heights.get? c = some h'

theorem improve_cases (heights : Heights) (p : Production) :
    (heights.improve p = heights ∧
      ∀ h, p.alternative.height? heights = some h → heights.Within p.head h) ∨
    ∃ h, p.alternative.height? heights = some h ∧ heights.improve p = (p.head, h) :: heights ∧
      ∀ h', heights.get? p.head = some h' → h < h' := by
  rw [improve]
  cases hp : p.alternative.height? heights with
  | none => exact .inl ⟨rfl, fun _ hh => nomatch hh⟩
  | some h =>
    cases hc : heights.get? p.head with
    | none => exact .inr ⟨h, rfl, rfl, fun _ hh => nomatch hh⟩
    | some current =>
      by_cases hlt : h < current
      · refine .inr ⟨h, rfl, by simp [hlt], fun h' hh => ?_⟩
        rwa [← Option.some.inj hh]
      · refine .inl ⟨by simp [hlt], fun h' hh => ⟨current, ?_, hc⟩⟩
        rw [← Option.some.inj hh]
        exact Nat.le_of_not_lt hlt

/-! ## Every entry is the height of a tree -/

/-- **Every entry is the height of a tree.** -/
def Sound (g : Grammar) (heights : Heights) : Prop :=
  ∀ c h, heights.get? c = some h → ∃ t : Tree, t.Fits g ∧ t.root = c ∧ t.height = h

theorem sound_nil : Sound g [] := fun _ _ hc => nomatch hc

theorem Sound.exists_tree (hs : heights.Sound g) (hp : p ∈ g.productions)
    (hh : p.alternative.height? heights = some h) : ∃ t : Tree, t.Fits g ∧ t.root = p.head ∧ t.height = h := by
  obtain ⟨c, a⟩ := p
  cases a with
  | unary a => exact ⟨.leaf c a, hp, rfl, Option.some.inj hh⟩
  | binary l r =>
    obtain ⟨m, n, hm, hn, rfl⟩ := Alternative.height?_binary_eq_some_iff.mp hh
    obtain ⟨tl, hl, rfl, rfl⟩ := hs l m hm
    obtain ⟨tr, hr, rfl, rfl⟩ := hs r n hn
    exact ⟨.branch c tl tr, ⟨hp, hl, hr⟩, rfl, rfl⟩

theorem Sound.improve (hs : heights.Sound g) (hp : p ∈ g.productions) : (heights.improve p).Sound g := by
  rcases heights.improve_cases p with ⟨heq, -⟩ | ⟨h, hh, heq, -⟩
  · rwa [heq]
  · intro c h' hc
    rw [heq, get?_cons] at hc
    split at hc
    · subst c
      rw [← Option.some.inj hc]
      exact hs.exists_tree hp hh
    · exact hs c h' hc

theorem Sound.foldl_improve (hs : heights.Sound g) {ps : List Production} (hps : ∀ p ∈ ps, p ∈ g.productions) :
    Sound g (ps.foldl .improve heights) := by
  induction ps generalizing heights with
  | nil => exact hs
  | cons p ps ih =>
    obtain ⟨hp, hps⟩ := List.forall_mem_cons.mp hps
    exact ih (hs.improve hp) hps

theorem Sound.scan (hs : heights.Sound g) : (g.scan heights).Sound g :=
  hs.foldl_improve fun _ hp => ((g.mem_listedProductions).mp hp).2

/-! ## What a scan comes to know -/

theorem Within.improve (hw : heights.Within c h) (p : Production) : (heights.improve p).Within c h := by
  obtain ⟨h', hle, hc⟩ := hw
  rcases heights.improve_cases p with ⟨heq, -⟩ | ⟨n, -, heq, hless⟩
  · rw [heq]
    exact ⟨h', hle, hc⟩
  · rw [heq, Within]
    simp only [get?_cons]
    split
    · subst c
      exact ⟨n, Nat.le_trans (Nat.le_of_lt (hless h' hc)) hle, rfl⟩
    · exact ⟨h', hle, hc⟩

theorem Within.foldl_improve (hw : heights.Within c h) (ps : List Production) :
    Within (ps.foldl .improve heights) c h := by
  induction ps generalizing heights with
  | nil => exact hw
  | cons p ps ih => exact ih (hw.improve p)

theorem height?_mono {a : Alternative} (hmono : ∀ c n, heights.Within c n → heights'.Within c n)
    (ha : a.height? heights = some h) : ∃ h' ≤ h, a.height? heights' = some h' := by
  cases a with
  | unary a => exact ⟨h, Nat.le_refl h, ha⟩
  | binary l r =>
    obtain ⟨m, n, hm, hn, rfl⟩ := Alternative.height?_binary_eq_some_iff.mp ha
    obtain ⟨m', hm', hl⟩ := hmono l m ⟨m, Nat.le_refl m, hm⟩
    obtain ⟨n', hn', hr⟩ := hmono r n ⟨n, Nat.le_refl n, hn⟩
    refine ⟨1 + max m' n', ?_, Alternative.height?_binary_eq_some_iff.mpr ⟨m', n', hl, hr, rfl⟩⟩
    show 1 + max m' n' ≤ 1 + max m n
    omega

theorem within_improve (hh : p.alternative.height? heights = some h) :
    (heights.improve p).Within p.head h := by
  rcases heights.improve_cases p with ⟨heq, hknown⟩ | ⟨n, hn, heq, -⟩
  · rw [heq]
    exact hknown h hh
  · rw [hh] at hn
    obtain rfl := Option.some.inj hn
    rw [heq]
    exact ⟨h, Nat.le_refl h, by rw [get?_cons, if_pos rfl]⟩

/-- **A scan gives every head what its productions have to say**, by the table before the scan or by a
better one. -/
theorem within_scan (hp : p ∈ g.listedProductions) (hh : p.alternative.height? heights = some h) :
    (g.scan heights).Within p.head h := by
  obtain ⟨before, after, hlisted⟩ := List.append_of_mem hp
  rw [Grammar.scan, hlisted, List.foldl_append, List.foldl_cons]
  obtain ⟨h', hle, hh'⟩ := height?_mono (fun c n hw => hw.foldl_improve before) hh
  obtain ⟨n, hn, hget⟩ := (within_improve hh').foldl_improve after
  exact ⟨n, Nat.le_trans hn hle, hget⟩

/-- The table knows every tree of height up to `k`, or a lower one in its place. -/
def Reaches (g : Grammar) (heights : Heights) (k : Nat) : Prop :=
  ∀ t : Tree, t.Fits g → t.height ≤ k → heights.Within t.root t.height

theorem reaches_zero : heights.Reaches g 0 := fun t _ hk => absurd t.height_pos (Nat.not_lt.mpr hk)

theorem Reaches.scan (hg : g.WellFormed) (hr : heights.Reaches g k) :
    (g.scan heights).Reaches g (k + 1) := by
  intro t ht hk
  have hlisted : ∀ {p : Production}, p ∈ g.productions → p ∈ g.listedProductions :=
    hg.mem_listedProductions_iff.mpr
  cases t with
  | leaf c a => exact within_scan (hlisted ht) rfl
  | branch c l r =>
    have hheight : 1 + max l.height r.height ≤ k + 1 := hk
    obtain ⟨m, hm, hl⟩ := hr l ht.2.1 (by omega)
    obtain ⟨n, hn, hr'⟩ := hr r ht.2.2 (by omega)
    obtain ⟨h', hle, hget⟩ := within_scan (hlisted ht.1)
      (Alternative.height?_binary_eq_some_iff.mpr ⟨m, n, hl, hr', rfl⟩)
    refine ⟨h', Nat.le_trans hle ?_, hget⟩
    show 1 + max m n ≤ 1 + max l.height r.height
    omega

end Heights

/-! ## All scans -/

namespace Grammar

theorem Settles.sound (h : g.Settles heights table) (hs : heights.Sound g) :
    table.Sound g ∧ g.scan table = table := by
  induction h with
  | done h => exact ⟨hs, h⟩
  | again _ _ ih => exact ih hs.scan

/-- A table that knows all trees and says nothing else holds the least heights. -/
theorem get?_of_reaches (hs : heights.Sound g) (hr : ∀ t : Tree, t.Fits g → heights.Within t.root t.height) :
    heights.get? c = some h ↔ g.LeastHeight c h := by
  have hleast : ∀ h, heights.get? c = some h → g.LeastHeight c h := by
    intro h hc
    refine ⟨hs c h hc, fun t ht hroot => ?_⟩
    obtain ⟨h', hle, hc'⟩ := hr t ht
    rw [hroot, hc] at hc'
    rwa [Option.some.inj hc']
  refine ⟨hleast h, fun hl => ?_⟩
  obtain ⟨⟨t, ht, hroot, -⟩, -⟩ := id hl
  obtain ⟨h', -, hc⟩ := hr t ht
  rw [hroot] at hc
  rw [hc, (hleast h' hc).unique hl]

/-- **A table that a scan does not change knows every tree**: by induction on the tree, as the scan has
heard what the production at its root has to say. -/
theorem within_of_scan_eq (hg : g.WellFormed) (hfix : g.scan heights = heights) (t : Tree) (ht : t.Fits g) :
    heights.Within t.root t.height := by
  have hreaches : ∀ k, heights.Reaches g k := by
    intro k
    induction k with
    | zero => exact Heights.reaches_zero
    | succ k ih => exact hfix ▸ ih.scan hg
  exact hreaches t.height t ht (Nat.le_refl _)

theorem Settles.get?_eq_some_iff (hg : g.WellFormed) (hsettles : g.Settles [] table) :
    table.get? c = some h ↔ g.LeastHeight c h := by
  obtain ⟨hs, hfix⟩ := hsettles.sound Heights.sound_nil
  exact get?_of_reaches hs (within_of_scan_eq hg hfix)

theorem foldl_improve_eq_self {ps : List Production} (h : ∀ p ∈ ps, heights.improve p = heights) :
    ps.foldl .improve heights = heights := by
  induction ps with
  | nil => rfl
  | cons p ps ih =>
    obtain ⟨hp, hps⟩ := List.forall_mem_cons.mp h
    rw [List.foldl_cons, hp, ih hps]

theorem scan_eq_self (hexact : ∀ c h, heights.get? c = some h ↔ g.LeastHeight c h) :
    g.scan heights = heights := by
  have hs : heights.Sound g := fun c h hc => ((hexact c h).mp hc).1
  refine foldl_improve_eq_self fun p hp => ?_
  rcases heights.improve_cases p with ⟨heq, -⟩ | ⟨h, hh, -, hless⟩
  · exact heq
  · obtain ⟨t, ht, hroot, rfl⟩ := hs.exists_tree ((g.mem_listedProductions).mp hp).2 hh
    obtain ⟨m, hm, hle⟩ := exists_leastHeight ht
    rw [hroot] at hm
    have hlt := hless m ((hexact _ m).mpr hm)
    omega

theorem get?_iterate_scan (hg : g.WellFormed) :
    (g.scan^[g.nonterminals.length] []).get? c = some h ↔ g.LeastHeight c h := by
  have hscans : ∀ k, (g.scan^[k] []).Sound g ∧ (g.scan^[k] []).Reaches g k := by
    intro k
    induction k with
    | zero => exact ⟨Heights.sound_nil, Heights.reaches_zero⟩
    | succ k ih =>
      rw [Function.iterate_succ_apply']
      exact ⟨ih.1.scan, ih.2.scan hg⟩
  obtain ⟨hs, hr⟩ := hscans g.nonterminals.length
  refine get?_of_reaches hs fun t ht => ?_
  -- a lowest tree of the same nonterminal is low enough
  obtain ⟨m, hm, hle⟩ := exists_leastHeight ht
  have hlength := hm.le_length hg
  obtain ⟨⟨t', ht', hroot, rfl⟩, -⟩ := hm
  obtain ⟨n, hn, hc⟩ := hr t' ht' hlength
  exact ⟨n, Nat.le_trans hn hle, hroot ▸ hc⟩

theorem exists_settles_of_iterate {n : Nat} (hfix : g.scan (g.scan^[n] heights) = g.scan^[n] heights) :
    ∃ table, g.Settles heights table := by
  induction n generalizing heights with
  | zero => exact ⟨heights, .done hfix⟩
  | succ n ih =>
    obtain ⟨table, hrest⟩ := ih hfix
    by_cases hsame : g.scan heights = heights
    · exact ⟨heights, .done hsame⟩
    · exact ⟨table, .again hsame hrest⟩

/-- **Scanning comes to an end.** -/
theorem exists_settles (hg : g.WellFormed) : ∃ table, g.Settles [] table :=
  exists_settles_of_iterate (scan_eq_self fun _ _ => get?_iterate_scan hg)

/-- **The table in the end is that of the least heights.** -/
theorem Settles.get?_eq (hg : g.WellFormed) (hsettles : g.Settles [] table) (c : Char) :
    table.get? c = g.leastHeights.get? c :=
  Option.ext fun _ => (hsettles.get?_eq_some_iff hg).trans (get?_leastHeights_eq_some_iff hg).symm

end Grammar

end Chomsky
