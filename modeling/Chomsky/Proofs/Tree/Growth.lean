import Chomsky.Tree.Growth
import Chomsky.Proofs.Draws
import Chomsky.Proofs.Tree.Heights

/-!
# The trees that grow

Growth returns exactly the trees each of whose nodes uses one of its candidates. For such a tree the
numbers that lead to it are found node by node, from the root on and the left subtree first.

* **`grown_of_grow`**: what is returned has grown;
* **`exists_script_of_grown`**: what can grow is returned for some numbers.
-/

namespace Chomsky

/-! ## Runs -/

namespace Growth

variable {α β : Type} {d d' : Draws}

theorem run_bind {x : Growth α} {f : α → Growth β} : (x >>= f).run.run d =
    match x.run.run d with
    | (.ok a, d₁) => (f a).run.run d₁
    | (.error e, d₁) => (.error e, d₁) := by
  rw [ExceptT.run_bind, StateT.run_bind]
  rcases x.run.run d with ⟨a | e, d₁⟩ <;> rfl

theorem run_bind_eq_ok_iff {x : Growth α} {f : α → Growth β} {b : β} :
    (x >>= f).run.run d = (.ok b, d') ↔
      ∃ a d₁, x.run.run d = (.ok a, d₁) ∧ (f a).run.run d₁ = (.ok b, d') := by
  rw [run_bind]
  constructor
  · intro h
    split at h
    · exact ⟨_, _, ‹_›, h⟩
    · cases h
  · rintro ⟨a, d₁, h1, h2⟩
    rw [h1]
    exact h2

theorem run_oneOf {candidates : List α} : (oneOf candidates).run.run d =
    (((d.choose candidates.length).1.bind (candidates[·]?)).elim (Except.error .outOfDraws) Except.ok,
      (d.choose candidates.length).2) := by
  cases h : (d.choose candidates.length).1.bind (candidates[·]?) <;>
    simp only [oneOf, ExceptT.run, ExceptT.mk, StateT.run, h, Option.elim]

theorem run_oneOf_eq_ok_iff {candidates : List α} {a : α} :
    (oneOf candidates).run.run d = (.ok a, d') ↔
      ∃ i, d.choose candidates.length = (some i, d') ∧ candidates[i]? = some a := by
  have helim : ∀ o : Option α,
      o.elim (Except.error GrowthError.outOfDraws) Except.ok = .ok a ↔ o = some a := by
    intro o
    cases o <;> simp
  rw [run_oneOf, Prod.mk.injEq, helim]
  rcases d.choose candidates.length with ⟨_ | i, d₁⟩
  · simp
  · simp only [Option.bind_some, Prod.mk.injEq, Option.some.injEq]
    constructor
    · rintro ⟨ha, rfl⟩
      exact ⟨i, ⟨rfl, rfl⟩, ha⟩
    · rintro ⟨_, ⟨rfl, rfl⟩, ha⟩
      exact ⟨ha, rfl⟩

end Growth

/-! ## What a node may choose -/

variable {g : Grammar} {heights : Heights} {limit room : Nat} {c c' : Char} {a : Alternative} {t l r : Tree}
  {d d' : Draws}

namespace Grammar

/-- The alternative is one of the candidates of a node. -/
def Offers (g : Grammar) (heights : Heights) (room : Nat) (c : Char) (a : Alternative) : Prop :=
  ∃ candidates, g.candidates heights room c = .ok candidates ∧ a ∈ candidates

theorem candidates_eq_ok_iff {candidates : List Alternative} :
    g.candidates heights room c = .ok candidates ↔ ∃ least, heights.get? c = some least ∧
      candidates = (g.alternatives c).filter (·.isCandidate heights room least) ∧
      candidates ≠ [] := by
  rw [Grammar.candidates]
  cases heights.get? c with
  | none => simp
  | some least =>
    simp only [Option.some.injEq]
    split
    · rename_i hnil
      constructor
      · intro h
        cases h
      · rintro ⟨_, rfl, rfl, hne⟩
        exact absurd hnil hne
    · rename_i hne
      rw [Except.ok.injEq]
      constructor
      · rintro rfl
        exact ⟨least, rfl, rfl, hne⟩
      · rintro ⟨_, rfl, rfl, -⟩
        rfl

theorem sublist_of_candidates {candidates : List Alternative}
    (h : g.candidates heights room c = .ok candidates) : candidates.Sublist (g.alternatives c) := by
  obtain ⟨least, -, rfl, -⟩ := candidates_eq_ok_iff.mp h
  exact List.filter_sublist

theorem offers_iff : g.Offers heights room c a ↔ a ∈ g.alternatives c ∧
    ∃ least, heights.get? c = some least ∧ a.isCandidate heights room least = true := by
  constructor
  · rintro ⟨_, h, ha⟩
    obtain ⟨least, hleast, rfl, -⟩ := candidates_eq_ok_iff.mp h
    obtain ⟨h1, h2⟩ := List.mem_filter.mp ha
    exact ⟨h1, least, hleast, h2⟩
  · rintro ⟨h1, least, hleast, h2⟩
    have ha := List.mem_filter.mpr ⟨h1, h2⟩
    exact ⟨_, candidates_eq_ok_iff.mpr ⟨least, hleast, rfl, List.ne_nil_of_mem ha⟩, ha⟩

end Grammar

theorem run_alternativeAt_eq_ok
    (h : (g.alternativeAt heights room c).run.run d = (.ok a, d')) : g.Offers heights room c a := by
  rw [Grammar.alternativeAt] at h
  split at h
  · obtain ⟨i, -, hi⟩ := Growth.run_oneOf_eq_ok_iff.mp h
    exact ⟨_, ‹_›, List.mem_of_getElem? hi⟩
  · cases h

theorem exists_draw_of_offers (hcount : (g.alternatives c).length < 0x100000000)
    (h : g.Offers heights room c a) : ∃ v, ∀ script state reserve,
      (g.alternativeAt heights room c).run.run ⟨v :: script, state, reserve⟩ =
        (.ok a, ⟨script, state, reserve⟩) := by
  obtain ⟨candidates, hcandidates, ha⟩ := h
  obtain ⟨i, hi⟩ := List.mem_iff_getElem?.mp ha
  have hlt := Nat.lt_of_le_of_lt (Grammar.sublist_of_candidates hcandidates).length_le hcount
  obtain ⟨v, hv⟩ := exists_pick (List.getElem?_eq_some_iff.mp hi).1 hlt
  refine ⟨v, fun script state reserve => ?_⟩
  rw [Grammar.alternativeAt, hcandidates]
  exact Growth.run_oneOf_eq_ok_iff.mpr ⟨i, Draws.choose_cons hv, hi⟩

/-! ## One step of growth -/

theorem exists_limit_of_grow (h : (g.grow heights limit room c).run.run d = (.ok t, d')) :
    ∃ limit', limit = limit' + 1 := by
  cases limit with
  | zero => cases h
  | succ limit => exact ⟨limit, rfl⟩

theorem root_of_grow (h : (g.grow heights limit room c).run.run d = (.ok t, d')) : t.root = c := by
  obtain ⟨limit, rfl⟩ := exists_limit_of_grow h
  rw [Grammar.grow] at h
  obtain ⟨a, d₁, -, h2⟩ := Growth.run_bind_eq_ok_iff.mp h
  cases a with
  | unary terminal =>
    cases h2
    rfl
  | binary left right =>
    obtain ⟨l, d₂, -, h3⟩ := Growth.run_bind_eq_ok_iff.mp h2
    obtain ⟨r, d₃, -, h4⟩ := Growth.run_bind_eq_ok_iff.mp h3
    cases h4
    rfl

theorem run_grow_eq_leaf_iff {terminal : Char} :
    (g.grow heights (limit + 1) room c).run.run d = (.ok (.leaf c' terminal), d') ↔
      c' = c ∧ (g.alternativeAt heights room c).run.run d = (.ok (.unary terminal), d') := by
  rw [Grammar.grow, Growth.run_bind_eq_ok_iff]
  constructor
  · rintro ⟨a, d₁, h1, h2⟩
    cases a with
    | unary terminal =>
      cases h2
      exact ⟨rfl, h1⟩
    | binary left right =>
      obtain ⟨l, d₂, -, h3⟩ := Growth.run_bind_eq_ok_iff.mp h2
      obtain ⟨r, d₃, -, h4⟩ := Growth.run_bind_eq_ok_iff.mp h3
      cases h4
  · rintro ⟨rfl, h1⟩
    exact ⟨_, _, h1, rfl⟩

theorem run_grow_eq_branch_iff :
    (g.grow heights (limit + 1) room c).run.run d = (.ok (.branch c' l r), d') ↔
      c' = c ∧ ∃ d₁ d₂,
        (g.alternativeAt heights room c).run.run d = (.ok (.binary l.root r.root), d₁) ∧
        (g.grow heights limit (room - 1) l.root).run.run d₁ = (.ok l, d₂) ∧
        (g.grow heights limit (room - 1) r.root).run.run d₂ = (.ok r, d') := by
  rw [Grammar.grow, Growth.run_bind_eq_ok_iff]
  constructor
  · rintro ⟨a, d₁, h1, h2⟩
    cases a with
    | unary terminal => cases h2
    | binary left right =>
      obtain ⟨l, d₂, hl, h3⟩ := Growth.run_bind_eq_ok_iff.mp h2
      obtain ⟨r, d₃, hr, h4⟩ := Growth.run_bind_eq_ok_iff.mp h3
      cases h4
      obtain rfl := root_of_grow hl
      obtain rfl := root_of_grow hr
      exact ⟨rfl, d₁, d₂, h1, hl, hr⟩
  · rintro ⟨rfl, d₁, d₂, h1, hl, hr⟩
    refine ⟨_, d₁, h1, Growth.run_bind_eq_ok_iff.mpr ⟨l, d₂, hl, ?_⟩⟩
    exact Growth.run_bind_eq_ok_iff.mpr ⟨r, d', hr, rfl⟩

/-! ## The trees that grow -/

/-- Every node uses one of its candidates, with `room` levels above the depth bound at the root. -/
def Tree.Grown (g : Grammar) (heights : Heights) : Nat → Tree → Prop
  | room, leaf c a => g.Offers heights room c (.unary a)
  | room, branch c l r => g.Offers heights room c (.binary l.root r.root) ∧
    l.Grown g heights (room - 1) ∧ r.Grown g heights (room - 1)

theorem Tree.Grown.fits : ∀ {t : Tree} {room : Nat}, t.Grown g heights room → t.Fits g
  | .leaf _ _, _, h => (g.mem_alternatives).mp (Grammar.offers_iff.mp h).1
  | .branch _ _ _, _, ⟨h, hl, hr⟩ =>
    ⟨(g.mem_alternatives).mp (Grammar.offers_iff.mp h).1, fits hl, fits hr⟩

/-- **What is returned has grown.** -/
theorem grown_of_grow (h : (g.grow heights limit room c).run.run d = (.ok t, d')) :
    t.root = c ∧ t.Grown g heights room := by
  refine ⟨root_of_grow h, ?_⟩
  induction t generalizing limit room c d d' with
  | leaf c' terminal =>
    obtain ⟨limit, rfl⟩ := exists_limit_of_grow h
    obtain ⟨rfl, hroot⟩ := run_grow_eq_leaf_iff.mp h
    exact run_alternativeAt_eq_ok hroot
  | branch c' l r ihl ihr =>
    obtain ⟨limit, rfl⟩ := exists_limit_of_grow h
    obtain ⟨rfl, d₁, d₂, hroot, hl, hr⟩ := run_grow_eq_branch_iff.mp h
    exact ⟨run_alternativeAt_eq_ok hroot, ihl hl, ihr hr⟩

/-- **What can grow is returned for some numbers**, one for every node. -/
theorem exists_script_of_grown (hcount : ∀ c, (g.alternatives c).length < 0x100000000)
    (ht : t.Grown g heights room) (hlimit : t.height ≤ limit) :
    ∃ script : List UInt32, script.length = t.size ∧ ∀ rest state reserve,
      (g.grow heights limit room t.root).run.run ⟨script ++ rest, state, reserve⟩ =
        (.ok t, ⟨rest, state, reserve⟩) := by
  induction t generalizing room limit with
  | leaf c a =>
    obtain ⟨limit, rfl⟩ := Nat.exists_eq_succ_of_ne_zero (Nat.ne_of_gt (by exact hlimit : 0 < limit))
    obtain ⟨v, hv⟩ := exists_draw_of_offers (hcount c) ht
    exact ⟨[v], rfl, fun rest state reserve => run_grow_eq_leaf_iff.mpr ⟨rfl, hv rest state reserve⟩⟩
  | branch c l r ihl ihr =>
    obtain ⟨ha, hl, hr⟩ := ht
    have hheight : 1 + max l.height r.height ≤ limit := hlimit
    obtain ⟨limit, rfl⟩ := Nat.exists_eq_succ_of_ne_zero (by omega : limit ≠ 0)
    obtain ⟨v, hv⟩ := exists_draw_of_offers (hcount c) ha
    obtain ⟨sl, hlenl, hsl⟩ := ihl hl (by omega : l.height ≤ limit)
    obtain ⟨sr, hlenr, hsr⟩ := ihr hr (by omega : r.height ≤ limit)
    refine ⟨v :: (sl ++ sr), ?_, fun rest state reserve => ?_⟩
    · rw [List.length_cons, List.length_append, hlenl, hlenr, Tree.size]
      omega
    · rw [List.cons_append, List.append_assoc]
      exact run_grow_eq_branch_iff.mpr
        ⟨rfl, _, _, hv _ state reserve, hsl _ state reserve, hsr rest state reserve⟩

end Chomsky
