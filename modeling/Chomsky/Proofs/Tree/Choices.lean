import Chomsky.Proofs.Tree.Growth
import Mathlib.Data.List.Forall2

/-!
# The choices of one growth

Growth makes one choice for each node of the tree that it returns, for a node before its subtrees and for the left
one before the right one. So the numbers that it takes fall into pieces, one for each node in this order: some
numbers that are refused, and one that picks the alternative of the node.

* **`run_grow_eq_ok_iff`**: what growth returns, and from which numbers.
-/

namespace Chomsky

/-! ## Nodes in the order of their choices -/

/-- **What one choice decides**: the alternative of a node, by its nonterminal and the levels left above the depth
bound. -/
structure Expansion where
  room : Nat
  head : Char
  alternative : Alternative
deriving DecidableEq, Repr

/-- The nodes of a tree in the order in which they are chosen. -/
def Tree.expansions : Nat → Tree → List Expansion
  | room, leaf c a => [⟨room, c, .unary a⟩]
  | room, branch c l r =>
    ⟨room, c, .binary l.root r.root⟩ :: (l.expansions (room - 1) ++ r.expansions (room - 1))

theorem Tree.length_expansions : ∀ (t : Tree) (room : Nat), (t.expansions room).length = t.size
  | leaf _ _, _ => rfl
  | branch _ l r, room => by
    rw [expansions, List.length_cons, List.length_append, l.length_expansions, r.length_expansions, size]
    omega

/-- **These numbers decide an expansion**: each but the last is refused, and the last picks the alternative among the
candidates of the node. -/
def Grammar.Decides (g : Grammar) (heights : Heights) (e : Expansion) (numbers : List UInt32) : Prop :=
  ∃ candidates refused v i, g.candidates heights e.room e.head = .ok candidates ∧
    numbers = refused ++ [v] ∧ (∀ u ∈ refused, pick candidates.length u = none) ∧
    pick candidates.length v = some i ∧ candidates[i]? = some e.alternative

/-! ## Runs -/

variable {g : Grammar} {heights : Heights} {limit room : Nat} {c : Char} {a : Alternative} {t : Tree} {d d' : Draws}

theorem run_alternativeAt_eq_ok_iff : (g.alternativeAt heights room c).run.run d = (.ok a, d') ↔
    ∃ numbers, g.Decides heights ⟨room, c, a⟩ numbers ∧ d.Gives numbers d' := by
  rw [Grammar.alternativeAt]
  constructor
  · intro h
    split at h
    · rename_i candidates hcandidates
      obtain ⟨i, hchoose, hi⟩ := Growth.run_oneOf_eq_ok_iff.mp h
      obtain ⟨refused, v, hrefused, hv, hgives⟩ := Draws.choose_eq_some_iff.mp hchoose
      exact ⟨_, ⟨candidates, refused, v, i, hcandidates, rfl, hrefused, hv, hi⟩, hgives⟩
    · cases h
  · rintro ⟨_, ⟨candidates, refused, v, i, hcandidates, rfl, hrefused, hv, hi⟩, hgives⟩
    rw [hcandidates]
    exact Growth.run_oneOf_eq_ok_iff.mpr ⟨i, Draws.choose_eq_some_iff.mpr ⟨refused, v, hrefused, hv, hgives⟩, hi⟩

theorem forall₂_append_left_iff {α β : Type} {R : α → β → Prop} {as bs : List α} {cs : List β} :
    List.Forall₂ R (as ++ bs) cs ↔ ∃ us vs, cs = us ++ vs ∧ List.Forall₂ R as us ∧ List.Forall₂ R bs vs := by
  constructor
  · intro h
    refine ⟨cs.take as.length, cs.drop as.length, (List.take_append_drop _ _).symm, ?_, ?_⟩
    · exact (List.forall₂_take_append cs as bs h.flip).flip
    · exact (List.forall₂_drop_append cs as bs h.flip).flip
  · rintro ⟨us, vs, rfl, hus, hvs⟩
    exact List.rel_append hus hvs

/-- **Growth returns the trees within its limit whose nodes are decided, one after the other, by the numbers that it
takes**, piece by piece. -/
theorem run_grow_eq_ok_iff : (g.grow heights limit room c).run.run d = (.ok t, d') ↔
    t.root = c ∧ t.height ≤ limit ∧ ∃ pieces,
      List.Forall₂ (g.Decides heights) (t.expansions room) pieces ∧ d.Gives pieces.flatten d' := by
  induction t generalizing limit room c d d' with
  | leaf c' terminal =>
    cases limit with
    | zero => exact iff_of_false (fun h => nomatch h) fun h => absurd h.2.1 (Nat.not_succ_le_zero 0)
    | succ limit =>
      rw [run_grow_eq_leaf_iff, run_alternativeAt_eq_ok_iff]
      constructor
      · rintro ⟨rfl, numbers, hdecides, hgives⟩
        refine ⟨rfl, Nat.succ_le_succ (Nat.zero_le limit), [numbers], .cons hdecides .nil, ?_⟩
        rwa [List.flatten_singleton]
      · rintro ⟨rfl, -, pieces, hpieces, hgives⟩
        cases hpieces with
        | cons hdecides hnil =>
          cases hnil
          rw [List.flatten_singleton] at hgives
          exact ⟨rfl, _, hdecides, hgives⟩
  | branch c' l r ihl ihr =>
    have hlimit : (Tree.branch c' l r).height = 1 + max l.height r.height := rfl
    cases limit with
    | zero => exact iff_of_false (fun h => nomatch h) fun h => by omega
    | succ limit =>
      rw [run_grow_eq_branch_iff]
      constructor
      · rintro ⟨rfl, d₁, d₂, hroot, hl, hr⟩
        obtain ⟨numbers, hdecides, hgives⟩ := run_alternativeAt_eq_ok_iff.mp hroot
        obtain ⟨-, hlel, us, hus, hgivesl⟩ := ihl.mp hl
        obtain ⟨-, hler, vs, hvs, hgivesr⟩ := ihr.mp hr
        refine ⟨rfl, by omega, numbers :: (us ++ vs), .cons hdecides (List.rel_append hus hvs), ?_⟩
        rw [List.flatten_cons, List.flatten_append]
        exact Draws.gives_append.mpr ⟨d₁, hgives, Draws.gives_append.mpr ⟨d₂, hgivesl, hgivesr⟩⟩
      · rintro ⟨rfl, hle, pieces, hpieces, hgives⟩
        -- the first piece is that of the node, and the others go to the left subtree up to some place
        cases hpieces with
        | cons hdecides hrest =>
          obtain ⟨us, vs, rfl, hus, hvs⟩ := forall₂_append_left_iff.mp hrest
          rw [List.flatten_cons, List.flatten_append] at hgives
          obtain ⟨d₁, hgives, hgives'⟩ := Draws.gives_append.mp hgives
          obtain ⟨d₂, hgivesl, hgivesr⟩ := Draws.gives_append.mp hgives'
          refine ⟨rfl, d₁, d₂, run_alternativeAt_eq_ok_iff.mpr ⟨_, hdecides, hgives⟩, ?_, ?_⟩
          · exact ihl.mpr ⟨rfl, by omega, us, hus, hgivesl⟩
          · exact ihr.mpr ⟨rfl, by omega, vs, hvs, hgivesr⟩

end Chomsky
