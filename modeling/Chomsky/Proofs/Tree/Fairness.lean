import Chomsky.Proofs.Tree.Choices
import Chomsky.Proofs.Tree.Support
import Mathlib.Data.Set.Card
import Mathlib.Order.Interval.Finset.Nat

/-!
# Even choices

A node above the depth bound chooses among all alternatives of its nonterminal that derive a word, and a node at the
bound or deeper among those that begin a tree of least height. The choice is even: each candidate is taken by equally
many of the 32-bit numbers, and any other number is passed over.

* **`ncard_pick`**: how many numbers pick an index;
* `Growth.Takes`, `Growth.Skips`, **`ncard_takes_oneOf`**, `skips_oneOf_iff`: the numbers of one choice;
* `exists_tree_iff_derives_body`, **`offers_iff_exists_tree`**: the candidates of a node;
* **`choiceAt_even_among_candidates`**: every choice is even and among the right candidates.
-/

namespace Chomsky

/-! ## The numbers of one choice -/

variable {n i : Nat} {v : UInt32}

/-- **Every index is picked by equally many numbers.** -/
theorem ncard_pick (hi : i < n) (hn : n < 0x100000000) :
    {v | pick n v = some i}.ncard = 2 ^ (31 - n.log2) := by
  obtain ⟨first, hle, hrow⟩ := exists_row hi hn
  have himage : UInt32.toNat '' {v | pick n v = some i} = Finset.Ico first (first + 2 ^ (31 - n.log2)) := by
    ext m
    simp only [Set.mem_image, Set.mem_ofPred_eq, hrow, Finset.coe_Ico, Set.mem_Ico]
    constructor
    · rintro ⟨v, hv, rfl⟩
      exact hv
    · intro hm
      have hlt : m < 0x100000000 := by omega
      exact ⟨UInt32.ofNat m, by rwa [UInt32.toNat_ofNat_of_lt' hlt], UInt32.toNat_ofNat_of_lt' hlt⟩
  rw [← Set.ncard_image_of_injective _ fun _ _ => UInt32.toNat_inj.mp, himage, Set.ncard_coe_finset,
    Nat.card_Ico, Nat.add_sub_cancel_left]

namespace Growth

variable {α : Type} {candidates : List α} {a : α}

/-- **The number is taken**: if it comes next, the computation returns `a` and takes no other. -/
def Takes (x : Growth α) (v : UInt32) (a : α) : Prop :=
  ∀ d d', d.next? = some (v, d') → x.run.run d = (.ok a, d')

/-- **The number is passed over**: if it comes next, the computation goes as if the one behind it did. -/
def Skips (x : Growth α) (v : UInt32) : Prop :=
  ∀ d d', d.next? = some (v, d') → x.run.run d = x.run.run d'

theorem takes_oneOf_iff :
    (oneOf candidates).Takes v a ↔ ∃ i, pick candidates.length v = some i ∧ candidates[i]? = some a := by
  constructor
  · intro h
    obtain ⟨i, hchoose, hi⟩ := run_oneOf_eq_ok_iff.mp (h ⟨[v], 0, 0⟩ ⟨[], 0, 0⟩ rfl)
    rw [Draws.choose_of_next? rfl] at hchoose
    cases hpick : pick candidates.length v with
    | none =>
      rw [hpick] at hchoose
      cases hchoose
    | some j =>
      rw [hpick] at hchoose
      cases hchoose
      exact ⟨i, rfl, hi⟩
  · rintro ⟨i, hpick, hi⟩ d d' hnext
    exact run_oneOf_eq_ok_iff.mpr ⟨i, by rw [Draws.choose_of_next? hnext, hpick], hi⟩

theorem skips_oneOf (hpick : pick candidates.length v = none) : (oneOf candidates).Skips v := by
  intro d d' hnext
  rw [run_oneOf, run_oneOf, Draws.choose_of_next? hnext, hpick]

theorem skips_oneOf_iff : (oneOf candidates).Skips v ↔ ∀ a, ¬ (oneOf candidates).Takes v a := by
  constructor
  · intro h a htakes
    -- with no other number behind it, a number that is passed over leaves none to choose by
    have hrun := h ⟨[v], 0, 0⟩ ⟨[], 0, 0⟩ rfl
    rw [htakes _ _ rfl] at hrun
    cases hrun
  · intro h
    refine skips_oneOf ?_
    by_contra hpick
    obtain ⟨i, hi⟩ := Option.ne_none_iff_exists'.mp hpick
    exact h _ (takes_oneOf_iff.mpr ⟨i, hi, List.getElem?_eq_getElem (lt_of_pick hi)⟩)

/-- **Every candidate is taken by equally many numbers.** -/
theorem ncard_takes_oneOf (hnodup : candidates.Nodup) (hn : candidates.length < 0x100000000) (ha : a ∈ candidates) :
    {v | (oneOf candidates).Takes v a}.ncard = 2 ^ (31 - candidates.length.log2) := by
  obtain ⟨i, hi, rfl⟩ := List.getElem_of_mem ha
  rw [← ncard_pick hi hn]
  congr 1
  ext v
  rw [Set.mem_ofPred_eq, Set.mem_ofPred_eq, takes_oneOf_iff]
  constructor
  · rintro ⟨j, hpick, hj⟩
    obtain ⟨hlt, heq⟩ := List.getElem?_eq_some_iff.mp hj
    rwa [← (hnodup.getElem_inj_iff).mp heq]
  · exact fun hpick => ⟨i, hpick, List.getElem?_eq_getElem hi⟩

/-- **The choice is even**: each candidate is taken by `2 ^ k` numbers, where `k` shifts the number of candidates to the
top of 32 binary digits, and any other number is passed over. -/
structure Even (x : Growth α) (candidates : List α) : Prop where
  ncard_takes : ∃ k, 2 ^ 31 ≤ candidates.length * 2 ^ k ∧ candidates.length * 2 ^ k < 2 ^ 32 ∧
    ∀ a ∈ candidates, {v | x.Takes v a}.ncard = 2 ^ k
  mem_of_takes : ∀ v a, x.Takes v a → a ∈ candidates
  skips_iff : ∀ v, x.Skips v ↔ ∀ a, ¬ x.Takes v a

theorem even_oneOf (hne : candidates ≠ []) (hnodup : candidates.Nodup) (hn : candidates.length < 0x100000000) :
    (oneOf candidates).Even candidates where
  ncard_takes := by
    obtain ⟨hlow, hhigh⟩ := shifted_bounds (List.length_pos_iff.mpr hne) hn
    exact ⟨_, hlow, hhigh, fun a ha => ncard_takes_oneOf hnodup hn ha⟩
  mem_of_takes v a h := by
    obtain ⟨i, -, hi⟩ := takes_oneOf_iff.mp h
    exact List.mem_of_getElem? hi
  skips_iff v := skips_oneOf_iff

end Growth

/-! ## The candidates of a node -/

variable {g : Grammar} {heights : Heights} {limit room depth maxDepth : Nat} {c : Char} {a : Alternative}
  {d d' : Draws} {s t : Tree}

namespace Grammar

theorem exists_tree_iff_derives_body (hg : g.WellFormed) :
    (∃ t : Tree, t.Fits g ∧ t.root = c ∧ t.alternative = a) ↔
      a ∈ g.alternatives c ∧ ∃ w, g.Derives a.body w ∧ ∀ x ∈ w, x ∈ g.terminals := by
  constructor
  · rintro ⟨t, ht, rfl, rfl⟩
    exact ⟨ht.alternative_mem, t.yield, t.derives_body ht, ht.yield_subset hg⟩
  · rintro ⟨ha, w, hw, hterminals⟩
    have hp := (g.mem_alternatives).mp ha
    cases a with
    | unary x => exact ⟨.leaf c x, hp, rfl, rfl⟩
    | binary l r =>
      obtain ⟨hl, hr⟩ := hg.declares _ hp
      obtain ⟨w₁, w₂, rfl, h1, h2⟩ := coversAll_append_iff (u := [l]) (v := [r]).mp (hg.coversAll_of_derives hw)
      have h1' := (hg.covers_leads_iff_writes hl fun x hx => hterminals x (List.mem_append_left _ hx)).mp
        (coversAll_singleton_iff.mp h1)
      have h2' := (hg.covers_leads_iff_writes hr fun x hx => hterminals x (List.mem_append_right _ hx)).mp
        (coversAll_singleton_iff.mp h2)
      obtain ⟨tl, hfitsl, rfl, -⟩ := covers_writes_iff_tree.mp h1'
      obtain ⟨tr, hfitsr, rfl, -⟩ := covers_writes_iff_tree.mp h2'
      exact ⟨.branch c tl tr, ⟨hp, hfitsl, hfitsr⟩, rfl, rfl⟩

/-- **A node may choose the alternatives that begin a tree**, without room just if they have least height. -/
theorem offers_iff_exists_tree (hg : g.WellFormed) : g.Offers g.leastHeights room c a ↔
    ∃ t : Tree, t.Fits g ∧ t.root = c ∧ t.alternative = a ∧ (room = 0 → t.BeginsLeast g) := by
  constructor
  · intro h
    obtain ⟨m, hm, hleast⟩ := h.leastHeight hg
    obtain ⟨t, ht, rfl, rfl, -⟩ := hm.exists_tree (offers_iff.mp h).1
    exact ⟨t, ht, rfl, rfl, fun hroom => ⟨m, hm, hleast hroom⟩⟩
  · rintro ⟨t, ht, rfl, rfl, hleast⟩
    exact (ht.offers_iff hg).mpr hleast

theorem exists_beginsLeast_iff : (∃ t : Tree, t.Fits g ∧ t.root = c ∧ t.alternative = a ∧ t.BeginsLeast g) ↔
    ∃ t : Tree, t.Fits g ∧ t.root = c ∧ t.alternative = a ∧
      ∀ t' : Tree, t'.Fits g → t'.root = c → t.height ≤ t'.height := by
  constructor
  · rintro ⟨t, ht, rfl, rfl, h, halternative, hroot⟩
    obtain ⟨t', ht', hroot', halternative', rfl⟩ := halternative.exists_tree ht.alternative_mem
    exact ⟨t', ht', hroot', halternative', hroot.2⟩
  · rintro ⟨t, ht, rfl, rfl, hmin⟩
    obtain ⟨h, halternative, hle⟩ := ht.exists_leastHeight
    obtain ⟨t', ht', hroot', -, rfl⟩ := halternative.exists_tree ht.alternative_mem
    refine ⟨t, ht, rfl, rfl, _, halternative, ⟨t', ht', hroot', rfl⟩, fun s hs hroot => ?_⟩
    exact Nat.le_trans hle (hmin s hs hroot)

theorem mem_candidates_iff_offers {candidates : List Alternative}
    (h : g.candidates heights room c = .ok candidates) : a ∈ candidates ↔ g.Offers heights room c a := by
  constructor
  · exact fun ha => ⟨candidates, h, ha⟩
  · rintro ⟨candidates', h', ha⟩
    rw [h] at h'
    cases h'
    exact ha

/-! ## The choice at a node -/

/-- The choice at a node of some depth. -/
def choiceAt (g : Grammar) (maxDepth depth : Nat) (c : Char) : Growth Alternative :=
  g.alternativeAt g.leastHeights (maxDepth - depth) c

theorem alternativeAt_of_candidates {candidates : List Alternative}
    (h : g.candidates heights room c = .ok candidates) : g.alternativeAt heights room c = Growth.oneOf candidates := by
  rw [alternativeAt, h]

end Grammar

/-- **Every node of a tree that has grown was chosen** with the room that its depth leaves. -/
theorem exists_choice_of_at (hat : t.At depth s) (hrun : (g.grow heights limit room c).run.run d = (.ok t, d')) :
    ∃ d₁ d₂, (g.alternativeAt heights (room - depth) s.root).run.run d₁ = (.ok s.alternative, d₂) := by
  induction hat generalizing limit room c d d' with
  | root t =>
    obtain ⟨limit, rfl⟩ := exists_limit_of_grow hrun
    cases t with
    | leaf c' a =>
      obtain ⟨rfl, hchoice⟩ := run_grow_eq_leaf_iff.mp hrun
      exact ⟨d, d', hchoice⟩
    | branch c' l r =>
      obtain ⟨rfl, d₁, d₂, hchoice, -, -⟩ := run_grow_eq_branch_iff.mp hrun
      exact ⟨d, d₁, hchoice⟩
  | left _ ih =>
    obtain ⟨limit, rfl⟩ := exists_limit_of_grow hrun
    obtain ⟨-, d₁, d₂, -, hl, -⟩ := run_grow_eq_branch_iff.mp hrun
    -- the subtree has one level of room less, and the node is one level less deep in it
    rw [Nat.add_comm, ← Nat.sub_sub]
    exact ih hl
  | right _ ih =>
    obtain ⟨limit, rfl⟩ := exists_limit_of_grow hrun
    obtain ⟨-, d₁, d₂, -, -, hr⟩ := run_grow_eq_branch_iff.mp hrun
    rw [Nat.add_comm, ← Nat.sub_sub]
    exact ih hr

namespace Grammar

/-- **Every choice is even and among the right candidates.** A node of a symbol that derives a word has candidates: above
the depth bound all alternatives whose body derives a word, from the bound on those that begin a tree of least
height. Every node of a tree that has grown was chosen so, by its depth. Among `n` candidates, fewer than there are
32-bit numbers, each index is picked by as many numbers as `n` takes to be shifted to the top of 32 binary digits, and
a number that picks none gives way to the next one. -/
theorem choiceAt_even_among_candidates (hg : g.Reachable) :
    (∀ c, g.Productive c → ∀ depth maxDepth, ∃ candidates,
      g.candidates g.leastHeights (maxDepth - depth) c = .ok candidates ∧
      candidates ≠ [] ∧ candidates.Nodup ∧ candidates.Sublist (g.alternatives c) ∧
      (depth < maxDepth → ∀ a, a ∈ candidates ↔
        a ∈ g.alternatives c ∧ ∃ w, g.Derives a.body w ∧ ∀ x ∈ w, x ∈ g.terminals) ∧
      (maxDepth ≤ depth → ∀ a, a ∈ candidates ↔ ∃ t : Tree, t.Fits g ∧ t.root = c ∧ t.alternative = a ∧
        ∀ t' : Tree, t'.Fits g → t'.root = c → t.height ≤ t'.height) ∧
      (g.choiceAt maxDepth depth c).Even candidates) ∧
    (∀ maxDepth c d t d', (g.growTree maxDepth c).run.run d = (.ok t, d') → ∀ depth s, t.At depth s →
      ∃ d₁ d₂, (g.choiceAt maxDepth depth s.root).run.run d₁ = (.ok s.alternative, d₂)) ∧
    ∀ n, 0 < n → n < 2 ^ 32 → ∃ k, 2 ^ 31 ≤ n * 2 ^ k ∧ n * 2 ^ k < 2 ^ 32 ∧
      (∀ v, pick n v = if v.toNat * n % 2 ^ 32 ≤ n * 2 ^ k - 1 then some (v.toNat * n / 2 ^ 32) else none) ∧
      (∀ i < n, {v | pick n v = some i}.ncard = 2 ^ k) ∧ (∀ v i, pick n v = some i → i < n) ∧
      ∀ (d : Draws) v d', d.next? = some (v, d') → d.choose n =
        match pick n v with
        | some i => (some i, d')
        | none => d'.choose n := by
  have hwf := hg.wellFormed
  refine ⟨fun c hc depth maxDepth => ?_, fun maxDepth c d t d' hrun depth s hat => exists_choice_of_at hat hrun,
    fun n hpos hn => ?_⟩
  · obtain ⟨candidates, hcandidates, hne⟩ := exists_candidates_of_productive hwf hc (maxDepth - depth)
    have hsub := sublist_of_candidates hcandidates
    have hnodup := (g.nodup_alternatives c).sublist hsub
    have hlen := Nat.lt_of_le_of_lt hsub.length_le (hwf.length_alternatives_lt c)
    refine ⟨candidates, hcandidates, hne, hnodup, hsub, fun hlt a => ?_, fun hle a => ?_, ?_⟩
    · rw [mem_candidates_iff_offers hcandidates, offers_iff_exists_tree hwf, ← exists_tree_iff_derives_body hwf]
      have hroom : maxDepth - depth ≠ 0 := Nat.sub_ne_zero_of_lt hlt
      simp [hroom]
    · rw [mem_candidates_iff_offers hcandidates, offers_iff_exists_tree hwf, ← exists_beginsLeast_iff]
      have hroom : maxDepth - depth = 0 := Nat.sub_eq_zero_of_le hle
      simp [hroom]
    · rw [choiceAt, alternativeAt_of_candidates hcandidates]
      exact Growth.even_oneOf hne hnodup hlen
  · obtain ⟨hlow, hhigh⟩ := shifted_bounds hpos hn
    refine ⟨31 - n.log2, hlow, hhigh, fun v => ?_, fun i hi => ncard_pick hi hn, fun v i => lt_of_pick,
      fun d v d' => Draws.choose_of_next?⟩
    rw [pick, Nat.shiftLeft_eq]
    exact if_congr (Nat.lt_iff_le_pred (Nat.lt_of_lt_of_le (by decide) hlow)) rfl rfl

theorem thicket_chooses_evenly : thicket.Reachable ∧ thicket.Productive 'S' ∧
    (.binary 'S' 'C') ∈ thicket.alternatives 'S' ∧ (∀ v, ¬ (thicket.choiceAt 1 0 'S').Takes v (.binary 'S' 'C')) ∧
    {v | (thicket.choiceAt 1 0 'S').Takes v (.binary 'S' 'S')}.ncard = 2 ^ 30 ∧
    {v | (thicket.choiceAt 1 0 'S').Takes v (.unary 'a')}.ncard = 2 ^ 30 ∧
    {v | (thicket.choiceAt 1 1 'S').Takes v (.unary 'a')}.ncard = 2 ^ 31 ∧
    (∃ d₁ d₂, (thicket.choiceAt 1 1 'S').run.run d₁ = (.ok (.unary 'a'), d₂)) ∧
    {v | pick 3 v = some 1}.ncard = 2 ^ 30 ∧
    pick 3 0x55555555 = none ∧ Draws.choose 3 ⟨[0x55555555, 0x55555556], 0, 0⟩ = (some 1, ⟨[], 0, 0⟩) := by
  have hS : thicket.Productive 'S' :=
    (productive_iff_get?_leastHeights reachable_thicket.wellFormed).mpr ⟨1, by decide +kernel⟩
  obtain ⟨hchoice, hgrown, hpick⟩ := choiceAt_even_among_candidates reachable_thicket
  obtain ⟨above, habove, -, -, -, -, -, hevenAbove⟩ := hchoice 'S' hS 0 1
  obtain ⟨below, hbelow, -, -, -, -, -, hevenBelow⟩ := hchoice 'S' hS 1 1
  have habove' : thicket.candidates thicket.leastHeights (1 - 0) 'S' = .ok [.binary 'S' 'S', .unary 'a'] := by
    decide +kernel
  have hbelow' : thicket.candidates thicket.leastHeights (1 - 1) 'S' = .ok [.unary 'a'] := by decide +kernel
  cases habove.symm.trans habove'
  cases hbelow.symm.trans hbelow'
  obtain ⟨k, hlow, hhigh, hcount⟩ := hevenAbove.ncard_takes
  obtain rfl : k = 30 := shift_unique ⟨hlow, hhigh⟩ (by decide)
  obtain ⟨l, hlow', hhigh', hcount'⟩ := hevenBelow.ncard_takes
  obtain rfl : l = 31 := shift_unique ⟨hlow', hhigh'⟩ (by decide)
  obtain ⟨m, hlow3, hhigh3, -, hcount3, -, hnext⟩ := hpick 3 (by decide) (by decide)
  obtain rfl : m = 30 := shift_unique ⟨hlow3, hhigh3⟩ (by decide)
  have hrun : ((thicket.growTree 1 'S').run.run ⟨[0, 0, 0], 0, 0⟩).1 =
      .ok (.branch 'S' (.leaf 'S' 'a') (.leaf 'S' 'a')) := by decide +kernel
  have hchosen := hgrown _ _ _ _ _ (Prod.ext hrun rfl) 1 _ (.left (.root _))
  refine ⟨reachable_thicket, hS, by decide +kernel, fun v htakes => ?_, hcount _ (by decide), hcount _ (by decide),
    hcount' _ (by decide), hchosen, hcount3 1 (by decide), by decide, ?_⟩
  · exact absurd (hevenAbove.mem_of_takes v _ htakes) (by decide)
  · rw [hnext _ _ _ rfl]
    decide

end Grammar

end Chomsky
