import Chomsky.Proofs.Tree.Language

/-!
# Growth does not get stuck

A nonterminal that derives a word has a least height, and so has every symbol of an alternative that its
node may choose. Growth therefore never comes to a node without candidates, and the limit on the height
leaves room for a shortest tree under each node that it comes to.

* **`Grammar.Productive`**, `productive_iff_tree`, `productive_iff_get?_leastHeights`;
* `Grammar.Visits`, **`exists_candidates_of_visits`**: every node that growth can come to has candidates;
* `Growth.OnlyRunsDry`, **`onlyRunsDry_grow`**: growth fails only for want of numbers.
-/

namespace Chomsky

variable {g : Grammar} {limit room room' maxDepth : Nat} {c c' l r : Char} {a : Alternative}

/-! ## Productive symbols -/

namespace Grammar

/-- **A word can be derived from the symbol**, by one step or more. -/
def Productive (g : Grammar) (c : Char) : Prop :=
  ∃ u w, g.Step [c] u ∧ g.Derives u w ∧ ∀ a ∈ w, a ∈ g.terminals

/-- Only the head of a production can be replaced. -/
theorem Step.mem_nonterminals (hg : g.WellFormed) {u : Word} (h : g.Step [c] u) :
    c ∈ g.nonterminals := by
  generalize hc : [c] = v at h
  cases h with
  | replace before after p hp =>
    have hhead : p.head ∈ [c] := hc ▸ List.mem_append_right _ List.mem_cons_self
    exact List.mem_singleton.mp hhead ▸ hg.head _ hp

theorem productive_iff_tree (hg : g.WellFormed) :
    g.Productive c ↔ ∃ t : Tree, t.Fits g ∧ t.root = c := by
  constructor
  · rintro ⟨u, w, hstep, hrest, hw⟩
    have hcover := hg.derives_iff_covers.mp (.step hstep hrest)
    obtain ⟨t, ht, hroot, -⟩ := covers_writes_iff_tree.mp
      ((hg.covers_leads_iff_writes (hstep.mem_nonterminals hg) hw).mp hcover)
    exact ⟨t, ht, hroot⟩
  · rintro ⟨t, ht, rfl⟩
    have hstep := Step.replace [] [] _ ((g.mem_alternatives).mp ht.alternative_mem)
    exact ⟨t.alternative.body, t.yield, by simpa using hstep, t.derives_body ht, ht.yield_subset hg⟩

theorem productive_iff_derives (hc : c ∉ g.terminals) :
    g.Productive c ↔ ∃ w, g.Derives [c] w ∧ ∀ a ∈ w, a ∈ g.terminals := by
  constructor
  · rintro ⟨u, w, hstep, hrest, hw⟩
    exact ⟨w, .step hstep hrest, hw⟩
  · rintro ⟨w, h, hw⟩
    cases h with
    | refl => exact absurd (hw c List.mem_cons_self) hc
    | step hstep hrest => exact ⟨_, w, hstep, hrest, hw⟩

theorem productive_iff_leastHeight (hg : g.WellFormed) : g.Productive c ↔ ∃ h, g.LeastHeight c h := by
  rw [productive_iff_tree hg]
  constructor
  · rintro ⟨t, ht, rfl⟩
    obtain ⟨h, hleast, -⟩ := exists_leastHeight ht
    exact ⟨h, hleast⟩
  · rintro ⟨h, ⟨t, ht, hroot, -⟩, -⟩
    exact ⟨t, ht, hroot⟩

theorem productive_iff_get?_leastHeights (hg : g.WellFormed) :
    g.Productive c ↔ ∃ h, g.leastHeights.get? c = some h := by
  simp only [productive_iff_leastHeight hg, get?_leastHeights_eq_some_iff hg]

/-! ## The candidates of a node -/

theorem candidates_of_not_productive (hg : g.WellFormed) (hc : ¬ g.Productive c) :
    g.candidates g.leastHeights room c = .error (g.whyBarren c) := by
  rw [productive_iff_get?_leastHeights hg] at hc
  rw [candidates, Option.eq_none_iff_forall_ne_some.mpr fun h hsome => hc ⟨h, hsome⟩]

theorem exists_candidates_of_productive (hg : g.WellFormed) (hc : g.Productive c) (room : Nat) :
    ∃ candidates, g.candidates g.leastHeights room c = .ok candidates ∧ candidates ≠ [] := by
  obtain ⟨least, hleast⟩ := (productive_iff_leastHeight hg).mp hc
  obtain ⟨⟨a, ha, hheight⟩, -⟩ := leastHeight_iff_least.mp hleast
  have hoffers : g.Offers g.leastHeights room c a := by
    refine offers_iff.mpr ⟨ha, least, (get?_leastHeights_eq_some_iff hg).mpr hleast, ?_⟩
    rw [Alternative.isCandidate, (height?_leastHeights_eq_some_iff hg).mpr hheight]
    simp
  obtain ⟨candidates, h, ha'⟩ := hoffers
  exact ⟨candidates, h, List.ne_nil_of_mem ha'⟩

theorem Offers.leastHeight (hg : g.WellFormed) (h : g.Offers g.leastHeights room c a) :
    ∃ m, a.LeastHeight g m ∧ (room = 0 → g.LeastHeight c m) := by
  obtain ⟨-, least, hleast, hcandidate⟩ := offers_iff.mp h
  rw [Alternative.isCandidate] at hcandidate
  split at hcandidate
  · rename_i m hm
    refine ⟨m, (height?_leastHeights_eq_some_iff hg).mp hm, fun hroom => ?_⟩
    have heq : m = least := by simpa [hroom] using hcandidate
    exact heq ▸ (get?_leastHeights_eq_some_iff hg).mp hleast
  · cases hcandidate

/-! ## The nodes that growth can come to -/

/-- The node of `c'` with `room'` levels left can come up in the growth of the node of `c`. -/
inductive Visits (g : Grammar) : Nat → Char → Nat → Char → Prop where
  | here (room : Nat) (c : Char) : Visits g room c room c
  | left {room room' : Nat} {c c' l r : Char} (h : g.Offers g.leastHeights room c (.binary l r))
    (rest : Visits g (room - 1) l room' c') : Visits g room c room' c'
  | right {room room' : Nat} {c c' l r : Char} (h : g.Offers g.leastHeights room c (.binary l r))
    (rest : Visits g (room - 1) r room' c') : Visits g room c room' c'

theorem Offers.productive (hg : g.WellFormed) (h : g.Offers g.leastHeights room c (.binary l r)) :
    g.Productive l ∧ g.Productive r := by
  obtain ⟨_, ⟨m, n, hl, hr, -⟩, -⟩ := h.leastHeight hg
  exact ⟨(productive_iff_leastHeight hg).mpr ⟨m, hl⟩, (productive_iff_leastHeight hg).mpr ⟨n, hr⟩⟩

theorem Visits.productive (hg : g.WellFormed) (h : g.Visits room c room' c') (hc : g.Productive c) :
    g.Productive c' := by
  induction h with
  | here => exact hc
  | left h _ ih => exact ih (h.productive hg).1
  | right h _ ih => exact ih (h.productive hg).2

/-- **Every node that growth can come to has a height and candidates.** -/
theorem exists_candidates_of_visits (hg : g.WellFormed) (hc : g.Productive c)
    (h : g.Visits room c room' c') : (∃ least, g.leastHeights.get? c' = some least) ∧
      ∃ candidates, g.candidates g.leastHeights room' c' = .ok candidates ∧ candidates ≠ [] := by
  have hc' := h.productive hg hc
  exact ⟨(productive_iff_get?_leastHeights hg).mp hc', exists_candidates_of_productive hg hc' room'⟩

/-- The limit on the height leaves room for a shortest tree, and above the depth bound for one of any
nonterminal further down. -/
structure Roomy (g : Grammar) (limit room : Nat) (c : Char) : Prop where
  least : ∃ h, g.LeastHeight c h ∧ h ≤ limit
  bound : 0 < room → ∀ d h, g.LeastHeight d h → room + h ≤ limit

theorem roomy_of_forall_le (hg : g.WellFormed) (hc : g.Productive c) {top : Nat}
    (htop : ∀ d h, g.LeastHeight d h → h ≤ top) (hlimit : maxDepth + top ≤ limit) :
    g.Roomy limit maxDepth c := by
  obtain ⟨h, hleast⟩ := (productive_iff_leastHeight hg).mp hc
  refine ⟨⟨h, hleast, ?_⟩, fun _ d h' hd => ?_⟩
  · have := htop c h hleast
    omega
  · have := htop d h' hd
    omega

theorem roomy_of_productive (hg : g.WellFormed) (hc : g.Productive c) :
    g.Roomy (maxDepth + g.nonterminals.length) maxDepth c :=
  roomy_of_forall_le hg hc (fun _ _ hd => hd.le_length hg) (Nat.le_refl _)

theorem Roomy.productive (hg : g.WellFormed) (h : g.Roomy limit room c) : g.Productive c := by
  obtain ⟨m, hleast, -⟩ := h.least
  exact (productive_iff_leastHeight hg).mpr ⟨m, hleast⟩

theorem LeastHeight.pos {h : Nat} (hleast : g.LeastHeight c h) : 0 < h := by
  obtain ⟨⟨t, -, -, rfl⟩, -⟩ := hleast
  exact t.height_pos

theorem Roomy.pos (h : g.Roomy limit room c) : 0 < limit := by
  obtain ⟨m, hleast, hle⟩ := h.least
  exact Nat.lt_of_lt_of_le hleast.pos hle

theorem Roomy.of_offers (hg : g.WellFormed) (h : g.Roomy (limit + 1) room c)
    (ha : g.Offers g.leastHeights room c (.binary l r)) :
    g.Roomy limit (room - 1) l ∧ g.Roomy limit (room - 1) r := by
  obtain ⟨least, ⟨m, n, hl, hr, hmax⟩, hroom⟩ := ha.leastHeight hg
  have hmax' : least = 1 + max m n := hmax
  have hbound : 0 < room - 1 → ∀ d h, g.LeastHeight d h → room - 1 + h ≤ limit := by
    intro hpos d h' hd
    have := h.bound (by omega) d h' hd
    omega
  -- without room the subtrees are shortest ones, and with room there is enough below for any
  have hle : m ≤ limit ∧ n ≤ limit := by
    rcases Nat.eq_zero_or_pos room with h0 | hpos
    · obtain ⟨least', hleast', hle'⟩ := h.least
      have := (hroom h0).unique hleast'
      omega
    · have := h.bound hpos l m hl
      have := h.bound hpos r n hr
      omega
  exact ⟨⟨⟨m, hl, hle.1⟩, hbound⟩, ⟨⟨n, hr, hle.2⟩, hbound⟩⟩

end Grammar

/-! ## Runs that fail -/

theorem run_randomWordFrom_of_not_productive (hg : g.WellFormed) (hc : ¬ g.Productive c) (d : Draws) :
    (g.randomWordFrom maxDepth c).run.run d = (.error (g.whyBarren c), d) := by
  rw [Grammar.randomWordFrom, Growth.run_bind, Grammar.growTree]
  cases maxDepth + g.nonterminals.length with
  | zero => rfl
  | succ limit =>
    rw [Grammar.grow, Growth.run_bind, Grammar.alternativeAt, Grammar.candidates_of_not_productive hg hc]
    rfl

namespace Growth

variable {α β : Type}

/-- The computation fails only if the supply of numbers is used up. -/
def OnlyRunsDry (x : Growth α) : Prop :=
  ∀ d e d', x.run.run d = (.error e, d') → e = .outOfDraws ∧ d'.size = 0

theorem onlyRunsDry_pure (a : α) : (pure a : Growth α).OnlyRunsDry := fun _ _ _ h => nomatch h

theorem OnlyRunsDry.bind {x : Growth α} {f : α → Growth β} (hx : x.OnlyRunsDry)
    (hf : ∀ a d d', x.run.run d = (.ok a, d') → (f a).OnlyRunsDry) : (x >>= f).OnlyRunsDry := by
  intro d e d' h
  rw [run_bind] at h
  split at h
  · exact hf _ _ _ ‹_› _ _ _ h
  · cases h
    exact hx _ _ _ ‹_›

theorem onlyRunsDry_oneOf (candidates : List α) : (oneOf candidates).OnlyRunsDry := by
  intro d e d' h
  rw [run_oneOf] at h
  rcases d.choose_lt_or_dry candidates.length with ⟨i, hi, hsome⟩ | ⟨hnone, hdry⟩
  · rw [hsome, Option.bind_some, List.getElem?_eq_getElem hi] at h
    cases h
  · rw [hnone] at h
    cases h
    exact ⟨rfl, hdry⟩

end Growth

/-- **Growth fails only for want of numbers.** -/
theorem onlyRunsDry_grow (hg : g.WellFormed) (h : g.Roomy limit room c) :
    (g.grow g.leastHeights limit room c).OnlyRunsDry := by
  induction limit generalizing room c with
  | zero => exact absurd h.pos (Nat.lt_irrefl 0)
  | succ limit ih =>
    obtain ⟨candidates, hcandidates, -⟩ :=
      Grammar.exists_candidates_of_productive hg (h.productive hg) room
    have hroot : (g.alternativeAt g.leastHeights room c).OnlyRunsDry := by
      rw [Grammar.alternativeAt, hcandidates]
      exact Growth.onlyRunsDry_oneOf candidates
    rw [Grammar.grow]
    refine hroot.bind fun a d d' hrun => ?_
    cases a with
    | unary terminal => exact Growth.onlyRunsDry_pure _
    | binary left right =>
      obtain ⟨hl, hr⟩ := h.of_offers hg (run_alternativeAt_eq_ok hrun)
      exact (ih hl).bind fun _ _ _ _ => (ih hr).bind fun _ _ _ _ => Growth.onlyRunsDry_pure _

theorem onlyRunsDry_randomWordFrom (hg : g.WellFormed) (hc : g.Productive c) :
    (g.randomWordFrom maxDepth c).OnlyRunsDry := by
  rw [Grammar.randomWordFrom]
  exact (onlyRunsDry_grow hg (Grammar.roomy_of_productive hg hc)).bind
    fun _ _ _ _ => Growth.onlyRunsDry_pure _

end Chomsky
