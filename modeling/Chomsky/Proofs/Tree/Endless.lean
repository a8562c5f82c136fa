import Chomsky.Proofs.Tree.Progress

/-!
# Growth from an endless source

On an endless source of numbers growth returns a tree if and only if each of its choices ends: they are
finitely many, and each takes a finite piece of the source. A finite piece that is long enough decides
what is returned, whatever the numbers behind it.

* **`exists_returns_grow_iff`**: growth returns a tree if and only if its choices end.
-/

namespace Chomsky

namespace Growth

variable {α β : Type} {σ : Nat → UInt32} {k k₁ k₂ : Nat}

/-- **The computation takes the numbers of the source from place `k` to place `k₁`** and returns a value,
whatever the numbers behind them. -/
def Returns (x : Growth α) (σ : Nat → UInt32) (k : Nat) (a : α) (k₁ : Nat) : Prop :=
  ∃ t, k₁ = k + t ∧ ∀ m, x.run.run (Draws.window σ k (t + m)) = (.ok a, Draws.window σ k₁ m)

theorem returns_pure (a : α) : (pure a : Growth α).Returns σ k a k :=
  ⟨0, rfl, fun m => by rw [Nat.zero_add]; rfl⟩

theorem Returns.bind {x : Growth α} {f : α → Growth β} {a : α} {b : β} (hx : x.Returns σ k a k₁)
    (hf : (f a).Returns σ k₁ b k₂) : (x >>= f).Returns σ k b k₂ := by
  obtain ⟨t, rfl, hx⟩ := hx
  obtain ⟨u, rfl, hf⟩ := hf
  refine ⟨t + u, Nat.add_assoc k t u, fun m => ?_⟩
  rw [Nat.add_assoc, run_bind, hx]
  exact hf m

theorem Returns.unique {x : Growth α} {a a' : α} (h : x.Returns σ k a k₁) (h' : x.Returns σ k a' k₂) :
    a = a' ∧ k₁ = k₂ := by
  obtain ⟨t, rfl, h⟩ := h
  obtain ⟨u, rfl, h'⟩ := h'
  have hrun := h u
  rw [Nat.add_comm t u, h' t] at hrun
  obtain ⟨ha, hd⟩ := Prod.mk.inj hrun
  have hlen := congrArg (·.script.length) hd
  simp only [Draws.window, List.length_map, List.length_range'] at hlen
  rw [hlen]
  exact ⟨(Except.ok.inj ha).symm, rfl⟩

theorem exists_returns_oneOf {candidates : List α}
    (h : ∃ j, k ≤ j ∧ pick candidates.length (σ j) ≠ none) :
    ∃ a k₁, (oneOf candidates).Returns σ k a k₁ := by
  classical
  have hex : ∃ t, pick candidates.length (σ (k + t)) ≠ none := by
    obtain ⟨j, hj, hpick⟩ := h
    exact ⟨j - k, by rwa [Nat.add_sub_of_le hj]⟩
  obtain ⟨i, hi⟩ := Option.ne_none_iff_exists'.mp (Nat.find_spec hex)
  have hrefused : ∀ j < Nat.find hex, pick candidates.length (σ (k + j)) = none :=
    fun j hj => not_not.mp (Nat.find_min hex hj)
  refine ⟨candidates.get ⟨i, lt_of_pick hi⟩, _, Nat.find hex + 1, rfl, fun m => ?_⟩
  exact run_oneOf_eq_ok_iff.mpr
    ⟨i, Draws.choose_window hrefused hi, List.getElem?_eq_getElem (lt_of_pick hi)⟩

/-- **What a finite piece of a source decides is decided for the whole source.** -/
def Local (x : Growth α) : Prop :=
  ∀ σ k m a d', x.run.run (Draws.window σ k m) = (.ok a, d') →
    ∃ t ≤ m, d' = Draws.window σ (k + t) (m - t) ∧ x.Returns σ k a (k + t)

theorem local_pure (a : α) : (pure a : Growth α).Local := by
  intro σ k m a' d' h
  cases h
  exact ⟨0, Nat.zero_le m, rfl, returns_pure a⟩

theorem local_throw (e : GrowthError) : (throw e : Growth α).Local := fun _ _ _ _ _ h => nomatch h

theorem Local.bind {x : Growth α} {f : α → Growth β} (hx : x.Local) (hf : ∀ a, (f a).Local) :
    (x >>= f).Local := by
  intro σ k m b d' h
  obtain ⟨a, d₁, h1, h2⟩ := run_bind_eq_ok_iff.mp h
  obtain ⟨t, ht, rfl, hta⟩ := hx _ _ _ _ _ h1
  obtain ⟨u, hu, rfl, hub⟩ := hf a _ _ _ _ _ h2
  refine ⟨t + u, by omega, ?_, ?_⟩
  · rw [Nat.add_assoc, Nat.sub_sub]
  · rw [← Nat.add_assoc]
    exact hta.bind hub

theorem local_oneOf (candidates : List α) : (oneOf candidates).Local := by
  intro σ k m a d' h
  obtain ⟨i, hchoose, ha⟩ := run_oneOf_eq_ok_iff.mp h
  obtain ⟨t, ht, hrefused, hpick, rfl⟩ := Draws.exists_of_choose_window hchoose
  refine ⟨t + 1, ht, rfl, t + 1, rfl, fun m => ?_⟩
  exact run_oneOf_eq_ok_iff.mpr ⟨i, Draws.choose_window hrefused hpick, ha⟩

end Growth

variable {g : Grammar} {heights : Heights} {σ : Nat → UInt32} {limit room k k₁ : Nat} {c : Char}

/-! ## Runs on finite pieces -/

theorem local_alternativeAt : (g.alternativeAt heights room c).Local := by
  rw [Grammar.alternativeAt]
  cases g.candidates heights room c with
  | ok candidates => exact Growth.local_oneOf candidates
  | error e => exact Growth.local_throw e

theorem local_grow : (g.grow heights limit room c).Local := by
  induction limit generalizing room c with
  | zero => exact Growth.local_throw _
  | succ limit ih =>
    rw [Grammar.grow]
    refine local_alternativeAt.bind fun a => ?_
    cases a with
    | unary terminal => exact Growth.local_pure _
    | binary left right => exact ih.bind fun l => ih.bind fun r => Growth.local_pure _

/-! ## The choices of one growth -/

/-- **Each choice of one growth ends**: the choice at its root, which begins at place `k` of the source,
and those in both subtrees, the right one being grown from where the numbers of the left one end. -/
def Grammar.ChoicesEnd (g : Grammar) (σ : Nat → UInt32) : (limit room : Nat) → Char → (k : Nat) → Prop
  | 0, _, _, _ => True
  | limit + 1, room, c, k =>
    (∀ candidates, g.candidates g.leastHeights room c = .ok candidates →
      ∃ j, k ≤ j ∧ pick candidates.length (σ j) ≠ none) ∧
    ∀ l r k₁, (g.alternativeAt g.leastHeights room c).Returns σ k (.binary l r) k₁ →
      ChoicesEnd g σ limit (room - 1) l k₁ ∧
      ∀ t k₂, (g.grow g.leastHeights limit (room - 1) l).Returns σ k₁ t k₂ →
        ChoicesEnd g σ limit (room - 1) r k₂

theorem choicesEnd_of_forall (h : ∀ n k, 0 < n → ∃ j, k ≤ j ∧ pick n (σ j) ≠ none) :
    g.ChoicesEnd σ limit room c k := by
  induction limit generalizing room c k with
  | zero => exact trivial
  | succ limit ih =>
    refine ⟨fun candidates hcandidates => ?_, fun l r k₁ _ => ⟨ih, fun _ _ _ => ih⟩⟩
    obtain ⟨-, -, -, hne⟩ := Grammar.candidates_eq_ok_iff.mp hcandidates
    exact h _ k (List.length_pos_iff.mpr hne)

theorem exists_returns_grow (hg : g.WellFormed) (h : g.Roomy limit room c)
    (hends : g.ChoicesEnd σ limit room c k) :
    ∃ t k₁, (g.grow g.leastHeights limit room c).Returns σ k t k₁ := by
  induction limit generalizing room c k with
  | zero => exact absurd h.pos (Nat.lt_irrefl 0)
  | succ limit ih =>
    obtain ⟨candidates, hcandidates, -⟩ :=
      Grammar.exists_candidates_of_productive hg (h.productive hg) room
    obtain ⟨hroot, hsubtrees⟩ := hends
    obtain ⟨a, k₁, ha⟩ : ∃ a k₁, (g.alternativeAt g.leastHeights room c).Returns σ k a k₁ := by
      rw [Grammar.alternativeAt, hcandidates]
      exact Growth.exists_returns_oneOf (hroot candidates hcandidates)
    rw [Grammar.grow]
    cases a with
    | unary terminal => exact ⟨_, _, ha.bind (Growth.returns_pure _)⟩
    | binary left right =>
      obtain ⟨t, -, hrun⟩ := id ha
      obtain ⟨hl, hr⟩ := h.of_offers hg (run_alternativeAt_eq_ok (hrun 0))
      obtain ⟨hendsl, hendsr⟩ := hsubtrees left right k₁ ha
      obtain ⟨tl, k₂, htl⟩ := ih hl hendsl
      obtain ⟨tr, k₃, htr⟩ := ih hr (hendsr tl k₂ htl)
      exact ⟨_, _, ha.bind (htl.bind (htr.bind (Growth.returns_pure _)))⟩

theorem choicesEnd_of_returns {t : Tree} (h : (g.grow g.leastHeights limit room c).Returns σ k t k₁) :
    g.ChoicesEnd σ limit room c k := by
  induction limit generalizing room c k t k₁ with
  | zero => exact trivial
  | succ limit ih =>
    obtain ⟨m, -, hrun⟩ := h
    have hrun := hrun 0
    rw [Grammar.grow] at hrun
    obtain ⟨a, d₁, h1, h2⟩ := Growth.run_bind_eq_ok_iff.mp hrun
    obtain ⟨u, -, rfl, ha⟩ := local_alternativeAt _ _ _ _ _ h1
    refine ⟨fun candidates hcandidates => ?_, fun l r k' hret => ?_⟩
    · rw [Grammar.alternativeAt, hcandidates] at h1
      obtain ⟨i, hchoose, -⟩ := Growth.run_oneOf_eq_ok_iff.mp h1
      obtain ⟨j, -, -, hpick, -⟩ := Draws.exists_of_choose_window hchoose
      exact ⟨k + j, Nat.le_add_right k j, by rw [hpick]; exact Option.some_ne_none i⟩
    · obtain ⟨rfl, rfl⟩ := ha.unique hret
      obtain ⟨tl, d₂, hl, h3⟩ := Growth.run_bind_eq_ok_iff.mp h2
      obtain ⟨tr, d₃, hr, -⟩ := Growth.run_bind_eq_ok_iff.mp h3
      obtain ⟨v, -, rfl, hretl⟩ := local_grow _ _ _ _ _ hl
      obtain ⟨x, -, -, hretr⟩ := local_grow _ _ _ _ _ hr
      refine ⟨ih hretl, fun tl' k₂ hret' => ?_⟩
      obtain ⟨-, rfl⟩ := hretl.unique hret'
      exact ih hretr

/-- **Growth returns a tree if and only if each of its choices ends.** -/
theorem exists_returns_grow_iff (hg : g.WellFormed) (h : g.Roomy limit room c) :
    (∃ t k₁, (g.grow g.leastHeights limit room c).Returns σ k t k₁) ↔ g.ChoicesEnd σ limit room c k := by
  constructor
  · rintro ⟨t, k₁, hret⟩
    exact choicesEnd_of_returns hret
  · exact exists_returns_grow hg h

end Chomsky
