import Chomsky.Draws
import Mathlib.Algebra.Group.Nat.Defs

/-!
# What a choice takes

Among fewer than `2 ^ 32` candidates each index is chosen by equally many numbers, which stand in a row: the products
that are accepted for an index fill a stretch whose length is a multiple of the number of candidates. A choice takes
numbers up to the first one that is not refused, and fails only where a finite supply has none left.

* `pick_eq_some_iff`, `shifted_bounds`, `shift_unique`, **`exists_row`**: the numbers that pick an index;
* **`exists_pick`**, `lt_of_pick`, `pick_zero`: every index is picked by some number;
* `Draws.choose_of_next?`, `Draws.choose_cons`, **`Draws.choose_lt_or_dry`**: the choice that a supply makes;
* `Draws.Gives`, **`Draws.choose_eq_some_iff`**: the numbers that a choice takes;
* `Draws.window`, **`Draws.choose_window`**, `Draws.exists_of_choose_window`: the choice that an endless
  source makes.
-/

namespace Chomsky

variable {n i : Nat}

theorem pick_eq_some_iff {v : UInt32} : pick n v = some i ↔
    v.toNat * n % 0x100000000 < n <<< (31 - n.log2) ∧ v.toNat * n / 0x100000000 = i := by
  rw [pick, Option.ite_none_right_eq_some, Option.some.injEq]

theorem shifted_bounds (hpos : 0 < n) (hn : n < 0x100000000) :
    2 ^ 31 ≤ n * 2 ^ (31 - n.log2) ∧ n * 2 ^ (31 - n.log2) < 2 ^ 32 := by
  have hlog : n.log2 ≤ 31 := Nat.lt_succ_iff.mp ((Nat.log2_lt (Nat.ne_of_gt hpos)).mpr hn)
  have hle := Nat.log2_self_le (Nat.ne_of_gt hpos)
  have hlt := Nat.lt_log2_self (n := n)
  constructor
  · calc 2 ^ 31 = 2 ^ n.log2 * 2 ^ (31 - n.log2) := by rw [← Nat.pow_add, Nat.add_sub_cancel' hlog]
      _ ≤ n * 2 ^ (31 - n.log2) := Nat.mul_le_mul_right _ hle
  · calc n * 2 ^ (31 - n.log2) < 2 ^ (n.log2 + 1) * 2 ^ (31 - n.log2) :=
          Nat.mul_lt_mul_of_pos_right hlt (Nat.two_pow_pos _)
      _ = 2 ^ 32 := by rw [← Nat.pow_add, Nat.add_right_comm, Nat.add_sub_cancel' hlog]

theorem shift_unique {k l : Nat} (hk : 2 ^ 31 ≤ n * 2 ^ k ∧ n * 2 ^ k < 2 ^ 32)
    (hl : 2 ^ 31 ≤ n * 2 ^ l ∧ n * 2 ^ l < 2 ^ 32) : k = l := by
  have hle : ∀ k l, 2 ^ 31 ≤ n * 2 ^ k → n * 2 ^ l < 2 ^ 32 → l ≤ k := by
    intro k l hlow hhigh
    refine Nat.le_of_not_lt fun hlt => ?_
    have hmul : n * 2 ^ (k + 1) ≤ n * 2 ^ l := Nat.mul_le_mul_left n (Nat.pow_le_pow_right Nat.two_pos hlt)
    rw [Nat.pow_succ, ← Nat.mul_assoc] at hmul
    omega
  exact Nat.le_antisymm (hle l k hl.1 hk.2) (hle k l hk.1 hl.2)

theorem pick_eq_some_iff_mul {v : UInt32} (hpos : 0 < n) (hn : n < 0x100000000) : pick n v = some i ↔
    i * 0x100000000 ≤ v.toNat * n ∧ v.toNat * n < i * 0x100000000 + n * 2 ^ (31 - n.log2) := by
  have hbound := (shifted_bounds hpos hn).2
  rw [pick_eq_some_iff, Nat.shiftLeft_eq]
  omega

theorem roundUp_le_iff {a v : Nat} (hpos : 0 < n) : (a + (n - 1)) / n ≤ v ↔ a ≤ v * n := by
  rw [Nat.div_le_iff_le_mul_add_pred hpos, Nat.add_le_add_iff_right, Nat.mul_comm]

/-- **The numbers that pick an index stand in a row**, and there are as many for each index. -/
theorem exists_row (hi : i < n) (hn : n < 0x100000000) :
    ∃ first, first + 2 ^ (31 - n.log2) ≤ 0x100000000 ∧
      ∀ v : UInt32, pick n v = some i ↔ first ≤ v.toNat ∧ v.toNat < first + 2 ^ (31 - n.log2) := by
  have hpos : 0 < n := Nat.zero_lt_of_lt hi
  have hbound := (shifted_bounds hpos hn).2
  -- the stretch is a multiple of `n` long, so the row ends at a quotient that is rounded up as well
  have hend : (i * 0x100000000 + (n - 1)) / n + 2 ^ (31 - n.log2) =
      (i * 0x100000000 + n * 2 ^ (31 - n.log2) + (n - 1)) / n := by
    rw [Nat.add_right_comm, Nat.add_mul_div_left _ _ hpos]
  refine ⟨(i * 0x100000000 + (n - 1)) / n, ?_, fun v => ?_⟩
  · rw [hend, roundUp_le_iff hpos]
    omega
  · rw [pick_eq_some_iff_mul hpos hn, hend, roundUp_le_iff hpos, ← Nat.not_le, ← Nat.not_le, roundUp_le_iff hpos]

/-- **Every index is picked by some number.** -/
theorem exists_pick (hi : i < n) (hn : n < 0x100000000) : ∃ v, pick n v = some i := by
  obtain ⟨first, hle, hrow⟩ := exists_row hi hn
  have hshare := Nat.two_pow_pos (31 - n.log2)
  have hfirst : first < 0x100000000 := by omega
  refine ⟨UInt32.ofNat first, (hrow _).mpr ?_⟩
  rw [UInt32.toNat_ofNat_of_lt' hfirst]
  omega

theorem lt_of_pick {v : UInt32} (h : pick n v = some i) : i < n := by
  obtain ⟨hlow, rfl⟩ := pick_eq_some_iff.mp h
  have hpos : 0 < n := by
    refine Nat.pos_of_ne_zero fun hn => ?_
    rw [hn, Nat.zero_shiftLeft] at hlow
    exact absurd hlow (Nat.not_lt_zero _)
  rw [Nat.div_lt_iff_lt_mul (by decide), Nat.mul_comm]
  exact Nat.mul_lt_mul_of_pos_left v.toNat_lt hpos

theorem pick_zero (hn : 0 < n) : pick n 0 = some 0 := by
  refine pick_eq_some_iff.mpr ⟨?_, by rw [UInt32.toNat_zero, Nat.zero_mul, Nat.zero_div]⟩
  rw [UInt32.toNat_zero, Nat.zero_mul, Nat.zero_mod, Nat.shiftLeft_eq]
  exact Nat.mul_pos hn (Nat.two_pow_pos _)

namespace Draws

/-! ## One number at a time -/

variable {d d' : Draws} {v : UInt32}

theorem size_of_next?_eq_none (h : d.next? = none) : d.size = 0 := by
  unfold next? at h
  split at h
  · cases h
  · cases h
  · rfl

/-- **A choice looks at one number**, and begins anew behind it if it is refused. -/
theorem choose_of_next? (h : d.next? = some (v, d')) : choose n d =
    match pick n v with
    | some i => (some i, d')
    | none => choose n d' := by
  rw [choose, size_of_next? h, chooseWithin, h]
  rfl

theorem choose_cons {script : List UInt32} {state : UInt64} {reserve : Nat} (h : pick n v = some i) :
    choose n ⟨v :: script, state, reserve⟩ = (some i, ⟨script, state, reserve⟩) := by
  rw [choose_of_next? (by rw [next?]), h]

/-- **A choice is one of the candidates**, unless the supply runs dry. -/
theorem choose_lt_or_dry (n : Nat) (d : Draws) :
    (∃ i < n, (d.choose n).1 = some i) ∨ ((d.choose n).1 = none ∧ (d.choose n).2.size = 0) := by
  induction hsize : d.size generalizing d with
  | zero =>
    rw [choose, hsize, chooseWithin]
    exact .inr ⟨rfl, hsize⟩
  | succ size ih =>
    cases hnext : d.next? with
    | none =>
      have hdry := size_of_next?_eq_none hnext
      omega
    | some q =>
      obtain ⟨v, d'⟩ := q
      rw [choose_of_next? hnext]
      cases hpick : pick n v with
      | some i => exact .inl ⟨i, lt_of_pick hpick, rfl⟩
      | none =>
        have hrest := size_of_next? hnext
        exact ih d' (by omega)

/-! ## What a supply gives -/

/-- **The supply gives these numbers**, one after the other, and is left as another one. -/
def Gives : Draws → List UInt32 → Draws → Prop
  | d, [], d' => d = d'
  | d, v :: vs, d' => ∃ d₁, d.next? = some (v, d₁) ∧ Gives d₁ vs d'

theorem gives_append {us vs : List UInt32} :
    d.Gives (us ++ vs) d' ↔ ∃ d₁, d.Gives us d₁ ∧ d₁.Gives vs d' := by
  induction us generalizing d with
  | nil => simp only [List.nil_append, Gives, exists_eq_left']
  | cons u us ih =>
    simp only [List.cons_append, Gives, ih]
    constructor
    · rintro ⟨d₁, hu, d₂, hus, hvs⟩
      exact ⟨d₂, ⟨d₁, hu, hus⟩, hvs⟩
    · rintro ⟨d₂, ⟨d₁, hu, hus⟩, hvs⟩
      exact ⟨d₁, hu, d₂, hus, hvs⟩

/-- **A choice takes some numbers that are refused and one that picks.** -/
theorem choose_eq_some_iff : d.choose n = (some i, d') ↔ ∃ refused v,
    (∀ u ∈ refused, pick n u = none) ∧ pick n v = some i ∧ d.Gives (refused ++ [v]) d' := by
  constructor
  · intro h
    induction hsize : d.size generalizing d with
    | zero =>
      rw [choose, hsize, chooseWithin] at h
      cases h
    | succ size ih =>
      cases hnext : d.next? with
      | none =>
        have hdry := size_of_next?_eq_none hnext
        omega
      | some q =>
        obtain ⟨v, d₁⟩ := q
        rw [choose_of_next? hnext] at h
        cases hpick : pick n v with
        | some j =>
          rw [hpick] at h
          cases h
          exact ⟨[], v, List.forall_mem_nil _, hpick, _, hnext, rfl⟩
        | none =>
          rw [hpick] at h
          have hrest := size_of_next? hnext
          obtain ⟨refused, u, hrefused, hu, hgives⟩ := ih h (by omega)
          exact ⟨v :: refused, u, List.forall_mem_cons.mpr ⟨hpick, hrefused⟩, hu, d₁, hnext, hgives⟩
  · rintro ⟨refused, v, hrefused, hv, hgives⟩
    induction refused generalizing d with
    | nil =>
      obtain ⟨d₁, hnext, rfl⟩ := hgives
      rw [choose_of_next? hnext, hv]
    | cons u refused ih =>
      obtain ⟨hu, hrefused⟩ := List.forall_mem_cons.mp hrefused
      obtain ⟨d₁, hnext, hrest⟩ := hgives
      rw [choose_of_next? hnext, hu]
      exact ih hrefused hrest

/-! ## Endless sources -/

/-- The `n` numbers of an endless source from its place `k` on. -/
def window (σ : Nat → UInt32) (k n : Nat) : Draws := ⟨(List.range' k n).map σ, 0, 0⟩

variable {σ : Nat → UInt32} {k m t : Nat}

theorem next?_window : (window σ k (m + 1)).next? = some (σ k, window σ (k + 1) m) := by
  rw [window, List.range'_succ, List.map_cons, next?, window]

theorem size_window : (window σ k m).size = m := by
  rw [size, window, List.length_map, List.length_range', Nat.add_zero]

theorem Gives.eq_map_range' {vs : List UInt32} (h : (window σ k m).Gives vs d') (hdry : d'.size = 0) :
    vs = (List.range' k m).map σ := by
  induction vs generalizing k m with
  | nil =>
    obtain rfl := h
    rw [size_window] at hdry
    rw [hdry]
    rfl
  | cons v vs ih =>
    obtain ⟨d₁, hnext, hrest⟩ := h
    cases m with
    | zero => cases hnext
    | succ m =>
      rw [next?_window] at hnext
      cases hnext
      rw [ih hrest, List.range'_succ, List.map_cons]

/-- **The first number of a source that is not refused makes the choice.** -/
theorem choose_window (hrefused : ∀ j < t, pick n (σ (k + j)) = none) (h : pick n (σ (k + t)) = some i) :
    choose n (window σ k (t + 1 + m)) = (some i, window σ (k + (t + 1)) m) := by
  induction t generalizing k with
  | zero =>
    rw [Nat.zero_add, Nat.add_comm 1 m, choose_of_next? next?_window]
    rw [Nat.add_zero] at h
    rw [h]
  | succ t ih =>
    have hk : pick n (σ k) = none := hrefused 0 (Nat.succ_pos t)
    have hlen : t + 1 + 1 + m = t + 1 + m + 1 := by omega
    rw [hlen, choose_of_next? next?_window, hk]
    have hshift : ∀ j, k + 1 + j = k + (j + 1) := fun j => by omega
    have hrest := ih (k := k + 1) (fun j hj => by rw [hshift]; exact hrefused _ (by omega))
      (by rw [hshift]; exact h)
    rw [hshift] at hrest
    exact hrest

theorem exists_of_choose_window (h : choose n (window σ k m) = (some i, d')) :
    ∃ t < m, (∀ j < t, pick n (σ (k + j)) = none) ∧ pick n (σ (k + t)) = some i ∧
      d' = window σ (k + (t + 1)) (m - (t + 1)) := by
  induction m generalizing k with
  | zero => cases h
  | succ m ih =>
    rw [choose_of_next? next?_window] at h
    cases hpick : pick n (σ k) with
    | some i' =>
      rw [hpick] at h
      cases h
      exact ⟨0, Nat.succ_pos m, fun j hj => absurd hj (Nat.not_lt_zero j), hpick, rfl⟩
    | none =>
      rw [hpick] at h
      obtain ⟨t, ht, hrefused, hsome, hd⟩ := ih h
      have hshift : ∀ j, k + 1 + j = k + (j + 1) := fun j => by omega
      refine ⟨t + 1, by omega, fun j hj => ?_, by rwa [← hshift], ?_⟩
      · cases j with
        | zero => exact hpick
        | succ j =>
          rw [← hshift]
          exact hrefused j (by omega)
      · rw [hd, hshift, Nat.succ_sub_succ]

end Draws

end Chomsky
