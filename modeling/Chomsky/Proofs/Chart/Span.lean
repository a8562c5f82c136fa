import Chomsky.Chart.Span
import Mathlib.Tactic.Ring

/-!
# Positions of spans

The row of all spans of a word lists each span exactly at its position, so a table that is filled in
the order of the row can be read by position.

* **`map_position_all`**: the positions in the row are `0, 1, 2, …`;
* `getElem?_position`, `position_eq_of_getElem?`, `position_lt_of_gap_lt`, **`position_lt_iff`**;
* `Span.slice`: the piece of a word in a span, with **`slice_eq_append_iff`**.
-/

namespace Chomsky.Span

variable {n k : Nat} {s t : Span}

/-! ## Offsets -/

/-- The number of spans whose gap is less than `k` in a word of length `n`. -/
def offset (n k : Nat) : Nat := k * (2 * n - k + 1) / 2

theorem position_eq : s.position n = offset n s.gap + s.first := rfl

theorem offset_zero : offset n 0 = 0 := by rw [offset, Nat.zero_mul]

theorem offset_succ (h : k ≤ n) : offset n (k + 1) = offset n k + (n - k) := by
  obtain ⟨d, rfl⟩ := Nat.exists_eq_add_of_le h
  have h1 : 2 * (k + d) - (k + 1) + 1 = k + 2 * d ∨ k + 2 * d = 0 := by omega
  have h2 : 2 * (k + d) - k + 1 = k + 2 * d + 1 := by omega
  have h3 : (k + 1) * (k + 2 * d) = k * (k + 2 * d + 1) + d * 2 := by ring
  rw [offset, offset, h2, Nat.add_sub_cancel_left]
  rcases h1 with h1 | h1
  · rw [h1, h3, Nat.add_mul_div_right _ _ Nat.two_pos]
  · obtain ⟨rfl, rfl⟩ : k = 0 ∧ d = 0 := by omega
    rfl

theorem two_mul_offset (h : k ≤ n) : 2 * offset n k = k * (2 * n - k + 1) := by
  induction k with
  | zero => rw [offset_zero, Nat.zero_mul]
  | succ k ih =>
    obtain ⟨d, rfl⟩ := Nat.exists_eq_add_of_le h
    have h1 : 2 * (k + 1 + d) - k + 1 = k + 2 * d + 3 := by omega
    have h2 : 2 * (k + 1 + d) - (k + 1) + 1 = k + 2 * d + 2 := by omega
    have h3 : k + 1 + d - k = d + 1 := by omega
    rw [offset_succ (by omega), Nat.mul_add, ih (by omega), h1, h2, h3]
    ring

theorem offset_mono {j : Nat} (hjk : j ≤ k) (hk : k ≤ n) : offset n j ≤ offset n k := by
  induction hjk with
  | refl => exact Nat.le_refl _
  | step hjk ih =>
    rw [offset_succ (by omega)]
    have := ih (by omega)
    omega

/-! ## The row of all spans -/

theorem mem_ofGap : s ∈ ofGap n k ↔ s.last = s.first + k ∧ s.first < n - k := by
  obtain ⟨i, j⟩ := s
  simp only [ofGap, List.mem_map, List.mem_range, mk.injEq]
  constructor
  · rintro ⟨_, h, rfl, rfl⟩
    exact ⟨rfl, h⟩
  · rintro ⟨rfl, h⟩
    exact ⟨i, h, rfl, rfl⟩

theorem mem_all : s ∈ all n ↔ s.Within n := by
  simp only [all, List.mem_flatMap, List.mem_range, mem_ofGap, Within]
  constructor
  · rintro ⟨k, hk, h1, h2⟩
    omega
  · rintro ⟨h1, h2⟩
    exact ⟨s.last - s.first, by omega, by omega, by omega⟩

theorem Within.gap_le (h : s.Within n) : s.gap ≤ n := by
  unfold gap Within at *
  omega

theorem mem_longer : s ∈ longer n ↔ s.Within n ∧ 0 < s.gap := by
  simp only [longer, List.mem_flatMap, List.mem_range'_1, mem_ofGap, Within, gap]
  constructor
  · rintro ⟨k, hk, h1, h2⟩
    omega
  · rintro ⟨⟨h1, h2⟩, h3⟩
    exact ⟨s.last - s.first, by omega, by omega, by omega⟩

theorem length_ofGap : (ofGap n k).length = n - k := by rw [ofGap, List.length_map, List.length_range]

theorem all_eq_append : all n = ofGap n 0 ++ longer n := by
  cases n with
  | zero => rfl
  | succ n =>
    rw [all, longer, List.range_eq_range', List.range'_succ, List.flatMap_cons]
    rfl

theorem all_eq_of_longer_eq {spans rest : List Span} (h : longer n = spans ++ rest) :
    ofGap n 0 ++ spans ++ rest = all n := by rw [all_eq_append, h, List.append_assoc]

theorem map_position_ofGap : (ofGap n k).map (position n) = List.range' (offset n k) (n - k) := by
  rw [ofGap, List.map_map, List.range'_eq_map_range]
  refine List.map_congr_left fun i _ => ?_
  rw [Function.comp_apply, position_eq, gap, Nat.add_sub_cancel_left]

theorem map_position_flatMap (h : k ≤ n) :
    ((List.range k).flatMap (ofGap n)).map (position n) = List.range (offset n k) := by
  induction k with
  | zero => rw [offset_zero]; rfl
  | succ k ih =>
    rw [List.range_succ, List.flatMap_append, List.map_append, ih (by omega), List.flatMap_singleton,
      map_position_ofGap, offset_succ (by omega), List.range_add, List.range'_eq_map_range]

/-- **The positions in the row of all spans are `0, 1, 2, …`**, as many as there are spans. -/
theorem map_position_all : (all n).map (position n) = List.range (n * (n + 1) / 2) := by
  rw [all, map_position_flatMap (Nat.le_refl n), offset]
  congr 3
  omega

theorem position_eq_of_getElem? (h : (all n)[k]? = some s) : s.position n = k := by
  have h1 := congrArg (·[k]?) (map_position_all (n := n))
  simp only [List.getElem?_map, h, Option.map_some] at h1
  rw [eq_comm, List.getElem?_eq_some_iff] at h1
  obtain ⟨hk, h2⟩ := h1
  rw [← h2, List.getElem_range]

theorem getElem?_position (h : s.Within n) : (all n)[s.position n]? = some s := by
  obtain ⟨k, hk⟩ := List.mem_iff_getElem?.mp (mem_all.mpr h)
  rwa [position_eq_of_getElem? hk]

theorem position_lt_of_gap_lt (hs : s.Within n) (ht : t.Within n) (h : s.gap < t.gap) :
    s.position n < t.position n := by
  obtain ⟨hs1, hs2⟩ := hs
  obtain ⟨ht1, ht2⟩ := ht
  have h1 : offset n (s.gap + 1) ≤ offset n t.gap := offset_mono h (by unfold gap; omega)
  rw [offset_succ (by unfold gap; omega)] at h1
  rw [position_eq, position_eq]
  unfold gap at *
  omega

theorem length_all : (all n).length = n * (n + 1) / 2 := by
  rw [← List.length_map (position n), map_position_all, List.length_range]

theorem length_longer : n + (longer n).length = n * (n + 1) / 2 := by
  rw [← length_all, all_eq_append, List.length_append, length_ofGap, Nat.sub_zero]

theorem position_lt (h : s.Within n) : s.position n < n * (n + 1) / 2 := by
  rw [← length_all]
  exact (List.getElem?_eq_some_iff.mp (getElem?_position h)).1

theorem position_inj (hs : s.Within n) (ht : t.Within n) (h : s.position n = t.position n) : s = t := by
  have hrow := getElem?_position hs
  rw [h, getElem?_position ht] at hrow
  exact (Option.some.inj hrow).symm

/-- **Spans are ordered by their gaps**, and those of one gap by their first places. -/
theorem position_lt_iff (hs : s.Within n) (ht : t.Within n) :
    s.position n < t.position n ↔ s.gap < t.gap ∨ (s.gap = t.gap ∧ s.first < t.first) := by
  rcases Nat.lt_trichotomy s.gap t.gap with h | h | h
  · have := position_lt_of_gap_lt hs ht h
    omega
  · rw [position_eq, position_eq, h]
    omega
  · have := position_lt_of_gap_lt ht hs h
    omega

theorem position_single {i : Nat} : (⟨i, i⟩ : Span).position n = i := by
  rw [position_eq, gap, Nat.sub_self, offset_zero, Nat.zero_add]

theorem map_position_longer : (longer n).map (position n) = List.range' n (n * (n + 1) / 2 - n) := by
  have hall := congrArg (List.drop n) (map_position_all (n := n))
  rw [all_eq_append, List.map_append, map_position_ofGap, offset_zero, List.drop_left' (by simp)] at hall
  rw [hall, List.range_eq_range', List.drop_range']
  simp

/-! ## The piece of a word in a span -/

variable {α : Type} {w u v : List α}

/-- The piece of a word from the first to the last place of a span. -/
def slice (s : Span) (w : List α) : List α := (w.drop s.first).take (s.gap + 1)

theorem length_slice (h : s.Within w.length) : (s.slice w).length = s.gap + 1 := by
  obtain ⟨h1, h2⟩ := h
  rw [slice, List.length_take, List.length_drop]
  unfold gap
  omega

theorem slice_single {i : Nat} (h : i < w.length) : (⟨i, i⟩ : Span).slice w = [w[i]] := by
  rw [slice, gap, Nat.sub_self, List.drop_eq_getElem_cons h]
  rfl

theorem slice_whole : (⟨0, w.length - 1⟩ : Span).slice w = w := by
  rw [slice, List.drop_zero]
  exact List.take_of_length_le (by show w.length ≤ w.length - 1 - 0 + 1; omega)

theorem slice_subset : s.slice w ⊆ w := fun _ ha => List.mem_of_mem_drop (List.mem_of_mem_take ha)

theorem mem_splits {l r : Span} : (l, r) ∈ s.splits ↔
    ∃ k, s.first ≤ k ∧ k < s.first + s.gap ∧ l = ⟨s.first, k⟩ ∧ r = ⟨k + 1, s.last⟩ := by
  rw [splits, List.mem_map]
  constructor
  · rintro ⟨k, hk, e⟩
    cases e
    exact ⟨k, (List.mem_range'_1.mp hk).1, (List.mem_range'_1.mp hk).2, rfl, rfl⟩
  · rintro ⟨k, h1, h2, rfl, rfl⟩
    exact ⟨k, List.mem_range'_1.mpr ⟨h1, h2⟩, rfl⟩

theorem slice_append_of_mem_splits {l r : Span} (hs : s.Within w.length) (h : (l, r) ∈ s.splits) :
    l.slice w ++ r.slice w = s.slice w := by
  obtain ⟨k, h1, h2, rfl, rfl⟩ := mem_splits.mp h
  obtain ⟨hs1, hs2⟩ := hs
  unfold gap at h2
  have h3 : s.slice w = (w.drop s.first).take ((k - s.first + 1) + (s.last - (k + 1) + 1)) := by
    rw [slice, gap]
    congr 1
    omega
  have h4 : s.first + (k - s.first + 1) = k + 1 := by omega
  rw [h3, List.take_add, List.drop_drop, h4]
  rfl

/-- **To cut the piece of a span in two is to cut the span.** -/
theorem slice_eq_append_iff (hs : s.Within w.length) (hu : u ≠ []) (hv : v ≠ []) :
    s.slice w = u ++ v ↔ ∃ l r, (l, r) ∈ s.splits ∧ l.slice w = u ∧ r.slice w = v := by
  constructor
  · intro h
    have hlen := length_slice hs
    have hu1 := List.length_pos_iff.mpr hu
    have hv1 := List.length_pos_iff.mpr hv
    rw [h, List.length_append] at hlen
    have hk : ((⟨s.first, s.first + (u.length - 1)⟩, ⟨s.first + (u.length - 1) + 1, s.last⟩) :
        Span × Span) ∈ s.splits := mem_splits.mpr ⟨_, by omega, by omega, rfl, rfl⟩
    have hcut := slice_append_of_mem_splits hs hk
    rw [h] at hcut
    have hl : ((⟨s.first, s.first + (u.length - 1)⟩ : Span).slice w).length = u.length := by
      rw [length_slice ((within_of_mem_splits hs hk).1.1)]
      unfold gap
      simp only [Nat.add_sub_cancel_left]
      omega
    obtain ⟨h1, h2⟩ := List.append_inj hcut hl
    exact ⟨_, _, hk, h1, h2⟩
  · rintro ⟨l, r, hk, rfl, rfl⟩
    exact (slice_append_of_mem_splits hs hk).symm

end Chomsky.Span
