import Chomsky.OrderedSet

/-!
# Ordered maps

A map kept as the list of its entries, strictly ascending by key. Each map has one such list, so
equality of maps is equality of lists: a key with an entry counts, whatever the entry holds.

* **`OrderedMap.ext`**: maps with the same entries are equal.
-/

namespace Chomsky

open Ranked

variable {κ α : Type} [Ranked κ] [DecidableEq κ] {j k : κ} {f : Option α → α} {l m : List (κ × α)}

/-- Changes the entry of a key in an ascending list, or makes one if there is none. -/
def updateRanked (k : κ) (f : Option α → α) : List (κ × α) → List (κ × α)
  | [] => [(k, f none)]
  | (j, a) :: l =>
    if rank k < rank j then (k, f none) :: (j, a) :: l
    else if rank k = rank j then (k, f (some a)) :: l
    else (j, a) :: updateRanked k f l

omit [DecidableEq κ] in
theorem key_of_mem_updateRanked {e : κ × α} (h : e ∈ updateRanked k f l) :
    e.1 = k ∨ ∃ e' ∈ l, e'.1 = e.1 := by
  induction l with
  | nil => exact .inl (by rw [List.mem_singleton.mp h])
  | cons d l ih =>
    obtain ⟨j, a⟩ := d
    rw [updateRanked] at h
    split at h
    · rcases List.mem_cons.mp h with rfl | h
      · exact .inl rfl
      · exact .inr ⟨e, h, rfl⟩
    · split at h
      · rcases List.mem_cons.mp h with rfl | h
        · exact .inl rfl
        · exact .inr ⟨e, List.mem_cons_of_mem _ h, rfl⟩
      · rcases List.mem_cons.mp h with rfl | h
        · exact .inr ⟨_, List.mem_cons_self, rfl⟩
        · rcases ih h with hk | ⟨e', he', hk⟩
          · exact .inl hk
          · exact .inr ⟨e', List.mem_cons_of_mem _ he', hk⟩

omit [DecidableEq κ] in
theorem ascending_updateRanked (h : l.Pairwise (rank ·.1 < rank ·.1)) :
    (updateRanked k f l).Pairwise (rank ·.1 < rank ·.1) := by
  induction l with
  | nil => exact List.pairwise_singleton _ _
  | cons d l ih =>
    obtain ⟨j, a⟩ := d
    obtain ⟨h1, h2⟩ := List.pairwise_cons.mp h
    rw [updateRanked]
    split
    · rename_i hkj
      refine List.pairwise_cons.mpr ⟨fun e he => ?_, h⟩
      rcases List.mem_cons.mp he with rfl | he
      · exact hkj
      · exact Nat.lt_trans hkj (h1 e he)
    · split
      · rename_i hkj
        refine List.pairwise_cons.mpr ⟨fun e he => ?_, h2⟩
        show rank k < rank e.1
        rw [hkj]
        exact h1 e he
      · refine List.pairwise_cons.mpr ⟨fun e he => ?_, ih h2⟩
        rcases key_of_mem_updateRanked he with hk | ⟨e', he', hk⟩
        · rw [hk]
          show rank j < rank k
          omega
        · rw [← hk]
          exact h1 e' he'

omit [Ranked κ] in
theorem lookup_cons_ite {i : κ} {a : α} :
    ((i, a) :: l).lookup j = if j = i then some a else l.lookup j := by
  rw [List.lookup_cons]
  by_cases hji : j = i
  · rw [if_pos hji, hji, beq_self_eq_true]
  · rw [if_neg hji, beq_false_of_ne hji]

theorem lookup_eq_none_of_rank_lt (h : ∀ e ∈ l, rank k < rank e.1) : l.lookup k = none := by
  rw [List.lookup_eq_none_iff]
  intro e he
  have hne : k ≠ e.1 := fun hk => by
    have hlt := h e he
    rw [← hk] at hlt
    exact Nat.lt_irrefl _ hlt
  exact bne_iff_ne.mpr hne

theorem lookup_updateRanked (h : l.Pairwise (rank ·.1 < rank ·.1)) :
    (updateRanked k f l).lookup j = if j = k then some (f (l.lookup k)) else l.lookup j := by
  induction l with
  | nil => rw [updateRanked, lookup_cons_ite, List.lookup_nil, List.lookup_nil]
  | cons d l ih =>
    obtain ⟨i, a⟩ := d
    obtain ⟨h1, h2⟩ := List.pairwise_cons.mp h
    rw [updateRanked]
    split
    · rename_i hki
      have hnone : ((i, a) :: l).lookup k = none := lookup_eq_none_of_rank_lt fun e he => by
        rcases List.mem_cons.mp he with rfl | he
        · exact hki
        · exact Nat.lt_trans hki (h1 e he)
      rw [lookup_cons_ite, hnone]
    · split
      · rename_i hki
        obtain rfl := rank_injective hki
        rw [lookup_cons_ite, lookup_cons_ite, lookup_cons_ite, if_pos rfl]
        split <;> rfl
      · rename_i hki
        have hne : k ≠ i := fun e => hki (congrArg rank e)
        rw [lookup_cons_ite, ih h2, lookup_cons_ite, lookup_cons_ite, if_neg hne]
        split
        · subst j
          rw [if_neg (Ne.symm hne)]
        · rfl

variable (κ α) in
/-- **A map as the list of its entries**, strictly ascending by key. -/
structure OrderedMap where
  toList : List (κ × α)
  ascending : toList.Pairwise (rank ·.1 < rank ·.1)

namespace OrderedMap

instance [DecidableEq α] : DecidableEq (OrderedMap κ α) := fun m n =>
  if h : m.toList = n.toList then
    isTrue (by cases m; cases n; cases h; rfl)
  else isFalse fun e => h (e ▸ rfl)

instance : EmptyCollection (OrderedMap κ α) := ⟨⟨[], List.Pairwise.nil⟩⟩

/-- The entry of a key. -/
def get? (m : OrderedMap κ α) (k : κ) : Option α := m.toList.lookup k

/-- The map with the entry of a key changed, or made if there was none. -/
def update (m : OrderedMap κ α) (k : κ) (f : Option α → α) : OrderedMap κ α :=
  ⟨updateRanked k f m.toList, ascending_updateRanked m.ascending⟩

@[simp] theorem get?_update (m : OrderedMap κ α) (j k : κ) (f : Option α → α) :
    (m.update k f).get? j = if j = k then some (f (m.get? k)) else m.get? j :=
  lookup_updateRanked m.ascending

theorem eq_of_lookup : ∀ {l m : List (κ × α)}, l.Pairwise (rank ·.1 < rank ·.1) →
    m.Pairwise (rank ·.1 < rank ·.1) → (∀ k, l.lookup k = m.lookup k) → l = m
  | [], [], _, _, _ => rfl
  | [], (k, a) :: _, _, _, h => by
    have hk := h k
    rw [List.lookup_cons_self] at hk
    cases hk
  | (k, a) :: _, [], _, _, h => by
    have hk := h k
    rw [List.lookup_cons_self] at hk
    cases hk
  | (j, a) :: l, (k, b) :: m, hl, hm, h => by
    obtain ⟨hl1, hl2⟩ := List.pairwise_cons.mp hl
    obtain ⟨hm1, hm2⟩ := List.pairwise_cons.mp hm
    have hnone : ∀ {i : κ} {c : α} {l : List (κ × α)}, (∀ e ∈ l, rank i < rank e.1) →
        ∀ {i'}, rank i' < rank i → ((i, c) :: l).lookup i' = none := fun hi i' hlt =>
      lookup_eq_none_of_rank_lt fun e he => by
        rcases List.mem_cons.mp he with rfl | he
        · exact hlt
        · exact Nat.lt_trans hlt (hi e he)
    have hjk : j = k := by
      rcases Nat.lt_trichotomy (rank j) (rank k) with hlt | heq | hlt
      · have hj := h j
        rw [List.lookup_cons_self, hnone hm1 hlt] at hj
        cases hj
      · exact rank_injective heq
      · have hk := h k
        rw [List.lookup_cons_self, hnone hl1 hlt] at hk
        cases hk
    subst hjk
    have hab := h j
    rw [List.lookup_cons_self, List.lookup_cons_self] at hab
    obtain rfl := Option.some.inj hab
    have htail : ∀ i, l.lookup i = m.lookup i := by
      intro i
      by_cases hij : i = j
      · subst hij
        rw [lookup_eq_none_of_rank_lt hl1, lookup_eq_none_of_rank_lt hm1]
      · have hi := h i
        rwa [lookup_cons_ite, lookup_cons_ite, if_neg hij, if_neg hij] at hi
    rw [eq_of_lookup hl2 hm2 htail]

/-- **Maps with the same entries are equal.** -/
theorem ext {m n : OrderedMap κ α} (h : ∀ k, m.get? k = n.get? k) : m = n := by
  cases m
  cases n
  congr 1
  exact eq_of_lookup ‹_› ‹_› h

end OrderedMap

end Chomsky
