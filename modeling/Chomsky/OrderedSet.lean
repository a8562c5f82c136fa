/-!
# Ordered sets

A set kept as the strictly ascending list of its members. Each set has one such list, so equality
of sets is equality of lists, and a listing comes out in order whatever the order of insertion.

* `Ranked`: a type ordered by an injective rank;
* **`OrderedSet.ext`**: sets with the same members are equal.
-/

namespace Chomsky

/-- A type listed in the order of an injective rank. -/
class Ranked (α : Type) where
  rank : α → Nat
  rank_injective : ∀ {a b : α}, rank a = rank b → a = b

open Ranked

instance : Ranked Nat := ⟨id, id⟩

instance : Ranked Char := ⟨Char.toNat, fun h => Char.ext (UInt32.toNat_inj.mp h)⟩

variable {α : Type} [Ranked α]

/-- Insertion into an ascending list; a member stays as it is. -/
def insertRanked (a : α) : List α → List α
  | [] => [a]
  | b :: l =>
    if rank a < rank b then a :: b :: l
    else if rank a = rank b then b :: l
    else b :: insertRanked a l

theorem mem_insertRanked {a b : α} {l : List α} : b ∈ insertRanked a l ↔ b = a ∨ b ∈ l := by
  induction l with
  | nil => simp [insertRanked]
  | cons c l ih =>
    simp only [insertRanked]
    split
    · simp
    · split
      · rename_i h
        rw [rank_injective h]
        simp
      · simp only [List.mem_cons, ih]
        exact or_left_comm

theorem ascending_insertRanked {a : α} {l : List α} (h : l.Pairwise (rank · < rank ·)) :
    (insertRanked a l).Pairwise (rank · < rank ·) := by
  induction l with
  | nil => simp [insertRanked]
  | cons b l ih =>
    obtain ⟨h1, h2⟩ := List.pairwise_cons.mp h
    simp only [insertRanked]
    split
    · rename_i hab
      refine List.pairwise_cons.mpr ⟨fun c hc => ?_, h⟩
      rcases List.mem_cons.mp hc with rfl | hc
      · exact hab
      · exact Nat.lt_trans hab (h1 c hc)
    · split
      · exact h
      · refine List.pairwise_cons.mpr ⟨fun c hc => ?_, ih h2⟩
        rcases mem_insertRanked.mp hc with rfl | hc
        · omega
        · exact h1 c hc

variable (α) in
/-- **A set as the strictly ascending list of its members.** -/
structure OrderedSet where
  toList : List α
  ascending : toList.Pairwise (rank · < rank ·)

namespace OrderedSet

instance [DecidableEq α] : DecidableEq (OrderedSet α) := fun s t =>
  if h : s.toList = t.toList then
    isTrue (by cases s; cases t; cases h; rfl)
  else isFalse fun e => h (e ▸ rfl)

instance : EmptyCollection (OrderedSet α) := ⟨⟨[], List.Pairwise.nil⟩⟩

instance : Membership α (OrderedSet α) := ⟨fun s a => a ∈ s.toList⟩

instance [DecidableEq α] (a : α) (s : OrderedSet α) : Decidable (a ∈ s) :=
  inferInstanceAs (Decidable (a ∈ s.toList))

/-- The set with one more member, unless it is there already. -/
def insert (s : OrderedSet α) (a : α) : OrderedSet α :=
  ⟨insertRanked a s.toList, ascending_insertRanked s.ascending⟩

/-- The members of a list. -/
def ofList (l : List α) : OrderedSet α := l.foldr (fun a s => s.insert a) ∅

theorem mem_toList {a : α} {s : OrderedSet α} : a ∈ s.toList ↔ a ∈ s := Iff.rfl

@[simp] theorem not_mem_empty (a : α) : a ∉ (∅ : OrderedSet α) := List.not_mem_nil

@[simp] theorem mem_insert {a b : α} {s : OrderedSet α} : b ∈ s.insert a ↔ b = a ∨ b ∈ s :=
  mem_insertRanked

@[simp] theorem mem_ofList {a : α} {l : List α} : a ∈ ofList l ↔ a ∈ l := by
  induction l with
  | nil => simp [ofList]
  | cons b l ih =>
    have h1 : ofList (b :: l) = (ofList l).insert b := rfl
    rw [h1, mem_insert, ih, List.mem_cons]

theorem eq_of_ascending : ∀ {l m : List α}, l.Pairwise (rank · < rank ·) →
    m.Pairwise (rank · < rank ·) → (∀ a, a ∈ l ↔ a ∈ m) → l = m
  | [], [], _, _, _ => rfl
  | [], b :: _, _, _, h => absurd ((h b).mpr List.mem_cons_self) List.not_mem_nil
  | a :: _, [], _, _, h => absurd ((h a).mp List.mem_cons_self) List.not_mem_nil
  | a :: l, b :: m, hl, hm, h => by
    obtain ⟨hl1, hl2⟩ := List.pairwise_cons.mp hl
    obtain ⟨hm1, hm2⟩ := List.pairwise_cons.mp hm
    have hab : a = b := by
      rcases List.mem_cons.mp ((h a).mp List.mem_cons_self) with e | ha
      · exact e
      · rcases List.mem_cons.mp ((h b).mpr List.mem_cons_self) with e | hb
        · exact e.symm
        · have := hm1 a ha
          have := hl1 b hb
          omega
    subst hab
    have htail : ∀ c, c ∈ l ↔ c ∈ m := by
      intro c
      constructor
      · intro hc
        rcases List.mem_cons.mp ((h c).mp (List.mem_cons_of_mem _ hc)) with e | hc'
        · subst e
          exact absurd (hl1 c hc) (Nat.lt_irrefl _)
        · exact hc'
      · intro hc
        rcases List.mem_cons.mp ((h c).mpr (List.mem_cons_of_mem _ hc)) with e | hc'
        · subst e
          exact absurd (hm1 c hc) (Nat.lt_irrefl _)
        · exact hc'
    rw [eq_of_ascending hl2 hm2 htail]

/-- **Sets with the same members are equal.** -/
theorem ext {s t : OrderedSet α} (h : ∀ a, a ∈ s ↔ a ∈ t) : s = t := by
  cases s
  cases t
  congr 1
  exact eq_of_ascending ‹_› ‹_› h

theorem insert_of_mem {a : α} {s : OrderedSet α} (h : a ∈ s) : s.insert a = s :=
  ext fun _ => mem_insert.trans (or_iff_right_of_imp (· ▸ h))

theorem insert_ne_empty (s : OrderedSet α) (a : α) : s.insert a ≠ ∅ := fun h =>
  not_mem_empty a (h ▸ mem_insert.mpr (.inl rfl))

theorem exists_mem_of_ne_empty {s : OrderedSet α} (h : s ≠ ∅) : ∃ a, a ∈ s :=
  Classical.byContradiction fun hnone =>
    h (ext fun a => iff_of_false (fun ha => hnone ⟨a, ha⟩) (not_mem_empty a))

end OrderedSet

end Chomsky
