import Chomsky.Text.Lines

/-!
# Lines are what stands between separators

* **`filter_cutLines`**: tests that the empty line fails cannot tell the two.
-/

namespace Chomsky

variable {α : Type} [DecidableEq α]

theorem cutLines_cons_of_ne {sep c : α} (hc : c ≠ sep) (cs : List α) : cutLines sep (c :: cs) =
    (c :: (cutLines sep cs).headD []) :: (cutLines sep cs).tail := by
  rw [cutLines, if_neg hc]
  cases cutLines sep cs <;> rfl

theorem cutLines_append {sep : α} {l rest : List α} (hsep : sep ∉ l) (hne : l ≠ []) :
    cutLines sep (l ++ rest) = (l ++ (cutLines sep rest).headD []) :: (cutLines sep rest).tail := by
  induction l with
  | nil => exact absurd rfl hne
  | cons c l ih =>
    obtain ⟨hc, hl⟩ := not_or.mp fun h => hsep (List.mem_cons.mpr h)
    rw [List.cons_append, cutLines_cons_of_ne (Ne.symm hc)]
    cases l with
    | nil => rfl
    | cons d l =>
      rw [ih hl (List.cons_ne_nil d l)]
      rfl

theorem splitOn_eq_cutLines (sep : α) (l : List α) :
    l.splitOn sep = cutLines sep l ∨ l.splitOn sep = cutLines sep l ++ [[]] := by
  induction l with
  | nil => exact .inr (List.splitOn_nil sep)
  | cons c l ih =>
    rw [List.splitOn_cons_eq_if_modifyHead]
    by_cases hc : c = sep
    · subst hc
      rw [if_pos (beq_self_eq_true c), cutLines_sep_cons]
      rcases ih with ih | ih
      · exact .inl (by rw [ih])
      · exact .inr (by rw [ih, List.cons_append])
    · rw [if_neg (by simpa using hc), cutLines, if_neg hc]
      cases hl : cutLines sep l with
      | nil =>
        rw [hl] at ih
        rcases ih with ih | ih
        · exact absurd ih (List.splitOn_ne_nil sep l)
        · exact .inl (by rw [ih]; rfl)
      | cons line lines =>
        rw [hl] at ih
        rcases ih with ih | ih
        · exact .inl (by rw [ih]; rfl)
        · exact .inr (by rw [ih]; rfl)

theorem filter_cutLines {sep : α} {l : List α} {test : List α → Bool} (htest : test [] = false) :
    (cutLines sep l).filter test = (l.splitOn sep).filter test := by
  rcases splitOn_eq_cutLines sep l with h | h
  · rw [h]
  · rw [h, List.filter_append, List.filter_cons_of_neg (by simp [htest]), List.filter_nil,
      List.append_nil]

/-! ## The pieces of a split -/

theorem not_mem_of_mem_splitOn {sep : α} {l piece : List α} (h : piece ∈ l.splitOn sep) :
    sep ∉ piece := by
  rcases splitOn_eq_cutLines sep l with hl | hl
  · rw [hl] at h
    exact not_mem_of_mem_cutLines sep l piece h
  · rw [hl] at h
    rcases List.mem_append.mp h with h | h
    · exact not_mem_of_mem_cutLines sep l piece h
    · rw [List.mem_singleton.mp h]
      exact List.not_mem_nil

/-- **A split loses nothing but the separators.** -/
theorem flatMap_filterMap_splitOn {β : Type} {sep : α} {f : α → Option β} (hsep : f sep = none)
    (l : List α) : (l.splitOn sep).flatMap (·.filterMap f) = l.filterMap f := by
  induction l with
  | nil => rw [List.splitOn_nil]; rfl
  | cons c l ih =>
    rw [List.splitOn_cons_eq_if_modifyHead]
    by_cases hc : c = sep
    · subst hc
      rw [if_pos (beq_self_eq_true c), List.filterMap_cons_none hsep, ← ih]
      rfl
    · rw [if_neg (by simpa using hc)]
      obtain ⟨piece, pieces, hl⟩ := List.exists_cons_of_ne_nil (List.splitOn_ne_nil sep l)
      rw [hl] at ih ⊢
      rw [List.modifyHead_cons, List.flatMap_cons, List.filterMap_cons, List.filterMap_cons, ← ih]
      cases f c <;> rfl

theorem exists_mem_splitOn_iff {sep a : α} {l : List α} (hne : a ≠ sep) :
    (∃ piece ∈ l.splitOn sep, a ∈ piece) ↔ a ∈ l := by
  have hguard : ∀ m : List α, a ∈ m.filterMap (Option.guard (decide <| · ≠ sep)) ↔ a ∈ m := by
    intro m
    rw [List.filterMap_eq_filter, List.mem_filter]
    exact and_iff_left (decide_eq_true hne)
  have hsep : Option.guard (decide <| · ≠ sep) sep = none := by simp
  rw [← hguard l, ← flatMap_filterMap_splitOn hsep, List.mem_flatMap]
  simp only [hguard]

/-! ## Text before and behind -/

theorem exists_splitOn_append (sep : α) (u : List α) : ∃ before l, sep ∉ l ∧ l <:+ u ∧
    ∀ w, (u ++ w).splitOn sep = before ++ (l ++ w).splitOn sep := by
  by_cases hsep : sep ∈ u
  · obtain ⟨l, before, hu, hl⟩ := List.eq_append_cons_of_mem (List.mem_reverse.mpr hsep)
    obtain rfl : u = before.reverse ++ sep :: l.reverse := by simpa using congrArg List.reverse hu
    refine ⟨before.reverse.splitOn sep, l.reverse, by simpa using hl, ?_, fun w => ?_⟩
    · exact (List.suffix_cons ..).trans (List.suffix_append ..)
    · rw [List.append_assoc, List.cons_append, List.splitOn_append_cons_self]
  · exact ⟨[], u, hsep, List.suffix_refl u, fun w => rfl⟩

theorem exists_splitOn_cons (sep : α) (v : List α) : ∃ r after, r <+: v ∧
    ∀ w, sep ∉ w → (w ++ v).splitOn sep = (w ++ r) :: after := by
  by_cases hsep : sep ∈ v
  · obtain ⟨r, after, rfl, hr⟩ := List.eq_append_cons_of_mem hsep
    refine ⟨r, after.splitOn sep, List.prefix_append .., fun w hw => ?_⟩
    rw [← List.append_assoc, List.splitOn_append_cons_self_of_not_mem (by simp [hw, hr])]
  · exact ⟨v, [], List.prefix_refl v, fun w hw => List.splitOn_eq_singleton (by simp [hw, hsep])⟩

theorem splitOn_flatMap_append {sep : α} {before : List (List α)} (h : ∀ l ∈ before, sep ∉ l)
    (behind : List α) : (before.flatMap (· ++ [sep]) ++ behind).splitOn sep =
      before ++ behind.splitOn sep := by
  induction before with
  | nil => rfl
  | cons l before ih =>
    obtain ⟨hl, hbefore⟩ := List.forall_mem_cons.mp h
    rw [List.flatMap_cons, List.append_assoc, List.append_assoc, List.singleton_append,
      List.splitOn_append_cons_self_of_not_mem hl, ih hbefore, List.cons_append]

theorem splitOn_flatMap_cons {sep : α} {pieces : List (List α)} (h : ∀ piece ∈ pieces, sep ∉ piece) :
    (pieces.flatMap (sep :: ·)).splitOn sep = [] :: pieces := by
  induction pieces with
  | nil => exact List.splitOn_nil sep
  | cons piece pieces ih =>
    obtain ⟨hpiece, hpieces⟩ := List.forall_mem_cons.mp h
    obtain ⟨r, after, -, hafter⟩ := exists_splitOn_cons sep (pieces.flatMap (sep :: ·))
    obtain ⟨rfl, rfl⟩ : r = [] ∧ after = pieces :=
      List.cons.inj ((hafter [] List.not_mem_nil).symm.trans (ih hpieces))
    rw [List.flatMap_cons]
    show ([] ++ sep :: (piece ++ _)).splitOn sep = _
    rw [List.splitOn_append_cons_self, hafter piece hpiece, List.splitOn_nil, List.append_nil,
      List.singleton_append]

end Chomsky
