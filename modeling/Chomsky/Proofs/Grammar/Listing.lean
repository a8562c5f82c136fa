import Chomsky.Grammar.Listing
import Chomsky.Proofs.Grammar.Contents
import Chomsky.Proofs.Text.Lines
import Mathlib.Data.List.Sort
import Mathlib.Data.String.Basic

/-!
# What a listing tells

The alternatives of a head are listed in the order of their code points. That is not the order in which they are
kept, where every pair of nonterminals comes first: a letter may have a smaller code point than an accented capital.
The texts stand side by side without escapes, but bars and line breaks are no letters, so a listing can be taken apart
again and tells all that it was made of.

* `Alternative.codePoints`, `sortedAlternatives`, **`pairwise_codePoints`**: the alternatives of a head, ascending
  by their code points;
* **`listing_ascending_and_injective`**: the listings of a reachable grammar.
-/

namespace Chomsky

/-! ## The order of the alternatives -/

/-- The characters of the text of an alternative, as numbers. -/
def Alternative.codePoints (a : Alternative) : List Nat := a.text.toList.map Char.toNat

theorem Alternative.codePoints_lt {a b : Alternative} (h : a.text < b.text) :
    a.codePoints < b.codePoints :=
  List.map_lt (fun _ _ hlt => UInt32.lt_iff_toNat_lt.mp (Char.lt_def.mp hlt)) (String.lt_iff_toList_lt.mp h)

namespace Grammar

variable {g g' : Grammar} {head c : Char} {a : Alternative}

/-- The alternatives of a head, ascending by their texts. -/
def sortedAlternatives (g : Grammar) (head : Char) : List Alternative :=
  (g.alternatives head).mergeSort fun a b => decide (a.text ≤ b.text)

theorem perm_sortedAlternatives (g : Grammar) (head : Char) :
    (g.sortedAlternatives head).Perm (g.alternatives head) := List.mergeSort_perm _ _

theorem mem_sortedAlternatives :
    a ∈ g.sortedAlternatives head ↔ (⟨head, a⟩ : Production) ∈ g.productions :=
  (perm_sortedAlternatives g head).mem_iff.trans g.mem_alternatives

theorem nodup_sortedAlternatives (g : Grammar) (head : Char) : (g.sortedAlternatives head).Nodup :=
  (perm_sortedAlternatives g head).nodup_iff.mpr (g.nodup_alternatives head)

theorem sortedAlternatives_ne_nil (h : g.alternatives head ≠ []) : g.sortedAlternatives head ≠ [] :=
  fun hnil => h ((hnil ▸ perm_sortedAlternatives g head).nil_eq.symm)

theorem map_text_sortedAlternatives : (g.sortedAlternatives head).map (·.text) = g.sortedTexts head :=
  List.map_mergeSort fun _ _ _ _ => rfl

/-- **The alternatives of a head are listed in strictly ascending order.** -/
theorem pairwise_codePoints (g : Grammar) (head : Char) :
    (g.sortedAlternatives head).Pairwise (·.codePoints < ·.codePoints) := by
  have hsorted : (g.sortedAlternatives head).Pairwise (·.text ≤ ·.text) := by
    have htrans : ∀ a b c : Alternative, decide (a.text ≤ b.text) = true →
        decide (b.text ≤ c.text) = true → decide (a.text ≤ c.text) = true := fun a b c hab hbc =>
      decide_eq_true (le_trans (of_decide_eq_true hab) (of_decide_eq_true hbc))
    have htotal : ∀ a b : Alternative, (decide (a.text ≤ b.text) || decide (b.text ≤ a.text)) = true :=
      fun a b => by simpa using le_total a.text b.text
    exact (List.pairwise_mergeSort htrans htotal (g.alternatives head)).imp of_decide_eq_true
  refine (hsorted.and (nodup_sortedAlternatives g head)).imp ?_
  rintro a b ⟨hle, hne⟩
  exact Alternative.codePoints_lt (lt_of_le_of_ne hle fun h => hne (Alternative.text_injective h))

/-! ## The rule of a head -/

theorem ruleText_of_ne_nil (h : g.alternatives head ≠ []) : g.ruleText head =
    s!"{head}::=" ++ "|".intercalate ((g.sortedAlternatives head).map (·.text)) := by
  rw [map_text_sortedAlternatives, ruleText]
  split
  · rename_i hnil
    rw [← map_text_sortedAlternatives, List.map_eq_nil_iff] at hnil
    exact absurd hnil (sortedAlternatives_ne_nil h)
  · rfl

theorem toList_ruleText (h : g.alternatives head ≠ []) : (g.ruleText head).toList =
    [head, ':', ':', '='] ++ ['|'].intercalate ((g.sortedAlternatives head).map (·.body)) := by
  have hbodies : ((g.sortedAlternatives head).map (·.text)).map String.toList =
      (g.sortedAlternatives head).map (·.body) := by
    rw [List.map_map]
    exact List.map_congr_left fun a _ => String.toList_ofList
  have hhead : (s!"{head}::=").toList = [head, ':', ':', '='] := by
    show (String.singleton head ++ "::=").toList = _
    rw [String.toList_append, String.toList_singleton]
    rfl
  rw [ruleText_of_ne_nil h, String.toList_append, hhead, String.toList_intercalate, hbodies]
  rfl

theorem ruleText_eq_empty_iff : g.ruleText head = "" ↔ g.alternatives head = [] := by
  constructor
  · intro hempty
    by_contra h
    have hlist := toList_ruleText h
    rw [hempty] at hlist
    cases hlist
  · intro hnil
    have htexts : g.sortedTexts head = [] := by
      rw [sortedTexts, hnil, List.map_nil, List.mergeSort_nil]
    rw [ruleText, htexts]

/-! ## Letters and signs -/

theorem WellFormed.letterCase_ne_none_of_mem_body (hg : g.WellFormed)
    (hp : (⟨head, a⟩ : Production) ∈ g.productions) (hc : c ∈ a.body) : letterCase c ≠ none := by
  have hd := hg.declares _ hp
  have hcase : isUpper c = true ∨ isLower c = true := by
    cases a with
    | binary l r =>
      simp only [Alternative.body, List.mem_cons, List.not_mem_nil, or_false] at hc
      rcases hc with rfl | rfl
      · exact .inl (hg.upper _ hd.1)
      · exact .inl (hg.upper _ hd.2)
    | unary t =>
      rw [List.mem_singleton.mp hc]
      exact .inr (hg.lower _ hd)
  rcases hcase with h | h
  · simp [of_decide_eq_true h]
  · simp [of_decide_eq_true h]

theorem WellFormed.not_mem_body (hg : g.WellFormed) {sign : Char} (hsign : letterCase sign = none) :
    ∀ body ∈ (g.sortedAlternatives head).map (·.body), sign ∉ body := by
  refine List.forall_mem_map.mpr fun a ha hmem => ?_
  exact hg.letterCase_ne_none_of_mem_body (mem_sortedAlternatives.mp ha) hmem hsign

theorem WellFormed.splitOn_intercalate_bodies (hg : g.WellFormed) (h : g.alternatives head ≠ []) :
    (['|'].intercalate ((g.sortedAlternatives head).map (·.body))).splitOn '|' =
      (g.sortedAlternatives head).map (·.body) :=
  List.splitOn_intercalate '|' (hg.not_mem_body (by decide +kernel))
    (mt List.map_eq_nil_iff.mp (sortedAlternatives_ne_nil h))

theorem newline_not_mem_ruleText (hg : g.WellFormed) (hc : head ∈ g.nonterminals) :
    '\n' ∉ (g.ruleText head).toList := by
  have hnewline : letterCase '\n' = none := by decide +kernel
  by_cases h : g.alternatives head = []
  · rw [ruleText_eq_empty_iff.mpr h]
    exact List.not_mem_nil
  rw [toList_ruleText h, List.mem_append]
  rintro (hmem | hmem)
  · simp only [List.mem_cons, Char.reduceEq, List.not_mem_nil, or_false] at hmem
    have hupper := hg.upper head hc
    rw [← hmem] at hupper
    exact absurd hupper (by decide +kernel)
  · obtain ⟨body, hbody, hmem⟩ := (exists_mem_splitOn_iff (show '\n' ≠ '|' by decide)).mpr hmem
    rw [hg.splitOn_intercalate_bodies h] at hbody
    exact hg.not_mem_body hnewline body hbody hmem

/-! ## The lines of a listing -/

theorem WellFormed.mem_heads_iff (hg : g.WellFormed) :
    c ∈ g.heads ↔ ∃ a, (⟨c, a⟩ : Production) ∈ g.productions := by
  rw [heads, List.mem_filter, Option.isSome_iff_exists]
  constructor
  · rintro ⟨-, as, has⟩
    obtain ⟨a, ha⟩ := OrderedSet.exists_mem_of_ne_empty (hg.occupied c as has)
    exact ⟨a, Productions.mem_iff_exists_entry.mpr ⟨as, has, ha⟩⟩
  · rintro ⟨a, ha⟩
    obtain ⟨as, has, -⟩ := Productions.mem_iff_exists_entry.mp ha
    exact ⟨hg.head _ ha, as, has⟩

/-- The line of a head. -/
def listedLine (g : Grammar) (head : Char) : String := s!"{head} -> {g.ruleText head}"

theorem toList_listedLine (g : Grammar) (head : Char) :
    (g.listedLine head).toList = head :: [' ', '-', '>', ' '] ++ (g.ruleText head).toList := by
  show (String.singleton head ++ " -> " ++ g.ruleText head).toList = _
  rw [String.toList_append, String.toList_append, String.toList_singleton]
  rfl

theorem toList_listing (g : Grammar) : g.listing.toList =
    (g.heads.map fun head => (g.listedLine head).toList).flatMap (· ++ ['\n']) := by
  have hline : ∀ head, s!"{head} -> {g.ruleText head}\n" = g.listedLine head ++ "\n" := fun _ => rfl
  simp only [listing, hline, String.toList_join, List.flatMap_map, String.toList_append]
  rfl

theorem WellFormed.splitOn_listing (hg : g.WellFormed) : g.listing.toList.splitOn '\n' =
    g.heads.map (fun head => (g.listedLine head).toList) ++ [[]] := by
  have hlines : ∀ line ∈ g.heads.map fun head => (g.listedLine head).toList, '\n' ∉ line := by
    refine List.forall_mem_map.mpr fun head hhead hmem => ?_
    have hc : head ∈ g.nonterminals := List.mem_of_mem_filter hhead
    rw [toList_listedLine, List.mem_append, List.mem_cons] at hmem
    rcases hmem with (hmem | hmem) | hmem
    · have hupper := hg.upper head hc
      rw [← hmem] at hupper
      exact absurd hupper (by decide +kernel)
    · exact absurd hmem (by decide)
    · exact newline_not_mem_ruleText hg hc hmem
  rw [toList_listing, ← List.append_nil (List.flatMap _ _), splitOn_flatMap_append hlines, List.splitOn_nil]

/-! ## Equal listings -/

theorem ruleText_congr (h : g.alternatives head = g'.alternatives head) :
    g.ruleText head = g'.ruleText head := by
  rw [ruleText, ruleText, sortedTexts, sortedTexts, h]

theorem WellFormed.ruleText_eq_iff (hg : g.WellFormed) (hg' : g'.WellFormed) :
    g.ruleText head = g'.ruleText head ↔ ∀ a, a ∈ g.alternatives head ↔ a ∈ g'.alternatives head := by
  constructor
  · intro htext
    by_cases h : g.alternatives head = []
    · have hempty := ruleText_eq_empty_iff.mpr h
      rw [htext] at hempty
      rw [h, ruleText_eq_empty_iff.mp hempty]
      exact fun _ => Iff.rfl
    · have h' : g'.alternatives head ≠ [] := by
        rwa [Ne, ← ruleText_eq_empty_iff, ← htext, ruleText_eq_empty_iff]
      have hlist := congrArg String.toList htext
      rw [toList_ruleText h, toList_ruleText h'] at hlist
      have hbodies := congrArg (List.splitOn '|') (List.append_cancel_left hlist)
      rw [hg.splitOn_intercalate_bodies h, hg'.splitOn_intercalate_bodies h'] at hbodies
      have hsorted := List.map_injective_iff.mpr (fun _ _ => Alternative.body_injective) hbodies
      intro a
      rw [mem_alternatives, mem_alternatives, ← mem_sortedAlternatives, ← mem_sortedAlternatives, hsorted]
  · intro h
    exact ruleText_congr (congrArg OrderedSet.toList (OrderedSet.ext h))

theorem WellFormed.listing_eq_iff (hg : g.WellFormed) (hg' : g'.WellFormed) :
    g.listing = g'.listing ↔ g.heads = g'.heads ∧
      ∀ head ∈ g.heads, ∀ a, a ∈ g.alternatives head ↔ a ∈ g'.alternatives head := by
  constructor
  · intro h
    have hlines := congrArg (fun text => text.toList.splitOn '\n') h
    simp only [hg.splitOn_listing, hg'.splitOn_listing] at hlines
    have hmap := List.append_cancel_right hlines
    have hheads : g.heads = g'.heads := by
      -- each line begins with its head
      have hfirst := congrArg (List.map List.head?) hmap
      simp only [List.map_map, Function.comp_def, toList_listedLine, List.cons_append, List.head?_cons] at hfirst
      exact List.map_injective_iff.mpr (Option.some_injective _) hfirst
    refine ⟨hheads, fun head hhead => ?_⟩
    rw [← hheads] at hmap
    have hline := List.map_inj_left.mp hmap head hhead
    rw [toList_listedLine, toList_listedLine] at hline
    exact (hg.ruleText_eq_iff hg').mp (String.toList_injective (List.append_cancel_left hline))
  · rintro ⟨hheads, halternatives⟩
    rw [listing, listing, ← hheads]
    refine congrArg String.join (List.map_congr_left fun head hhead => ?_)
    rw [(hg.ruleText_eq_iff hg').mpr (halternatives head hhead)]

/-- **The listings of a reachable grammar.** The rule of a head is empty if the head has no production; otherwise it
holds every alternative of the head once, strictly ascending by code points. The whole listing has a line for each
nonterminal with a production, in the order of declaration. Equal rules and equal listings come from equal
alternatives. -/
theorem listing_ascending_and_injective (hg : g.Reachable) :
    (∀ head, (g.ruleText head = "" ↔ ∀ a, (⟨head, a⟩ : Production) ∉ g.productions) ∧
      ((∃ a, (⟨head, a⟩ : Production) ∈ g.productions) → ∃ as : List Alternative,
        g.ruleText head = s!"{head}::=" ++ "|".intercalate (as.map (·.text)) ∧
        as.Pairwise (·.codePoints < ·.codePoints) ∧ as.Nodup ∧
        ∀ a, a ∈ as ↔ (⟨head, a⟩ : Production) ∈ g.productions)) ∧
    (g.heads.Sublist g.nonterminals ∧ g.heads.Nodup ∧
      (∀ c, c ∈ g.heads ↔ ∃ a, (⟨c, a⟩ : Production) ∈ g.productions) ∧
      g.listing.toList.splitOn '\n' =
        g.heads.map (fun head => (s!"{head} -> {g.ruleText head}").toList) ++ [[]]) ∧
    ∀ g' : Grammar, g'.Reachable →
      (∀ head, g.ruleText head = g'.ruleText head ↔
        ∀ a, a ∈ g.alternatives head ↔ a ∈ g'.alternatives head) ∧
      (g.listing = g'.listing ↔ g.heads = g'.heads ∧
        ∀ head ∈ g.heads, ∀ a, a ∈ g.alternatives head ↔ a ∈ g'.alternatives head) := by
  have hwf := hg.wellFormed
  have hsub : g.heads.Sublist g.nonterminals := List.filter_sublist
  refine ⟨fun head => ⟨?_, fun ⟨a, ha⟩ => ⟨g.sortedAlternatives head, ?_, pairwise_codePoints g head,
    nodup_sortedAlternatives g head, fun a => mem_sortedAlternatives⟩⟩,
    ⟨hsub, hsub.nodup hwf.nodup, fun c => hwf.mem_heads_iff, hwf.splitOn_listing⟩,
    fun g' hg' => ⟨fun head => hwf.ruleText_eq_iff hg'.wellFormed, hwf.listing_eq_iff hg'.wellFormed⟩⟩
  · rw [ruleText_eq_empty_iff, List.eq_nil_iff_forall_not_mem]
    exact Iff.rfl
  · exact ruleText_of_ne_nil (List.ne_nil_of_mem (g.mem_alternatives.mpr ha))

/-- `S::=ÉÉ|a|é`, where the letter `a` is listed first. -/
def accented : Grammar := (∅ : Grammar).after
  [.declareNonterminal 'S', .declareNonterminal 'É', .declareTerminal 'é', .declareTerminal 'a',
    .setStart 'S', .add ⟨'S', .unary 'é'⟩, .add ⟨'S', .binary 'É' 'É'⟩, .addWritten 'S' "a"]

theorem accented_lists_letter_first : accented.Reachable ∧ textbook.Reachable ∧
    accented.alternatives 'S' = [.binary 'É' 'É', .unary 'a', .unary 'é'] ∧
    accented.ruleText 'S' = "S::=a|ÉÉ|é" ∧ accented.ruleText 'É' = "" ∧
    accented.listing.toList.splitOn '\n' = ["S -> S::=a|ÉÉ|é".toList, []] ∧
    accented.ruleText 'S' ≠ textbook.ruleText 'S' ∧ accented.listing ≠ textbook.listing := by
  have hreachable : accented.Reachable := Reachable.empty.after _
  have halternatives : accented.alternatives 'S' = [.binary 'É' 'É', .unary 'a', .unary 'é'] := by
    decide +kernel
  have hheads : accented.heads = ['S'] ∧ textbook.heads = ['S', 'A', 'B', 'C'] := by decide +kernel
  obtain ⟨hrules, ⟨-, -, hmem, hlines⟩, hequal⟩ := listing_ascending_and_injective hreachable
  obtain ⟨hrule, hlisting⟩ := hequal textbook reachable_textbook
  have htext : accented.ruleText 'S' = "S::=a|ÉÉ|é" := by
    obtain ⟨as, htext, hsorted, -, has⟩ := (hrules 'S').2 ((hmem 'S').mp (by rw [hheads.1]; decide))
    have hletters : as = [.unary 'a', .binary 'É' 'É', .unary 'é'] := by
      refine hsorted.eq_of_mem_iff (by decide) fun a => ?_
      rw [has, ← mem_alternatives, halternatives]
      simp [or_left_comm]
    rw [htext, hletters]
    decide +kernel
  refine ⟨hreachable, reachable_textbook, halternatives, htext, ?_, ?_, fun h => ?_, fun h => ?_⟩
  · exact (hrules 'É').1.mpr fun a ha => absurd ((hmem 'É').mpr ⟨a, ha⟩) (by rw [hheads.1]; decide)
  · rw [hlines, hheads.1, List.map_singleton, htext]
    rfl
  · have hsame := (hrule 'S').mp h (.unary 'a')
    rw [halternatives] at hsame
    exact absurd (hsame.mp (by decide)) (by decide +kernel)
  · have hsame := (hlisting.mp h).1
    rw [hheads.1, hheads.2] at hsame
    exact absurd hsame (by decide)

end Grammar

end Chomsky
