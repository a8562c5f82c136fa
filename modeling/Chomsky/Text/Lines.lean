/-!
# Lines

A text is a sequence of lines, each ended by a separator; the last line may lack it. The same
cut serves texts of characters and files of bytes.

* `cutLines`: the lines of a sequence;
* **`not_mem_of_mem_cutLines`**: no line holds the separator.
-/

namespace Chomsky

variable {α : Type} [DecidableEq α]

/-- **The lines of a sequence.** A separator ends a line, so none is left open after a final one. -/
def cutLines (sep : α) : List α → List (List α)
  | [] => []
  | c :: cs =>
    if c = sep then [] :: cutLines sep cs
    else match cutLines sep cs with
      | [] => [[c]]
      | line :: lines => (c :: line) :: lines

theorem cutLines_sep_cons (sep : α) (cs : List α) :
    cutLines sep (sep :: cs) = [] :: cutLines sep cs := by
  simp [cutLines]

/-- **No line holds the separator.** -/
theorem not_mem_of_mem_cutLines (sep : α) (cs : List α) :
    ∀ line ∈ cutLines sep cs, sep ∉ line := by
  induction cs with
  | nil => simp [cutLines]
  | cons c cs ih =>
    by_cases hc : c = sep
    · subst hc
      rw [cutLines_sep_cons]
      intro line hl
      rcases List.mem_cons.mp hl with rfl | hl
      · simp
      · exact ih line hl
    · rw [cutLines, if_neg hc]
      split
      · simpa using Ne.symm hc
      · rename_i line lines h
        rw [h] at ih
        intro l hl
        rcases List.mem_cons.mp hl with rfl | hl
        · simpa [Ne.symm hc] using ih line List.mem_cons_self
        · exact ih l (List.mem_cons_of_mem _ hl)

end Chomsky
