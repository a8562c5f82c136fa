import Chomsky.Proofs.Text.Lines
import Mathlib.Data.List.Basic
import Mathlib.Data.Set.List

/-!
# Lines of bytes

A text is stored as the bytes of its characters. A character below `0x80` is one byte that stands in no other
character, so a text can be cut into lines before it is decoded or after.

* `encode`, **`fromUTF8?_eq_some_iff`**, `fromUTF8?_eq_none_iff`: the bytes of a text;
* **`cutLines_encode`**: the lines of the bytes are the bytes of the lines;
* **`exists_encode_iff`**: bytes are a text if every line of them is.
-/

namespace Chomsky

variable {bytes line : List UInt8} {cs : List Char} {c d : Char}

/-! ## The bytes of a text -/

/-- The bytes of a text, in UTF-8. -/
def encode (cs : List Char) : List UInt8 := cs.flatMap String.utf8EncodeChar

@[simp] theorem encode_nil : encode [] = [] := rfl

@[simp] theorem encode_cons : encode (c :: cs) = String.utf8EncodeChar c ++ encode cs := rfl

@[simp] theorem encode_append {ds : List Char} : encode (cs ++ ds) = encode cs ++ encode ds :=
  List.flatMap_append

theorem toByteArray_eq (l : List UInt8) : (⟨l.toArray⟩ : ByteArray) = l.toByteArray := by
  refine ByteArray.ext ?_
  rw [← Array.toList_inj, List.toList_data_toByteArray]

/-- **Decoding undoes encoding.** -/
theorem fromUTF8?_eq_some_iff {s : String} :
    String.fromUTF8? ⟨bytes.toArray⟩ = some s ↔ bytes = encode s.toList := by
  have hbytes : bytes = encode s.toList ↔ (⟨bytes.toArray⟩ : ByteArray) = s.toByteArray := by
    rw [← String.utf8Encode_toList, toByteArray_eq, List.utf8Encode]
    constructor
    · intro h
      rw [h]
      rfl
    · intro h
      have hdata := congrArg (·.data.toList) h
      rwa [List.toList_data_toByteArray, List.toList_data_toByteArray] at hdata
  rw [hbytes, String.fromUTF8?]
  split
  · rename_i hvalid
    rw [Option.some.injEq, ← String.toByteArray_inj]
    rfl
  · rename_i hvalid
    refine iff_of_false nofun fun h => hvalid ?_
    rw [h]
    exact s.isValidUTF8

theorem fromUTF8?_eq_none_iff : String.fromUTF8? ⟨bytes.toArray⟩ = none ↔ ¬ ∃ cs, bytes = encode cs := by
  rw [Option.eq_none_iff_forall_ne_some, not_exists]
  simp only [ne_eq, fromUTF8?_eq_some_iff]
  constructor
  · intro h cs
    have hcs := h (String.ofList cs)
    rwa [String.toList_ofList] at hcs
  · exact fun h s => h s.toList

/-! ## Small characters -/

theorem utf8EncodeChar_of_lt (hd : d.toNat < 0x80) : String.utf8EncodeChar d = [UInt8.ofNat d.toNat] :=
  if_pos (Nat.le_of_lt_succ hd)

theorem ofNat_eq_ofNat_iff {m n : Nat} : UInt8.ofNat m = UInt8.ofNat n ↔ m % 256 = n % 256 := by
  rw [← UInt8.toNat_inj, UInt8.toNat_ofNat', UInt8.toNat_ofNat']

/-- **The byte of a small character stands in no other character**, since the bytes of a larger one are all
`0x80` or more. -/
theorem mem_utf8EncodeChar_iff (hd : d.toNat < 0x80) :
    UInt8.ofNat d.toNat ∈ String.utf8EncodeChar c ↔ c = d := by
  constructor
  · intro h
    have heq : c.val.toNat = d.toNat := by
      simp only [String.utf8EncodeChar] at h
      split at h
      · have hmod := ofNat_eq_ofNat_iff.mp (List.mem_singleton.mp h)
        omega
      · split at h
        · simp only [List.mem_cons, List.not_mem_nil, or_false, ofNat_eq_ofNat_iff] at h
          omega
        · split at h
          all_goals
            simp only [List.mem_cons, List.not_mem_nil, or_false, ofNat_eq_ofNat_iff] at h
            omega
    exact Char.toNat_inj.mp heq
  · rintro rfl
    rw [utf8EncodeChar_of_lt hd]
    exact List.mem_singleton_self _

theorem encode_eq_append_iff (hd : d.toNat < 0x80) :
    encode cs = line ++ [UInt8.ofNat d.toNat] ↔ ∃ ds, cs = ds ++ [d] ∧ encode ds = line := by
  constructor
  · intro h
    rcases List.eq_nil_or_concat' cs with rfl | ⟨ds, c, rfl⟩
    · simp at h
    · have hchar : encode [c] = String.utf8EncodeChar c := List.append_nil _
      rw [encode_append, hchar] at h
      have hlast : (String.utf8EncodeChar c).getLast? = some (UInt8.ofNat d.toNat) := by
        rw [← List.getLast?_append_of_ne_nil (encode ds) String.utf8EncodeChar_ne_nil, h,
          List.getLast?_concat]
      obtain rfl := (mem_utf8EncodeChar_iff hd).mp (List.mem_of_getLast? hlast)
      rw [utf8EncodeChar_of_lt hd] at h
      exact ⟨ds, rfl, List.append_cancel_right h⟩
  · rintro ⟨ds, rfl, rfl⟩
    rw [encode_append, encode_cons, utf8EncodeChar_of_lt hd]
    rfl

/-! ## Lines -/

theorem utf8EncodeChar_newline : String.utf8EncodeChar '\n' = [0x0a] :=
  utf8EncodeChar_of_lt (by decide)

/-- **The lines of the bytes are the bytes of the lines.** -/
theorem cutLines_encode (cs : List Char) : cutLines 0x0a (encode cs) = (cutLines '\n' cs).map encode := by
  induction cs with
  | nil => rfl
  | cons c cs ih =>
    by_cases hc : c = '\n'
    · subst hc
      rw [encode_cons, utf8EncodeChar_newline, List.singleton_append, cutLines_sep_cons, cutLines_sep_cons,
        List.map_cons, ih]
      rfl
    · have hsep : 0x0a ∉ String.utf8EncodeChar c := fun h =>
        hc ((mem_utf8EncodeChar_iff (show '\n'.toNat < 0x80 by decide)).mp h)
      rw [encode_cons, cutLines_append hsep String.utf8EncodeChar_ne_nil, cutLines_cons_of_ne hc, ih]
      cases cutLines '\n' cs <;> simp

theorem encode_intercalate (lines : List (List Char)) :
    encode (['\n'].intercalate lines) = [0x0a].intercalate (lines.map encode) := by
  induction lines with
  | nil => rfl
  | cons line lines ih =>
    cases lines with
    | nil => simp
    | cons next lines =>
      rw [List.intercalate_cons_cons, List.map_cons, List.map_cons, List.intercalate_cons_cons, encode_append,
        encode_append, ih]
      rfl

/-- **Bytes are a text if every line of them is.** -/
theorem exists_encode_iff : (∃ cs, bytes = encode cs) ↔
    ∀ line ∈ bytes.splitOn 0x0a, ∃ cs, line = encode cs := by
  constructor
  · rintro ⟨cs, rfl⟩ line hline
    have hmem : line ∈ (cutLines '\n' cs ++ [[]]).map encode := by
      rw [List.map_append, ← cutLines_encode]
      rcases splitOn_eq_cutLines 0x0a (encode cs) with h | h
      · exact List.mem_append_left _ (h ▸ hline)
      · exact h ▸ hline
    obtain ⟨l, -, rfl⟩ := List.mem_map.mp hmem
    exact ⟨l, rfl⟩
  · intro h
    have hlines : bytes.splitOn 0x0a ∈ Set.range (List.map encode) := by
      rw [Set.range_list_map]
      intro line hline
      obtain ⟨cs, hcs⟩ := h line hline
      exact ⟨cs, hcs.symm⟩
    obtain ⟨lines, hlines⟩ := hlines
    refine ⟨['\n'].intercalate lines, ?_⟩
    rw [encode_intercalate, hlines, List.intercalate_splitOn]

end Chomsky
