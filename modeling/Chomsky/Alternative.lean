import Chomsky.OrderedMap

/-!
# Productions in Chomsky Normal Form

An alternative is one right-hand side: two nonterminals, or one terminal. All binary alternatives
come before all unary ones; among themselves they follow their code points.

* **`Alternative.body_injective`**, `Alternative.text_injective`: what is written decides the
  alternative;
* `Production`: a head and one of its alternatives;
* `Productions`: the alternatives of each head, with `Productions.enter`, **`Productions.insert`**.
-/

namespace Chomsky

theorem codePoint_lt (c : Char) : c.toNat < 0x200000 := by
  have h : c.toNat < 0x110000 := by
    have := c.valid
    simp only [UInt32.isValidChar, Nat.isValidChar] at this
    have h1 : c.toNat = c.val.toNat := rfl
    omega
  omega

/-- **A right-hand side in Chomsky Normal Form.** -/
inductive Alternative where
  | binary (left right : Char)
  | unary (terminal : Char)
deriving DecidableEq, Repr

namespace Alternative

/-- The symbols of an alternative, as written. -/
def body : Alternative → List Char
  | binary left right => [left, right]
  | unary terminal => [terminal]

def text (a : Alternative) : String := String.ofList a.body

/-- The place of an alternative among all: binary before unary, then by code points. -/
def rank : Alternative → Nat
  | binary left right => left.toNat * 0x200000 + right.toNat
  | unary terminal => 0x40000000000 + terminal.toNat

theorem rank_injective : ∀ {a b : Alternative}, a.rank = b.rank → a = b
  | binary l r, binary l' r', h => by
    have := codePoint_lt r
    have := codePoint_lt r'
    simp only [rank] at h
    have hl : l.toNat = l'.toNat := by omega
    have hr : r.toNat = r'.toNat := by omega
    rw [Ranked.rank_injective (α := Char) hl, Ranked.rank_injective (α := Char) hr]
  | unary t, unary t', h => by
    simp only [rank] at h
    have ht : t.toNat = t'.toNat := by omega
    rw [Ranked.rank_injective (α := Char) ht]
  | binary l r, unary t, h => by
    have := codePoint_lt l
    have := codePoint_lt r
    simp only [rank] at h
    omega
  | unary t, binary l r, h => by
    have := codePoint_lt l
    have := codePoint_lt r
    simp only [rank] at h
    omega

instance : Ranked Alternative := ⟨rank, rank_injective⟩

/-- **The body decides the alternative.** -/
theorem body_injective {a b : Alternative} (h : a.body = b.body) : a = b := by
  cases a <;> cases b <;> simp_all [body]

theorem text_injective {a b : Alternative} (h : a.text = b.text) : a = b :=
  body_injective (String.ofList_injective h)

end Alternative

/-- **A production**: a head and one of its alternatives. -/
structure Production where
  head : Char
  alternative : Alternative
deriving DecidableEq, Repr

/-- **Productions by their heads.** A head may have an entry without alternatives, and then the entry
still counts when productions are compared. -/
abbrev Productions : Type := OrderedMap Char (OrderedSet Alternative)

namespace Productions

variable {ps : Productions} {p q : Production} {head : Char}

def of (ps : Productions) (head : Char) : OrderedSet Alternative := (ps.get? head).getD ∅

instance : Membership Production Productions := ⟨fun ps p => p.alternative ∈ ps.of p.head⟩

instance (p : Production) (ps : Productions) : Decidable (p ∈ ps) :=
  inferInstanceAs (Decidable (p.alternative ∈ ps.of p.head))

/-- Makes an entry for a head, an empty one unless there is one already. -/
def enter (ps : Productions) (head : Char) : Productions := ps.update head (·.getD ∅)

/-- One more production, under the entry of its head. -/
def insert (ps : Productions) (p : Production) : Productions :=
  ps.update p.head fun found => (found.getD ∅).insert p.alternative

theorem get?_insert : (ps.insert p).get? head =
    if head = p.head then some ((ps.of head).insert p.alternative) else ps.get? head := by
  rw [insert, OrderedMap.get?_update]
  split
  · subst head
    rfl
  · rfl

theorem mem_iff : p ∈ ps ↔ p.alternative ∈ ps.of p.head := Iff.rfl

@[simp] theorem not_mem_empty (p : Production) : p ∉ (∅ : Productions) :=
  OrderedSet.not_mem_empty p.alternative

@[simp] theorem of_insert : (ps.insert p).of head =
    if head = p.head then (ps.of head).insert p.alternative else ps.of head := by
  rw [of, get?_insert]
  split <;> rfl

@[simp] theorem mem_insert : q ∈ ps.insert p ↔ q = p ∨ q ∈ ps := by
  obtain ⟨h, a⟩ := q
  obtain ⟨h', a'⟩ := p
  rw [mem_iff, mem_iff, of_insert, Production.mk.injEq]
  by_cases hh : h = h' <;> simp [hh]

theorem enter_of_mem (h : p ∈ ps) : ps.enter p.head = ps := by
  refine OrderedMap.ext fun head => ?_
  rw [enter, OrderedMap.get?_update]
  split
  · subst head
    cases hentry : ps.get? p.head with
    | some as => rfl
    | none =>
      rw [mem_iff, of, hentry] at h
      exact absurd h (OrderedSet.not_mem_empty _)
  · rfl

@[simp] theorem mem_enter : p ∈ ps.enter head ↔ p ∈ ps := by
  rw [mem_iff, mem_iff, of, enter, OrderedMap.get?_update]
  split
  · rename_i hh
    rw [hh]
    rfl
  · rfl

theorem insert_enter : (ps.enter p.head).insert p = ps.insert p := by
  refine OrderedMap.ext fun head => ?_
  rw [insert, insert, enter, OrderedMap.get?_update, OrderedMap.get?_update, OrderedMap.get?_update,
    OrderedMap.get?_update, if_pos rfl]
  split <;> rfl

end Productions

end Chomsky
