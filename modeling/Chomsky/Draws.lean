/-!
# Random choices

A choice among `n` candidates multiplies a random 32-bit number by `n`: the upper word of the product is
the index. Numbers whose lower word is too large are refused and another one is drawn, so every index
is chosen by equally many numbers.

* `pick`: what one number chooses;
* `Draws`, `Draws.seeded`, `Draws.next?`, `Draws.size`: a finite supply of numbers, scripted first, then
  generated;
* **`Draws.choose`**: the index that the first number accepted gives.
-/

namespace Chomsky

/-- **The index among `n` that a number chooses**, unless it is refused. As many lower words are
accepted as `n`, shifted to fill 32 binary digits, says. -/
def pick (n : Nat) (v : UInt32) : Option Nat :=
  if v.toNat * n % 0x100000000 < n <<< (31 - n.log2) then some (v.toNat * n / 0x100000000) else none

/-- **A finite supply of random numbers.** -/
structure Draws where
  /-- Numbers that come first, as they are. -/
  script : List UInt32
  /-- The state of the generator behind them. -/
  state : UInt64 := 0
  /-- How many numbers the generator may still give. -/
  reserve : Nat := 0
deriving DecidableEq, Repr

namespace Draws

/-- The generator's next state: multiplication and addition modulo the word size. -/
def advance (state : UInt64) : UInt64 := state * 6364136223846793005 + 1442695040888963407

/-- Scripted numbers, and behind them more generated ones than any computation takes. -/
def seeded (script : List UInt32) (seed : UInt64) : Draws := ⟨script, seed, 0x10000000000000000⟩

def size (d : Draws) : Nat := d.script.length + d.reserve

/-- The next number, which is the upper half of a new state once the script is used up. -/
def next? : Draws → Option (UInt32 × Draws)
  | ⟨v :: script, state, reserve⟩ => some (v, ⟨script, state, reserve⟩)
  | ⟨[], state, reserve + 1⟩ =>
    some ((advance state >>> 32).toUInt32, ⟨[], advance state, reserve⟩)
  | ⟨[], _, 0⟩ => none

theorem size_of_next? {d d' : Draws} {v : UInt32} (h : d.next? = some (v, d')) :
    d.size = d'.size + 1 := by
  unfold next? at h
  split at h <;> simp only [Option.some.injEq, Prod.mk.injEq, reduceCtorEq] at h
  · obtain ⟨_, rfl⟩ := h
    simp only [size, List.length_cons]
    omega
  · obtain ⟨_, rfl⟩ := h
    simp only [size, List.length_nil]
    omega

/-- The choice that the first accepted number among the next `attempts` makes. -/
def chooseWithin (n : Nat) : Nat → Draws → Option Nat × Draws
  | 0, d => (none, d)
  | attempts + 1, d =>
    match d.next? with
    | none => (none, d)
    | some (v, rest) =>
      match pick n v with
      | some i => (some i, rest)
      | none => chooseWithin n attempts rest

/-- **A choice among `n` candidates**, and the numbers that are left. There is none if the supply runs
dry before a number is accepted. -/
def choose (n : Nat) (d : Draws) : Option Nat × Draws := chooseWithin n d.size d

end Draws

end Chomsky
