/-!
# Letter case

The derived properties `Uppercase` and `Lowercase` of Unicode 17. Cased letters come in *runs* of
neighbouring code points whose case is constant or alternates, so the two properties are one
ascending table of runs.

* **`letterCase`**: the case of a character, if it has one. A character has at most one case, by
  construction.
-/

namespace Chomsky

/-- The two cases of a letter. Title case is neither. -/
inductive LetterCase where
  | upper
  | lower
deriving DecidableEq, Repr

/-- How the case runs through neighbouring code points. -/
inductive CasePattern where
  | upper
  | lower
  | upperFirst
  | lowerFirst
deriving DecidableEq, Repr

def CasePattern.nth : CasePattern → Nat → LetterCase
  | upper, _ => .upper
  | lower, _ => .lower
  | upperFirst, k => if k % 2 = 0 then .upper else .lower
  | lowerFirst, k => if k % 2 = 0 then .lower else .upper

/-- The code points from `first` to `last`, all of them cased. -/
structure CaseRun where
  first : Nat
  last : Nat
  pattern : CasePattern
deriving DecidableEq, Repr

/-- Every cased code point, in ascending runs. -/
def caseRuns : List CaseRun :=
  [⟨0x41, 0x5a, .upper⟩, ⟨0x61, 0x7a, .lower⟩, ⟨0xaa, 0xaa, .lower⟩, ⟨0xb5, 0xb5, .lower⟩,
   ⟨0xba, 0xba, .lower⟩, ⟨0xc0, 0xd6, .upper⟩, ⟨0xd8, 0xde, .upper⟩, ⟨0xdf, 0xf6, .lower⟩,
   ⟨0xf8, 0xff, .lower⟩, ⟨0x100, 0x137, .upperFirst⟩, ⟨0x138, 0x148, .lowerFirst⟩,
   ⟨0x149, 0x178, .lowerFirst⟩, ⟨0x179, 0x17e, .upperFirst⟩, ⟨0x17f, 0x180, .lower⟩,
   ⟨0x181, 0x182, .upper⟩, ⟨0x183, 0x186, .lowerFirst⟩, ⟨0x187, 0x189, .upperFirst⟩,
   ⟨0x18a, 0x18b, .upper⟩, ⟨0x18c, 0x18d, .lower⟩, ⟨0x18e, 0x191, .upper⟩,
   ⟨0x192, 0x193, .lowerFirst⟩, ⟨0x194, 0x196, .upperFirst⟩, ⟨0x197, 0x198, .upper⟩,
   ⟨0x199, 0x19b, .lower⟩, ⟨0x19c, 0x19d, .upper⟩, ⟨0x19e, 0x19f, .lowerFirst⟩,
   ⟨0x1a0, 0x1a6, .upperFirst⟩, ⟨0x1a7, 0x1aa, .upperFirst⟩, ⟨0x1ab, 0x1ae, .lowerFirst⟩,
   ⟨0x1af, 0x1b1, .upperFirst⟩, ⟨0x1b2, 0x1b3, .upper⟩, ⟨0x1b4, 0x1b7, .lowerFirst⟩,
   ⟨0x1b8, 0x1b9, .upperFirst⟩, ⟨0x1ba, 0x1ba, .lower⟩, ⟨0x1bc, 0x1bd, .upperFirst⟩,
   ⟨0x1be, 0x1bf, .lower⟩, ⟨0x1c4, 0x1c4, .upper⟩, ⟨0x1c6, 0x1c7, .lowerFirst⟩,
   ⟨0x1c9, 0x1ca, .lowerFirst⟩, ⟨0x1cc, 0x1dc, .lowerFirst⟩, ⟨0x1dd, 0x1ef, .lowerFirst⟩,
   ⟨0x1f0, 0x1f1, .lowerFirst⟩, ⟨0x1f3, 0x1f6, .lowerFirst⟩, ⟨0x1f7, 0x1f8, .upper⟩,
   ⟨0x1f9, 0x233, .lowerFirst⟩, ⟨0x234, 0x239, .lower⟩, ⟨0x23a, 0x23b, .upper⟩,
   ⟨0x23c, 0x23d, .lowerFirst⟩, ⟨0x23e, 0x23f, .upperFirst⟩, ⟨0x240, 0x243, .lowerFirst⟩,
   ⟨0x244, 0x246, .upper⟩, ⟨0x247, 0x24f, .lowerFirst⟩, ⟨0x250, 0x293, .lower⟩,
   ⟨0x296, 0x2b8, .lower⟩, ⟨0x2c0, 0x2c1, .lower⟩, ⟨0x2e0, 0x2e4, .lower⟩, ⟨0x345, 0x345, .lower⟩,
   ⟨0x370, 0x373, .upperFirst⟩, ⟨0x376, 0x377, .upperFirst⟩, ⟨0x37a, 0x37d, .lower⟩,
   ⟨0x37f, 0x37f, .upper⟩, ⟨0x386, 0x386, .upper⟩, ⟨0x388, 0x38a, .upper⟩, ⟨0x38c, 0x38c, .upper⟩,
   ⟨0x38e, 0x38f, .upper⟩, ⟨0x390, 0x391, .lowerFirst⟩, ⟨0x392, 0x3a1, .upper⟩,
   ⟨0x3a3, 0x3ab, .upper⟩, ⟨0x3ac, 0x3ce, .lower⟩, ⟨0x3cf, 0x3d0, .upperFirst⟩,
   ⟨0x3d1, 0x3d2, .lowerFirst⟩, ⟨0x3d3, 0x3d4, .upper⟩, ⟨0x3d5, 0x3d7, .lower⟩,
   ⟨0x3d8, 0x3ef, .upperFirst⟩, ⟨0x3f0, 0x3f3, .lower⟩, ⟨0x3f4, 0x3f5, .upperFirst⟩,
   ⟨0x3f7, 0x3f9, .upperFirst⟩, ⟨0x3fa, 0x3fb, .upperFirst⟩, ⟨0x3fc, 0x3fd, .lowerFirst⟩,
   ⟨0x3fe, 0x42f, .upper⟩, ⟨0x430, 0x45f, .lower⟩, ⟨0x460, 0x481, .upperFirst⟩,
   ⟨0x48a, 0x4c0, .upperFirst⟩, ⟨0x4c1, 0x4ce, .upperFirst⟩, ⟨0x4cf, 0x52f, .lowerFirst⟩,
   ⟨0x531, 0x556, .upper⟩, ⟨0x560, 0x588, .lower⟩, ⟨0x10a0, 0x10c5, .upper⟩,
   ⟨0x10c7, 0x10c7, .upper⟩, ⟨0x10cd, 0x10cd, .upper⟩, ⟨0x10d0, 0x10fa, .lower⟩,
   ⟨0x10fc, 0x10ff, .lower⟩, ⟨0x13a0, 0x13f5, .upper⟩, ⟨0x13f8, 0x13fd, .lower⟩,
   ⟨0x1c80, 0x1c88, .lower⟩, ⟨0x1c89, 0x1c8a, .upperFirst⟩, ⟨0x1c90, 0x1cba, .upper⟩,
   ⟨0x1cbd, 0x1cbf, .upper⟩, ⟨0x1d00, 0x1dbf, .lower⟩, ⟨0x1e00, 0x1e95, .upperFirst⟩,
   ⟨0x1e96, 0x1e9d, .lower⟩, ⟨0x1e9e, 0x1eff, .upperFirst⟩, ⟨0x1f00, 0x1f07, .lower⟩,
   ⟨0x1f08, 0x1f0f, .upper⟩, ⟨0x1f10, 0x1f15, .lower⟩, ⟨0x1f18, 0x1f1d, .upper⟩,
   ⟨0x1f20, 0x1f27, .lower⟩, ⟨0x1f28, 0x1f2f, .upper⟩, ⟨0x1f30, 0x1f37, .lower⟩,
   ⟨0x1f38, 0x1f3f, .upper⟩, ⟨0x1f40, 0x1f45, .lower⟩, ⟨0x1f48, 0x1f4d, .upper⟩,
   ⟨0x1f50, 0x1f57, .lower⟩, ⟨0x1f59, 0x1f59, .upper⟩, ⟨0x1f5b, 0x1f5b, .upper⟩,
   ⟨0x1f5d, 0x1f5d, .upper⟩, ⟨0x1f5f, 0x1f60, .upperFirst⟩, ⟨0x1f61, 0x1f67, .lower⟩,
   ⟨0x1f68, 0x1f6f, .upper⟩, ⟨0x1f70, 0x1f7d, .lower⟩, ⟨0x1f80, 0x1f87, .lower⟩,
   ⟨0x1f90, 0x1f97, .lower⟩, ⟨0x1fa0, 0x1fa7, .lower⟩, ⟨0x1fb0, 0x1fb4, .lower⟩,
   ⟨0x1fb6, 0x1fb7, .lower⟩, ⟨0x1fb8, 0x1fbb, .upper⟩, ⟨0x1fbe, 0x1fbe, .lower⟩,
   ⟨0x1fc2, 0x1fc4, .lower⟩, ⟨0x1fc6, 0x1fc7, .lower⟩, ⟨0x1fc8, 0x1fcb, .upper⟩,
   ⟨0x1fd0, 0x1fd3, .lower⟩, ⟨0x1fd6, 0x1fd7, .lower⟩, ⟨0x1fd8, 0x1fdb, .upper⟩,
   ⟨0x1fe0, 0x1fe7, .lower⟩, ⟨0x1fe8, 0x1fec, .upper⟩, ⟨0x1ff2, 0x1ff4, .lower⟩,
   ⟨0x1ff6, 0x1ff7, .lower⟩, ⟨0x1ff8, 0x1ffb, .upper⟩, ⟨0x2071, 0x2071, .lower⟩,
   ⟨0x207f, 0x207f, .lower⟩, ⟨0x2090, 0x209c, .lower⟩, ⟨0x2102, 0x2102, .upper⟩,
   ⟨0x2107, 0x2107, .upper⟩, ⟨0x210a, 0x210b, .lowerFirst⟩, ⟨0x210c, 0x210d, .upper⟩,
   ⟨0x210e, 0x210f, .lower⟩, ⟨0x2110, 0x2112, .upper⟩, ⟨0x2113, 0x2113, .lower⟩,
   ⟨0x2115, 0x2115, .upper⟩, ⟨0x2119, 0x211d, .upper⟩, ⟨0x2124, 0x2124, .upper⟩,
   ⟨0x2126, 0x2126, .upper⟩, ⟨0x2128, 0x2128, .upper⟩, ⟨0x212a, 0x212d, .upper⟩,
   ⟨0x212f, 0x2130, .lowerFirst⟩, ⟨0x2131, 0x2133, .upper⟩, ⟨0x2134, 0x2134, .lower⟩,
   ⟨0x2139, 0x2139, .lower⟩, ⟨0x213c, 0x213d, .lower⟩, ⟨0x213e, 0x213f, .upper⟩,
   ⟨0x2145, 0x2146, .upperFirst⟩, ⟨0x2147, 0x2149, .lower⟩, ⟨0x214e, 0x214e, .lower⟩,
   ⟨0x2160, 0x216f, .upper⟩, ⟨0x2170, 0x217f, .lower⟩, ⟨0x2183, 0x2184, .upperFirst⟩,
   ⟨0x24b6, 0x24cf, .upper⟩, ⟨0x24d0, 0x24e9, .lower⟩, ⟨0x2c00, 0x2c2f, .upper⟩,
   ⟨0x2c30, 0x2c5f, .lower⟩, ⟨0x2c60, 0x2c62, .upperFirst⟩, ⟨0x2c63, 0x2c64, .upper⟩,
   ⟨0x2c65, 0x2c66, .lower⟩, ⟨0x2c67, 0x2c6d, .upperFirst⟩, ⟨0x2c6e, 0x2c70, .upper⟩,
   ⟨0x2c71, 0x2c73, .lowerFirst⟩, ⟨0x2c74, 0x2c76, .lowerFirst⟩, ⟨0x2c77, 0x2c7d, .lower⟩,
   ⟨0x2c7e, 0x2c80, .upper⟩, ⟨0x2c81, 0x2ce3, .lowerFirst⟩, ⟨0x2ce4, 0x2ce4, .lower⟩,
   ⟨0x2ceb, 0x2cee, .upperFirst⟩, ⟨0x2cf2, 0x2cf3, .upperFirst⟩, ⟨0x2d00, 0x2d25, .lower⟩,
   ⟨0x2d27, 0x2d27, .lower⟩, ⟨0x2d2d, 0x2d2d, .lower⟩, ⟨0xa640, 0xa66d, .upperFirst⟩,
   ⟨0xa680, 0xa69b, .upperFirst⟩, ⟨0xa69c, 0xa69d, .lower⟩, ⟨0xa722, 0xa72f, .upperFirst⟩,
   ⟨0xa730, 0xa731, .lower⟩, ⟨0xa732, 0xa76f, .upperFirst⟩, ⟨0xa770, 0xa778, .lower⟩,
   ⟨0xa779, 0xa77d, .upperFirst⟩, ⟨0xa77e, 0xa787, .upperFirst⟩, ⟨0xa78b, 0xa78e, .upperFirst⟩,
   ⟨0xa790, 0xa793, .upperFirst⟩, ⟨0xa794, 0xa795, .lower⟩, ⟨0xa796, 0xa7aa, .upperFirst⟩,
   ⟨0xa7ab, 0xa7ae, .upper⟩, ⟨0xa7af, 0xa7b0, .lowerFirst⟩, ⟨0xa7b1, 0xa7b4, .upper⟩,
   ⟨0xa7b5, 0xa7c4, .lowerFirst⟩, ⟨0xa7c5, 0xa7c7, .upper⟩, ⟨0xa7c8, 0xa7cb, .lowerFirst⟩,
   ⟨0xa7cc, 0xa7dc, .upperFirst⟩, ⟨0xa7f1, 0xa7f4, .lower⟩, ⟨0xa7f5, 0xa7f6, .upperFirst⟩,
   ⟨0xa7f8, 0xa7fa, .lower⟩, ⟨0xab30, 0xab5a, .lower⟩, ⟨0xab5c, 0xab69, .lower⟩,
   ⟨0xab70, 0xabbf, .lower⟩, ⟨0xfb00, 0xfb06, .lower⟩, ⟨0xfb13, 0xfb17, .lower⟩,
   ⟨0xff21, 0xff3a, .upper⟩, ⟨0xff41, 0xff5a, .lower⟩, ⟨0x10400, 0x10427, .upper⟩,
   ⟨0x10428, 0x1044f, .lower⟩, ⟨0x104b0, 0x104d3, .upper⟩, ⟨0x104d8, 0x104fb, .lower⟩,
   ⟨0x10570, 0x1057a, .upper⟩, ⟨0x1057c, 0x1058a, .upper⟩, ⟨0x1058c, 0x10592, .upper⟩,
   ⟨0x10594, 0x10595, .upper⟩, ⟨0x10597, 0x105a1, .lower⟩, ⟨0x105a3, 0x105b1, .lower⟩,
   ⟨0x105b3, 0x105b9, .lower⟩, ⟨0x105bb, 0x105bc, .lower⟩, ⟨0x10780, 0x10780, .lower⟩,
   ⟨0x10783, 0x10785, .lower⟩, ⟨0x10787, 0x107b0, .lower⟩, ⟨0x107b2, 0x107ba, .lower⟩,
   ⟨0x10c80, 0x10cb2, .upper⟩, ⟨0x10cc0, 0x10cf2, .lower⟩, ⟨0x10d50, 0x10d65, .upper⟩,
   ⟨0x10d70, 0x10d85, .lower⟩, ⟨0x118a0, 0x118bf, .upper⟩, ⟨0x118c0, 0x118df, .lower⟩,
   ⟨0x16e40, 0x16e5f, .upper⟩, ⟨0x16e60, 0x16e7f, .lower⟩, ⟨0x16ea0, 0x16eb8, .upper⟩,
   ⟨0x16ebb, 0x16ed3, .lower⟩, ⟨0x1d400, 0x1d419, .upper⟩, ⟨0x1d41a, 0x1d433, .lower⟩,
   ⟨0x1d434, 0x1d44d, .upper⟩, ⟨0x1d44e, 0x1d454, .lower⟩, ⟨0x1d456, 0x1d467, .lower⟩,
   ⟨0x1d468, 0x1d481, .upper⟩, ⟨0x1d482, 0x1d49b, .lower⟩, ⟨0x1d49c, 0x1d49c, .upper⟩,
   ⟨0x1d49e, 0x1d49f, .upper⟩, ⟨0x1d4a2, 0x1d4a2, .upper⟩, ⟨0x1d4a5, 0x1d4a6, .upper⟩,
   ⟨0x1d4a9, 0x1d4ac, .upper⟩, ⟨0x1d4ae, 0x1d4b5, .upper⟩, ⟨0x1d4b6, 0x1d4b9, .lower⟩,
   ⟨0x1d4bb, 0x1d4bb, .lower⟩, ⟨0x1d4bd, 0x1d4c3, .lower⟩, ⟨0x1d4c5, 0x1d4cf, .lower⟩,
   ⟨0x1d4d0, 0x1d4e9, .upper⟩, ⟨0x1d4ea, 0x1d503, .lower⟩, ⟨0x1d504, 0x1d505, .upper⟩,
   ⟨0x1d507, 0x1d50a, .upper⟩, ⟨0x1d50d, 0x1d514, .upper⟩, ⟨0x1d516, 0x1d51c, .upper⟩,
   ⟨0x1d51e, 0x1d537, .lower⟩, ⟨0x1d538, 0x1d539, .upper⟩, ⟨0x1d53b, 0x1d53e, .upper⟩,
   ⟨0x1d540, 0x1d544, .upper⟩, ⟨0x1d546, 0x1d546, .upper⟩, ⟨0x1d54a, 0x1d550, .upper⟩,
   ⟨0x1d552, 0x1d56b, .lower⟩, ⟨0x1d56c, 0x1d585, .upper⟩, ⟨0x1d586, 0x1d59f, .lower⟩,
   ⟨0x1d5a0, 0x1d5b9, .upper⟩, ⟨0x1d5ba, 0x1d5d3, .lower⟩, ⟨0x1d5d4, 0x1d5ed, .upper⟩,
   ⟨0x1d5ee, 0x1d607, .lower⟩, ⟨0x1d608, 0x1d621, .upper⟩, ⟨0x1d622, 0x1d63b, .lower⟩,
   ⟨0x1d63c, 0x1d655, .upper⟩, ⟨0x1d656, 0x1d66f, .lower⟩, ⟨0x1d670, 0x1d689, .upper⟩,
   ⟨0x1d68a, 0x1d6a5, .lower⟩, ⟨0x1d6a8, 0x1d6c0, .upper⟩, ⟨0x1d6c2, 0x1d6da, .lower⟩,
   ⟨0x1d6dc, 0x1d6e1, .lower⟩, ⟨0x1d6e2, 0x1d6fa, .upper⟩, ⟨0x1d6fc, 0x1d714, .lower⟩,
   ⟨0x1d716, 0x1d71b, .lower⟩, ⟨0x1d71c, 0x1d734, .upper⟩, ⟨0x1d736, 0x1d74e, .lower⟩,
   ⟨0x1d750, 0x1d755, .lower⟩, ⟨0x1d756, 0x1d76e, .upper⟩, ⟨0x1d770, 0x1d788, .lower⟩,
   ⟨0x1d78a, 0x1d78f, .lower⟩, ⟨0x1d790, 0x1d7a8, .upper⟩, ⟨0x1d7aa, 0x1d7c2, .lower⟩,
   ⟨0x1d7c4, 0x1d7c9, .lower⟩, ⟨0x1d7ca, 0x1d7cb, .upperFirst⟩, ⟨0x1df00, 0x1df09, .lower⟩,
   ⟨0x1df0b, 0x1df1e, .lower⟩, ⟨0x1df25, 0x1df2a, .lower⟩, ⟨0x1e030, 0x1e06d, .lower⟩,
   ⟨0x1e900, 0x1e921, .upper⟩, ⟨0x1e922, 0x1e943, .lower⟩, ⟨0x1f130, 0x1f149, .upper⟩,
   ⟨0x1f150, 0x1f169, .upper⟩, ⟨0x1f170, 0x1f189, .upper⟩]

/-- **The case of a character**, read off the first run that does not end before it. -/
def letterCase (c : Char) : Option LetterCase :=
  match caseRuns.find? fun r => c.toNat ≤ r.last with
  | some r => if r.first ≤ c.toNat then some (r.pattern.nth (c.toNat - r.first)) else none
  | none => none

/-- The letters that may name a nonterminal. -/
def isUpper (c : Char) : Bool := letterCase c = some .upper

/-- The letters that may be a terminal. -/
def isLower (c : Char) : Bool := letterCase c = some .lower

/-- **No character has both cases.** -/
theorem isUpper_eq_false_of_isLower {c : Char} (h : isLower c = true) : isUpper c = false := by
  have h1 : letterCase c = some .lower := of_decide_eq_true h
  simp [isUpper, h1]

end Chomsky
