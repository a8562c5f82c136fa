/-!
# Places in a file

Errors point at a line of a file, or at the file as a whole. Two spellings of a path that name the
same components are the same place, so `a//b` and `a/./b` agree with `a/b`, while `./a` keeps its
leading dot.

* `Located`: anything with a place.
-/

namespace Chomsky

structure Path where
  text : String
deriving Repr

inductive Anchor where
  /-- At the root, as in `/a`. -/
  | root
  /-- At a written dot, as in `./a`. -/
  | here
  /-- At its first component, as in `a`. -/
  | bare
deriving DecidableEq, Repr

namespace Path

/-- The beginning of a path. -/
def anchor (p : Path) : Anchor :=
  match p.text.toList with
  | '/' :: _ => .root
  | ['.'] => .here
  | '.' :: '/' :: _ => .here
  | _ => .bare

/-- The components of a path: repeated slashes, a final slash and inner dots say nothing. -/
def components (p : Path) : List (List Char) :=
  (p.text.toList.splitOn '/').filter fun c => c ≠ [] ∧ c ≠ ['.']

/-- **Paths are compared by what they name.** -/
instance : BEq Path :=
  ⟨fun p q => decide (p.anchor = q.anchor) && decide (p.components = q.components)⟩

end Path

/-- A place in a file. Lines count from one, and line zero stands for the whole file. -/
structure Location where
  path : Path
  line : Nat := 0
deriving BEq, Repr

namespace Location

/-- The written form of a place, `path` or `path:line`. -/
def text (l : Location) : String :=
  if l.line = 0 then l.path.text else s!"{l.path.text}:{l.line}"

/-- **A message with its place in front**, both in colour. -/
def report (l : Location) (message : String) : String :=
  s!"\x1b[31;49;1m[{l.text}]\x1b[39;49;1m  {message}\x1b[0m"

end Location

structure Located (α : Type) where
  location : Location
  item : α
deriving BEq, Repr

end Chomsky
