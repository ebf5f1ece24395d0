/-!
# Limits

What bounds a run: how often a tree is passed over, and how deep parentheses may nest and passes
reach. Passes over two operands may run at the same time near the root, which no result shows.
-/

namespace SymbolicCalculus

/-- The bounds of a run. -/
structure Limits where
  /-- The most passes over a tree. -/
  maxPasses : Nat := 256
  /-- How many groups may be nested, and how many levels below the root a pass reaches. -/
  maxDepth : Nat := 512
  /-- How many levels at the root may be worked on in parallel. -/
  parallelDepth : Nat := 4
  deriving DecidableEq

namespace Limits

/-- The same limits, without parallel work. -/
def sequential (limits : Limits) : Limits :=
  { limits with parallelDepth := 0 }

end Limits

end SymbolicCalculus
