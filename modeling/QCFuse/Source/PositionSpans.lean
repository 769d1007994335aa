import QCFuse.Source.ContextPool

/-!
# The spans of context positions

`ContextBlendPool._coalesce_sorted_positions`: positions that follow each other are one span, with its offset in the
packed keys and values.
-/

set_option autoImplicit false

namespace QCFuse.Source

structure PositionSpan where
  start : Int
  stop : Int
  outStart : Int
  deriving DecidableEq, Repr

/-- The loop over `positions[1:]` and the last span. -/
def coalesceLoop (runStart prev outStart : Int) : List Int → List PositionSpan
  | [] => [⟨runStart, prev + 1, outStart⟩]
  | pos :: positions =>
    if pos = prev + 1 then coalesceLoop runStart pos outStart positions
    else ⟨runStart, prev + 1, outStart⟩ :: coalesceLoop pos pos (outStart + (prev - runStart + 1)) positions

/-- `_coalesce_sorted_positions(positions)`. -/
def coalesceSortedPositions : List Int → List PositionSpan
  | [] => []
  | pos :: positions => coalesceLoop pos pos 0 positions

end QCFuse.Source
