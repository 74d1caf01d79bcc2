/-!
# The range of a node for tree explorers

A tree explorer highlights a node by a pair of offsets. A node given to it may lack either
end; it then has no range.

## Main definitions

* `nodeRange`.
-/

namespace ExprFront

/-- The range of a node: both ends when it has both. -/
def nodeRange {α : Type} (start stop : Option α) : Option (α × α) :=
  match start, stop with
  | some s, some e => some (s, e)
  | _, _ => none

end ExprFront
