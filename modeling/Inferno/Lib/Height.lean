/-
  Inferno.Lib.Height
  ──────────────────
  Heights for a graph without cycles, each of whose nodes has a list of children.

    • `exists_height` — every node can be given a number, above those of its children.
-/
import Mathlib.Algebra.BigOperators.Group.List.Basic
import Mathlib.Algebra.Order.BigOperators.Group.List
import Mathlib.Algebra.Order.Ring.Nat
import Mathlib.Order.WellFounded

namespace Inferno.Lib

/-- **Heights exist** where descending comes to an end. -/
theorem exists_height {N : Type*} {children : N → List N}
    (hacyclic : WellFounded fun child parent => child ∈ children parent) :
    ∃ height : N → Nat, ∀ parent, ∀ child ∈ children parent, height child < height parent := by
  -- one more than the sum over the children
  let height : N → Nat := hacyclic.fix fun parent ih =>
    1 + ((children parent).attach.map fun child => ih child.1 child.2).sum
  refine ⟨height, ?_⟩
  intro parent child hchild
  have hunfold : height parent
      = 1 + ((children parent).attach.map fun child => height child.1).sum :=
    hacyclic.fix_eq _ parent
  have hmem : height child ∈ (children parent).attach.map fun child => height child.1 :=
    List.mem_map.mpr ⟨⟨child, hchild⟩, List.mem_attach _ _, rfl⟩
  have hle := List.le_sum_of_mem hmem
  omega

end Inferno.Lib
