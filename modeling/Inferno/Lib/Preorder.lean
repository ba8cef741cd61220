/-
  Inferno.Lib.Preorder
  ────────────────────
  The nodes below a node of an ordered tree, listed as a depth-first walk meets them.

    • `PathBelow`           — a node below another, by a path of steps,
    • `preorder`        — the walk: a node, and then what is below each child in turn,
    • `mem_preorder`    — it meets the nodes at paths shorter than its depth, and no other,
    • `preorder_sorted` — it meets them in the dictionary order of their paths.
-/
import Inferno.Lib.PathOrder
import Mathlib

namespace Inferno.Lib

variable {K E : Type*} (children : E → List (K × E))

/-! ## §1. The walk. -/

/-- `y` is below `x` by the steps `p`. -/
inductive PathBelow : E → List K → E → Prop where
  | here (x : E) : PathBelow x [] x
  | step {x y z : E} {a : K} {p : List K} (h : (a, z) ∈ children x) (hz : PathBelow z p y) :
      PathBelow x (a :: p) y

/-- The walk, with the path to each node.  The number bounds the depth. -/
def preorder : Nat → E → List (List K × E)
  | 0, _ => []
  | depth + 1, x =>
      ([], x) :: (children x).flatMap fun c =>
        (preorder depth c.2).map fun found => (c.1 :: found.1, found.2)

variable {children}

/-- A path of one more step. -/
theorem PathBelow.snoc {x y z : E} {a : K} {p : List K} (hy : PathBelow children x p y)
    (h : (a, z) ∈ children y) : PathBelow children x (p ++ [a]) z := by
  induction hy with
  | here x => exact .step h (.here z)
  | step hc hz ih => exact .step hc (ih h)

/-! ## §2. What the walk meets. -/

/-- **The walk meets the nodes below**, down to its depth. -/
theorem mem_preorder (depth : Nat) : ∀ {x y : E} {p : List K},
    (p, y) ∈ preorder children depth x ↔ PathBelow children x p y ∧ p.length < depth := by
  induction depth with
  | zero =>
      intro x y p
      simp [preorder]
  | succ depth ih =>
      intro x y p
      unfold preorder
      rw [List.mem_cons, List.mem_flatMap]
      constructor
      · intro h
        rcases h with heq | ⟨⟨a, z⟩, hc, hmem⟩
        · cases heq
          exact ⟨.here x, Nat.succ_pos depth⟩
        · obtain ⟨⟨q, y'⟩, hq, heq⟩ := List.mem_map.mp hmem
          cases heq
          obtain ⟨hbelow, hlt⟩ := ih.mp hq
          exact ⟨.step hc hbelow, Nat.succ_lt_succ hlt⟩
      · intro h
        obtain ⟨hbelow, hlt⟩ := h
        cases hbelow with
        | here => exact .inl rfl
        | @step _ _ z a q hc hz =>
            refine .inr ⟨(a, z), hc, List.mem_map.mpr ⟨(q, y), ?_, rfl⟩⟩
            exact ih.mpr ⟨hz, Nat.lt_of_succ_lt_succ hlt⟩

/-! ## §3. In which order. -/

section

variable [LinearOrder K]

/-- **The walk is in the order of the paths**, when the children of each node are in the
order of their steps. -/
theorem preorder_sorted (hsorted : ∀ x, (children x).Pairwise fun c d => c.1 < d.1)
    (depth : Nat) : ∀ x, (preorder children depth x).Pairwise fun a b => a.1 < b.1 := by
  induction depth with
  | zero =>
      intro x
      exact List.Pairwise.nil
  | succ depth ih =>
      intro x
      unfold preorder
      rw [List.pairwise_cons]
      constructor
      · -- the node comes before what is below it
        intro found hfound
        obtain ⟨c, _, hmem⟩ := List.mem_flatMap.mp hfound
        obtain ⟨⟨q, y⟩, _, rfl⟩ := List.mem_map.mp hmem
        exact List.nil_lt_cons c.1 q
      · rw [List.pairwise_flatMap]
        constructor
        · intro c _
          rw [List.pairwise_map]
          exact (ih c.2).imp fun h => List.Lex.cons h
        · -- and what is below a child before what is below the next
          refine (hsorted x).imp ?_
          intro c d hcd a ha b hb
          obtain ⟨⟨q, y⟩, _, rfl⟩ := List.mem_map.mp ha
          obtain ⟨⟨q', y'⟩, _, rfl⟩ := List.mem_map.mp hb
          exact List.Lex.rel hcd

end

end Inferno.Lib
