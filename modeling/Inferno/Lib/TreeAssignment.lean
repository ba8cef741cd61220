/-
  Inferno.Lib.TreeAssignment
  ──────────────────────────
  Assignments to the vertices of a tree, under constraints that are local to a vertex
  and its children.

    • `Forest`      — children with one parent each, and no cycle,
    • `Below`       — a vertex and all under it; siblings have disjoint parts,
    • `Local`       — a constraint that reads a vertex and its children,
    • `Forest.glue` — assignments to the parts under the children of a vertex, which
                      agree with one for the vertex, make one for the whole part.
-/
import Mathlib.Logic.Relation
import Mathlib.Data.List.Basic

namespace Inferno.Lib.TreeAssignment

variable {V X : Type*}

/-! ## §1. Forests. -/

/-- Every vertex is the child of at most one other, and a rank falls along the edges. -/
structure Forest (children : V → List V) where
  rank : V → Nat
  rank_lt : ∀ v, ∀ c ∈ children v, rank c < rank v
  parent_unique : ∀ v w c, c ∈ children v → c ∈ children w → v = w

/-- `w` is `v`, or under it. -/
def Below (children : V → List V) : V → V → Prop :=
  Relation.ReflTransGen (fun v c => c ∈ children v)

variable {children : V → List V} {v w c c' : V}

theorem Below.refl : Below children v v :=
  Relation.ReflTransGen.refl

theorem Below.tail (h : Below children v w) (hc : c ∈ children w) : Below children v c :=
  Relation.ReflTransGen.tail h hc

theorem Below.head (hc : c ∈ children v) (h : Below children c w) : Below children v w :=
  Relation.ReflTransGen.head hc h

/-- Under `v`: `v` itself, or under one of its children. -/
theorem below_iff : Below children v w ↔ w = v ∨ ∃ c ∈ children v, Below children c w := by
  constructor
  · intro h
    rcases Relation.ReflTransGen.cases_head h with h | h
    · exact Or.inl h.symm
    · exact Or.inr h
  · intro h
    rcases h with h | h
    · rw [h]
      exact Below.refl
    · obtain ⟨c, hc, h⟩ := h
      exact Below.head hc h

namespace Forest

variable (F : Forest children)

include F

theorem rank_le (h : Below children v w) : F.rank w ≤ F.rank v := by
  induction h with
  | refl => exact Nat.le_refl _
  | tail _ hc ih => exact Nat.le_trans (Nat.le_of_lt (F.rank_lt _ _ hc)) ih

/-- A child is not above its parent. -/
theorem not_below_parent (hc : c ∈ children v) : ¬ Below children c v := by
  intro h
  have hle := F.rank_le h
  have hlt := F.rank_lt v c hc
  omega

/-- **What is above a vertex is a chain.** -/
theorem comparable (h : Below children c w) :
    Below children c' w → Below children c c' ∨ Below children c' c := by
  induction h with
  | refl => intro h'; exact Or.inr h'
  | @tail u w h hw ih =>
      intro h'
      rcases Relation.ReflTransGen.cases_tail h' with heq | ⟨u', hu', hw'⟩
      · -- `c'` is the vertex itself
        rw [← heq]
        exact Or.inl (Below.tail h hw)
      · have hu := F.parent_unique u' u w hw' hw
        exact ih (hu ▸ hu')

/-- **The parts under two siblings are disjoint.** -/
theorem siblings_disjoint (hc : c ∈ children v) (hc' : c' ∈ children v)
    (h : Below children c w) (h' : Below children c' w) : c = c' := by
  have hapart : ∀ {a b : V}, a ∈ children v → b ∈ children v → Below children a b → a = b := by
    intro a b ha hb hab
    rcases Relation.ReflTransGen.cases_tail hab with heq | ⟨u, hu, hb'⟩
    · exact heq.symm
    · -- the path to `b` passes through its parent `v`
      have huv := F.parent_unique u v b hb' hb
      exact absurd (huv ▸ hu) (F.not_below_parent ha)
  rcases F.comparable h h' with hcc | hcc
  · exact hapart hc hc' hcc
  · exact (hapart hc' hc hcc).symm

end Forest

/-! ## §2. Local constraints. -/

/-- The constraint at a vertex reads the vertex and its children. -/
def Local (children : V → List V) (Holds : (V → X) → V → Prop) : Prop :=
  ∀ (a b : V → X) (v : V), a v = b v → (∀ c ∈ children v, a c = b c) → Holds a v → Holds b v

/-- The constraint holds at `v` and all under it. -/
def HoldsBelow (children : V → List V) (Holds : (V → X) → V → Prop) (a : V → X) (v : V) : Prop :=
  ∀ w, Below children v w → Holds a w

theorem holdsBelow_iff {Holds : (V → X) → V → Prop} {a : V → X} :
    HoldsBelow children Holds a v
      ↔ Holds a v ∧ ∀ c ∈ children v, HoldsBelow children Holds a c := by
  constructor
  · intro h
    exact ⟨h v Below.refl, fun c hc w hw => h w (Below.head hc hw)⟩
  · intro h w hw
    rcases below_iff.mp hw with heq | ⟨c, hc, hcw⟩
    · exact heq ▸ h.1
    · exact h.2 c hc w hcw

open Classical in
/-- **Gluing.**  A value for `v`, a value for each child that extends to the part under
it, and the constraint at `v` for these values: then the part under `v` has an
assignment. -/
theorem Forest.glue (F : Forest children) {Holds : (V → X) → V → Prop}
    (hlocal : Local children Holds) {x : X} {a : V → X}
    (hparts : ∀ c ∈ children v, ∃ b : V → X, b c = a c ∧ HoldsBelow children Holds b c)
    (hv : ∀ b : V → X, b v = x → (∀ c ∈ children v, b c = a c) → Holds b v) :
    ∃ b : V → X, b v = x ∧ (∀ c ∈ children v, b c = a c) ∧ HoldsBelow children Holds b v := by
  have hnonempty : Nonempty (V → X) := ⟨a⟩
  choose! part hpart hholds using hparts
  -- each vertex takes its value from the part it is in
  let b : V → X := fun w =>
    if w = v then x
    else if h : ∃ c ∈ children v, Below children c w then part h.choose w else a w
  have hne : ∀ {c w : V}, c ∈ children v → Below children c w → w ≠ v := by
    intro c w hc hw heq
    exact F.not_below_parent hc (heq ▸ hw)
  have hbelow : ∀ {c w : V}, c ∈ children v → Below children c w → b w = part c w := by
    intro c w hc hw
    have hex : ∃ c ∈ children v, Below children c w := ⟨c, hc, hw⟩
    have hsame : hex.choose = c :=
      F.siblings_disjoint hex.choose_spec.1 hc hex.choose_spec.2 hw
    show (if w = v then x else if h : ∃ c ∈ children v, Below children c w
      then part h.choose w else a w) = part c w
    rw [if_neg (hne hc hw), dif_pos hex, hsame]
  have hbv : b v = x := if_pos rfl
  have hbc : ∀ c ∈ children v, b c = a c :=
    fun c hc => (hbelow hc Below.refl).trans (hpart c hc)
  refine ⟨b, hbv, hbc, holdsBelow_iff.mpr ⟨hv b hbv hbc, fun c hc w hw => ?_⟩⟩
  refine hlocal (part c) b w (hbelow hc hw).symm (fun u hu => ?_) (hholds c hc w hw)
  exact (hbelow hc (Below.tail hw hu)).symm

end Inferno.Lib.TreeAssignment
