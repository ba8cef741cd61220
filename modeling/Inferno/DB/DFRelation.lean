/-
  Inferno.DB.DFRelation
  ─────────────────────
  `DepthFirstRelation`: two links compared by climbing towards a common parent.

    • `climbLeft`, `climbRight` — the two halves of the loop body,
    • `compareHierarchical`     — the loop; `none` is an assertion, and the fuel
                                  is more than the number of links,
    • links of one sequence compare by their places in it.
-/
import Inferno.DB.XTreeDatabase
import Mathlib.Tactic.Linarith

namespace Inferno.DB

open Inferno.Common

/-- `DepthFirstRelation::RelType`. -/
inductive RelType where
  | equal
  | leftIsAncestor
  | rightIsAncestor
  | containerSiblings
  | itemSiblings
  | rootSiblings
deriving DecidableEq

namespace DepthFirstRelation

variable {L N A : Type}

/-! ## §1. The comparison. -/

/-- `candidate_mutuals`. -/
abbrev Mutuals (L : Type) := StdMap (XLink L) (Option (XLink L) × Option (XLink L))

/-- `candidate_mutuals[p]`. -/
def Mutuals.entry (m : Mutuals L) (p : XLink L) : Option (XLink L) × Option (XLink L) :=
  (m.lookup p).getD (none, none)

/-- How one half of the loop body ends: it returns, breaks out with direct siblings,
or has advanced. -/
inductive Climb (L : Type) where
  | done (res : Int × RelType)
  | siblings (l r : XLink L)
  | on (l r : XLink L) (m : Mutuals L)

section

variable [LinearOrder L]

/-- `if( l_parent_xlink ) …`. -/
def climbLeft (rKey lCur rCur : XLink L) (m : Mutuals L) : Option (XLink L) → Climb L
  | none => .on lCur rCur m
  | some p =>
      if p = rKey then .done (1, .rightIsAncestor)
      else match (m.entry p).2 with
        | some r => .siblings lCur r
        | none => .on p rCur (m.set p (some lCur, (m.entry p).2))

/-- `if( r_parent_xlink ) …`. -/
def climbRight (lKey lCur rCur : XLink L) (m : Mutuals L) : Option (XLink L) → Climb L
  | none => .on lCur rCur m
  | some p =>
      if p = lKey then .done (-1, .leftIsAncestor)
      else match (m.entry p).1 with
        | some l => .siblings l rCur
        | none => .on lCur p (m.set p ((m.entry p).1, some rCur))

/-- Direct siblings: by item, then by place in the container. -/
def compareSiblings (db : XTreeDatabase L N A) (l r : XLink L) : Option (Int × RelType) := do
  let lRow ← db.getRow l
  let rRow ← db.getRow r
  if lRow.itemOrdinal - rRow.itemOrdinal ≠ 0 then
    some (lRow.itemOrdinal - rRow.itemOrdinal, .itemSiblings)
  else if lRow.containerOrdinal - rRow.containerOrdinal ≠ 0 then
    some (lRow.containerOrdinal - rRow.containerOrdinal, .containerSiblings)
  else
    none

/-- Both at a root. -/
def compareRoots (db : XTreeDatabase L N A) (l r : XLink L) : Option (Int × RelType) := do
  let lRow ← db.getRow l
  let rRow ← db.getRow r
  ASSERT (lRow.treeOrdinal ≠ rRow.treeOrdinal)
  some (lRow.treeOrdinal - rRow.treeOrdinal, .rootSiblings)

/-- The `while(true)` of `CompareHierarchical`. -/
def compareLoop (db : XTreeDatabase L N A) (lKey rKey : XLink L) :
    Nat → XLink L → XLink L → Mutuals L → Option (Int × RelType)
  | 0, _, _, _ => none
  | fuel + 1, lCur, rCur, m => do
      let lParent ← db.tryGetParentXLink lCur
      let rParent ← db.tryGetParentXLink rCur
      if lParent = none ∧ rParent = none then compareRoots db lCur rCur
      else match climbLeft rKey lCur rCur m lParent with
        | .done res => some res
        | .siblings l r => compareSiblings db l r
        | .on lCur rCur m =>
            match climbRight lKey lCur rCur m rParent with
            | .done res => some res
            | .siblings l r => compareSiblings db l r
            | .on lCur rCur m =>
                if lCur = rCur then none else compareLoop db lKey rKey fuel lCur rCur m

/-- `CompareHierarchical`. -/
def compareHierarchical (db : XTreeDatabase L N A) (lKey rKey : XLink L) :
    Option (Int × RelType) :=
  if lKey = rKey then some (0, .equal)
  else compareLoop db lKey rKey (db.rows.keys.card + 1) lKey rKey StdMap.empty

/-- `Compare3Way`. -/
def compare3Way (db : XTreeDatabase L N A) (lKey rKey : XLink L) : Option Int :=
  (compareHierarchical db lKey rKey).map (·.1)

/-! ## §2. Links of one sequence. -/

variable {db : XTreeDatabase L N A} {y : L} {node : N} {i : Nat} {xs : List L}

/-- The parent of a link is the link to its node. -/
theorem tryGetParentXLink_place {item : Item L} {k : Nat} {x : L} (hy : y ∈ db.rows.keys)
    (hp : db.Place y node i item k x) :
    db.tryGetParentXLink (.link x) = some (some (.link y)) := by
  obtain ⟨row, hrow, hcore, _⟩ := XTreeDatabase.exists_row hy hp
  have hparent : row.parentNode = some node := by
    show row.toCoreInfo.parentNode = some node
    rw [hcore]
    cases item <;> rfl
  obtain ⟨ps, hps, _⟩ := (db.incoming node y).mpr ⟨hy, hp.child⟩
  have hsolo : ps = {y} := by
    ext z
    rw [Finset.mem_singleton]
    constructor
    · intro hz
      obtain ⟨hzrow, hzchild⟩ := (db.incoming node z).mp ⟨ps, hps, hz⟩
      exact db.rule217 y hy z hzrow node i item k x hp hzchild
    · intro hz
      obtain ⟨ps', hps', hy'⟩ := (db.incoming node z).mpr (hz ▸ ⟨hy, hp.child⟩)
      rw [hps, Option.some.injEq] at hps'
      rw [hps']
      exact hy'
  have horder : inOrder ({y} : Finset L) = [y] := by
    rw [inOrder_eq_sort, Finset.sort_singleton]
  simp only [XTreeDatabase.tryGetParentXLink, XTreeDatabase.getRow, hrow, hparent, hps, hsolo,
    horder, Option.bind_eq_bind, Option.bind_some]

/-- The parent of an element is the link to its node. -/
theorem tryGetParentXLink_sequence (hs : db.SequenceAt y node i xs) {x : L} {k : Nat}
    (hk : xs[k]? = some x) : db.tryGetParentXLink (.link x) = some (some (.link y)) :=
  tryGetParentXLink_place hs.row (hs.place hk)

/-- **Within a sequence the relation is the order of the places.** -/
theorem compare3Way_sequence (hs : db.SequenceAt y node i xs) {x x' : L} {k k' : Nat}
    (hk : xs[k]? = some x) (hk' : xs[k']? = some x') :
    compare3Way db (.link x) (.link x') = some ((k : Int) - k') := by
  by_cases hxx : x = x'
  · subst hxx
    have hkk : k = k' := (XTreeDatabase.place_unique hs.row hs.row (hs.place hk)
      (hs.place hk')).2.2.2.2
    simp [compare3Way, compareHierarchical, hkk]
  · obtain ⟨depth, hdepth⟩ := db.acyclic
    have hne : ∀ {j : Nat} {z : L}, xs[j]? = some z → (XLink.link y) ≠ .link z := by
      intro j z hz heq
      cases heq
      exact absurd (hdepth y hs.row node i _ j y (hs.place hz)) (lt_irrefl _)
    obtain ⟨row, hrow, _, hitem, hcon, _⟩ := hs.row_at hk
    obtain ⟨row', hrow', _, hitem', hcon', _⟩ := hs.row_at hk'
    have hkk : (k : Int) - k' ≠ 0 := by
      intro hzero
      have hkk : k = k' := by omega
      rw [hkk, hk'] at hk
      exact hxx (Option.some.inj hk).symm
    -- the first turn meets at the common parent
    have hloop : compareLoop db (.link x) (.link x') (db.rows.keys.card + 1) (.link x) (.link x')
        StdMap.empty = compareSiblings db (.link x) (.link x') := by
      simp [compareLoop, tryGetParentXLink_sequence hs hk, tryGetParentXLink_sequence hs hk',
        climbLeft, climbRight, Mutuals.entry, hne hk, hne hk']
    have hsib : compareSiblings db (.link x) (.link x')
        = some ((k : Int) - k', .containerSiblings) := by
      simp [compareSiblings, XTreeDatabase.getRow, hrow, hrow', hitem, hitem', hcon, hcon', hkk]
    rw [compare3Way, compareHierarchical, if_neg (by simpa using hxx), hloop, hsib]
    rfl

end

end DepthFirstRelation

end Inferno.DB
