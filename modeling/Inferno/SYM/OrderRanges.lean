/-
  Inferno.SYM.OrderRanges
  ───────────────────────
  What the ranges of the simple-compare and category orders hold.

    • `SimpleCompareRangeResult` — its value, and `TryExtensionalise`,
    • `category_threeWay`        — the category keys are strictly and totally ordered,
    • `orderRanges_exact`        — between the bounds of a guide are the links of its class;
                                   between two minimuses, those of the ordinals.
-/
import Inferno.DB.SimpleCompareRelation
import Inferno.Lib.ThreeWay
import Inferno.SYM.CategoryRange
import Inferno.SYM.LeafDatabase

namespace Inferno.SYM

open Inferno.Common
open Inferno.Lib
open Inferno.DB
open Inferno.DB.Lacing
open Inferno.Helpers
open Inferno.Helpers.SimpleCompare

variable {N K L A : Type} [LinearOrder N] [DecidableEq K] [LinearOrder L]

/-! ## §1. Simple-compare ranges. -/

/-- `SimpleCompareRangeResult`; no key is a null pointer. -/
structure SimpleCompareRangeResult (N : Type) where
  lower : Option (SimpleCompareKey N)
  lowerIncl : Bool
  upper : Option (SimpleCompareKey N)
  upperIncl : Bool

namespace SimpleCompareRangeResult

open SimpleCompareRelation

variable (t : TreeNodes N) (db : XTreeDatabase L N A)

/-- `it_lower`. -/
def itLower (r : SimpleCompareRangeResult N) (ordering : List N) : Nat :=
  match r.lower with
  | some key => if r.lowerIncl then lowerBound t ordering key else upperBound t ordering key
  | none => 0

/-- `it_upper`. -/
def itUpper (r : SimpleCompareRangeResult N) (ordering : List N) : Nat :=
  match r.upper with
  | some key => if r.upperIncl then upperBound t ordering key else lowerBound t ordering key
  | none => ordering.length

/-- `TryExtensionalise`; the loop is not to start after its end. -/
def tryExtensionalise (r : SimpleCompareRangeResult N) : Option (Finset L) :=
  let ordering := simpleCompareOrdering t db.incomingXLinks.keys
  if itLower t r ordering ≤ itUpper t r ordering then
    ((ordering.take (itUpper t r ordering)).drop (itLower t r ordering)).foldlM
      (CategoryRangeResult.insertIncoming db) ∅
  else none

/-- The value of `AllInSimpleCompareRangeOperator` from the lower to the upper bound of the
class of a guide. -/
def classOf (guide : N) (lowerIncl upperIncl : Bool) : SimpleCompareRangeResult N :=
  ⟨some (.minimax (some guide) .MINIMUS), lowerIncl, some (.minimax (some guide) .MAXIMUS),
    upperIncl⟩

variable {t} {S : Set N}

/-- **The range of a class** is the links of the nodes equivalent to the guide, whichever
ends are included. -/
theorem tryExtensionalise_classOf (h : Orders S (SimpleCompare.compare3Way t .TOTAL))
    (hdb : ∀ n ∈ db.incomingXLinks.keys, n ∈ S) {g : N} (hg : g ∈ S) (lowerIncl upperIncl : Bool) :
    ∃ links, (classOf g lowerIncl upperIncl).tryExtensionalise t db = some links
      ∧ ∀ x, x ∈ links ↔ x ∈ db.rows.keys
          ∧ ∃ n, db.childOf x = some n ∧ SimpleCompare.compare3Way t .TOTAL g n = 0 := by
  -- whichever ends are included, the range goes from the class's minimus to its maximus
  have hlower : itLower t (classOf g lowerIncl upperIncl)
      (simpleCompareOrdering t db.incomingXLinks.keys)
      = lowerBound t (simpleCompareOrdering t db.incomingXLinks.keys)
          (.minimax (some g) .MINIMUS) := by
    cases lowerIncl with
    | true => rfl
    | false => exact bounds_minimax h hdb hg (by decide)
  have hupper : itUpper t (classOf g lowerIncl upperIncl)
      (simpleCompareOrdering t db.incomingXLinks.keys)
      = lowerBound t (simpleCompareOrdering t db.incomingXLinks.keys)
          (.minimax (some g) .MAXIMUS) := by
    cases upperIncl with
    | true => exact bounds_minimax h hdb hg (by decide)
    | false => rfl
  -- what the upper bound stops at, the lower bound stops at
  have hle : lowerBound t (simpleCompareOrdering t db.incomingXLinks.keys)
        (.minimax (some g) .MINIMUS)
      ≤ lowerBound t (simpleCompareOrdering t db.incomingXLinks.keys)
        (.minimax (some g) .MAXIMUS) := by
    apply findIdx_le_findIdx
    intro n hn hstop
    have hnS := hdb n (mem_simpleCompareOrdering.mp hn)
    rw [Bool.not_eq_true', (less_maximus h hg hnS).2] at hstop
    rw [Bool.not_eq_true', (less_minimus h hg hnS).2]
    omega
  have hbetween := mem_between_minimax h hdb hg
  obtain ⟨links, hfold, hmem⟩ := CategoryRangeResult.foldlM_insertIncoming db _
    (fun n hn => ((hbetween n).mp hn).1) ∅
  refine ⟨links, ?_, ?_⟩
  · unfold tryExtensionalise
    dsimp only
    rw [hlower, hupper, if_pos hle]
    exact hfold
  · -- the links of the nodes between, which are the equivalent ones
    intro x
    rw [hmem, or_iff_right (Finset.notMem_empty x)]
    constructor
    · intro hx
      obtain ⟨n, hn, hrow, hchild⟩ := hx
      exact ⟨hrow, n, hchild, ((hbetween n).mp hn).2⟩
    · intro hx
      obtain ⟨hrow, n, hchild, hzero⟩ := hx
      obtain ⟨xs, hxs, _⟩ := (db.incoming n x).mpr ⟨hrow, hchild⟩
      exact ⟨n, (hbetween n).mpr ⟨StdMap.mem_keys_of_lookup hxs, hzero⟩, hrow, hchild⟩

end SimpleCompareRangeResult

/-! ## §2. Category keys. -/

section

open CategoryRelation

variable {kit : CategoryKit N K} {lacing : Lacing N K} {rawCategories kept : Finset N}

/-- What a category key is compared by: the ordinal, minimuses first, the pointer. -/
def categoryRank (kit : CategoryKit N K) (lacing : Lacing N K) : CategoryKey N → Int × Int × N
  | .normal node => (getOrdinalForNode kit lacing (some node), 0, node)
  | .minimus lacingOrdinal node => (lacingOrdinal, -1, node)

/-- The ranks, compared one after another. -/
def compareRanks (l r : Int × Int × N) : Int :=
  thenBy (l.1 - r.1) (thenBy (l.2.1 - r.2.1) (linearCompare l.2.2 r.2.2))

theorem orders_compareRanks : Orders Set.univ (compareRanks (N := N)) := by
  have hfirst : Orders (Set.univ : Set (Int × Int × N)) (fun l r => l.1 - r.1) :=
    (orders_sub.comap (fun l : Int × Int × N => l.1)).mono (fun _ _ => Set.mem_univ _)
  have hsecond : Orders (Set.univ : Set (Int × Int × N)) (fun l r => l.2.1 - r.2.1) :=
    (orders_sub.comap (fun l : Int × Int × N => l.2.1)).mono (fun _ _ => Set.mem_univ _)
  have hthird : Orders (Set.univ : Set (Int × Int × N)) (fun l r => linearCompare l.2.2 r.2.2) :=
    (orders_linearCompare.comap (fun l : Int × Int × N => l.2.2)).mono (fun _ _ => Set.mem_univ _)
  have hrest := hsecond.lex (fun _ _ => hthird.mono (fun _ _ => Set.mem_univ _))
  exact hfirst.lex (fun _ _ => hrest.mono (fun _ _ => Set.mem_univ _))

theorem treePtrCompare3Way_eq (l r : N) : treePtrCompare3Way l r = linearCompare l r := rfl

variable (h : Built kit rawCategories kept lacing)

include h

omit [DecidableEq K] in
/-- **The relation compares ranks**, and always answers. -/
theorem compare3Way_rank (l r : CategoryKey N) : ∃ d, compare3Way kit lacing l r = some d
    ∧ (d < 0 ↔ compareRanks (categoryRank kit lacing l) (categoryRank kit lacing r) < 0)
    ∧ (d = 0 ↔ compareRanks (categoryRank kit lacing l) (categoryRank kit lacing r) = 0) := by
  cases l with
  | normal l =>
      cases r with
      -- two nodes: the ordinals, and then the pointers
      | normal r =>
          obtain ⟨d, hd, hsign⟩ := ordinalCompare_sign h (some l) (some r)
          refine ⟨if d ≠ 0 then d else treePtrCompare3Way l r, ?_, ?_⟩
          · show (ordinalCompare kit lacing (some l) (some r)).bind _ = _
            rw [hd]
            rfl
          · have hneg : d < 0 ↔ (getOrdinalForNode kit lacing (some l) : Int)
                - getOrdinalForNode kit lacing (some r) < 0 := by
              rw [← Int.sign_eq_neg_one_iff_neg, hsign, Int.sign_eq_neg_one_iff_neg]
            have hzero : d = 0 ↔ (getOrdinalForNode kit lacing (some l) : Int)
                - getOrdinalForNode kit lacing (some r) = 0 := by
              rw [← Int.sign_eq_zero_iff_zero, hsign, Int.sign_eq_zero_iff_zero]
            show (thenBy d (treePtrCompare3Way l r) < 0 ↔ _) ∧ (thenBy d _ = 0 ↔ _)
            rw [treePtrCompare3Way_eq, thenBy_neg, thenBy_eq_zero, hneg, hzero]
            unfold compareRanks
            rw [thenBy_neg, thenBy_eq_zero]
            show _ ∧ _
            unfold categoryRank
            dsimp only
            rw [Int.sub_self, thenBy_zero]
            exact ⟨Iff.rfl, Iff.rfl⟩
      -- a node and a minimus never tie
      | minimus ri r =>
          refine ⟨_, rfl, ?_⟩
          show (thenBy ((getOrdinalForNode kit lacing (some l) : Int) - ri) 1 < 0 ↔ _)
            ∧ (thenBy _ 1 = 0 ↔ _)
          unfold compareRanks categoryRank
          dsimp only
          rw [thenBy_neg, thenBy_eq_zero, thenBy_neg, thenBy_eq_zero, thenBy_neg, thenBy_eq_zero]
          omega
  | minimus li l =>
      cases r with
      | normal r =>
          refine ⟨_, rfl, ?_⟩
          show (thenBy (li - (getOrdinalForNode kit lacing (some r) : Int)) (-1) < 0 ↔ _)
            ∧ (thenBy _ (-1) = 0 ↔ _)
          unfold compareRanks categoryRank
          dsimp only
          rw [thenBy_neg, thenBy_eq_zero, thenBy_neg, thenBy_eq_zero, thenBy_neg, thenBy_eq_zero]
          omega
      | minimus ri r =>
          refine ⟨_, rfl, ?_⟩
          show (thenBy (li - ri) (treePtrCompare3Way l r) < 0 ↔ _)
            ∧ (thenBy (li - ri) (treePtrCompare3Way l r) = 0 ↔ _)
          unfold compareRanks categoryRank
          dsimp only
          rw [treePtrCompare3Way_eq, Int.sub_self, thenBy_zero]
          exact ⟨Iff.rfl, Iff.rfl⟩

omit h [DecidableEq K] in
theorem categoryRank_injective {l r : CategoryKey N}
    (heq : compareRanks (categoryRank kit lacing l) (categoryRank kit lacing r) = 0) : l = r := by
  unfold compareRanks at heq
  rw [thenBy_eq_zero, thenBy_eq_zero, linearCompare_eq_zero] at heq
  cases l with
  | normal l =>
      cases r with
      | normal r =>
          have hnode : l = r := heq.2.2
          rw [hnode]
      | minimus ri r =>
          have hrole : (0 : Int) - -1 = 0 := heq.2.1
          omega
  | minimus li l =>
      cases r with
      | normal r =>
          have hrole : (-1 : Int) - 0 = 0 := heq.2.1
          omega
      | minimus ri r =>
          have hordinal : li - ri = 0 := heq.1
          have hnode : l = r := heq.2.2
          rw [hnode, Int.sub_eq_zero.mp hordinal]

omit [DecidableEq K] in
/-- **The category keys are strictly and totally ordered**, minimuses included. -/
theorem category_threeWay : ThreeWay (compare3Way kit lacing) := by
  have hord := orders_compareRanks (N := N)
  -- below another is of smaller rank
  have hbelow (l r : CategoryKey N) : Below (compare3Way kit lacing) l r
      ↔ compareRanks (categoryRank kit lacing l) (categoryRank kit lacing r) < 0 := by
    obtain ⟨d, hd, hneg, _⟩ := compare3Way_rank h l r
    constructor
    · intro hlt
      obtain ⟨d', hd', hlt⟩ := hlt
      rw [hd] at hd'
      rw [← hneg, Option.some.inj hd']
      exact hlt
    · intro hlt
      exact ⟨d, hd, hneg.mpr hlt⟩
  have huniv (k : CategoryKey N) : categoryRank kit lacing k ∈ Set.univ := Set.mem_univ _
  constructor
  · intro l r
    obtain ⟨d, hd, _, hzero⟩ := compare3Way_rank h l r
    rw [hd, Option.some.injEq, hzero]
    constructor
    · exact categoryRank_injective
    · intro heq
      rw [heq]
      exact hord.refl (huniv r)
  · -- and so the laws are those of the ranks
    intro l r
    obtain ⟨d, hd, hneg, hzero⟩ := compare3Way_rank h l r
    have hswap := hord.swap _ (huniv r) _ (huniv l)
    have hswap' := hord.swap _ (huniv l) _ (huniv r)
    rw [hbelow, hd]
    constructor
    · intro hpos
      obtain ⟨d', hd', hpos⟩ := hpos
      have hd' := Option.some.inj hd'
      omega
    · intro hlt
      exact ⟨d, rfl, by omega⟩
  · intro l m r hlm hmr
    rw [hbelow] at hlm hmr ⊢
    exact hord.neg_trans (huniv l) (huniv m) (huniv r) hlm (Int.le_of_lt hmr)

omit h [DecidableEq K] in
/-- A minimus is below the nodes from its ordinal on. -/
theorem less_minimus_normal (n m : N) (ordinal : Int) :
    less kit lacing (.minimus ordinal m) (.normal n) = true
      ↔ ordinal ≤ (getOrdinalForNode kit lacing (some n) : Int) := by
  unfold less CategoryRelation.compare3Way minimusRole
  dsimp only
  rw [Option.any_some, decide_eq_true_iff]
  split <;> omega

omit h [DecidableEq K] in
/-- The two ways of finding where a minimus goes are one: no node ties with it. -/
theorem bounds_minimus (ordering : List N) (ordinal : Int) (m : N) :
    upperBound kit lacing ordering (.minimus ordinal m)
      = lowerBound kit lacing ordering (.minimus ordinal m) := by
  unfold upperBound lowerBound
  apply findIdx_congr
  intro n _
  rw [Bool.eq_iff_iff, Bool.not_eq_true', Bool.eq_false_iff, Ne, less_minimus,
    less_minimus_normal, not_lt]

omit [DecidableEq K] in
/-- **The range of two minimuses** is the links of the nodes with the ordinals from one to
the other, whichever ends are included. -/
theorem tryExtensionalise_minimuses (db : XTreeDatabase L N A) (a b : Int) (m m' : N)
    (lowerIncl upperIncl : Bool) :
    ∃ links, (CategoryRangeResult.tryExtensionalise kit lacing db
        ⟨[(.minimus a m, .minimus b m')], lowerIncl, upperIncl⟩) = some links
      ∧ ∀ x, x ∈ links ↔ x ∈ db.rows.keys ∧ ∃ n, db.childOf x = some n
          ∧ a ≤ getOrdinalForNode kit lacing (some n)
          ∧ (getOrdinalForNode kit lacing (some n) : Int) < b := by
  have hbetween := mem_between_minimus h db.incomingXLinks.keys a b m m'
  obtain ⟨links, hfold, hmem⟩ := CategoryRangeResult.foldlM_insertIncoming db _
    (fun n hn => ((hbetween n).mp hn).1) ∅
  refine ⟨links, ?_, ?_⟩
  · unfold CategoryRangeResult.tryExtensionalise CategoryRangeResult.extendBounds
    rw [List.foldlM_cons]
    dsimp only
    rw [bounds_minimus, bounds_minimus, ite_self, ite_self, hfold]
    rfl
  · intro x
    rw [hmem, or_iff_right (Finset.notMem_empty x)]
    constructor
    · intro hx
      obtain ⟨n, hn, hrow, hchild⟩ := hx
      exact ⟨hrow, n, hchild, ((hbetween n).mp hn).2⟩
    · intro hx
      obtain ⟨hrow, n, hchild, hordinal⟩ := hx
      obtain ⟨xs, hxs, _⟩ := (db.incoming n x).mpr ⟨hrow, hchild⟩
      exact ⟨n, (hbetween n).mpr ⟨StdMap.mem_keys_of_lookup hxs, hordinal⟩, hrow, hchild⟩

end

/-! ## §3. Both orders. -/

/-- Keys of the simple-compare order that tie: a node with itself, and a bound with the same
bound of an equivalent guide. -/
def Tie (t : TreeNodes N) (l r : SimpleCompareKey N) : Prop :=
  (∃ node, l = .normal node ∧ r = .normal node)
    ∨ ∃ guide guide' role, l = .minimax guide role ∧ r = .minimax guide' role
      ∧ Option.Rel (fun x y => SimpleCompare.compare3Way t .TOTAL x y = 0) guide guide'

/-- **Ranges of the two orders are exact**, over a set of nodes and in a database. -/
structure RangesExact (t : TreeNodes N) (S : Set N) (db : XTreeDatabase L N A)
    (kit : CategoryKit N K) (lacing : Lacing N K) : Prop where
  simpleCompare_orders : Orders (SimpleCompareRelation.keysOver S)
    (SimpleCompareRelation.compare3Way t)
  simpleCompare_tie : ∀ l ∈ SimpleCompareRelation.keysOver S,
    ∀ r ∈ SimpleCompareRelation.keysOver S,
      (SimpleCompareRelation.compare3Way t l r = 0 ↔ Tie t l r)
  /-- Between the bounds of a guide are the links of its class. -/
  simpleCompare_range : ∀ g ∈ S, ∀ lowerIncl upperIncl : Bool,
    ∃ links, (SimpleCompareRangeResult.classOf g lowerIncl upperIncl).tryExtensionalise t db
        = some links
      ∧ ∀ x, x ∈ links ↔ x ∈ db.rows.keys
          ∧ ∃ n, db.childOf x = some n ∧ SimpleCompare.compare3Way t .TOTAL g n = 0
  category_orders : ThreeWay (CategoryRelation.compare3Way kit lacing)
  category_answers : ∀ l r, (CategoryRelation.compare3Way kit lacing l r).isSome
  /-- Between two minimuses are the links of the half-open range of ordinals. -/
  category_range : ∀ (a b : Int) (m m' : N) (lowerIncl upperIncl : Bool), a ≤ b →
    ∃ links, CategoryRangeResult.tryExtensionalise kit lacing db
        ⟨[(.minimus a m, .minimus b m')], lowerIncl, upperIncl⟩ = some links
      ∧ ∀ x, x ∈ links ↔ x ∈ db.rows.keys ∧ ∃ n, db.childOf x = some n
          ∧ a ≤ getOrdinalForNode kit lacing (some n)
          ∧ (getOrdinalForNode kit lacing (some n) : Int) < b

/-- **Range queries return exactly one class**, for a database whose float literals are
ordered, in every lacing. -/
theorem orderRanges_exact (t : TreeNodes N) {S : Set N} (hclosed : Closed t S)
    (hfloats : Orders (literals t S) APFloat.orderCompare) (db : XTreeDatabase L N A)
    (hdb : ∀ n ∈ db.incomingXLinks.keys, n ∈ S) (kit : CategoryKit N K)
    (rawCategories : Finset N) :
    ∃ lacing, build kit rawCategories = some lacing ∧ RangesExact t S db kit lacing := by
  have h := (orders_compare3Way_iff hclosed).mpr hfloats
  obtain ⟨kept, lacing, hbuild, hbuilt⟩ := build_spec kit rawCategories
  refine ⟨lacing, hbuild, ?_⟩
  constructor
  · exact SimpleCompareRelation.orders_keys h
  · intro l hl r hr
    exact SimpleCompareRelation.compare3Way_eq_zero hl hr (fun x hx => h.refl hx)
  · intro g hg lowerIncl upperIncl
    exact SimpleCompareRangeResult.tryExtensionalise_classOf db h hdb hg lowerIncl upperIncl
  · exact category_threeWay hbuilt
  · intro l r
    obtain ⟨d, hd, _⟩ := compare3Way_rank hbuilt l r
    rw [hd]
    rfl
  · intro a b m m' lowerIncl upperIncl _
    exact tryExtensionalise_minimuses hbuilt db a b m m' lowerIncl upperIncl

/-! ## §4. Bounds of two guides. -/

/-- Nodes that are leaves of one class. -/
def twinLeaves : TreeNodes Nat :=
  leafNodes (fun _ => .nothing) fun _ _ => rfl

/-- Every category is its own only subcategory. -/
def discreteKit : CategoryKit Nat Nat where
  isSubcategory l r := l = r
  isSubcategory_refl := by simp
  isSubcategory_trans := by simp_all
  orderCompare3Way _ l r := (l : Int) - r
  isSubcategory_of_orderCompare := by
    intro _ x y hxy
    obtain rfl : x = y := by omega
    simp
  simpleCompareKey x := x
  orderCompare_of_key := by
    intro x y hxy
    rw [hxy]
    exact Int.sub_self _

/-- The ranges of a database of two leaves of one class. -/
theorem orderRanges_exact_twinLeaves : ∃ lacing, build discreteKit {0} = some lacing
    ∧ RangesExact twinLeaves Set.univ (leafDatabase 2) discreteKit lacing :=
  orderRanges_exact twinLeaves (fun _ _ _ _ => Set.mem_univ _)
    ⟨fun _ ⟨_, _, hx⟩ => (nomatch hx), fun _ ⟨_, _, hx⟩ => (nomatch hx)⟩ (leafDatabase 2)
    (fun _ _ => Set.mem_univ _) discreteKit {0}

/-- **Bounds of equivalent guides tie**: neither is less than the other. -/
theorem minimus_of_twins_tie :
    ¬ ∀ l ∈ SimpleCompareRelation.keysOver (Set.univ : Set Nat),
      ∀ r ∈ SimpleCompareRelation.keysOver (Set.univ : Set Nat), l ≠ r →
        SimpleCompareRelation.less twinLeaves l r = true
          ∨ SimpleCompareRelation.less twinLeaves r l = true := by
  intro h
  have htie := h (.minimax (some 0) .MINIMUS)
    (SimpleCompareRelation.minimax_mem_keysOver (Set.mem_univ 0) (by decide))
    (.minimax (some 1) .MINIMUS)
    (SimpleCompareRelation.minimax_mem_keysOver (Set.mem_univ 1) (by decide)) (by decide)
  exact absurd htie (by decide)

end Inferno.SYM
