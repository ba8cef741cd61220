/-
  Inferno.SYM.CategoryRange
  ─────────────────────────
  Solving "is in a category" with the lacing.

    • `isInCategorySolution` — `IsInCategoryOperator::TrySolveFor`: half-open ranges
                               between minimuses,
    • `CategoryRangeResult`  — its value, and `TryExtensionalise`,
    • `Recognised`           — a node in no listed category, or in just those that some
                               listed category is in,
    • `lacing_exact`         — the lacing is exact for the recognised nodes, if no listed
                               category was dropped, and for no others.
-/
import Inferno.DB.CategoryRelation
import Inferno.SYM.SymbolExpression
import Mathlib

namespace Inferno.SYM

open Inferno.Common
open Inferno.Lib
open Inferno.DB
open Inferno.DB.Lacing
open Inferno.DB.CategoryRelation

variable {N K L A M : Type} [LinearOrder N] [DecidableEq K] [LinearOrder L]

/-! ## §1. The solution and its value. -/

/-- `CategoryRangeResult`. -/
structure CategoryRangeResult (N : Type) where
  boundsList : List (CategoryKey N × CategoryKey N)
  lowerIncl : Bool
  upperIncl : Bool

/-- `IsInCategoryOperator::TrySolveFor` for the operand itself: half-open ranges use a
minimus for both bounds. -/
def isInCategorySolution (kit : CategoryKit N K) (lacing : Lacing N K) (makeTreeNode : Int → N)
    (archetypeNode : N) : Option (CategoryRangeResult N) := do
  let intRangeList ← getRangeListForCategory kit lacing archetypeNode
  some ⟨intRangeList.map (fun r =>
    (.minimus r.1 (makeTreeNode r.1), .minimus r.2 (makeTreeNode r.2))), true, false⟩

namespace CategoryRangeResult

variable (kit : CategoryKit N K) (lacing : Lacing N K) (db : XTreeDatabase L N A)

/-- `links.insert(l)` for the incoming links of a node. -/
def insertIncoming (links : Finset L) (node : N) : Option (Finset L) :=
  (db.incomingXLinks.lookup node).map (links ∪ ·)

/-- The body of the loop of `TryExtensionalise`. -/
def extendBounds (r : CategoryRangeResult N) (links : Finset L)
    (bounds : CategoryKey N × CategoryKey N) : Option (Finset L) :=
  let ordering := categoryOrdering kit lacing db.incomingXLinks.keys
  let lower :=
    if r.lowerIncl then lowerBound kit lacing ordering bounds.1
    else upperBound kit lacing ordering bounds.1
  let upper :=
    if r.upperIncl then upperBound kit lacing ordering bounds.2
    else lowerBound kit lacing ordering bounds.2
  ((ordering.take upper).drop lower).foldlM (insertIncoming db) links

/-- `TryExtensionalise`. -/
def tryExtensionalise (r : CategoryRangeResult N) : Option (Finset L) :=
  r.boundsList.foldlM (extendBounds kit lacing db r) ∅

omit [LinearOrder N] in
theorem foldlM_insertIncoming (nodes : List N)
    (h : ∀ n ∈ nodes, n ∈ db.incomingXLinks.keys) : ∀ links : Finset L,
    ∃ links', nodes.foldlM (insertIncoming db) links = some links'
      ∧ ∀ x, x ∈ links' ↔ x ∈ links ∨ ∃ n ∈ nodes, x ∈ db.rows.keys ∧ db.childOf x = some n := by
  induction nodes with
  | nil =>
      intro links
      exact ⟨links, rfl, by simp⟩
  | cons n nodes ih =>
      intro links
      obtain ⟨incoming, hin⟩ := StdMap.exists_of_mem_keys (h n List.mem_cons_self)
      obtain ⟨links', hfold, hmem⟩ := ih (fun m hm => h m (List.mem_cons_of_mem n hm))
        (links ∪ incoming)
      refine ⟨links', ?_, ?_⟩
      · rw [List.foldlM_cons]
        unfold insertIncoming
        rw [hin]
        exact hfold
      · intro x
        have hincoming : x ∈ incoming ↔ x ∈ db.rows.keys ∧ db.childOf x = some n := by
          rw [← db.incoming n x, hin]
          simp
        rw [hmem, Finset.mem_union, hincoming, or_assoc]
        simp only [List.mem_cons, exists_eq_or_imp]

variable {kit} {lacing} {rawCategories kept : Finset N}

omit [DecidableEq K] in
theorem extendBounds_halfOpen (boundsList : List (CategoryKey N × CategoryKey N))
    (links : Finset L) (lower upper : CategoryKey N) :
    extendBounds kit lacing db ⟨boundsList, true, false⟩ links (lower, upper)
      = (((categoryOrdering kit lacing db.incomingXLinks.keys).take
            (lowerBound kit lacing (categoryOrdering kit lacing db.incomingXLinks.keys) upper)).drop
          (lowerBound kit lacing (categoryOrdering kit lacing db.incomingXLinks.keys) lower)).foldlM
        (insertIncoming db) links := rfl

omit [DecidableEq K] in
theorem foldlM_extendBounds (h : Built kit rawCategories kept lacing) (makeTreeNode : Int → N)
    (boundsList : List (CategoryKey N × CategoryKey N)) (rs : List (Int × Int)) :
    ∀ links : Finset L,
    ∃ links', (rs.map (fun r => (CategoryKey.minimus r.1 (makeTreeNode r.1),
          CategoryKey.minimus r.2 (makeTreeNode r.2)))).foldlM
        (extendBounds kit lacing db ⟨boundsList, true, false⟩) links = some links'
      ∧ ∀ x, x ∈ links' ↔ x ∈ links ∨ (x ∈ db.rows.keys
          ∧ ∃ n, db.childOf x = some n ∧ InRanges rs (getOrdinalForNode kit lacing (some n))) := by
  induction rs with
  | nil =>
      intro links
      exact ⟨links, rfl, by simp [InRanges]⟩
  | cons r rs ih =>
      intro links
      -- one range: the links of the nodes between its bounds are inserted
      have hbetween := mem_between_minimus h db.incomingXLinks.keys r.1 r.2 (makeTreeNode r.1)
        (makeTreeNode r.2)
      obtain ⟨next, hfold, hnext⟩ := foldlM_insertIncoming db _
        (fun n hn => ((hbetween n).mp hn).1) links
      obtain ⟨links', hrest, hmem⟩ := ih next
      refine ⟨links', ?_, ?_⟩
      · rw [List.map_cons, List.foldlM_cons, extendBounds_halfOpen, hfold]
        exact hrest
      · intro x
        have hkey (n : N) (hx : x ∈ db.rows.keys ∧ db.childOf x = some n) :
            n ∈ db.incomingXLinks.keys := by
          obtain ⟨xs, hxs, _⟩ := (db.incoming n x).mpr hx
          exact StdMap.mem_keys_of_lookup hxs
        -- those of this range, or of the later ones
        rw [hmem, hnext, or_assoc]
        apply or_congr_right
        constructor
        · intro hor
          rcases hor with ⟨n, hn, hx⟩ | ⟨hx, n, hchild, hin⟩
          · exact ⟨hx.1, n, hx.2, r, List.mem_cons_self, ((hbetween n).mp hn).2⟩
          · obtain ⟨s, hs, hbounds⟩ := hin
            exact ⟨hx, n, hchild, s, List.mem_cons_of_mem r hs, hbounds⟩
        · intro hx
          obtain ⟨hx, n, hchild, s, hs, hbounds⟩ := hx
          rcases List.mem_cons.mp hs with rfl | hs
          · exact Or.inl ⟨n, (hbetween n).mpr ⟨hkey n ⟨hx, hchild⟩, hbounds⟩, hx, hchild⟩
          · exact Or.inr ⟨hx, n, hchild, s, hs, hbounds⟩

omit [DecidableEq K] in
/-- **The value of the solution**: the links of nodes whose ordinals are in the
ranges. -/
theorem tryExtensionalise_spec (h : Built kit rawCategories kept lacing) (makeTreeNode : Int → N)
    {archetypeNode : N} {rs : List (Int × Int)}
    (hrs : getRangeListForCategory kit lacing archetypeNode = some rs) :
    ∃ result links, isInCategorySolution kit lacing makeTreeNode archetypeNode = some result
      ∧ result.tryExtensionalise kit lacing db = some links
      ∧ ∀ x, x ∈ links ↔ x ∈ db.rows.keys
          ∧ ∃ n, db.childOf x = some n ∧ InRanges rs (getOrdinalForNode kit lacing (some n)) := by
  obtain ⟨links, hfold, hmem⟩ := foldlM_extendBounds db h makeTreeNode (rs.map (fun r =>
    (CategoryKey.minimus r.1 (makeTreeNode r.1), CategoryKey.minimus r.2 (makeTreeNode r.2)))) rs ∅
  refine ⟨_, links, ?_, hfold, ?_⟩
  · unfold isInCategorySolution
    rw [hrs]
    rfl
  · intro x
    rw [hmem]
    simp

end CategoryRangeResult

/-! ## §2. When the lacing is exact. -/

/-- No two listed categories are equivalent, unless they are one to `SimpleCompare`. -/
def NoneDropped (kit : CategoryKit N K) (rawCategories : Finset N) : Prop :=
  ∀ c ∈ rawCategories, ∀ d ∈ rawCategories, kit.isEquivalentCategory c d = true →
    kit.simpleCompareKey c = kit.simpleCompareKey d

/-- A node that no listed category contains, or that is in just the listed categories
that some listed category is in. -/
def Recognised (kit : CategoryKit N K) (rawCategories : Finset N) (x : N) : Prop :=
  (∀ c ∈ rawCategories, kit.isSubcategory c x = false)
    ∨ ∃ d ∈ rawCategories, ∀ c ∈ rawCategories, kit.isSubcategory c x = kit.isSubcategory c d

/-- **The lacing is exact for a node**: each listed category has a well-formed range
list, which holds the node's ordinal iff the node is in the category. -/
def ExactFor (kit : CategoryKit N K) (rawCategories : Finset N) (lacing : Lacing N K) (x : N) :
    Prop :=
  ∀ c ∈ rawCategories, ∃ rs, getRangeListForCategory kit lacing c = some rs ∧ Separated rs
    ∧ (kit.isSubcategory c x = true ↔ InRanges rs (getOrdinalForNode kit lacing (some x)))

/-- **The range result is exact in a database**: for each listed category it is the set
of links that satisfy `IsInCategoryOperator`. -/
def ExactIn (kit : CategoryKit N K) (rawCategories : Finset N) (lacing : Lacing N K)
    (db : XTreeDatabase L N N) (predicateKit : PredicateKit (XLink L) N M) : Prop :=
  ∀ c ∈ rawCategories, ∀ makeTreeNode : Int → N, ∃ result links,
    isInCategorySolution kit lacing makeTreeNode c = some result
      ∧ result.tryExtensionalise kit lacing db = some links
      ∧ ∀ x, x ∈ links ↔ x ∈ db.rows.keys
          ∧ PredicateOperator.evaluateOn predicateKit (.isInCategory c) [some (.link x)] = some true

section

variable {kit : CategoryKit N K} {rawCategories kept : Finset N} {lacing : Lacing N K}
  (h : Built kit rawCategories kept lacing)

include h

omit [DecidableEq K] in
/-- Every listed category has a range list iff none was dropped. -/
theorem noneDropped_iff : NoneDropped kit rawCategories
    ↔ ∀ c ∈ rawCategories, ∃ rs, getRangeListForCategory kit lacing c = some rs := by
  constructor
  · intro hnone c hc
    obtain ⟨d, hd, hcd⟩ := h.covered c hc
    exact ⟨_, h.getRangeListForCategory_eq_some.mpr
      ⟨d, hd, (hnone c hc d (h.kept_subset hd) hcd).symm, rfl⟩⟩
  · intro hall c hc d hd hcd
    obtain ⟨rs, hrs⟩ := hall c hc
    obtain ⟨rs', hrs'⟩ := hall d hd
    obtain ⟨c', hc', hkey, _⟩ := h.getRangeListForCategory_eq_some.mp hrs
    obtain ⟨d', hd', hkey', _⟩ := h.getRangeListForCategory_eq_some.mp hrs'
    -- the kept categories with their keys are equivalent, so they are one
    have heq : c' = d' := by
      apply h.laced.inequivalent c' hc' d' hd'
      have hc'd := isEquivalentCategory_trans kit (isEquivalentCategory_of_key kit hkey) hcd
      exact isEquivalentCategory_trans kit hc'd (isEquivalentCategory_of_key kit hkey'.symm)
    rw [← hkey, ← hkey', heq]

omit [DecidableEq K] in
/-- A listed category's ranges hold the ordinal of a node iff the category contains the
entry there. -/
theorem inRanges_iff_entry {c x : N} {rs : List (Int × Int)}
    (hrs : getRangeListForCategory kit lacing c = some rs) :
    InRanges rs (getOrdinalForNode kit lacing (some x))
      ↔ kit.localMatchWithNULL (some c) (entry lacing.catsInLacingOrder
          (getOrdinalForNode kit lacing (some x))) = true := by
  obtain ⟨c', hc', hkey, hlist⟩ := h.getRangeListForCategory_eq_some.mp hrs
  rw [← hlist, h.inRanges_iff hc', mem_profile, and_iff_right hc']
  have hequiv := isEquivalentCategory_of_key kit hkey
  cases entry lacing.catsInLacingOrder (getOrdinalForNode kit lacing (some x)) with
  | none => exact Iff.rfl
  | some d =>
      show kit.isSubcategory c' d = true ↔ kit.isSubcategory c d = true
      rw [isSubcategory_congr kit hequiv]

omit [DecidableEq K] in
/-- The ranges agree with the categories at a node iff the node is recognised. -/
theorem recognised_iff (hnone : NoneDropped kit rawCategories) (x : N) :
    Recognised kit rawCategories x
      ↔ ∀ c ∈ rawCategories, ∀ rs, getRangeListForCategory kit lacing c = some rs →
          (kit.isSubcategory c x = true ↔ InRanges rs (getOrdinalForNode kit lacing (some x))) := by
  constructor
  · intro hrec
    -- the node has the profile of an entry, so its ordinal is that entry's
    have hentry : ∃ i < lacing.catsInLacingOrder.length,
        profile kit kept (some x) = profile kit kept (entry lacing.catsInLacingOrder i) := by
      rcases hrec with hnot | ⟨d, hd, hsame⟩
      · obtain ⟨i, hi, hget⟩ := h.laced.exists_entry (x := none) (by simp)
        refine ⟨i, hi, ?_⟩
        rw [Laced.entry_eq_of_getElem hget, profile_none, Finset.eq_empty_iff_forall_notMem]
        intro c hc
        have hc := (mem_profile_some kit).mp hc
        rw [hnot c (h.kept_subset hc.1)] at hc
        exact Bool.noConfusion hc.2
      · obtain ⟨d', hd', hequiv⟩ := h.covered d hd
        obtain ⟨i, hi, hget⟩ := h.laced.exists_entry (x := some d') (by
          intro c hc
          rw [← Option.some.inj hc]
          exact hd')
        refine ⟨i, hi, ?_⟩
        rw [Laced.entry_eq_of_getElem hget, ← profile_congr kit kept hequiv]
        ext c
        rw [mem_profile_some, mem_profile_some, and_congr_right_iff]
        intro hc
        rw [hsame c (h.kept_subset hc)]
    obtain ⟨i, hi, hprofile⟩ := hentry
    have hord : getOrdinalForNode kit lacing (some x) = i :=
      h.decides.of_profile (some x) i (Finset.mem_range.mpr hi) hprofile
    intro c _ rs hrs
    obtain ⟨c', hc', hkey, hlist⟩ := h.getRangeListForCategory_eq_some.mp hrs
    rw [← hlist, h.inRanges_iff hc', hord, ← hprofile, mem_profile_some, and_iff_right hc',
      isSubcategory_congr kit (isEquivalentCategory_of_key kit hkey)]
  · intro hall
    -- the entry at the node's ordinal is in the same categories
    have hsame (c : N) (hc : c ∈ rawCategories) : kit.isSubcategory c x
        = kit.localMatchWithNULL (some c) (entry lacing.catsInLacingOrder
            (getOrdinalForNode kit lacing (some x))) := by
      obtain ⟨rs, hrs⟩ := (noneDropped_iff h).mp hnone c hc
      rw [Bool.eq_iff_iff, hall c hc rs hrs, inRanges_iff_entry h hrs]
    have hlt := h.ordinal_lt (some x)
    have hget := List.getElem?_eq_getElem hlt
    have hmem := List.getElem_mem hlt
    generalize lacing.catsInLacingOrder[getOrdinalForNode kit lacing (some x)] = e at hget hmem
    rw [Laced.entry_eq_of_getElem hget] at hsame
    cases e with
    | none => exact Or.inl (fun c hc => hsame c hc)
    | some d =>
        have hd := (h.laced.mem_order (some d)).mp hmem d rfl
        exact Or.inr ⟨d, h.kept_subset hd, fun c hc => hsame c hc⟩

omit [DecidableEq K] in
theorem exactFor_iff (x : N) : ExactFor kit rawCategories lacing x
    ↔ NoneDropped kit rawCategories ∧ Recognised kit rawCategories x := by
  constructor
  · intro hexact
    have hnone : NoneDropped kit rawCategories := by
      rw [noneDropped_iff h]
      intro c hc
      obtain ⟨rs, hrs, _⟩ := hexact c hc
      exact ⟨rs, hrs⟩
    refine ⟨hnone, (recognised_iff h hnone x).mpr ?_⟩
    intro c hc rs hrs
    obtain ⟨rs', hrs', _, hiff⟩ := hexact c hc
    rw [hrs] at hrs'
    rw [Option.some.inj hrs']
    exact hiff
  · intro hboth c hc
    obtain ⟨rs, hrs⟩ := (noneDropped_iff h).mp hboth.1 c hc
    obtain ⟨c', hc', _, hlist⟩ := h.getRangeListForCategory_eq_some.mp hrs
    refine ⟨rs, hrs, ?_, (recognised_iff h hboth.1 x).mp hboth.2 c hc rs hrs⟩
    rw [← hlist]
    exact (h.runs c' hc').separated

omit [DecidableEq K] in
theorem exactIn_iff {db : XTreeDatabase L N N} {predicateKit : PredicateKit (XLink L) N M}
    (hkit : ∀ c x n, db.childOf x = some n →
      predicateKit.isSubcategory c (.link x) = kit.isSubcategory c n) :
    ExactIn kit rawCategories lacing db predicateKit
      ↔ NoneDropped kit rawCategories
        ∧ ∀ x ∈ db.rows.keys, ∀ n, db.childOf x = some n → Recognised kit rawCategories n := by
  have heval (c : N) (x : L) (n : N) (hx : db.childOf x = some n) :
      PredicateOperator.evaluateOn predicateKit (.isInCategory c) [some (.link x)] = some true
        ↔ kit.isSubcategory c n = true := by
    rw [← hkit c x n hx]
    simp [PredicateOperator.evaluateOn, PredicateOperator.evaluateDefined]
  constructor
  · intro hexact
    -- exact, so every category has a range list
    have hnone : NoneDropped kit rawCategories := by
      rw [noneDropped_iff h]
      intro c hc
      obtain ⟨result, _, hresult, _⟩ := hexact c hc (fun _ => c)
      unfold isInCategorySolution at hresult
      cases hrs : getRangeListForCategory kit lacing c with
      | none =>
          rw [hrs] at hresult
          simp at hresult
      | some rs => exact ⟨rs, rfl⟩
    refine ⟨hnone, ?_⟩
    intro x hx n hn
    rw [recognised_iff h hnone]
    intro c hc rs hrs
    obtain ⟨result, links, hresult, hlinks, hmem⟩ := hexact c hc (fun _ => c)
    obtain ⟨result', links', hresult', hlinks', hmem'⟩ :=
      CategoryRangeResult.tryExtensionalise_spec db h (fun _ => c) hrs
    -- both results are the same, so the ranges say what the class says
    rw [hresult] at hresult'
    rw [← Option.some.inj hresult', hlinks] at hlinks'
    have hiff := (hmem x).symm.trans ((Option.some.inj hlinks') ▸ hmem' x)
    rw [heval c x n hn, and_iff_right hx, and_iff_right hx] at hiff
    rw [hiff, hn]
    simp
  · -- and back: the ranges of a recognised node are those of its class
    intro hboth c hc makeTreeNode
    obtain ⟨rs, hrs⟩ := (noneDropped_iff h).mp hboth.1 c hc
    obtain ⟨result, links, hresult, hlinks, hmem⟩ :=
      CategoryRangeResult.tryExtensionalise_spec db h makeTreeNode hrs
    refine ⟨result, links, hresult, hlinks, ?_⟩
    intro x
    rw [hmem, and_congr_right_iff]
    intro hx
    obtain ⟨n, hn⟩ := Option.isSome_iff_exists.mp (db.row_nonnull x hx)
    have hrec := (recognised_iff h hboth.1 n).mp (hboth.2 x hx n hn) c hc rs hrs
    rw [heval c x n hn, hrec, hn]
    simp

end

/-- **When the lacing is exact.**  `Build` returns; the lacing is exact for a node iff no
listed category was dropped and the node is recognised; and the range results are exact
in a database iff this is so of all its nodes. -/
theorem lacing_exact (kit : CategoryKit N K) (rawCategories : Finset N) :
    ∃ lacing, build kit rawCategories = some lacing
      ∧ (∀ x, ExactFor kit rawCategories lacing x
          ↔ NoneDropped kit rawCategories ∧ Recognised kit rawCategories x)
      ∧ ∀ (db : XTreeDatabase L N N) (simpleCompare : Option N → Option N → Int)
          (isLocalMatch : M → Option N → Bool), db.isSubcategory = kit.isSubcategory →
        (ExactIn kit rawCategories lacing db (databaseKit db simpleCompare isLocalMatch)
          ↔ NoneDropped kit rawCategories
            ∧ ∀ x ∈ db.rows.keys, ∀ n, db.childOf x = some n →
                Recognised kit rawCategories n) := by
  obtain ⟨kept, lacing, hbuild, h⟩ := build_spec kit rawCategories
  refine ⟨lacing, hbuild, exactFor_iff h, ?_⟩
  intro db simpleCompare isLocalMatch hdb
  apply exactIn_iff h
  intro c x n hx
  show (db.childOf x).any (db.isSubcategory c) = kit.isSubcategory c n
  rw [hx, hdb]
  rfl

/-! ## §3. A node in two listed categories. -/

local instance diamondTypes : NeZero 4 := ⟨by decide⟩

/-- Two unrelated categories 1 and 2, and a type 3 that derives from both. -/
def diamondKit : CategoryKit (Fin 4) (Fin 4) where
  isSubcategory l r := l = r || (r = 3 && (l = 1 || l = 2))
  isSubcategory_refl := by decide
  isSubcategory_trans := by decide
  orderCompare3Way _ l r := (l : Int) - r
  isSubcategory_of_orderCompare := by
    intro _ x y hxy
    obtain rfl : x = y := by omega
    simp
  simpleCompareKey x := x
  orderCompare_of_key := by
    intro x y hxy
    rw [hxy]
    exact Int.sub_self _

/-- **A node of type 3 is in category 2, and its ordinal is not in the category's
ranges**: the decision tree asks about category 1 first. -/
theorem node_in_two_categories_missed :
    NoneDropped diamondKit {1, 2} ∧
    (∃ lacing rs, build diamondKit {1, 2} = some lacing
      ∧ getRangeListForCategory diamondKit lacing 2 = some rs
      ∧ diamondKit.isSubcategory 2 3 = true
      ∧ ¬ InRanges rs (getOrdinalForNode diamondKit lacing (some 3))) := by
  refine ⟨by unfold NoneDropped; decide, ?_⟩
  have hrun : ((build diamondKit {1, 2}).bind fun lacing =>
      (getRangeListForCategory diamondKit lacing 2).map fun rs =>
        (lacing, rs)).any (fun r => diamondKit.isSubcategory 2 3
          && !decide (InRanges r.2 (getOrdinalForNode diamondKit r.1 (some 3)))) = true := by
    decide +kernel
  cases hbuild : build diamondKit {1, 2} with
  | none =>
      rw [hbuild] at hrun
      exact Bool.noConfusion hrun
  | some lacing =>
      rw [hbuild, Option.bind_some] at hrun
      cases hrs : getRangeListForCategory diamondKit lacing 2 with
      | none =>
          rw [hrs] at hrun
          exact Bool.noConfusion hrun
      | some rs =>
          rw [hrs] at hrun
          have hmissed := hrun
          simp only [Option.map_some, Option.any_some, Bool.and_eq_true, Bool.not_eq_true',
            decide_eq_false_iff_not] at hmissed
          exact ⟨lacing, rs, rfl, hrs, hmissed.1, hmissed.2⟩

end Inferno.SYM
