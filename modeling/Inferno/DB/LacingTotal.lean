/-
  Inferno.DB.LacingTotal
  ──────────────────────
  `Lacing::Build` gets to its end on every set of categories.

    • `ExchangeExact`       — what a comparison of `Sort` expects of an exchange is what
                              the exchange does to the metric,
    • `getMetric_le`        — how large the metrics get,
    • `exists_strict_split` — more than one ordinal can be split,
    • `build_total`         — every phase returns.
-/
import Inferno.DB.LacingExact
import Mathlib.Algebra.Order.BigOperators.Group.Finset
import Mathlib.Tactic.Ring

namespace Inferno.DB.Lacing

open Inferno.Common
open Inferno.Lib

variable {N K : Type} [LinearOrder N] [DecidableEq K] (kit : CategoryKit N K)

/-! ## §1. Metrics. -/

section

variable (categories : Finset (Option N))

/-- **The metrics compared before an exchange**, and the totals around it: their
differences agree. -/
def ExchangeExact (order : List (Option N)) (bs i j : Nat) : Prop :=
  ∃ currMetric metricIfSwapped order' tot tot',
    swapMetrics kit categories order bs i j = some (currMetric, metricIfSwapped)
    ∧ totalMetric kit categories order = some tot
    ∧ swapBlocks bs i j order = some order' ∧ order'.Perm order
    ∧ totalMetric kit categories order' = some tot'
    ∧ (currMetric : Int) - metricIfSwapped = tot - tot'

omit [DecidableEq K] in
theorem exchangeExact {order : List (Option N)} {bs i j : Nat} (hbs : 1 ≤ bs)
    (hj : j + bs ≤ i) (hi : i + bs ≤ order.length) :
    ExchangeExact kit categories order bs i j := by
  obtain ⟨seg, rfl⟩ := Segments.exists_whole hj hi
  have hweight := seg.pathWeight_swapped hbs (metric kit categories)
  refine ⟨_, _, seg.swapped, _, _, seg.swapMetrics_eq kit categories hbs hj,
    totalMetric_eq kit categories _, seg.swapBlocks_eq hj, seg.swapped_perm,
    totalMetric_eq kit categories _, ?_⟩
  omega

omit [DecidableEq K] in
/-- No metric is above the square of the number of categories. -/
theorem metric_le (pa qa : Option N) :
    metric kit categories pa qa ≤ categories.card * categories.card := by
  have hsub : symmDiff (nonstrictSupercats kit categories pa)
      (nonstrictSupercats kit categories qa) ⊆ categories := by
    intro t ht
    rcases Finset.mem_symmDiff.mp ht with h | h
    · exact Finset.filter_subset _ _ h.1
    · exact Finset.filter_subset _ _ h.1
  have hterm (t : Option N) : (nonstrictSubcats kit categories t).card ≤ categories.card :=
    Finset.card_le_card (Finset.filter_subset _ _)
  calc metric kit categories pa qa
      ≤ ∑ _t ∈ symmDiff (nonstrictSupercats kit categories pa)
          (nonstrictSupercats kit categories qa), categories.card :=
        Finset.sum_le_sum (fun t _ => hterm t)
    _ = (symmDiff (nonstrictSupercats kit categories pa)
          (nonstrictSupercats kit categories qa)).card * categories.card :=
        Finset.sum_const_nat (fun _ _ => rfl)
    _ ≤ categories.card * categories.card :=
        Nat.mul_le_mul_right _ (Finset.card_le_card hsub)

omit [DecidableEq K] in
theorem pathWeight_le (order : List (Option N)) :
    pathWeight (metric kit categories) order
      ≤ order.length * (categories.card * categories.card) := by
  induction order with
  | nil => exact Nat.zero_le _
  | cons x order ih =>
      have hhead : junction (metric kit categories) (some x) order.head?
          ≤ categories.card * categories.card := by
        cases order.head? with
        | none => exact Nat.zero_le _
        | some y => exact metric_le kit categories x y
      rw [List.length_cons, Nat.succ_mul]
      show junction (metric kit categories) (some x) order.head?
        + pathWeight (metric kit categories) order ≤ _
      omega

omit [DecidableEq K] in
/-- **The totals of `Sort`** are at most the cube of the number of categories. -/
theorem totalMetric_le {order : List (Option N)} (hlen : order.length = categories.card) :
    ∃ tot, totalMetric kit categories order = some tot ∧ tot ≤ categories.card ^ 3 := by
  refine ⟨_, totalMetric_eq kit categories order, ?_⟩
  have hle := pathWeight_le kit categories order
  rw [hlen] at hle
  have hcube : categories.card ^ 3 = categories.card * (categories.card * categories.card) := by
    ring
  rw [hcube]
  exact hle

end

/-! ## §2. Splitting. -/

variable {kit} in
omit [DecidableEq K] in
/-- **More than one ordinal is split by a category**: some of them are in its lacing set,
and some are not. -/
theorem exists_strict_split {kept : Finset N} {order : List (Option N)}
    (h : Laced kit kept order) {possible : Finset Nat}
    (hsub : possible ⊆ Finset.range order.length) (hcard : 1 < possible.card) :
    ∃ bestDiff bestCat bestInter,
      (inPtrOrder (withNull kept)).foldlM
          (bestStep kit (withNull kept) order possible) (possible.card + 1, none)
        = some (bestDiff, some (bestCat, bestInter))
      ∧ bestInter ≠ ∅ ∧ bestInter ⊂ possible := by
  obtain ⟨i, hi, j, hj, hij⟩ := Finset.one_lt_card.mp hcard
  obtain ⟨diff, c, hbest, _, hsplit⟩ := exists_best h hsub hi hj hij
  refine ⟨diff, c, _, hbest, hsplit.1, ?_⟩
  refine Finset.ssubset_iff_subset_ne.mpr ⟨Finset.inter_subset_left, ?_⟩
  intro heq
  exact hsplit.2 (congrArg Finset.card heq)

/-- The places of a null pointer and of the kept categories. -/
theorem length_inPtrOrder (s : Finset (Option N)) : (inPtrOrder s).length = s.card := by
  rw [← List.toFinset_card_of_nodup (inPtrOrder_nodup s)]
  congr 1
  ext x
  rw [List.mem_toFinset, mem_inPtrOrder]

/-! ## §3. `Build`. -/

/-- **`Build` gets to its end on every set of categories**, with every assertion on the
way: `Sort` stops at a permutation, whose exchanges do to the metric what was expected of
them; a set of more than one ordinal is split; the decision trees are built; and each
category's own archetype reaches its own ordinal. -/
theorem build_total (rawCategories : Finset N) :
    ∃ categories order lists root,
      fixupCategories kit rawCategories = some categories
      ∧ sort kit categories = some order ∧ order.Perm (inPtrOrder categories)
      ∧ (∀ o : List (Option N), o.Perm (inPtrOrder categories) →
          (∃ tot, totalMetric kit categories o = some tot ∧ tot ≤ categories.card ^ 3)
          ∧ ∀ bs i j, (bs, i, j) ∈ blockSwaps o.length → ExchangeExact kit categories o bs i j)
      ∧ buildRanges kit categories order = some lists
      ∧ (∀ possible, possible ⊆ Finset.range order.length → 1 < possible.card →
          ∃ bestDiff bestCat bestInter,
            (inPtrOrder categories).foldlM
                (bestStep kit categories order possible) (possible.card + 1, none)
              = some (bestDiff, some (bestCat, bestInter))
            ∧ bestInter ≠ ∅ ∧ bestInter ⊂ possible)
      ∧ (∀ possible, possible ⊆ Finset.range order.length → possible ≠ ∅ →
          ∀ fuel, possible.card ≤ fuel →
            ∃ tree, makeDecisionSubtree kit categories order fuel possible = some tree)
      ∧ buildDecisionTree kit categories order = some root
      ∧ testDecisionTree kit order root = some ()
      ∧ (∀ i cat, order[i]? = some cat → ordinalFrom kit root cat = i)
      ∧ build kit rawCategories = some ⟨categories, order, lists, root⟩ := by
  obtain ⟨kept', lacing, hbuild, hbuilt⟩ := build_spec kit rawCategories
  -- `Build` returned, so each phase did
  have hphases := hbuild
  unfold build at hphases
  obtain ⟨categories, hcategories, hphases⟩ := Option.bind_eq_some_iff.mp hphases
  obtain ⟨order, horder, hphases⟩ := Option.bind_eq_some_iff.mp hphases
  obtain ⟨lists, hlists, hphases⟩ := Option.bind_eq_some_iff.mp hphases
  obtain ⟨root, hroot, hphases⟩ := Option.bind_eq_some_iff.mp hphases
  obtain ⟨_, htest, hphases⟩ := Option.bind_eq_some_iff.mp hphases
  obtain rfl := Option.some.inj hphases
  have hlaced : Laced kit kept' order := hbuilt.laced
  have hnull : categories = withNull kept' := hbuilt.categories_eq
  obtain ⟨order', hsort, hperm⟩ := sort_spec kit categories
  obtain rfl := Option.some.inj (hsort.symm.trans horder)
  -- the exchanges, the splits and the subtrees, one by one
  refine ⟨categories, order', lists, root, hcategories, horder, hperm, ?_, hlists, ?_, ?_,
    hroot, htest, ?_, hbuild⟩
  · intro o ho
    refine ⟨totalMetric_le kit categories (ho.length_eq.trans (length_inPtrOrder categories)), ?_⟩
    intro bs i j hmem
    obtain ⟨hbs, hj, hi⟩ := mem_blockSwaps hmem
    exact exchangeExact kit categories hbs hj hi
  · rw [hnull]
    exact fun possible hsub hcard => exists_strict_split hlaced hsub hcard
  · rw [hnull]
    intro possible hsub hne fuel hfuel
    obtain ⟨tree, htree, _⟩ := makeDecisionSubtree_spec hlaced fuel possible hsub hne hfuel
    exact ⟨tree, htree⟩
  · intro i cat hget
    have hall := ASSERT_eq_some.mp htest
    exact hall (cat, i) (List.mem_zipIdx_iff_getElem?.mpr hget)

end Inferno.DB.Lacing
